import ZXRewriting.Diagram.Colours
import ZXRewriting.Proofs.Diagram.Fusion

/-!
# Changing colours is sound

An X spider is a Z spider behind Hadamard edges, and a Hadamard edge is a wire with a box
(`Valid.denotes_boxed`). The other way round, the boxes around a spider become Hadamard edges one by
one, whatever lies behind them: a spider, or another one of the boxes (`Boxed.absorbBox`).
-/

namespace ZXRewriting

open Function (update update_self update_of_ne)
open Multigraph (SamePair)

namespace Web

variable {w w' : Web} {s t u v h : Vertex} {k : EdgeKind} {kind : SpiderKind} {p : Phase} {m : ℕ}
  {us hs : List Vertex} {τ : Vertex → ℂ} {b : Bits}

/-- Who is carried does not matter to what a web denotes. -/
theorem Denotes.of_eq {w'' : Web} (h : w.Denotes w') (hn : w''.next = w'.next)
    (hk : w''.kind = w'.kind) (hp : w''.phase = w'.phase) (hc : w''.count = w'.count)
    (hin : w''.inputs = w'.inputs) (hout : w''.outputs = w'.outputs) : w.Denotes w'' where
  plain s t := by rw [hc, h.plain]
  inputs := hin.trans h.inputs
  outputs := hout.trans h.outputs
  amplitude := by rw [tensors_congr hn hk hp hc]; exact h.amplitude

theorem Denotes.recarry (h : w.Denotes w') (carrier : Vertex → Option Carrier) :
    w.Denotes { w' with carrier } := h.of_eq rfl rfl rfl rfl rfl rfl

theorem splicedAround_eq (v : Vertex) (us : List Vertex) {c : ℂ} {f : Vertex → ℂ}
    (hf : ∀ u ∈ us, w.spliced kind p v u b = c * f u) :
    w.splicedAround kind p v us b = c ^ (us.map fun u => w.count v u .plain).sum *
      (us.map fun u => f u ^ w.count v u .plain).prod := by
  induction us with
  | nil => simp [splicedAround]
  | cons u rest ih =>
    have ih := ih fun x hx => hf x (List.mem_cons_of_mem u hx)
    rw [splicedAround] at ih
    rw [splicedAround, List.map_cons, List.prod_cons, ih, hf u List.mem_cons_self, List.map_cons,
      List.sum_cons, List.map_cons, List.prod_cons, mul_pow, pow_add]
    ring

/-! ### Boxes around a spider -/

/-- An X spider is a Z spider with a box on every wire. -/
theorem Valid.denotes_boxed (hw : w.Valid) (hplain : w.Plain) (hv : w.kind v = some .x) :
    w.Denotes ((w.insertAround v (w.nearby v) .box .zero).paint v .z) := by
  have hhas : w.Has v := by rw [Has, hv]; rfl
  have haround : w.Around v (w.nearby v) :=
    ⟨hhas, fun u hu => hw.has_of_mem_nearby hu, hw.notMem_nearby_self, nodup_nearby⟩
  have haround' : (w.paint v .z).Around v (w.nearby v) :=
    ⟨(has_paint hhas).2 hhas, fun u hu => (has_paint hhas).2 (haround.hasAll u hu),
      haround.notMem, haround.nodup⟩
  have hflip := hw.flip hhas
  have haround'' : (w.flip v).Around v (w.nearby v) :=
    ⟨(has_flip hhas).2 hhas, fun u hu => (has_flip hhas).2 (haround.hasAll u hu),
      haround.notMem, haround.nodup⟩
  have hkind : (w.flip v).kind = (w.paint v .z).kind := by
    change update w.kind v (some (w.kindAt v).opposite) = update w.kind v (some .z)
    rw [kindAt_eq hv]
    rfl
  -- without the edges at the spider the two webs are the same
  have hcore : ((w.paint v .z).cutAround v (w.nearby v)).tensors 1 =
      ((w.flip v).cutAround v (w.nearby v)).tensors 1 := by
    obtain ⟨hn, hk, hp⟩ := cutAround_fields (w.paint v .z) v (w.nearby v)
    obtain ⟨hn', hk', hp'⟩ := cutAround_fields (w.flip v) v (w.nearby v)
    refine tensors_congr (hn.trans hn'.symm) (hk.trans (hkind.symm.trans hk'.symm))
      (hp.trans hp'.symm) (funext fun a => funext fun b => funext fun k => ?_)
    rw [count_cutAround, count_cutAround, count_flip]
    have hnone {x : Vertex} (hx : x ∉ w.nearby v) (k : EdgeKind) : w.count v x k = 0 := by
      rw [hw.mem_nearby, joins] at hx
      cases k <;> omega
    split
    · rfl
    · next hab =>
      change w.count a b k = _
      split
      · next hv' =>
        rcases hv' with rfl | rfl
        · have hb : b ∉ w.nearby a := fun hm => hab (.inl ⟨rfl, hm⟩)
          rw [hnone hb, hnone hb]
        · have ha : a ∉ w.nearby b := fun hm => hab (.inr ⟨rfl, hm⟩)
          rw [hw.symm, hnone ha, hw.symm, hnone ha]
      · rfl
  have hbond (b : Bits) : (w.nearby v).map (fun u => ((w.flip v).tensors 1).bond b v u) =
      (w.nearby v).map fun u => EdgeKind.hadamard.joint ((w.paint v .z).leg v (b v))
        ((w.paint v .z).leg u (b u)) ^ (w.paint v .z).count v u .plain :=
    List.map_congr_left fun u _ => by
      rw [bond_tensors, count_flip, count_flip, if_pos (.inl rfl), if_pos (.inl rfl)]
      rw [show EdgeKind.plain.opposite = .hadamard from rfl,
        show EdgeKind.hadamard.opposite = .plain from rfl, hplain, pow_zero, one_mul, leg, leg, leg,
        leg, kindAt, kindAt, kindAt, kindAt, hkind]
      rfl
  have hspliced (b : Bits) : (w.paint v .z).splicedAround .box .zero v (w.nearby v) b =
      ((w.nearby v).map fun u => ((w.flip v).tensors 1).bond b v u).prod := by
    have hone : ∀ u ∈ w.nearby v, (w.paint v .z).spliced .box .zero v u b =
        1 * EdgeKind.hadamard.joint ((w.paint v .z).leg v (b v)) ((w.paint v .z).leg u (b u)) :=
      fun u _ => by
        rw [spliced, SpiderKind.factor_box, SpiderKind.bridge_box,
          if_pos ⟨rfl, rfl⟩]
        rfl
    rw [hbond, splicedAround_eq v _ hone, one_pow, one_mul]
  have hinner : ((w.paint v .z).tensors 1).inner = ((w.flip v).tensors 1).inner :=
    tensors_inner_congr rfl hkind.symm
  have hamp (b : Bits) : (((w.insertAround v (w.nearby v) .box .zero).paint v .z).tensors 1).amplitude
      b = ((w.flip v).tensors 1).amplitude b := by
    have hsum : (((w.paint v .z).insertAround v (w.nearby v) .box .zero).tensors 1).amplitude b = _ :=
      (hw.paint hhas .z).amplitude_insertAround (τ := 1) haround' rfl (fun _ _ => rfl) b
    rw [hw.paint_insertAround haround, hsum, hinner, Network.amplitude]
    refine sumOver_congr fun b' _ => ?_
    rw [hflip.tensors_cutAround haround'', hcore, hspliced]
  obtain ⟨hin, hout⟩ := ends_insertAround w v (w.nearby v) .box .zero
  refine ⟨hplain.insertAround, hin, hout, (hw.amplitude_flip_x hv).trans ?_⟩
  exact Proportional.of_eq fun b => (hamp b).symm

/-! ### Absorbing boxes -/

/-- Removes a box, and joins its other neighbour to `v` by an edge of the given kind. -/
def absorbBox (k : EdgeKind) (v : Vertex) (w : Web) (h : Vertex) : Web :=
  match (w.nearby h).find? (· ≠ v) with
  | some u => (w.remove h).addEdges v u k 1
  | none => w.remove h

/-- Makes the edges at a spider plain. -/
def plainAt (w : Web) (v : Vertex) : Web :=
  { w with
    count := fun s t k =>
      if s = v ∨ t = v then if k = .plain then w.joins s t else 0 else w.count s t k }

/-- Boxes around a spider, some of which have been absorbed as Hadamard edges. One that is left has
    a wire to the spider, and either one to another neighbour or a Hadamard edge to the spider. -/
structure Boxed (w : Web) (v : Vertex) (kind : SpiderKind) (hs : List Vertex) : Prop where
  valid : w.Valid
  coloured : w.kind v = some kind
  phased : kind.isPhased = true
  nodup : hs.Nodup
  wires : ∀ u, w.count v u .plain = if u ∈ hs then 1 else 0
  plain : ∀ s t, s ≠ v → t ≠ v → w.count s t .hadamard = 0
  box : ∀ h ∈ hs, w.kind h = some .box ∧ ((∃ u, u ≠ v ∧ w.EndsAre h [(v, .plain), (u, .plain)]) ∨
    w.EndsAre h [(v, .plain), (v, .hadamard)])

/-- Searching a list for the only element that passes. -/
theorem find?_eq_some_of_unique {α : Type} {l : List α} {q : α → Bool} {a : α} (ha : a ∈ l)
    (hq : q a = true) (h : ∀ x ∈ l, q x = true → x = a) : l.find? q = some a := by
  obtain ⟨x, hx⟩ := Option.isSome_iff_exists.1 (List.find?_isSome.2 ⟨a, ha, hq⟩)
  rw [hx, h x (List.mem_of_find?_eq_some hx) (List.find?_some hx)]

theorem EndsAre.joins_pos_iff {ends : List (Vertex × EdgeKind)} (h : w.EndsAre v ends) :
    0 < w.joins v u ↔ u ∈ ends.map Prod.fst := by
  rw [Web.joins_pos_iff, List.mem_map]
  constructor
  · rintro ⟨k, hk⟩
    rw [h] at hk
    exact ⟨(u, k), List.count_pos_iff.1 hk, rfl⟩
  · rintro ⟨⟨x, k⟩, hmem, rfl⟩
    exact ⟨k, by rw [h]; exact List.count_pos_iff.2 hmem⟩

/-- The neighbour behind a box. -/
theorem Valid.find_nearby (hw : w.Valid) (hu : u ≠ v)
    (hends : w.EndsAre h [(v, .plain), (u, .plain)]) :
    (w.nearby h).find? (· ≠ v) = some u := by
  have hmem {x : Vertex} : x ∈ w.nearby h ↔ x = v ∨ x = u := by
    rw [hw.mem_nearby, hends.joins_pos_iff]
    simp
  refine find?_eq_some_of_unique (hmem.2 (.inr rfl)) (decide_eq_true hu) fun x hx hne => ?_
  exact (hmem.1 hx).resolve_left (of_decide_eq_true hne)

theorem Valid.find_nearby_eq_none (hw : w.Valid)
    (hends : w.EndsAre h [(v, .plain), (v, .hadamard)]) :
    (w.nearby h).find? (· ≠ v) = none := by
  rw [List.find?_eq_none]
  intro x hx
  rw [hw.mem_nearby, hends.joins_pos_iff] at hx
  simpa using hx

namespace Boxed

theorem ne (hw : w.Boxed v kind hs) (hh : h ∈ hs) : h ≠ v := by
  rintro rfl
  have := hw.wires h
  rw [hw.valid.self, if_pos hh] at this
  exact absurd this Nat.zero_ne_one

/-- Removing a box that leads back to the spider. -/
theorem remove (hw : w.Boxed v kind (h :: hs))
    (hends : w.EndsAre h [(v, .plain), (v, .hadamard)]) : (w.remove h).Boxed v kind hs := by
  have hnotin := (List.nodup_cons.1 hw.nodup).1
  have hhv := hw.ne List.mem_cons_self
  rw [endsAre_pair] at hends
  refine ⟨hw.valid.remove h, ?_, hw.phased, hw.nodup.of_cons, fun u => ?_, fun s t hs ht => ?_,
    fun x hx => ?_⟩
  · rw [kind_remove, update_of_ne hhv.symm]
    exact hw.coloured
  · have := hw.wires u
    simp only [List.mem_cons] at this
    simp only [Web.remove]
    grind
  · simp only [Web.remove]
    split
    · rfl
    · exact hw.plain s t hs ht
  · obtain ⟨hbox, hx'⟩ := hw.box x (List.mem_cons_of_mem h hx)
    have hxh : x ≠ h := fun e => hnotin (e ▸ hx)
    have hxv := hw.ne (List.mem_cons_of_mem h hx)
    -- no edge joins the two boxes
    have hsame (u : Vertex) (k : EdgeKind) : (w.remove h).count x u k = w.count x u k := by
      simp only [Web.remove]
      split
      · next hu =>
        rw [hu.resolve_left hxh, hw.valid.symm, hends, if_neg fun e => hxv e.1,
          if_neg fun e => hxv e.1]
      · rfl
    refine ⟨by rw [kind_remove, update_of_ne hxh]; exact hbox, ?_⟩
    simp only [EndsAre, hsame]
    exact hx'

/-- Turning a box with another neighbour into a Hadamard edge. -/
theorem addEdge (hw : w.Boxed v kind (h :: hs)) (huv : u ≠ v)
    (hends : w.EndsAre h [(v, .plain), (u, .plain)]) :
    ((w.remove h).addEdges v u .hadamard 1).Boxed v kind hs := by
  have hval := hw.valid
  have hnotin := (List.nodup_cons.1 hw.nodup).1
  have hhv := hw.ne List.mem_cons_self
  rw [endsAre_pair] at hends
  have hhu : h ≠ u := by
    rintro rfl
    have := hends h .plain
    rw [hval.self, if_neg fun e => hhv e.1, if_pos ⟨rfl, rfl⟩] at this
    omega
  have hu : w.Has u := by
    refine hval.has u h .plain ?_
    rw [hval.symm, hends, if_pos (show u = u ∧ EdgeKind.plain = .plain from ⟨rfl, rfl⟩)]
    omega
  have hold {x : Vertex} (hx : w.Has x) (hxh : x ≠ h) : (w.remove h).Has x := by
    rw [Has, kind_remove, update_of_ne hxh]
    exact hx
  have hv : w.Has v := by rw [Has, hw.coloured]; rfl
  have hcount (a b : Vertex) (k : EdgeKind) :
      ((w.remove h).addEdges v u .hadamard 1).count a b k =
        if a = h ∨ b = h then 0
        else w.count a b k + if SamePair a b v u ∧ k = .hadamard then 1 else 0 := by
    have hsymm := hval.symm u v
    simp only [addEdges, setCount, Web.remove, SamePair]
    grind
  refine ⟨(hval.remove h).setCount (hold hv hhv.symm) (hold hu hhu.symm) huv.symm _, ?_, hw.phased,
    hw.nodup.of_cons, fun x => ?_, fun s t hs ht => ?_, fun x hx => ?_⟩
  · change (w.remove h).kind v = _
    rw [kind_remove, update_of_ne hhv.symm]
    exact hw.coloured
  · have := hw.wires x
    simp only [List.mem_cons] at this
    rw [hcount]
    simp only [SamePair]
    grind
  · have := hw.plain s t hs ht
    rw [hcount]
    simp only [SamePair]
    grind
  · obtain ⟨hbox, hx'⟩ := hw.box x (List.mem_cons_of_mem h hx)
    have hxh : x ≠ h := fun e => hnotin (e ▸ hx)
    have hxv := hw.ne (List.mem_cons_of_mem h hx)
    refine ⟨(update_of_ne hxh _ _).trans hbox, ?_⟩
    have hxhcount := hends x .plain
    rw [hval.symm] at hxhcount
    by_cases hxu : x = u
    · -- the other neighbour is a box too, which is left with both edges at the spider
      subst hxu
      rw [if_neg fun e => hxv e.1, if_pos ⟨rfl, rfl⟩, Nat.zero_add] at hxhcount
      refine .inr (endsAre_pair.2 fun y k => ?_)
      rcases hx' with ⟨u', hu', hx'⟩ | hx'
      · rw [endsAre_pair] at hx'
        obtain rfl : h = u' := by
          have := hx' h .plain
          grind
        rw [hcount, hx']
        simp only [SamePair]
        grind
      · rw [endsAre_pair] at hx'
        have := hx' h .plain
        grind
    · have hzero (k : EdgeKind) : w.count x h k = 0 := by
        rw [hval.symm, hends, if_neg fun e => hxv e.1, if_neg fun e => hxu e.1]
      have hsame (y : Vertex) (k : EdgeKind) :
          ((w.remove h).addEdges v u .hadamard 1).count x y k = w.count x y k := by
        have := hzero k
        rw [hcount]
        simp only [SamePair]
        grind
      simp only [EndsAre, hsame]
      exact hx'

/-- Absorbing a box as a Hadamard edge keeps what the diagram denotes up to a scalar. -/
theorem absorbBox (hw : w.Boxed v kind (h :: hs)) : (Web.absorbBox .hadamard v w h).Boxed v kind hs ∧
    Proportional (w.tensors 1).amplitude ((Web.absorbBox .hadamard v w h).tensors 1).amplitude := by
  obtain ⟨hbox, hends⟩ := hw.box h List.mem_cons_self
  have hval := hw.valid
  have hinner : h ∈ (w.tensors 1).inner := hval.mem_tensors_of_kind hbox rfl
  have hbridge (k₁ k₂ : EdgeKind) (f g : Bool → ℂ) :
      (w.kindAt h).bridge ((w.kindAt h).factor (w.phase h) * (1 : Vertex → ℂ) h) k₁ k₂ f g =
        (if k₁ = .plain ∧ k₂ = .plain then 1 else 2) * (k₁.merge k₂).opposite.joint f g := by
    rw [← SpiderKind.bridge_box, kindAt_eq hbox, Pi.one_apply, mul_one, SpiderKind.factor_box]
  rcases hends with ⟨u, huv, hends⟩ | hends
  · rw [Web.absorbBox, hval.find_nearby huv hends]
    refine ⟨hw.addEdge huv hends, hval.amplitude_bypass hinner hends huv.symm one_ne_zero
      fun f g => ?_⟩
    rw [hbridge, if_pos ⟨rfl, rfl⟩]
    rfl
  · rw [Web.absorbBox, hval.find_nearby_eq_none hends]
    obtain ⟨c, hc, hjoint⟩ := SpiderKind.joint_self hw.phased
    refine ⟨hw.remove hends, hval.amplitude_drop hinner hends (mul_ne_zero two_ne_zero hc)
      fun y => ?_⟩
    have hself : EdgeKind.plain.joint (w.leg v y) (w.leg v y) = c := by
      rw [leg, kindAt_eq hw.coloured, hjoint, if_pos rfl]
    rw [hbridge, if_neg (by decide), ← hself]
    rfl

/-- Absorbing all boxes. -/
theorem foldl_absorbBox (hw : w.Boxed v kind hs) : (hs.foldl (Web.absorbBox .hadamard v) w).Boxed v kind [] ∧
    Proportional (w.tensors 1).amplitude
      ((hs.foldl (Web.absorbBox .hadamard v) w).tensors 1).amplitude := by
  induction hs generalizing w with
  | nil => exact ⟨hw, .refl _⟩
  | cons h rest ih =>
    obtain ⟨hw', hamp⟩ := hw.absorbBox
    obtain ⟨hend, hamp'⟩ := ih hw'
    exact ⟨hend, hamp.trans hamp'⟩

/-- Without boxes left, all edges at the spider are Hadamard edges, and it changes its colour. -/
theorem amplitude_recolour (hw : w.Boxed v kind []) : Proportional (w.tensors 1).amplitude
    (((w.plainAt v).paint v kind.opposite).tensors 1).amplitude := by
  have hflip := hw.valid.amplitude_flip (τ := 1) hw.coloured hw.phased
  have hnone (u : Vertex) : w.count v u .plain = 0 := hw.wires u
  have hweb : (w.flip v).tensors 1 = ((w.plainAt v).paint v kind.opposite).tensors 1 := by
    refine tensors_congr rfl ?_ rfl (funext fun s => funext fun t => funext fun k => ?_)
    · change update w.kind v _ = update w.kind v _
      rw [kindAt_eq hw.coloured]
    · have hleft := hnone t
      have hright := (hw.valid.symm s v .plain).trans (hnone s)
      change w.count s t _ = if s = v ∨ t = v then if k = .plain then w.joins s t else 0
        else w.count s t k
      split
      · next hst =>
        have hz : w.count s t .plain = 0 := by
          rcases hst with rfl | rfl
          · exact hleft
          · exact hright
        cases k
        · rw [if_pos rfl, joins, hz, Nat.zero_add]
          rfl
        · rw [if_neg (by decide)]
          exact hz
      · rfl
  rwa [hweb] at hflip

end Boxed

/-- Whether the new edges are plain is only seen at the spider. -/
theorem plainAt_absorbBox (hw : w.Valid) (h : Vertex) (hv : h ≠ v) :
    (Web.absorbBox .hadamard v w h).plainAt v = Web.absorbBox .plain v (w.plainAt v) h := by
  have hjoins (s t : Vertex) : (w.plainAt v).joins s t = w.joins s t := by
    rw [joins, plainAt]
    dsimp only
    split
    · simp
    · rfl
  have hnearby : (w.plainAt v).nearby h = w.nearby h := by
    simp only [nearby, hjoins]
    rfl
  rw [Web.absorbBox, Web.absorbBox, hnearby]
  cases (w.nearby h).find? (· ≠ v) with
  | none =>
    refine Web.ext rfl rfl rfl (funext fun a => funext fun b => funext fun k => ?_) rfl rfl rfl
    simp only [plainAt, Web.remove, joins]
    grind
  | some u =>
    refine Web.ext rfl rfl rfl (funext fun a => funext fun b => funext fun k => ?_) rfl rfl rfl
    have hsymm := hw.symm u v
    simp only [plainAt, Web.remove, joins, addEdges, setCount, SamePair]
    grind

/-- Absorbing the boxes around a spider, which changes its colour. -/
theorem Boxed.denotes (hw : w.Boxed v kind hs) (hplain : w.Plain) :
    w.Denotes ((hs.foldl (Web.absorbBox .plain v) w).paint v kind.opposite) := by
  have hat : w.plainAt v = w := by
    refine Web.ext rfl rfl rfl (funext fun a => funext fun b => funext fun k => ?_) rfl rfl rfl
    simp only [plainAt, joins, hplain a b, Nat.add_zero]
    cases k <;> simp [hplain a b]
  have hfold : ∀ {hs : List Vertex} {w : Web}, w.Boxed v kind hs →
      (hs.foldl (Web.absorbBox .hadamard v) w).plainAt v =
        hs.foldl (Web.absorbBox .plain v) (w.plainAt v) := by
    intro hs
    induction hs with
    | nil => exact fun _ => rfl
    | cons h rest ih =>
      intro w hw
      rw [List.foldl_cons, List.foldl_cons, ih hw.absorbBox.1,
        plainAt_absorbBox hw.valid h (hw.ne List.mem_cons_self)]
  have hplains : ∀ (hs : List Vertex) {w : Web}, w.Plain →
      (hs.foldl (Web.absorbBox .plain v) w).Plain ∧
      (hs.foldl (Web.absorbBox .plain v) w).inputs = w.inputs ∧
      (hs.foldl (Web.absorbBox .plain v) w).outputs = w.outputs := by
    intro hs
    induction hs with
    | nil => exact fun h => ⟨h, rfl, rfl⟩
    | cons h rest ih =>
      intro w hw
      have hstep : (Web.absorbBox .plain v w h).Plain ∧ (Web.absorbBox .plain v w h).inputs = w.inputs ∧
          (Web.absorbBox .plain v w h).outputs = w.outputs := by
        rw [Web.absorbBox]
        split
        · exact ⟨hw.remove.addEdges, rfl, rfl⟩
        · exact ⟨hw.remove, rfl, rfl⟩
      obtain ⟨hp, hin, hout⟩ := ih hstep.1
      exact ⟨hp, hin.trans hstep.2.1, hout.trans hstep.2.2⟩
  obtain ⟨hp, hin, hout⟩ := hplains hs hplain
  obtain ⟨hend, hamp⟩ := hw.foldl_absorbBox
  have := hend.amplitude_recolour
  rw [hfold hw, hat] at this
  exact ⟨hp, hin, hout, hamp.trans this⟩

end Web

end ZXRewriting
