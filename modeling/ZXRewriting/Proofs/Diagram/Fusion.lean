import ZXRewriting.Diagram.Identities
import ZXRewriting.Proofs.Diagram.Splits

/-!
# Fusing spiders is sound

Spiders of one colour that share a wire have the same bit, so that the second one's wires may move to
the first (`Diagram.rewritesTo_fuse`); and a spider without a phase on a wire is a wire
(`Diagram.rewritesTo_removeIdentity`). What a rewrite keeps is collected in `Web.Denotes`.
-/

namespace ZXRewriting

open Function (update update_self update_of_ne)
open Multigraph (SamePair)

namespace Web

variable {w w' : Web} {s t u v : Vertex} {k : EdgeKind} {kind : SpiderKind} {p : Phase} {m : ℕ}
  {us : List Vertex} {τ : Vertex → ℂ} {b : Bits} {D : ℕ}

/-- All edges are plain. -/
def Plain (w : Web) : Prop := ∀ s t, w.count s t .hadamard = 0

/-- A web that denotes the same as another one, with plain edges and the same ends. -/
structure Denotes (w w' : Web) : Prop where
  plain : w'.Plain
  inputs : w'.inputs = w.inputs
  outputs : w'.outputs = w.outputs
  amplitude : Proportional (w.tensors 1).amplitude (w'.tensors 1).amplitude

theorem Plain.setCount (hw : w.Plain) {m : EdgeKind → ℕ} (hm : m .hadamard = 0) :
    (w.setCount s t m).Plain := fun a b => by
  simp only [Web.setCount]
  split
  · exact hm
  · exact hw a b

theorem Plain.addEdges (hw : w.Plain) : (w.addEdges s t .plain m).Plain :=
  hw.setCount (by simp [hw s t])

theorem Plain.cut (hw : w.Plain) : (w.cut s t).Plain := hw.setCount rfl

theorem Plain.remove (hw : w.Plain) : (w.remove v).Plain := fun a b => by
  simp only [Web.remove]
  split
  · rfl
  · exact hw a b

theorem Plain.addSplits (hw : w.Plain) : (w.addSplits s t kind p m).Plain := by
  induction m generalizing w with
  | zero => exact hw
  | succ m ih =>
    have h : (w.addNode kind p).Plain := hw
    exact ih h.addEdges.addEdges

theorem Plain.insertAround (hw : w.Plain) : (w.insertAround v us kind p).Plain := by
  induction us generalizing w with
  | nil => exact hw
  | cons u rest ih => exact ih hw.cut.addSplits

theorem Valid.addEdges_zero (hw : w.Valid) : w.addEdges s t k 0 = w := by
  refine Web.ext rfl rfl rfl (funext fun a => funext fun b => funext fun k' => ?_) rfl rfl rfl
  rw [hw.count_addEdges_eq, ite_self, Nat.add_zero]

theorem Valid.addEdges (hw : w.Valid) (hs : w.Has s) (ht : w.Has t) (hst : s ≠ t) (m : ℕ) :
    (w.addEdges s t k m).Valid := hw.setCount hs ht hst _

theorem Valid.addEdges_succ (hw : w.Valid) (hs : w.Has s) (ht : w.Has t) (hst : s ≠ t) (m : ℕ) :
    (w.addEdges s t k 1).addEdges s t k m = w.addEdges s t k (m + 1) := by
  refine Web.ext rfl rfl rfl (funext fun a => funext fun b => funext fun k' => ?_) rfl rfl rfl
  rw [(hw.addEdges hs ht hst 1).count_addEdges_eq, hw.count_addEdges_eq, hw.count_addEdges_eq]
  split <;> omega

/-- Wires between two spiders that have been cut and are put back. -/
theorem Plain.addEdges_cut (hplain : w.Plain) (hw : w.Valid) (hs : w.Has s) (ht : w.Has t)
    (hst : s ≠ t) : (w.cut s t).addEdges s t .plain (w.count s t .plain) = w := by
  refine Web.ext rfl rfl rfl (funext fun a => funext fun b => funext fun k => ?_) rfl rfl rfl
  rw [(hw.cut hs ht hst).count_addEdges_eq]
  change (if SamePair a b s t then 0 else w.count a b k) + _ = _
  cases k with
  | hadamard => simp [hplain a b]
  | plain =>
    split
    · next hsame => rcases hsame with ⟨rfl, rfl⟩ | ⟨rfl, rfl⟩ <;> simp [SamePair, hw.symm]
    · next hoff => simp [hoff]

/-- The edges of a web with plain ones only. -/
theorem Plain.joins (hw : w.Plain) (s t : Vertex) : w.joins s t = w.count s t .plain := by
  rw [Web.joins, hw, Nat.add_zero]

/-- The neighbours of a spider, each once for every wire, are its ends. -/
theorem Plain.endsAre (hw : w.Plain) {ns : List Vertex} (hns : ∀ u, ns.count u = w.joins v u) :
    w.EndsAre v (ns.map fun u => (u, .plain)) := by
  intro u k
  cases k with
  | plain =>
    have hinj : Function.Injective fun x : Vertex => (x, EdgeKind.plain) :=
      fun _ _ h => congrArg Prod.fst h
    rw [List.count_map_of_injective ns _ hinj, hns, hw.joins]
  | hadamard =>
    rw [hw, List.count_eq_zero_of_not_mem]
    simp

/-- Adds a wire from a spider to each of some others. -/
def wireTo (w : Web) (v : Vertex) (us : List Vertex) : Web :=
  us.foldl (fun w u => w.addEdges v u .plain 1) w

theorem wireTo_fields (w : Web) (v : Vertex) (us : List Vertex) :
    (w.wireTo v us).next = w.next ∧ (w.wireTo v us).kind = w.kind ∧
      (w.wireTo v us).phase = w.phase ∧ (w.wireTo v us).inputs = w.inputs ∧
      (w.wireTo v us).outputs = w.outputs := by
  induction us generalizing w with
  | nil => exact ⟨rfl, rfl, rfl, rfl, rfl⟩
  | cons u rest ih => exact ih (w.addEdges v u .plain 1)

theorem Plain.wireTo (hw : w.Plain) : (w.wireTo v us).Plain := by
  induction us generalizing w with
  | nil => exact hw
  | cons u rest ih => exact ih hw.addEdges

theorem Valid.wireTo (hw : w.Valid) (hv : w.Has v) (hus : ∀ u ∈ us, w.Has u ∧ v ≠ u) :
    (w.wireTo v us).Valid := by
  induction us generalizing w with
  | nil => exact hw
  | cons u rest ih =>
    obtain ⟨hu, hne⟩ := hus u List.mem_cons_self
    exact ih (hw.setCount hv hu hne _) hv fun x hx => hus x (List.mem_cons_of_mem u hx)

/-- Each new wire brings its factor. -/
theorem Valid.tensors_wireTo (hw : w.Valid) (hv : w.Has v) (hus : ∀ u ∈ us, w.Has u ∧ v ≠ u) :
    ((w.wireTo v us).tensors τ).weight b = (w.tensors τ).weight b *
      (us.map fun u => EdgeKind.plain.joint (w.leg v (b v)) (w.leg u (b u))).prod := by
  induction us generalizing w with
  | nil => simp [Web.wireTo]
  | cons u rest ih =>
    obtain ⟨hu, hne⟩ := hus u List.mem_cons_self
    have := ih (w := w.addEdges v u .plain 1) (hw.setCount hv hu hne _) hv
      fun x hx => hus x (List.mem_cons_of_mem u hx)
    rw [hw.tensors_addEdges hv hu hne, pow_one] at this
    rw [List.map_cons, List.prod_cons, ← mul_assoc]
    exact this

/-- Edges at a spider that is removed do not matter. -/
theorem remove_addEdges {x : Vertex} : (w.addEdges x u k m).remove u = w.remove u := by
  refine Web.ext rfl rfl rfl (funext fun a => funext fun b => funext fun k' => ?_) rfl rfl rfl
  by_cases hu : a = u ∨ b = u
  · exact (if_pos hu).trans (if_pos hu).symm
  · have hpair : ¬SamePair a b x u := fun hp => hu (hp.elim (fun h => .inr h.2) fun h => .inl h.1)
    exact congrArg (ite (a = u ∨ b = u) 0) (if_neg hpair)

/-- Wires at other spiders do not matter to a spider that is removed. -/
theorem remove_wireTo (hv : v ≠ u) (hus : u ∉ us) :
    (w.wireTo v us).remove u = (w.remove u).wireTo v us := by
  induction us generalizing w with
  | nil => rfl
  | cons x rest ih =>
    obtain ⟨hx, hrest⟩ := not_or.1 (fun h => hus (List.mem_cons.2 h))
    have hcomm : (w.addEdges v x .plain 1).remove u = (w.remove u).addEdges v x .plain 1 := by
      refine Web.ext rfl rfl rfl (funext fun a => funext fun b => funext fun k => ?_) rfl rfl rfl
      simp only [Web.remove, addEdges, setCount, SamePair]
      grind
    rw [wireTo, List.foldl_cons, ← wireTo, ih hrest, hcomm]
    rfl

theorem remove_setPhase (hv : v ≠ u) : (w.setPhase v p).remove u = (w.remove u).setPhase v p := by
  refine Web.ext rfl rfl ?_ rfl rfl rfl rfl
  exact Function.update_comm hv p .zero w.phase

theorem remove_addToPhase (hv : v ≠ u) :
    (w.addToPhase v p).remove u = (w.remove u).addToPhase v p := by
  rw [addToPhase, remove_setPhase hv, addToPhase, phase_remove, update_of_ne hv]

/-! ### Fusion -/

/-- Fuses a spider into another one of its colour: its wires, except those between the two, move
    there. -/
def fuseWires (w : Web) (v u : Vertex) (ns : List Vertex) : Web :=
  ((w.wireTo v (ns.filter (· ≠ v))).addToPhase v (w.phase u)).remove u

/-- The sum over the bit of a spider with a wire to one of its colour. -/
theorem Valid.sum_fuse (hw : w.Valid) (hv : w.kind v = some kind) (hu : w.kind u = some kind)
    (hkind : kind.isPhased = true) {ns : List Vertex} (hends : w.EndsAre u (ns.map fun x => (x, .plain)))
    (hmem : v ∈ ns) : ∃ c : ℂ, c ≠ 0 ∧ ∀ b, (w.tensors 1).weight (update b u false) +
        (w.tensors 1).weight (update b u true) =
      c * (((w.remove u).tensors 1).weight b * (if b v then (w.phase u).unit else 1) *
        ((ns.filter (· ≠ v)).map fun x =>
          EdgeKind.plain.joint (w.leg v (b v)) (w.leg x (b x))).prod) := by
  obtain ⟨c, hc, hjoint⟩ := SpiderKind.joint_self hkind
  have hleg : w.leg v = kind.leg := by rw [leg, kindAt_eq hv]
  have hleg' : w.leg u = kind.leg := by rw [leg, kindAt_eq hu]
  have hinner : u ∈ (w.tensors 1).inner :=
    hw.mem_tensors_of_kind hu (SpiderKind.isBoundary_of_isPhased hkind)
  have hfactor : (w.kindAt u).factor (w.phase u) = (w.phase u).unit := by
    rw [kindAt_eq hu, SpiderKind.factor_of_isPhased hkind]
  -- the wires between the two make their bits equal
  have hsplit (b : Bits) (x : Bool) :
      ((ns.map fun y => (y, EdgeKind.plain)).map fun e =>
          e.2.joint (w.leg u x) (w.leg e.1 (b e.1))).prod =
        (if x = b v then c else 0) ^ ns.count v *
          ((ns.filter (· ≠ v)).map fun y =>
            EdgeKind.plain.joint (kind.leg x) (w.leg y (b y))).prod := by
    have hpow : (ns.filter (· = v)).map (fun y =>
        EdgeKind.plain.joint (kind.leg x) (w.leg y (b y))) =
          List.replicate (ns.count v) (if x = b v then c else 0) := by
      rw [List.filter_eq, List.map_replicate, hleg, hjoint]
    have hcomp : ((fun e : Vertex × EdgeKind => e.2.joint (w.leg u x) (w.leg e.1 (b e.1))) ∘
        fun y => (y, EdgeKind.plain)) =
          fun y => EdgeKind.plain.joint (kind.leg x) (w.leg y (b y)) := by
      rw [hleg']
      rfl
    rw [List.map_map, hcomp, ← List.prod_map_filter_mul_prod_map_filter_not (· = v), hpow,
      List.prod_replicate]
  refine ⟨c ^ ns.count v, pow_ne_zero _ hc, fun b => ?_⟩
  have hpos : ns.count v ≠ 0 := (List.count_pos_iff.2 hmem).ne'
  rw [hw.tensors_star hinner hends, hw.tensors_star hinner hends, hsplit, hsplit, hfactor, hleg,
    Pi.one_apply, mul_one]
  cases b v
  · simp only [if_true, Bool.false_eq_true, Bool.true_eq_false, if_false, zero_pow hpos]
    ring
  · simp only [if_true, Bool.false_eq_true, if_false, zero_pow hpos]
    ring

/-- Fusing a spider into another one keeps what the diagram denotes up to a scalar. -/
theorem Valid.denotes_fuseWires (hw : w.Valid) (hplain : w.Plain) (hv : w.kind v = some kind)
    (hu : w.kind u = some kind) (hkind : kind.isPhased = true) (hne : v ≠ u) {ns : List Vertex}
    (hns : ∀ x, ns.count x = w.joins u x) (hmem : v ∈ ns)
    (hphase : (w.phase v + w.phase u).unit = (w.phase v).unit * (w.phase u).unit) :
    w.Denotes (w.fuseWires v u ns) := by
  have hends := hplain.endsAre hns
  obtain ⟨c, hc, hsum⟩ := hw.sum_fuse hv hu hkind hends hmem
  have hhas {x : Vertex} (hx : x ∈ ns) : w.Has x ∧ x ≠ u := by
    have hpos : 0 < w.joins u x := by
      rw [← hns]
      exact List.count_pos_iff.2 hx
    refine ⟨(hw.has_of_joins hpos).2, fun h => ?_⟩
    rw [h, hw.joins_self] at hpos
    exact absurd hpos (Nat.lt_irrefl _)
  have hold {x : Vertex} (hx : w.Has x) (hxu : x ≠ u) : (w.remove u).Has x := by
    rw [Has, kind_remove, update_of_ne hxu]
    exact hx
  have hvhas : w.Has v := (hhas hmem).1
  have hus : ∀ x ∈ ns.filter (· ≠ v), (w.remove u).Has x ∧ v ≠ x := fun x hx => by
    obtain ⟨hx, hxv⟩ := List.mem_filter.1 hx
    exact ⟨hold (hhas hx).1 (hhas hx).2, Ne.symm (of_decide_eq_true hxv)⟩
  obtain ⟨hnext, hk, hp, hin, hout⟩ := wireTo_fields w v (ns.filter (· ≠ v))
  -- the same edits with the spider removed first
  have hweb : w.fuseWires v u ns =
      ((w.remove u).wireTo v (ns.filter (· ≠ v))).addToPhase v (w.phase u) := by
    rw [fuseWires, remove_addToPhase hne, remove_wireTo hne]
    exact fun h => (hhas (List.mem_filter.1 h).1).2 rfl
  have hval := (hw.remove u).wireTo (hold hvhas hne) hus
  obtain ⟨hnext', hk', hp', -, -⟩ := wireTo_fields (w.remove u) v (ns.filter (· ≠ v))
  have hinner : ((w.fuseWires v u ns).tensors 1).inner = (w.tensors 1).inner.erase u := by
    rw [hweb, ← hw.tensors_inner_remove]
    exact tensors_inner_congr hnext' hk'
  have hkv : ((w.remove u).wireTo v (ns.filter (· ≠ v))).kind v = some kind := by
    rw [hk', kind_remove, update_of_ne hne, hv]
  have hmemv : v ∈ (((w.remove u).wireTo v (ns.filter (· ≠ v))).tensors 1).inner :=
    hval.mem_tensors_of_kind hkv (SpiderKind.isBoundary_of_isPhased hkind)
  have hleg {x : Vertex} (hx : x ≠ u) : (w.remove u).leg x = w.leg x := by
    rw [leg, leg, kindAt, kindAt, kind_remove, update_of_ne hx]
  have hfactor : (((w.remove u).wireTo v (ns.filter (· ≠ v))).kindAt v).factor
      (((w.remove u).wireTo v (ns.filter (· ≠ v))).phase v + w.phase u) =
        (((w.remove u).wireTo v (ns.filter (· ≠ v))).kindAt v).factor
          (((w.remove u).wireTo v (ns.filter (· ≠ v))).phase v) * (w.phase u).unit := by
    rw [kindAt_eq hkv, hp', phase_remove, update_of_ne hne, SpiderKind.factor_of_isPhased hkind,
      SpiderKind.factor_of_isPhased hkind, hphase]
  refine ⟨?_, hin, hout, c, hc, Network.amplitude_eq_of_sum ?_ hinner fun b => ?_⟩
  · rw [hweb]
    exact hplain.remove.wireTo
  · exact hw.mem_tensors_of_kind hu (SpiderKind.isBoundary_of_isPhased hkind)
  · have hmap : ((ns.filter (· ≠ v)).map fun x =>
        EdgeKind.plain.joint ((w.remove u).leg v (b v)) ((w.remove u).leg x (b x))) =
          (ns.filter (· ≠ v)).map fun x =>
            EdgeKind.plain.joint (w.leg v (b v)) (w.leg x (b x)) :=
      List.map_congr_left fun x hx => by
        rw [hleg hne, hleg (hhas (List.mem_filter.1 hx).1).2]
    rw [hsum, hweb, Web.addToPhase, tensors_setPhase hmemv hfactor,
      (hw.remove u).tensors_wireTo (hold hvhas hne) hus, hmap]
    ring

/-! ### Identities -/

/-- A coloured spider without a phase on a wire between two others is a wire. -/
theorem Valid.denotes_bypass (hw : w.Valid) (hplain : w.Plain) (hv : w.kind v = some kind)
    (hkind : kind.isPhased = true) (hphase : (w.phase v).unit = 1) (hst : s ≠ t)
    (hends : w.EndsAre v [(s, .plain), (t, .plain)]) :
    w.Denotes ((w.remove v).addEdges s t .plain 1) := by
  have hinner : v ∈ (w.tensors 1).inner :=
    hw.mem_tensors_of_kind hv (SpiderKind.isBoundary_of_isPhased hkind)
  have hfactor : (w.kindAt v).factor (w.phase v) * (1 : Vertex → ℂ) v = 1 := by
    rw [kindAt_eq hv, SpiderKind.factor_of_isPhased hkind, hphase, Pi.one_apply, mul_one]
  obtain ⟨c, hc, hbridge⟩ := SpiderKind.bridge_identity hkind .plain .plain
  refine ⟨hplain.remove.addEdges, rfl, rfl, hw.amplitude_bypass hinner hends hst hc fun f g => ?_⟩
  rw [hfactor, kindAt_eq hv]
  exact hbridge f g

end Web

end ZXRewriting
