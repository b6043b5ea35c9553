import ZXRewriting.Proofs.Diagram.Thinning
import ZXRewriting.Proofs.Semantics.Reversible

/-!
# What cells denote

The spiders of the last cell of a woven web lie at the ends of threads, and are taken off one after the
other: each leaves its action on the bit of an output (`Tied.amplitude_bypass`). So the web denotes
the actions of its cells, in their order, on what bare wires denote (`Woven.amplitude_eq`).

The factors of the spiders may be twisted by any numbers that are not zero. Whatever these are, the web
denotes an invertible map (`Woven.reversible`).
-/

namespace ZXRewriting

open Equiv (Perm)
open Function (update update_self update_of_ne)
open Multigraph (SamePair)

open Classical in
/-- Wires in the order of a permutation. -/
theorem wiring_map_range {o i : ℕ → Vertex} {σ : Perm ℕ} {n : ℕ} {b : Bits} :
    wiring o i ((List.range n).map σ) b =
      if ∀ q < n, b (o q) = b (i (σ q)) then 1 else 0 := by
  refine if_congr ⟨fun h q hq => h q _ ?_, fun h q r hqr => ?_⟩ rfl rfl
  · rw [List.getElem?_map, List.getElem?_range hq]
    rfl
  · obtain ⟨hq, rfl⟩ := List.getElem?_eq_some_iff.1 hqr
    rw [List.getElem_map, List.getElem_range]
    exact h q (by simpa using hq)

/-- An X spider that another bit turns over, or not. -/
theorem SpiderKind.act_control {o o' : Vertex} (hne : o ≠ o') (c : ℂ) (f : Bits → ℂ) (b : Bits) :
    x.act (c * EdgeKind.hadamard.value true (b o)) o' f b =
      x.act c o' (fun b => f (update b o' (b o' ^^ b o))) b := by
  cases hb : b o <;> cases hb' : b o' <;>
    simp [act, leg, EdgeKind.value, hb, hb', update_of_ne hne] <;> ring

/-- The action of a cell on a function of bits, that at the end of the thread `t` being at `o t`: the
    gate, and then the spiders of a gate on two wires with their phases. Factors are twisted by `τ`. -/
noncomputable def Cell.act (τ : Vertex → ℂ) (o : ℕ → Vertex) (c : Cell) (f : Bits → ℂ) : Bits → ℂ :=
  match c with
  | wire κ p v t => κ.act (κ.factor p * τ v) (o t) f
  | cnot p p' a b s t => SpiderKind.x.act (p'.unit * τ b) (o t)
      (SpiderKind.z.act (p.unit * τ a) (o s) ((Gate.plain .cnot [s, t]).act o f))
  | cz p p' a b _ s t => SpiderKind.z.act (p'.unit * τ b) (o t)
      (SpiderKind.z.act (p.unit * τ a) (o s) ((Gate.plain .cz [s, t]).act o f))

namespace Web

variable {w w' : Web} {v a b m o x : Vertex} {us : List Vertex} {n t : ℕ}
  {lines : Diagram.Side → Perm ℕ} {beside : Vertex → List Vertex}
  {spots : List (Vertex × ℕ)} {τ : Vertex → ℂ} {κ : SpiderKind} {p : Phase}

theorem WiredTo.endsAre (h : w.WiredTo v [a, b]) : w.EndsAre v [(a, .plain), (b, .plain)] := by
  refine endsAre_pair.2 fun x k => ?_
  rw [h]
  cases k <;> simp [List.count_cons, eq_comm (a := x), Nat.add_comm]

/-! ### A spider at an end -/

section Peel

variable (hw : w.Valid) (ho : w.IsEnd o)
include hw ho

theorem WiredTo.weight_bypass (hwired : w.WiredTo v [a, o]) (hao : a ≠ o) (b : Bits) : ((w.bypass v a o .plain).tensors τ).weight b =
    ((w.remove v).tensors τ).weight b * w.leg a (b a) (b o) := by
  have hhas {x : Vertex} (hx : x ∈ [a, o]) : (w.remove v).Has x ∧ (w.remove v).leg x = w.leg x := by
    obtain ⟨hx, hxv⟩ := hw.has_of_endsAre hwired.endsAre (x := x) (k := .plain) (by simpa using hx)
    refine ⟨?_, ?_⟩
    · rwa [Has, kind_remove, update_of_ne hxv]
    · rw [leg, leg, kindAt, kindAt, kind_remove, update_of_ne hxv]
  obtain ⟨ha, hla⟩ := hhas List.mem_cons_self
  obtain ⟨ho', hlo⟩ := hhas (List.mem_cons_of_mem _ List.mem_cons_self)
  rw [Web.bypass, (hw.remove v).tensors_addEdges ha ho' hao, pow_one, hla, hlo, leg_of_isEnd ho,
    EdgeKind.joint_comm, EdgeKind.joint_copy]

/-- Without the spider, the bit at the end does not matter. -/
theorem Tied.weight_remove_update (ht : w.Tied o v) (b : Bits) (x : Bool) :
    ((w.remove v).tensors τ).weight (update b o x) = ((w.remove v).tensors τ).weight b := by
  have hov := ht.ne hw
  refine Network.weight_update_isolated ((hw.remove v).tensors τ) (fun hmem => ?_)
    (fun y => edge_tensors_eq_one fun k => ?_) b x
  · rw [hw.tensors_inner_remove, Finset.mem_erase] at hmem
    exact IsEnd.notMem_tensors ho hmem.2
  · change (if o = v ∨ y = v then 0 else w.count o y k) = 0
    split
    · rfl
    · next hne => rw [ht, if_neg fun hy => hne (.inr hy.1)]

/-- A spider between an end and another vertex acts on the bit of the end. -/
theorem Tied.amplitude_bypass (ht : w.Tied o v) (hv : w.kind v = some κ)
    (hκ : κ.isBoundary = false) (hwired : w.WiredTo v [a, o]) (hao : a ≠ o) :
    (w.tensors τ).amplitude =
      κ.act (κ.factor (w.phase v) * τ v) o ((w.bypass v a o .plain).tensors τ).amplitude := by
  have hmem : v ∈ (w.tensors τ).inner := hw.mem_tensors_of_kind hv hκ
  have hinner : ((w.bypass v a o .plain).tensors τ).inner = (w.tensors τ).inner.erase v :=
    hw.tensors_inner_remove v
  have hout : o ∉ (w.tensors τ).inner.erase v := fun h =>
    IsEnd.notMem_tensors ho (Finset.mem_of_mem_erase h)
  have hkind := kindAt_eq hv
  set c := κ.factor (w.phase v) * τ v with hc
  -- what is left, with another bit at the end
  have hother (b : Bits) (s : Bool) : ((w.bypass v a o .plain).tensors τ).amplitude (update b o s) =
      sumOver ((w.tensors τ).inner.erase v)
        (fun b => ((w.remove v).tensors τ).weight b * w.leg a (b a) s) b := by
    rw [Network.amplitude, hinner, sumOver_update_of_notMem hout]
    refine sumOver_congr fun b' _ => ?_
    rw [hwired.weight_bypass hw ho hao, ht.weight_remove_update hw ho,
      update_self, update_of_ne hao]
  have hsum (b : Bits) : (w.tensors τ).weight (update b v false) +
      (w.tensors τ).weight (update b v true) = ((w.remove v).tensors τ).weight b *
        ∑ s, w.leg a (b a) s *
          (κ.leg false s * κ.leg false (b o) + c * (κ.leg true s * κ.leg true (b o))) := by
    rw [hw.sum_bridge hmem hwired.endsAre, hkind, SpiderKind.bridge, leg_of_isEnd ho,
      EdgeKind.joint_comm .plain _ (EdgeKind.plain.value _),
      EdgeKind.joint_comm .plain _ (EdgeKind.plain.value _), EdgeKind.joint_copy,
      EdgeKind.joint_copy, EdgeKind.joint_plain, EdgeKind.joint_plain, Fintype.sum_bool]
    ring
  funext b
  rw [Network.amplitude_sum hmem, SpiderKind.act, Fintype.sum_bool, hother, hother,
    mul_comm (sumOver _ _ _), mul_comm (sumOver _ _ _), ← sumOver_mul_left, ← sumOver_mul_left,
    ← sumOver_add]
  refine sumOver_congr fun b' hb' => ?_
  rw [hsum, hb' o hout, Fintype.sum_bool]
  ring

end Peel

/-- The last spider on a thread is next to the output. -/
theorem Threaded.exists_last {before after : List (Vertex × ℕ)}
    (h : w.Threaded n lines beside (before ++ (v, t) :: after)) (hlast : ∀ x, (x, t) ∉ after) :
    ∃ a, w.WiredTo v (a :: w.output ((lines .back).symm t) :: beside v) ∧
      w.Tied (w.output ((lines .back).symm t)) v ∧ (lines .back).symm t < n := by
  obtain ⟨a, b, hwired, -, hb⟩ := h.runs.exists_wiredTo
  obtain ⟨q, hq, rfl, rfl⟩ := hb.resolve_left (hlast b)
  rw [Equiv.symm_apply_apply]
  obtain ⟨u, htied, -⟩ := h.exists_tied .back hq
  have hcount := hwired.count_comm h.valid (tied_iff.1 htied)
  have hpos : 0 < [u].count v := by
    rw [← hcount]
    exact List.count_pos_iff.2 (List.mem_cons_of_mem _ List.mem_cons_self)
  obtain rfl : v = u := List.mem_singleton.1 (List.count_pos_iff.1 hpos)
  exact ⟨a, hwired, htied, hq⟩

namespace Woven

variable {before after cells : List Cell} {c : Cell}

theorem valid (h : w.Woven n lines beside cells) : w.Valid := h.threaded.valid

/-- A single spider, the last one on its thread, is taken off. -/
theorem exists_wire (h : w.Woven n lines beside (before ++ .wire κ p v t :: after))
    (hlast : ∀ x, (x, t) ∉ after.flatMap Cell.spots) : ∃ w' : Web,
      w'.Woven n lines beside (before ++ after) ∧ w'.inputs = w.inputs ∧ w'.outputs = w.outputs ∧
      (∀ x, w'.kind x = if x = v then none else w.kind x) ∧
      ∀ τ, (w.tensors τ).amplitude = κ.act (κ.factor p * τ v)
        (w.output ((lines .back).symm t)) (w'.tensors τ).amplitude := by
  have hshown := h.shown _ (List.mem_append_right _ List.mem_cons_self)
  obtain ⟨hκ, hkind, hphase, hbeside⟩ : κ.isBoundary = false ∧ w.kind v = some κ ∧
      (κ.isPhased = true → w.phase v = p) ∧ beside v = [] := by
    cases hshown with
    | wire hκ hkind hphase hbeside => exact ⟨hκ, hkind, hphase, hbeside⟩
  have hthr := h.threaded
  rw [List.flatMap_append, List.flatMap_cons] at hthr
  obtain ⟨a, hwired, htied, hq⟩ := hthr.exists_last (v := v) (t := t) hlast
  rw [hbeside] at hwired
  have hend : w.IsEnd (w.output ((lines .back).symm t)) := h.threaded.isEnd_terminal .back hq
  have hao : a ≠ w.output ((lines .back).symm t) := fun he => by
    have hcount := htied v .plain
    rw [if_pos ⟨rfl, rfl⟩, h.valid.symm, hwired, he] at hcount
    simp at hcount
  refine ⟨_, h.bypass hwired, rfl, rfl, fun x => ?_, fun τ => ?_⟩
  · exact Function.update_apply _ _ _ _
  · rw [htied.amplitude_bypass h.valid hend hkind hκ hwired hao]
    cases κ with
    | z | x => rw [hphase rfl]
    | box => rw [SpiderKind.factor_box, SpiderKind.factor_box]
    | input | output => cases hκ

theorem eq_of_mem_spiders (h : w.Woven n lines beside cells) {c' : Cell} (hc : c ∈ cells)
    (hc' : c' ∈ cells) (hv : v ∈ c.spiders) (hv' : v ∈ c'.spiders) : c = c' :=
  eq_of_mem_flatMap h.nodup hc hc' hv hv'

/-- The neighbours of a spider on its thread are no spiders of its cell. -/
theorem notMem_of_wiredTo (h : w.Woven n lines beside cells) (hc : c ∈ cells)
    (hv : (v, t) ∈ c.spots) (honce : ∀ y, (y, t) ∈ c.spots → y = v)
    (hwired : w.WiredTo v (a :: b :: beside v)) (hx : x ∈ c.spiders) : x ∉ [a, b] := fun hxab => by
  have hmem : (v, t) ∈ cells.flatMap Cell.spots := List.mem_flatMap.2 ⟨c, hc, hv⟩
  obtain ⟨a', b', hwired', -, hends⟩ := h.threaded.exists_wiredTo h.nodup_spots hmem
  have hcount : [a, b].count x = [a', b'].count x := by
    have he : (a :: b :: beside v).count x = (a' :: b' :: beside v).count x := by
      rw [← hwired.joins, hwired'.joins]
    simp only [List.count_cons] at he ⊢
    omega
  have hx' : x ∈ [a', b'] := List.count_pos_iff.1 (hcount ▸ List.count_pos_iff.2 hxab)
  rcases hends x hx' with hend | hspot
  · exact ((h.shown c hc).has x hx).2 hend
  · obtain ⟨c', hc', hspot⟩ := List.mem_flatMap.1 hspot
    obtain rfl := h.eq_of_mem_spiders hc hc' hx (Cell.spiders_of_spots hspot)
    obtain rfl := honce x hspot
    have hself : (a :: b :: beside x).count x = 0 := by rw [← hwired.joins, h.valid.joins_self]
    refine List.count_eq_zero.1 hself ?_
    rcases List.mem_pair.1 hxab with rfl | rfl
    · exact List.mem_cons_self
    · exact List.mem_cons_of_mem _ List.mem_cons_self

/-- A spider on a thread has a single edge to the one beside it, and none to others of its cell. -/
theorem count_of_spot (h : w.Woven n lines beside cells) (hc : c ∈ cells) (hv : (v, t) ∈ c.spots)
    (honce : ∀ y, (y, t) ∈ c.spots → y = v) (hx : x ∈ c.spiders) (k : EdgeKind) :
    w.count v x k = if k = .plain then (beside v).count x else 0 := by
  obtain ⟨a, b, hwired, -⟩ := h.threaded.exists_wiredTo h.nodup_spots
    (List.mem_flatMap.2 ⟨c, hc, hv⟩)
  have hzero : [a, b].count x = 0 := List.count_eq_zero.2 (h.notMem_of_wiredTo hc hv honce hwired hx)
  rw [hwired]
  simp only [List.count_cons, List.count_nil] at hzero ⊢
  refine if_congr Iff.rfl ?_ rfl
  omega

end Woven

/-! ### A gate on two wires -/

/-- Whether a web is another one without the edges within a cell, of the spiders of which only two are
    left. -/
structure Unlinked (w w' : Web) (c : Cell) (a b : Vertex) : Prop where
  valid : w'.Valid
  inputs : w'.inputs = w.inputs
  outputs : w'.outputs = w.outputs
  kind : ∀ x, x ∉ c.spiders ∨ x = a ∨ x = b → w'.kind x = w.kind x
  phase : ∀ x, x ∉ c.spiders ∨ x = a ∨ x = b → w'.phase x = w.phase x
  gone : ∀ x ∈ c.spiders, x ≠ a → x ≠ b → ¬w'.Has x
  count : ∀ x y k, w'.count x y k = if x ∈ c.spiders ∧ y ∈ c.spiders then 0 else w.count x y k

namespace Unlinked

variable {cells : List Cell} {c : Cell} {s : ℕ} (hu : w.Unlinked w' c a b)
  (h : w.Woven n lines beside (cells ++ [c])) (hspots : c.spots = [(a, s), (b, t)])

section

include hu

theorem kind_of_notMem (hx : x ∉ c.spiders) : w'.kind x = w.kind x := hu.kind x (.inl hx)

/-- Edges that lead out of the cell are left. -/
theorem wiredTo (hx : x ∉ c.spiders) (h : w.WiredTo x us) : w'.WiredTo x us := fun y k => by
  rw [hu.count, if_neg fun hm => hx hm.1, h]

end

section

include h

/-- The spiders of other cells. -/
theorem notMem_of_cells {c' : Cell} (hc' : c' ∈ cells) (hx : x ∈ c'.spiders) : x ∉ c.spiders := by
  have hnodup := h.nodup
  rw [List.flatMap_append, List.flatMap_singleton] at hnodup
  exact (List.nodup_append'.1 hnodup).2.2 (List.mem_flatMap.2 ⟨c', hc', hx⟩)

/-- A spider on a thread is in another cell, or one of the spots of this one. -/
theorem mem_of_spots {x : Vertex} {r : ℕ} (hx : (x, r) ∈ (cells ++ [c]).flatMap Cell.spots) :
    x ∉ c.spiders ∨ (x, r) ∈ c.spots := by
  obtain ⟨c', hc', hx⟩ := List.mem_flatMap.1 hx
  rcases List.mem_append.1 hc' with hc' | hc'
  · exact .inl (notMem_of_cells h hc' (Cell.spiders_of_spots hx))
  · exact .inr (List.mem_singleton.1 hc' ▸ hx)

end

section

include h hspots

/-- On its thread, a spider of the cell has the neighbours it had. -/
theorem wiredTo_spot (hu : w.Unlinked w' c a b) (hst : s ≠ t)
    (hbeside : ∀ x ∈ beside a ++ beside b, x ∈ c.spiders) {r : ℕ} {x y : Vertex}
    (hv : (v, r) ∈ c.spots) (hwired : w.WiredTo v (x :: y :: beside v)) : w'.WiredTo v [x, y] := by
  have hvc := Cell.spiders_of_spots hv
  rw [hspots] at hv
  simp only [List.mem_cons, Prod.mk.injEq, List.not_mem_nil, or_false] at hv
  have hnot {z : Vertex} (hz : z ∈ c.spiders) : [x, y].count z = 0 := by
    refine List.count_eq_zero.2 (h.notMem_of_wiredTo (c := c) (t := r) (by simp) ?_ (fun z hz => ?_)
      hwired hz)
    · simpa [hspots] using hv
    · simp only [hspots, List.mem_cons, Prod.mk.injEq, List.not_mem_nil, or_false] at hz
      grind
  have hbv : ∀ z ∈ beside v, z ∈ c.spiders := fun z hz => by
    refine hbeside z (List.mem_append.2 ?_)
    rcases hv with ⟨rfl, -⟩ | ⟨rfl, -⟩
    · exact .inl hz
    · exact .inr hz
  intro z k
  rw [hu.count]
  by_cases hz : z ∈ c.spiders
  · rw [if_pos ⟨hvc, hz⟩, hnot hz]
    simp
  · have hzero : (beside v).count z = 0 := List.count_eq_zero.2 fun hm => hz (hbv z hm)
    rw [if_neg fun hm => hz hm.2, hwired]
    simp [List.count_cons, hzero]

theorem threaded (hu : w.Unlinked w' c a b) (hst : s ≠ t)
    (hbeside : ∀ x ∈ beside a ++ beside b, x ∈ c.spiders) :
    w'.Threaded n lines (fun x => if x ∈ c.spiders then [] else beside x)
      ((cells ++ [c]).flatMap Cell.spots) := by
  have hc : c ∈ cells ++ [c] := List.mem_append_right _ (List.mem_singleton_self c)
  have hspider {x : Vertex} (hx : x ∈ c.spiders) : ¬w.IsEnd x := ((h.shown c hc).has x hx).2
  refine h.threaded.of_beside hu.valid hu.inputs hu.outputs (fun x hx => ?_) (fun x hx hend => ?_)
    (fun v x hx => ?_) (fun v hno hwired hv => ?_)
    (fun v u hv htied => tied_iff.2 (hu.wiredTo (fun hm => hspider hm hv) (tied_iff.1 htied)))
    fun s' hs' x y hwired => ?_
  · rcases hx with hx | ⟨r, hx⟩
    · exact hu.kind_of_notMem fun hm => hspider hm hx
    · refine hu.kind x ((mem_of_spots h hx).imp_right fun hx => ?_)
      rw [hspots] at hx
      exact (List.mem_pair.1 hx).imp (congrArg Prod.fst) (congrArg Prod.fst)
  · by_cases hm : x ∈ c.spiders ∧ x ≠ a ∧ x ≠ b
    · exact hu.gone x hm.1 hm.2.1 hm.2.2 hend.has
    · rw [IsEnd, hu.kind x (by tauto)] at hend
      exact hx hend
  · split at hx
    · exact absurd hx List.not_mem_nil
    next hv =>
      obtain ⟨c', hc', hvc, hxc⟩ := h.exists_cell_of_beside hx
      have hc' : c' ∈ cells := (List.mem_append.1 hc').resolve_right fun hm =>
        hv (List.mem_singleton.1 hm ▸ hvc)
      rw [Has, IsEnd, Has, IsEnd, hu.kind_of_notMem hv,
        hu.kind_of_notMem (notMem_of_cells h hc' hxc)]
      exact h.threaded.beside_spider v x hx
  · by_cases hvc : v ∈ c.spiders
    · refine absurd hv (hu.gone v hvc (fun he => hno s ?_) fun he => hno t ?_)
      · exact List.mem_flatMap.2 ⟨c, hc, by simp [he, hspots]⟩
      · exact List.mem_flatMap.2 ⟨c, hc, by simp [he, hspots]⟩
    · rw [Has, hu.kind_of_notMem hvc] at hv
      rw [if_neg hvc]
      exact hu.wiredTo hvc (hwired hv)
  · obtain ⟨v, r⟩ := s'
    rcases mem_of_spots h hs' with hv | hv
    · rw [if_neg hv]
      exact hu.wiredTo hv hwired
    · rw [if_pos (Cell.spiders_of_spots hv)]
      exact wiredTo_spot h hspots hu hst hbeside hv hwired

/-- Without the edges within a cell, its spiders on threads are cells by themselves. -/
theorem woven (hu : w.Unlinked w' c a b) (hst : s ≠ t) (hab : a ≠ b)
    (hbeside : ∀ x ∈ beside a ++ beside b, x ∈ c.spiders) {κ κ' : SpiderKind} {p p' : Phase}
    (hwire : Cell.Shown w' (fun _ => []) (.wire κ p a s))
    (hwire' : Cell.Shown w' (fun _ => []) (.wire κ' p' b t)) :
    w'.Woven n lines (fun x => if x ∈ c.spiders then [] else beside x)
      (cells ++ [.wire κ p a s, .wire κ' p' b t]) := by
  have ha : a ∈ c.spiders := Cell.spiders_of_spots (t := s) (by simp [hspots])
  have hb : b ∈ c.spiders := Cell.spiders_of_spots (t := t) (by simp [hspots])
  have hboth {x : Vertex} (hx : x ∈ [a, b]) : x ∈ c.spiders := by
    rcases List.mem_pair.1 hx with rfl | rfl
    · exact ha
    · exact hb
  have hflat : (cells ++ [c]).flatMap Cell.spots =
      (cells ++ [Cell.wire κ p a s, Cell.wire κ' p' b t]).flatMap Cell.spots := by
    rw [List.flatMap_append, List.flatMap_append, List.flatMap_singleton, hspots]
    rfl
  have hnodup := h.nodup
  rw [List.flatMap_append, List.flatMap_singleton] at hnodup
  obtain ⟨hnodup, -, hdisj⟩ := List.nodup_append'.1 hnodup
  refine ⟨hflat ▸ threaded h hspots hu hst hbeside, fun c' hc' => ?_, fun x => ?_, ?_⟩
  · rcases List.mem_append.1 hc' with hc' | hc'
    · have hout {x : Vertex} (hx : x ∈ c'.spiders) : x ∉ c.spiders := notMem_of_cells h hc' hx
      exact (h.shown c' (List.mem_append_left _ hc')).congr (fun x hx => hu.kind_of_notMem (hout hx))
        (fun x hx => hu.phase x (.inl (hout hx))) fun x hx => if_neg (hout hx)
    · rcases List.mem_pair.1 hc' with rfl | rfl
      · exact hwire.congr (fun _ _ => rfl) (fun _ _ => rfl) fun x hx =>
          if_pos (List.mem_singleton.1 hx ▸ ha)
      · exact hwire'.congr (fun _ _ => rfl) (fun _ _ => rfl) fun x hx =>
          if_pos (List.mem_singleton.1 hx ▸ hb)
  · rw [List.flatMap_append, List.mem_append]
    change _ ↔ _ ∨ x ∈ [a, b]
    by_cases hx : x ∈ c.spiders
    · by_cases hxab : x ∈ [a, b]
      · refine iff_of_true ?_ (.inr hxab)
        rcases List.mem_pair.1 hxab with rfl | rfl
        · exact hwire.has x (List.mem_singleton_self x)
        · exact hwire'.has x (List.mem_singleton_self x)
      · have hgone := hu.gone x hx (fun he => hxab (by simp [he])) fun he => hxab (by simp [he])
        exact iff_of_false (fun hm => hgone hm.1) fun hm => hm.elim (fun hm => hdisj hm hx) hxab
    · rw [Has, IsEnd, hu.kind_of_notMem hx]
      refine (h.inside x).trans ?_
      rw [List.flatMap_append, List.flatMap_singleton, List.mem_append]
      exact or_congr_right (iff_of_false hx fun hm => hx (hboth hm))
  · rw [List.flatMap_append]
    exact List.nodup_append'.2 ⟨hnodup, by simp [Cell.spiders, hab],
      fun x hx hx' => hdisj hx (hboth hx')⟩

end

end Unlinked

/-- A box between two spiders that copy the bits of ends is taken away. -/
theorem Tied.amplitude_remove {o' u u' : Vertex} (hw : w.Valid) (hm : w.kind m = some .box)
    (hends : w.WiredTo m [u, u']) (ho : (w.remove m).IsEnd o) (ht : (w.remove m).Tied o u)
    (hu : (w.remove m).kind u = some .z) (ho' : (w.remove m).IsEnd o')
    (ht' : (w.remove m).Tied o' u') (hu' : (w.remove m).kind u' = some .z) (hτ : τ m = 1)
    (b : Bits) : (w.tensors τ).amplitude b =
      EdgeKind.hadamard.value (b o) (b o') * ((w.remove m).tensors τ).amplitude b := by
  have hmem : m ∈ (w.tensors τ).inner := hw.mem_tensors_of_kind hm rfl
  have hleg {x : Vertex} (hx : (w.remove m).kind x = some .z) : w.leg x = EdgeKind.plain.value := by
    have hne : x ≠ m := by
      rintro rfl
      rw [kind_remove, update_self] at hx
      cases hx
    rw [kind_remove, update_of_ne hne] at hx
    rw [leg, kindAt_eq hx]
    rfl
  rw [Network.amplitude_sum hmem, Network.amplitude, hw.tensors_inner_remove, ← sumOver_mul_left]
  refine sumOver_congr fun b' hb' => ?_
  have hend {x : Vertex} (hx : (w.remove m).IsEnd x) : b' x = b x := hb' x fun h =>
    IsEnd.notMem_tensors (τ := τ) hx (by rwa [hw.tensors_inner_remove])
  rw [hw.sum_bridge hmem hends.endsAre, kindAt_eq hm, hτ, mul_one, SpiderKind.factor_box,
    SpiderKind.bridge_box, if_pos ⟨rfl, rfl⟩, one_mul, hleg hu, hleg hu']
  change _ * EdgeKind.hadamard.joint _ _ = _
  rw [EdgeKind.joint_value,
    ht.weight_mul (hw.remove m) ho hu (fun x => EdgeKind.hadamard.value x (b' u')),
    ht'.weight_mul (hw.remove m) ho' hu' (fun x => EdgeKind.hadamard.value (b' o) x),
    hend ho, hend ho', mul_comm]

theorem tensors_cut_addEdges (hw : w.Valid)
    (hcount : ∀ k, w.count a b k = if k = .plain then 1 else 0) (hcut : (w.cut a b).Valid) :
    ((w.cut a b).addEdges a b .plain 1).tensors τ = w.tensors τ := by
  refine tensors_congr rfl rfl rfl (funext fun x => funext fun y => funext fun k => ?_)
  rw [hcut.count_addEdges_eq]
  change (if SamePair x y a b then 0 else w.count x y k) + _ = _
  by_cases hxy : SamePair x y a b
  · have hxy' : w.count x y k = w.count a b k := by
      rcases hxy with ⟨rfl, rfl⟩ | ⟨rfl, rfl⟩
      · rfl
      · exact hw.symm _ _ _
    rw [hxy', hcount, if_pos hxy, Nat.zero_add]
    exact if_congr (by simp [hxy, eq_comm]) rfl rfl
  · simp [hxy]

/-- What is left when the last cell is taken off, which leaves its action. -/
def Sheds (w : Web) (n : ℕ) (lines : Diagram.Side → Perm ℕ) (cells : List Cell) (c : Cell) : Prop :=
  ∃ (beside' : Vertex → List Vertex) (w' : Web), w'.Woven n lines beside' cells ∧
    w'.inputs = w.inputs ∧ w'.outputs = w.outputs ∧
    (∀ x, w'.kind x = w.kind x ∨ w'.kind x = none) ∧
    ∀ τ, (∀ v, w.kind v = some .box → τ v = 1) → (w.tensors τ).amplitude =
      c.act τ (fun t => w.output ((lines .back).symm t)) (w'.tensors τ).amplitude

namespace Woven

variable {cells : List Cell} {κ' : SpiderKind} {p' : Phase} {s : ℕ}

/-- Two single spiders at the ends of different threads. -/
theorem exists_two (h : w.Woven n lines beside (cells ++ [.wire κ p a s, .wire κ' p' b t]))
    (hst : s ≠ t) :
    (w.Tied (w.output ((lines .back).symm s)) a ∧ w.IsEnd (w.output ((lines .back).symm s))) ∧
    (w.Tied (w.output ((lines .back).symm t)) b ∧ w.IsEnd (w.output ((lines .back).symm t))) ∧
    ∃ w' : Web, w'.Woven n lines beside cells ∧ w'.inputs = w.inputs ∧ w'.outputs = w.outputs ∧
      (∀ x, w'.kind x = w.kind x ∨ w'.kind x = none) ∧ ∀ τ, (w.tensors τ).amplitude =
        κ'.act (κ'.factor p' * τ b) (w.output ((lines .back).symm t))
          (κ.act (κ.factor p * τ a) (w.output ((lines .back).symm s)) (w'.tensors τ).amplitude) := by
  have hthr : w.Threaded n lines beside (cells.flatMap Cell.spots ++ (a, s) :: [(b, t)]) := by
    have hcells := h.threaded
    rwa [List.flatMap_append] at hcells
  have hlast : ∀ x, (x, s) ∉ [(b, t)] := fun x hx =>
    hst (congrArg Prod.snd (List.mem_singleton.1 hx))
  obtain ⟨-, -, ha, hqa⟩ := hthr.exists_last hlast
  have hthr' : w.Threaded n lines beside (cells.flatMap Cell.spots ++ [(a, s)] ++ (b, t) :: []) := by
    rw [List.append_assoc]
    exact hthr
  obtain ⟨-, -, hb, hqb⟩ := hthr'.exists_last fun _ => List.not_mem_nil
  refine ⟨⟨ha, h.threaded.isEnd_terminal .back hqa⟩, ⟨hb, h.threaded.isEnd_terminal .back hqb⟩, ?_⟩
  have h' : w.Woven n lines beside (cells ++ [.wire κ p a s] ++ .wire κ' p' b t :: []) := by
    rwa [List.append_assoc]
  obtain ⟨w₁, h₁, hin₁, hout₁, hkind₁, hamp₁⟩ := h'.exists_wire fun _ => List.not_mem_nil
  rw [List.append_nil] at h₁
  obtain ⟨w₂, h₂, hin₂, hout₂, hkind₂, hamp₂⟩ := h₁.exists_wire fun _ => List.not_mem_nil
  rw [List.append_nil] at h₂
  refine ⟨w₂, h₂, hin₂.trans hin₁, hout₂.trans hout₁, fun x => ?_, fun τ => ?_⟩
  · rw [hkind₂, hkind₁]
    split_ifs <;> simp
  · rw [hamp₁, hamp₂, output, output, output, hout₁]

theorem unlinked_cnot (h : w.Woven n lines beside (cells ++ [.cnot p p' a b s t])) :
    w.Unlinked (w.cut a b) (.cnot p p' a b s t) a b := by
  have hval := h.valid
  have hshown := h.shown _ (List.mem_append_right _ (List.mem_singleton_self _))
  obtain ⟨hab, ha, hb⟩ : a ≠ b ∧ w.Has a ∧ w.Has b := by
    cases hshown with
    | cnot hab _ ha hb => exact ⟨hab, has_of_kind ha, has_of_kind hb⟩
  exact {
    valid := hval.setCount ha hb hab _
    inputs := rfl
    outputs := rfl
    kind := fun _ _ => rfl
    phase := fun _ _ => rfl
    gone := fun x hx hxa hxb => by
      rcases List.mem_pair.1 hx with rfl | rfl
      · exact absurd rfl hxa
      · exact absurd rfl hxb
    count := fun x y k => by
      change (if SamePair x y a b then 0 else w.count x y k) = _
      simp only [SamePair, Cell.spiders, List.mem_cons, List.not_mem_nil, or_false]
      have hself := hval.self x k
      grind }

theorem sheds_cnot (h : w.Woven n lines beside (cells ++ [.cnot p p' a b s t])) :
    w.Sheds n lines cells (.cnot p p' a b s t) := by
  have hu := h.unlinked_cnot
  have hc := List.mem_append_right cells (List.mem_singleton_self (Cell.cnot p p' a b s t))
  cases h.shown _ hc with
  | cnot hab hst ha hb hpa hpb hba hbb =>
    have hcount (k : EdgeKind) : w.count a b k = if k = .plain then 1 else 0 := by
      rw [h.count_of_spot hc (v := a) (t := s) (by simp [Cell.spots])
        (fun y hy => by simp [Cell.spots, hst] at hy; exact hy) (by simp [Cell.spiders]), hba]
      simp
    have htwo := (hu.woven h rfl hst hab (fun x hx => by
      rw [hba, hbb] at hx
      exact List.mem_pair.2 (List.mem_pair.1 hx).symm) (.wire rfl ha (fun _ => hpa) rfl)
      (.wire rfl hb (fun _ => hpb) rfl)).exists_two hst
    rw [show (w.cut a b).output = w.output from rfl] at htwo
    obtain ⟨⟨hta, hea⟩, ⟨htb, heb⟩, w', hw', hin, hout, hkind, hamp⟩ := htwo
    refine ⟨_, w', hw', hin, hout, hkind, fun τ _ => funext fun bits => ?_⟩
    have hne : w.output ((lines .back).symm s) ≠ w.output ((lines .back).symm t) := fun he =>
      hab (hta.unique (he ▸ htb))
    have hgone {σ : Vertex → ℂ} : b ∉ (w'.tensors σ).inner := fun hb' => by
      obtain ⟨c', hc', hb'⟩ := List.mem_flatMap.1 ((hw'.inside b).1 (hw'.valid.mem_tensors.1 hb'))
      exact Unlinked.notMem_of_cells h hc' hb' (by simp [Cell.spiders])
    rw [← tensors_cut_addEdges h.valid hcount hu.valid,
      hta.amplitude_control hu.valid hea ha hb, hamp, update_self, update_of_ne hab,
      amplitude_twist_congr (σ := τ) fun x hx => update_of_ne (ne_of_mem_of_not_mem hx hgone) _ _,
      ← mul_assoc, SpiderKind.act_control hne]
    -- a phase of the control comes before or after the gate
    refine congrFun (congrArg _ (funext fun b' => ?_)) bits
    rw [SpiderKind.act_z, SpiderKind.act_z, update_of_ne hne]
    rfl

theorem wiredTo_box (h : w.Woven n lines beside (cells ++ [.cz p p' a b m s t])) :
    w.WiredTo m [a, b] := by
  have hc := List.mem_append_right cells (List.mem_singleton_self (Cell.cz p p' a b m s t))
  cases h.shown _ hc with
  | cz _ _ ha hb hm _ _ _ _ hbox =>
    rw [← hbox]
    refine h.threaded.loose m (has_of_kind hm) (not_isEnd_of_kind hm rfl) fun t' hspot => ?_
    obtain ⟨c', hc', hspot⟩ := List.mem_flatMap.1 hspot
    obtain rfl := h.eq_of_mem_spiders hc hc' (v := m) (by simp [Cell.spiders])
      (Cell.spiders_of_spots hspot)
    exact Cell.notMem_spots_box (Cell.ne_of_kind hm ha (by decide))
      (Cell.ne_of_kind hm hb (by decide)) t' hspot

theorem unlinked_cz (h : w.Woven n lines beside (cells ++ [.cz p p' a b m s t])) :
    w.Unlinked (w.remove m) (.cz p p' a b m s t) a b := by
  have hval := h.valid
  have hwm := h.wiredTo_box
  have hc := List.mem_append_right cells (List.mem_singleton_self (Cell.cz p p' a b m s t))
  cases h.shown _ hc with
  | cz hab hst ha hb hm _ _ hba =>
    have ham : a ≠ m := Cell.ne_of_kind ha hm (by decide)
    have hbm : b ≠ m := Cell.ne_of_kind hb hm (by decide)
    have hnone (k : EdgeKind) : w.count a b k = 0 := by
      rw [h.count_of_spot hc (v := a) (t := s) (by simp [Cell.spots])
        (fun y hy => by simp [Cell.spots, hst] at hy; exact hy) (by simp [Cell.spiders]), hba]
      simp [hbm.symm]
    have hne {x : Vertex} (hx : x ∉ (Cell.cz p p' a b m s t).spiders ∨ x = a ∨ x = b) : x ≠ m := by
      rintro rfl
      simp [Cell.spiders, ham.symm, hbm.symm] at hx
    exact {
      valid := hval.remove m
      inputs := rfl
      outputs := rfl
      kind := fun x hx => update_of_ne (hne hx) _ _
      phase := fun x hx => update_of_ne (hne hx) _ _
      gone := fun x hx hxa hxb => by
        obtain rfl : x = m := by simpa [Cell.spiders, hxa, hxb] using hx
        rw [Has, kind_remove, update_self]
        exact Bool.false_ne_true
      count := fun x y k => by
        change (if x = m ∨ y = m then 0 else w.count x y k) = _
        simp only [Cell.spiders, List.mem_cons, List.not_mem_nil, or_false]
        have hself := hval.self x k
        have hxm := hval.symm x m k
        have hy := hwm y k
        have hx := hwm x k
        have hnone := hnone k
        have hnone' := (hval.symm b a k).trans hnone
        simp only [List.count_cons, List.count_nil, beq_iff_eq] at hx hy
        grind }

theorem sheds_cz (h : w.Woven n lines beside (cells ++ [.cz p p' a b m s t])) :
    w.Sheds n lines cells (.cz p p' a b m s t) := by
  have hu := h.unlinked_cz
  have hc := List.mem_append_right cells (List.mem_singleton_self (Cell.cz p p' a b m s t))
  cases h.shown _ hc with
  | cz hab hst ha hb hm hpa hpb hba hbb =>
    have hka := (hu.kind a (.inr (.inl rfl))).trans ha
    have hkb := (hu.kind b (.inr (.inr rfl))).trans hb
    have htwo := (hu.woven h rfl hst hab (fun x hx => by
      rw [hba, hbb] at hx
      rcases List.mem_pair.1 hx with rfl | rfl <;> simp [Cell.spiders])
      (.wire rfl hka (fun _ => (hu.phase a (.inr (.inl rfl))).trans hpa) rfl)
      (.wire rfl hkb (fun _ => (hu.phase b (.inr (.inr rfl))).trans hpb) rfl)).exists_two hst
    rw [show (w.remove m).output = w.output from rfl] at htwo
    obtain ⟨⟨hta, hea⟩, ⟨htb, heb⟩, w', hw', hin, hout, hkind, hamp⟩ := htwo
    refine ⟨_, w', hw', hin, hout, fun x => ?_, fun τ hτ => funext fun bits => ?_⟩
    · rcases hkind x with he | he
      · rw [he, kind_remove, Function.update_apply]
        split_ifs <;> simp
      · exact .inr he
    · rw [hta.amplitude_remove h.valid hm h.wiredTo_box hea hka heb htb hkb (hτ m hm), hamp]
      simp only [Cell.act, SpiderKind.act_z, Gate.act, Gate.plain, SpiderKind.factor]
      ring

/-- The last cell can be taken off. -/
theorem sheds {c : Cell} (h : w.Woven n lines beside (cells ++ [c])) :
    w.Sheds n lines cells c := by
  cases c with
  | wire κ p v t =>
    obtain ⟨w', h', hin, hout, hkind, hamp⟩ := h.exists_wire fun _ => List.not_mem_nil
    rw [List.append_nil] at h'
    refine ⟨beside, w', h', hin, hout, fun x => ?_, fun τ _ => hamp τ⟩
    rw [hkind]
    split_ifs <;> simp
  | cnot => exact h.sheds_cnot
  | cz => exact h.sheds_cz

/-! ### All cells -/

section Bare

variable (h : w.Woven n lines beside [])
include h

theorem isEnd_of_has (hv : w.Has v) : w.IsEnd v := by
  by_contra he
  exact absurd ((h.inside v).1 ⟨hv, he⟩) List.not_mem_nil

/-- Without cells, an output is tied to the input that its thread starts from, -/
theorem tied_output {q : ℕ} (hq : q < n) :
    w.Tied (w.output q) (w.input (((lines .front).symm * lines .back : Perm ℕ) q)) := h.threaded.runs q hq

/-- and the edges are those between the two. -/
theorem exists_output_of_joins (hj : 0 < w.joins v x) : ∃ q < n,
    SamePair v x (w.output q) (w.input (((lines .front).symm * lines .back : Perm ℕ) q)) := by
  have hout {v x : Vertex} (hv : v ∈ w.outputs) (hj : 0 < w.joins v x) : ∃ q < n,
      v = w.output q ∧ x = w.input (((lines .front).symm * lines .back : Perm ℕ) q) := by
    obtain ⟨q, hq, rfl⟩ := List.getElem_of_mem hv
    have hqn : q < n := h.threaded.length .back ▸ hq
    have he : w.outputs[q] = w.output q := by
      rw [output, List.getD_eq_getElem?_getD, List.getElem?_eq_getElem hq]
      rfl
    exact ⟨q, hqn, he, (h.tied_output hqn).joins_pos_iff.1 (he ▸ hj)⟩
  have hmem {v : Vertex} (hv : w.IsEnd v) : v ∈ w.inputs ∨ v ∈ w.outputs := by
    rw [h.threaded.inputs, h.threaded.outputs]
    rw [IsEnd] at hv
    cases hk : w.kind v with
    | none => simp [hk] at hv
    | some κ => cases κ <;> simp_all [SpiderKind.isBoundary]
  have hhas := h.valid.has_of_joins hj
  rcases hmem (h.isEnd_of_has hhas.1) with hv | hv
  · rcases hmem (h.isEnd_of_has hhas.2) with hx | hx
    · -- an input is not tied to an input
      obtain ⟨r, hr, rfl⟩ := List.getElem_of_mem hv
      have hrn : r < n := h.threaded.length .front ▸ hr
      have he : w.inputs[r] = w.input r := by
        rw [input, List.getD_eq_getElem?_getD, List.getElem?_eq_getElem hr]
        rfl
      obtain ⟨u, hu, htied⟩ := h.threaded.start r hrn
      obtain ⟨q, hq, -, rfl⟩ := hu.resolve_left List.not_mem_nil
      have hxu : x = w.output q := htied.joins_pos_iff.1 (he ▸ hj)
      have hin := (h.threaded.inputs x).1 hx
      have hout := (h.threaded.outputs _).1 (h.threaded.terminal_mem .back hq)
      rw [hxu, show w.output q = w.terminal .back q from rfl, hout] at hin
      cases hin
    · rw [h.valid.joins_comm] at hj
      obtain ⟨q, hq, hxq, hvq⟩ := hout hx hj
      exact ⟨q, hq, .inr ⟨hvq, hxq⟩⟩
  · obtain ⟨q, hq, hvq, hxq⟩ := hout hv hj
    exact ⟨q, hq, .inl ⟨hvq, hxq⟩⟩

/-- Bare wires say that an output has the bit of the input its thread starts from. -/
theorem amplitude_nil (τ : Vertex → ℂ) : (w.tensors τ).amplitude =
    wiring w.output w.input ((List.range n).map ((lines .front).symm * lines .back : Perm ℕ)) := by
  classical
  have hinner : (w.tensors τ).inner = ∅ := Finset.eq_empty_of_forall_notMem fun v hv => by
    obtain ⟨hv, he⟩ := h.valid.mem_tensors.1 hv
    exact he (h.isEnd_of_has hv)
  have hend {q : ℕ} (hq : q < n) : w.IsEnd (w.output q) := h.threaded.isEnd_terminal .back hq
  have hend' {q : ℕ} (hq : q < n) : w.IsEnd (w.input (((lines .front).symm * lines .back : Perm ℕ) q)) :=
    h.threaded.isEnd_terminal .front
      (((h.threaded.keeps .front).symm _).2 ((h.threaded.keeps .back q).2 hq))
  have hbond {q : ℕ} (hq : q < n) (b : Bits) : (w.tensors τ).bond b (w.output q)
      (w.input (((lines .front).symm * lines .back : Perm ℕ) q)) = EdgeKind.plain.value (b (w.output q))
        (b (w.input (((lines .front).symm * lines .back : Perm ℕ) q))) := by
    rw [bond_tensors, h.tied_output hq, h.tied_output hq, leg_of_isEnd (hend hq),
      leg_of_isEnd (hend' hq), EdgeKind.joint_value]
    simp
  funext b
  rw [Network.amplitude, hinner, sumOver_empty, Network.weight, hinner, Finset.prod_empty, one_mul,
    wiring_map_range]
  split
  next hall =>
    refine Finset.prod_eq_one fun e _ => ?_
    rcases Nat.eq_zero_or_pos (w.joins e.1 e.2) with hj | hj
    · exact edge_tensors_eq_one (fun k => by rw [joins] at hj; cases k <;> omega) _ _
    · obtain ⟨q, hq, hpair⟩ := h.exists_output_of_joins hj
      have hone := hbond hq b
      rw [EdgeKind.value, if_pos (hall q hq)] at hone
      rcases hpair with ⟨he, he'⟩ | ⟨he, he'⟩
      · rw [he, he', hone]
      · rw [he, he', (h.valid.tensors τ).bond_comm, hone]
  next hnot =>
    push Not at hnot
    obtain ⟨q, hqn, hne⟩ := hnot
    have hzero := hbond hqn b
    rw [EdgeKind.value, if_neg hne] at hzero
    have hlt := h.valid.lt _ (hend hqn).has
    have hlt' := h.valid.lt _ (hend' hqn).has
    set v := w.output q
    set x := w.input (((lines .front).symm * lines .back : Perm ℕ) q)
    rcases Nat.lt_or_gt_of_ne ((h.tied_output hqn).ne h.valid) with hvx | hxv
    · have hmem : (v, x) ∈ Network.pairs (w.tensors τ).bound := Network.mem_pairs.2 ⟨hvx, hlt'⟩
      exact Finset.prod_eq_zero hmem hzero
    · have hmem : (x, v) ∈ Network.pairs (w.tensors τ).bound := Network.mem_pairs.2 ⟨hxv, hlt⟩
      exact Finset.prod_eq_zero hmem (((h.valid.tensors τ).bond_comm b x v).trans hzero)

end Bare

/-- A woven web denotes the actions of its cells on bare wires. -/
theorem amplitude_eq (h : w.Woven n lines beside cells) (hτ : ∀ v, w.kind v = some .box → τ v = 1) :
    (w.tensors τ).amplitude =
      cells.foldl (fun f c => c.act τ (fun t => w.output ((lines .back).symm t)) f)
        (wiring w.output w.input
          ((List.range n).map ((lines .front).symm * lines .back : Perm ℕ))) := by
  induction cells using List.reverseRecOn generalizing w beside with
  | nil => exact h.amplitude_nil τ
  | append_singleton cells c ih =>
    obtain ⟨beside', w', hw', hin, hout, hkind, hamp⟩ := h.sheds
    have houtput : w'.output = w.output := funext fun q => by rw [output, output, hout]
    have hinput : w'.input = w.input := funext fun q => by rw [input, input, hin]
    rw [hamp τ hτ, List.foldl_append, ih hw' fun v hv => hτ v ?_, houtput, hinput]
    · rfl
    · rcases hkind v with he | he <;> rw [he] at hv
      · exact hv
      · cases hv

end Woven

end Web

end ZXRewriting
