import ZXRewriting.Proofs.Diagram.Sites

/-!
# Cancelling wires and boxes

Two wires between spiders of the two colours make no factor (`Web.Valid.denotes_takeEdges`), and of
two boxes in a row each is a Hadamard edge, so that together they are a wire between their far ends
(`Web.Paired`). Where the far ends are one spider the wire is left out, which is right for a coloured
spider and an end (`SpiderKind.joint_self_of_ne_box`). At a box it is not: a wire from a box to
itself halves the factor of the bit one (`Web.Paired.amplitude_loop`).

So cancelling at two spiders that pass the check gives a diagram that denotes the same unless two
boxes go that have the same box on their far sides (`Diagram.sameMap_of_checkCancel`), and then it
may not (`Diagram.boxLoop_not_sameMap`).
-/

namespace ZXRewriting

open Function (update update_self update_of_ne)
open Multigraph (SamePair)

namespace SpiderKind

/-- Two wires between spiders of the two colours make no factor. -/
theorem joint_opposite_sq {kind : SpiderKind} (h : kind.isPhased = true) (x y : Bool) :
    EdgeKind.plain.joint (kind.leg x) (kind.opposite.leg y) ^ 2 = 1 := by
  cases kind with
  | z | x => cases x <;> cases y <;> simp [opposite, EdgeKind.joint_plain, leg, EdgeKind.value]
  | input | output | box => cases h

/-- A wire from a spider to itself does nothing, unless the spider is a box. -/
theorem joint_self_of_ne_box {kind : SpiderKind} (h : kind ≠ .box) :
    ∃ c : ℂ, c ≠ 0 ∧ ∀ y, EdgeKind.plain.joint (kind.leg y) (kind.leg y) = c := by
  by_cases hkind : kind.isPhased = true
  · obtain ⟨c, hc, hjoint⟩ := joint_self hkind
    exact ⟨c, hc, fun y => (hjoint y y).trans (if_pos rfl)⟩
  · refine ⟨1, one_ne_zero, fun y => ?_⟩
    cases kind with
    | input | output => cases y <;> simp [EdgeKind.joint_plain, leg, EdgeKind.value]
    | box => exact absurd rfl h
    | z | x => exact absurd rfl hkind

/-- A wire from a box to itself halves the factor of the bit one. -/
theorem joint_self_box (y : Bool) :
    EdgeKind.plain.joint (box.leg y) (box.leg y) = 2 * if y then 2⁻¹ else 1 := by
  cases y <;> simp [EdgeKind.joint_plain, leg]; norm_num

end SpiderKind

namespace Web

variable {w : Web} {u v a b : Vertex} {kind : SpiderKind} {m : ℕ} {τ : Vertex → ℂ}

/-- Only the edges to vertices below the next one have to be looked at. -/
theorem Valid.endsAre (hw : w.Valid) {ends : List (Vertex × EdgeKind)}
    (hlt : ∀ e ∈ ends, e.1 < w.next)
    (h : ∀ u < w.next, w.count v u .plain = ends.count (u, .plain) ∧
      w.count v u .hadamard = ends.count (u, .hadamard)) : w.EndsAre v ends := fun u k => by
  by_cases hu : u < w.next
  · cases k
    · exact (h u hu).1
    · exact (h u hu).2
  · have hzero : w.count v u k = 0 := Nat.eq_zero_of_not_pos fun hpos =>
      hu (hw.lt u (hw.has u v k (hw.symm v u k ▸ hpos)))
    rw [hzero, List.count_eq_zero_of_not_mem fun hmem => hu (hlt _ hmem)]

/-- Wires between spiders of the two colours cancel in pairs. -/
theorem Valid.denotes_takeEdges (hw : w.Valid) (hplain : w.Plain) (hv : w.kind v = some kind)
    (hu : w.kind u = some kind.opposite) (hkind : kind.isPhased = true) (hvu : v ≠ u)
    (hm : 2 * m ≤ w.count v u .plain) : w.Denotes (w.takeEdges v u .plain (2 * m)) := by
  have hhas {x : Vertex} {k : SpiderKind} (hk : w.kind x = some k) : w.Has x := by
    rw [Has, hk]
    rfl
  obtain ⟨n, hn⟩ := Nat.exists_eq_add_of_le hm
  have hinner : ((w.takeEdges v u .plain (2 * m)).tensors 1).inner = (w.tensors 1).inner :=
    tensors_inner_congr rfl rfl
  have hsq (b : Bits) := SpiderKind.joint_opposite_sq hkind (b v) (b u)
  have hweight (b : Bits) : ((w.takeEdges v u .plain (2 * m)).tensors 1).weight b =
      (w.tensors 1).weight b * 1 := by
    refine hw.tensors_setCount (hhas hv) (hhas hu) hvu ?_
    rw [mul_one, bond_tensors, hplain, if_pos rfl, if_neg (by decide), hn, Nat.add_sub_cancel_left,
      leg, leg, kindAt_eq hv, kindAt_eq hu, pow_add, pow_mul, hsq, one_pow, one_mul]
  refine ⟨hplain.setCount ?_, rfl, rfl, .of_eq fun b => ?_⟩
  · rw [hplain, Nat.zero_sub]
  · have := Network.amplitude_eq_of_weight (n := w.tensors 1) (c := 1)
      hinner (fun b => by rw [hweight, mul_one, one_mul]) b
    rwa [one_mul] at this

/-! ### Two boxes in a row -/

/-- Two boxes with a wire between them, and another vertex on the far side of each. -/
structure Paired (w : Web) (v u a b : Vertex) : Prop where
  box : w.kind v = some .box
  box' : w.kind u = some .box
  ends : w.EndsAre v [(u, .plain), (a, .plain)]
  ends' : w.EndsAre u [(v, .plain), (b, .plain)]
  far : a ≠ u
  far' : b ≠ v

section

variable (hw : w.Valid) (h : w.Paired v u a b)
include hw h

/-- What is left with one box taken out, its place taken by a Hadamard edge. -/
theorem Paired.first : u ≠ v ∧ (w.remove v).Has u ∧ (w.remove v).Has a ∧
    Proportional (w.tensors 1).amplitude
      (((w.remove v).addEdges u a .hadamard 1).tensors 1).amplitude := by
  have hu := hw.has_of_endsAre h.ends List.mem_cons_self
  have ha := hw.has_of_endsAre h.ends (List.mem_cons_of_mem _ List.mem_cons_self)
  have hkept {x : Vertex} (hx : w.Has x ∧ x ≠ v) : (w.remove v).Has x := by
    rw [Has, kind_remove, update_of_ne hx.2]
    exact hx.1
  refine ⟨hu.2, hkept hu, hkept ha, hw.amplitude_bypass (hw.mem_tensors_of_kind h.box rfl) h.ends
    h.far.symm one_ne_zero fun f g => ?_⟩
  rw [kindAt_eq h.box, SpiderKind.factor_box, Pi.one_apply, mul_one, SpiderKind.bridge_box]
  simp [EdgeKind.merge, EdgeKind.opposite]

/-- The other box has the Hadamard edge then. -/
theorem Paired.ends_first :
    ((w.remove v).addEdges u a .hadamard 1).EndsAre u [(b, .plain), (a, .hadamard)] := by
  have huv := (hw.has_of_endsAre h.ends List.mem_cons_self).2
  refine endsAre_pair.2 fun x k => ?_
  have hcount := endsAre_pair.1 h.ends' x k
  rw [(hw.remove v).count_addEdges_eq]
  simp only [Web.remove, SamePair]
  have := h.far
  have := h.far'
  grind

omit h in
theorem Paired.remove_first :
    ((w.remove v).addEdges u a .hadamard 1).remove u = (w.remove v).remove u := by
  rw [(hw.remove v).addEdges_comm, remove_addEdges]

/-- The sum over the bit of the other box, the Hadamard edge of which is that of the first one. -/
theorem Paired.sum_first (x : Bits) :
    (((w.remove v).addEdges u a .hadamard 1).tensors 1).weight (update x u false) +
        (((w.remove v).addEdges u a .hadamard 1).tensors 1).weight (update x u true) =
      2 * (EdgeKind.plain.joint (w.leg b (x b)) (w.leg a (x a)) *
        (((w.remove v).remove u).tensors 1).weight x) := by
  obtain ⟨huv, hu, ha, -⟩ := h.first hw
  have hav := (hw.has_of_endsAre h.ends (List.mem_cons_of_mem _ List.mem_cons_self)).2
  have hval : ((w.remove v).addEdges u a .hadamard 1).Valid :=
    (hw.remove v).setCount hu ha h.far.symm _
  have hkind {y : Vertex} (hy : y ≠ v) :
      ((w.remove v).addEdges u a .hadamard 1).kindAt y = w.kindAt y := by
    rw [kindAt, kindAt]
    exact congrArg (Option.getD · _) (update_of_ne hy _ _)
  have hbox : ((w.remove v).addEdges u a .hadamard 1).kindAt u = .box :=
    (hkind huv).trans (kindAt_eq h.box')
  have hinner : u ∈ (((w.remove v).addEdges u a .hadamard 1).tensors 1).inner :=
    hval.mem_tensors_of_kind ((update_of_ne huv _ _).trans h.box') rfl
  rw [hval.sum_bridge hinner (h.ends_first hw), remove_first hw, hbox, SpiderKind.factor_box,
    Pi.one_apply, mul_one, SpiderKind.bridge_box]
  simp only [leg, hkind h.far', hkind hav, EdgeKind.merge, EdgeKind.opposite, reduceCtorEq,
    and_false, if_false]
  ring

/-- The far ends stay. -/
theorem Paired.kept {x : Vertex} (hx : x = a ∨ x = b) : ((w.remove v).remove u).Has x ∧
    ((w.remove v).remove u).kind x = w.kind x := by
  have hmem {y t : Vertex} : (t, EdgeKind.plain) ∈ [(y, .plain), (t, .plain)] :=
    List.mem_cons_of_mem _ List.mem_cons_self
  obtain ⟨hxw, hxv, hxu⟩ : w.Has x ∧ x ≠ v ∧ x ≠ u := by
    rcases hx with rfl | rfl
    · exact ⟨(hw.has_of_endsAre h.ends hmem).1, (hw.has_of_endsAre h.ends hmem).2, h.far⟩
    · exact ⟨(hw.has_of_endsAre h.ends' hmem).1, h.far', (hw.has_of_endsAre h.ends' hmem).2⟩
  have hkind : ((w.remove v).remove u).kind x = w.kind x := by
    rw [kind_remove, kind_remove, update_of_ne hxu, update_of_ne hxv]
  exact ⟨by rwa [Has, hkind], hkind⟩

/-- Two boxes in a row make the factor of a wire between their far ends. -/
theorem Paired.amplitude {n : Network} (hinner : n.inner = (((w.remove v).remove u).tensors 1).inner)
    {c : ℂ} (hc : c ≠ 0) (hweight : ∀ x, EdgeKind.plain.joint (w.leg b (x b)) (w.leg a (x a)) *
      (((w.remove v).remove u).tensors 1).weight x = c * n.weight x) :
    Proportional (w.tensors 1).amplitude n.amplitude := by
  obtain ⟨huv, hu, ha, hfirst⟩ := h.first hw
  have hval : ((w.remove v).addEdges u a .hadamard 1).Valid :=
    (hw.remove v).setCount hu ha h.far.symm _
  have hbox : ((w.remove v).addEdges u a .hadamard 1).kind u = some .box :=
    (update_of_ne huv _ _).trans h.box'
  rw [← remove_first hw (a := a), hval.tensors_inner_remove] at hinner
  refine hfirst.trans ⟨2 * c, mul_ne_zero two_ne_zero hc, Network.amplitude_eq_of_sum
    (hval.mem_tensors_of_kind hbox rfl) hinner fun x => ?_⟩
  rw [h.sum_first hw, hweight, mul_assoc]

/-- The far ends are joined if they are different. -/
theorem Paired.amplitude_joined (hab : a ≠ b) : Proportional (w.tensors 1).amplitude
    ((((w.remove v).remove u).addEdges a b .plain 1).tensors 1).amplitude := by
  obtain ⟨ha, hka⟩ := h.kept hw (.inl rfl)
  obtain ⟨hb, hkb⟩ := h.kept hw (.inr rfl)
  refine h.amplitude hw (tensors_inner_congr rfl rfl) one_ne_zero fun x => ?_
  rw [((hw.remove v).remove u).tensors_addEdges ha hb hab, pow_one, leg, leg, leg, leg, kindAt,
    kindAt, kindAt, kindAt, hka, hkb, EdgeKind.joint_comm]
  ring

/-- A far end that both boxes have needs no wire to itself if it is no box. -/
theorem Paired.amplitude_closed (hab : a = b) (hbox : w.kind a ≠ some .box) :
    Proportional (w.tensors 1).amplitude (((w.remove v).remove u).tensors 1).amplitude := by
  subst hab
  have hkind : w.kindAt a ≠ .box := fun he => by
    rw [kindAt] at he
    cases hk : w.kind a with
    | none => simp [hk] at he
    | some k => exact hbox (by simpa [hk] using he)
  obtain ⟨c, hc, hjoint⟩ := SpiderKind.joint_self_of_ne_box hkind
  exact h.amplitude hw rfl hc fun x => by rw [leg, hjoint]

/-- If it is a box, the factor of its bit one is halved. -/
theorem Paired.amplitude_loop (hab : a = b) (hbox : w.kind a = some .box) :
    Proportional (w.tensors 1).amplitude
      (((w.remove v).remove u).tensors (update 1 a 2⁻¹)).amplitude := by
  subst hab
  obtain ⟨ha, hka⟩ := h.kept hw (.inl rfl)
  have hmem : a ∈ (((w.remove v).remove u).tensors 1).inner :=
    ((hw.remove v).remove u).mem_tensors_of_kind (hka.trans hbox) rfl
  have hinner : (((w.remove v).remove u).tensors (update 1 a 2⁻¹)).inner =
      (((w.remove v).remove u).tensors 1).inner := tensors_inner_congr rfl rfl
  have htwist (x : Bits) : (((w.remove v).remove u).tensors (update 1 a 2⁻¹)).weight x =
      (((w.remove v).remove u).tensors 1).weight x * if x a then 2⁻¹ else 1 :=
    tensors_twist hmem (by rw [update_self, Pi.one_apply, one_mul]) fun t _ ht => update_of_ne ht _ _
  refine h.amplitude hw hinner two_ne_zero fun x => ?_
  rw [htwist, leg, kindAt_eq hbox, SpiderKind.joint_self_box]
  ring

/-- What is left where two boxes go denotes the same unless they have the same box on their far
    sides. -/
theorem Paired.denotes (hplain : w.Plain) (hbox : a = b → w.kind a ≠ some .box) :
    w.Denotes (if a = b then (w.remove v).remove u
      else ((w.remove v).remove u).addEdges a b .plain 1) := by
  split
  · next hab => exact ⟨hplain.remove.remove, rfl, rfl, h.amplitude_closed hw hab (hbox hab)⟩
  · next hab => exact ⟨hplain.remove.remove.addEdges, rfl, rfl, h.amplitude_joined hw hab⟩

end

end Web

namespace Diagram

open Web

variable {d : Diagram} {u v : Vertex}

/-- Two boxes that pass the check are next to each other. -/
theorem exists_paired (hd : d.Coherent) (hplain : d.web.Plain) (hv : d.web.Has v)
    (hu : d.web.Has u) (hbox : d.isWireBox v = .ok true) (hbox' : d.isWireBox u = .ok true)
    (hone : d.web.count v u .plain = 1) : ∃ a b, d.web.Paired v u a b := by
  have hval := hd.valid
  obtain ⟨hk, hdeg, hlen⟩ := of_isWireBox hd hv hbox
  obtain ⟨hk', hdeg', hlen'⟩ := of_isWireBox hd hu hbox'
  have hmem : u ∈ d.web.nearby v :=
    hval.mem_nearby.2 (joins_pos_iff.2 ⟨.plain, hone ▸ Nat.one_pos⟩)
  obtain ⟨a, hau, hends⟩ := exists_farEnd hval hplain hdeg hlen hmem
  obtain ⟨b, hbv, hends'⟩ :=
    exists_farEnd hval hplain hdeg' hlen' (hval.mem_nearby_comm.1 hmem)
  exact ⟨a, b, hk, hk', hends, hends', hau, hbv⟩

/-- Cancelling at two spiders that pass the check keeps what is denoted, unless they are boxes with the
    same box on their far sides. -/
theorem rewritesTo_cancel (hd : d.Coherent) (hplain : d.web.Plain) (hv : d.web.Has v)
    (hu : d.web.Has u) (h : d.checkCancel v u = .ok true)
    (hloop : d.web.kind v = some .box → ∀ a ∈ d.web.nearby v, a ∈ d.web.nearby u →
      d.web.kind a ≠ some .box) : RewritesTo d (d.cancel v u) := by
  have hval := hd.valid
  obtain ⟨hvu, ⟨k, hk, hk', hphased, hle⟩ | ⟨hbox, hbox', hone⟩⟩ := (checkCancel_iff hd hv hu).1 h
  · have heven : d.web.count v u .plain - d.web.count v u .plain % 2 =
        2 * (d.web.count v u .plain / 2) := by omega
    have hyields := yields_cancelWires (u := u) hd hk (by rintro rfl; cases hphased)
    rw [heven] at hyields
    exact hyields.rewritesTo
      (hval.denotes_takeEdges hplain hk hk' hphased hvu (Nat.mul_div_le _ 2))
  · obtain ⟨a, b, hpaired⟩ := exists_paired hd hplain hv hu hbox hbox' hone
    refine (gives_cancel hd hpaired.box hu hvu (hval.find_nearby hpaired.far hpaired.ends)
      (hval.find_nearby hpaired.far' hpaired.ends')).yields.rewritesTo
        (hpaired.denotes hval hplain fun hab => ?_)
    subst hab
    refine hloop hpaired.box a (hval.mem_nearby.2 ?_) (hval.mem_nearby.2 ?_)
    · exact hpaired.ends.joins_pos_iff.2 (by simp)
    · exact hpaired.ends'.joins_pos_iff.2 (by simp)

/-- Cancelling at two spiders that pass the check gives a diagram that denotes the same linear map up
    to a scalar, unless the spiders are boxes with the same box on their far sides. -/
theorem sameMap_of_checkCancel (hd : d.Coherent) (hplain : d.web.Plain) (hv : d.web.Has v)
    (hu : d.web.Has u) (h : d.checkCancel v u = .ok true)
    (hloop : d.web.kind v = some .box → ∀ a ∈ d.web.nearby v, a ∈ d.web.nearby u →
      d.web.kind a ≠ some .box) :
    ∃ d', d.cancel v u = .ok d' ∧ d'.Coherent ∧ d'.web.Plain ∧ d.SameMap d' := by
  obtain ⟨d', hok, hd', hden⟩ := rewritesTo_cancel hd hplain hv hu h hloop
  exact ⟨d', hok, hd', hden.plain, sameMap_of_denotes hd hd' hplain hden⟩

/-! ### Boxes with the same box on their far sides -/

/-- Two boxes in a row, the far ends of which are both on a third one. -/
def boxLoop : Diagram where
  graph := ⟨#[some [⟨2, .plain, 1⟩], some [⟨2, .plain, 1⟩],
    some [⟨0, .plain, 1⟩, ⟨1, .plain, 1⟩, ⟨3, .plain, 1⟩],
    some [⟨2, .plain, 1⟩, ⟨4, .plain, 1⟩, ⟨5, .plain, 1⟩],
    some [⟨3, .plain, 1⟩, ⟨5, .plain, 1⟩], some [⟨3, .plain, 1⟩, ⟨4, .plain, 1⟩]], 6, 6⟩
  kinds := .ofList [(0, .input), (1, .output), (2, .z), (3, .box), (4, .box), (5, .box)] compare
  phases := ∅
  layout := .new 1
  inputs := [0]
  outputs := [1]
  carriers := ∅

theorem boxLoop_plain : boxLoop.Coherent ∧ boxLoop.web.Plain := by decide +kernel

/-- What is left without the two boxes, with the factor of the third one twisted. -/
theorem amplitude_boxLoop {τ : Vertex → ℂ} (hτ : τ 2 = 1) {b : Bits} (h0 : b 0 = true)
    (h1 : b 1 = true) :
    (((boxLoop.web.remove 4).remove 5).tensors τ).amplitude b = 1 - 2 * τ 3 := by
  set w := (boxLoop.web.remove 4).remove 5 with hwdef
  have hw : w.Valid := (boxLoop_plain.1.valid.remove 4).remove 5
  have hinner : (w.tensors τ).inner = {2, 3} := by
    have hlt : ∀ x < 6, (w.Has x ∧ ¬w.IsEnd x ↔ x = 2 ∨ x = 3) := by decide +kernel
    ext x
    rw [hw.mem_tensors, Finset.mem_insert, Finset.mem_singleton]
    by_cases hx : x < 6
    · exact hlt x hx
    · refine iff_of_false (fun h => hx (hw.lt x h.1)) fun h => hx ?_
      rcases h with rfl | rfl <;> decide
  have hends : w.EndsAre 3 [(2, .plain)] := hw.endsAre (by decide) (by decide +kernel)
  have hends' : (w.remove 3).EndsAre 2 [(0, .plain), (1, .plain)] :=
    (hw.remove 3).endsAre (by decide) (by decide +kernel)
  have hinner' : 2 ∈ ((w.remove 3).tensors τ).inner := by
    rw [hw.tensors_inner_remove, hinner]
    decide
  have hkinds : w.kindAt 3 = .box ∧ w.kindAt 2 = .z ∧ (w.remove 3).kindAt 2 = .z ∧
      (w.remove 3).kindAt 0 = .input ∧ (w.remove 3).kindAt 1 = .output := by decide +kernel
  obtain ⟨k3, k2, k2', k0, k1⟩ := hkinds
  have hphase : SpiderKind.z.factor (w.phase 2) = 1 := Phase.unit_of_isZero (by decide +kernel)
  have hnone : (((w.remove 3).remove 2).tensors τ).weight b = 1 := by
    have hcount : ∀ s < 6, ∀ t < 6, ((w.remove 3).remove 2).count s t .plain = 0 ∧
        ((w.remove 3).remove 2).count s t .hadamard = 0 := by decide +kernel
    rw [Network.weight, (hw.remove 3).tensors_inner_remove, hw.tensors_inner_remove, hinner,
      show (({2, 3} : Finset ℕ).erase 3).erase 2 = ∅ from by decide, Finset.prod_empty, one_mul]
    refine Finset.prod_eq_one fun p hp => edge_tensors_eq_one (fun k => ?_) _ _
    obtain ⟨hlt, hlt'⟩ := Network.mem_pairs.1 hp
    cases k
    · exact (hcount _ (hlt.trans hlt') _ hlt').1
    · exact (hcount _ (hlt.trans hlt') _ hlt').2
  rw [Network.amplitude_sum (v := 3) (by rw [hinner]; decide), hinner,
    show ({2, 3} : Finset ℕ).erase 3 = {2} from by decide, sumOver_singleton]
  simp only [hw.tensors_star (v := 3) (by rw [hinner]; decide) hends,
    (hw.remove 3).tensors_star hinner' hends', List.map_cons, List.map_nil, List.prod_cons,
    List.prod_nil, update_self, leg, k3, k2, k2', k0, k1, hnone, h0, h1, hτ,
    SpiderKind.factor_box, EdgeKind.joint_plain, SpiderKind.leg]
  simp [EdgeKind.value, hphase]
  ring

/-- Cancelling two boxes that have the same box on their far sides changes the map. -/
theorem boxLoop_not_sameMap : DiagramRule.cancel.check boxLoop [4, 5] = .ok true ∧
    ∃ d', DiagramRule.cancel.apply boxLoop [4, 5] = .ok d' ∧ ¬boxLoop.SameMap d' := by
  obtain ⟨hd, hplain⟩ := boxLoop_plain
  have hval := hd.valid
  have hpaired : boxLoop.web.Paired 4 5 3 3 :=
    ⟨by decide +kernel, by decide +kernel, hval.endsAre (by decide) (by decide +kernel),
      hval.endsAre (by decide) (by decide +kernel), by decide, by decide⟩
  obtain ⟨d', hok, hd', hweb, -⟩ := gives_cancel hd hpaired.box (u := 5) (by decide +kernel)
    (by decide) (hval.find_nearby hpaired.far hpaired.ends)
    (hval.find_nearby hpaired.far' hpaired.ends')
  rw [if_pos rfl] at hweb
  refine ⟨by decide +kernel, d', hok, ?_⟩
  rintro ⟨-, -, c, hc, hmap⟩
  have hplain' : d'.web.Plain := hweb ▸ hplain.remove.remove
  obtain ⟨e, he, hbefore⟩ := (hval.contraction hplain).trans
    (hpaired.amplitude_loop hval rfl (by decide +kernel))
  obtain ⟨e', he', hafter⟩ := hd'.valid.contraction hplain'
  have hin : d'.inputs = [0] := congrArg Web.inputs hweb
  have hout : d'.outputs = [1] := congrArg Web.outputs hweb
  -- the entry for the bit one at both ends was zero
  have hentry := congrFun (congrFun hmap fun _ => true) fun _ => true
  rw [linearMap, linearMap, hin, hout, Matrix.smul_apply, smul_eq_mul] at hentry
  change boxLoop.web.contraction (endBits [1] [0] _ _) =
    c * d'.web.contraction (endBits [1] [0] _ _) at hentry
  rw [hbefore, hafter, hweb, amplitude_boxLoop (update_of_ne (by decide) _ _) (by rfl) (by rfl),
    amplitude_boxLoop (by rfl) (by rfl) (by rfl), update_self, Pi.one_apply] at hentry
  norm_num [hc, he'] at hentry
end Diagram

end ZXRewriting
