import ZXRewriting.Proofs.Diagram.Fusion
import ZXRewriting.Proofs.Diagram.ReadBack

/-!
# What a visit reads

Any diagram can be read back as a circuit, or turned down. A visit that passes takes the spiders of
a cell (`Takes`): they are next to each other and to what was the last spider on their wires, and
have one edge more at most (`Cell.Found`). So a reading takes one cell after the other (`Course`),
but what it finds on a wire may be a dead end.

A diagram is turned down for a spider that is not found where the gate of a circuit would have
it (`Rejected`), and for nothing else.
-/

namespace ZXRewriting

open Function (update update_self update_of_ne)
open Floating (Double)

namespace Web

variable {w : Web} {v : Vertex} {l : List Vertex}

/-- Different neighbours have an edge each. -/
theorem Valid.length_le_degree (hw : w.Valid) (hl : l.Nodup) (hjoin : ∀ x ∈ l, 0 < w.joins v x) :
    l.length ≤ w.degree v := by
  have hsub : l.toFinset ⊆ Finset.range w.next := fun x hx =>
    Finset.mem_range.2 (hw.lt x (hw.has_of_joins (hjoin x (List.mem_toFinset.1 hx))).2)
  calc l.length = ∑ x ∈ l.toFinset, 1 := by
        rw [Finset.sum_const, List.toFinset_card_of_nodup hl, smul_eq_mul, mul_one]
    _ ≤ ∑ x ∈ l.toFinset, w.joins v x :=
        Finset.sum_le_sum fun x hx => hjoin x (List.mem_toFinset.1 hx)
    _ ≤ w.degree v := Finset.sum_le_sum_of_subset hsub

/-- As many different neighbours as there are edges are all of them. -/
theorem Valid.wiredTo (hw : w.Valid) (hplain : w.Plain) (hl : l.Nodup)
    (hjoin : ∀ x ∈ l, 0 < w.joins v x) (hdegree : w.degree v ≤ l.length) : w.WiredTo v l := by
  have hlt {x : Vertex} (hx : 0 < w.joins v x) : x ∈ Finset.range w.next :=
    Finset.mem_range.2 (hw.lt x (hw.has_of_joins hx).2)
  have hcount (x : Vertex) : l.count x ≤ w.joins v x := by
    by_cases hx : x ∈ l
    · exact (List.nodup_iff_count_le_one.1 hl x).trans (hjoin x hx)
    · rw [List.count_eq_zero.2 hx]
      exact Nat.zero_le _
  have hlength : ∑ x ∈ Finset.range w.next, l.count x = l.length := by
    rw [← Multiset.coe_card, ← Multiset.sum_count_eq_card fun x hx => hlt (hjoin x hx)]
    simp only [Multiset.coe_count]
  -- no edge is left over
  have hone := (Finset.sum_eq_sum_iff_of_le fun x _ => hcount x).1
    (le_antisymm (Finset.sum_le_sum fun x _ => hcount x) (hdegree.trans_eq hlength.symm))
  have hjoins (x : Vertex) : w.joins v x = l.count x := by
    by_cases hx : x ∈ Finset.range w.next
    · exact (hone x hx).symm
    · have hnone : w.joins v x = 0 := Nat.eq_zero_of_not_pos fun h => hx (hlt h)
      exact le_antisymm (hnone ▸ Nat.zero_le _) (hcount x)
  intro x k
  cases k with
  | plain => rw [if_pos rfl, ← hjoins, hplain.joins]
  | hadamard => exact hplain v x

end Web

namespace Cell

/-- The spiders of a cell that one of them is next to. -/
def partners : Cell → Vertex → List Vertex
  | wire .., _ => []
  | cnot _ _ a b _ _, v => if v = a then [b] else if v = b then [a] else []
  | cz _ _ a b m _ _, v => if v = a ∨ v = b then [m] else if v = m then [a, b] else []

/-- The threads of a cell are different. -/
def Apart (c : Cell) : Prop := (c.spots.map Prod.snd).Nodup

/-- A cell in a web: besides its spiders, those on its threads have two edges at most. -/
structure Found (w : Web) (c : Cell) : Prop where
  shown : c.Apart → c.Shown w c.partners
  inner : ∀ v ∈ c.spiders, w.Has v ∧ ¬w.IsEnd v
  nodup : c.spiders.Nodup
  joined : ∀ s ∈ c.spots, ∀ x ∈ c.partners s.1, 0 < w.joins s.1 x
  degree : ∀ s ∈ c.spots, w.degree s.1 ≤ (c.partners s.1).length + 2
  loose : ∀ v ∈ c.spiders, v ∉ c.spots.map Prod.fst → w.WiredTo v (c.partners v)

variable {c : Cell} {v x : Vertex}

theorem mem_spiders_of_fst (h : v ∈ c.spots.map Prod.fst) : v ∈ c.spiders := by
  obtain ⟨s, hs, rfl⟩ := List.mem_map.1 h
  exact spiders_of_spots hs

theorem nodup_fst_spots (h : c.spiders.Nodup) : (c.spots.map Prod.fst).Nodup := by
  cases c with
  | wire | cnot => exact h
  | cz p p' a b m s t => exact h.sublist (by simp [spots, spiders])

theorem mem_spiders_of_partners (h : x ∈ c.partners v) : x ∈ c.spiders ∧ v ∈ c.spiders := by
  cases c with
  | wire => cases h
  | cnot p p' a b s t | cz p p' a b m s t =>
    simp only [partners] at h
    simp only [spiders]
    grind

theorem nodup_partners (h : c.spiders.Nodup) : (c.partners v).Nodup := by
  cases c with
  | wire => exact List.nodup_nil
  | cnot p p' a b s t | cz p p' a b m s t =>
    simp only [partners]
    simp only [spiders] at h
    grind

/-- A spider on a thread, with a spider on none next to it. -/
def Boxed (c : Cell) (v : Vertex) : Prop :=
  v ∈ c.spots.map Prod.fst ∧ ∃ x ∈ c.partners v, x ∉ c.spots.map Prod.fst

/-- Next to a spider on a thread, there is none with a spider on no thread next to it. -/
theorem not_boxed_of_partners {s : Vertex × ℕ} (h : c.spiders.Nodup) (hs : s ∈ c.spots)
    (hx : x ∈ c.partners s.1) : ¬c.Boxed x := by
  rintro ⟨hspot, y, hy, hno⟩
  cases c with
  | wire => cases hx
  | cnot p p' a b t t' =>
    simp only [partners, spots, List.map_cons, List.map_nil] at hy hno
    grind
  | cz p p' a b m t t' =>
    simp only [spiders] at h
    simp only [partners, spots, List.map_cons, List.map_nil] at hs hx hspot
    grind

section Found

variable {w : Web} {a b m : Vertex} (hw : w.Valid)

theorem inner_of_kind {κ : SpiderKind} (hv : w.kind v = some κ) (hκ : κ.isBoundary = false) :
    w.Has v ∧ ¬w.IsEnd v := ⟨Web.has_of_kind hv, Web.not_isEnd_of_kind hv hκ⟩

theorem found_wire {κ : SpiderKind} (hκ : κ.isBoundary = false) (hv : w.kind v = some κ)
    (hdeg : w.degree v ≤ 2) (t : ℕ) : (wire κ (w.phase v) v t).Found w where
  shown _ := .wire hκ hv (fun _ => rfl) rfl
  inner := List.forall_mem_singleton.2 (inner_of_kind hv hκ)
  nodup := List.nodup_singleton v
  joined _ _ x hx := absurd hx List.not_mem_nil
  degree s hs := by
    rw [List.mem_singleton.1 hs]
    exact hdeg
  loose x hx hno := absurd hx hno

include hw

theorem found_cnot (ha : w.kind a = some .z) (hb : w.kind b = some .x) (hjoin : 0 < w.joins a b)
    (hda : w.degree a ≤ 3) (hdb : w.degree b ≤ 3) (s t : ℕ) :
    (cnot (w.phase a) (w.phase b) a b s t).Found w := by
  have hab : a ≠ b := ne_of_kind ha hb (by decide)
  have hpa : (cnot (w.phase a) (w.phase b) a b s t).partners a = [b] := if_pos rfl
  have hpb : (cnot (w.phase a) (w.phase b) a b s t).partners b = [a] := by
    rw [partners, if_neg hab.symm, if_pos rfl]
  refine ⟨fun hst => ?_, List.forall_mem_cons.2 ⟨inner_of_kind ha rfl,
    List.forall_mem_singleton.2 (inner_of_kind hb rfl)⟩, ?_, ?_, ?_, ?_⟩
  · exact .cnot hab (by simpa [Apart, spots] using hst) ha hb rfl rfl hpa hpb
  · simpa [spiders] using hab
  · simp [spots, hpa, hpb, hjoin, hw.joins_comm b a]
  · simp [spots, hpa, hpb, hda, hdb]
  · simp [spots, spiders]

theorem found_cz (hplain : w.Plain) (ha : w.kind a = some .z) (hb : w.kind b = some .z)
    (hm : w.kind m = some .box) (hab : a ≠ b) (hja : 0 < w.joins m a) (hjb : 0 < w.joins m b)
    (hdm : w.degree m ≤ 2) (hda : w.degree a ≤ 3) (hdb : w.degree b ≤ 3) (s t : ℕ) :
    (cz (w.phase a) (w.phase b) a b m s t).Found w := by
  have ham : a ≠ m := ne_of_kind ha hm (by decide)
  have hbm : b ≠ m := ne_of_kind hb hm (by decide)
  have hpa : (cz (w.phase a) (w.phase b) a b m s t).partners a = [m] := if_pos (.inl rfl)
  have hpb : (cz (w.phase a) (w.phase b) a b m s t).partners b = [m] := if_pos (.inr rfl)
  have hpm : (cz (w.phase a) (w.phase b) a b m s t).partners m = [a, b] := by
    rw [partners, if_neg (not_or.2 ⟨ham.symm, hbm.symm⟩), if_pos rfl]
  have hwired : w.WiredTo m [a, b] :=
    hw.wiredTo hplain (by simpa using hab) (by simp [hja, hjb]) hdm
  refine ⟨fun hst => ?_, List.forall_mem_cons.2 ⟨inner_of_kind ha rfl, List.forall_mem_cons.2
    ⟨inner_of_kind hb rfl, List.forall_mem_singleton.2 (inner_of_kind hm rfl)⟩⟩, ?_, ?_, ?_, ?_⟩
  · exact .cz hab (by simpa [Apart, spots] using hst) ha hb hm rfl rfl hpa hpb hpm
  · simp [spiders, hab, ham, hbm]
  · simp [spots, hpa, hpb, hja, hjb, hw.joins_comm a m, hw.joins_comm b m]
  · simp [spots, hpa, hpb, hda, hdb]
  · simp [spots, spiders, hpm, ham.symm, hbm.symm, hwired]

end Found

end Cell

namespace Diagram

variable {d : Diagram} {r r' : Reading} {v u p a b : Vertex} {front : VertexMap ℕ} {column : Double}

/-- The diagram is turned down as that of no circuit. -/
def Rejected (e : Failure Refusal) : Prop := ∃ v, e = .refused (.notCircuitLike v)

theorem meets_theOnly {α : Type} (v : Vertex) (l : List α) :
    Meets (theOnly v l) (fun x => l = [x]) Rejected := by
  rcases l with _ | ⟨x, _ | ⟨y, l⟩⟩
  · exact ⟨v, rfl⟩
  · exact rfl
  · exact ⟨v, rfl⟩

/-- What a spider continues is next to it, and in the front. -/
theorem meets_predecessor (hd : d.Coherent) (hv : d.web.Has v) : Meets (d.predecessor front v)
    (fun p => front[p.2]? = some p.1 ∧ 0 < d.web.joins v p.2) Rejected := by
  rw [predecessor, neighborSet, neighborSet_eq hd hv]
  refine (meets_theOnly v
    ((d.web.nearby v).filterMap fun u => (front[u]?).map fun q => (q, u))).mono (fun p hp => ?_)
    fun _ he => he
  have hmem : p ∈ (d.web.nearby v).filterMap fun u => (front[u]?).map fun q => (q, u) :=
    hp ▸ List.mem_singleton_self p
  obtain ⟨u, hu, hmap⟩ := List.mem_filterMap.1 hmem
  obtain ⟨q, hq, rfl⟩ := Option.map_eq_some_iff.1 hmap
  exact ⟨hq, hd.valid.mem_nearby.1 hu⟩

/-- The gates on two wires that a spider is part of with the partner next to it. -/
inductive Couples (w : Web) (v p : Vertex) : GateKind × Vertex × Vertex → Prop
  | control (hv : w.kind v = some .z) (hp : w.kind p = some .x) : Couples w v p (.cnot, v, p)
  | target (hv : w.kind v = some .x) (hp : w.kind p = some .z) : Couples w v p (.cnot, p, v)
  | box {o : Vertex} (hv : w.kind v = some .z) (hp : w.kind p = some .box)
    (ho : w.kind o = some .z) (hne : o ≠ v) (hjoin : 0 < w.joins p o) (hdeg : w.degree p = 2)
    (hdeg' : w.degree o = 3) : Couples w v p (.cz, v, o)

theorem Couples.has {w : Web} {kind : GateKind} (h : Couples w v p (kind, a, b)) :
    w.Has a ∧ w.Has b := by
  cases h with
  | control hv hp => exact ⟨Web.has_of_kind hv, Web.has_of_kind hp⟩
  | target hv hp => exact ⟨Web.has_of_kind hp, Web.has_of_kind hv⟩
  | box hv _ ho => exact ⟨Web.has_of_kind hv, Web.has_of_kind ho⟩

theorem meets_twoWireGate (hd : d.Coherent) (hv : d.web.Has v) (hp : d.web.Has p) :
    Meets (d.twoWireGate v p) (Couples d.web v p) Rejected := by
  obtain ⟨κ, hκ⟩ := Option.isSome_iff_exists.1 hv
  obtain ⟨κ', hκ'⟩ := Option.isSome_iff_exists.1 hp
  have hno : Meets (refuse (.notCircuitLike v) : Attempt Refusal (GateKind × Vertex × Vertex))
      (Couples d.web v p) Rejected := ⟨v, rfl⟩
  rw [twoWireGate, kind_eq hκ, kind_eq hκ']
  simp only [liftM_ok_bind]
  split
  · exact .control hκ hκ'
  · exact .target hκ hκ'
  · rw [show d.degree p = .ok _ from degree_eq hd hp]
    simp only [liftM_ok_bind]
    split
    next hdeg =>
      obtain ⟨ns, hns, hcount⟩ := exists_neighbors hd hp
      rw [hns]
      simp only [liftM_ok_bind]
      split
      next => exact hno
      next o hfind =>
        have hne : o ≠ v := by simpa using List.find?_some hfind
        have hjoin : 0 < d.web.joins p o := by
          rw [← hcount]
          exact List.count_pos_iff.2 (List.mem_of_find?_eq_some hfind)
        have ho := (hd.valid.has_of_joins hjoin).2
        obtain ⟨κ'', hκ''⟩ := Option.isSome_iff_exists.1 ho
        rw [kind_eq hκ'', show d.degree o = .ok _ from degree_eq hd ho]
        simp only [liftM_ok_bind]
        split
        next hz =>
          split
          next hdeg' => exact .box hκ hκ' (hz ▸ hκ'') hne hjoin hdeg hdeg'
          next => exact hno
        next => exact hno
    next => exact hno
  · exact hno

/-- A gate without a phase is kept where rotations by nothing are left out. -/
theorem filter_plain_cons {kind : GateKind} (h : kind.hasPhase = false) {qubits : List ℕ}
    {g g' : Gate} : [.plain kind qubits, g, g'].filter (!·.isIdle) =
      .plain kind qubits :: [g].filter (!·.isIdle) ++ [g'].filter (!·.isIdle) := by
  have hkeep : (!(Gate.plain kind qubits).isIdle) = true := by
    rw [Gate.isIdle, Gate.plain, h, Bool.false_and]
    rfl
  rw [List.cons_append, ← List.filter_append, List.singleton_append]
  exact List.filter_cons_of_pos hkeep

/-- A gate on two wires is that of a cell. -/
theorem Couples.exists_found {kind : GateKind} (h : Couples d.web v p (kind, a, b))
    (hw : d.web.Valid) (hplain : d.web.Plain) (hjoin : 0 < d.web.joins v p)
    (hv : d.web.degree v = 3) (hp : d.web.IsColoured p → d.web.degree p ≤ 3) (s t : ℕ) :
    ∃ (c : Cell) (gs gs' : List Gate), c.Found d.web ∧ c.spots = [(a, s), (b, t)] ∧
      (v ∈ c.spiders ∧ ∀ x, x ∈ p :: b :: [a] ↔ x ∈ c.spiders) ∧
      (∀ x ∈ c.spiders, x ≠ v → x ≠ p → c.Boxed x) ∧
      (d.phaseGate a s = .ok gs ∧ d.phaseGate b t = .ok gs') ∧
      c.gates.filter (!·.isIdle) = .plain kind [s, t] :: gs ++ gs' := by
  have hjoin' : 0 < d.web.joins p v := by rwa [hw.joins_comm]
  cases h with
  | control hkv hkp =>
    have hdeg := hp (by rw [Web.IsColoured, hkp]; rfl)
    exact ⟨_, _, _, Cell.found_cnot hw hkv hkp hjoin hv.le hdeg s t, rfl,
      ⟨List.mem_cons_self, fun x => by simp [Cell.spiders]; tauto⟩,
      fun x hx hxv hxp => by simp_all [Cell.spiders],
      ⟨phaseGate_eq rfl hkv rfl s, phaseGate_eq rfl hkp rfl t⟩, filter_plain_cons rfl⟩
  | target hkv hkp =>
    have hdeg := hp (by rw [Web.IsColoured, hkp]; rfl)
    exact ⟨_, _, _, Cell.found_cnot hw hkp hkv hjoin' hdeg hv.le s t, rfl,
      ⟨List.mem_cons_of_mem _ List.mem_cons_self, fun x => by simp [Cell.spiders]; tauto⟩,
      fun x hx hxv hxp => by simp_all [Cell.spiders],
      ⟨phaseGate_eq rfl hkp rfl s, phaseGate_eq rfl hkv rfl t⟩, filter_plain_cons rfl⟩
  | box hkv hkp hko hne hjo hdeg hdeg' =>
    have hvp : v ≠ p := Cell.ne_of_kind hkv hkp (by decide)
    have hbp : b ≠ p := Cell.ne_of_kind hko hkp (by decide)
    exact ⟨_, _, _, Cell.found_cz hw hplain hkv hko hkp hne.symm hjoin' hjo hdeg.le hv.le hdeg'.le
      s t, rfl, ⟨List.mem_cons_self, fun x => by simp [Cell.spiders]; tauto⟩, fun x hx hxv hxp => by
        obtain rfl : x = b := by simpa [Cell.spiders, hxv, hxp] using hx
        simp [Cell.Boxed, Cell.spots, Cell.partners, hvp.symm, hbp.symm],
      ⟨phaseGate_eq rfl hkv rfl s, phaseGate_eq rfl hko rfl t⟩, filter_plain_cons rfl⟩

/-- A reading that takes a cell, the spiders of which continue what was `before` them. -/
structure Takes (d : Diagram) (r : Reading) (before : Vertex → Vertex) (c : Cell) (r' : Reading) :
    Prop where
  found : c.Found d.web
  gates : r'.gates = r.gates ++ c.gates.filter (!·.isIdle)
  front : r'.front = c.spots.foldl (fun front s => advance front s.2 (before s.1) s.1) r.front
  done : ∀ x, x ∈ r'.done ↔ x ∈ c.spiders ∨ x ∈ r.done
  precedes : ∀ s ∈ c.spots, r.front[before s.1]? = some s.2 ∧ 0 < d.web.joins s.1 (before s.1)
  fresh : ∀ x ∈ c.spiders, x ∈ r.done → c.Boxed x

/-- No coloured spider has more than three wires. -/
def Slim (d : Diagram) : Prop := ∀ v, d.web.IsColoured v → d.web.degree v ≤ 3

/-- Visiting a spider that is not read yet takes a cell that it is in, or is the end. -/
theorem meets_readSpider (hd : d.Coherent) (hplain : d.web.Plain) (hslim : d.Slim)
    (hv : d.web.Has v ∧ ¬d.web.IsEnd v) (hdone : v ∉ r.done) :
    Meets (d.readSpider r column v)
      (fun r' => ∃ before c, v ∈ c.spiders ∧ d.Takes r before c r') Rejected := by
  obtain ⟨κ, hκ⟩ := Option.isSome_iff_exists.1 hv.1
  have hinner : κ.isBoundary = false := by
    have hend := hv.2
    rw [Web.IsEnd, hκ] at hend
    simpa using hend
  rw [readSpider, if_neg hdone]
  refine (meets_predecessor hd hv.1).bind fun p hp => ?_
  obtain ⟨q, u⟩ := p
  rw [show d.degree v = .ok _ from degree_eq hd hv.1]
  simp only [liftM_ok_bind]
  split
  next hdeg =>
    have hfound := Cell.found_wire hinner hκ hdeg.le q
    have hgate : d.wireGate v q =
        .ok ((Cell.wire κ (d.web.phase v) v q).gates.filter (!·.isIdle)) := by
      rw [wireGate_eq (show (Cell.wire κ _ v ((1 : Equiv.Perm ℕ) q)).Shown d.web _ from
          hfound.shown (List.nodup_singleton _)), show (1 : Equiv.Perm ℕ).symm = 1 from rfl,
        Gate.relabel_one]
      rfl
    rw [hgate]
    refine ⟨fun _ => u, .wire κ _ v q, List.mem_singleton_self v, hfound, rfl, rfl, fun x => ?_,
      List.forall_mem_singleton.2 hp, fun x hx hx' => ?_⟩
    · exact List.mem_cons.trans (or_congr_left List.mem_singleton.symm)
    · exact absurd (List.mem_singleton.1 hx ▸ hx') hdone
  next hdeg =>
    rw [show d.neighborSet v = .ok _ from neighborSet_eq hd hv.1]
    refine (meets_theOnly v _).bind fun p hp' => ?_
    have hmem := List.mem_filter.1 (hp' ▸ List.mem_singleton_self p)
    have hjoin := hd.valid.mem_nearby.1 hmem.1
    have hpdone : p ∉ r.done := of_decide_eq_true (Bool.and_eq_true_iff.1 hmem.2).2
    have hphas := (hd.valid.has_of_joins hjoin).2
    refine (meets_twoWireGate hd hv.1 hphas).bind fun g hg => ?_
    obtain ⟨kind, a, b⟩ := g
    refine (meets_predecessor hd hg.has.1).bind fun x hx => ?_
    refine (meets_predecessor hd hg.has.2).bind fun y hy => ?_
    obtain ⟨qa, ua⟩ := x
    obtain ⟨qb, ub⟩ := y
    obtain ⟨c, gs, gs', hfound, hspots, ⟨hvc, hspiders⟩, hboxed, ⟨hgs, hgs'⟩, hgates⟩ :=
      hg.exists_found hd.valid hplain hjoin hdeg (hslim p) qa qb
    rw [hgs, hgs']
    have hne : b ≠ a := by
      have hnd := Cell.nodup_fst_spots hfound.nodup
      rw [hspots] at hnd
      simpa [eq_comm] using hnd
    have hbefore : update (fun _ => ua) b ub a = ua := update_of_ne hne.symm _ _
    have hbefore' : update (fun _ => ua) b ub b = ub := update_self _ _ _
    refine ⟨update (fun _ => ua) b ub, c, hvc, hfound, ?_, ?_, ?_, ?_, ?_⟩
    · exact congrArg (r.gates ++ ·) hgates.symm
    · rw [hspots, List.foldl_cons, List.foldl_cons, List.foldl_nil, hbefore, hbefore']
    · intro x
      rw [← hspiders]
      simp [or_assoc]
    · rw [hspots]
      refine List.forall_mem_cons.2 ⟨?_, List.forall_mem_singleton.2 ?_⟩
      · rwa [hbefore]
      · rwa [hbefore']
    · intro x hx hx'
      refine hboxed x hx ?_ ?_
      · exact ne_of_mem_of_not_mem hx' hdone
      · exact ne_of_mem_of_not_mem hx' hpdone
  next => exact ⟨v, rfl⟩

/-! ### All visits -/

/-- A reading that takes one cell after the other. -/
inductive Course (d : Diagram) : Reading → List Cell → Reading → Prop
  | nil (r : Reading) : Course d r [] r
  | cons {r r₁ r' : Reading} {before : Vertex → Vertex} {c : Cell} {cs : List Cell}
    (h : d.Takes r before c r₁) (hrest : Course d r₁ cs r') : Course d r (c :: cs) r'

theorem Course.done {cs : List Cell} (h : d.Course r cs r') (x : Vertex) :
    x ∈ r'.done ↔ x ∈ cs.flatMap Cell.spiders ∨ x ∈ r.done := by
  induction h with
  | nil => simp
  | cons h _ ih => rw [ih, h.done, List.flatMap_cons, List.mem_append, or_left_comm, or_assoc]

/-- The visits take cells, until all the spiders are read or one is turned down. -/
theorem meets_visits (hd : d.Coherent) (hplain : d.web.Plain) (hslim : d.Slim)
    (visits : List (Double × Vertex))
    (hvisits : ∀ x ∈ visits, d.web.Has x.2 ∧ ¬d.web.IsEnd x.2) (r : Reading) :
    Meets (visits.foldlM (fun r x => d.readSpider r x.1 x.2) r)
      (fun r' => ∃ cs, d.Course r cs r' ∧ ∀ x ∈ visits, x.2 ∈ r'.done) Rejected := by
  induction visits generalizing r with
  | nil => exact ⟨[], .nil r, fun x hx => absurd hx List.not_mem_nil⟩
  | cons x visits ih =>
    obtain ⟨hx, hvisits⟩ := List.forall_mem_cons.1 hvisits
    rw [List.foldlM_cons]
    by_cases hdone : x.2 ∈ r.done
    · rw [readSpider_done hdone]
      refine (ih hvisits r).mono (fun r' hr' => ?_) fun _ he => he
      obtain ⟨cs, hcourse, hrest⟩ := hr'
      exact ⟨cs, hcourse, List.forall_mem_cons.2 ⟨(hcourse.done x.2).2 (.inr hdone), hrest⟩⟩
    · refine (meets_readSpider hd hplain hslim hx hdone).bind fun r₁ hr₁ => ?_
      obtain ⟨before, c, hxc, htakes⟩ := hr₁
      refine (ih hvisits r₁).mono (fun r' hr' => ?_) fun _ he => he
      obtain ⟨cs, hcourse, hrest⟩ := hr'
      refine ⟨c :: cs, .cons htakes hcourse, List.forall_mem_cons.2 ⟨?_, hrest⟩⟩
      exact (hcourse.done x.2).2 (.inr ((htakes.done x.2).2 (.inl hxc)))

/-- The spiders inside are those that are no ends of wires. -/
theorem meets_interior (hd : d.Coherent) : Meets d.interior
    (fun is => ∀ v, v ∈ is.map Prod.snd ↔ d.web.Has v ∧ ¬d.web.IsEnd v) Rejected := by
  have hspiders {v : Vertex} : v ∈ d.spiders ↔ d.web.Has v :=
    Multigraph.mem_vertices.trans (hd.has v).symm
  rw [interior, filterM_eq (p := fun v => !decide (d.web.IsEnd v)) fun v hv => by
    rw [isBoundary_eq (hspiders.1 hv)]; rfl]
  refine (Meets.mapM (P := fun v x => v = x.2) fun v _ => ?_).mono (fun is his v => ?_)
    fun _ he => he
  · cases d.column? v with
    | some column => exact rfl
    | none => exact ⟨v, rfl⟩
  · have hmap : d.spiders.filter (fun v => !decide (d.web.IsEnd v)) = is.map Prod.snd := by
      rw [← List.forall₂_eq_eq_eq]
      exact List.forall₂_map_right_iff.2 his
    rw [← hmap, List.mem_filter, hspiders]
    simp

end Diagram

end ZXRewriting
