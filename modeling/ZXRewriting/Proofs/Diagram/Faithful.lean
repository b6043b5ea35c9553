import ZXRewriting.Proofs.Diagram.OpenWires
import ZXRewriting.Proofs.Diagram.Unitary

/-!
# Circuits read back are those of the diagram

A diagram on which no coloured spider has more than three wires is read back as a circuit with the
unitary that it denotes, up to a scalar, or it is turned down as that of no circuit
(`Ready.meets_toCircuit`). It need not be drawn from gates: any wiring inside will do, and any
columns.

Every output has a vertex next to it from which the reading could go on, so that in the end there
are as many of these as wires: no wire has come to a dead end, and the cells that were taken make a
woven web (`Course.woven`). The number of wires at the partner of a spider is not looked at when a
gate is read, so that one with more than three could be next to two outputs.
-/

namespace ZXRewriting

open Equiv (Perm)

/-- A permutation of the places below `n`. -/
theorem exists_perm {n : ℕ} {f : ℕ → ℕ} (hf : ∀ q < n, f q < n)
    (hinj : ∀ q < n, ∀ r < n, f q = f r → q = r) :
    ∃ σ : Perm ℕ, (∀ q < n, σ q = f q) ∧ (∀ q, n ≤ q → σ q = q) ∧ KeepsPlaces n σ := by
  have hbij : Function.Bijective fun q : Fin n => (⟨f q, hf q q.2⟩ : Fin n) :=
    Finite.injective_iff_bijective.1 fun q r he =>
      Fin.ext (hinj q q.2 r r.2 (congrArg Fin.val he))
  have hlt {q : ℕ} (hq : q < n) :
      Perm.extendDomain (Equiv.ofBijective _ hbij) Fin.equivSubtype q = f q :=
    Perm.extendDomain_apply_subtype (Equiv.ofBijective _ hbij) Fin.equivSubtype hq
  have hge {q : ℕ} (hq : n ≤ q) :
      Perm.extendDomain (Equiv.ofBijective _ hbij) Fin.equivSubtype q = q :=
    Perm.extendDomain_apply_not_subtype _ _ hq.not_gt
  refine ⟨_, fun q hq => hlt hq, fun q hq => hge hq, fun q => ?_⟩
  by_cases hq : q < n
  · rw [hlt hq]
    exact iff_of_true (hf q hq) hq
  · rw [hge (Nat.le_of_not_lt hq)]

namespace Diagram

variable {d : Diagram} {n q : ℕ} {r r' : Reading} {v x : Vertex} {cs : List Cell}

/-- The reading before the first visit. -/
def opening (d : Diagram) : Reading :=
  ⟨[], d.inputs.zipIdx.foldl (fun front (i, q) => front.insert i q) ∅, []⟩

section Opening

variable (hd : d.Ready n)
include hd

omit hd in
theorem seen_opening : d.Seen d.opening v ↔ v ∈ d.inputs := or_iff_right List.not_mem_nil

theorem front_opening : d.opening.front[v]? = some q ↔ q < n ∧ v = d.web.input q := by
  refine (fronts_inputs (hd.web.nodup .front) v q).trans ⟨fun hq => ?_, ?_⟩
  · have hlt : q < n := hd.web.length .front ▸ (List.getElem?_eq_some_iff.1 hq).1
    have hget := Web.getElem?_inputs (hlt.trans_eq (hd.web.length .front).symm)
    exact ⟨hlt, Option.some_inj.1 (hq.symm.trans hget)⟩
  · rintro ⟨hq, rfl⟩
    exact Web.getElem?_inputs (hq.trans_eq (hd.web.length .front).symm)

theorem sound_opening : d.Sound d.opening where
  inner v hv := absurd hv List.not_mem_nil
  front v q hq := by
    obtain ⟨hlt, rfl⟩ := (front_opening hd).1 hq
    exact seen_opening.2 (hd.web.terminal_mem .front hlt)
  narrow v x y hv hx hy := by
    obtain ⟨u, ht⟩ := hd.web.toListed.exists_tied (hd.web.degree .front v (seen_opening.1 hv))
    exact (ht.joins_pos_iff.1 hx.1).trans (ht.joins_pos_iff.1 hy.1).symm

/-- To begin with, none but the inputs are live. -/
theorem live_opening_subset : d.live d.opening ⊆ d.inputs.toFinset := fun _ hv =>
  List.mem_toFinset.2 (seen_opening.1 ((mem_live hd.coherent).1 hv).1)

/-- With as many live vertices in the end as there are wires, none has been lost. -/
theorem Course.tight_opening (h : d.Course d.opening cs r') (hcard : n ≤ (d.live r').card) :
    d.Tight n d.opening d.web.input ∧ (d.live d.opening).card ≤ (d.live r').card := by
  have hsub := live_opening_subset hd
  have hinputs : d.inputs.toFinset.card = n :=
    (List.toFinset_card_of_nodup (hd.web.nodup .front)).trans (hd.web.length .front)
  have hlost := h.card_live_le hd (sound_opening hd)
  have heq := Finset.eq_of_subset_of_card_le hsub (hinputs.trans_le (hcard.trans hlost))
  refine ⟨?_, (Finset.card_le_card hsub).trans (hinputs.trans_le hcard)⟩
  refine ⟨fun v q => front_opening hd, fun q hq => ?_⟩
  rw [heq, List.mem_toFinset]
  exact hd.web.terminal_mem .front hq

end Opening

/-! ### Outputs -/

/-- Each output has the wire of what is next to it. -/
theorem meets_arrivals (hd : d.Ready n) : Meets (d.outputs.mapM (d.arriving r.front))
    (List.Forall₂ (fun o q => ∃ u, d.web.Tied o u ∧ r.front[u]? = some q) d.outputs) Rejected := by
  refine Meets.mapM fun o ho => ?_
  obtain ⟨u, ht⟩ := hd.web.toListed.exists_tied (hd.web.degree .back o ho)
  rw [arriving, firstNeighbor?_eq hd.coherent (ht.has hd.coherent.valid).1 ht.joins]
  simp only [liftM_ok_bind, Option.bind_some]
  cases hu : r.front[u]? with
  | some q => exact ⟨u, ht, hu⟩
  | none => exact ⟨o, rfl⟩

section Arrivals

variable (hd : d.Ready n) {arrivals : List ℕ}
  (ha : List.Forall₂ (fun o q => ∃ u, d.web.Tied o u ∧ r.front[u]? = some q) d.outputs arrivals)
include hd ha

theorem length_arrivals : arrivals.length = n := ha.length_eq.symm.trans (hd.web.length .back)

theorem exists_arrival (hq : q < n) :
    ∃ u, d.web.Tied (d.web.output q) u ∧ r.front[u]? = some (arrivals.getD q 0) := by
  have hlen : q < d.outputs.length := hq.trans_eq (hd.web.length .back).symm
  have hlen' : q < arrivals.length := hq.trans_eq (length_arrivals hd ha).symm
  have houtput : d.web.output q = d.outputs[q] := by
    rw [Web.output, List.getD_eq_getElem?_getD, show d.web.outputs = d.outputs from rfl,
      List.getElem?_eq_getElem hlen]
    rfl
  rw [houtput, List.getD_eq_getElem?_getD, List.getElem?_eq_getElem hlen']
  exact ha.get hlen hlen'

variable (hr : d.Sound r)
include hr

omit ha in
/-- What is next to an output is next to no other. -/
theorem Sound.eq_of_tied {u : Vertex} {q' : ℕ} (hu : d.Seen r u) (hq : q < n) (hq' : q' < n)
    (ht : d.web.Tied (d.web.output q) u) (ht' : d.web.Tied (d.web.output q') u) : q = q' := by
  have hahead {q : ℕ} (hq : q < n) (ht : d.web.Tied (d.web.output q) u) :
      d.Ahead r u (d.web.output q) := by
    rw [Ahead, hd.coherent.valid.joins_comm]
    exact ⟨ht.joins_pos_iff.2 rfl, hr.not_seen_output hd hq⟩
  have he := hr.narrow u _ _ hu (hahead hq ht) (hahead hq' ht')
  exact (Web.terminal_inj (hd.web.nodup .back) (hq.trans_eq (hd.web.length .back).symm)
    (hq'.trans_eq (hd.web.length .back).symm)).1 he

/-- Where wires arrive at all outputs, as many vertices are live. -/
theorem Sound.le_card_live : n ≤ (d.live r).card := by
  choose! u hu using fun q (hq : q < n) => exists_arrival hd ha hq
  have hseen {q : ℕ} (hq : q < n) : d.Seen r (u q) := hr.front _ _ (hu q hq).2
  rw [← Finset.card_range n]
  refine Finset.card_le_card_of_injOn u (fun q hq => ?_) fun q hq q' hq' he => ?_
  · have hq := Finset.mem_range.1 hq
    refine (mem_live hd.coherent).2 ⟨hseen hq, d.web.output q, ?_, hr.not_seen_output hd hq⟩
    rw [hd.coherent.valid.joins_comm]
    exact (hu q hq).1.joins_pos_iff.2 rfl
  · have hq := Finset.mem_range.1 hq
    have hq' := Finset.mem_range.1 hq'
    exact hr.eq_of_tied hd (hseen hq) hq hq' (hu q hq).1 (he ▸ (hu q' hq').1)

/-- From the tips of threads, wires arrive in some order. -/
theorem Tight.exists_ends {tip : ℕ → Vertex} (ht : d.Tight n r tip) : ∃ ends : Perm ℕ,
    arrivals = (List.range n).map ends ∧ (∀ q, n ≤ q → ends q = q) ∧ KeepsPlaces n ends ∧
      ∀ q < n, d.web.Tied (d.web.output q) (tip (ends q)) := by
  have harrive (q : ℕ) (hq : q < n) : arrivals.getD q 0 < n ∧
      d.web.Tied (d.web.output q) (tip (arrivals.getD q 0)) := by
    obtain ⟨u, hu, hget⟩ := exists_arrival hd ha hq
    obtain ⟨hlt, rfl⟩ := (ht.front _ _).1 hget
    exact ⟨hlt, hu⟩
  obtain ⟨ends, hends, hfix, hkeeps⟩ := exists_perm (fun q hq => (harrive q hq).1)
    fun q hq q' hq' he => by
      have hseen := ((mem_live hd.coherent).1 (ht.live _ (harrive q hq).1)).1
      exact hr.eq_of_tied hd hseen hq hq' (harrive q hq).2 (he ▸ (harrive q' hq').2)
  refine ⟨ends, List.ext_getElem? fun q => ?_, hfix, hkeeps, fun q hq => ?_⟩
  · have hlen := length_arrivals hd ha
    by_cases hq : q < n
    · rw [List.getElem?_map, List.getElem?_range hq, Option.map_some, hends q hq,
        List.getD_eq_getElem?_getD, List.getElem?_eq_getElem (hlen.symm ▸ hq)]
      rfl
    · rw [List.getElem?_eq_none (by omega), List.getElem?_eq_none (by simp; omega)]
  · rw [hends q hq]
    exact (harrive q hq).2

end Arrivals

/-! ### The web of the cells -/

/-- What is beside a spider in the cell that it is of. -/
def beside (cs : List Cell) (v : Vertex) : List Vertex :=
  ((cs.find? (v ∈ ·.spiders)).map (·.partners v)).getD []

theorem beside_eq {c : Cell} (hnodup : (cs.flatMap Cell.spiders).Nodup) (hc : c ∈ cs)
    (hv : v ∈ c.spiders) : beside cs v = c.partners v := by
  have hsome : (cs.find? (v ∈ ·.spiders)).isSome :=
    List.find?_isSome.2 ⟨c, hc, decide_eq_true hv⟩
  obtain ⟨c', hfind⟩ := Option.isSome_iff_exists.1 hsome
  have hv' : v ∈ c'.spiders := by simpa using List.find?_some hfind
  rw [beside, hfind, eq_of_mem_flatMap hnodup (List.mem_of_find?_eq_some hfind) hc hv' hv]
  rfl

theorem exists_of_beside (h : x ∈ beside cs v) : ∃ c ∈ cs, x ∈ c.partners v := by
  rw [beside] at h
  cases hfind : cs.find? (v ∈ ·.spiders) with
  | none => simp [hfind] at h
  | some c => exact ⟨c, List.mem_of_find?_eq_some hfind, by simpa [hfind] using h⟩

/-- Threads are numbered by the inputs, and end in some order. -/
def Side.order (ends : Perm ℕ) : Side → Perm ℕ
  | .front => 1
  | .back => ends

/-- The cells that are read without a dead end make the diagram a woven web. -/
theorem Course.woven (hd : d.Ready n) (hends : ∀ v, d.web.IsEnd v → v ∈ d.inputs ∨ v ∈ d.outputs)
    (h : d.Course d.opening cs r') (hcard : n ≤ (d.live r').card)
    (hall : ∀ v, d.web.Has v ∧ ¬d.web.IsEnd v → v ∈ r'.done) {ends : Perm ℕ}
    (hkeeps : KeepsPlaces n ends) (htied : ∀ q < n,
      d.web.Tied (d.web.output q) (moveOn d.web.input (cs.flatMap Cell.spots) (ends q))) :
    d.web.Woven n (Side.order ends) (beside cs) cs := by
  have hr := sound_opening hd
  obtain ⟨ht, hle⟩ := h.tight_opening hd hcard
  have hfound := h.found
  have hcells := (h.tight hd hr hle ht).2
  have hnodup := (h.nodup hd hr hle).1
  have hbeside : ∀ c ∈ cs, ∀ v ∈ c.spiders, beside cs v = c.partners v := fun c hc v hv =>
    beside_eq hnodup hc hv
  obtain ⟨hruns, hlater⟩ := h.runs hd hr hle ht hkeeps htied hbeside
  -- all inner spiders have been visited, so each is in some cell
  have hinside (v : Vertex) : d.web.Has v ∧ ¬d.web.IsEnd v ↔ v ∈ cs.flatMap Cell.spiders := by
    refine ⟨fun hv => ?_, fun hv => ?_⟩
    · exact ((h.done v).1 (hall v hv)).resolve_right List.not_mem_nil
    · obtain ⟨c, hc, hv⟩ := List.mem_flatMap.1 hv
      exact (hfound c hc).inner v hv
  have hlist (side : Side) (v : Vertex) :
      v ∈ d.web.terminals side ↔ d.web.kind v = some side.kind := by
    refine ⟨hd.web.kind side v, fun hv => ?_⟩
    have hside (side' : Side) (hmem : v ∈ d.web.terminals side') : v ∈ d.web.terminals side := by
      have hkind := hd.web.kind side' v hmem
      rw [hv] at hkind
      cases side <;> cases side' <;> first | exact hmem | exact absurd hkind (by decide)
    exact (hends v (by rw [Web.IsEnd, hv]; exact side.isBoundary_kind)).elim (hside .front)
      (hside .back)
  exact {
    threaded := {
      valid := hd.coherent.valid
      length := hd.web.length
      nodup := hd.web.nodup
      inputs := hlist .front
      outputs := hlist .back
      keeps := fun side => by
        cases side
        · exact .one
        · exact hkeeps
      spider := fun s hs => by
        obtain ⟨c, hc, hs⟩ := List.mem_flatMap.1 hs
        obtain ⟨hhas, hinner⟩ := (hfound c hc).inner s.1 (Cell.spiders_of_spots hs)
        exact ⟨hhas, hinner, (hcells c hc).2 s hs⟩
      beside_spider := fun v x hx => by
        obtain ⟨c, hc, hx⟩ := exists_of_beside hx
        obtain ⟨hx, hv⟩ := Cell.mem_spiders_of_partners hx
        exact ⟨(hfound c hc).inner v hv, (hfound c hc).inner x hx⟩
      loose := fun v hv hend hno => by
        obtain ⟨c, hc, hvc⟩ := List.mem_flatMap.1 ((hinside v).1 ⟨hv, hend⟩)
        rw [hbeside c hc v hvc]
        refine (hfound c hc).loose v hvc fun hspot => ?_
        obtain ⟨s, hs, rfl⟩ := List.mem_map.1 hspot
        exact hno s.2 (List.mem_flatMap.2 ⟨c, hc, hs⟩)
      start := fun q hq => by
        obtain ⟨-, x, hx⟩ := (mem_live hd.coherent).1 (ht.live q hq)
        obtain ⟨u, hu⟩ := hd.web.exists_tied .front hq
        exact ⟨u, hlater q hq u (hu.joins_pos_iff.1 hx.1 ▸ hx), hu⟩
      runs := hruns }
    shown := fun c hc => ((hfound c hc).shown (hcells c hc).1).congr (fun _ _ => rfl)
      (fun _ _ => rfl) (hbeside c hc)
    inside := hinside
    nodup := hnodup }

/-- A diagram on which no coloured spider has more than three wires is read back as a circuit that
    has the unitary it denotes, up to a scalar; or it is turned down as that of no circuit. -/
theorem Ready.meets_toCircuit (hd : d.Ready n)
    (hends : ∀ v, d.web.IsEnd v → v ∈ d.inputs ∨ v ∈ d.outputs) (hslim : d.Slim) :
    Meets d.toCircuit (fun c => c.qubits = n ∧ (∀ g ∈ c.gates, g.Valid n) ∧
      ∃ k : ℂ, k ≠ 0 ∧ d.linearMap n n = k • c.unitary n) Rejected := by
  rw [toCircuit, hd.wires]
  refine (meets_interior hd.coherent).bind fun is his => ?_
  have hvisits (v : Vertex) : (∃ x ∈ is.mergeSort columnOrder, x.2 = v) ↔
      d.web.Has v ∧ ¬d.web.IsEnd v := by
    rw [← his, List.mem_map]
    simp only [List.mem_mergeSort]
  refine (meets_visits hd.coherent hd.web.plain hslim _ (fun x hx => (hvisits x.2).1 ⟨x, hx, rfl⟩)
    d.opening).bind fun r' hread => ?_
  obtain ⟨cs, hcourse, hdone⟩ := hread
  refine (meets_arrivals hd).bind fun arrivals harrive => ?_
  have hr := sound_opening hd
  have hr' := hcourse.sound hd hr
  have hcard := hr'.le_card_live hd harrive
  obtain ⟨htight, hle⟩ := hcourse.tight_opening hd hcard
  obtain ⟨ends, rfl, hfix, hkeeps, htied⟩ :=
    (hcourse.tight hd hr hle htight).1.exists_ends hd harrive hr'
  have hw := hcourse.woven hd hends hcard (fun v hv => by
    obtain ⟨x, hx, rfl⟩ := (hvisits v).2 hv
    exact hdone x hx) hkeeps htied
  obtain ⟨_, swaps, hroute, hswaps, hfollow, -⟩ :=
    exists_routeOutputs (d := d) hkeeps hfix (hd.web.length .back)
  rw [hroute]
  have hgates : r'.gates ++ swaps = ((cs.flatMap Cell.gates).map
      (Gate.relabel (Side.order ends .front).symm)).filter (!·.isIdle) ++ swaps := by
    rw [hcourse.gates, show (Side.order ends .front).symm = 1 from rfl,
      List.map_congr_left fun g _ => Gate.relabel_one g, List.map_id']
    rfl
  obtain ⟨hvalid, k, hk, hmap⟩ := hw.exists_unitary (fun g hg => (hswaps g hg).1) hfollow hgates
  obtain ⟨k', hk', hprop⟩ := hd.coherent.valid.contraction hd.web.plain
  refine ⟨rfl, hvalid, k' * k, mul_ne_zero hk' hk, ?_⟩
  have hsum : d.linearMap n n =
      k' • toMatrix n n d.outputs d.inputs (d.web.tensors 1).amplitude := by
    ext y x
    exact hprop _
  rw [hsum, mul_smul]
  exact congrArg (k' • ·) hmap

/-- A diagram that denotes no invertible map is turned down. -/
theorem Ready.exists_rejected (hd : d.Ready n)
    (hends : ∀ v, d.web.IsEnd v → v ∈ d.inputs ∨ v ∈ d.outputs) (hslim : d.Slim)
    (hmap : ¬IsUnit (d.linearMap n n)) :
    ∃ v, d.toCircuit = .error (.refused (.notCircuitLike v)) := by
  have hmeets := hd.meets_toCircuit hends hslim
  cases hread : d.toCircuit with
  | ok c =>
    rw [hread] at hmeets
    obtain ⟨-, hvalid, k, hk, hunitary⟩ := hmeets
    refine absurd ?_ hmap
    rw [hunitary, isUnit_smul_matrix hk]
    exact isUnit_gatesMatrix hvalid
  | error e =>
    rw [hread] at hmeets
    obtain ⟨v, rfl⟩ := hmeets
    exact ⟨v, rfl⟩

end Diagram

end ZXRewriting
