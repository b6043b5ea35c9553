import ZXRewriting.Proofs.BitMatrix.Solving
import ZXRewriting.Proofs.Extraction.Flow
import ZXRewriting.Proofs.GraphLike.Parity

/-!
# Extraction is complete on steady diagrams

A step of an extraction that pivots no gadget away leads to a steady diagram if and only if it starts
from one (`Peels.steady_iff`). In a steady web the edges between the spiders away from the inputs and
those away from the outputs are a matrix of which neither rows nor columns add up to zero
(`Steady.sums`). So there are no leaves (`Steady.not_isLeaf`), no spider is next to two outputs, and
where the frontier acts as no wires, some of its rows add up to a single one
(`Steady.exists_unit_mem_rowSpan`), so that adding rows sets a spider free. Nothing is ever in the way
of an extraction then (`Extraction.exists_extract_of_steady`).

Diagrams with a causal flow are steady (`Extraction.steady_of_flow`): such steps take them apart into
wires from the inputs to the outputs (`Wired.steady`).
-/

namespace ZXRewriting

open Function (update update_self update_of_ne)

namespace Web

variable {w w' : Web} {n t u v : Vertex} {k : EdgeKind} {frontier : List (ℕ × Vertex)} {ts vs : List Vertex}
  {σ : Vertex → ℂ}

/-! ### Steps of an extraction -/

theorem SameShape.relay (h : SameShape w w') (hr : w.Relay v t n k) : w'.Relay v t n k where
  isZ := h.isZ.2 hr.isZ
  isEnd := h.isEnd.2 hr.isEnd
  wired := by rw [h.link, hr.wired]
  link := by rw [h.link, hr.link]
  ne := hr.ne
  only x hx := hr.only x (h.nearby v ▸ hx)

theorem phase_toggleAll_of_ne (h : u ≠ v) : (w.toggleAll v vs).phase u = w.phase u := by
  induction vs generalizing w with
  | nil => rfl
  | cons n rest ih =>
    rw [toggleAll_cons, ih, toggle]
    split
    · exact update_of_ne h ..
    · rfl

/-- A step of an extraction changes nothing about whether a web denotes an invertible map. -/
theorem Peel.inverts_iff {gates : List Gate} (h : Peel w w' gates) (hw : w.InForm)
    (hlen : w.inputs.length = w.outputs.length) (hσ : ∀ x, σ x ≠ 0) :
    w'.Inverts σ ↔ w.Inverts σ := by
  have h₀ := SameShape.unphased w
  have hw₀ := h₀.inForm hw
  have hval := hw.simple.valid
  have hkeeps := h.keeps hw
  cases h with
  | hadamard hq hk => exact hw.inverts_setKind hlen (hw.isEnd_output hq) hk
  | phase => exact SameShape.inverts_iff ⟨rfl, rfl, rfl, rfl, rfl⟩
  | pad hv hi hk => exact hw.inverts_split hlen hσ hv (hw.isEnd_input hi) hk
  | @cz q r s t u v hq hr hu hv hus hvt hk =>
    have hvalid : (Gate.plain .cz [q, r]).Valid w.outputs.length :=
      hw.valid_two hq hr hus hvt (hval.ne_end hk) rfl _ (List.mem_singleton_self _)
    have hact : (w.weighted σ).amplitude = (Gate.plain .cz [q, r]).act
        (fun q => w.outputs.getD q 0) ((w.cut u v).weighted σ).amplitude := funext fun b => by
      rw [← network_unphased, hw₀.amplitude_cut (h₀.isEnd.2 (hw.isEnd_output hq))
        (h₀.isEnd.2 (hw.isEnd_output hr)) (h₀.isZ.2 hu) (h₀.isZ.2 hv) ((h₀.link u s).trans hus)
        ((h₀.link v t).trans hvt) ((h₀.link u v).trans hk), network_of_zero fun _ => rfl,
        ← output_eq hq, ← output_eq hr]
      rfl
    rw [Inverts, Inverts, hact, (hw.toEnds hlen).reversible_act hvalid]
    rfl
  | @add q r s t u v hq hr hu hv hus hvt huv hp hns =>
    have hvalid : (Gate.plain .cnot [r, q]).Valid w.outputs.length :=
      hw.valid_two hr hq hvt hus huv.symm rfl _ (List.mem_singleton_self _)
    have hact : (w.weighted (update σ u 1)).amplitude = (Gate.plain .cnot [r, q]).act
        (fun q => w.outputs.getD q 0) ((w.unphased.toggleAll v ((w.nearby u).filter (· ≠ s))).network
          (update σ u 1)).amplitude := funext fun b => by
      rw [← network_unphased, hw₀.amplitude_toggleAll (D := 1)
        (fun _ => ⟨⟨by decide, by decide⟩, onGrid_unphased⟩) (h₀.isEnd.2 (hw.isEnd_output hq))
        (h₀.isEnd.2 (hw.isEnd_output hr)) (h₀.isZ.2 hu) (h₀.isZ.2 hv) ((h₀.link u s).trans hus)
        ((h₀.link v t).trans hvt) huv rfl
        (fun n hn hne => h₀.isZ.2 (hns n (h₀.nearby u ▸ hn) hne)) (update_self ..), h₀.nearby,
        ← output_eq hq, ← output_eq hr]
      rfl
    have hN : ∀ n ∈ (w.nearby u).filter (· ≠ s), w.IsZ n := fun n hn =>
      hns n (List.mem_of_mem_filter hn) (by simpa using List.of_mem_filter hn)
    have hwithin := Within.toggleAll hv hN
    have hnear {x y : Vertex} (hy : w.IsEnd y) (hxy : w.link x y = some .plain) :
        y ∈ (w.toggleAll v ((w.nearby u).filter (· ≠ s))).nearby x := by
      rw [hkeeps.form.simple.valid.mem_nearby_comm, hkeeps.form.simple.valid.mem_nearby,
        hwithin.joins hy, ← hval.mem_nearby, ← hval.mem_nearby_comm]
      exact hval.mem_nearby_of_link hxy
    have hs := hw.isEnd_output hq
    have ht := hw.isEnd_output hr
    rw [network_eq_weighted, h₀.toggleAll.weighted] at hact
    rw [← hw.inverts_update hlen hs (hσ u) hu hus one_ne_zero, Inverts.eq_def w, hact,
      (hw.toEnds hlen).reversible_act hvalid, ← hwithin.outputs, ← hwithin.inputs]
    refine hkeeps.form.inverts_congr (hkeeps.lengths hlen) (fun x => mul_ne_zero (Phase.unit_ne_zero _) ?_)
      hσ fun x hx hfar => ?_
    · rw [Function.update_apply]
      split
      · exact one_ne_zero
      · exact hσ x
    · have hxu : x ≠ u := fun he => hfar s (he ▸ hnear hs hus) (hwithin.isEnd.2 hs)
      have hxv : x ≠ v := fun he => hfar t (he ▸ hnear ht hvt) (hwithin.isEnd.2 ht)
      rw [update_of_ne hxu, phase_toggleAll_of_ne hxv, unphased, Phase.unit_zero, one_mul]
  | @relay q t v n k hq h hp =>
    have hrelay := funext ((h₀.relay h).amplitude hw₀ rfl (τ := update σ v 1) (update_self ..))
    rw [network_unphased, network_of_zero fun x => by
      change update _ v _ x = _
      rw [Function.update_apply, unphased, ite_self], h₀.bypass.weighted] at hrelay
    rw [← hw.inverts_update hlen h.isEnd (hσ v) h.isZ h.wired one_ne_zero, Inverts.eq_def w, hrelay,
      Inverts.eq_def]
    refine iff_of_eq (congrArg _ (amplitude_weighted_congr fun x hx => ?_))
    refine (update_of_ne (fun he => ?_) ..).symm
    change (w.remove v).IsZ x at hx
    rw [he, IsZ, kind_remove, update_self] at hx
    cases hx

/-- A step of an extraction leaves a web steady if and only if it was. -/
theorem Peel.steady_iff {gates : List Gate} (h : Peel w w' gates) (hw : w.InForm) :
    w'.Steady ↔ w.Steady := by
  have hkeeps := h.keeps hw
  refine ⟨fun hs => ?_, fun hs => ?_⟩
  · have hlen : w.inputs.length = w.outputs.length := by
      rw [← hkeeps.inputs, ← hkeeps.outputs, hs.lengths]
    exact ⟨hlen, fun σ hσ => (h.inverts_iff hw hlen hσ).1 (hs.inverts σ hσ)⟩
  · exact ⟨hkeeps.lengths hs.lengths, fun σ hσ => (h.inverts_iff hw hs.lengths hσ).2 (hs.inverts σ hσ)⟩

/-- An extraction without gadgets leaves a web steady if and only if it was. -/
theorem Peels.steady_iff {gates : List Gate} (h : Peels False w w' gates) (hw : w.InForm) :
    w'.Steady ↔ w.Steady := by
  induction h with
  | refl => exact Iff.rfl
  | tail h h' ih => exact (h'.steady_iff (h.keeps hw).form).trans ih
  | pivot _ hg => exact hg.elim

/-! ### Odd cuts -/

/-- The spiders that are not next to any of the given ends. -/
def away (w : Web) (ts : List Vertex) : Finset Vertex :=
  (Finset.range w.next).filter fun v => w.IsZ v ∧ ∀ t ∈ w.nearby v, t ∉ ts

theorem Valid.mem_away (hw : w.Valid) :
    v ∈ w.away ts ↔ w.IsZ v ∧ ∀ t ∈ w.nearby v, t ∉ ts := by
  rw [away, Finset.mem_filter, Finset.mem_range, and_iff_right_iff_imp]
  exact fun h => hw.lt v h.1.has

/-- The edges from a vertex to the vertices with a coefficient other than zero. -/
theorem sum_edge_ne_zero {zs : Finset Vertex} {c : Vertex → ZMod 2}
    (h : Odd (∑ u ∈ zs.filter (c · ≠ 0), w.joins v u)) : ∑ u ∈ zs, c u * w.edge v u ≠ 0 := by
  have hone : ∀ x : ZMod 2, x ≠ 0 → x = 1 := by decide
  have hsum : ∑ u ∈ zs, c u * w.edge v u = ((∑ u ∈ zs.filter (c · ≠ 0), w.joins v u : ℕ) : ZMod 2) := by
    rw [Nat.cast_sum, Finset.sum_filter]
    refine Finset.sum_congr rfl fun u _ => ?_
    split
    · next hne => rw [hone _ hne, one_mul, edge]
    · next hzero => rw [not_not.1 hzero, zero_mul]
  rw [hsum, (ZMod.natCast_eq_one_iff_odd).2 h]
  exact one_ne_zero

theorem Valid.edge_comm (hw : w.Valid) (u v : Vertex) : w.edge u v = w.edge v u := by
  rw [edge, edge, hw.joins_comm]

theorem Simple.edge_eq_ite (hw : w.Simple) (u v : Vertex) :
    w.edge u v = if v ∈ w.nearby u then 1 else 0 := by
  rw [hw.edge_eq]
  exact if_congr hw.valid.mem_nearby.symm rfl rfl

/-- The edges of a steady web between the spiders away from the inputs and those away from the
    outputs, as a matrix. -/
theorem Steady.sums (hs : w.Steady) (hw : w.InForm) :
    Sums (w.away w.inputs) (w.away w.outputs) w.edge := by
  have hval := hw.simple.valid
  obtain ⟨hout, hin⟩ := hs.oddCut hw
  refine ⟨fun c hc => ?_, fun c hc => ?_⟩
  · obtain ⟨u, hu, hcu⟩ := hc
    obtain ⟨v, hv, hz, hfar, hodd⟩ := hout ((w.away w.inputs).filter (c · ≠ 0))
      ⟨u, Finset.mem_filter.2 ⟨hu, hcu⟩⟩ fun x hx => hval.mem_away.1 (Finset.mem_filter.1 hx).1
    refine ⟨v, hval.mem_away.2 ⟨hz, hfar⟩, fun hvin => ?_, ?_⟩
    · by_contra hcv
      exact hv (Finset.mem_filter.2 ⟨hvin, hcv⟩)
    · simp only [hval.edge_comm _ v]
      exact sum_edge_ne_zero hodd
  · obtain ⟨v, hv, hcv⟩ := hc
    obtain ⟨u, -, hz, hfar, hodd⟩ := hin ((w.away w.outputs).filter (c · ≠ 0))
      ⟨v, Finset.mem_filter.2 ⟨hv, hcv⟩⟩ fun x hx => hval.mem_away.1 (Finset.mem_filter.1 hx).1
    exact ⟨u, hval.mem_away.2 ⟨hz, hfar⟩, sum_edge_ne_zero hodd⟩

/-- There are no leaves in a steady web. -/
theorem Steady.not_isLeaf (hs : w.Steady) (hw : w.InForm) : ¬w.IsLeaf v := by
  classical
  rintro ⟨hz, hd, hnear⟩
  have hval := hw.simple.valid
  have hsums := hs.sums hw
  have haway (ts : List Vertex) (hts : ∀ t ∈ ts, w.IsEnd t) : v ∈ w.away ts :=
    hval.mem_away.2 ⟨hz, fun t ht hmem => (hnear t ht).not_isEnd (hts t hmem)⟩
  have hin := haway w.inputs fun t ht => hw.isEnd_input ht
  have hout := haway w.outputs fun t ht => hw.isEnd_of_mem_outputs ht
  -- the only neighbour
  rw [hw.simple.degree_eq] at hd
  obtain ⟨p, hp⟩ := List.length_eq_one_iff.1 hd
  have hedge (u : Vertex) : w.edge u v = if u = p then 1 else 0 := by
    rw [hval.edge_comm, hw.simple.edge_eq_ite, hp]
    exact if_congr List.mem_singleton rfl rfl
  obtain ⟨c, hc⟩ := hsums.exists_solution hout
  have hpc : p ∈ w.away w.inputs ∧ c p = 1 := by
    have hsum := hc v hout
    simp only [hedge, mul_ite, mul_one, mul_zero, Finset.sum_ite_eq', if_true] at hsum
    split at hsum
    · next hmem => exact ⟨hmem, hsum⟩
    · exact absurd hsum zero_ne_one
  have hpv : p ≠ v := fun he => hval.notMem_nearby_self (v := v) (by rw [hp, he]; simp)
  -- the solution for the leaf has a one at the leaf, or else the same holds when the leaf is added
  obtain ⟨d, hd, hsolve⟩ : ∃ d : Vertex → ZMod 2, (d p = 1 ∧ d v = 1) ∧
      ∀ v' ∈ w.away w.outputs, v' ≠ v → v' ≠ p → ∑ u ∈ w.away w.inputs, d u * w.edge u v' = 0 := by
    by_cases hcv : c v = 1
    · exact ⟨c, ⟨hpc.2, hcv⟩, fun v' hv' hne _ => by rw [hc v' hv', if_neg hne]⟩
    · have hcv' : c v = 0 := by
        have : ∀ x : ZMod 2, x ≠ 1 → x = 0 := by decide
        exact this _ hcv
      refine ⟨c + Pi.single v 1, ⟨by simp [hpc.2, hpv], by simp [hcv']⟩, fun v' hv' hne hnep => ?_⟩
      have hzero : w.edge v v' = 0 := by
        rw [hw.simple.edge_eq_ite, hp, if_neg (by simpa using hnep)]
      simp [add_mul, Finset.sum_add_distrib, hc v' hv', hne, Pi.single_apply, hzero]
  obtain ⟨v', hv', hdv', hsum⟩ := hsums.odd d ⟨v, hin, by rw [hd.2]; exact one_ne_zero⟩
  by_cases hvv : v' = v
  · rw [hvv, hd.2] at hdv'
    exact one_ne_zero (hdv' hin)
  by_cases hvp : v' = p
  · rw [hvp, hd.1] at hdv'
    exact one_ne_zero (hdv' hpc.1)
  exact hsum (hsolve v' hv' hvv hvp)

/-- Where the frontier of a steady web is stuck, some of its rows add up to a single one. -/
theorem Steady.exists_unit_mem_rowSpan (hs : w.Steady) (hw : w.InForm)
    (hprep : w.Prepared frontier w.outputs.length) (hne : frontier ≠ [])
    (hlen : ∀ p ∈ frontier, (w.nearby p.2).length ≠ 2) :
    ∃ c, (fun j => if j = c then (1 : ZMod 2) else 0) ∈
      (w.edgeMatrix frontier (w.inward frontier)).rowSpan frontier.length := by
  have hval := hw.simple.valid
  have hsums := hs.sums hw
  have hopen := hprep.isOpen hw hlen
  have hfront : ∀ p ∈ frontier, p.2 ∈ w.away w.inputs := fun p hp => by
    refine hval.mem_away.2 ⟨(hprep.settled p hp).isZ, fun t ht hin => ?_⟩
    have hne : t ≠ w.output p.1 := fun he =>
      hw.output_notMem_inputs (hprep.settled p hp).lt (he ▸ hin)
    exact (hopen.inside p hp t ht hne).not_isEnd (hw.isEnd_input hin)
  -- there is a spider away from the outputs
  obtain ⟨p, hp⟩ := List.exists_mem_of_ne_nil _ hne
  obtain ⟨v, hv, -⟩ := hsums.odd 1 ⟨p.2, hfront p hp, one_ne_zero⟩
  obtain ⟨v, hv, c, hzero, hunit⟩ := hsums.exists_unit ⟨v, hv⟩
  have hsupport : ∀ u ∈ w.away w.inputs, c u ≠ 0 → ∃ p ∈ frontier, p.2 = u := fun u hu hcu => by
    have hz := (hval.mem_away.1 hu).1
    by_contra hno
    refine hcu (hzero u hu (hval.mem_away.2 ⟨hz, fun t ht hout => hno ?_⟩))
    exact hprep.exists_of_output hw hz hout ht
  set m := w.edgeMatrix frontier (w.inward frontier) with hm
  have hsum (n : Vertex) : ∑ i : Fin frontier.length, c frontier[i].2 * w.edge frontier[i].2 n =
      ∑ u ∈ w.away w.inputs, c u * w.edge u n := by
    refine Finset.sum_of_injOn (fun i => frontier[i].2) (fun i _ j _ he => ?_)
      (fun i _ => hfront _ (List.getElem_mem i.2)) (fun u hu hno => ?_) fun _ _ => rfl
    · have hnd : frontier.Nodup := List.Nodup.of_map _ (hprep.lined hw).nodup
      exact Fin.ext (hnd.getElem_inj_iff.1
        (hprep.eq_of_spider hw (List.getElem_mem i.2) (List.getElem_mem j.2) he))
    · by_contra hne
      obtain ⟨p, hp, rfl⟩ := hsupport u hu (left_ne_zero_of_mul hne)
      obtain ⟨i, hi, rfl⟩ := List.getElem_of_mem hp
      exact hno ⟨⟨i, hi⟩, by simp, rfl⟩
  -- the columns are away from the outputs, and the one is in one of them
  have haway : ∀ n ∈ w.inward frontier, n ∈ w.away w.outputs := fun n hn => by
    obtain ⟨⟨p, hp, hnear⟩, hz⟩ := mem_inward.1 hn
    refine hval.mem_away.2 ⟨hz, fun t ht hout => ?_⟩
    obtain ⟨p', hp', rfl⟩ := hprep.exists_of_output hw hz hout ht
    exact hprep.apart p hp p' hp' hnear
  have hmem : v ∈ w.inward frontier := by
    have hone : ∑ i : Fin frontier.length, c frontier[i].2 * w.edge frontier[i].2 v ≠ 0 := by
      rw [hsum, hunit v hv, if_pos rfl]
      exact one_ne_zero
    obtain ⟨i, -, hi⟩ := Finset.exists_ne_zero_of_sum_ne_zero hone
    have hedge := right_ne_zero_of_mul hi
    rw [hw.simple.edge_eq_ite, ite_ne_right_iff] at hedge
    exact mem_inward.2 ⟨⟨_, List.getElem_mem i.2, hedge.1⟩, (hval.mem_away.1 hv).1⟩
  obtain ⟨k, hk, hget⟩ := List.getElem_of_mem hmem
  have hvector : (fun j => if j = k then (1 : ZMod 2) else 0) =
      ∑ i : Fin frontier.length, c frontier[i].2 • m.rowVector i := by
    funext j
    rw [Finset.sum_apply]
    by_cases hj : j < (w.inward frontier).length
    · have hentry (i : Fin frontier.length) :
          m.rowVector i j = w.edge frontier[i].2 (w.inward frontier)[j] :=
        hw.simple.value_edgeMatrix (List.getElem?_eq_getElem i.2) (List.getElem?_eq_getElem hj)
      simp only [Pi.smul_apply, smul_eq_mul, hentry]
      have hnd : (w.inward frontier).Nodup := (Multigraph.pairwise_ascending _).imp Nat.ne_of_lt
      rw [hsum, hunit _ (haway _ (List.getElem_mem hj)), ← hget]
      exact if_congr hnd.getElem_inj_iff.symm rfl rfl
    · have hentry (i : Fin frontier.length) : m.rowVector i j = 0 :=
        rect_edgeMatrix.value_eq_zero (Nat.le_of_not_lt hj)
      simp only [Pi.smul_apply, hentry, smul_zero, Finset.sum_const_zero]
      exact if_neg fun (he : j = k) => hj (he ▸ hk)
  refine ⟨k, ?_⟩
  rw [hvector]
  exact Submodule.sum_mem _ fun i _ => Submodule.smul_mem _ _ (BitMatrix.rowVector_mem i.2)

/-! ### Flows -/

section

variable {c : Course} {x : Vertex} (hf : w.Flow c) (hw : w.InForm)
include hf hw

/-- There are as many inputs as outputs. -/
theorem Flow.lengths : w.inputs.length = w.outputs.length := by
  classical
  have hval := hw.simple.valid
  have hmem {v : Vertex} {κ : SpiderKind} : v ∈ (w.spiders.filter fun v => w.kind v ≠ some κ) ↔
      w.Has v ∧ w.kind v ≠ some κ := by
    rw [Finset.mem_filter, mem_spiders, and_congr_left_iff]
    exact fun _ => and_iff_right_of_imp (hval.lt v)
  have hleads {v : Vertex} : v ∈ (w.spiders.filter fun v => w.kind v ≠ some .output) ↔
      w.Leads c v := by
    rw [hmem]
    exact ⟨fun h => ⟨hf.on_of_has hw h.1, h.2⟩, fun h => ⟨hf.has v h.1, h.2⟩⟩
  -- going on is a bijection from what is no output to what is no input
  have hcard : (w.spiders.filter fun v => w.kind v ≠ some .output).card =
      (w.spiders.filter fun v => w.kind v ≠ some .input).card := by
    refine Finset.card_nbij c.next (fun v hv => ?_) (fun u hu v hv he => ?_) fun v hv => ?_
    · have hlead := hleads.1 hv
      refine hmem.2 ⟨hf.has _ (hf.on_next v hlead), ?_⟩
      by_cases ho : w.kind (c.next v) = some .output
      · rw [ho]
        simp
      · rw [hf.isZ_next hw hlead ho]
        simp
    · exact hf.injective hval (hleads.1 hu) (hleads.1 hv) he
    · obtain ⟨hhas, hne⟩ := hmem.1 hv
      obtain ⟨u, hu, rfl⟩ := hf.onto v (hf.on_of_has hw hhas) hne
      exact ⟨u, hleads.2 hu, rfl⟩
  have hlist {κ : SpiderKind} {l : List Vertex} (hnd : l.Nodup)
      (hl : ∀ v, v ∈ l ↔ w.kind v = some κ) :
      l.length + (w.spiders.filter fun v => w.kind v ≠ some κ).card = w.spiders.card := by
    have hset : l.toFinset = w.spiders.filter fun v => w.kind v = some κ := by
      ext v
      rw [List.mem_toFinset, hl, Finset.mem_filter, mem_spiders]
      exact ⟨fun h => ⟨⟨hval.lt v (has_of_kind h), has_of_kind h⟩, h⟩, And.right⟩
    rw [← List.toFinset_card_of_nodup hnd, hset, Finset.card_filter_add_card_filter_not]
  have hin := hlist hw.inputs_nodup hw.mem_inputs
  have hout := hlist hw.outputs_nodup hw.mem_outputs
  omega

/-- When the frontier is empty, no spiders are left. -/
theorem Flow.not_isZ (hprep : w.Prepared [] w.outputs.length) : ¬w.IsZ v := by
  classical
  intro hv
  have hval := hw.simple.valid
  have hmem {u : Vertex} : u ∈ (Finset.range w.next).filter (w.IsZ ·) ↔ w.IsZ u := by
    rw [Finset.mem_filter, Finset.mem_range, and_iff_right_iff_imp]
    exact fun hu => hval.lt u hu.has
  -- a spider of the highest rank
  obtain ⟨x, hx, hmax⟩ := Finset.exists_max_image _ c.rank ⟨v, hmem.2 hv⟩
  have hz := hmem.1 hx
  have hlead := hf.leads_of_isColoured hz.isColoured
  by_cases ho : w.kind (c.next x) = some .output
  · obtain ⟨p, hp, -⟩ := hprep.exists_of_output hw hz ((hw.mem_outputs _).2 ho)
      (hf.next_mem_nearby hw hlead)
    exact List.not_mem_nil hp
  · exact Nat.not_lt_of_le (hmax _ (hmem.2 (hf.isZ_next hw hlead ho))) (hf.lt x hlead)

end

/-! ### Diagrams of wires -/

section

variable {arrivals : List ℕ} (h : w.Wired arrivals) (hw : w.InForm)
  (hlen : w.inputs.length = w.outputs.length)
include h hw hlen

/-- A permutation of the wires is invertible. -/
theorem Wired.reversible : Reversible w.outputs.length w.outputs w.inputs
    (wiring w.output w.input arrivals) := by
  have hrouted := Routed.foldl (o := w.output) (i := w.input) (n := w.outputs.length)
    (fun p p' hp hp' => hw.output_inj hp hp')
    (fun r p hr hp => hw.input_ne_output (hlen.symm ▸ hr) hp) h.length (h.nodup hw)
    (fun r hr => hlen ▸ h.lt r hr)
  set state := (List.range w.outputs.length).foldl (Extraction.State.routeWire arrivals)
    (List.range w.outputs.length, [])
  obtain ⟨c, hc, hmat⟩ := gatesMatrix_mul_toMatrix w.outputs.length w.inputs hw.outputs_nodup rfl
    (fun q hq => getElem?_outputs hq) hrouted.valid
    (wiring w.output w.input (List.range w.outputs.length))
  rw [hrouted.acts, hrouted.eq_arrivals h.length, toMatrix_wiring hw.outputs_nodup hw.inputs_nodup
    (hw.toEnds hlen).symm.disjoint rfl hlen (fun q hq => getElem?_outputs hq)
    (fun r hr => getElem?_inputs hr), mul_one] at hmat
  rw [Reversible, hmat, isUnit_smul_matrix hc]
  exact isUnit_gatesMatrix hrouted.valid

/-- A diagram of nothing but wires is steady. -/
theorem Wired.steady (hz : ∀ v, ¬w.IsZ v) : w.Steady := by
  refine ⟨hlen, fun σ _ => ?_⟩
  have hamp : (w.weighted σ).amplitude = w.amplitude :=
    amplitude_weighted_congr (σ := fun v => (w.phase v).unit * 1) fun v hv => absurd hv (hz v)
  have hinner : (w.network 1).inner = ∅ :=
    Finset.eq_empty_of_forall_notMem fun v hv => hz v (mem_inner_iff.1 hv).2
  have hone : w.amplitude (fun _ => false) = 1 := by
    rw [Web.amplitude, Network.amplitude, hinner, sumOver_empty, Network.weight, hinner,
      Finset.prod_empty, one_mul]
    exact Finset.prod_eq_one fun p _ => by simp [bond_network]
  rw [Inverts, hamp, funext (h.amplitude hw hlen), hone]
  simp only [one_mul]
  exact h.reversible hw hlen

end

end Web

/-! ### Extraction -/

namespace Extraction

namespace State

variable {w : Web} {s : State} {o : Obstacle}

/-- Nothing is in the way of an extraction from a steady diagram. -/
theorem not_blocked (hs : w.Steady) (hw : w.InForm) : ¬Blocked true [] w o := by
  rintro (⟨q, hq, v, t, hv, hk, ht, hout, hne⟩ | hne | ⟨frontier, hstuck⟩)
  · have hval := hw.simple.valid
    have hmem : w.output q ∈ w.outputs := List.mem_of_getElem? (Web.getElem?_outputs hq)
    exact hne (hs.output_eq_of_nearby hw hmem ((hw.mem_outputs t).2 hout)
      (.inr ⟨v, hval.mem_nearby_of_link hk, ht⟩))
  · exact hne rfl
  · obtain ⟨c, hc⟩ := hs.exists_unit_mem_rowSpan hw hstuck.toPrepared hstuck.nonempty hstuck.noWire
    exact hstuck.noUnit rfl c hc

section

variable (hw : w.InForm) (hs : w.Steady)
include hw hs

theorem Reached.steady (h : s.Reached False w) : s.web.Steady := (h.peels.steady_iff hw).2 hs

/-- The rounds go on to an empty frontier, if there are enough of them. -/
theorem Reached.runWithin_of_steady (permute : Bool) (rounds : ℕ) (h : s.Reached False w) :
    Meets (s.runWithin ⟨true, permute⟩ rounds [])
      (fun s' => s'.Reached False w ∧ s'.web.Prepared [] w.outputs.length)
      (· = .fault .outOfRounds) := by
  induction rounds generalizing s with
  | zero => exact rfl
  | succ rounds ih =>
    rw [State.runWithin]
    refine Meets.bind ((h.round hw ⟨true, permute⟩ fun hne => absurd rfl hne).mono (fun _ hr => hr)
      fun e he => ?_) fun r hr => ?_
    · cases e with
      | fault => exact he.elim
      | refused u =>
        obtain ⟨hreached, hblocked⟩ := he
        exact absurd hblocked (not_blocked (hreached.steady hw hs) (hreached.keeps hw).form)
    · cases r with
      | finished s' => exact hr
      | next s' left =>
        obtain ⟨hs', w₁, frontier, -, -, hadv⟩ := hr
        obtain rfl := List.subset_nil.1 hadv.subset
        exact ih hs'

/-- Each output is wired to an input. -/
theorem Reached.exists_permute_of_steady (h : s.Reached False w)
    (hprep : s.web.Prepared [] w.outputs.length) : ∃ s', s.permute = .ok s' := by
  have hform := (h.keeps hw).form
  have hmeets := h.permute hw hprep
  cases hok : s.permute with
  | ok s' => exact ⟨s', rfl⟩
  | error e =>
    rw [hok] at hmeets
    cases e with
    | fault => exact hmeets.elim
    | refused u =>
      obtain ⟨-, hweb, t, t', ht, ht', hlink⟩ := hmeets
      rw [hweb] at ht ht' hlink
      have hval := hform.simple.valid
      have hnear := hval.mem_nearby_of_link hlink
      exact absurd ((h.steady hw hs).output_eq_of_nearby hform ((hform.mem_outputs t').2 ht')
        ((hform.mem_outputs t).2 ht) (.inl hnear)) (hval.ne_of_mem_nearby hnear)

end

end State

section

variable {g : GraphLike} (hg : g.Coherent) (hw : g.web.InForm)
include hg hw

/-- A circuit is extracted from a graph-like diagram that is steady. -/
theorem exists_extract_of_steady (hs : g.web.Steady) (permute : Bool) :
    ∃ r, extract ⟨true, permute⟩ g = .ok r := by
  have hcentres := GraphLike.gadgetCentres_of_no_leaf hg hw.simple fun _ => hs.not_isLeaf hw
  obtain ⟨s, hok, hreached, hprep⟩ := State.exists_ok_runWithin hg hw _ hcentres
    ((State.reached_start hg).runWithin_of_steady hw hs permute g.roundLimit)
  cases permute with
  | false => exact ⟨_, extract_of_run hcentres hok rfl⟩
  | true =>
    obtain ⟨s', hok'⟩ := hreached.exists_permute_of_steady hw hs hprep
    exact ⟨_, extract_of_run hcentres hok hok'⟩

/-- A graph-like diagram with a flow is steady. -/
theorem steady_of_flow {c : Course} (hf : g.web.Flow c) : g.web.Steady := by
  obtain ⟨-, s, hrun, hs, hprep⟩ := State.InFlow.exists_run hg hw hf
  -- the rounds take steps without gadgets only, which can be taken back
  have hstart : (State.mk g (.empty g.outputs.length) []).Reached False g.web :=
    State.reached_start hg
  have hsteps := hstart.runWithin hw ⟨false, false⟩ g.roundLimit
    fun hne : ([] : List Vertex) ≠ [] => absurd rfl hne
  rw [hrun] at hsteps
  have hreached := hsteps.1
  have hkeeps := hreached.keeps hw
  obtain ⟨c', hf'⟩ := hs.flow
  obtain ⟨s', hok, -⟩ := hs.exists_permute hw hprep
  have hmeets := hreached.permute hw hprep
  rw [hok] at hmeets
  obtain ⟨arrivals, hwired, -⟩ := hmeets
  refine (hreached.peels.steady_iff hw).1 (hwired.steady hkeeps.form (hf'.lengths hkeeps.form)
    fun v => hf'.not_isZ hkeeps.form ?_)
  rw [hkeeps.outputs]
  exact hprep

end

end Extraction

end ZXRewriting
