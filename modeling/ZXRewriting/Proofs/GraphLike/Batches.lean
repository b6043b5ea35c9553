import ZXRewriting.Proofs.GraphLike.Local
import ZXRewriting.Proofs.GraphLike.Runs
import ZXRewriting.Proofs.Listings

/-!
# Batches of pivots

Each rule that pivots claims, for a pair of spiders, the two with all of their neighbours, so that the
matches it lists lie in different places (`GraphLike.exists_pairs`). A pivot is confined to its place,
and whether it is accepted, and what it does, is decided there. So while a batch is applied, in any
order, none of the matches left goes stale (`GraphLike.PartApplied`), and in the end each place looks as if
the pivot there had been the only one (`GraphLike.Pivoted`).
-/

namespace ZXRewriting

/-- The rules that pivot. -/
def GraphRule.pivots : List GraphRule := [pivot, pivotBoundary, pivotGadget, pivotBoundaryGadget]

namespace Web

variable {w w' : Web} {m : Match} {v u x : Vertex} {us : List Vertex}

/-- The place of a pair: the two spiders with their neighbours. -/
def around (w : Web) : Match → List Vertex
  | v :: u :: _ => v :: w.nearby v ++ w.nearby u
  | _ => []

/-- A match of two spiders that are joined, with neighbours of the second one. -/
inductive IsPair (w : Web) : Match → Prop
  | pair {v u : Vertex} {us : List Vertex} (hu : u ∈ w.nearby v) (hus : us ⊆ w.nearby u) :
    IsPair w (v :: u :: us)

/-- Pivots at the first two spiders of a match. -/
def pivotAt (w : Web) : Match → Web
  | v :: u :: _ => w.pivot v u
  | _ => w

theorem left_mem_around : v ∈ w.around (v :: u :: us) := by simp [around]

theorem nearby_left_subset : w.nearby v ⊆ w.around (v :: u :: us) := fun _ hn => by simp [around, hn]

theorem nearby_right_subset : w.nearby u ⊆ w.around (v :: u :: us) := fun _ hn => by simp [around, hn]

theorem IsPair.subset_around (h : w.IsPair m) : m ⊆ w.around m := by
  obtain ⟨hu, hus⟩ := h
  intro x hx
  simp only [List.mem_cons] at hx
  rcases hx with rfl | rfl | hx
  · exact left_mem_around
  · exact nearby_left_subset hu
  · exact nearby_right_subset (hus hx)

theorem IsPair.has (h : w.IsPair m) (hw : w.Valid) (hx : x ∈ w.around m) : w.Has x := by
  obtain ⟨hu, -⟩ := h
  simp only [around, List.cons_append, List.mem_cons, List.mem_append] at hx
  rcases hx with rfl | hx | hx
  · exact hw.has_of_mem_nearby (hw.mem_nearby_comm.1 hu)
  · exact hw.has_of_mem_nearby hx
  · exact hw.has_of_mem_nearby hx

/-- A place that looks the same has the same spiders. -/
theorem around_congr (hw : w.Valid) (hw' : w'.Valid) (hm : w.IsPair m)
    (h : ∀ x ∈ w.around m, SameAt w w' x) : w'.around m = w.around m := by
  obtain ⟨hu, -⟩ := hm
  rw [around, (h _ left_mem_around).nearby hw hw', (h _ (nearby_left_subset hu)).nearby hw hw', around]

/-- Spiders that are new, and those of a place. -/
def zone (w : Web) (m : Match) : Set Vertex := {x | x ∈ w.around m ∨ w.next ≤ x}

end Web

namespace GraphLike

variable {g g' : GraphLike} {rule : GraphRule} {m : Match} {ms done : List Match} {u v : Vertex}

open Web

/-! ### One pivot -/

section

variable (hg : g.Coherent)
include hg

/-- What is done at a match that is accepted: when what is in the way was moved off, which is confined
    to the place, a pivot. -/
theorem exists_gives_pivot (hrule : rule ∈ GraphRule.pivots) (hw : g.web.InForm)
    (h : rule.check g m = .ok true) : g.web.IsPair m ∧ ∃ w v u us, m = v :: u :: us ∧
      Readied u g.web w ∧ Confined (g.web.zone m) g.web w ∧
      (rule = .pivot → w = g.web) ∧ Gives (rule.apply g m) (w.pivot v u) g.master := by
  rw [check_iff hg] at h
  obtain ⟨hhas, h⟩ := h
  have hin {v u : Vertex} {us : List Vertex} (hj : u ∈ g.web.nearby v) :
      u ∈ g.web.zone (v :: u :: us) := .inl (nearby_left_subset hj)
  have hnear {v u : Vertex} {us : List Vertex} :
      ∀ n ∈ g.web.nearby u, n ∈ g.web.zone (v :: u :: us) := fun n hn => .inl (nearby_right_subset hn)
  have hends {u b : Vertex} (hu : g.web.Has u)
      (hb : (do return (← g.boundaryNeighbors u) == [b]) = (.ok true : Except Fault Bool)) :
      [b] ⊆ g.web.nearby u := by
    rw [boundaryNeighbors_eq hg hu] at hb
    rw [← eq_of_beq (Except.ok.inj hb)]
    exact List.filter_subset_self _
  rw [GraphRule.checkPresent.eq_def] at h
  split at h
  case h_2 v u =>
    obtain ⟨hv, hu, hj, -, hpu⟩ := of_checkPivot hg hw (hhas v (by simp)) (hhas u (by simp)) h
    have hready := hw.readied hu hpu
    exact ⟨.pair hj (List.nil_subset _), _, v, u, [], rfl, hready, .refl _ _, fun _ => rfl,
      Gives.pivot hg hw.simple (hready.pivotable hv hj (hg.valid.ne_of_mem_nearby hj))⟩
  case h_3 v u b =>
    obtain ⟨h, hb⟩ := and_eq_true_iff.1 h
    have hu := hhas u (by simp)
    obtain ⟨hv, hat, hj, -, hpu⟩ := of_checkPivotBoundary hg hw (hhas v (by simp)) hu h
    exact ⟨.pair hj (hends hu hb), _, v, u, [b], rfl, hw.readied_shiftBoundaries hat.1 hpu,
      confined_shiftBoundaries (hin hj) hnear fun n => .inr, fun h => (by cases h),
      gives_pivotBoundary hg hw hv hat hj hpu⟩
  case h_4 v u =>
    obtain ⟨hv, hu, hj, -⟩ := of_checkPivotGadget hg hw (hhas v (by simp)) (hhas u (by simp)) h
    exact ⟨.pair hj (List.nil_subset _), _, v, u, [], rfl, hw.readied_shiftPhase hu,
      confined_shiftPhase (hin hj) fun n => .inr, fun h => (by cases h),
      gives_pivotGadget hg hw hv hu hj⟩
  case h_5 v u b =>
    obtain ⟨h, hb⟩ := and_eq_true_iff.1 h
    have hu := hhas u (by simp)
    obtain ⟨hv, hat, hj, -⟩ := of_checkPivotBoundaryGadget hg hw (hhas v (by simp)) hu h
    have hshifted := (hw.shiftBoundaries hat.1).2.1.next
    exact ⟨.pair hj (hends hu hb), _, v, u, [b], rfl, hw.readied_shiftPhase_shiftBoundaries hat.1,
      (confined_shiftBoundaries (hin hj) hnear fun n => .inr).trans
        (confined_shiftPhase (hin hj) fun n hn => .inr (hshifted.trans hn)),
      fun h => (by cases h), gives_pivotBoundaryGadget hg hw hv hat hj⟩
  case h_8 => cases h
  all_goals exact absurd hrule (by decide)

/-- A match that is accepted is still accepted on a graph where its place looks the same. -/
theorem check_congr (hrule : rule ∈ GraphRule.pivots) (hw : g.web.Simple) (hg' : g'.Coherent)
    (hw' : g'.web.Simple) (hm : g.web.IsPair m) (hsame : ∀ x ∈ g.web.around m, SameAt g.web g'.web x)
    (h : rule.check g m = .ok true) : rule.check g' m = .ok true := by
  rw [check_iff hg] at h
  obtain ⟨hhas, h⟩ := h
  have hhas' : ∀ x ∈ m, g'.web.Has x := fun x hx =>
    ((hsame x (hm.subset_around hx)).has).2 (hhas x hx)
  obtain ⟨hu, -⟩ := id hm
  rename_i v u us
  have hv := hsame v left_mem_around
  have hnv : ∀ y ∈ g.web.nearby v, SameAt g.web g'.web y := fun y hy => hsame y (nearby_left_subset hy)
  have hnu : ∀ y ∈ g.web.nearby u, SameAt g.web g'.web y := fun y hy => hsame y (nearby_right_subset hy)
  have hu := hnv u hu
  have hpv : g'.phase v = g.phase v := hv.phase
  have hpu : g'.phase u = g.phase u := hu.phase
  -- what the conditions test is the same
  have hinner : g'.web.IsInner v ↔ g.web.IsInner v := isInner_congr hw hw' hv hnv
  have hinner' : g'.web.IsInner u ↔ g.web.IsInner u := isInner_congr hw hw' hu hnu
  have hbound : g'.web.AtBoundary u ↔ g.web.AtBoundary u := atBoundary_congr hw hw' hu hnu
  have hends : g'.boundaryNeighbors u = g.boundaryNeighbors u := by
    rw [boundaryNeighbors_eq hg' (hhas' u (by simp)), boundaryNeighbors_eq hg (hhas u (by simp)),
      ends_congr hw hw' hu hnu]
  have hv₀ := hhas v (by simp)
  have hu₀ := hhas u (by simp)
  have hv₁ := hhas' v (by simp)
  have hu₁ := hhas' u (by simp)
  refine (check_iff hg').2 ⟨hhas', ?_⟩
  rw [← h, GraphRule.checkPresent.eq_def, GraphRule.checkPresent.eq_def]
  cases rule with
  | localComplement | identity | gadgetFusion => exact absurd hrule (by decide)
  | pivot =>
    rcases us with - | ⟨b, us⟩
    · dsimp only
      rw [checkPivot_eq hg' hw' hv₁ hu₁, checkPivot_eq hg hw hv₀ hu₀]
      simp only [hpv, hpu, hv.link, hinner, hinner']
    · rfl
  | pivotGadget =>
    rcases us with - | ⟨b, us⟩
    · dsimp only
      rw [checkPivotGadget_eq hg' hw' hv₁ hu₁, checkPivotGadget_eq hg hw hv₀ hu₀]
      simp only [hpv, hpu, hv.link, hinner, hinner']
    · rfl
  | pivotBoundary =>
    rcases us with - | ⟨b, - | ⟨b', us⟩⟩
    · rfl
    · dsimp only
      rw [checkPivotBoundary_eq hg' hw' hv₁ hu₁, checkPivotBoundary_eq hg hw hv₀ hu₀, hends]
      simp only [hpv, hpu, hv.link, hinner, hbound]
    · rfl
  | pivotBoundaryGadget =>
    rcases us with - | ⟨b, - | ⟨b', us⟩⟩
    · rfl
    · dsimp only
      rw [checkPivotBoundaryGadget_eq hg' hw' hv₁ hu₁, checkPivotBoundaryGadget_eq hg hw hv₀ hu₀,
        hends]
      simp only [hpv, hpu, hv.link, hinner, hbound]
    · rfl

end

/-- A pivot at a match that is accepted is no fault, keeps the form and is confined to the place of the
    match, apart from spiders that are new. -/
theorem exists_pivot_apply (hrule : rule ∈ GraphRule.pivots) (hg : g.Coherent) (hw : g.web.Formed)
    (h : rule.check g m = .ok true) : g.web.IsPair m ∧ ∃ g', rule.apply g m = .ok g' ∧ g'.Coherent ∧
      g'.web.Formed ∧ g.web.next ≤ g'.web.next ∧ Confined (g.web.zone m) g.web g'.web := by
  obtain ⟨i, o, hin⟩ := exists_listed hw
  obtain ⟨g', hok, hg', hw', -⟩ := exists_apply hg hw h
  obtain ⟨hm, w, v, u, us, rfl, hready, hconfined, -, hgives⟩ :=
    exists_gives_pivot (coherent_relist.2 hg) hrule hin ((rule.check_relist g m i o).trans h)
  have hval := hin.simple.valid
  have hpivot : Confined (g.web.zone (v :: u :: us)) (g.relist i o).web (w.pivot v u) := by
    have hu : u ∈ (g.relist i o).web.nearby v := by
      cases hm
      assumption
    exact confined_pivot_of_confined hconfined hval hready.form.simple.valid (.inl left_mem_around)
      (.inl (nearby_left_subset hu)) (fun n hn => .inl (nearby_left_subset hn))
      fun n hn => .inl (nearby_right_subset hn)
  obtain ⟨-, hweb, -⟩ := of_relisted (f := fun g => rule.apply g (v :: u :: us))
    (rule.apply_relist g _ i o) hgives hok
  refine ⟨?_, g', hok, hg', hw', ?_, fun x hx => ?_⟩
  · cases hm
    exact .pair (by assumption) (by assumption)
  · have hnext : (g'.relist i o).web.next = w.next := by
      rw [hweb, Web.pivot, next_remove, next_remove, next_addToPhases, next_joinAll]
    exact hready.frame.next.trans_eq hnext.symm
  · have hx := hpivot x hx
    rw [← hweb] at hx
    exact ⟨hx.kind, hx.phase, hx.carrier, hx.count⟩

/-- A pair of inner spiders that is accepted is next to Z spiders only. -/
theorem exists_pivotable (hg : g.Coherent) (hw : g.web.Formed)
    (h : GraphRule.pivot.check g m = .ok true) : ∃ v u, m = [v, u] ∧ g.web.Pivotable v u := by
  obtain ⟨hhas, h⟩ := (check_iff hg).1 h
  rw [GraphRule.checkPresent.eq_def] at h
  split at h <;> try contradiction
  next v u _ _ =>
  obtain ⟨i, o, hin⟩ := exists_listed hw
  obtain ⟨hv, hu, hj, -, hpu⟩ := of_checkPivot (coherent_relist.2 hg) hin (hhas v (by simp))
    (hhas u (by simp)) h
  obtain ⟨hz, hz', hj, hns, hms⟩ :=
    (hin.readied hu hpu).pivotable hv hj (hg.valid.ne_of_mem_nearby hj)
  exact ⟨v, u, rfl, hz, hz', hj, hns, hms⟩

/-! ### What is listed -/

/-- The matches that a rule lists are accepted, and no two of their places have a spider in common. -/
theorem exists_pairs (hrule : rule ∈ GraphRule.pivots) (hg : g.Coherent) (hw : g.web.Formed) :
    ∃ ms, rule.sites g = .ok ms ∧ (∀ m ∈ ms, rule.check g m = .ok true) ∧
      ms.Pairwise fun a b => (g.web.around a).Disjoint (g.web.around b) := by
  obtain ⟨ms, hms, haccepted, -⟩ := (exact_of_coherent rule).sites g hg
  have hclaims : ∃ rest cs, Scanned (IsPairClaim g rest) Claim.taken g.spiders ms cs := by
    cases rule with
    | localComplement | identity | gadgetFusion => exact absurd hrule (by decide)
    | pivot | pivotGadget | pivotBoundary | pivotBoundaryGadget =>
      exact ⟨_, scanned_pairSites.of_ok hms⟩
  obtain ⟨rest, cs, h⟩ := hclaims
  refine ⟨ms, hms, haccepted, ?_⟩
  have htaken : ∀ c ∈ cs, g.web.around c.found ⊆ c.taken := fun c hc => by
    have hpair := (exists_pivot_apply hrule hg hw (haccepted c.found
      (h.found ▸ List.mem_map_of_mem hc))).1
    obtain ⟨v, u, ns, ms, us, hns, hu, hms, -, rfl⟩ := h.holds c hc
    obtain ⟨hj, -⟩ := hpair
    rw [neighborSet_eq hg (hg.valid.has_of_mem_nearby (hg.valid.mem_nearby_comm.1 hj))] at hns
    rw [neighborSet_eq hg (hg.valid.has_of_mem_nearby hj)] at hms
    rw [← Except.ok.inj hns, ← Except.ok.inj hms]
    exact List.Subset.refl _
  rw [h.found, List.pairwise_map]
  exact h.apart.imp_of_mem fun ha hb hab =>
    List.disjoint_of_subset_left (htaken _ ha) (List.disjoint_of_subset_right (htaken _ hb) hab)

/-! ### A batch -/

/-- A batch under way, some matches of which have been applied: the spiders of the graph it started
    from are as they were, apart from those at the places of these matches. -/
structure PartApplied (g : GraphLike) (done : List Match) (p : Rule.Progress GraphLike) : Prop where
  coherent : p.diagram.Coherent
  formed : p.diagram.web.Formed
  count : p.count = done.length
  touched : ∀ x ∈ p.touched, ∃ m ∈ done, x ∈ g.web.around m
  next : g.web.next ≤ p.diagram.web.next
  confined : Confined {x | (∃ m ∈ done, x ∈ g.web.around m) ∨ g.web.next ≤ x} g.web p.diagram.web

namespace PartApplied

variable {p : Rule.Progress GraphLike}

theorem start (hg : g.Coherent) (hw : g.web.Formed) : PartApplied g [] ⟨g, [], 0⟩ :=
  ⟨hg, hw, rfl, fun _ hx => absurd hx List.not_mem_nil, le_rfl, .refl _ _⟩

variable (h : PartApplied g done p) (hg : g.Coherent) (hw : g.web.Formed)
  (hrule : rule ∈ GraphRule.pivots) (hcheck : rule.check g m = .ok true)
  (hfree : ∀ m' ∈ done, (g.web.around m').Disjoint (g.web.around m))
include h hg hw hrule hcheck hfree

/-- The place of a match that is left is as it was. -/
theorem sameAt : ∀ x ∈ g.web.around m, SameAt g.web p.diagram.web x := fun x hx => by
  have hpair := (exists_pivot_apply hrule hg hw hcheck).1
  refine h.confined x ?_
  rintro (⟨m', hm', hx'⟩ | hnew)
  · exact hfree m' hm' hx' hx
  · exact absurd (hg.valid.lt x (hpair.has hg.valid hx)) (Nat.not_lt.2 hnew)

/-- A match that is left has not gone stale. -/
theorem check : rule.check p.diagram m = .ok true :=
  check_congr hg hrule hw.simple h.coherent h.formed.simple
    (exists_pivot_apply hrule hg hw hcheck).1 (h.sameAt hg hw hrule hcheck hfree) hcheck

/-- A match that is left is applied. -/
theorem exists_step : ∃ p', Rule.step rule p m = .ok p' ∧ PartApplied g (done ++ [m]) p' ∧
    rule.apply p.diagram m = .ok p'.diagram := by
  have hpair := (exists_pivot_apply hrule hg hw hcheck).1
  have hsame := h.sameAt hg hw hrule hcheck hfree
  have haround := around_congr hg.valid h.coherent.valid hpair hsame
  have hok := h.check hg hw hrule hcheck hfree
  obtain ⟨-, g', happly, hg', hw', hnext, hconfined⟩ :=
    exists_pivot_apply hrule h.coherent h.formed hok
  have huntouched : ¬(m.any (· ∈ p.touched)) = true := fun hany => by
    obtain ⟨x, hx, htouched⟩ := List.any_eq_true.1 hany
    obtain ⟨m', hm', hx'⟩ := h.touched x (of_decide_eq_true htouched)
    exact hfree m' hm' hx' (hpair.subset_around hx)
  refine ⟨⟨g', m ++ p.touched, p.count + 1⟩, ?_, ⟨hg', hw', ?_, fun x hx => ?_, h.next.trans hnext,
    (h.confined.mono ?_).trans (hconfined.mono ?_)⟩, happly⟩
  · rw [Rule.step, if_neg huntouched]
    change (rule.check p.diagram m >>= fun b => if b = true then
      rule.apply p.diagram m >>= fun d => _ else _) = _
    rw [hok, happly]
    rfl
  · simp [h.count]
  · rcases List.mem_append.1 hx with hx | hx
    · exact ⟨m, by simp, hpair.subset_around hx⟩
    · obtain ⟨m', hm', hx⟩ := h.touched x hx
      exact ⟨m', List.mem_append_left _ hm', hx⟩
  · intro x hx
    rcases hx with ⟨m', hm', hx⟩ | hx
    · exact .inl ⟨m', List.mem_append_left _ hm', hx⟩
    · exact .inr hx
  · rintro x (hx | hx)
    · exact .inl ⟨m, by simp, haround ▸ hx⟩
    · exact .inr (h.next.trans hx)

end PartApplied

/-- The matches of a batch can be applied one after the other. -/
theorem exists_batch (hg : g.Coherent) (hw : g.web.Formed) (hrule : rule ∈ GraphRule.pivots)
    (hcheck : ∀ m ∈ ms, rule.check g m = .ok true)
    (happart : ms.Pairwise fun a b => (g.web.around a).Disjoint (g.web.around b)) :
    ∃ p, ms.foldlM (Rule.step rule) ⟨g, [], 0⟩ = .ok p ∧ PartApplied g ms p := by
  refine exists_foldlM (f := Rule.step rule) (PartApplied g) ms (.start hg hw)
    fun done m rest p hl h => ?_
  rw [hl] at hcheck happart
  obtain ⟨p', hp', h', -⟩ := h.exists_step hg hw hrule (hcheck m (by simp)) fun m' hm' =>
    (List.pairwise_append.1 happart).2.2 m' hm' m List.mem_cons_self
  exact ⟨p', hp', h'⟩

/-! ### Pairs of inner spiders -/

/-- A graph in which the given pairs of spiders were pivoted: each place looks as if that had been the
    only pivot, and the rest as it was. -/
structure Pivoted (g : GraphLike) (done : List Match) (g' : GraphLike) : Prop where
  next : g'.web.next = g.web.next
  inputs : g'.web.inputs = g.web.inputs
  outputs : g'.web.outputs = g.web.outputs
  inside : ∀ m ∈ done, ∀ x ∈ g.web.around m, SameAt (g.web.pivotAt m) g'.web x
  outside : Confined {x | ∃ m ∈ done, x ∈ g.web.around m} g.web g'.web

namespace Pivoted

theorem start (g : GraphLike) : Pivoted g [] g :=
  ⟨rfl, rfl, rfl, fun _ h => absurd h List.not_mem_nil, .refl _ _⟩

/-- The order of the pairs does not show. -/
theorem web_eq {g₁ g₂ : GraphLike} {ms₁ ms₂ : List Match} (h₁ : Pivoted g ms₁ g₁)
    (h₂ : Pivoted g ms₂ g₂) (hperm : ms₂.Perm ms₁) : g₂.web = g₁.web := by
  have hsame (x : Vertex) : SameAt g₁.web g₂.web x := by
    by_cases hx : ∃ m ∈ ms₁, x ∈ g.web.around m
    · obtain ⟨m, hm, hx⟩ := hx
      exact (h₁.inside m hm x hx).symm.trans (h₂.inside m (hperm.mem_iff.2 hm) x hx)
    · refine (h₁.outside x hx).symm.trans (h₂.outside x fun hx' => hx ?_)
      obtain ⟨m, hm, hx'⟩ := hx'
      exact ⟨m, hperm.mem_iff.1 hm, hx'⟩
  exact Web.ext (h₂.next.trans h₁.next.symm) (funext fun x => (hsame x).kind)
    (funext fun x => (hsame x).phase)
    (funext fun x => funext fun y => funext fun k => (hsame x).count y k)
    (h₂.inputs.trans h₁.inputs.symm) (h₂.outputs.trans h₁.outputs.symm)
    (funext fun x => (hsame x).carrier)

/-- One more pivot in a batch. -/
theorem step {p p' : Rule.Progress GraphLike} (h : Pivoted g done p.diagram)
    (hpart : PartApplied g done p) (hg : g.Coherent) (hw : g.web.Formed)
    (hcheck : GraphRule.pivot.check g m = .ok true)
    (hfree : ∀ m' ∈ done, (g.web.around m').Disjoint (g.web.around m))
    (happly : GraphRule.pivot.apply p.diagram m = .ok p'.diagram) :
    Pivoted g (done ++ [m]) p'.diagram := by
  have hrule : GraphRule.pivot ∈ GraphRule.pivots := by decide
  have hsame := hpart.sameAt hg hw hrule hcheck hfree
  have hok := hpart.check hg hw hrule hcheck hfree
  obtain ⟨v, u, rfl, hpivotable⟩ := exists_pivotable hpart.coherent hpart.formed hok
  have hvalid := hpart.coherent.valid
  have haround := around_congr hg.valid hvalid (exists_pivot_apply hrule hg hw hcheck).1 hsame
  obtain ⟨g', hok', -, hweb, -⟩ := Gives.pivot hpart.coherent hpart.formed.simple hpivotable
  obtain rfl : g' = p'.diagram := Except.ok.inj (hok'.symm.trans happly)
  -- the ends and the next spider are kept, and what is elsewhere
  have hkept := (Within.joinAll (q := p.diagram.web.phase u) hpivotable.left_nearby
    hpivotable.partners).trans (Within.addToPhases _ (p.diagram.web.nearby u) (p.diagram.web.phase v))
  have hconfined : Confined {x | x ∈ g.web.around [v, u]} p.diagram.web
      p'.diagram.web := by
    rw [hweb, ← haround]
    exact confined_pivot hvalid left_mem_around (nearby_left_subset hpivotable.joined)
      (fun n hn => nearby_left_subset hn) fun n hn => nearby_right_subset hn
  refine ⟨?_, ?_, ?_, fun m' hm' x hx => ?_, (h.outside.mono ?_).trans (hconfined.mono ?_)⟩
  · rw [hweb, ← h.next]
    exact hkept.next
  · rw [hweb, ← h.inputs]
    exact hkept.inputs
  · rw [hweb, ← h.outputs]
    exact hkept.outputs
  · rcases List.mem_append.1 hm' with hm' | hm'
    · exact (h.inside m' hm' x hx).trans (hconfined x (hfree m' hm' hx))
    · obtain rfl := List.mem_singleton.1 hm'
      have hv := (hsame v left_mem_around).nearby hg.valid hvalid
      have hu := (hsame u (nearby_left_subset (hv ▸ hpivotable.joined))).nearby hg.valid hvalid
      rw [hweb]
      exact pivot_congr hg.valid hvalid hsame left_mem_around
        (nearby_left_subset (hv ▸ hpivotable.joined)) (fun n hn => nearby_left_subset hn)
        (fun n hn => nearby_right_subset hn) x hx
  · exact fun x ⟨m', hm', hx⟩ => ⟨m', List.mem_append_left _ hm', hx⟩
  · exact fun x hx => ⟨_, by simp, hx⟩

end Pivoted

/-- A batch of pairs of inner spiders. -/
theorem exists_pivoted (hg : g.Coherent) (hw : g.web.Formed)
    (hcheck : ∀ m ∈ ms, GraphRule.pivot.check g m = .ok true)
    (happart : ms.Pairwise fun a b => (g.web.around a).Disjoint (g.web.around b)) :
    ∃ p, ms.foldlM (Rule.step GraphRule.pivot) ⟨g, [], 0⟩ = .ok p ∧ Pivoted g ms p.diagram := by
  obtain ⟨p, hp, h⟩ := exists_foldlM (f := Rule.step GraphRule.pivot)
    (fun done p => PartApplied g done p ∧ Pivoted g done p.diagram) ms ⟨.start hg hw, .start g⟩
    fun done m rest p hl hinv => by
      obtain ⟨hpart, h⟩ := hinv
      rw [hl] at hcheck happart
      have hm := hcheck m (by simp)
      have hfree := fun m' hm' =>
        (List.pairwise_append.1 happart).2.2 m' hm' m List.mem_cons_self
      obtain ⟨p', hp', hpart', happly⟩ := hpart.exists_step hg hw (by decide) hm hfree
      exact ⟨p', hp', hpart', h.step hpart hg hw hm hfree happly⟩
  exact ⟨p, hp, h.2⟩

/-- A batch of matches no two of which get in each other's way. -/
structure Independent (rule : GraphRule) (g : GraphLike) (ms : List Match) : Prop where
  /-- Whichever of the matches have been applied, in whichever order, all of those left are still
      accepted. -/
  fresh : ∀ done rest, (done ++ rest).Perm ms →
    ∃ g', Rule.rewrite rule g done = .ok (done.length, g') ∧
      ∀ m ∈ rest, Rule.check rule g' m = .ok true
  /-- For pairs of inner spiders, the diagram that comes out is the same for each order. -/
  confluent : rule = .pivot → ∃ w : Web, ∀ ms', ms'.Perm ms →
    ∃ g', Rule.rewrite rule g ms' = .ok (ms.length, g') ∧ g'.web = w

/-- On a graph-like diagram, the matches that a rule for pivoting lists are independent of each other,
    and a round applies all of them. -/
theorem pivots_independent (hg : g.Coherent) (hw : g.web.Formed) (hrule : rule ∈ GraphRule.pivots) :
    ∃ ms, Rule.sites rule g = .ok ms ∧ Independent rule g ms ∧
      ∃ g', Rule.replace rule g = .ok (ms.length, g') := by
  obtain ⟨ms, hms, hcheck, happart⟩ := exists_pairs hrule hg hw
  have happart' {l : List Match} (h : l.Perm ms) :
      l.Pairwise fun a b => (g.web.around a).Disjoint (g.web.around b) :=
    happart.perm h.symm List.Disjoint.symm
  have hcheck' {l : List Match} (h : l.Perm ms) : ∀ m ∈ l, rule.check g m = .ok true :=
    fun m hm => hcheck m (h.mem_iff.1 hm)
  have hrewrite {l : List Match} {p : Rule.Progress GraphLike}
      (hp : l.foldlM (Rule.step rule) ⟨g, [], 0⟩ = .ok p) (hpart : PartApplied g l p) :
      Rule.rewrite rule g l = .ok (l.length, p.diagram) := by
    rw [Rule.rewrite, hp, ← hpart.count]
    rfl
  refine ⟨ms, hms, ⟨fun done rest hperm => ?_, ?_⟩, ?_⟩
  · have hsplit := List.pairwise_append.1 (happart' hperm)
    have hcheck := List.forall_mem_append.1 (hcheck' hperm)
    obtain ⟨p, hp, h⟩ := exists_batch hg hw hrule hcheck.1 hsplit.1
    exact ⟨p.diagram, hrewrite hp h, fun m hm => h.check hg hw hrule (hcheck.2 m hm)
      fun m' hm' => hsplit.2.2 m' hm' m hm⟩
  · rintro rfl
    obtain ⟨p₀, -, h₀⟩ := exists_pivoted hg hw hcheck happart
    refine ⟨p₀.diagram.web, fun ms' hperm => ?_⟩
    obtain ⟨p, hp, h⟩ := exists_pivoted hg hw (hcheck' hperm) (happart' hperm)
    obtain ⟨p', hp', hpart⟩ := exists_batch hg hw hrule (hcheck' hperm) (happart' hperm)
    obtain rfl : p' = p := Except.ok.inj (hp'.symm.trans hp)
    exact ⟨p'.diagram, hperm.length_eq ▸ hrewrite hp hpart, h₀.web_eq h hperm⟩
  · obtain ⟨p, hp, h⟩ := exists_batch hg hw hrule hcheck happart
    refine ⟨p.diagram, ?_⟩
    rw [Rule.replace, show Rule.sites rule g = .ok ms from hms]
    exact hrewrite hp h

/-- Eight spiders in a ring, two of which are next to the ends of a wire. -/
def ring : GraphLike where
  graph := ⟨#[some [⟨1, .hadamard, 1⟩, ⟨7, .hadamard, 1⟩], some [⟨0, .hadamard, 1⟩, ⟨2, .hadamard, 1⟩],
    some [⟨1, .hadamard, 1⟩, ⟨3, .hadamard, 1⟩, ⟨8, .plain, 1⟩],
    some [⟨2, .hadamard, 1⟩, ⟨4, .hadamard, 1⟩], some [⟨3, .hadamard, 1⟩, ⟨5, .hadamard, 1⟩],
    some [⟨4, .hadamard, 1⟩, ⟨6, .hadamard, 1⟩],
    some [⟨5, .hadamard, 1⟩, ⟨7, .hadamard, 1⟩, ⟨9, .plain, 1⟩],
    some [⟨6, .hadamard, 1⟩, ⟨0, .hadamard, 1⟩], some [⟨2, .plain, 1⟩], some [⟨6, .plain, 1⟩]], 10, 10⟩
  kinds := .ofList ((8, .input) :: (9, .output) :: (List.range 8).map fun v => (v, .z)) compare
  phases := .ofList [(0, .pi), (5, .pi)] compare
  layout := .new 1
  inputs := [8]
  outputs := [9]
  carriers := ∅
  master := .blank 1

theorem ring_inForm : ring.Coherent ∧ ring.web.InForm := by decide +kernel

theorem ring_pivots_independent : ring.Coherent ∧ ring.web.Formed ∧
    GraphRule.pivot ∈ GraphRule.pivots ∧ Rule.sites GraphRule.pivot ring = .ok [[0, 1], [4, 5]] ∧
    Independent .pivot ring [[0, 1], [4, 5]] ∧
      ∃ g', Rule.replace GraphRule.pivot ring = .ok (2, g') := by
  have hsites : Rule.sites GraphRule.pivot ring = .ok [[0, 1], [4, 5]] := by cbv
  have hrule : GraphRule.pivot ∈ GraphRule.pivots := by decide
  obtain ⟨ms, hms, h⟩ := pivots_independent ring_inForm.1 ring_inForm.2.formed hrule
  obtain rfl : ms = [[0, 1], [4, 5]] := Except.ok.inj (hms.symm.trans hsites)
  exact ⟨ring_inForm.1, ring_inForm.2.formed, hrule, hsites, h⟩

end GraphLike

end ZXRewriting
