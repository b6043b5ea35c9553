import ZXRewriting.GraphLike.Rules
import ZXRewriting.Proofs.GraphLike.Gadgets

/-!
# Checking and listing matches

On a simple web the checks of the rules are tests of its spiders and edges, none of which is a fault
(`GraphLike.exists_check`). So each rule lists the places it applies at (`GraphLike.exists_sites`).
-/

namespace ZXRewriting

namespace Web

variable {w : Web} {u v : Vertex}

/-- Whether a Z spider is next to a single end of a wire, and otherwise to Z spiders with further
    edges only. -/
def AtBoundary (w : Web) (v : Vertex) : Prop :=
  w.IsZ v ∧ (w.ends v).length = 1 ∧ ∀ u ∈ w.nearby v, w.IsEnd u ∨ w.IsHub u

instance : DecidablePred w.AtBoundary := fun _ => inferInstanceAs (Decidable (_ ∧ _ ∧ _))

theorem Simple.joins_eq_one (hw : w.Simple) (hu : u ∈ w.nearby v) : w.joins v u = 1 := by
  have hpos := hw.valid.mem_nearby.1 hu
  have hsingle := hw.single v u
  omega

end Web

/-- A scan of spiders at which nothing is a fault. -/
theorem exists_scanFrom {site : List Vertex → Vertex → Except Fault (Option Claim)}
    {vs : List Vertex} (h : ∀ taken, ∀ v ∈ vs, ∃ claim, site taken v = .ok claim)
    (taken : List Vertex) : ∃ ms, scanFrom site taken vs = .ok ms := by
  induction vs generalizing taken with
  | nil => exact ⟨[], rfl⟩
  | cons v rest ih =>
    have hrest := ih fun taken u hu => h taken u (List.mem_cons_of_mem v hu)
    rw [scanFrom]
    split
    · exact hrest taken
    · obtain ⟨claim, hclaim⟩ := h taken v List.mem_cons_self
      rw [hclaim]
      cases claim with
      | none => exact hrest taken
      | some claim =>
        obtain ⟨later, hlater⟩ := hrest (claim.taken ++ taken)
        refine ⟨claim.found :: later, ?_⟩
        change (scanFrom site (claim.taken ++ taken) rest >>= fun later => _) = _
        rw [hlater]
        rfl

namespace GraphLike

variable {g : GraphLike} {c d u v : Vertex}

open Web

section

variable (hg : g.Coherent) (hw : g.web.Simple)
include hg hw

/-! ### Checks -/

theorem isBoundaryAdjacent_eq (hv : g.web.Has v) :
    g.isBoundaryAdjacent v = .ok (decide (g.web.AtBoundary v)) := by
  -- the test of one edge, by whether it leads to an end of a wire
  have hedge {e : Vertex × EdgeKind} (hz : g.web.IsZ v) (he : e ∈ g.web.incident v) :
      (g.isBoundary e.1 <||> (pure (e.2 == .hadamard) <&&> g.isZ e.1 <&&>
        (return (← g.edgeCount v e.1) == 1) <&&> (return 1 < (← g.degree e.1))) :
          Except Fault Bool) = .ok (decide (g.web.IsEnd e.1 ∨ g.web.IsHub e.1)) := by
    obtain ⟨hu, hk⟩ := mem_incident.1 he
    have hhas := hg.valid.has_of_mem_nearby hu
    rw [Diagram.isBoundary_eq hhas, isZ_eq hhas, edgeCount_eq hg hv, degree_eq hg hhas]
    refine (or_eq (b := decide (g.web.IsHub e.1)) fun _ => ?_).trans
      (congrArg Except.ok (by rw [Bool.decide_or]))
    by_cases hzu : g.web.IsZ e.1
    · rw [hw.link_eq hz hzu, if_pos (hw.valid.mem_nearby.1 hu)] at hk
      rw [← Option.some.inj hk, hw.joins_eq_one hu, decide_eq_true hzu]
      change Except.ok (decide (1 < g.web.degree e.1)) = _
      rw [decide_eq_decide.2 (show g.web.IsHub e.1 ↔ 1 < g.web.degree e.1 from and_iff_right hzu)]
    · rw [decide_eq_false hzu, decide_eq_false fun h : g.web.IsHub e.1 => hzu h.1]
      cases e.2 <;> rfl
  have hall (hz : g.web.IsZ v) : (do (← g.incidentEdges v).allM fun e => g.isBoundary e.1 <||>
      (pure (e.2 == .hadamard) <&&> g.isZ e.1 <&&> (return (← g.edgeCount v e.1) == 1) <&&>
        (return 1 < (← g.degree e.1)))) =
      Except.ok (decide (∀ u ∈ g.web.nearby v, g.web.IsEnd u ∨ g.web.IsHub u)) := by
    rw [incidentEdges_eq hg hw.noParallel hv]
    refine (allM_eq fun e he => hedge hz he).trans (congrArg Except.ok ?_)
    rw [Bool.eq_iff_iff, List.all_eq_true, decide_eq_true_iff]
    constructor
    · intro h u hu
      obtain ⟨k, hk⟩ := Option.isSome_iff_exists.1 (link_isSome_iff.2 (hw.valid.mem_nearby.1 hu))
      exact of_decide_eq_true (h (u, k) (mem_incident.2 ⟨hu, hk⟩))
    · intro h e he
      exact decide_eq_true (h e.1 (mem_incident.1 he).1)
  rw [isBoundaryAdjacent, boundaryNeighbors_eq hg hv, isZ_eq hv]
  change (Except.ok _ <&&> _) = _
  refine (and_eq (b := decide ((g.web.ends v).length = 1) &&
    decide (∀ u ∈ g.web.nearby v, g.web.IsEnd u ∨ g.web.IsHub u)) fun hz => ?_).trans
      (congrArg Except.ok ?_)
  · have hz : g.web.IsZ v := of_decide_eq_true hz
    cases hends : g.web.ends v with
    | nil => rfl
    | cons t rest =>
      cases rest with
      | cons _ _ => simp [pure, Except.pure]
      | nil =>
        have ht : t ∈ g.web.nearby v :=
          List.mem_of_mem_filter (show t ∈ g.web.ends v by simp [hends])
        dsimp only
        rw [edgeCount_eq hg hv, hw.joins_eq_one ht]
        exact hall hz
  · rw [← Bool.decide_and, ← Bool.decide_and]
    rfl

theorem checkLocalComplement_eq (hv : g.web.Has v) : g.checkLocalComplement v =
    .ok ((g.phase v).isProperClifford && decide (g.web.IsInner v)) :=
  and_eq fun _ => isInner_eq hg hw hv

section Pairs

variable (hv : g.web.Has v) (hu : g.web.Has u)
include hv hu

theorem checkPivot_eq : g.checkPivot v u =
    .ok (decide (v ≠ u ∧ g.web.link v u = some .hadamard) &&
      (decide ((g.phase v).isPauli ∧ g.web.IsInner v) &&
        decide ((g.phase u).isPauli ∧ g.web.IsInner u))) := by
  rw [checkPivot, hadamardJoined_eq hg hv, isInnerPauli_eq hg hw hv, isInnerPauli_eq hg hw hu]
  exact and_eq fun _ => and_eq fun _ => rfl

theorem checkPivotBoundary_eq : g.checkPivotBoundary v u =
    .ok (decide (v ≠ u ∧ g.web.link v u = some .hadamard) &&
      (decide ((g.phase v).isPauli ∧ g.web.IsInner v) &&
        ((g.phase u).isPauli && decide (g.web.AtBoundary u)))) := by
  rw [checkPivotBoundary, hadamardJoined_eq hg hv, isInnerPauli_eq hg hw hv,
    isBoundaryAdjacent_eq hg hw hu]
  exact and_eq fun _ => and_eq fun _ => and_eq fun _ => rfl

theorem checkPivotGadget_eq : g.checkPivotGadget v u =
    .ok (decide (v ≠ u ∧ g.web.link v u = some .hadamard) &&
      (decide ((g.phase v).isPauli ∧ g.web.IsInner v) &&
        (!(g.phase u).isClifford && decide (g.web.IsInner u)))) := by
  rw [checkPivotGadget, hadamardJoined_eq hg hv, isInnerPauli_eq hg hw hv, isInner_eq hg hw hu]
  exact and_eq fun _ => and_eq fun _ => and_eq fun _ => rfl

theorem checkPivotBoundaryGadget_eq : g.checkPivotBoundaryGadget v u =
    .ok (decide (v ≠ u ∧ g.web.link v u = some .hadamard) &&
      (decide ((g.phase v).isPauli ∧ g.web.IsInner v) &&
        (!(g.phase u).isPauli && decide (g.web.AtBoundary u)))) := by
  rw [checkPivotBoundaryGadget, hadamardJoined_eq hg hv, isInnerPauli_eq hg hw hv,
    isBoundaryAdjacent_eq hg hw hu]
  exact and_eq fun _ => and_eq fun _ => and_eq fun _ => rfl

end Pairs

/-- The test whether all edges of a Z spider are single Hadamard edges to Z spiders. -/
theorem allM_wired_eq (hz : g.web.IsZ v) :
    ((g.web.incident v).allM fun (n, kind) => pure (kind == .hadamard) <&&> g.isZ n <&&>
      (return (← g.edgeCount v n) == 1)) =
      Except.ok (decide (∀ u ∈ g.web.nearby v, g.web.IsZ u)) := by
  refine (allM_eq (p := fun e => decide (g.web.IsZ e.1)) fun e he => ?_).trans
    (congrArg Except.ok ?_)
  · obtain ⟨u, k⟩ := e
    obtain ⟨hu, hk⟩ := mem_incident.1 he
    have hhas := hg.valid.has_of_mem_nearby hu
    dsimp only
    rw [isZ_eq hhas, edgeCount_eq hg hz.has, hw.joins_eq_one hu]
    by_cases hzu : g.web.IsZ u
    · rw [hw.link_eq hz hzu, if_pos (hw.valid.mem_nearby.1 hu)] at hk
      obtain rfl : EdgeKind.hadamard = k := Option.some.inj hk
      rw [decide_eq_true hzu]
      rfl
    · rw [decide_eq_false hzu]
      cases k <;> rfl
  · rw [Bool.eq_iff_iff, List.all_eq_true, decide_eq_true_iff]
    constructor
    · intro h u hu
      obtain ⟨k, hk⟩ := Option.isSome_iff_exists.1 (link_isSome_iff.2 (hw.valid.mem_nearby.1 hu))
      exact of_decide_eq_true (h (u, k) (mem_incident.2 ⟨hu, hk⟩))
    · intro h e he
      exact decide_eq_true (h e.1 (mem_incident.1 he).1)

theorem checkFuseNeighbors_eq (hv : g.web.Has v) : g.checkFuseNeighbors v =
    .ok (decide (g.web.IsZ v) && ((g.phase v).isPauli && (g.web.degree v == 2 &&
      (decide (∀ u ∈ g.web.nearby v, g.web.IsZ u) && (g.web.identityEnds v).isSome)))) := by
  rw [checkFuseNeighbors, isZ_eq hv, degree_eq hg hv, identityEnds_eq hg hv,
    incidentEdges_eq hg hw.noParallel hv]
  refine and_eq fun hz => and_eq fun _ => and_eq fun _ => ?_
  change (List.allM _ _ <&&> _) = _
  rw [allM_wired_eq hg hw (of_decide_eq_true hz)]
  exact and_eq fun _ => rfl

/-- Looking for the leaf of a gadget is no fault. -/
theorem exists_gadgetLeaf? (hc : g.web.Has c) : ∃ r, g.gadgetLeaf? c = .ok r := by
  rw [gadgetLeaf?, isZ_eq hc]
  by_cases hz : g.web.IsZ c
  swap
  · exact ⟨none, by rw [decide_eq_false hz]; rfl⟩
  rw [decide_eq_true hz]
  change ∃ r, (if (!(g.phase c).isPauli) = true then Except.ok none else _) = Except.ok r
  split
  · exact ⟨none, rfl⟩
  rw [incidentEdges_eq hg hw.noParallel hc]
  change ∃ r, (List.allM _ _ >>= fun proper => _) = Except.ok r
  rw [allM_wired_eq hg hw hz]
  by_cases hproper : ∀ u ∈ g.web.nearby c, g.web.IsZ u
  swap
  · exact ⟨none, by rw [decide_eq_false hproper]; rfl⟩
  rw [decide_eq_true hproper]
  change ∃ r, (List.foldlM _ _ _ >>= fun x => _) = Except.ok r
  rw [foldlM_leaves hg hw fun e he => hg.valid.has_of_mem_nearby (mem_incident.1 he).1]
  dsimp only [bind, Except.bind]
  split
  · exact ⟨_, rfl⟩
  · exact ⟨none, rfl⟩

/-- Comparing two gadgets is no fault. -/
theorem exists_checkFuseGadgets (hc : g.web.Has c) (hd : g.web.Has d) :
    ∃ b, g.checkFuseGadgets c d = .ok b := by
  obtain ⟨l, hl⟩ := exists_gadgetLeaf? hg hw hc
  obtain ⟨m, hm⟩ := exists_gadgetLeaf? hg hw hd
  rw [checkFuseGadgets]
  split
  · exact ⟨false, rfl⟩
  rw [hl, hm]
  cases l with
  | none => exact ⟨false, rfl⟩
  | some l =>
    cases m with
    | none => exact ⟨false, rfl⟩
    | some m =>
      change ∃ b, (do return (← g.gadgetSupport c l) == (← g.gadgetSupport d m)) = Except.ok b
      rw [gadgetSupport_eq hg hc, gadgetSupport_eq hg hd]
      exact ⟨_, rfl⟩

/-- Checking a match is no fault. -/
theorem exists_check (rule : GraphRule) (s : Match) : ∃ b, rule.check g s = .ok b := by
  rw [GraphRule.check]
  split
  swap
  · exact ⟨false, rfl⟩
  next hall =>
  have hhas : ∀ x ∈ s, g.web.Has x := fun x hx => (hg.has x).2 (List.all_eq_true.1 hall x hx)
  rw [GraphRule.checkPresent.eq_def]
  split
  case h_1 v => exact ⟨_, checkLocalComplement_eq hg hw (hhas v (by simp))⟩
  case h_2 v u => exact ⟨_, checkPivot_eq hg hw (hhas v (by simp)) (hhas u (by simp))⟩
  case h_3 v u _ =>
    rw [checkPivotBoundary_eq hg hw (hhas v (by simp)) (hhas u (by simp)),
      boundaryNeighbors_eq hg (hhas u (by simp))]
    exact ⟨_, and_eq fun _ => rfl⟩
  case h_4 v u => exact ⟨_, checkPivotGadget_eq hg hw (hhas v (by simp)) (hhas u (by simp))⟩
  case h_5 v u _ =>
    rw [checkPivotBoundaryGadget_eq hg hw (hhas v (by simp)) (hhas u (by simp)),
      boundaryNeighbors_eq hg (hhas u (by simp))]
    exact ⟨_, and_eq fun _ => rfl⟩
  case h_6 v _ _ =>
    rw [checkFuseNeighbors_eq hg hw (hhas v (by simp)), identityEnds_eq hg (hhas v (by simp))]
    exact ⟨_, and_eq fun _ => rfl⟩
  case h_7 c d _ _ =>
    obtain ⟨b, hb⟩ := exists_checkFuseGadgets hg hw (hhas c (by simp)) (hhas d (by simp))
    obtain ⟨l, hl⟩ := exists_gadgetLeaf? hg hw (hhas c (by simp))
    obtain ⟨m, hm⟩ := exists_gadgetLeaf? hg hw (hhas d (by simp))
    rw [hb, hl, hm]
    exact ⟨_, and_eq fun _ => and_eq fun _ => rfl⟩
  case h_8 => exact ⟨false, rfl⟩

/-! ### Listing -/

omit hw in
theorem exists_scan {site : List Vertex → Vertex → Except Fault (Option Claim)}
    (h : ∀ taken v, g.web.Has v → ∃ claim, site taken v = .ok claim) :
    ∃ ms, scan site g.spiders = .ok ms :=
  exists_scanFrom (fun taken v hv =>
    h taken v ((hg.has v).2 (Multigraph.mem_vertices.1 hv))) []

/-- Looking for pairs is no fault if looking at two spiders is none. -/
theorem exists_pairSites {check : Vertex → Vertex → Except Fault Bool}
    {rest : Vertex → Except Fault (List Vertex)}
    (hcheck : ∀ v u, g.web.Has v → g.web.Has u → ∃ b, check v u = .ok b)
    (hrest : ∀ u, g.web.Has u → ∃ vs, rest u = .ok vs) : ∃ ms, g.pairSites check rest = .ok ms := by
  refine exists_scan hg fun taken v hv => ?_
  rw [isInnerPauli_eq hg hw hv, neighborSet_eq hg hv]
  by_cases hinner : (g.phase v).isPauli ∧ g.web.IsInner v
  swap
  · exact ⟨none, by rw [decide_eq_false hinner]; rfl⟩
  rw [decide_eq_true hinner]
  dsimp only [bind, Except.bind]
  rw [if_pos rfl]
  split
  · exact ⟨none, rfl⟩
  have hnear {u : Vertex} (hu : u ∈ g.web.nearby v) : g.web.Has u := hg.valid.has_of_mem_nearby hu
  have htest : ∀ u ∈ g.web.nearby v, check v u = .ok (check v u == .ok true) := fun u hu => by
    obtain ⟨b, hb⟩ := hcheck v u hv (hnear hu)
    rw [hb]
    cases b <;> rfl
  rw [findM?_eq htest]
  cases hfind : (g.web.nearby v).find? fun u => check v u == .ok true with
  | none => exact ⟨none, rfl⟩
  | some u =>
    have hu := hnear (List.mem_of_find?_eq_some hfind)
    obtain ⟨vs, hvs⟩ := hrest u hu
    dsimp only [bind, Except.bind]
    rw [neighborSet_eq hg hu]
    dsimp only
    split
    · exact ⟨none, rfl⟩
    · rw [hvs]
      exact ⟨_, rfl⟩

/-- Listing the places a rule applies at is no fault. -/
theorem exists_sites (rule : GraphRule) : ∃ ms, rule.sites g = .ok ms := by
  have hnone (u : Vertex) (_ : g.web.Has u) : ∃ vs, (pure [] : Except Fault (List Vertex)) = .ok vs :=
    ⟨[], rfl⟩
  cases rule with
  | localComplement =>
    refine exists_scan hg fun taken v hv => ?_
    rw [checkLocalComplement_eq hg hw hv, neighborSet_eq hg hv]
    cases (g.phase v).isProperClifford && decide (g.web.IsInner v) <;> exact ⟨_, rfl⟩
  | pivot =>
    refine exists_pairSites hg hw (fun v u hv hu => ?_) hnone
    rw [checkPivot_eq hg hw hv hu]
    exact ⟨_, and_eq fun _ => rfl⟩
  | pivotBoundary =>
    exact exists_pairSites hg hw (fun v u hv hu => ⟨_, checkPivotBoundary_eq hg hw hv hu⟩)
      fun u hu => ⟨_, boundaryNeighbors_eq hg hu⟩
  | pivotGadget =>
    exact exists_pairSites hg hw (fun v u hv hu => ⟨_, checkPivotGadget_eq hg hw hv hu⟩) hnone
  | pivotBoundaryGadget =>
    exact exists_pairSites hg hw (fun v u hv hu => ⟨_, checkPivotBoundaryGadget_eq hg hw hv hu⟩)
      fun u hu => ⟨_, boundaryNeighbors_eq hg hu⟩
  | identity =>
    refine exists_scan hg fun taken v hv => ?_
    rw [checkFuseNeighbors_eq hg hw hv, identityEnds_eq hg hv]
    dsimp only [bind, Except.bind]
    split
    · cases g.web.identityEnds v with
      | none => exact ⟨none, rfl⟩
      | some e => exact ⟨_, rfl⟩
    · exact ⟨none, rfl⟩
  | gadgetFusion =>
    have hgadgets : Meets g.gadgets (fun _ => True) fun _ => False := by
      rw [gadgets]
      refine (Meets.mapM (P := fun _ _ => True) fun c hc => ?_).bind fun found _ => trivial
      have hc : g.web.Has c := (hg.has c).2 (Multigraph.mem_vertices.1 hc)
      obtain ⟨leaf, hleaf⟩ := exists_gadgetLeaf? hg hw hc
      rw [hleaf]
      cases leaf with
      | none => trivial
      | some leaf =>
        dsimp only [bind, Except.bind]
        rw [gadgetSupport_eq hg hc]
        trivial
    obtain ⟨found, hfound, -⟩ := Meets.false_iff.1 hgadgets
    exact ⟨pairUp (found.mergeSort Gadget.before), congrArg (· >>= _) hfound⟩

end

end GraphLike

end ZXRewriting
