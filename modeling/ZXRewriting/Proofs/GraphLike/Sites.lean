import ZXRewriting.Proofs.Diagram.Sites
import ZXRewriting.Proofs.GraphLike.Decide
import ZXRewriting.Proofs.GraphLike.Matches

/-!
# What the rules for graph-like diagrams list

On any coherent graph, what a rule lists is accepted, and where it lists nothing, nothing is accepted.
With the six rules for diagrams in circuit form, that makes the listings of all rules faithful, so that
simplification stops exactly where no match is accepted (`faithful`).

Gadgets are paired after sorting them by support: gadgets with the same support come next to each other
(`pairUp_ne_nil`), so that a pair is found as soon as there are two.
-/

namespace ZXRewriting

namespace GraphLike

variable {g : GraphLike} {c d l m u v : Vertex} {accepted : Match → Prop} {gs : List Gadget}

open Web
open Diagram (Lists lists_scan attains_findM?)

/-! ### Sorting gadgets -/

theorem Gadget.before_iff {a b : Gadget} : a.before b = true ↔
    compare a.support b.support = .lt ∨ a.support = b.support ∧
      (a.centre < b.centre ∨ a.centre = b.centre ∧ a.leaf ≤ b.leaf) := by
  simp [Gadget.before]

theorem Gadget.before_trans (a b c : Gadget) (hab : a.before b = true) (hbc : b.before c = true) :
    a.before c = true := by
  rw [before_iff] at *
  rcases hab with hab | ⟨hab, hab'⟩
  · rcases hbc with hbc | ⟨hbc, -⟩
    · exact .inl (Std.TransCmp.lt_trans hab hbc)
    · exact .inl (hbc ▸ hab)
  · rcases hbc with hbc | ⟨hbc, hbc'⟩
    · exact .inl (hab ▸ hbc)
    · exact .inr ⟨hab.trans hbc, by grind⟩

theorem Gadget.before_total (a b : Gadget) : (a.before b || b.before a) = true := by
  rw [Bool.or_eq_true, before_iff, before_iff]
  cases h : compare a.support b.support with
  | lt => exact .inl (.inl rfl)
  | gt => exact .inr (.inl (Std.OrientedCmp.gt_iff_lt.1 h))
  | eq =>
    have heq := Std.compare_eq_iff_eq.1 h
    simp only [heq, true_and, Std.ReflCmp.compare_self, reduceCtorEq, false_or]
    grind

/-- The pairs consist of gadgets of the list with the same support, the first before the second. -/
theorem of_mem_pairUp {found : Match} (h : found ∈ pairUp gs) : ∃ a b, [a, b].Sublist gs ∧
    a.support = b.support ∧ found = [a.centre, b.centre, a.leaf, b.leaf] := by
  fun_induction pairUp gs with
  | case1 a b rest heq ih =>
    rcases List.mem_cons.1 h with rfl | h
    · exact ⟨a, b, ((List.nil_sublist rest).cons_cons b).cons_cons a, heq, rfl⟩
    · obtain ⟨a', b', hsub, hrest⟩ := ih h
      exact ⟨a', b', (hsub.cons b).cons a, hrest⟩
  | case2 a b rest hne ih =>
    obtain ⟨a', b', hsub, hrest⟩ := ih h
    exact ⟨a', b', hsub.cons a, hrest⟩
  | case3 gs _ => exact absurd h List.not_mem_nil

/-- In a sorted list without a pair, the supports are in strictly ascending order. -/
theorem pairwise_of_pairUp (hsorted : gs.Pairwise fun a b => a.before b = true)
    (h : pairUp gs = []) : gs.Pairwise fun a b => compare a.support b.support = .lt := by
  fun_induction pairUp gs with
  | case1 a b rest heq ih => cases h
  | case2 a b rest hne ih =>
    obtain ⟨ha, hrest⟩ := List.pairwise_cons.1 hsorted
    have ih := ih hrest h
    have hab : compare a.support b.support = .lt :=
      (Gadget.before_iff.1 (ha b List.mem_cons_self)).resolve_right fun he => hne he.1
    refine .cons (fun x hx => ?_) ih
    rcases List.mem_cons.1 hx with rfl | hx
    · exact hab
    · exact Std.TransCmp.lt_trans hab (List.rel_of_pairwise_cons ih hx)
  | case3 gs hshort =>
    rcases gs with _ | ⟨a, _ | ⟨b, rest⟩⟩
    · exact .nil
    · exact List.pairwise_singleton _ _
    · exact absurd rfl (hshort a b rest)

/-- Two gadgets with the same support are next to others after sorting. -/
theorem pairUp_ne_nil {a b : Gadget} (ha : a ∈ gs) (hb : b ∈ gs) (hne : a ≠ b)
    (hsupport : a.support = b.support) : pairUp (gs.mergeSort Gadget.before) ≠ [] := by
  intro h
  have hsorted := pairwise_of_pairUp
    (List.pairwise_mergeSort Gadget.before_trans Gadget.before_total gs) h
  have hdistinct : (gs.mergeSort Gadget.before).Pairwise fun a b => a.support ≠ b.support :=
    hsorted.imp fun hlt he => by
      rw [Std.compare_eq_iff_eq.2 he] at hlt
      cases hlt
  have : Std.Symm fun a b : Gadget => a.support ≠ b.support := ⟨fun _ _ h => h.symm⟩
  exact hdistinct.forall (List.mem_mergeSort.2 ha) (List.mem_mergeSort.2 hb) hne hsupport

/-! ### What is listed -/

section

variable (hg : g.Coherent)
include hg

/-- Looking at an inner spider with phase 0 or pi for a neighbour to go with it. -/
theorem lists_pairSites {check : Vertex → Vertex → Except Fault Bool}
    {rest : Vertex → Except Fault (List Vertex)}
    (hcheck : ∀ v u, g.web.Has v → g.web.Has u → Succeeds (check v u))
    (hrest : ∀ u, g.web.Has u → Succeeds (rest u))
    (hsound : ∀ v u us, g.web.Has v → g.web.Has u → check v u = .ok true → rest u = .ok us →
      accepted (v :: u :: us))
    (hcomplete : ∀ ms, accepted ms → ∃ v u, g.web.Has v ∧ u ∈ g.web.nearby v ∧
      g.isInnerPauli v = .ok true ∧ check v u = .ok true) :
    Lists (g.pairSites check rest) accepted := by
  have hnear {v u : Vertex} (hu : u ∈ g.web.nearby v) : g.web.Has u := hg.valid.has_of_mem_nearby hu
  have hsearch {v : Vertex} (hv : g.web.Has v) : Attains ((g.web.nearby v).findM? (check v)) _ :=
    attains_findM? fun u hu => hcheck v u hv (hnear hu)
  refine lists_scan hg (fun taken v hv => ?_) fun ms hms => ?_
  · have hnone : Attains (.ok none : Except Fault (Option Claim)) fun c =>
        ∀ claim ∈ c, accepted claim.found := .ok fun _ hc => by cases hc
    obtain ⟨b, hb⟩ := succeeds_isInnerPauli hg hv
    rw [hb, neighborSet_eq hg hv]
    cases b with
    | false => exact hnone
    | true =>
    change Attains (if _ then _ else _) _
    split
    · exact hnone
    refine (hsearch hv).bind fun r hinv => ?_
    obtain ⟨hfound, _⟩ := hinv
    cases r with
    | none => exact hnone
    | some u =>
    obtain ⟨hu, hpass⟩ := hfound u rfl
    obtain ⟨us, hus⟩ := hrest u (hnear hu)
    dsimp only
    rw [neighborSet_eq hg (hnear hu)]
    change Attains (if _ then _ else _) _
    split
    · exact hnone
    · rw [hus]
      refine .ok fun claim hc => ?_
      obtain rfl := Option.some.inj hc
      exact hsound v u us hv (hnear hu) hpass hus
  · -- a match that is accepted has its first spider pass the check with some neighbour, so the
    -- search from there does not come back empty-handed
    obtain ⟨v, u, hv, hu, hinner, hpass⟩ := hcomplete ms hms
    obtain ⟨r, hr, hfound, hnone⟩ := hsearch hv
    refine ⟨v, hv, ?_⟩
    cases r with
    | none => exact absurd hpass (hnone rfl u hu)
    | some x =>
    obtain ⟨hx, -⟩ := hfound x rfl
    obtain ⟨us, hus⟩ := hrest x (hnear hx)
    rw [hinner, neighborSet_eq hg hv]
    change (if (g.web.nearby v).any (· ∈ []) = true then _ else _) ≠ _
    rw [if_neg (by simp), hr]
    change (g.neighborSet x >>= _) ≠ _
    rw [neighborSet_eq hg (hnear hx)]
    change (if (g.web.nearby x).any (· ∈ []) = true then _ else _) ≠ _
    rw [if_neg (by simp), hus]
    intro he
    cases he

theorem lists_localComplementSites :
    Lists g.localComplementSites fun ms => GraphRule.localComplement.check g ms = .ok true := by
  have htotal {v : Vertex} (hv : g.web.Has v) : Succeeds (g.checkLocalComplement v) :=
    (Succeeds.ok _).and fun _ => succeeds_isInner hg hv
  refine lists_scan hg (fun taken v hv => ?_) fun ms hms => ?_
  · obtain ⟨b, hb⟩ := htotal hv
    rw [hb, neighborSet_eq hg hv]
    cases b with
    | false => exact .ok fun claim hc => by cases hc
    | true =>
      refine .ok fun claim hc => ?_
      obtain rfl := Option.some.inj hc
      rw [check_iff hg]
      exact ⟨by simpa using hv, hb⟩
  · rw [check_iff hg, GraphRule.checkPresent.eq_def] at hms
    obtain ⟨hhas, hms⟩ := hms
    split at hms <;> try contradiction
    next v _ =>
    refine ⟨v, hhas v (by simp), ?_⟩
    rw [hms, neighborSet_eq hg (hhas v (by simp))]
    intro he
    cases he

theorem lists_pivotSites :
    Lists g.pivotSites fun ms => GraphRule.pivot.check g ms = .ok true := by
  refine lists_pairSites hg (fun v u hv hu => ?_) (fun u _ => .ok _) (fun v u us hv hu h hus => ?_)
    fun ms hms => ?_
  · exact (Succeeds.ok _).and fun _ => succeeds_checkPivot hg hv hu
  · obtain rfl := Except.ok.inj hus
    rw [check_iff hg]
    exact ⟨by simp [hv, hu], (and_eq_true_iff.1 h).2⟩
  · rw [check_iff hg, GraphRule.checkPresent.eq_def] at hms
    obtain ⟨hhas, hms⟩ := hms
    split at hms <;> try contradiction
    next v u _ =>
    have hv := hhas v (by simp)
    have hu := hhas u (by simp)
    rw [checkPivot, and_eq_true_iff, and_eq_true_iff] at hms
    obtain ⟨hj, hpv, hpu⟩ := hms
    -- the older one of the two comes first
    obtain ⟨a, b, ha, hb, hlt, ⟨-, hpa⟩, ⟨-, hpb⟩, hab⟩ := Diagram.exists_older hg
      (P := fun a b => (g.web.Has a ∧ g.isInnerPauli a = .ok true) ∧
        (g.web.Has b ∧ g.isInnerPauli b = .ok true) ∧ g.hadamardJoined a b = .ok true)
      (fun a b hp => ⟨hp.2.1, hp.1, hadamardJoined_comm hg hp.1.1 hp.2.1.1 hp.2.2⟩)
      (of_hadamardJoined hg hv hj).2 ⟨⟨hv, hpv⟩, ⟨hu, hpu⟩, hj⟩
    refine ⟨a, b, ha, hb, hpa, and_eq_true_iff.2 ⟨congrArg Except.ok (decide_eq_true hlt), ?_⟩⟩
    rw [checkPivot, and_eq_true_iff, and_eq_true_iff]
    exact ⟨hab, hpa, hpb⟩

/-- A rule for pairs the second one of which is next to the boundary. -/
theorem lists_boundarySites {rule : GraphRule} {check : Vertex → Vertex → Except Fault Bool}
    (hcheck : ∀ v u, g.web.Has v → g.web.Has u → Succeeds (check v u))
    (hinner : ∀ v u, g.web.Has v → check v u = .ok true →
      u ∈ g.web.nearby v ∧ g.isInnerPauli v = .ok true ∧ g.isBoundaryAdjacent u = .ok true)
    (hpresent : ∀ ms, rule.checkPresent g ms = .ok true ↔ ∃ v u b, ms = [v, u, b] ∧
      (check v u <&&> (return (← g.boundaryNeighbors u) == [b])) = .ok true) :
    Lists (g.pairSites check g.boundaryNeighbors) fun ms => rule.check g ms = .ok true := by
  refine lists_pairSites hg hcheck (fun u hu => ⟨_, boundaryNeighbors_eq hg hu⟩)
    (fun v u us hv hu h hus => ?_) fun ms hms => ?_
  · obtain ⟨-, -, hadj⟩ := hinner v u hv h
    obtain ⟨hz, b, hb⟩ := of_isBoundaryAdjacent hg hu hadj
    rw [boundaryNeighbors_eq hg hu, hb] at hus
    obtain rfl := Except.ok.inj hus
    rw [check_iff hg, hpresent]
    refine ⟨fun x hx => ?_, v, u, b, rfl, and_eq_true_iff.2 ⟨h, ?_⟩⟩
    swap
    · rw [boundaryNeighbors_eq hg hu, hb]
      exact congrArg Except.ok (beq_self_eq_true [b])
    have hmem : b ∈ g.web.ends u := hb ▸ List.mem_singleton_self b
    have hbhas := hg.valid.has_of_mem_nearby (List.mem_filter.1 hmem).1
    simp only [List.mem_cons, List.not_mem_nil, or_false] at hx
    rcases hx with rfl | rfl | rfl <;> assumption
  · rw [check_iff hg, hpresent] at hms
    obtain ⟨hhas, v, u, b, rfl, h⟩ := hms
    have h := (and_eq_true_iff.1 h).1
    have hv := hhas v (by simp)
    obtain ⟨hu, hp, -⟩ := hinner v u hv h
    exact ⟨v, u, hv, hu, hp, h⟩

theorem lists_pivotGadgetSites :
    Lists g.pivotGadgetSites fun ms => GraphRule.pivotGadget.check g ms = .ok true := by
  refine lists_pairSites hg (fun v u hv hu => succeeds_checkPivotGadget hg hv hu) (fun u _ => .ok _)
    (fun v u us hv hu h hus => ?_) fun ms hms => ?_
  · obtain rfl := Except.ok.inj hus
    rw [check_iff hg]
    exact ⟨by simp [hv, hu], h⟩
  · rw [check_iff hg, GraphRule.checkPresent.eq_def] at hms
    obtain ⟨hhas, hms⟩ := hms
    split at hms <;> try contradiction
    next v u _ =>
    have hv := hhas v (by simp)
    obtain ⟨hj, hrest⟩ := and_eq_true_iff.1 hms
    exact ⟨v, u, hv, (of_hadamardJoined hg hv hj).2, (and_eq_true_iff.1 hrest).1, hms⟩

theorem lists_fuseNeighborsSites :
    Lists g.fuseNeighborsSites fun ms => GraphRule.identity.check g ms = .ok true := by
  refine lists_scan hg (fun taken v hv => ?_) fun ms hms => ?_
  · obtain ⟨b, hb⟩ := succeeds_checkFuseNeighbors hg hv
    rw [hb, identityEnds_eq hg hv]
    cases b with
    | false => exact .ok fun claim hc => by cases hc
    | true =>
    cases hends : g.web.identityEnds v with
    | none => exact .ok fun claim hc => by cases hc
    | some e =>
    obtain ⟨keep, gone⟩ := e
    refine .ok fun claim hc => ?_
    split at hc
    · cases hc
    obtain rfl := Option.some.inj hc
    rw [check_iff hg]
    refine ⟨fun x hx => ?_, and_eq_true_iff.2 ⟨hb, ?_⟩⟩
    · obtain ⟨hnear, -⟩ := nearby_of_identityEnds hends
      have hmem {u : Vertex} (hu : u = keep ∨ u = gone) : g.web.Has u :=
        hg.valid.has_of_mem_nearby (show u ∈ g.web.nearby v by
          rcases hnear with he | he <;> rcases hu with rfl | rfl <;> simp [he])
      simp only [List.mem_cons, List.not_mem_nil, or_false] at hx
      exact hx.elim (fun h => h ▸ hv) hmem
    · rw [identityEnds_eq hg hv, hends]
      exact congrArg Except.ok (beq_self_eq_true _)
  · rw [check_iff hg, GraphRule.checkPresent.eq_def] at hms
    obtain ⟨hhas, hms⟩ := hms
    split at hms <;> try contradiction
    next v keep gone _ =>
    have hv := hhas v (by simp)
    obtain ⟨hcheck, hends⟩ := and_eq_true_iff.1 hms
    rw [identityEnds_eq hg hv] at hends
    have hends : g.web.identityEnds v = some (keep, gone) := eq_of_beq (Except.ok.inj hends)
    refine ⟨v, hv, ?_⟩
    rw [hcheck, identityEnds_eq hg hv, hends]
    change Except.ok (if keep ∈ [] ∨ gone ∈ [] then none else some _) ≠ _
    rw [if_neg (by simp)]
    intro he
    cases he

/-! ### Gadgets -/

/-- The gadgets are the centres with a leaf, each once. -/
theorem attains_gadgets : Attains g.gadgets fun gs =>
    (∀ a, a ∈ gs ↔ g.web.Has a.centre ∧ g.gadgetLeaf? a.centre = .ok (some a.leaf) ∧
      g.gadgetSupport a.centre a.leaf = .ok a.support) ∧
    gs.Pairwise fun a b => a.centre ≠ b.centre := by
  rw [gadgets]
  refine Attains.bind (Attains.mapM (R := fun c r => ∀ a : Gadget, r = some a ↔ a.centre = c ∧
    g.gadgetLeaf? c = .ok (some a.leaf) ∧ g.gadgetSupport c a.leaf = .ok a.support)
    fun c hc => ?_) ?_
  · -- what is found at one centre
    have hc := (Diagram.mem_spiders hg).1 hc
    obtain ⟨leaf, hleaf, -⟩ := attains_gadgetLeaf? hg hc
    rw [hleaf]
    cases leaf with
    | none => exact .ok fun a => by simp
    | some l =>
      dsimp only [bind, Except.bind]
      rw [gadgetSupport_eq hg hc]
      refine .ok fun a => ⟨?_, ?_⟩
      · rintro ⟨⟩
        exact ⟨rfl, rfl, gadgetSupport_eq hg hc⟩
      · rintro ⟨rfl, hl, hs⟩
        obtain rfl := Option.some.inj (Except.ok.inj hl)
        rw [gadgetSupport_eq hg hc] at hs
        rw [Except.ok.inj hs]
  rintro _ ⟨p, rfl, hiff⟩
  refine .ok ⟨fun a => ?_, ?_⟩
  · change a ∈ (g.spiders.map p).filterMap id ↔ _
    rw [List.mem_filterMap, ← Diagram.mem_spiders hg]
    simp only [List.mem_map, id_eq, exists_eq_right]
    constructor
    · rintro ⟨c, hc, h⟩
      obtain ⟨rfl, h⟩ := (hiff c hc a).1 h
      exact ⟨hc, h⟩
    · rintro ⟨hc, h⟩
      exact ⟨a.centre, hc, (hiff _ hc a).2 ⟨rfl, h⟩⟩
  · change ((g.spiders.map p).filterMap id).Pairwise _
    rw [List.filterMap_map, List.pairwise_filterMap]
    refine Multigraph.pairwise_vertices.imp_of_mem fun {c d} hc hd hlt a ha b hb => ?_
    rw [((hiff c hc a).1 ha).1, ((hiff d hd b).1 hb).1]
    exact Nat.ne_of_lt hlt

theorem lists_fuseGadgetsSites :
    Lists g.fuseGadgetsSites fun ms => GraphRule.gadgetFusion.check g ms = .ok true := by
  obtain ⟨gs, hgs, hmem, hcentres⟩ := attains_gadgets hg
  refine ⟨pairUp (gs.mergeSort Gadget.before), by rw [fuseGadgetsSites, hgs]; rfl, fun ms hms => ?_,
    fun hempty ms hms => ?_⟩
  · obtain ⟨a, b, hsub, hsupport, rfl⟩ := of_mem_pairUp hms
    have hne : a.centre ≠ b.centre := by
      have hsorted := hcentres.perm (List.mergeSort_perm gs Gadget.before).symm fun h => h.symm
      simpa using hsorted.sublist hsub
    obtain ⟨ha, hla, hsa⟩ := (hmem a).1 (List.mem_mergeSort.1 (hsub.subset (by simp)))
    obtain ⟨hb, hlb, hsb⟩ := (hmem b).1 (List.mem_mergeSort.1 (hsub.subset (by simp)))
    have hleaf {c l : Vertex} (hc : g.web.Has c) (h : g.gadgetLeaf? c = .ok (some l)) :
        g.web.Has l := by
      obtain ⟨r, hr, hin⟩ := attains_gadgetLeaf? hg hc
      obtain rfl := Except.ok.inj (hr.symm.trans h)
      exact hg.valid.has_of_mem_nearby (hin l rfl)
    have hcheck : g.checkFuseGadgets a.centre b.centre = .ok true := by
      rw [checkFuseGadgets, if_neg hne, hla, hlb]
      change (do return (← g.gadgetSupport a.centre a.leaf) == (← g.gadgetSupport b.centre b.leaf)) = _
      rw [hsa, hsb, hsupport]
      exact congrArg Except.ok (beq_self_eq_true b.support)
    rw [check_iff hg]
    refine ⟨fun x hx => ?_, and_eq_true_iff.2 ⟨hcheck, and_eq_true_iff.2 ⟨?_, ?_⟩⟩⟩
    · simp only [List.mem_cons, List.not_mem_nil, or_false] at hx
      rcases hx with rfl | rfl | rfl | rfl
      · exact ha
      · exact hb
      · exact hleaf ha hla
      · exact hleaf hb hlb
    · rw [hla]
      exact congrArg Except.ok (beq_self_eq_true (some a.leaf))
    · rw [hlb]
      exact congrArg Except.ok (beq_self_eq_true (some b.leaf))
  · obtain ⟨hhas, hms⟩ := (check_iff hg).1 hms
    rw [GraphRule.checkPresent.eq_def] at hms
    split at hms <;> try contradiction
    next c d _ _ _ _ =>
    obtain ⟨hne, l, m, us, hl, hm, hus, hus'⟩ := of_checkFuseGadgets (and_eq_true_iff.1 hms).1
    exact pairUp_ne_nil ((hmem ⟨us, c, l⟩).2 ⟨hhas c (by simp), hl, hus⟩)
      ((hmem ⟨us, d, m⟩).2 ⟨hhas d (by simp), hm, hus'⟩)
      (fun he => hne (congrArg Gadget.centre he)) rfl hempty

theorem lists_sites (rule : GraphRule) :
    Lists (rule.sites g) fun ms => rule.check g ms = .ok true := by
  cases rule with
  | localComplement => exact lists_localComplementSites hg
  | pivot => exact lists_pivotSites hg
  | pivotBoundary =>
    refine lists_boundarySites hg (fun v u hv hu => succeeds_checkPivotBoundary hg hv hu)
      (fun v u hv h => ?_) fun ms => ?_
    · rw [checkPivotBoundary] at h
      simp only [and_eq_true_iff] at h
      exact ⟨(of_hadamardJoined hg hv h.1).2, h.2.1, h.2.2.2⟩
    · rw [GraphRule.checkPresent.eq_def]
      split <;> simp_all [pure, Except.pure]
  | pivotGadget => exact lists_pivotGadgetSites hg
  | pivotBoundaryGadget =>
    refine lists_boundarySites hg (fun v u hv hu => succeeds_checkPivotBoundaryGadget hg hv hu)
      (fun v u hv h => ?_) fun ms => ?_
    · rw [checkPivotBoundaryGadget] at h
      simp only [and_eq_true_iff] at h
      exact ⟨(of_hadamardJoined hg hv h.1).2, h.2.1, h.2.2.2⟩
    · rw [GraphRule.checkPresent.eq_def]
      split <;> simp_all [pure, Except.pure]
  | identity => exact lists_fuseNeighborsSites hg
  | gadgetFusion => exact lists_fuseGadgetsSites hg

end

/-- Each rule, on coherent graphs. -/
theorem exact_of_coherent (rule : GraphRule) : Rule.Exact rule fun g : GraphLike => g.Coherent where
  check _ ms hg := succeeds_check hg rule ms
  apply _ _ hg h := attains_apply hg h
  sites _ hg := lists_sites hg rule

end GraphLike

/-- What a rule lists agrees with what its check accepts, on every coherent diagram, for the six rules
    for diagrams in circuit form and the seven for graph-like ones. So a batch of listed matches
    rewrites something, and simplification ends where no match is accepted and nothing is left to do. -/
theorem sites_faithful :
    (∀ (rule : DiagramRule) (d : Diagram), d.Coherent → Rule.Faithful rule d) ∧
      ∀ (rule : GraphRule) (g : GraphLike), g.Coherent → Rule.Faithful rule g :=
  ⟨fun rule _ hd => (Diagram.exact_of_coherent rule).faithful hd,
    fun rule _ hg => (GraphLike.exact_of_coherent rule).faithful hg⟩

theorem halfTurn_faithful : Diagram.halfTurn.Coherent ∧ GraphLike.quarterTurn.Coherent ∧
    (∀ rule : DiagramRule, Rule.Faithful rule Diagram.halfTurn) ∧
      ∀ rule : GraphRule, Rule.Faithful rule GraphLike.quarterTurn :=
  have hd : Diagram.halfTurn.Coherent := by decide +kernel
  ⟨hd, GraphLike.quarterTurn_inForm.1, fun rule => sites_faithful.1 rule _ hd,
    fun rule => sites_faithful.2 rule _ GraphLike.quarterTurn_inForm.1⟩

end ZXRewriting
