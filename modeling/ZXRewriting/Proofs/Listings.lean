import Mathlib
import ZXRewriting.Proofs.GraphLike.Sites
import ZXRewriting.Proofs.Rewriting.Scans

/-!
# Listed matches do not overlap

No two matches that a rule lists have a spider in common, and twelve of the thirteen rules list them in
ascending order of their first spiders (`sites_apart`). All of the twelve scan the spiders for matches.
The one for gadgets sorts these by support first: its matches come in the order of the supports, which
need not be that of the centres (`GraphLike.crossedGadgets_not_ascending`).
-/

namespace ZXRewriting

/-! ### Diagrams in circuit form -/

namespace Diagram

variable {d : Diagram} {v : Vertex} {taken : List Vertex}

/-- A pair of a spider that is asked and another one that is not taken. -/
theorem own_pair {u : Vertex} (hv : v ∉ taken) (hu : u ∉ taken) :
    Own taken v (some ⟨[v, u], [v, u]⟩) := by
  rintro claim ⟨⟩
  exact ⟨rfl, List.Subset.refl _, by simp [List.disjoint_cons_left, hv, hu]⟩

theorem own_none : Own taken v none := fun _ h => by cases h

theorem own_pairAbove {check : Vertex → Vertex → Except Fault Bool} (hv : v ∉ taken) :
    Leaves (d.pairAbove check taken v) (Own taken v) := by
  refine .after fun ns _ => .after fun r hr => ?_
  cases r with
  | none => exact own_none
  | some u =>
    have hu := (List.mem_filter.1 (mem_of_findM? hr)).2
    rw [Bool.and_eq_true] at hu
    exact own_pair hv (of_decide_eq_true hu.2)

theorem apart_scan {site : List Vertex → Vertex → Except Fault (Option Claim)}
    (hsite : ∀ taken v, v ∉ taken → Leaves (site taken v) (Own taken v)) :
    Leaves (scan site d.spiders) fun ms => ms.Pairwise List.Disjoint ∧ Ascending ms :=
  leaves_scan_own Multigraph.pairwise_vertices hsite

theorem apart_sitesWhere {check : Vertex → Except Fault Bool} :
    Leaves (d.sitesWhere check) fun ms => ms.Pairwise List.Disjoint ∧ Ascending ms := by
  refine apart_scan fun taken v hv => .after fun b _ => ?_
  cases b with
  | false => exact own_none
  | true =>
    rintro claim ⟨⟩
    exact ⟨rfl, List.Subset.refl _, by simp [hv]⟩

/-- What a rule for diagrams in circuit form lists. -/
theorem apart_sites (rule : DiagramRule) (d : Diagram) :
    Leaves (rule.sites d) fun ms => ms.Pairwise List.Disjoint ∧ Ascending ms := by
  cases rule with
  | fusion =>
    refine apart_scan fun taken v hv => .after fun k _ => ?_
    split
    · exact own_pairAbove hv
    · exact own_none
  | hadamard => exact apart_sitesWhere
  | identity => exact apart_sitesWhere
  | cancel => exact apart_scan fun taken v hv => own_pairAbove hv
  | piCopy =>
    refine apart_scan fun taken v hv => .after fun ns _ => .after fun r hr => ?_
    cases r with
    | none => exact own_none
    | some u =>
      exact own_pair hv (of_decide_eq_true (List.mem_filter.1 (mem_of_findM? hr)).2)
  | colourChange =>
    refine apart_scan fun taken v hv => .after fun b _ => ?_
    cases b with
    | false => exact own_none
    | true =>
      refine .after fun hs _ => ?_
      change Own taken v (if _ then none else _)
      split
      · exact own_none
      next hfree =>
      rintro claim ⟨⟩
      refine ⟨rfl, List.Subset.refl _, List.disjoint_cons_left.2 ⟨hv, fun x hx hx' => hfree ?_⟩⟩
      exact List.any_eq_true.2 ⟨x, hx, decide_eq_true hx'⟩

end Diagram

/-! ### Graph-like diagrams -/

namespace GraphLike

variable {g : GraphLike} {c l v : Vertex} {gs : List Gadget}

open Web
open Diagram (own_none)

/-- What is claimed for a pair of spiders: the two with all of their neighbours. -/
def IsPairClaim (g : GraphLike) (rest : Vertex → Except Fault (List Vertex)) (claim : Claim) : Prop :=
  ∃ v u ns ms us, g.neighborSet v = .ok ns ∧ u ∈ ns ∧ g.neighborSet u = .ok ms ∧ rest u = .ok us ∧
    claim = ⟨v :: u :: us, v :: ns ++ ms⟩

/-- A scan for pairs claims whole neighbourhoods, no two of which have a spider in common. -/
theorem scanned_pairSites {check : Vertex → Vertex → Except Fault Bool}
    {rest : Vertex → Except Fault (List Vertex)} : Leaves (g.pairSites check rest) fun ms =>
      ∃ cs, Scanned (IsPairClaim g rest) Claim.taken g.spiders ms cs := by
  refine leaves_scan fun taken v _ hv => .after fun b _ => ?_
  have hnone : ∀ claim ∈ (none : Option Claim), IsPairClaim g rest claim ∧
      claim.found.head? = some v ∧ claim.taken ⊆ claim.taken ∧ claim.taken.Disjoint taken :=
    fun _ h => by cases h
  cases b with
  | false => exact hnone
  | true =>
    refine .after fun ns hns => ?_
    change Leaves (if _ then _ else _) _
    split
    · exact hnone
    next hfree =>
    refine .after fun r hr => ?_
    cases r with
    | none => exact hnone
    | some u =>
      refine .after fun ms hms => ?_
      change Leaves (if _ then _ else _) _
      split
      · exact hnone
      next hfree' =>
      refine .after fun us hus => ?_
      rintro claim ⟨⟩
      have hdisjoint {xs : List Vertex} (h : ¬xs.any (· ∈ taken) = true) : xs.Disjoint taken :=
        fun x hx hx' => h (List.any_eq_true.2 ⟨x, hx, decide_eq_true hx'⟩)
      exact ⟨⟨v, u, ns, ms, us, hns, mem_of_findM? hr, hms, hus, rfl⟩, rfl, List.Subset.refl _,
        List.disjoint_append_left.2
          ⟨List.disjoint_cons_left.2 ⟨hv, hdisjoint hfree⟩, hdisjoint hfree'⟩⟩

/-- Pairs of spiders, with spiders that are next to the second one. -/
theorem apart_pairSites {check : Vertex → Vertex → Except Fault Bool}
    {rest : Vertex → Except Fault (List Vertex)}
    (hrest : ∀ u us ms, rest u = .ok us → g.neighborSet u = .ok ms → us ⊆ ms) :
    Leaves (g.pairSites check rest) fun ms => ms.Pairwise List.Disjoint ∧ Ascending ms := by
  refine scanned_pairSites.imp fun ms hms => ?_
  obtain ⟨cs, h⟩ := hms
  refine ⟨?_, h.ascending Multigraph.pairwise_vertices⟩
  have hsub : ∀ c ∈ cs, c.found ⊆ c.taken := fun c hc => by
    obtain ⟨v, u, ns, ms, us, -, hu, hms, hus, rfl⟩ := h.holds c hc
    have hus := hrest u us ms hus hms
    intro x hx
    simp only [List.mem_cons] at hx
    rcases hx with rfl | rfl | hx
    · simp
    · simp [hu]
    · simp [hus hx]
  rw [h.found, List.pairwise_map]
  exact h.apart.imp_of_mem fun ha hb hab =>
    List.disjoint_of_subset_left (hsub _ ha) (List.disjoint_of_subset_right (hsub _ hb) hab)

theorem boundaryNeighbors_subset {u : Vertex} {us ms : List Vertex}
    (hus : g.boundaryNeighbors u = .ok us) (hms : g.neighborSet u = .ok ms) : us ⊆ ms := by
  rw [boundaryNeighbors, hms] at hus
  exact subset_of_filterM hus

/-- What a rule for graph-like diagrams lists, unless it looks for gadgets. -/
theorem apart_sites {rule : GraphRule} (hrule : rule ≠ .gadgetFusion) (g : GraphLike) :
    Leaves (rule.sites g) fun ms => ms.Pairwise List.Disjoint ∧ Ascending ms := by
  have hnone (u : Vertex) (us ms : List Vertex) (h : (pure [] : Except Fault (List Vertex)) = .ok us)
      (_ : g.neighborSet u = .ok ms) : us ⊆ ms := by
    rw [← Except.ok.inj h]
    exact List.nil_subset ms
  cases rule with
  | localComplement =>
    refine Diagram.apart_scan fun taken v hv => .after fun b _ => ?_
    cases b with
    | false => exact own_none
    | true =>
      refine .after fun ns _ => ?_
      rintro claim ⟨⟩
      exact ⟨rfl, by simp, by simp [hv]⟩
  | pivot => exact apart_pairSites hnone
  | pivotBoundary => exact apart_pairSites fun u us ms => boundaryNeighbors_subset
  | pivotGadget => exact apart_pairSites hnone
  | pivotBoundaryGadget => exact apart_pairSites fun u us ms => boundaryNeighbors_subset
  | identity =>
    refine Diagram.apart_scan fun taken v hv => .after fun b _ => ?_
    cases b with
    | false => exact own_none
    | true =>
      refine .after fun ends _ => ?_
      cases ends with
      | none => exact own_none
      | some ends =>
        obtain ⟨keep, gone⟩ := ends
        change Own taken v (if _ then none else _)
        split
        · exact own_none
        next hfree =>
        rw [not_or] at hfree
        rintro claim ⟨⟩
        exact ⟨rfl, List.Subset.refl _, by simp [List.disjoint_cons_left, hv, hfree.1, hfree.2]⟩
  | gadgetFusion => exact absurd rfl hrule

/-! ### Gadgets -/

/-- Where no two gadgets have a spider in common, no two pairs have. -/
theorem apart_pairUp (h : gs.Pairwise fun a b => [a.centre, a.leaf].Disjoint [b.centre, b.leaf]) :
    (pairUp gs).Pairwise List.Disjoint := by
  fun_induction pairUp gs with
  | case1 a b rest _ ih =>
    obtain ⟨ha, hrest⟩ := List.pairwise_cons.1 h
    obtain ⟨hb, hrest⟩ := List.pairwise_cons.1 hrest
    refine .cons (fun m hm => ?_) (ih hrest)
    obtain ⟨a', b', hsub, -, rfl⟩ := of_mem_pairUp hm
    have ha' : a' ∈ rest := hsub.subset (by simp)
    have hb' : b' ∈ rest := hsub.subset (by simp)
    have h₁ := ha a' (List.mem_cons_of_mem b ha')
    have h₂ := ha b' (List.mem_cons_of_mem b hb')
    have h₃ := hb a' ha'
    have h₄ := hb b' hb'
    simp only [List.disjoint_cons_left, List.disjoint_nil_left, List.mem_cons, List.not_mem_nil,
      or_false, and_true, not_or] at *
    tauto
  | case2 a b rest _ ih => exact ih (List.pairwise_cons.1 h).2
  | case3 gs _ => exact .nil

section

variable (hg : g.Coherent)
include hg

/-- The leaf of a gadget has a single edge, which leads to the centre, and the centre has another
    neighbour. -/
theorem leaves_gadgetLeaf? (hc : g.web.Has c) : Leaves (g.gadgetLeaf? c) fun r => ∀ l ∈ r,
    l ∈ g.web.nearby c ∧ g.web.degree l = 1 ∧ ∃ x ∈ g.web.nearby c, x ≠ l := by
  have hnone : ∀ l ∈ (none : Option Vertex), l ∈ g.web.nearby c ∧ g.web.degree l = 1 ∧
      ∃ x ∈ g.web.nearby c, x ≠ l := fun _ h => by cases h
  rw [gadgetLeaf?]
  refine .after fun z _ => ?_
  split
  · exact hnone
  split
  · exact hnone
  obtain ⟨es, hes, hin, -⟩ := attains_incidentEdges hg hc
  rw [hes]
  change Leaves (List.allM _ es >>= fun proper => _) _
  refine .after fun proper _ => ?_
  split
  swap
  · exact hnone
  -- the neighbours are told apart by whether they are leaves
  refine Meets.bind (P := fun r : List Vertex × List Vertex =>
    (∀ l ∈ r.1, l ∈ g.web.nearby c ∧ g.isLeaf l = .ok true) ∧
      ∀ x ∈ r.2, x ∈ g.web.nearby c ∧ g.isLeaf x = .ok false) ?_ fun r hr => ?_
  · refine Leaves.foldlM (by simp) ?_
    rintro ⟨n, k⟩ he ⟨leaves, others⟩ ⟨hleaves, hothers⟩
    have hn := hin (n, k) he
    refine .after fun b hb => ?_
    cases b with
    | false => exact ⟨hleaves, List.forall_mem_cons.2 ⟨⟨hn, hb⟩, hothers⟩⟩
    | true => exact ⟨List.forall_mem_cons.2 ⟨⟨hn, hb⟩, hleaves⟩, hothers⟩
  · obtain ⟨leaves, others⟩ := r
    dsimp only
    split
    · next leaf x _ =>
      rintro l ⟨⟩
      obtain ⟨hleaf, hisLeaf⟩ := hr.1 leaf (List.mem_singleton_self leaf)
      obtain ⟨hx, hnot⟩ := hr.2 x List.mem_cons_self
      refine ⟨hleaf, ?_, x, hx, fun he => ?_⟩
      · rw [isLeaf, and_eq_true_iff, and_eq_true_iff, degree_eq hg (hg.valid.has_of_mem_nearby hleaf)]
          at hisLeaf
        exact eq_of_beq (Except.ok.inj hisLeaf.2.1)
      · rw [he, hisLeaf] at hnot
        cases hnot
    · exact hnone

/-- A spider with a single edge has a single neighbour. -/
theorem eq_of_degree_one {x y : Vertex} (h : g.web.degree v = 1) (hx : x ∈ g.web.nearby v)
    (hy : y ∈ g.web.nearby v) : x = y := by
  by_contra hne
  have hsub : ({x, y} : Finset Vertex) ⊆ Finset.range g.web.next := fun z hz => by
    rw [Finset.mem_insert, Finset.mem_singleton] at hz
    rw [Finset.mem_range]
    rcases hz with rfl | rfl <;>
      exact hg.valid.lt _ (hg.valid.has_of_mem_nearby (by assumption))
  have hle := Finset.sum_le_sum_of_subset (f := g.web.joins v) hsub
  have hpos := hg.valid.mem_nearby.1 hx
  have hpos' := hg.valid.mem_nearby.1 hy
  rw [Finset.sum_pair hne, show ∑ z ∈ Finset.range g.web.next, g.web.joins v z = 1 from h] at hle
  omega

/-- Gadgets with different centres have no spider in common. -/
theorem disjoint_gadgets {a b : Gadget} (ha : g.web.Has a.centre)
    (hla : g.gadgetLeaf? a.centre = .ok (some a.leaf)) (hb : g.web.Has b.centre)
    (hlb : g.gadgetLeaf? b.centre = .ok (some b.leaf)) (hne : a.centre ≠ b.centre) :
    [a.centre, a.leaf].Disjoint [b.centre, b.leaf] := by
  obtain ⟨hna, hda, x, hx, hxa⟩ := (leaves_gadgetLeaf? hg ha).of_ok hla a.leaf rfl
  obtain ⟨hnb, hdb, y, hy, hyb⟩ := (leaves_gadgetLeaf? hg hb).of_ok hlb b.leaf rfl
  have hleaf : a.leaf ≠ b.leaf := fun he => hne (eq_of_degree_one hg hda
    (hg.valid.mem_nearby_comm.1 hna) (hg.valid.mem_nearby_comm.1 (he ▸ hnb)))
  have hleft : a.centre ≠ b.leaf := fun he =>
    hxa (eq_of_degree_one hg (he ▸ hdb) hx hna)
  have hright : a.leaf ≠ b.centre := fun he =>
    hyb (eq_of_degree_one hg (he ▸ hda) hy hnb)
  simp [hne.symm, hleft.symm, hright.symm, hleaf.symm]

/-- No two of the pairs that gadgets are fused in have a spider in common. -/
theorem apart_fuseGadgetsSites :
    Leaves g.fuseGadgetsSites fun ms => ms.Pairwise List.Disjoint := by
  obtain ⟨gs, hgs, hmem, hcentres⟩ := attains_gadgets hg
  rw [fuseGadgetsSites, hgs]
  have hdisjoint : gs.Pairwise fun a b => [a.centre, a.leaf].Disjoint [b.centre, b.leaf] :=
    hcentres.imp_of_mem fun {a b} ha hb hne => by
      obtain ⟨ha, hla, -⟩ := (hmem a).1 ha
      obtain ⟨hb, hlb, -⟩ := (hmem b).1 hb
      exact disjoint_gadgets hg ha hla hb hlb hne
  exact apart_pairUp (hdisjoint.perm (List.mergeSort_perm gs Gadget.before).symm List.Disjoint.symm)

end

end GraphLike

/-- Each rule lists matches no two of which have a spider in common, on any coherent diagram; and
    unless it looks for gadgets, in ascending order of their first spiders. -/
theorem sites_apart :
    (∀ (rule : DiagramRule) (d : Diagram), d.Coherent →
      ∃ ms, rule.sites d = .ok ms ∧ ms.Pairwise List.Disjoint ∧ Ascending ms) ∧
    ∀ (rule : GraphRule) (g : GraphLike), g.Coherent → ∃ ms, rule.sites g = .ok ms ∧
      ms.Pairwise List.Disjoint ∧ (rule ≠ .gadgetFusion → Ascending ms) := by
  refine ⟨fun rule d hd => ?_, fun rule g hg => ?_⟩
  · obtain ⟨ms, hms, -⟩ := (Diagram.exact_of_coherent rule).sites d hd
    exact ⟨ms, hms, (Diagram.apart_sites rule d).of_ok hms⟩
  · obtain ⟨ms, hms, -⟩ := (GraphLike.exact_of_coherent rule).sites g hg
    by_cases hrule : rule = .gadgetFusion
    · subst hrule
      exact ⟨ms, hms, (GraphLike.apart_fuseGadgetsSites hg).of_ok hms, fun h => absurd rfl h⟩
    · obtain ⟨hapart, hascending⟩ := (GraphLike.apart_sites hrule g).of_ok hms
      exact ⟨ms, hms, hapart, fun _ => hascending⟩

namespace GraphLike

/-- Four gadgets: the two with the older centres are on the younger one of two spiders. -/
def crossedGadgets : GraphLike where
  graph := ⟨#[some [⟨4, .hadamard, 1⟩, ⟨5, .hadamard, 1⟩],
    some [⟨2, .hadamard, 1⟩, ⟨3, .hadamard, 1⟩],
    some [⟨1, .hadamard, 1⟩, ⟨6, .hadamard, 1⟩], some [⟨1, .hadamard, 1⟩, ⟨7, .hadamard, 1⟩],
    some [⟨0, .hadamard, 1⟩, ⟨8, .hadamard, 1⟩], some [⟨0, .hadamard, 1⟩, ⟨9, .hadamard, 1⟩],
    some [⟨2, .hadamard, 1⟩], some [⟨3, .hadamard, 1⟩], some [⟨4, .hadamard, 1⟩],
    some [⟨5, .hadamard, 1⟩]], 10, 8⟩
  kinds := .ofList ((List.range 10).map fun v => (v, .z)) compare
  phases := .ofList ((List.range' 6 4).map fun v => (v, .reduce 1 4)) compare
  layout := .new 0
  inputs := []
  outputs := []
  carriers := ∅
  master := .blank 0

theorem crossedGadgets_inForm : crossedGadgets.Coherent ∧ crossedGadgets.web.InForm := by
  decide +kernel

/-- The pairs come in the order of their supports, not of their first spiders. -/
theorem crossedGadgets_not_ascending :
    ∃ ms, GraphRule.gadgetFusion.sites crossedGadgets = .ok ms ∧ ¬Ascending ms := by
  refine ⟨[[4, 5, 8, 9], [2, 3, 6, 7]], by cbv, ?_⟩
  rintro ⟨vs, hvs, hsorted⟩
  obtain rfl : vs = [4, 2] :=
    List.map_injective_iff.2 (Option.some_injective Vertex) hvs.symm
  exact absurd (List.rel_of_pairwise_cons hsorted (List.mem_singleton_self 2)) (by decide)

end GraphLike

end ZXRewriting
