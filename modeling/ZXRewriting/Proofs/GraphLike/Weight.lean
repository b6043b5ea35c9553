import ZXRewriting.Proofs.GraphLike.Steps
import ZXRewriting.Proofs.Semantics.Tensors

/-!
# Steps make a diagram lighter

The number of spiders is no measure of what is left to do: moving the boundary or a phase out of the
way adds spiders. But those are not inner, while the two spiders that are then removed are. Counting
inner spiders once more, and twice at that (`Web.weight`), every step makes the diagram lighter
(`Web.Step.weight_lt`). The reason is that no step makes an inner spider of one that was none: where
edges are toggled, all spiders have further edges before (`Web.Thins.isInner`).
-/

namespace ZXRewriting

open Function (update update_self update_of_ne)
open Multigraph (SamePair)

namespace Web

variable {w w' : Web} {s t u v x y keep gone c d l m : Vertex} {ts : List Vertex} {p q : Phase}

/-- The inner spiders. -/
def inner (w : Web) : Finset Vertex := (Finset.range w.next).filter w.IsInner

/-- The number of spiders, to which the inner ones are added twice. -/
def weight (w : Web) : ℕ := w.spiders.card + 2 * w.inner.card

theorem Valid.mem_inner_iff (hw : w.Valid) : v ∈ w.inner ↔ w.IsInner v := by
  rw [inner, Finset.mem_filter, Finset.mem_range, and_iff_right_iff_imp]
  exact fun h => hw.lt v h.1.1.has

theorem Valid.mem_spiders_iff (hw : w.Valid) : v ∈ w.spiders ↔ w.Has v := by
  rw [mem_spiders, and_iff_right_iff_imp]
  exact hw.lt v

theorem weight_le (w : Web) : w.weight ≤ 3 * w.next := by
  have hspiders := Finset.card_filter_le (Finset.range w.next) w.Has
  have hinner := Finset.card_filter_le (Finset.range w.next) w.IsInner
  rw [Finset.card_range] at hspiders hinner
  rw [weight, spiders, inner]
  omega

/-- A Z spider with two neighbours has further edges. -/
theorem Simple.isHub (hw : w.Simple) (hv : w.IsZ v) (hs : s ∈ w.nearby v) (ht : t ∈ w.nearby v)
    (hne : s ≠ t) : w.IsHub v := by
  refine ⟨hv, ?_⟩
  rw [hw.degree_eq]
  rcases hn : w.nearby v with - | ⟨a, - | ⟨b, rest⟩⟩
  · simp [hn] at hs
  · rw [hn, List.mem_singleton] at hs ht
    exact absurd (hs.trans ht.symm) hne
  · simp

/-- A neighbour of a Z spider with further edges, other than a given one. -/
theorem Simple.exists_other (hw : w.Simple) (hv : w.IsHub v) (s : Vertex) :
    ∃ t ∈ w.nearby v, t ≠ s := by
  by_contra h
  push Not at h
  have hlen := hv.2
  rw [hw.degree_eq] at hlen
  rcases hn : w.nearby v with - | ⟨a, - | ⟨b, rest⟩⟩
  · simp [hn] at hlen
  · simp [hn] at hlen
  · have hpair := nodup_nearby (w := w) (v := v)
    rw [hn] at h hpair
    rw [h a (by simp), h b (by simp)] at hpair
    simp at hpair

/-- A spider with fewer edges has a smaller degree. -/
theorem degree_le (hn : w'.next = w.next) (h : ∀ u, w'.joins v u ≤ w.joins v u) :
    w'.degree v ≤ w.degree v := by
  rw [degree, degree, hn]
  exact Finset.sum_le_sum fun u _ => h u

/-! ### Thinning out -/

/-- Some spiders go, and edges come or go, but not at the spiders without further edges, which are
    not left behind alone either. -/
structure Thins (w w' : Web) : Prop where
  next : w'.next = w.next
  kind : ∀ x, w'.Has x → w'.kind x = w.kind x
  stays : ∀ x y, w'.Has x → ¬w.IsHub y → 0 < w.joins x y → w'.Has y
  joins : ∀ x y, w'.Has x → w'.Has y → ¬w.IsHub y → w'.joins x y = w.joins x y

namespace Thins

variable (h : Thins w w') (hw' : w'.Valid)
include h hw'

theorem degree_le (hx : ¬w.IsHub x) (hhas : w'.Has x) (hw : w.Valid) :
    w'.degree x ≤ w.degree x := by
  refine Web.degree_le h.next fun y => ?_
  by_cases hy : w'.Has y
  · rw [hw'.joins_comm, hw.joins_comm, h.joins y x hy hhas hx]
  · rw [hw'.joins_comm, hw'.joins_eq_zero hy]
    exact Nat.zero_le _

/-- What is inner after thinning out was inner before. -/
theorem isInner (hw : w.Valid) (hx : w'.IsInner x) : w.IsInner x := by
  have hhas : w'.Has x := hx.1.1.has
  have hub {y : Vertex} (hy : w'.IsHub y) : w.IsHub y := by
    by_contra hnot
    refine hnot ⟨(h.kind y hy.1.has).symm.trans hy.1, ?_⟩
    exact Nat.lt_of_lt_of_le hy.2 (h.degree_le hw' hnot hy.1.has hw)
  refine ⟨hub hx.1, fun y hy => ?_⟩
  rw [hw.mem_nearby] at hy
  by_contra hnot
  have hyhas := h.stays x y hhas hnot hy
  -- the edge is still there, and so leads to a spider with further edges
  refine hnot (hub (hx.2 y ?_))
  rw [hw'.mem_nearby, h.joins x y hhas hyhas hnot]
  exact hy

/-- Each spider that goes makes the web lighter, and an inner one by three. -/
theorem weight_le (hw : w.Valid) (gone inner : Finset Vertex)
    (hgone : ∀ v ∈ gone, w.Has v ∧ ¬w'.Has v) (hinner : inner ⊆ gone)
    (hisInner : ∀ v ∈ inner, w.IsInner v) :
    w'.weight + gone.card + 2 * inner.card ≤ w.weight := by
  have hspiders : w'.spiders ⊆ w.spiders \ gone := fun v hv => by
    have hv' := hw'.mem_spiders_iff.1 hv
    rw [Finset.mem_sdiff, hw.mem_spiders_iff]
    refine ⟨?_, fun hg => (hgone v hg).2 hv'⟩
    rw [Has, ← h.kind v hv']
    exact hv'
  have hleft : w'.inner ⊆ w.inner \ inner := fun v hv => by
    have hv' := hw'.mem_inner_iff.1 hv
    rw [Finset.mem_sdiff, hw.mem_inner_iff]
    exact ⟨h.isInner hw' hw hv', fun hi => (hgone v (hinner hi)).2 hv'.1.1.has⟩
  have hgone' : gone ⊆ w.spiders := fun v hv => hw.mem_spiders_iff.2 (hgone v hv).1
  have hinner' : inner ⊆ w.inner := fun v hv => hw.mem_inner_iff.2 (hisInner v hv)
  have h₁ := Finset.card_le_card hspiders
  have h₂ := Finset.card_le_card hleft
  have h₃ := Finset.card_le_card hgone'
  have h₄ := Finset.card_le_card hinner'
  rw [Finset.card_sdiff_of_subset hgone'] at h₁
  rw [Finset.card_sdiff_of_subset hinner'] at h₂
  rw [weight, weight]
  omega

end Thins

/-! ### Edges away from where they are toggled -/

theorem joins_toggle_of_ne (hs : y ≠ s) (ht : y ≠ t) : (w.toggle s t).joins x y = w.joins x y := by
  have hpair : ¬SamePair x y s t := by
    rintro (⟨-, h⟩ | ⟨-, h⟩)
    · exact ht h
    · exact hs h
  rw [toggle]
  split
  · rfl
  · simp only [joins, setCount, if_neg hpair]

theorem joins_toggleAll_of_notMem (hs : y ≠ s) (ht : y ∉ ts) :
    (w.toggleAll s ts).joins x y = w.joins x y := by
  induction ts generalizing w with
  | nil => rfl
  | cons t rest ih =>
    rw [List.mem_cons, not_or] at ht
    rw [toggleAll_cons, ih ht.2, joins_toggle_of_ne hs ht.1]

theorem joins_complement_of_notMem (hy : y ∉ ts) :
    (complement p ts w).joins x y = w.joins x y := by
  induction ts generalizing w with
  | nil => rfl
  | cons n rest ih =>
    rw [List.mem_cons, not_or] at hy
    rw [complement, ih hy.2, joins_toggleAll_of_notMem hy.1 hy.2]
    rfl

theorem joins_joinAll_of_notMem {others : Vertex → List Vertex} (hy : y ∉ ts)
    (hothers : ∀ n ∈ ts, y ∉ others n) : (joinAll q others w ts).joins x y = w.joins x y := by
  induction ts generalizing w with
  | nil => rfl
  | cons n rest ih =>
    rw [List.mem_cons, not_or] at hy
    rw [joinAll_cons, ih hy.2 fun m hm => hothers m (List.mem_cons_of_mem n hm),
      joins_toggleAll_of_notMem hy.1 (hothers n List.mem_cons_self)]
    rfl

/-! ### Local complementation and pivoting -/

theorem has_localComplement : (w.localComplement v).Has x ↔ x ≠ v ∧ w.Has x := by
  rw [localComplement, has_remove, Has, kind_complement, Has]

theorem kind_pivot : (w.pivot v u).kind = update (update w.kind v none) u none := by
  rw [pivot, kind_remove, kind_remove, kind_addToPhases, kind_joinAll]

theorem has_pivot : (w.pivot v u).Has x ↔ x ≠ u ∧ x ≠ v ∧ w.Has x := by
  rw [pivot, has_remove, has_remove, Has, kind_addToPhases, kind_joinAll, Has]

/-- A spider that is next to neither of the two is joined to others as before. -/
theorem joins_pivot_of_apart (hx : (w.pivot v u).Has x) (hy : (w.pivot v u).Has y)
    (hyv : y ∉ w.nearby v) (hyu : y ∉ w.nearby u) : (w.pivot v u).joins x y = w.joins x y := by
  have hx := has_pivot.1 hx
  have hy := has_pivot.1 hy
  have hpartners : ∀ n ∈ w.nearby v, y ∉ w.pivotPartners v u n := fun n _ hm => by
    rw [pivotPartners] at hm
    split at hm
    · simp at hm
    · exact hyu (List.mem_of_mem_filter hm)
  rw [pivot, joins_remove, if_neg (by tauto), joins_remove, if_neg (by tauto), joins, joins,
    count_addToPhases, ← joins, joins_joinAll_of_notMem hyv hpartners, joins]

/-- All neighbours of an inner spider have further edges, and only those are joined. -/
theorem thins_localComplement (hw : w.Simple) (hv : w.IsInner v) :
    Thins w (w.localComplement v) := by
  have hub {y : Vertex} (hy : ¬w.IsHub y) : y ≠ v ∧ y ∉ w.nearby v :=
    ⟨fun h => hy (h ▸ hv.1), fun h => hy (hv.2 y h)⟩
  refine ⟨?_, fun x hx => ?_, fun x y hx hy hpos => ?_, fun x y hx hy hnot => ?_⟩
  · rw [localComplement, next_remove, next_complement]
  · rw [localComplement, kind_remove, update_of_ne (has_localComplement.1 hx).1, kind_complement]
  · exact has_localComplement.2 ⟨(hub hy).1, (hw.valid.has_of_joins hpos).2⟩
  · have hx := has_localComplement.1 hx
    have hy := has_localComplement.1 hy
    rw [localComplement, joins_remove, if_neg (by tauto),
      joins_complement_of_notMem (hub hnot).2]

theorem thins_pivot (hw : w.Simple) (hv : w.IsInner v) (hu : w.IsInner u) :
    Thins w (w.pivot v u) := by
  have hub {y : Vertex} (hy : ¬w.IsHub y) : y ∉ w.nearby v ∧ y ∉ w.nearby u :=
    ⟨fun h => hy (hv.2 y h), fun h => hy (hu.2 y h)⟩
  refine ⟨?_, fun x hx => ?_, fun x y hx hy hpos => ?_, fun x y hx hy hnot => ?_⟩
  · rw [pivot, next_remove, next_remove, next_addToPhases, next_joinAll]
  · rw [kind_pivot, update_of_ne (has_pivot.1 hx).1, update_of_ne (has_pivot.1 hx).2.1]
  · exact has_pivot.2 ⟨fun h => hy (h ▸ hu.1), fun h => hy (h ▸ hv.1),
      (hw.valid.has_of_joins hpos).2⟩
  · exact joins_pivot_of_apart hx hy (hub hnot).1 (hub hnot).2

theorem InForm.weight_localComplement (hw : w.InForm) (hv : w.IsInner v) :
    (w.localComplement v).weight < w.weight := by
  have hvalid := (hw.keeps_localComplement hv.1.1 fun u hu => (hv.2 u hu).1).form.simple.valid
  have hgone : w.Has v ∧ ¬(w.localComplement v).Has v :=
    ⟨hv.1.1.has, fun h => (has_localComplement.1 h).1 rfl⟩
  have h := (thins_localComplement hw.simple hv).weight_le hvalid hw.simple.valid {v} {v}
    (by simpa using hgone) (Finset.Subset.refl _) (by simpa using hv)
  rw [Finset.card_singleton] at h
  omega

/-- The two spiders that go are inner. -/
theorem InForm.weight_pivot (hw : w.InForm) (hv : w.IsInner v) (hu : w.IsInner u)
    (hj : u ∈ w.nearby v) : (w.pivot v u).weight + 6 ≤ w.weight := by
  have hne : v ≠ u := fun h => hw.simple.valid.notMem_nearby_self (h ▸ hj)
  have hvalid := (hw.keeps_pivot ((Frame.refl u w).pivotable hv hu.1.1 hj hne
    fun x hx => (hu.2 x hx).1)).form.simple.valid
  have hgone : ∀ x ∈ ({v, u} : Finset Vertex), w.Has x ∧ ¬(w.pivot v u).Has x := by
    intro x hx
    rw [Finset.mem_insert, Finset.mem_singleton] at hx
    rcases hx with rfl | rfl
    · exact ⟨hv.1.1.has, fun h => (has_pivot.1 h).2.1 rfl⟩
    · exact ⟨hu.1.1.has, fun h => (has_pivot.1 h).1 rfl⟩
  have h := (thins_pivot hw.simple hv hu).weight_le hvalid hw.simple.valid {v, u} {v, u} hgone
    (Finset.Subset.refl _) (by simpa using ⟨hv, hu⟩)
  rw [Finset.card_pair hne] at h
  omega

/-! ### Fusing gadgets -/

theorem has_fuseGadgets : (w.fuseGadgets c d l m).Has x ↔ x ≠ d ∧ x ≠ m ∧ w.Has x := by
  rw [fuseGadgets, Has, kind_absorb, kind_clearCentre, kind_clearCentre, Function.update_apply,
    Function.update_apply]
  split_ifs with hd hm
  · simp [hd]
  · simp [hm]
  · simp [hd, hm, Has]

/-- The edges between the spiders that stay do so too. -/
theorem joins_fuseGadgets (hx : (w.fuseGadgets c d l m).Has x) (hy : (w.fuseGadgets c d l m).Has y) :
    (w.fuseGadgets c d l m).joins x y = w.joins x y := by
  have hx := has_fuseGadgets.1 hx
  have hy := has_fuseGadgets.1 hy
  obtain ⟨k, hk⟩ := exists_mergeCarriers (((w.clearCentre c l).clearCentre d m).addToPhase l
    (((w.clearCentre c l).clearCentre d m).phase m)) l m
  rw [fuseGadgets, absorb, hk, joins_remove, if_neg (by tauto), joins_remove, if_neg (by tauto),
    joins, joins]
  change ((w.clearCentre c l).clearCentre d m).count x y .plain +
    ((w.clearCentre c l).clearCentre d m).count x y .hadamard = _
  rw [count_clearCentre, count_clearCentre]

/-- The spiders that go are a leaf and its only neighbour. -/
theorem thins_fuseGadgets (hw : w.Simple) (h : w.SameSupport c d l m) :
    Thins w (w.fuseGadgets c d l m) := by
  -- the second centre has its leaf and a spider of the support beside it
  have hub : w.IsHub d := by
    obtain ⟨x, hx⟩ := List.exists_mem_of_ne_nil _ h.nonempty
    obtain ⟨hx, hne⟩ := List.mem_filter.1 hx
    exact hw.isHub h.right.centre hx (h.right.mem_nearby hw) (of_decide_eq_true hne)
  refine ⟨?_, fun x hx => ?_, fun x y hx hy hpos => ?_, fun x y hx hy _ => ?_⟩
  · rw [fuseGadgets, next_absorb, next_clearCentre, next_clearCentre]
  · have hx := has_fuseGadgets.1 hx
    rw [fuseGadgets, kind_absorb, update_of_ne hx.1, update_of_ne hx.2.1, kind_clearCentre,
      kind_clearCentre]
  · refine has_fuseGadgets.2 ⟨fun he => hy (he ▸ hub), ?_, (hw.valid.has_of_joins hpos).2⟩
    rintro rfl
    rw [hw.valid.joins_comm, ← hw.valid.mem_nearby, h.right.nearby_leaf, List.mem_singleton] at hpos
    exact (has_fuseGadgets.1 hx).1 hpos
  · exact joins_fuseGadgets hx hy

theorem InForm.weight_fuseGadgets (hw : w.InForm) (h : w.SameSupport c d l m) :
    (w.fuseGadgets c d l m).weight < w.weight := by
  have hgone : w.Has m ∧ ¬(w.fuseGadgets c d l m).Has m :=
    ⟨h.right.leaf.has, fun hm => (has_fuseGadgets.1 hm).2.1 rfl⟩
  have hle := (thins_fuseGadgets hw.simple h).weight_le (h.keeps hw).form.simple.valid
    hw.simple.valid {m} ∅ (by simpa using hgone) (by simp) (by simp)
  rw [Finset.card_singleton] at hle
  omega

/-! ### Fusing the neighbours of a spider -/

theorem has_fuse : (w.fuse v keep gone).Has x ↔ x ≠ gone ∧ x ≠ v ∧ w.Has x := by
  rw [Has, kind_fuse, Function.update_apply, Function.update_apply]
  split_ifs with hg hv
  · simp [hg]
  · simp [hv]
  · simp [hg, hv, Has]

theorem kind_of_has_fuse (hx : (w.fuse v keep gone).Has x) :
    (w.fuse v keep gone).kind x = w.kind x := by
  have hx := has_fuse.1 hx
  rw [kind_fuse, update_of_ne hx.1, update_of_ne hx.2.1]

namespace Fusable

variable (h : w.Fusable v keep gone) (hw : w.Simple)
include h hw

/-- The edges that are left: those of `gone` are toggled at `keep`. -/
theorem joins_fuse (hx : x ≠ v ∧ x ≠ gone) (hy : y ≠ v ∧ y ≠ gone) :
    (w.fuse v keep gone).joins x y =
      if x ≠ y ∧ (x = keep ∧ y ∈ w.nearby gone ∨ y = keep ∧ x ∈ w.nearby gone) then
        1 - w.joins x y
      else w.joins x y := by
  obtain ⟨c, hc⟩ := exists_mergeCarriers ((w.pushThrough v gone).handOver v keep gone) keep gone
  have hz {u : Vertex} (hu : w.IsZ u) :
      ((w.pushThrough v gone).addToPhase keep ((w.pushThrough v gone).phase gone)).IsZ u := by
    rwa [IsZ, kind_addToPhase, kind_pushThrough]
  have hpushed : (w.pushThrough v gone).Simple := hw.pushThrough
  have hsimple := hpushed.addToPhase keep ((w.pushThrough v gone).phase gone)
  rw [fuse, hc, joins_remove, if_neg (by tauto), joins_remove, if_neg (by tauto)]
  change ((w.pushThrough v gone).handOver v keep gone).joins x y = _
  rw [handOver, hsimple.joins_toggleAll (hz h.keep_isZ)
    (fun u hu => hz (h.others u (by rwa [nearby_pushThrough] at hu))) (nodup_nearby.filter _),
    nearby_pushThrough]
  have hjoins : ((w.pushThrough v gone).addToPhase keep
      ((w.pushThrough v gone).phase gone)).joins x y = w.joins x y := by
    rw [joins, joins, ← @count_pushThrough w v gone]
    rfl
  rw [hjoins]
  simp [hx.1, hy.1]

theorem keep_ne : keep ≠ v := fun he =>
  hw.valid.notMem_nearby_self (he ▸ h.mem_nearby.2 (.inl rfl))

theorem gone_ne : gone ≠ v := fun he =>
  hw.valid.notMem_nearby_self (he ▸ h.mem_nearby.2 (.inr rfl))

/-- A spider beside one of the two has that and the middle one beside it. -/
theorem isHub_of_mem_nearby (hx : x ≠ v) (hy : y = keep ∨ y = gone) (hxy : y ∈ w.nearby x) :
    w.IsHub y := by
  refine hw.isHub ?_ (hw.valid.mem_nearby_comm.1 (h.mem_nearby.2 hy))
    (hw.valid.mem_nearby_comm.1 hxy) hx.symm
  rcases hy with rfl | rfl
  · exact h.keep_isZ
  · exact h.gone_isZ

theorem isHub_middle : w.IsHub v :=
  hw.isHub h.isZ (h.mem_nearby.2 (.inl rfl)) (h.mem_nearby.2 (.inr rfl)) h.ne

section

variable (hw' : (w.fuse v keep gone).Simple)
include hw'

/-- Only `keep` may have more edges than before: the others have at most an edge to `gone` replaced
    by one to `keep`. -/
theorem degree_le (hx : x ≠ v ∧ x ≠ gone) (hxk : x ≠ keep) :
    (w.fuse v keep gone).degree x ≤ w.degree x := by
  have hgone (u : Vertex) (hu : u = v ∨ u = gone) : (w.fuse v keep gone).joins x u = 0 := by
    rw [hw'.valid.joins_comm]
    refine hw'.valid.joins_eq_zero fun hhas => ?_
    have hhas := has_fuse.1 hhas
    tauto
  by_cases hxg : x ∈ w.nearby gone
  · have hle (u : Vertex) : (w.fuse v keep gone).joins x u ≤
        w.joins x (Equiv.swap keep gone u) := by
      by_cases hu : u = v ∨ u = gone
      · rw [hgone u hu]
        exact Nat.zero_le _
      by_cases huk : u = keep
      · rw [huk, Equiv.swap_apply_left]
        have hpos := hw.valid.mem_nearby.1 (hw.valid.mem_nearby_comm.1 hxg)
        have hone := hw'.single x keep
        omega
      · rw [not_or] at hu
        rw [Equiv.swap_apply_of_ne_of_ne huk hu.2, h.joins_fuse hw hx hu, if_neg (by tauto)]
    have hrange (u : Vertex) : u ∈ Finset.range w.next ↔
        Equiv.swap keep gone u ∈ Finset.range w.next := by
      have hk := hw.valid.lt _ h.keep_isZ.has
      have hg := hw.valid.lt _ h.gone_isZ.has
      rw [Finset.mem_range, Finset.mem_range, Equiv.swap_apply_def]
      split_ifs with huk hug
      · exact iff_of_true (huk ▸ hk) hg
      · exact iff_of_true (hug ▸ hg) hk
      · exact .rfl
    rw [degree, degree, next_fuse]
    refine (Finset.sum_le_sum fun u _ => hle u).trans_eq ?_
    exact Finset.sum_equiv (Equiv.swap keep gone) hrange fun u _ => rfl
  · refine Web.degree_le next_fuse fun u => ?_
    by_cases hu : u = v ∨ u = gone
    · rw [hgone u hu]
      exact Nat.zero_le _
    · rw [not_or] at hu
      rw [h.joins_fuse hw hx hu, if_neg (by tauto)]

theorem isHub (hx : (w.fuse v keep gone).IsHub x) (hxk : x ≠ keep) : w.IsHub x := by
  have hhas := has_fuse.1 hx.1.has
  refine ⟨(kind_of_has_fuse hx.1.has).symm.trans hx.1, ?_⟩
  exact Nat.lt_of_lt_of_le hx.2 (h.degree_le hw hw' ⟨hhas.2.1, hhas.1⟩ hxk)

/-- All but `keep` that are inner were so before. -/
theorem isInner (hx : (w.fuse v keep gone).IsInner x) (hxk : x ≠ keep) : w.IsInner x := by
  refine ⟨h.isHub hw hw' hx.1 hxk, fun y hy => ?_⟩
  have hhas := has_fuse.1 hx.1.1.has
  by_cases hyv : y = v
  · exact hyv ▸ h.isHub_middle hw
  by_cases hyk : y = keep ∨ y = gone
  · exact h.isHub_of_mem_nearby hw hhas.2.1 hyk hy
  rw [not_or] at hyk
  refine h.isHub hw hw' (hx.2 y ?_) hyk.1
  rw [hw'.valid.mem_nearby, h.joins_fuse hw ⟨hhas.2.1, hhas.1⟩ ⟨hyv, hyk.2⟩, if_neg (by tauto)]
  exact hw.valid.mem_nearby.1 hy

/-- If `keep` is inner only now, it hung off the middle one: any other spider beside it has further
    edges. -/
theorem only_middle (hk : (w.fuse v keep gone).IsInner keep) (hnot : ¬w.IsInner keep) :
    ∀ y ∈ w.nearby keep, y = v := by
  have hkv := h.keep_ne hw
  by_contra hother
  push Not at hother
  obtain ⟨t, ht, htv⟩ := hother
  refine hnot ⟨h.isHub_of_mem_nearby hw htv (.inl rfl) (hw.valid.mem_nearby_comm.1 ht), ?_⟩
  intro y hy
  by_cases hyv : y = v
  · exact hyv ▸ h.isHub_middle hw
  by_cases hyg : y = gone
  · exact h.isHub_of_mem_nearby hw hkv (.inr hyg) hy
  have hyk : y ≠ keep := fun he => hw.valid.notMem_nearby_self (he ▸ hy)
  by_cases hyn : y ∈ w.nearby gone
  · exact hw.isHub (h.gone_nearby y hyn) (hw.valid.mem_nearby_comm.1 hy)
      (hw.valid.mem_nearby_comm.1 hyn) h.ne
  · refine h.isHub hw hw' (hk.2 y ?_) hyk
    rw [hw'.valid.mem_nearby, h.joins_fuse hw ⟨hkv, h.ne⟩ ⟨hyv, hyg⟩, if_neg (by tauto)]
    exact hw.valid.mem_nearby.1 hy

/-- If `keep` is inner only now, `gone` was inner before. -/
theorem isInner_gone (hk : (w.fuse v keep gone).IsInner keep) (hnot : ¬w.IsInner keep) :
    w.IsInner gone := by
  have hkv := h.keep_ne hw
  have honly := h.only_middle hw hw' hk hnot
  have hhub : ∀ y ∈ (w.fuse v keep gone).nearby keep, y ∈ w.nearby gone ∧ w.IsHub y := by
    intro y hy
    have hhas := has_fuse.1 (hw'.valid.has_of_mem_nearby hy)
    have hyk : y ≠ keep := fun he => hw'.valid.notMem_nearby_self (he ▸ hy)
    refine ⟨?_, h.isHub hw hw' (hk.2 y hy) hyk⟩
    by_contra hyn
    rw [hw'.valid.mem_nearby, h.joins_fuse hw ⟨hkv, h.ne⟩ ⟨hhas.2.1, hhas.1⟩, if_neg (by tauto)]
      at hy
    exact hhas.2.1 (honly y (hw.valid.mem_nearby.2 hy))
  obtain ⟨t, ht, -⟩ := hw'.exists_other hk.1 keep
  have htv : t ≠ v := fun he => (has_fuse.1 (hw'.valid.has_of_mem_nearby ht)).2.1 he
  refine ⟨hw.isHub h.gone_isZ (hhub t ht).1 (hw.valid.mem_nearby_comm.1 (h.mem_nearby.2 (.inr rfl)))
    htv, fun y hy => ?_⟩
  by_cases hyv : y = v
  · exact hyv ▸ h.isHub_middle hw
  have hyg : y ≠ gone := fun he => hw.valid.notMem_nearby_self (he ▸ hy)
  have hyk : y ≠ keep := fun he =>
    h.gone_ne hw (honly gone (hw.valid.mem_nearby_comm.1 (he ▸ hy)))
  refine (hhub y ?_).2
  have hzero : w.joins keep y = 0 := by
    by_contra hpos
    exact hyv (honly y (hw.valid.mem_nearby.2 (Nat.pos_of_ne_zero hpos)))
  rw [hw'.valid.mem_nearby, h.joins_fuse hw ⟨hkv, h.ne⟩ ⟨hyv, hyg⟩, if_pos ⟨hyk.symm, .inl ⟨rfl, hy⟩⟩,
    hzero]
  exact Nat.one_pos

end

end Fusable

/-- Two spiders go, and `keep` is inner only if it was, or in place of `gone`. -/
theorem InForm.weight_fuse (hw : w.InForm) (h : w.Fusable v keep gone) :
    (w.fuse v keep gone).weight < w.weight := by
  have hw' := (h.keeps hw).form.simple
  have hval := hw.simple.valid
  have hspiders : (w.fuse v keep gone).spiders ⊆ w.spiders.erase v := fun x hx => by
    have hx := has_fuse.1 (hw'.valid.mem_spiders_iff.1 hx)
    exact Finset.mem_erase.2 ⟨hx.2.1, hval.mem_spiders_iff.2 hx.2.2⟩
  have hcard := Finset.card_le_card hspiders
  have hv := hval.mem_spiders_iff.2 h.isZ.has
  have hpos := Finset.card_pos.2 ⟨v, hv⟩
  rw [Finset.card_erase_of_mem hv] at hcard
  have hinner : (w.fuse v keep gone).inner.card ≤ w.inner.card := by
    by_cases hk : (w.fuse v keep gone).IsInner keep ∧ ¬w.IsInner keep
    · have hg := hval.mem_inner_iff.2 (h.isInner_gone hw.simple hw' hk.1 hk.2)
      have hsub : (w.fuse v keep gone).inner ⊆ insert keep (w.inner.erase gone) := fun x hx => by
        have hx := hw'.valid.mem_inner_iff.1 hx
        rw [Finset.mem_insert, Finset.mem_erase, hval.mem_inner_iff]
        by_cases hxk : x = keep
        · exact .inl hxk
        · exact .inr ⟨(has_fuse.1 hx.1.1.has).1, h.isInner hw.simple hw' hx hxk⟩
      have hle := (Finset.card_le_card hsub).trans (Finset.card_insert_le _ _)
      have hgpos := Finset.card_pos.2 ⟨gone, hg⟩
      rw [Finset.card_erase_of_mem hg] at hle
      omega
    · refine Finset.card_le_card fun x hx => ?_
      have hx := hw'.valid.mem_inner_iff.1 hx
      rw [hval.mem_inner_iff]
      by_cases hxk : x = keep
      · subst hxk
        exact not_not.1 fun hnot => hk ⟨hx, hnot⟩
      · exact h.isInner hw.simple hw' hx hxk
  rw [weight, weight]
  omega


/-! ### Moving off what is in the way -/

/-- Spiders are added beside `u`, none of which is inner. -/
structure Widens (u : Vertex) (w w' : Web) : Prop where
  frame : Frame u w w'
  hub : w.IsHub u
  hub' : w'.IsHub u
  new : ∀ x, w'.Has x → w.Has x ∨ w.next ≤ x ∧ ¬w'.IsInner x

namespace Widens

variable (h : Widens u w w') (hw : w.Simple) (hw' : w'.Simple)
include h hw hw'

theorem isHub_iff (hx : w.IsZ x) : w'.IsHub x ↔ w.IsHub x := by
  by_cases hxu : x = u
  · rw [hxu]
    exact iff_of_true h.hub' h.hub
  · rw [IsHub, IsHub, hw.degree_eq, hw'.degree_eq, h.frame.nearby x hx hxu]
    exact and_congr_left fun _ => iff_of_true (h.frame.isZ hx) hx

/-- Other spiders are inner if they were before. -/
theorem isInner_iff (hx : w.IsZ x) (hxu : x ≠ u) : w'.IsInner x ↔ w.IsInner x := by
  rw [IsInner, IsInner, h.isHub_iff hw hw' hx, h.frame.nearby x hx hxu]
  refine and_congr_right fun _ => forall₂_congr fun y hy => ?_
  have hyhas := hw.valid.has_of_mem_nearby hy
  by_cases hyz : w.IsZ y
  · exact h.isHub_iff hw hw' hyz
  · refine iff_of_false (fun hub => hyz ?_) fun hub => hyz hub.1
    exact (h.frame.kind y hyhas).symm.trans hub.1

theorem inner_subset : w'.inner ⊆ insert u w.inner := fun x hx => by
  have hx := hw'.valid.mem_inner_iff.1 hx
  rw [Finset.mem_insert, hw.valid.mem_inner_iff]
  by_cases hxu : x = u
  · exact .inl hxu
  rcases h.new x hx.1.1.has with hhas | ⟨-, hnot⟩
  · exact .inr ((h.isInner_iff hw hw' ((h.frame.kind x hhas).symm.trans hx.1.1) hxu).1 hx)
  · exact absurd hx hnot

omit hw' in
theorem card_spiders_le : w'.spiders.card ≤ w.spiders.card + (w'.next - w.next) := by
  have hsub : w'.spiders ⊆ w.spiders ∪ Finset.Ico w.next w'.next := fun x hx => by
    obtain ⟨hlt, hhas⟩ := mem_spiders.1 hx
    rw [Finset.mem_union, Finset.mem_Ico, hw.valid.mem_spiders_iff]
    rcases h.new x hhas with hold | ⟨hle, -⟩
    · exact .inl hold
    · exact .inr ⟨hle, hlt⟩
  have hcard := (Finset.card_le_card hsub).trans (Finset.card_union_le _ _)
  rwa [Nat.card_Ico] at hcard

/-- The weight may grow by the spiders that are new and, unless it was inner, by one that becomes
    inner. -/
theorem weight_le : w'.weight ≤ w.weight + (w'.next - w.next) + 2 ∧
    (w.IsInner u → w'.weight ≤ w.weight + (w'.next - w.next)) := by
  have hspiders := h.card_spiders_le hw
  have hinner := Finset.card_le_card (h.inner_subset hw hw')
  have hinsert := Finset.card_insert_le u w.inner
  rw [weight, weight]
  refine ⟨by omega, fun hu => ?_⟩
  rw [Finset.insert_eq_self.2 (hw.valid.mem_inner_iff.2 hu)] at hinner
  omega

end Widens

/-- A spider with the phase moved off stays inner. -/
theorem InForm.widens_shiftPhase (hw : w.InForm) (hu : w.IsInner u) :
    Widens u w (w.shiftPhase u) ∧ (w.shiftPhase u).IsInner u ∧
      (w.shiftPhase u).next ≤ w.next + 2 := by
  by_cases hp : (w.phase u).isPauli
  · rw [Web.shiftPhase, if_pos hp]
    exact ⟨⟨.refl u w, hu.1, hu.1, fun x hx => .inl hx⟩, hu, Nat.le_add_right _ 2⟩
  obtain ⟨hform, hframe, -⟩ := hw.shiftPhase hu.1.1
  obtain ⟨hnear, hleaf, honly⟩ := hw.nearby_shiftPhase hu.1.1 hp
  have hsimple := hform.simple
  have hfields := moveCarrier_fields (((((w.addSpider .zero).addSpider (w.phase u)).setPhase u
    .zero).addEdges u w.next .hadamard 1).addEdges w.next (w.next + 1) .hadamard 1) u (w.next + 1)
  have hnext : (w.shiftPhase u).next = w.next + 2 := by
    rw [Web.shiftPhase, if_neg hp]
    exact hfields.1.trans rfl
  have hkind : (w.shiftPhase u).kind =
      update (update w.kind w.next (some .z)) (w.next + 1) (some .z) := by
    rw [Web.shiftPhase, if_neg hp]
    exact hfields.2.1.trans rfl
  have hun := hw.simple.valid.ne_next hu.1.1.has
  -- the leaf has one neighbour only, and the spider before it has the leaf beside it
  have hnotLeaf : ¬(w.shiftPhase u).IsHub (w.next + 1) := fun hub => by
    obtain ⟨x, hx, hne⟩ := hsimple.exists_other hub w.next
    exact hne (honly x hx)
  have hnotAxle : ¬(w.shiftPhase u).IsInner w.next := fun h => hnotLeaf (h.2 _ hleaf)
  have haxle : (w.shiftPhase u).IsHub w.next := by
    refine hsimple.isHub ?_ (hsimple.valid.mem_nearby_comm.1 ((hnear w.next).2 (.inr rfl))) hleaf
      (hw.simple.valid.ne_next_succ hu.1.1.has)
    rw [IsZ, hkind, update_of_ne (Nat.succ_ne_self _).symm, update_self]
  have hub : (w.shiftPhase u).IsHub u := by
    obtain ⟨x, hx, -⟩ := hw.simple.exists_other hu.1 u
    exact hsimple.isHub (hframe.isZ hu.1.1) ((hnear x).2 (.inl hx)) ((hnear w.next).2 (.inr rfl))
      (hw.simple.valid.ne_next (hw.simple.valid.has_of_mem_nearby hx))
  have hwidens : Widens u w (w.shiftPhase u) := by
    refine ⟨hframe, hu.1, hub, fun x hx => ?_⟩
    rw [Has, hkind, Function.update_apply, Function.update_apply] at hx
    split_ifs at hx with hl ha
    · subst hl
      exact .inr ⟨Nat.le_succ _, fun h => hnotLeaf h.1⟩
    · subst ha
      exact .inr ⟨Nat.le_refl _, hnotAxle⟩
    · exact .inl hx
  refine ⟨hwidens, ⟨hub, fun x hx => ?_⟩, hnext.le⟩
  rcases (hnear x).1 hx with hx | rfl
  · exact (hwidens.isHub_iff hw.simple hsimple (hu.2 x hx).1).2 (hu.2 x hx)
  · exact haxle

/-- A spider at the boundary becomes inner when the boundary is moved away. -/
theorem InForm.widens_shiftBoundaries (hw : w.InForm) (hu : w.AtBoundary u) (hv : w.IsZ v)
    (hj : u ∈ w.nearby v) : Widens u w (w.shiftBoundaries u) ∧ (w.shiftBoundaries u).IsInner u ∧
      (w.shiftBoundaries u).next = w.next + 1 := by
  obtain ⟨hz, hone, hothers⟩ := hu
  obtain ⟨t, ht⟩ := List.length_eq_one_iff.1 hone
  have hval := hw.simple.valid
  have hmem : t ∈ w.nearby u ∧ w.IsEnd t := by
    have : t ∈ w.ends u := by simp [ht]
    simpa [ends] using this
  have hne : u ≠ t := fun h => hz.not_isEnd (h ▸ hmem.2)
  obtain ⟨k, hk⟩ := Option.isSome_iff_exists.1 (link_isSome_iff.2 (hval.mem_nearby.1 hmem.1))
  have hsplit : w.shiftBoundaries u = w.split u t k := by
    rw [Web.shiftBoundaries, ht, List.foldl_cons, List.foldl_nil, Web.shiftBoundary, hk]
  obtain ⟨hform, hframe, -, -⟩ := hw.shiftBoundaries hz
  rw [hsplit] at hform hframe ⊢
  have hsimple := hform.simple
  have hnear {x : Vertex} := hval.mem_nearby_split (u := x) (k := k) hz.has hmem.2.has hne
    hsimple.valid
  have hjv := hval.mem_nearby_comm.1 hj
  have hvt : v ≠ t := fun h => hv.not_isEnd (h ▸ hmem.2)
  have hun := hval.ne_next hz.has
  have htn := hval.ne_next hmem.2.has
  -- the new spider is between the spider and the end of the wire
  have hend : t ∈ (w.split u t k).nearby w.next := by
    rw [hsimple.valid.mem_nearby, joins_pos_iff]
    refine ⟨k.opposite, ?_⟩
    rw [hval.count_split hz.has hmem.2.has hne, if_neg (by rw [SamePair]; tauto),
      if_neg (by rw [SamePair]; tauto), if_pos (.inl ⟨rfl, rfl⟩), if_pos rfl]
    exact Nat.one_pos
  have hnew : (w.split u t k).IsHub w.next :=
    hsimple.isHub (isZ_split.2 (.inr rfl)) (hsimple.valid.mem_nearby_comm.1 (hnear.2 (.inr rfl)))
      hend hne
  have hnotNew : ¬(w.split u t k).IsInner w.next := fun h =>
    (h.2 t hend).1.not_isEnd (hval.isEnd_split.2 hmem.2)
  have hwidens : Widens u w (w.split u t k) := by
    refine ⟨hframe, hw.simple.isHub hz hjv hmem.1 hvt, hsimple.isHub (hframe.isZ hz)
      (hnear.2 (.inl ⟨hjv, hvt⟩)) (hnear.2 (.inr rfl)) (hval.ne_next hv.has), fun x hx => ?_⟩
    rw [Has, kind_split, Function.update_apply] at hx
    split_ifs at hx with hx'
    · exact .inr ⟨hx'.ge, fun h => hnotNew (hx' ▸ h)⟩
    · exact .inl hx
  refine ⟨hwidens, ⟨hwidens.hub', fun x hx => ?_⟩, next_split⟩
  rcases hnear.1 hx with ⟨hx, hxt⟩ | rfl
  · have hub : w.IsHub x := (hothers x hx).resolve_left fun he => hxt (by
      have : x ∈ w.ends u := List.mem_filter.2 ⟨hx, decide_eq_true he⟩
      simpa [ht] using this)
    exact (hwidens.isHub_iff hw.simple hsimple hub.1).2 hub
  · exact hnew

/-- Every step makes the web lighter. A pivot takes six off, and moving off what is in the way adds
    at most five. -/
theorem Step.weight_lt (h : Step w w') (hw : w.InForm) : w'.weight < w.weight := by
  have hinner {u v : Vertex} {w₁ : Web} (h : Widens u w w₁) (hw₁ : w₁.Simple) (hv : w.IsInner v)
      (hne : v ≠ u) : w₁.IsInner v := (h.isInner_iff hw.simple hw₁ hv.1.1 hne).2 hv
  have hne {u v : Vertex} (hj : u ∈ w.nearby v) : v ≠ u := fun he =>
    hw.simple.valid.notMem_nearby_self (he ▸ hj)
  cases h with
  | localComplement hv _ => exact hw.weight_localComplement hv
  | pivot hv hu hj _ _ =>
    have := hw.weight_pivot hv hu hj
    omega
  | @pivotBoundary v u hv hu hj _ _ =>
    obtain ⟨hwidens, hu', hnext⟩ := hw.widens_shiftBoundaries hu hv.1.1 hj
    obtain ⟨hform, hframe, -⟩ := hw.shiftBoundaries hu.1
    have hle := (hwidens.weight_le hw.simple hform.simple).1
    have hpivot := hform.weight_pivot (hinner hwidens hform.simple hv (hne hj)) hu'
      ((hframe.nearby v hv.1.1 (hne hj)).symm ▸ hj)
    omega
  | @pivotGadget v u hv hu hj _ =>
    obtain ⟨hwidens, hu', hnext⟩ := hw.widens_shiftPhase hu
    obtain ⟨hform, hframe, -⟩ := hw.shiftPhase hu.1.1
    have hle := (hwidens.weight_le hw.simple hform.simple).2 hu
    have hpivot := hform.weight_pivot (hinner hwidens hform.simple hv (hne hj)) hu'
      ((hframe.nearby v hv.1.1 (hne hj)).symm ▸ hj)
    omega
  | @pivotBoundaryGadget v u hv hu hj _ =>
    obtain ⟨hwidens₁, hu₁, hnext₁⟩ := hw.widens_shiftBoundaries hu hv.1.1 hj
    obtain ⟨hform₁, hframe₁, -⟩ := hw.shiftBoundaries hu.1
    obtain ⟨hwidens, hu', hnext⟩ := hform₁.widens_shiftPhase hu₁
    obtain ⟨hform, hframe, -⟩ := hform₁.shiftPhase hu₁.1.1
    have hv₁ := hinner hwidens₁ hform₁.simple hv (hne hj)
    have hle₁ := (hwidens₁.weight_le hw.simple hform₁.simple).1
    have hle := (hwidens.weight_le hform₁.simple hform.simple).2 hu₁
    have hj' := hframe₁.nearby v hv.1.1 (hne hj)
    have hpivot := hform.weight_pivot
      ((hwidens.isInner_iff hform₁.simple hform.simple hv₁.1.1 (hne hj)).2 hv₁) hu'
      (((hframe.nearby v hv₁.1.1 (hne hj)).trans hj').symm ▸ hj)
    omega
  | identity h => exact hw.weight_fuse h
  | gadgetFusion h _ _ => exact hw.weight_fuseGadgets h

end Web

end ZXRewriting
