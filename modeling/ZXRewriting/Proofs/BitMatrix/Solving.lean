import Mathlib.Algebra.Field.ZMod
import Mathlib.Data.Fintype.Pi
import Mathlib.LinearAlgebra.Matrix.ToLin

/-!
# Rows that add up to a unit vector

Let the rows and the columns of a matrix over the field of two elements be labelled by two sets that
may overlap. If no sum of rows is zero, and none of columns, then every unit vector is a sum of rows
(`exists_solution`). If moreover each sum of rows has a one at some column that is no label of a row in
the sum (`Sums.odd`), then one of the unit vectors is a sum of rows that are not labels of columns
(`Sums.exists_unit`): else one could go from a column to a row in the sum for it and so on, and the sum
over a shortest cycle would have ones at labels of its own rows only.
-/

namespace ZXRewriting

variable {α : Type} [DecidableEq α]

/-- A relation in which everything has a successor covers some set exactly: each element there has
    just one predecessor in the set. -/
theorem exists_exact_cover {R : α → α → Prop} {s : Finset α} (hne : s.Nonempty)
    (hs : ∀ v ∈ s, ∃ u ∈ s, R v u) : ∃ c ⊆ s, c.Nonempty ∧ ∀ u ∈ c, ∃! v, v ∈ c ∧ R v u := by
  -- a smallest set in which everything has a successor
  obtain ⟨c, ⟨hsub, hne, hc⟩, hmin⟩ : ∃ c : Finset α, (c ⊆ s ∧ c.Nonempty ∧ ∀ v ∈ c, ∃ u ∈ c, R v u) ∧
      ∀ d : Finset α, (d ⊆ s ∧ d.Nonempty ∧ ∀ v ∈ d, ∃ u ∈ d, R v u) → c.card ≤ d.card := by
    classical
    obtain ⟨c, hc, hmin⟩ := Finset.exists_min_image
      (s.powerset.filter fun c => c.Nonempty ∧ ∀ v ∈ c, ∃ u ∈ c, R v u) Finset.card
      ⟨s, by simpa using ⟨hne, hs⟩⟩
    simp only [Finset.mem_filter, Finset.mem_powerset] at hc hmin
    exact ⟨c, hc, hmin⟩
  -- choosing successors is a bijection of it
  have hbij {f : α → α} (hf : ∀ v ∈ c, f v ∈ c ∧ R v (f v)) :
      c.image f = c ∧ Set.InjOn f c := by
    have himage : c.image f ⊆ c := Finset.image_subset_iff.2 fun v hv => (hf v hv).1
    have hle := hmin (c.image f) ⟨himage.trans hsub, hne.image f, fun v hv =>
      ⟨f v, Finset.mem_image_of_mem f (himage hv), (hf v (himage hv)).2⟩⟩
    have heq := Finset.eq_of_subset_of_card_le himage hle
    exact ⟨heq, Finset.card_image_iff.1 (congrArg Finset.card heq)⟩
  choose! f hf using hc
  refine ⟨c, hsub, hne, fun u hu => ?_⟩
  obtain ⟨v, hv, rfl⟩ := Finset.mem_image.1 ((hbij hf).1.symm ▸ hu)
  refine ⟨v, ⟨hv, (hf v hv).2⟩, fun v' ⟨hv', hr⟩ => ?_⟩
  -- another predecessor could choose the same successor
  have hf' : ∀ x ∈ c, Function.update f v' (f v) x ∈ c ∧ R x (Function.update f v' (f v) x) := by
    intro x hx
    rw [Function.update_apply]
    split
    · next hxv => exact ⟨hu, hxv ▸ hr⟩
    · exact hf x hx
  by_contra hne'
  refine hne' ((hbij hf').2 hv' hv ?_)
  rw [Function.update_self, Function.update_of_ne (Ne.symm hne')]

variable {rows columns : Finset α} {a : α → α → ZMod 2}

/-- A matrix without sums of rows or of columns that are zero, a sum of rows having a one at a column
    which is no label of a row in it. -/
structure Sums (rows columns : Finset α) (a : α → α → ZMod 2) : Prop where
  odd : ∀ c : α → ZMod 2, (∃ u ∈ rows, c u ≠ 0) →
    ∃ v ∈ columns, (v ∈ rows → c v = 0) ∧ ∑ u ∈ rows, c u * a u v ≠ 0
  column : ∀ c : α → ZMod 2, (∃ v ∈ columns, c v ≠ 0) → ∃ u ∈ rows, ∑ v ∈ columns, c v * a u v ≠ 0

/-- Coefficients for the elements of a set, with zeros elsewhere. -/
def extend {s : Finset α} (c : s → ZMod 2) (u : α) : ZMod 2 := if h : u ∈ s then c ⟨u, h⟩ else 0

theorem extend_apply {s : Finset α} (c : s → ZMod 2) (u : s) : extend c u = c u := dif_pos u.2

theorem sum_extend_mul {s : Finset α} (c : s → ZMod 2) (f : α → ZMod 2) :
    ∑ u ∈ s, extend c u * f u = ∑ u : s, c u * f u := by
  rw [← Finset.sum_coe_sort s]
  exact Finset.sum_congr rfl fun u _ => by rw [extend_apply]

namespace Sums

variable (h : Sums rows columns a)
include h

/-- Every unit vector is a sum of rows. -/
theorem exists_solution {v : α} (hv : v ∈ columns) : ∃ c : α → ZMod 2,
    ∀ v' ∈ columns, ∑ u ∈ rows, c u * a u v' = if v' = v then 1 else 0 := by
  set m : Matrix rows columns (ZMod 2) := Matrix.of fun u v => a u v with hm
  have hrow : Function.Injective fun c : rows → ZMod 2 => Matrix.vecMul c m := by
    refine (injective_iff_map_eq_zero m.vecMulLinear).2 fun c hc => ?_
    by_contra hne
    obtain ⟨u, hu⟩ := Function.ne_iff.1 hne
    obtain ⟨v, hv, -, hsum⟩ := h.odd (extend c) ⟨u, u.2, by rwa [extend_apply]⟩
    exact hsum ((sum_extend_mul c fun u => a u v).trans (congrFun hc ⟨v, hv⟩))
  have hcolumn : Function.Injective fun c : columns → ZMod 2 => Matrix.mulVec m c := by
    refine (injective_iff_map_eq_zero m.mulVecLin).2 fun c hc => ?_
    by_contra hne
    obtain ⟨v, hv⟩ := Function.ne_iff.1 hne
    obtain ⟨u, hu, hsum⟩ := h.column (extend c) ⟨v, v.2, by rwa [extend_apply]⟩
    refine hsum ((sum_extend_mul c fun v => a u v).trans ?_)
    refine (Finset.sum_congr rfl fun v _ => mul_comm _ _).trans (congrFun hc ⟨u, hu⟩)
  have hcard : Fintype.card (rows → ZMod 2) = Fintype.card (columns → ZMod 2) :=
    Nat.le_antisymm (Fintype.card_le_of_injective _ hrow) (Fintype.card_le_of_injective _ hcolumn)
  obtain ⟨c, hc⟩ := ((Fintype.bijective_iff_injective_and_card _).2 ⟨hrow, hcard⟩).2
    (Pi.single ⟨v, hv⟩ 1)
  refine ⟨extend c, fun v' hv' => ?_⟩
  rw [sum_extend_mul c fun u => a u v']
  refine (congrFun hc ⟨v', hv'⟩).trans ?_
  rw [Pi.single_apply]
  exact if_congr Subtype.mk_eq_mk rfl rfl

/-- Some unit vector is a sum of rows that are no labels of columns. -/
theorem exists_unit (hne : columns.Nonempty) : ∃ v ∈ columns, ∃ c : α → ZMod 2,
    (∀ u ∈ rows, u ∈ columns → c u = 0) ∧
      ∀ v' ∈ columns, ∑ u ∈ rows, c u * a u v' = if v' = v then 1 else 0 := by
  have hsolve : ∀ v ∈ columns, ∃ c : α → ZMod 2,
      ∀ v' ∈ columns, ∑ u ∈ rows, c u * a u v' = if v' = v then 1 else 0 :=
    fun v hv => h.exists_solution hv
  choose! c hc using hsolve
  by_contra hall
  have hnext : ∀ v ∈ columns, ∃ u ∈ columns, u ∈ rows ∧ c v u ≠ 0 := fun v hv => by
    by_contra hno
    push Not at hno
    exact hall ⟨v, hv, c v, fun u hu hu' => hno u hu' hu, hc v hv⟩
  obtain ⟨s, hsub, ⟨u, hu⟩, hs⟩ := exists_exact_cover hne hnext
  -- the sum of the solutions for such a set
  have hone : ∀ u ∈ s, u ∈ rows ∧ ∑ v ∈ s, c v u ≠ 0 := fun u hu => by
    obtain ⟨v, ⟨hv, hrow, hcu⟩, hunique⟩ := hs u hu
    refine ⟨hrow, ?_⟩
    rw [Finset.sum_eq_single_of_mem v hv fun v' hv' hne' => ?_]
    · exact hcu
    · by_contra hcu'
      exact hne' (hunique v' ⟨hv', hrow, hcu'⟩)
  obtain ⟨v, hv, hzero, hsum⟩ := h.odd (fun u => ∑ v ∈ s, c v u) ⟨u, hone u hu⟩
  have hunit : ∑ u ∈ rows, (∑ v' ∈ s, c v' u) * a u v = if v ∈ s then 1 else 0 := by
    simp only [Finset.sum_mul]
    rw [Finset.sum_comm, Finset.sum_congr rfl fun v' hv' => hc v' (hsub hv') v hv, Finset.sum_ite_eq]
  rw [hunit, ite_ne_right_iff] at hsum
  exact (hone v hsum.1).2 (hzero (hone v hsum.1).1)

end Sums

end ZXRewriting
