import Mathlib.LinearAlgebra.Matrix.Rank
import Mathlib.LinearAlgebra.Matrix.Transvection
import ZXRewriting.Proofs.BitMatrix.Elimination

/-!
# Echelon forms

A matrix is in row echelon form when each row begins further right than the one above it
(`IsEchelon`), and in reduced form when no other row has an entry in the column where a row begins
(`IsReducedEchelon`). The rank is the number of rows that are not zero (`IsEchelon.rank_eq`), and a
reduced matrix is told by its rows' sums (`IsReducedEchelon.eq_of_rowSpace_eq`).

Elimination comes to such a form, by additions of rows that are an invertible matrix from the left
(`Elimination.run_echelon`).
-/

namespace ZXRewriting

variable {h w : ℕ} {M A B : Matrix (Fin h) (Fin w) (ZMod 2)} {v : Fin w → ZMod 2} {c d : Fin w}
  {i j : Fin h}

/-- Whether the first entry of a row is in the column `c`. -/
def Begins (v : Fin w → ZMod 2) (c : Fin w) : Prop := v c ≠ 0 ∧ ∀ d < c, v d = 0

/-- Row echelon form: rows of zeros come last, and each other row begins further right than the ones
    above. -/
structure IsEchelon (M : Matrix (Fin h) (Fin w) (ZMod 2)) : Prop where
  zeros_last : ∀ i j, i < j → M i = 0 → M j = 0
  begins_lt : ∀ i j c d, i < j → Begins (M i) c → Begins (M j) d → c < d

/-- Reduced row echelon form: where a row begins the other rows are zero. -/
structure IsReducedEchelon (M : Matrix (Fin h) (Fin w) (ZMod 2)) : Prop extends IsEchelon M where
  alone : ∀ i c, Begins (M i) c → ∀ k, k ≠ i → M k c = 0

/-- The sums of the rows of a matrix. -/
def rowSpace (M : Matrix (Fin h) (Fin w) (ZMod 2)) : Submodule (ZMod 2) (Fin w → ZMod 2) :=
  Submodule.span (ZMod 2) (Set.range M.row)

theorem mem_rowSpace (M : Matrix (Fin h) (Fin w) (ZMod 2)) (i : Fin h) : M i ∈ rowSpace M :=
  Submodule.subset_span ⟨i, rfl⟩

/-! ### Where rows begin -/

theorem exists_begins (hv : v ≠ 0) : ∃ c, Begins v c := by
  obtain ⟨c, hc, hmin⟩ := (Finset.univ.filter (v · ≠ 0)).exists_minimal (by
    obtain ⟨c, hc⟩ := Function.ne_iff.1 hv
    exact ⟨c, by simpa using hc⟩)
  refine ⟨c, by simpa using hc, fun d hd => ?_⟩
  by_contra hne
  exact hd.not_ge (hmin (by simpa using hne) hd.le)

theorem Begins.ne_zero (hc : Begins v c) : v ≠ 0 := fun hv => hc.1 (congrFun hv c)

theorem Begins.unique (hc : Begins v c) (hd : Begins v d) : c = d := by
  rcases lt_trichotomy c d with h | h | h
  · exact absurd (hd.2 c h) hc.1
  · exact h
  · exact absurd (hc.2 d h) hd.1

theorem Begins.eq_one (hc : Begins v c) : v c = 1 := Elimination.eq_one_of_ne_zero hc.1

/-- Below a row the column where it begins is zero. -/
theorem IsEchelon.eq_zero_below (hM : IsEchelon M) (hij : i < j) (hc : Begins (M i) c) :
    M j c = 0 := by
  by_contra hne
  obtain ⟨d, hd⟩ := exists_begins (v := M j) fun h0 => hne (congrFun h0 c)
  exact hne (hd.2 c (hM.begins_lt i j c d hij hc hd))

/-! ### Rank -/

/-- The rows that are not zero are independent: the first one in a sum shows where it begins. -/
theorem IsEchelon.linearIndependent (hM : IsEchelon M) :
    LinearIndependent (ZMod 2) fun i : {i // M i ≠ 0} => M i := by
  have := Fintype.ofFinite {i // M i ≠ 0}
  rw [Fintype.linearIndependent_iff]
  intro a hsum i
  induction i using WellFoundedLT.induction with
  | ind i ih =>
    obtain ⟨c, hc⟩ := exists_begins i.2
    have hcolumn := congrFun hsum c
    rw [Finset.sum_apply, Finset.sum_eq_single i (fun j _ hji => ?_) fun h => absurd (Finset.mem_univ i) h]
      at hcolumn
    · exact (mul_eq_zero.1 hcolumn).resolve_right hc.1
    · rcases lt_or_gt_of_ne hji with hlt | hgt
      · rw [ih j hlt, zero_smul, Pi.zero_apply]
      · rw [Pi.smul_apply, hM.eq_zero_below hgt hc, smul_zero]

/-- The rank of an echelon form is the number of its rows that are not zero. -/
theorem IsEchelon.rank_eq (hM : IsEchelon M) : M.rank = Nat.card {i // M i ≠ 0} := by
  have := Fintype.ofFinite {i // M i ≠ 0}
  have hspan : Submodule.span (ZMod 2) (Set.range M.row) =
      Submodule.span (ZMod 2) (Set.range fun i : {i // M i ≠ 0} => M i) := by
    refine le_antisymm (Submodule.span_le.2 ?_) (Submodule.span_mono ?_)
    · rintro _ ⟨i, rfl⟩
      by_cases hi : M i = 0
      · rw [Matrix.row, hi]
        exact Submodule.zero_mem _
      · exact Submodule.subset_span ⟨⟨i, hi⟩, rfl⟩
    · rintro _ ⟨i, rfl⟩
      exact ⟨i, rfl⟩
  rw [Matrix.rank_eq_finrank_span_row, hspan, finrank_span_eq_card hM.linearIndependent,
    Nat.card_eq_fintype_card]

/-! ### Uniqueness -/

/-- In the column where a row begins, a sum of rows shows whether that row is in it. -/
theorem IsReducedEchelon.sum_apply (hM : IsReducedEchelon M) (a : Fin h → ZMod 2)
    (hc : Begins (M i) c) : (∑ k, a k • M k) c = a i := by
  rw [Finset.sum_apply, Finset.sum_eq_single i (fun k _ hk => ?_) fun h => absurd (Finset.mem_univ i) h]
  · rw [Pi.smul_apply, hc.eq_one, smul_eq_mul, mul_one]
  · rw [Pi.smul_apply, hM.alone i c hc k hk, smul_zero]

/-- A sum of rows begins where some row does. -/
theorem IsReducedEchelon.exists_begins_of_mem (hM : IsReducedEchelon M) (hv : v ∈ rowSpace M)
    (hc : Begins v c) : ∃ i, Begins (M i) c := by
  obtain ⟨a, rfl⟩ := (Submodule.mem_span_range_iff_exists_fun _).1 hv
  obtain ⟨i, -, hi⟩ := Finset.exists_ne_zero_of_sum_ne_zero (by simpa using hc.1)
  obtain ⟨hai, hMi⟩ := mul_ne_zero_iff.1 hi
  obtain ⟨d, hd⟩ := exists_begins (v := M i) fun h0 => hMi (congrFun h0 c)
  refine ⟨i, ?_⟩
  rcases lt_trichotomy d c with hlt | rfl | hgt
  · exact absurd ((hM.sum_apply a hd).symm.trans (hc.2 d hlt)) hai
  · exact hd
  · exact absurd (hd.2 c hgt) hMi

/-- A sum of rows that is zero where rows begin is zero. -/
theorem IsReducedEchelon.eq_zero_of_mem (hM : IsReducedEchelon M) (hv : v ∈ rowSpace M)
    (hzero : ∀ i c, Begins (M i) c → v c = 0) : v = 0 := by
  by_contra hne
  obtain ⟨c, hc⟩ := exists_begins hne
  obtain ⟨i, hi⟩ := hM.exists_begins_of_mem hv hc
  exact hc.1 (hzero i c hi)

section

variable (hA : IsReducedEchelon A) (hB : IsReducedEchelon B) (hAB : rowSpace A = rowSpace B)
include hA hB hAB

/-- Rows that begin in the same column are the same. -/
theorem IsReducedEchelon.row_eq (hi : Begins (A i) c) (hj : Begins (B j) c) : A i = B j := by
  have hmem : A i - B j ∈ rowSpace A :=
    Submodule.sub_mem _ (mem_rowSpace A i) (hAB ▸ mem_rowSpace B j)
  refine sub_eq_zero.1 (hA.eq_zero_of_mem hmem fun k d hk => ?_)
  obtain ⟨l, hl⟩ := hB.exists_begins_of_mem (hAB ▸ mem_rowSpace A k) hk
  rw [Pi.sub_apply]
  by_cases hcd : c = d
  · rw [← hcd, hi.eq_one, hj.eq_one, sub_self]
  · have hik : i ≠ k := by
      rintro rfl
      exact hcd (hi.unique hk)
    have hjl : j ≠ l := by
      rintro rfl
      exact hcd (hj.unique hl)
    rw [hA.alone k d hk i hik, hB.alone l d hl j hjl, sub_self]

/-- As many rows come before the one that begins in a column. -/
theorem IsReducedEchelon.index_le (hi : Begins (A i) c) (hj : Begins (B j) c) : j ≤ i := by
  have : Nonempty (Fin w) := ⟨c⟩
  have : Nonempty (Fin h) := ⟨i⟩
  have hbefore : ∀ k ∈ Finset.Iio j, ∃ d, ∃ l ∈ Finset.Iio i, Begins (A l) d ∧ Begins (B k) d := by
    intro k hk
    have hkj := Finset.mem_Iio.1 hk
    obtain ⟨d, hd⟩ := exists_begins (v := B k) fun h0 => hj.ne_zero (hB.zeros_last k j hkj h0)
    obtain ⟨l, hl⟩ := hA.exists_begins_of_mem (hAB ▸ mem_rowSpace B k) hd
    have hdc := hB.begins_lt k j d c hkj hd hj
    refine ⟨d, l, Finset.mem_Iio.2 ?_, hl, hd⟩
    rcases lt_trichotomy l i with hlt | rfl | hgt
    · exact hlt
    · exact absurd (hl.unique hi) hdc.ne
    · exact absurd (hA.begins_lt i l c d hgt hi hl) hdc.not_gt
  choose! d f hf hfd hkd using hbefore
  have hinj : Set.InjOn f (Finset.Iio j) := fun k hk l hl hkl => by
    have hd : d k = d l := (hfd k hk).unique (hkl ▸ hfd l hl)
    rcases lt_trichotomy k l with hlt | heq | hgt
    · exact absurd hd (hB.begins_lt k l _ _ hlt (hkd k hk) (hkd l hl)).ne
    · exact heq
    · exact absurd hd (hB.begins_lt l k _ _ hgt (hkd l hl) (hkd k hk)).ne'
  have hcard := Finset.card_le_card_of_injOn f hf hinj
  rwa [Fin.card_Iio, Fin.card_Iio] at hcard

/-- A row of zeros is one in both forms. -/
theorem IsReducedEchelon.eq_zero_of_eq_zero (hi : A i = 0) : B i = 0 := by
  by_contra hne
  obtain ⟨c, hc⟩ := exists_begins hne
  obtain ⟨k, hk⟩ := hA.exists_begins_of_mem (hAB ▸ mem_rowSpace B i) hc
  have hik : i = k := le_antisymm (hA.index_le hB hAB hk hc) (hB.index_le hA hAB.symm hc hk)
  exact hk.ne_zero (hik ▸ hi)

/-- The reduced form is told by the sums of rows. -/
theorem IsReducedEchelon.eq_of_rowSpace_eq : A = B := by
  funext i
  by_cases hi : A i = 0
  · rw [hi, hA.eq_zero_of_eq_zero hB hAB hi]
  · obtain ⟨c, hc⟩ := exists_begins hi
    obtain ⟨k, hk⟩ := hB.exists_begins_of_mem (hAB ▸ mem_rowSpace A i) hc
    have hik : i = k := le_antisymm (hB.index_le hA hAB.symm hk hc) (hA.index_le hB hAB hc hk)
    subst hik
    exact hA.row_eq hB hAB hc hk

end

/-! ### Additions as matrices -/

/-- The rows and columns of a function of two places. -/
def block (h w : ℕ) (f : ℕ → ℕ → ZMod 2) : Matrix (Fin h) (Fin w) (ZMod 2) :=
  Matrix.of fun i j => f i j

/-- The entries of a matrix in the field of two elements. -/
def BitMatrix.toMatrix (m : BitMatrix) (h w : ℕ) : Matrix (Fin h) (Fin w) (ZMod 2) := block h w m.value

namespace RowAddition

variable {l : List RowAddition} {a : RowAddition}

/-- An addition of two different rows is an invertible matrix from the left. -/
theorem exists_transvection (ha : a.Within h) : ∃ g : Matrix (Fin h) (Fin h) (ZMod 2), IsUnit g ∧
    ∀ w f, block h w (addTo f a) = g * block h w f := by
  obtain ⟨hs, ht, hne⟩ := ha
  set s : Fin h := ⟨a.source, hs⟩
  set t : Fin h := ⟨a.target, ht⟩
  have hts : t ≠ s := fun e => hne (Fin.mk.inj e).symm
  refine ⟨Matrix.transvection t s 1, ?_, fun w f => ?_⟩
  · rw [Matrix.isUnit_iff_isUnit_det, Matrix.det_transvection_of_ne t s hts]
    exact isUnit_one
  · ext i j
    by_cases hi : i = t
    · subst hi
      rw [Matrix.transvection_mul_apply_same, one_mul]
      simp [block, addTo, t, s]
    · rw [Matrix.transvection_mul_apply_of_ne _ _ _ _ hi]
      have hne' : (i : ℕ) ≠ a.target := fun e => hi (Fin.ext e)
      simp [block, addTo, hne']

/-- Additions in a row are one invertible matrix from the left, whatever they are made to. -/
theorem exists_matrix (hl : ∀ a ∈ l, a.Within h) : ∃ g : Matrix (Fin h) (Fin h) (ZMod 2), IsUnit g ∧
    ∀ w f, block h w (l.foldl addTo f) = g * block h w f := by
  induction l with
  | nil => exact ⟨1, isUnit_one, fun w f => (Matrix.one_mul _).symm⟩
  | cons a rest ih =>
    obtain ⟨g₁, hg₁, hv₁⟩ := exists_transvection (hl a List.mem_cons_self)
    obtain ⟨g₂, hg₂, hv₂⟩ := ih fun b hb => hl b (List.mem_cons_of_mem a hb)
    refine ⟨g₂ * g₁, hg₂.mul hg₁, fun w f => ?_⟩
    rw [List.foldl_cons, hv₂, hv₁, Matrix.mul_assoc]

end RowAddition

/-- An invertible matrix from the left keeps the sums of rows. -/
theorem rowSpace_mul {g : Matrix (Fin h) (Fin h) (ZMod 2)} (hg : IsUnit g) :
    rowSpace (g * M) = rowSpace M := by
  have hle {g : Matrix (Fin h) (Fin h) (ZMod 2)} {M : Matrix (Fin h) (Fin w) (ZMod 2)} :
      rowSpace (g * M) ≤ rowSpace M := by
    refine Submodule.span_le.2 ?_
    rintro _ ⟨i, rfl⟩
    rw [rowSpace, ← range_vecMulLinear]
    exact ⟨g i, (Matrix.mul_apply_eq_vecMul g M i).symm⟩
  obtain ⟨⟨g, g', hgg', hg'g⟩, rfl⟩ := hg
  refine le_antisymm hle ?_
  calc rowSpace M = rowSpace (g' * (g * M)) := by rw [← Matrix.mul_assoc, hg'g, Matrix.one_mul]
    _ ≤ rowSpace (g * M) := hle

/-! ### Elimination -/

namespace Elimination

variable {full : Bool} {m : BitMatrix} {e : Elimination}

theorem Staircase.exists_begins (he : Staircase full m h w w e) {i : Fin h}
    (hi : (i : ℕ) < e.pivots) : ∃ c, Begins (e.matrix.toMatrix h w i) c ∧
      (∀ k, i < k → ∀ d ≤ c, e.matrix.toMatrix h w k d = 0) ∧
      (full → ∀ k < i, e.matrix.toMatrix h w k c = 0) := by
  obtain ⟨p, hpw, hone, hbefore, hbelow, habove⟩ := he.pivot i hi
  refine ⟨⟨p, hpw⟩, ⟨?_, fun d hd => hbefore d hd⟩, fun k hik d hd => hbelow k hik k.2 d hd,
    fun hfull k hki => habove hfull k hki⟩
  change e.matrix.value i p ≠ 0
  rw [hone]
  exact one_ne_zero

theorem Staircase.eq_zero (he : Staircase full m h w w e) {i : Fin h} (hi : e.pivots ≤ i) :
    e.matrix.toMatrix h w i = 0 := funext fun d => he.rest i hi i.2 d d.2

theorem Staircase.ne_zero_iff (he : Staircase full m h w w e) {i : Fin h} :
    e.matrix.toMatrix h w i ≠ 0 ↔ (i : ℕ) < e.pivots := by
  refine ⟨fun hne => Nat.lt_of_not_le fun hle => hne (he.eq_zero hle), fun hi => ?_⟩
  obtain ⟨c, hc, -⟩ := he.exists_begins hi
  exact hc.ne_zero

/-- Elimination ends in row echelon form. -/
theorem Staircase.isEchelon (he : Staircase full m h w w e) :
    IsEchelon (e.matrix.toMatrix h w) where
  zeros_last i j hij hi := by
    by_contra hj
    exact he.ne_zero_iff.2 (lt_trans hij (he.ne_zero_iff.1 hj)) hi
  begins_lt i j c d hij hc hd := by
    obtain ⟨p, hp, hbelow, -⟩ := he.exists_begins (he.ne_zero_iff.1 hc.ne_zero)
    rw [hc.unique hp]
    exact lt_of_not_ge fun hdp => hd.1 (hbelow j hij d hdp)

/-- A full elimination ends in reduced form. -/
theorem Staircase.isReducedEchelon (he : Staircase true m h w w e) :
    IsReducedEchelon (e.matrix.toMatrix h w) where
  toIsEchelon := he.isEchelon
  alone i c hc k hki := by
    obtain ⟨p, hp, hbelow, habove⟩ := he.exists_begins (he.ne_zero_iff.1 hc.ne_zero)
    rw [hc.unique hp]
    rcases lt_or_gt_of_ne hki with hlt | hgt
    · exact habove rfl k hlt
    · exact hbelow k hgt p le_rfl

/-- The pivots are counted by the rows that are not zero, and so by the rank. -/
theorem Staircase.rank_eq (he : Staircase full m h w w e) :
    (e.matrix.toMatrix h w).rank = e.pivots := by
  have hlt (k : Fin e.pivots) : (k : ℕ) < h := k.2.trans_le he.pivots_le
  let rows : {i // e.matrix.toMatrix h w i ≠ 0} ≃ Fin e.pivots :=
    { toFun := fun i => ⟨i, he.ne_zero_iff.1 i.2⟩
      invFun := fun k => ⟨⟨k, hlt k⟩, he.ne_zero_iff.2 k.2⟩
      left_inv := fun _ => rfl
      right_inv := fun _ => rfl }
  rw [he.isEchelon.rank_eq, Nat.card_congr rows, Nat.card_fin]

/-- The additions of an elimination are an invertible matrix from the left, also when they are made
    to another matrix of as many rows. -/
theorem Derived.exists_matrix (hm : m.Rect h w) (he : Derived m h w e) :
    ∃ g : Matrix (Fin h) (Fin h) (ZMod 2), IsUnit g ∧
      e.matrix.toMatrix h w = g * m.toMatrix h w ∧
      ∀ x n, x.Rect h n → ∃ x', RowAddition.applyAll e.additions x = .ok x' ∧ x'.Rect h n ∧
        x'.toMatrix h n = g * x.toMatrix h n := by
  obtain ⟨g, hg, hv⟩ := RowAddition.exists_matrix he.within
  have hmade : ∀ x n, x.Rect h n → ∃ x', RowAddition.applyAll e.additions x = .ok x' ∧
      x'.Rect h n ∧ x'.toMatrix h n = g * x.toMatrix h n := fun x n hx => by
    obtain ⟨x', hok, hx', hvalue⟩ := RowAddition.exists_applyAll hx fun a ha =>
      ⟨(he.within a ha).1, (he.within a ha).2.1⟩
    refine ⟨x', hok, hx', ?_⟩
    rw [BitMatrix.toMatrix, hvalue]
    exact hv n x.value
  obtain ⟨m', hok, -, hmul⟩ := hmade m w hm
  obtain rfl := Except.ok.inj (hok.symm.trans he.made)
  exact ⟨g, hg, hmul, hmade⟩

/-- A matrix of zeros and ones is told by its entries in the field. -/
theorem eq_of_toMatrix_eq {m' : BitMatrix} (hm : m.Rect h w) (hm' : m'.Rect h w)
    (heq : m.toMatrix h w = m'.toMatrix h w) : m = m' :=
  hm.ext hm' fun i hi j hj => congrFun (congrFun heq ⟨i, hi⟩) ⟨j, hj⟩

/-- Elimination succeeds on every rectangular matrix of zeros and ones, full or not. It counts the
    rank, and comes to a matrix in row echelon form, reduced if it is full, with the same sums of
    rows. The additions it lists are those it made: as one invertible matrix from the left they take
    the matrix to its echelon form, and any other matrix of as many rows along with it. The rank is
    the same both ways, and the reduced form is told by the sums of rows. -/
theorem run_echelon (hm : m.Rect h w) (full : Bool) : ∃ e, run full m = .ok e ∧
    e.matrix.Rect h w ∧ e.pivots = (m.toMatrix h w).rank ∧
    m.rank = .ok (m.toMatrix h w).rank ∧
    IsEchelon (e.matrix.toMatrix h w) ∧ (full → IsReducedEchelon (e.matrix.toMatrix h w)) ∧
    rowSpace (e.matrix.toMatrix h w) = rowSpace (m.toMatrix h w) ∧
    RowAddition.applyAll e.additions m = .ok e.matrix ∧
    (∃ g : Matrix (Fin h) (Fin h) (ZMod 2), IsUnit g ∧
      e.matrix.toMatrix h w = g * m.toMatrix h w ∧
      ∀ x n, x.Rect h n → ∃ x', RowAddition.applyAll e.additions x = .ok x' ∧ x'.Rect h n ∧
        x'.toMatrix h n = g * x.toMatrix h n) ∧
    (full → ∀ m₂, m₂.Rect h w → rowSpace (m₂.toMatrix h w) = rowSpace (m.toMatrix h w) →
      ∃ e₂, run full m₂ = .ok e₂ ∧ e₂.matrix = e.matrix) := by
  have hkept {full : Bool} {m : BitMatrix} {e : Elimination} (hm : m.Rect h w)
      (he : Staircase full m h w w e) : e.pivots = (m.toMatrix h w).rank ∧
        rowSpace (e.matrix.toMatrix h w) = rowSpace (m.toMatrix h w) := by
    obtain ⟨g, hg, hmul, -⟩ := he.exists_matrix hm
    refine ⟨?_, by rw [hmul, rowSpace_mul hg]⟩
    rw [← he.rank_eq, hmul, Matrix.rank_mul_eq_right_of_isUnit_det g _
      ((Matrix.isUnit_iff_isUnit_det g).1 hg)]
  obtain ⟨e, hok, he⟩ := exists_staircase full hm
  obtain ⟨hrank, hspace⟩ := hkept hm he
  refine ⟨e, hok, he.rect, hrank, ?_, he.isEchelon, ?_, hspace, he.made, he.exists_matrix hm,
    ?_⟩
  · obtain ⟨e', hok', he'⟩ := exists_staircase false hm
    rw [BitMatrix.rank, hok', ← (hkept hm he').1]
    rfl
  · rintro rfl
    exact he.isReducedEchelon
  · rintro rfl m₂ hm₂ hsame
    obtain ⟨e₂, hok₂, he₂⟩ := exists_staircase true hm₂
    have hspaces := ((hkept hm₂ he₂).2.trans hsame).trans hspace.symm
    exact ⟨e₂, hok₂, eq_of_toMatrix_eq he₂.rect he.rect
      (he₂.isReducedEchelon.eq_of_rowSpace_eq he.isReducedEchelon hspaces)⟩

/-- More rows than the rank, with a column of zeros in front and the first one not in the first row. -/
def deficient : BitMatrix := ⟨[[0, 0, 0, 1], [0, 1, 1, 0], [0, 1, 1, 1], [0, 1, 1, 0]]⟩

theorem deficient_echelon : deficient.Rect 4 4 ∧ ∃ e, run true deficient = .ok e ∧
    e.pivots = (deficient.toMatrix 4 4).rank ∧ IsReducedEchelon (e.matrix.toMatrix 4 4) ∧
    rowSpace (e.matrix.toMatrix 4 4) = rowSpace (deficient.toMatrix 4 4) ∧
    ∃ g : Matrix (Fin 4) (Fin 4) (ZMod 2), IsUnit g ∧
      e.matrix.toMatrix 4 4 = g * deficient.toMatrix 4 4 := by
  have hm : deficient.Rect 4 4 := ⟨rfl, by decide, by decide⟩
  obtain ⟨e, hok, -, hrank, -, -, hreduced, hspace, -, ⟨g, hg, hmul, -⟩, -⟩ := run_echelon hm true
  exact ⟨hm, e, hok, hrank, hreduced rfl, hspace, g, hg, hmul⟩

end Elimination

end ZXRewriting
