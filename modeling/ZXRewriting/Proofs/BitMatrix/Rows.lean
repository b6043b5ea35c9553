import Mathlib.Algebra.BigOperators.Ring.Finset
import Mathlib.Algebra.CharP.Two
import Mathlib.Algebra.Field.ZMod
import Mathlib.Algebra.Module.Pi
import Mathlib.LinearAlgebra.Span.Basic
import ZXRewriting.BitMatrix.Elimination
import ZXRewriting.Proofs.Outcome

/-!
# Rows over the field of two elements

A rectangular matrix of zeros and ones (`BitMatrix.Rect`) has entries in the field of two elements
(`BitMatrix.value`), and adding one row to another adds their entries there. So the rows that come
of row additions span what the rows did before.
-/

namespace ZXRewriting

/-! ### Rows of bits -/

theorem cast_xor {x y : ℕ} (hx : x ≤ 1) (hy : y ≤ 1) :
    ((y ^^^ x : ℕ) : ZMod 2) = y + x ∧ y ^^^ x ≤ 1 := by
  obtain rfl | rfl := Nat.le_one_iff_eq_zero_or_eq_one.1 hx <;>
    obtain rfl | rfl := Nat.le_one_iff_eq_zero_or_eq_one.1 hy <;> decide

theorem cast_eq_zero_iff {x : ℕ} (hx : x ≤ 1) : (x : ZMod 2) = 0 ↔ x = 0 := by
  obtain rfl | rfl := Nat.le_one_iff_eq_zero_or_eq_one.1 hx <;> decide

namespace BitMatrix

variable {m m' : BitMatrix} {h w i j s t : ℕ}

/-- The entry of a row in a column, zero past its end. -/
def bitAt (r : List ℕ) (j : ℕ) : ZMod 2 := (r[j]?.getD 0 : ℕ)

/-- The entry of a matrix in the field of two elements, zero outside. -/
def value (m : BitMatrix) (i j : ℕ) : ZMod 2 := bitAt (m.rows[i]?.getD []) j

/-- A matrix of `h` rows of `w` zeros and ones. -/
structure Rect (m : BitMatrix) (h w : ℕ) : Prop where
  height : m.rows.length = h
  length : ∀ r ∈ m.rows, r.length = w
  bits : ∀ r ∈ m.rows, ∀ x ∈ r, x ≤ 1

theorem bitAt_addOnto {xs ys : List ℕ} (hx : ∀ x ∈ xs, x ≤ 1) (hy : ∀ y ∈ ys, y ≤ 1)
    (hlen : xs.length = ys.length) (j : ℕ) :
    bitAt (addOnto ys.length xs ys) j = bitAt ys j + bitAt xs j := by
  induction ys generalizing xs j with
  | nil =>
    rw [List.length_nil, List.length_eq_zero_iff] at hlen
    subst hlen
    rfl
  | cons y ys ih =>
    cases xs with
    | nil => simp at hlen
    | cons x xs =>
      have hx' := hx x List.mem_cons_self
      have hy' := hy y List.mem_cons_self
      cases j with
      | zero => exact (cast_xor hx' hy').1
      | succ j =>
        exact ih (fun x h => hx x (List.mem_cons_of_mem _ h))
          (fun y h => hy y (List.mem_cons_of_mem _ h)) (Nat.succ.inj hlen) j

theorem bits_addOnto {xs ys : List ℕ} (hx : ∀ x ∈ xs, x ≤ 1) (hy : ∀ y ∈ ys, y ≤ 1) (n : ℕ) :
    ∀ z ∈ addOnto n xs ys, z ≤ 1 := by
  fun_induction addOnto n xs ys with
  | case1 n x xs y ys ih =>
    intro z hz
    rcases List.mem_cons.1 hz with rfl | hz
    · exact (cast_xor (hx x List.mem_cons_self) (hy y List.mem_cons_self)).2
    · exact ih (fun x h => hx x (List.mem_cons_of_mem _ h))
        (fun y h => hy y (List.mem_cons_of_mem _ h)) z hz
  | case2 => exact hy

namespace Rect

variable (hm : m.Rect h w)
include hm

theorem exists_row (hi : i < h) : ∃ r, m.rows[i]? = some r ∧ r ∈ m.rows := by
  have hlt : i < m.rows.length := hm.height.symm ▸ hi
  exact ⟨m.rows[i], List.getElem?_eq_getElem hlt, List.getElem_mem hlt⟩

theorem width_eq (hi : i < h) : m.width = w := by
  obtain ⟨r, hr, -⟩ := hm.exists_row (i := 0) (Nat.zero_lt_of_lt hi)
  rw [width, ← List.head?_eq_getElem?] at *
  rw [hr]
  exact hm.length r (List.mem_of_mem_head? (by rw [hr]; rfl))

theorem value_eq_zero (hj : w ≤ j) : m.value i j = 0 := by
  rw [value, bitAt]
  by_cases hi : i < h
  · obtain ⟨r, hr, hmem⟩ := hm.exists_row hi
    have hlen := hm.length r hmem
    rw [hr, Option.getD_some, List.getElem?_eq_none (by omega)]
    rfl
  · rw [show m.rows[i]? = none from List.getElem?_eq_none (by rw [hm.height]; omega)]
    rfl

/-- Adding a row to another one adds their entries. -/
theorem addRow (hs : s < h) (ht : t < h) : ∃ m', m.addRow s t = .ok m' ∧ m'.Rect h w ∧
    ∀ i j, m'.value i j = m.value i j + if i = t then m.value s j else 0 := by
  obtain ⟨xs, hxs, hxm⟩ := hm.exists_row hs
  obtain ⟨ys, hys, hym⟩ := hm.exists_row ht
  have hxlen := hm.length xs hxm
  have hylen := hm.length ys hym
  have hwidth := hm.width_eq hs
  have hlt : t < m.rows.length := hm.height.symm ▸ ht
  refine ⟨⟨m.rows.set t (addOnto m.width xs ys)⟩, ?_, ⟨?_, fun r hr => ?_, fun r hr => ?_⟩,
    fun i j => ?_⟩
  · simp only [BitMatrix.addRow, hxs, hys, Option.getD_some, hwidth, hxlen, hylen, le_refl,
      and_self, if_true]
  · rw [List.length_set, hm.height]
  · rcases List.mem_or_eq_of_mem_set hr with hr | rfl
    · exact hm.length r hr
    · rw [length_addOnto, hylen]
  · rcases List.mem_or_eq_of_mem_set hr with hr | rfl
    · exact hm.bits r hr
    · exact bits_addOnto (hm.bits xs hxm) (hm.bits ys hym) _
  · rw [value, value, value, List.getElem?_set, hxs]
    by_cases hit : i = t
    · subst hit
      rw [if_pos rfl, if_pos hlt, if_pos rfl, Option.getD_some, hwidth, ← hylen,
        bitAt_addOnto (hm.bits xs hxm) (hm.bits ys hym) (hxlen.trans hylen.symm), hys]
      rfl
    · rw [if_neg (Ne.symm hit), if_neg hit, add_zero]

theorem value_eq_zero_of_le (hi : h ≤ i) : m.value i j = 0 := by
  rw [value, show m.rows[i]? = none from List.getElem?_eq_none (by rw [hm.height]; omega)]
  rfl

/-- A matrix of zeros and ones is told by its entries. -/
theorem ext (hm' : m'.Rect h w) (hv : ∀ i < h, ∀ j < w, m.value i j = m'.value i j) : m = m' := by
  have hcast {x y : ℕ} (hx : x ≤ 1) (hy : y ≤ 1) (he : (x : ZMod 2) = y) : x = y := by
    obtain rfl | rfl := Nat.le_one_iff_eq_zero_or_eq_one.1 hx <;>
      obtain rfl | rfl := Nat.le_one_iff_eq_zero_or_eq_one.1 hy <;> revert he <;> decide
  obtain ⟨rows⟩ := m
  obtain ⟨rows'⟩ := m'
  congr 1
  refine List.ext_getElem (hm.height.trans hm'.height.symm) fun i hi hi' => ?_
  have hlen := hm.length _ (List.getElem_mem hi)
  have hlen' := hm'.length _ (List.getElem_mem hi')
  refine List.ext_getElem (hlen.trans hlen'.symm) fun j hj hj' => ?_
  refine hcast (hm.bits _ (List.getElem_mem hi) _ (List.getElem_mem hj))
    (hm'.bits _ (List.getElem_mem hi') _ (List.getElem_mem hj')) ?_
  have := hv i (hi.trans_eq hm.height) j (hj.trans_eq hlen)
  rw [value, value, bitAt, bitAt] at this
  simpa only [List.getElem?_eq_getElem hi, List.getElem?_eq_getElem hi', Option.getD_some,
    List.getElem?_eq_getElem hj, List.getElem?_eq_getElem hj'] using this

/-- An entry is zero exactly when it is zero in the field. -/
theorem entry_eq (hi : i < h) (hj : j < w) :
    ∃ x, m.entry i j = .ok x ∧ (x : ZMod 2) = m.value i j ∧ x ≤ 1 := by
  obtain ⟨r, hr, hmem⟩ := hm.exists_row hi
  have hlen := hm.length r hmem
  have hlt : j < r.length := by omega
  refine ⟨r[j], ?_, ?_, hm.bits r hmem _ (List.getElem_mem hlt)⟩
  · rw [entry, row, hr]
    simp only [bind, Except.bind, pure, Except.pure, List.getElem?_eq_getElem hlt]
  · rw [value, bitAt, hr, Option.getD_some, List.getElem?_eq_getElem hlt, Option.getD_some]

end Rect

/-- The row of a matrix in the field of two elements. -/
def rowVector (m : BitMatrix) (i : ℕ) : ℕ → ZMod 2 := m.value i

/-- The sums of rows of a matrix of height `h`. -/
def rowSpan (m : BitMatrix) (h : ℕ) : Submodule (ZMod 2) (ℕ → ZMod 2) :=
  Submodule.span (ZMod 2) (m.rowVector '' {i | i < h})

theorem rowVector_mem (hi : i < h) : m.rowVector i ∈ m.rowSpan h :=
  Submodule.subset_span ⟨i, hi, rfl⟩

/-- A sum of rows is in what they span. -/
theorem sum_mem_rowSpan {l : List ℕ} (hl : ∀ i ∈ l, i < h) :
    (fun j => (l.map fun i => m.value i j).sum) ∈ m.rowSpan h := by
  induction l with
  | nil => exact Submodule.zero_mem _
  | cons i l ih =>
    exact Submodule.add_mem _ (rowVector_mem (hl i List.mem_cons_self))
      (ih fun k hk => hl k (List.mem_cons_of_mem i hk))

/-- Adding one row to another one keeps what the rows span. -/
theorem rowSpan_eq (hs : s < h) (hst : s ≠ t)
    (hv : ∀ i j, m'.value i j = m.value i j + if i = t then m.value s j else 0) :
    m'.rowSpan h = m.rowSpan h := by
  have hother {i : ℕ} (hi : i ≠ t) : m'.rowVector i = m.rowVector i := by
    funext j
    rw [rowVector, hv, if_neg hi, add_zero]
    rfl
  have htarget : m'.rowVector t = m.rowVector t + m.rowVector s := by
    funext j
    rw [rowVector, hv, if_pos rfl]
    rfl
  have hback : m.rowVector t = m'.rowVector t + m'.rowVector s := by
    funext j
    rw [htarget, hother hst, Pi.add_apply, Pi.add_apply, add_assoc, CharTwo.add_self_eq_zero,
      add_zero]
  refine le_antisymm (Submodule.span_le.2 ?_) (Submodule.span_le.2 ?_)
  · rintro _ ⟨i, hi, rfl⟩
    by_cases hit : i = t
    · subst hit
      rw [htarget]
      exact Submodule.add_mem _ (rowVector_mem hi) (rowVector_mem hs)
    · rw [hother hit]
      exact rowVector_mem hi
  · rintro _ ⟨i, hi, rfl⟩
    by_cases hit : i = t
    · subst hit
      rw [hback]
      exact Submodule.add_mem _ (rowVector_mem hi) (rowVector_mem hs)
    · rw [← hother hit]
      exact rowVector_mem hi

end BitMatrix

end ZXRewriting
