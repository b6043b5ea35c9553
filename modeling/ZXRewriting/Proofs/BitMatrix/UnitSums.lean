import ZXRewriting.Proofs.BitMatrix.Elimination

/-!
# Sums of rows with a single one

The rows that an elimination has added up into a row of the reduced matrix are the ones of a row of
the matrix made from the identity by the same additions (`BitMatrix.ones`). So a row of the reduced
matrix with a single one is a sum of different rows of the matrix there was
(`Elimination.Reduced.sum_ones`).
-/

namespace ZXRewriting

namespace BitMatrix

variable {m : BitMatrix} {h w i j n : ℕ} {r : List ℕ}

/-- The places of the ones of a row. -/
def ones (r : List ℕ) : List ℕ := (r.zipIdx.filter fun (x, _) => x == 1).map (·.2)

theorem pairwise_ones : (ones r).Pairwise (· < ·) := by
  have hsub : (ones r).Sublist (r.zipIdx.map (·.2)) := List.filter_sublist.map _
  have hrange : r.zipIdx.map (·.2) = List.range' 0 r.length := by rw [List.zipIdx_map_snd]
  refine List.Pairwise.sublist hsub ?_
  rw [hrange]
  exact List.pairwise_lt_range'

theorem lt_of_mem_ones (hi : i ∈ ones r) : i < r.length := by
  obtain ⟨⟨x, i'⟩, hx, rfl⟩ := List.mem_map.1 hi
  have := List.mem_zipIdx (List.mem_of_mem_filter hx)
  omega

/-- A sum over the ones of a row. -/
theorem sum_ones (hr : ∀ x ∈ r, x ≤ 1) (f : ℕ → ZMod 2) :
    ((ones r).map f).sum = ∑ k ∈ Finset.range r.length, bitAt r k * f k := by
  suffices h : ∀ n, (((r.zipIdx n).filter fun (x, _) => x == 1).map fun x => f x.2).sum =
      ∑ k ∈ Finset.range r.length, bitAt r k * f (n + k) by
    have := h 0
    simp only [Nat.zero_add] at this
    rw [← this, ones, List.map_map]
    rfl
  induction r with
  | nil => simp
  | cons x rest ih =>
    intro n
    have hrest := ih (fun y hy => hr y (List.mem_cons_of_mem x hy)) (n + 1)
    have hshift : ∑ k ∈ Finset.range rest.length, bitAt (x :: rest) (k + 1) * f (n + (k + 1)) =
        ∑ k ∈ Finset.range rest.length, bitAt rest k * f (n + 1 + k) :=
      Finset.sum_congr rfl fun k _ => by
        rw [show n + (k + 1) = n + 1 + k by omega]
        rfl
    rw [List.length_cons, Finset.sum_range_succ', hshift, ← hrest, List.zipIdx_cons]
    have hx := hr x List.mem_cons_self
    obtain rfl | rfl := Nat.le_one_iff_eq_zero_or_eq_one.1 hx
    · simp [bitAt]
    · simp [bitAt, add_comm]

theorem bitAt_cons_succ (x : ℕ) : bitAt (x :: r) (j + 1) = bitAt r j := rfl

/-- A row has a single one exactly when it is zero elsewhere. -/
theorem countP_eq_one_iff (hr : ∀ x ∈ r, x ≤ 1) : r.countP (· != 0) = 1 ↔
    ∃ c < r.length, ∀ j, bitAt r j = if j = c then 1 else 0 := by
  have hzero {r : List ℕ} (hr : ∀ x ∈ r, x ≤ 1) :
      r.countP (· != 0) = 0 ↔ ∀ j, bitAt r j = 0 := by
    rw [List.countP_eq_zero]
    constructor
    · intro h j
      rw [bitAt]
      cases hx : r[j]? with
      | none => rfl
      | some x =>
        have := h x (List.mem_of_getElem? hx)
        have hx0 : x = 0 := by simpa using this
        simp [hx0]
    · intro h x hx
      obtain ⟨j, hj, rfl⟩ := List.mem_iff_getElem.1 hx
      have := h j
      rw [bitAt, List.getElem?_eq_getElem hj, Option.getD_some,
        cast_eq_zero_iff (hr _ (List.getElem_mem hj))] at this
      simp [this]
  induction r with
  | nil => simp
  | cons x rest ih =>
    have hrest : ∀ y ∈ rest, y ≤ 1 := fun y hy => hr y (List.mem_cons_of_mem x hy)
    have hx := hr x List.mem_cons_self
    obtain rfl | rfl := Nat.le_one_iff_eq_zero_or_eq_one.1 hx
    · rw [List.countP_cons_of_neg (by simp)]
      refine (ih hrest).trans ?_
      constructor
      · rintro ⟨c, hc, h⟩
        refine ⟨c + 1, by simpa using hc, fun j => ?_⟩
        cases j with
        | zero => simp [bitAt]
        | succ j => simpa [bitAt_cons_succ] using h j
      · rintro ⟨c, hc, h⟩
        cases c with
        | zero => simpa [bitAt] using h 0
        | succ c => exact ⟨c, by simpa using hc, fun j => by simpa [bitAt_cons_succ] using h (j + 1)⟩
    · rw [List.countP_cons_of_pos (by simp), Nat.add_eq_right, hzero hrest]
      constructor
      · intro h
        refine ⟨0, Nat.succ_pos _, fun j => ?_⟩
        cases j with
        | zero => simp [bitAt]
        | succ j => simpa [bitAt_cons_succ] using h j
      · rintro ⟨c, -, h⟩ j
        have hc : c = 0 := by
          by_contra hne
          have := h 0
          rw [if_neg (Ne.symm hne)] at this
          simp [bitAt] at this
        subst hc
        simpa [bitAt_cons_succ] using h (j + 1)

end BitMatrix

namespace Elimination.Reduced

variable {m made : BitMatrix} {h w i : ℕ} {e : Elimination} {r : List ℕ}

open BitMatrix (Rect ones)

/-- A row of the reduced matrix is the sum of the rows that the same additions, made to the
    identity, tell. -/
theorem sum_ones (hm : m.Rect h w) (he : Reduced m h w w e) (hmade : made.Rect h h)
    (hok : RowAddition.applyAll e.additions (.identity h) = .ok made) (hr : made.rows[i]? = some r)
    (j : ℕ) : ((ones r).map fun k => m.value k j).sum = e.matrix.value i j := by
  have hall : ∀ a ∈ e.additions, a.source < h ∧ a.target < h := fun a ha =>
    ⟨(he.within a ha).1, (he.within a ha).2.1⟩
  obtain ⟨m₁, hok₁, -, hv₁⟩ := RowAddition.exists_applyAll hm hall
  obtain ⟨m₂, hok₂, -, hv₂⟩ := RowAddition.exists_applyAll (BitMatrix.rect_identity h) hall
  obtain rfl := Except.ok.inj (hok₁.symm.trans he.made)
  obtain rfl : m₂ = made := Except.ok.inj (hok₂.symm.trans hok)
  have hident (i j : ℕ) : m.value i j =
      ∑ k ∈ Finset.range h, (BitMatrix.identity h).value i k * m.value k j := by
    by_cases hi : i < h
    · rw [Finset.sum_eq_single i (fun k hk hki => ?_) fun hi' => absurd (Finset.mem_range.2 hi) hi']
      · rw [BitMatrix.value_identity hi hi, if_pos rfl, one_mul]
      · rw [BitMatrix.value_identity hi (Finset.mem_range.1 hk), if_neg (Ne.symm hki), zero_mul]
    · rw [hm.value_eq_zero_of_le (by omega), Finset.sum_eq_zero fun k _ => ?_]
      rw [(BitMatrix.rect_identity h).value_eq_zero_of_le (by omega), zero_mul]
  have hlen := hmade.length r (List.mem_of_getElem? hr)
  rw [BitMatrix.sum_ones (hmade.bits r (List.mem_of_getElem? hr)), hlen, hv₁,
    RowAddition.foldl_addTo_sum hident, ← hv₂]
  refine Finset.sum_congr rfl fun k _ => ?_
  rw [show m₂.value i k = BitMatrix.bitAt r k by rw [BitMatrix.value, hr]; rfl]

end Elimination.Reduced

end ZXRewriting
