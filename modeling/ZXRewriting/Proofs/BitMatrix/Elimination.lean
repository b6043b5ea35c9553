import ZXRewriting.Proofs.BitMatrix.Rows

/-!
# Elimination

Elimination succeeds on a rectangular matrix, and comes to a staircase of rows
(`Elimination.Staircase`): each row with a pivot begins there, the rows below it are zero up to its
column, and the rows without a pivot are zero. In a full elimination the rows with a pivot have a
column in which they alone have a one (`Elimination.Reduced`). The rows span what they did before, so
a sum of rows with a single one is a row by itself in the end (`Elimination.Reduced.exists_unit_row`).
The same additions made to the identity tell which rows were added up
(`RowAddition.exists_applyAll`).
-/

namespace ZXRewriting

open BitMatrix (Rect)

namespace RowAddition

variable {m : BitMatrix} {h w : ℕ} {additions : List RowAddition}

/-- Whether an addition is of two different rows of a matrix of height `h`. -/
def Within (h : ℕ) (a : RowAddition) : Prop := a.source < h ∧ a.target < h ∧ a.source ≠ a.target

/-- What an addition does to the entries. -/
def addTo (f : ℕ → ℕ → ZMod 2) (a : RowAddition) : ℕ → ℕ → ZMod 2 :=
  fun i j => f i j + if i = a.target then f a.source j else 0

theorem exists_applyAll {l : List RowAddition} (hm : m.Rect h w)
    (ha : ∀ a ∈ l, a.source < h ∧ a.target < h) :
    ∃ m', applyAll l m = .ok m' ∧ m'.Rect h w ∧ m'.value = l.foldl addTo m.value := by
  induction l generalizing m with
  | nil => exact ⟨m, rfl, hm, rfl⟩
  | cons a rest ih =>
    obtain ⟨hs, ht⟩ := ha a List.mem_cons_self
    obtain ⟨m₁, hok₁, hm₁, hv₁⟩ := hm.addRow hs ht
    obtain ⟨m₂, hok₂, hm₂, hv₂⟩ := ih hm₁ fun b hb => ha b (List.mem_cons_of_mem a hb)
    refine ⟨m₂, ?_, hm₂, ?_⟩
    · rw [applyAll, List.foldlM_cons, hok₁]
      exact hok₂
    · rw [hv₂, List.foldl_cons]
      congr 1
      funext i j
      exact hv₁ i j

/-- Additions commute with taking sums of the rows of a fixed matrix. -/
theorem foldl_addTo_sum {f g : ℕ → ℕ → ZMod 2} {n : ℕ} {c : ℕ → ℕ → ZMod 2}
    (hf : ∀ i j, f i j = ∑ k ∈ Finset.range n, g i k * c k j) (i j : ℕ) :
    additions.foldl addTo f i j = ∑ k ∈ Finset.range n, additions.foldl addTo g i k * c k j := by
  induction additions generalizing f g with
  | nil => exact hf i j
  | cons a rest ih =>
    refine ih fun i j => ?_
    rw [addTo, hf, hf]
    split
    · next h => simp only [addTo, h, if_true, add_mul, Finset.sum_add_distrib]
    · next h => simp only [addTo, h, if_false, add_zero]

/-- Adding a row to itself aside, additions keep what the rows span. -/
theorem rowSpan_eq_of_applyAll {m' : BitMatrix} (hm : m.Rect h w)
    (ha : ∀ a ∈ additions, a.Within h) (hok : applyAll additions m = .ok m') :
    m'.rowSpan h = m.rowSpan h := by
  induction additions generalizing m with
  | nil =>
    obtain rfl : m = m' := Except.ok.inj hok
    rfl
  | cons a rest ih =>
    obtain ⟨hs, ht, hne⟩ := ha a List.mem_cons_self
    obtain ⟨m₁, hok₁, hm₁, hv₁⟩ := hm.addRow hs ht
    rw [applyAll, List.foldlM_cons, hok₁] at hok
    rw [ih hm₁ (fun b hb => ha b (List.mem_cons_of_mem a hb)) hok, BitMatrix.rowSpan_eq hs hne hv₁]

end RowAddition

namespace BitMatrix

variable {h i j : ℕ}

theorem rect_identity (h : ℕ) : (identity h).Rect h h where
  height := by simp [identity, build]
  length r hr := by
    simp only [identity, build, List.mem_map] at hr
    obtain ⟨i, -, rfl⟩ := hr
    simp
  bits r hr x hx := by
    simp only [identity, build, List.mem_map] at hr
    obtain ⟨i, -, rfl⟩ := hr
    obtain ⟨j, -, rfl⟩ := List.mem_map.1 hx
    exact Bool.toNat_le _

theorem value_identity (hi : i < h) (hj : j < h) :
    (identity h).value i j = if i = j then 1 else 0 := by
  rw [value, bitAt, identity, build]
  simp only [List.getElem?_map, List.getElem?_range hi, Option.map_some, Option.getD_some,
    List.getElem?_range hj]
  by_cases hij : i = j
  · simp [hij]
  · simp [hij, beq_false_of_ne hij]

end BitMatrix

namespace Elimination

variable {m : BitMatrix} {h w c i s t : ℕ} {e : Elimination}

/-- A matrix that came of another one by additions of its rows. -/
structure Derived (m : BitMatrix) (h w : ℕ) (e : Elimination) : Prop where
  rect : e.matrix.Rect h w
  within : ∀ a ∈ e.additions, a.Within h
  made : RowAddition.applyAll e.additions m = .ok e.matrix

/-- What the columns up to `c` are like after the elimination of these: the row of a pivot begins with
    it, the rows below are zero up to there, and in a full elimination those above are zero there. -/
structure Staircase (full : Bool) (m : BitMatrix) (h w c : ℕ) (e : Elimination) : Prop
    extends Derived m h w e where
  pivots_le : e.pivots ≤ h
  pivot : ∀ k < e.pivots, ∃ p < c, e.matrix.value k p = 1 ∧ (∀ j < p, e.matrix.value k j = 0) ∧
    (∀ i, k < i → i < h → ∀ j ≤ p, e.matrix.value i j = 0) ∧
    (full → ∀ i < k, e.matrix.value i p = 0)
  rest : ∀ i, e.pivots ≤ i → i < h → ∀ j < c, e.matrix.value i j = 0

/-- A matrix reduced in the columns up to `c`, by additions of the rows of another one. -/
structure Reduced (m : BitMatrix) (h w c : ℕ) (e : Elimination) : Prop extends Derived m h w e where
  pivots_le : e.pivots ≤ h
  pivot : ∀ k < e.pivots, ∃ p < c, ∀ i < h, e.matrix.value i p = if i = k then 1 else 0
  rest : ∀ i, e.pivots ≤ i → i < h → ∀ j < c, e.matrix.value i j = 0

/-- A full elimination reduces the columns. -/
theorem Staircase.reduced (he : Staircase true m h w c e) : Reduced m h w c e where
  toDerived := he.toDerived
  pivots_le := he.pivots_le
  pivot k hk := by
    obtain ⟨p, hpc, hone, -, hbelow, habove⟩ := he.pivot k hk
    refine ⟨p, hpc, fun i hi => ?_⟩
    rcases Nat.lt_trichotomy i k with hik | rfl | hki
    · rw [if_neg hik.ne, habove rfl i hik]
    · rw [if_pos rfl, hone]
    · rw [if_neg hki.ne', hbelow i hki hi p le_rfl]
  rest := he.rest

/-- Adding a row to another one. -/
theorem Derived.addRow (he : Derived m h w e) (hs : s < h) (ht : t < h) (hst : s ≠ t) :
    ∃ e', e.addRow s t = .ok e' ∧ Derived m h w e' ∧ e'.pivots = e.pivots ∧
      ∀ i j, e'.matrix.value i j =
        e.matrix.value i j + if i = t then e.matrix.value s j else 0 := by
  obtain ⟨m', hok, hm', hv⟩ := he.rect.addRow hs ht
  refine ⟨⟨m', e.pivots, e.additions ++ [⟨s, t⟩]⟩, ?_, ⟨hm', fun a ha => ?_, ?_⟩, rfl, hv⟩
  · rw [Elimination.addRow, hok]
    rfl
  · rcases List.mem_append.1 ha with ha | ha
    · exact he.within a ha
    · rw [List.mem_singleton.1 ha]
      exact ⟨hs, ht, hst⟩
  · rw [RowAddition.applyAll, List.foldlM_append, ← RowAddition.applyAll, he.made]
    change (do [(⟨s, t⟩ : RowAddition)].foldlM (fun (m : BitMatrix)
      (a : RowAddition) => m.addRow a.source a.target) e.matrix) = _
    rw [List.foldlM_cons, hok]
    rfl

theorem Derived.hasOne (he : Derived m h w e) (hi : i < h) (hc : c < w) :
    e.hasOne i c = .ok (decide (e.matrix.value i c ≠ 0)) := by
  obtain ⟨x, hok, hx, hle⟩ := he.rect.entry_eq hi hc
  rw [Elimination.hasOne, hok]
  change Except.ok (x != 0) = _
  have hzero := cast_eq_zero_iff hle
  rw [hx] at hzero
  by_cases h0 : x = 0 <;> simp [h0, hzero]

theorem Derived.mem_rowsFrom (he : Derived m h w e) (n : ℕ) :
    i ∈ e.rowsFrom n ↔ n ≤ i ∧ i < h := by
  rw [rowsFrom, BitMatrix.height, he.rect.height, List.mem_drop_iff_getElem]
  constructor
  · rintro ⟨j, hj, rfl⟩
    rw [List.length_range] at hj
    rw [List.getElem_range]
    exact ⟨Nat.le_add_right n j, by omega⟩
  · rintro ⟨hn, hi⟩
    refine ⟨i - n, ?_, ?_⟩
    · rw [List.length_range]
      omega
    · rw [List.getElem_range]
      omega

theorem eq_one_of_ne_zero {x : ZMod 2} (hx : x ≠ 0) : x = 1 := by
  revert x
  decide

/-- Clearing a column by adding the row that has a one in it. -/
theorem Derived.clearRows (he : Derived m h w e) {p : ℕ} (hp : p < h) (hc : c < w)
    (hone : e.matrix.value p c = 1) (rows : List ℕ) (hrows : ∀ i ∈ rows, i < h) :
    ∃ e', rows.foldlM (clearRow c p) e = .ok e' ∧ Derived m h w e' ∧ e'.pivots = e.pivots ∧
      (∀ j, e'.matrix.value p j = e.matrix.value p j) ∧
      (∀ i j, e.matrix.value p j = 0 → e'.matrix.value i j = e.matrix.value i j) ∧
      ∀ i ∈ rows, i ≠ p → e'.matrix.value i c = 0 := by
  refine exists_foldlM (fun done e' => Derived m h w e' ∧ e'.pivots = e.pivots ∧
      (∀ j, e'.matrix.value p j = e.matrix.value p j) ∧
      (∀ i j, e.matrix.value p j = 0 → e'.matrix.value i j = e.matrix.value i j) ∧
      ∀ i ∈ done, i ≠ p → e'.matrix.value i c = 0) rows
    ⟨he, rfl, fun _ => rfl, fun _ _ _ => rfl, fun _ h => absurd h List.not_mem_nil⟩
    fun done i rest e₁ hl hinv => ?_
  obtain ⟨he₁, hp₁, hrow, hkeep, hdone⟩ := hinv
  have hi : i < h := hrows i (by simp [hl])
  rw [clearRow]
  split
  · next hip =>
    refine ⟨e₁, rfl, he₁, hp₁, hrow, hkeep, fun k hk hkp => ?_⟩
    rcases List.mem_append.1 hk with hk | hk
    · exact hdone k hk hkp
    · exact absurd ((List.mem_singleton.1 hk).trans hip) hkp
  next hip =>
  rw [he₁.hasOne hi hc]
  by_cases hz : e₁.matrix.value i c = 0
  · refine ⟨e₁, by simp [hz]; rfl, he₁, hp₁, hrow, hkeep, fun k hk hkp => ?_⟩
    rcases List.mem_append.1 hk with hk | hk
    · exact hdone k hk hkp
    · rw [List.mem_singleton.1 hk]
      exact hz
  · obtain ⟨e₂, hok, he₂, hp₂, hv⟩ := he₁.addRow hp hi (Ne.symm hip)
    refine ⟨e₂, (if_pos (decide_eq_true hz)).trans hok, he₂, hp₂.trans hp₁, fun j => ?_, fun k j hj => ?_,
      fun k hk hkp => ?_⟩
    · rw [hv, if_neg (Ne.symm hip), add_zero, hrow]
    · rw [hv, hrow, hj, ite_self, add_zero, hkeep k j hj]
    · rw [hv]
      by_cases hki : k = i
      · rw [if_pos hki, hki, hrow, hone, eq_one_of_ne_zero hz]
        rfl
      · rw [if_neg hki, add_zero]
        rcases List.mem_append.1 hk with hk | hk
        · exact hdone k hk hkp
        · exact absurd (List.mem_singleton.1 hk) hki

/-- The row that a pivot is found in, added to the next row without a pivot if it is another one. -/
theorem Staircase.exists_pivot_row {full : Bool} (he : Staircase full m h w c e) {row : ℕ}
    (hrow : ((e.rowsFrom e.pivots).find? fun i => decide (e.matrix.value i c ≠ 0)) = some row) :
    ∃ e₁, (if row = e.pivots then pure e else e.addRow row e.pivots) = .ok e₁ ∧
      Derived m h w e₁ ∧ e₁.pivots = e.pivots ∧ e₁.matrix.value e.pivots c = 1 ∧
      ∀ i, ∀ j < c, e₁.matrix.value i j = e.matrix.value i j := by
  obtain ⟨hpr, hrh⟩ := (he.mem_rowsFrom _).1 (List.mem_of_find?_eq_some hrow)
  have hone : e.matrix.value row c = 1 := eq_one_of_ne_zero (by simpa using List.find?_some hrow)
  have hph : e.pivots < h := hpr.trans_lt hrh
  by_cases heq : row = e.pivots
  · rw [if_pos heq]
    exact ⟨e, rfl, he.toDerived, rfl, heq ▸ hone, fun _ _ _ => rfl⟩
  rw [if_neg heq]
  obtain ⟨e₁, hok, he₁, hp, hv⟩ := he.addRow hrh hph heq
  -- the first row that has a one in the column comes after that of the pivot
  have hzero : e.matrix.value e.pivots c = 0 := by
    by_contra hne
    obtain ⟨-, as, bs, hl, has⟩ := List.find?_eq_some_iff_append.1 hrow
    have hmem := (he.mem_rowsFrom e.pivots).2 ⟨le_rfl, hph⟩
    have hsorted : (e.rowsFrom e.pivots).Pairwise (· < ·) :=
      List.pairwise_lt_range.sublist (List.drop_sublist _ _)
    rw [hl] at hmem hsorted
    rcases List.mem_append.1 hmem with hmem | hmem
    · simpa [hne] using has _ hmem
    · rcases List.mem_cons.1 hmem with hmem | hmem
      · exact heq hmem.symm
      · have := List.rel_of_pairwise_cons (List.pairwise_append.1 hsorted).2.1 hmem
        omega
  refine ⟨e₁, hok, he₁, hp, ?_, fun i j hj => ?_⟩
  · rw [hv, if_pos rfl, hzero, hone, zero_add]
  · rw [hv, he.rest row hpr hrh j hj, ite_self, add_zero]

/-- One more column: what was done in the columns before is not touched again. -/
theorem Staircase.eliminateColumn {full : Bool} (he : Staircase full m h w c e) (hc : c < w) :
    ∃ e', Elimination.eliminateColumn full e c = .ok e' ∧ Staircase full m h w (c + 1) e' := by
  have hfind : (e.rowsFrom e.pivots).findM? (e.hasOne · c) =
      .ok ((e.rowsFrom e.pivots).find? fun i => decide (e.matrix.value i c ≠ 0)) :=
    findM?_eq fun i hi => he.hasOne ((he.mem_rowsFrom _).1 hi).2 hc
  rw [Elimination.eliminateColumn, hfind]
  cases hrow : (e.rowsFrom e.pivots).find? fun i => decide (e.matrix.value i c ≠ 0) with
  | none =>
    -- no row from the pivots on has a one in this column
    refine ⟨e, rfl, he.toDerived, he.pivots_le, fun k hk => ?_, fun i hp hi j hj => ?_⟩
    · obtain ⟨p, hpc, hv⟩ := he.pivot k hk
      exact ⟨p, Nat.lt_succ_of_lt hpc, hv⟩
    · rcases Nat.lt_succ_iff_lt_or_eq.1 hj with hj | rfl
      · exact he.rest i hp hi j hj
      · have := List.find?_eq_none.1 hrow i ((he.mem_rowsFrom _).2 ⟨hp, hi⟩)
        simpa using this
  | some row =>
    obtain ⟨hpr, hrh⟩ := (he.mem_rowsFrom _).1 (List.mem_of_find?_eq_some hrow)
    have hph : e.pivots < h := hpr.trans_lt hrh
    obtain ⟨e₁, hok₁, he₁, hp₁, hone₁, hsame₁⟩ := he.exists_pivot_row hrow
    set first := if full then 0 else e.pivots + 1 with hfirst
    obtain ⟨e₂, hok₂, he₂, -, hrow₂, hkeep₂, hclear₂⟩ :=
      he₁.clearRows hph hc hone₁ (e₁.rowsFrom first) fun i hi => ((he₁.mem_rowsFrom first).1 hi).2
    -- the pivot row is zero before this column, so adding it changes nothing there
    have hsame : ∀ i, ∀ j < c, e₂.matrix.value i j = e.matrix.value i j := fun i j hj => by
      have hzero : e₁.matrix.value e.pivots j = 0 := by
        rw [hsame₁ _ j hj, he.rest _ le_rfl hph j hj]
      rw [hkeep₂ i j hzero, hsame₁ i j hj]
    have hbelow : ∀ i, e.pivots < i → i < h → ∀ j ≤ c, e₂.matrix.value i j = 0 :=
      fun i hpi hi j hj => by
        rcases hj.lt_or_eq with hj | rfl
        · rw [hsame i j hj]
          exact he.rest i hpi.le hi j hj
        · refine hclear₂ i ((he₁.mem_rowsFrom first).2 ⟨?_, hi⟩) hpi.ne'
          rw [hfirst]
          split <;> omega
    refine ⟨{ e₂ with pivots := e.pivots + 1 }, ?_, ⟨he₂.rect, he₂.within, he₂.made⟩, hph,
      fun k hk => ?_, fun i hpi hi j hj => hbelow i hpi hi j (Nat.lt_succ_iff.1 hj)⟩
    · have htail : (do
          let e₂ ← (e₁.rowsFrom first).foldlM (clearRow c e.pivots) e₁
          return { e₂ with pivots := e.pivots + 1 }) =
            (.ok { e₂ with pivots := e.pivots + 1 } : Except Halted Elimination) := by
        rw [hok₂]
        rfl
      by_cases heq : row = e.pivots
      · rw [if_pos heq] at hok₁
        obtain rfl := Except.ok.inj hok₁
        exact (if_pos heq).trans htail
      · rw [if_neg heq] at hok₁
        refine (if_neg heq).trans ?_
        rw [hok₁]
        exact htail
    · rcases Nat.lt_succ_iff_lt_or_eq.1 hk with hk | rfl
      · obtain ⟨p, hpc, hone, hbefore, hunder, habove⟩ := he.pivot k hk
        refine ⟨p, Nat.lt_succ_of_lt hpc, (hsame k p hpc).trans hone, fun j hj => ?_,
          fun i hki hi j hj => ?_, fun hfull i hi => ?_⟩
        · exact (hsame k j (hj.trans hpc)).trans (hbefore j hj)
        · exact (hsame i j (hj.trans_lt hpc)).trans (hunder i hki hi j hj)
        · exact (hsame i p hpc).trans (habove hfull i hi)
      · refine ⟨c, Nat.lt_succ_self c, (hrow₂ c).trans hone₁, fun j hj => ?_, hbelow,
          fun hfull i hi => ?_⟩
        · exact (hsame _ j hj).trans (he.rest _ le_rfl hph j hj)
        · refine hclear₂ i ((he₁.mem_rowsFrom first).2 ⟨?_, hi.trans hph⟩) hi.ne
          rw [hfirst, if_pos hfull]
          exact Nat.zero_le i

/-- Elimination succeeds on a rectangular matrix and makes a staircase of it. -/
theorem exists_staircase (full : Bool) (hm : m.Rect h w) :
    ∃ e, run full m = .ok e ∧ Staircase full m h w w e := by
  have hstart : Staircase full m h w 0 (start m) :=
    ⟨⟨hm, fun _ h => absurd h List.not_mem_nil, rfl⟩, Nat.zero_le _,
      fun _ h => absurd h (Nat.not_lt_zero _), fun _ _ _ _ h => absurd h (Nat.not_lt_zero _)⟩
  rcases Nat.eq_zero_or_pos h with rfl | hh
  · -- without rows there are no columns to go through
    have hwidth : m.width = 0 := by
      rw [BitMatrix.width, List.length_eq_zero_iff.1 hm.height]
      rfl
    refine ⟨start m, by rw [run, hwidth]; rfl, hstart.toDerived, Nat.zero_le _,
      fun _ h => absurd h (Nat.not_lt_zero _), fun _ _ h => absurd h (Nat.not_lt_zero _)⟩
  rw [run, hm.width_eq hh]
  obtain ⟨e, hok, he⟩ := exists_foldlM (fun done e => Staircase full m h w done.length e)
    (List.range w) (f := Elimination.eliminateColumn full) hstart fun done c rest e hl he => by
      have hget : (List.range w)[done.length]? = some c := by simp [hl]
      obtain ⟨hlt, hc⟩ := List.getElem?_eq_some_iff.1 hget
      rw [List.getElem_range] at hc
      subst hc
      rw [List.length_range] at hlt
      rw [List.length_append, List.length_singleton]
      exact he.eliminateColumn hlt
  rw [List.length_range] at he
  exact ⟨e, hok, he⟩

/-- A full elimination reduces a rectangular matrix. -/
theorem exists_run (hm : m.Rect h w) : ∃ e, run true m = .ok e ∧ Reduced m h w w e := by
  obtain ⟨e, hok, he⟩ := exists_staircase true hm
  exact ⟨e, hok, he.reduced⟩

/-- A sum of rows is told by its entries in the columns of the pivots. -/
theorem Reduced.eq_sum (he : Reduced m h w w e) {p : ℕ → ℕ}
    (hp : ∀ k < e.pivots, ∀ i < h, e.matrix.value i (p k) = if i = k then 1 else 0)
    {v : ℕ → ZMod 2} (hv : v ∈ e.matrix.rowSpan h) (j : ℕ) :
    v j = ∑ k ∈ Finset.range e.pivots, v (p k) * e.matrix.value k j := by
  induction hv using Submodule.span_induction with
  | mem v hv =>
    obtain ⟨i, hi, rfl⟩ := hv
    have hone : ∀ k ∈ Finset.range e.pivots, e.matrix.rowVector i (p k) * e.matrix.value k j =
        if i = k then e.matrix.value k j else 0 := fun k hk => by
      rw [BitMatrix.rowVector, hp k (Finset.mem_range.1 hk) i hi, ite_mul, one_mul, zero_mul]
    rw [Finset.sum_congr rfl hone, Finset.sum_ite_eq]
    split
    · rfl
    · next hik =>
      by_cases hj : j < w
      · exact he.rest i (by simpa using hik) hi j hj
      · exact he.rect.value_eq_zero (by omega)
  | zero => simp
  | add u v _ _ hu hv =>
    simp only [Pi.add_apply, add_mul, Finset.sum_add_distrib]
    rw [← hu, ← hv]
  | smul a v _ hv =>
    simp only [Pi.smul_apply, smul_eq_mul, mul_assoc, ← Finset.mul_sum]
    rw [← hv]

/-- If a sum of rows has a single one, then some row of the reduced matrix does, at the same
    place. -/
theorem Reduced.exists_unit_row (hm : m.Rect h w) (he : Reduced m h w w e) {c : ℕ}
    (hv : (fun j => if j = c then (1 : ZMod 2) else 0) ∈ m.rowSpan h) :
    ∃ i < h, ∀ j, e.matrix.value i j = if j = c then 1 else 0 := by
  rw [← RowAddition.rowSpan_eq_of_applyAll hm he.within he.made] at hv
  choose! p _ hp using he.pivot
  have hsum := he.eq_sum hp hv
  -- the place of the one is the column of a pivot
  obtain ⟨k, hk, hkc⟩ : ∃ k ∈ Finset.range e.pivots, p k = c := by
    by_contra hnone
    have hzero := hsum c
    rw [if_pos rfl, Finset.sum_eq_zero fun k hk => ?_] at hzero
    · exact one_ne_zero hzero
    · rw [if_neg fun h => hnone ⟨k, hk, h⟩, zero_mul]
  have hk' := Finset.mem_range.1 hk
  refine ⟨k, hk'.trans_le he.pivots_le, fun j => ?_⟩
  rw [hsum j, Finset.sum_eq_single k (fun l hl hlk => ?_) fun h => absurd hk h]
  · rw [if_pos hkc, one_mul]
  · have hl' := Finset.mem_range.1 hl
    rw [if_neg fun hlc => hlk ?_, zero_mul]
    have h₁ := hp k hk' l (hl'.trans_le he.pivots_le)
    rw [hkc, ← hlc, hp l hl' l (hl'.trans_le he.pivots_le), if_pos rfl] at h₁
    by_contra hne
    rw [if_neg hne] at h₁
    exact one_ne_zero h₁

end Elimination

end ZXRewriting
