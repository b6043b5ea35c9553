import Mathlib.Algebra.BigOperators.Field
import ZXRewriting.GraphLike.OfDiagram
import ZXRewriting.Proofs.Phase.Unit

/-!
# The phases of a box

A box with many wires is written with a phase of `± pi / 2 ^ (n - 1)` for each set of wires, on the
parity of their bits. All of these phases together are -1 if all bits are one, and nothing otherwise
(`GraphLike.prod_parityFactor`): twice the exponent is a difference of two sums over sets, each of
which is a product over the wires (`GraphLike.sum_selectBits`).
-/

namespace ZXRewriting.GraphLike

variable {α : Type} {l : List α} {x : α} {m n size : ℕ} {D : ℕ} {b : α → Bool}

/-! ### Sets of elements by their digits -/

/-- The highest digit says whether the last element is selected. -/
theorem selectBits_concat (hm : m < 2 ^ l.length) :
    selectBits m (l ++ [x]) = selectBits m l ∧
      selectBits (2 ^ l.length + m) (l ++ [x]) = selectBits m l ++ [x] := by
  have hzip : (l ++ [x]).zipIdx = l.zipIdx ++ [(x, l.length)] := by
    rw [List.zipIdx_append, Nat.zero_add]
    rfl
  constructor
  · rw [selectBits, hzip, List.filter_append, List.filter_singleton]
    simp [Nat.testBit_lt_two_pow hm, selectBits]
  · rw [selectBits, hzip, List.filter_append, List.filter_singleton]
    have hfilter : l.zipIdx.filter (fun e => (2 ^ l.length + m).testBit e.2) =
        l.zipIdx.filter fun e => m.testBit e.2 := List.filter_congr fun e he => by
      have := List.snd_lt_of_mem_zipIdx he
      rw [Nat.testBit_two_pow_add_gt (by omega)]
    rw [hfilter]
    simp [Nat.testBit_two_pow_add_eq, Nat.testBit_lt_two_pow hm, selectBits]

/-- The sum over all sets of the products over their elements. -/
theorem sum_selectBits (f : α → ℤ) (l : List α) :
    ∑ m ∈ Finset.range (2 ^ l.length), ((selectBits m l).map f).prod =
      (l.map fun x => 1 + f x).prod := by
  induction l using List.reverseRecOn with
  | nil => simp [selectBits]
  | append_singleton l x ih =>
    rw [List.length_append, List.length_singleton, pow_succ, mul_two, Finset.sum_range_add,
      List.map_append, List.prod_append, ← ih, Finset.sum_mul, ← Finset.sum_add_distrib]
    refine Finset.sum_congr rfl fun m hm => ?_
    obtain ⟨h₁, h₂⟩ := selectBits_concat (x := x) (Finset.mem_range.1 hm)
    rw [h₁, h₂, List.map_append, List.prod_append]
    simp
    ring

/-! ### Exponents -/

/-- The phase of a set of wires at given bits, in multiples of the smallest one. -/
def charge (b : α → Bool) (l : List α) : ℤ :=
  if l.countP b % 2 = 1 then if l.length % 2 = 1 then 1 else -1 else 0

theorem prod_sign (b : α → Bool) (l : List α) :
    (l.map fun x => if b x then (-1 : ℤ) else 1).prod = (-1) ^ l.countP b := by
  induction l with
  | nil => rfl
  | cons x l ih =>
    rw [List.map_cons, List.prod_cons, ih, List.countP_cons]
    cases b x <;> simp [pow_succ]

theorem two_mul_charge (b : α → Bool) (l : List α) : 2 * charge b l =
    (l.map fun x => if b x then (1 : ℤ) else -1).prod - (l.map fun _ => (-1 : ℤ)).prod := by
  have hprod : (l.map fun x => if b x then (1 : ℤ) else -1).prod =
      (l.map fun _ => (-1 : ℤ)).prod * (l.map fun x => if b x then (-1 : ℤ) else 1).prod := by
    rw [← List.prod_map_mul]
    refine congrArg List.prod (List.map_congr_left fun x _ => ?_)
    cases b x <;> rfl
  rw [hprod, prod_sign, List.map_const', List.prod_replicate, charge]
  rcases Nat.mod_two_eq_zero_or_one l.length with h | h <;>
    rcases Nat.mod_two_eq_zero_or_one (l.countP b) with h' | h' <;>
      simp [h, h', Nat.even_iff.2, Nat.odd_iff.2, Odd.neg_one_pow]

/-- The phases of all sets add up to a half turn, if all bits are one, and else to nothing. -/
theorem sum_charge (hl : l ≠ []) (b : α → Bool) :
    ∑ m ∈ Finset.range (2 ^ l.length), charge b (selectBits m l) =
      if ∀ x ∈ l, b x = true then 2 ^ (l.length - 1) else 0 := by
  have hlen : 0 < l.length := List.length_pos_iff.2 hl
  have hnone : (l.map fun _ => (1 : ℤ) + -1).prod = 0 := by
    rw [List.map_const', List.prod_replicate]
    simp [hlen.ne']
  have hall : (l.map fun x => (1 : ℤ) + if b x then 1 else -1).prod =
      if ∀ x ∈ l, b x = true then 2 ^ l.length else 0 := by
    split
    · next h =>
      rw [List.map_congr_left (g := fun _ => (2 : ℤ)) fun x hx => by simp [h x hx], List.map_const',
        List.prod_replicate]
    · next h =>
      push Not at h
      obtain ⟨x, hx, hb⟩ := h
      exact List.prod_eq_zero (List.mem_map.2 ⟨x, hx, by simp [hb]⟩)
  have hsum := congrArg₂ (· - ·) (sum_selectBits (fun x => if b x then (1 : ℤ) else -1) l)
    (sum_selectBits (fun _ => (-1 : ℤ)) l)
  rw [← Finset.sum_sub_distrib, Finset.sum_congr rfl fun m _ => (two_mul_charge b _).symm,
    ← Finset.mul_sum, hnone, hall, sub_zero] at hsum
  have hpow : (2 : ℤ) ^ l.length = 2 * 2 ^ (l.length - 1) := by
    rw [← pow_succ', Nat.sub_add_cancel hlen]
  split_ifs at hsum ⊢
  · omega
  · omega

/-! ### Phases -/

/-- The phase of a set of wires is not rounded. -/
theorem onGrid_parityPhase (hD : Phase.IsGrid D) (hdvd : 2 ^ (n - 1) ∣ D) (size : ℕ) :
    (parityPhase n size).OnGrid D ∧ (parityPhase n size).unit =
      Phase.turn ((if size % 2 = 1 then 1 else -1) / 2 ^ (n - 1)) := by
  have hpos : 0 < 2 ^ (n - 1) := by positivity
  have hmul : ((2 ^ (n - 1) : ℕ) : ℤ) ∣ D * if size % 2 = 1 then 1 else -1 :=
    Dvd.dvd.mul_right (Int.natCast_dvd_natCast.2 hdvd) _
  have h := Phase.ofQuotient_of_dvd hD hpos hmul
  rw [parityPhase, Nat.one_shiftLeft]
  refine ⟨h.1, h.2.trans ?_⟩
  push_cast
  rfl

/-- The factor for a set of wires, out of `n`, at given bits. -/
noncomputable def parityFactor (b : α → Bool) (n : ℕ) (l : List α) : ℂ :=
  if l.countP b % 2 = 1 then (parityPhase n l.length).unit else 1

theorem parityFactor_eq (hD : Phase.IsGrid D) (hdvd : 2 ^ (n - 1) ∣ D) (b : α → Bool)
    (l : List α) : parityFactor b n l = Phase.turn (charge b l / 2 ^ (n - 1)) := by
  rw [parityFactor, charge]
  split
  · rw [(onGrid_parityPhase hD hdvd _).2]
    push_cast
    rfl
  · simp

theorem turn_sum (s : Finset ℕ) (f : ℕ → ℚ) :
    Phase.turn (∑ i ∈ s, f i) = ∏ i ∈ s, Phase.turn (f i) := by
  induction s using Finset.induction_on with
  | empty => simp
  | insert i s hi ih => rw [Finset.sum_insert hi, Finset.prod_insert hi, Phase.turn_add, ih]

/-- The factors for all sets of wires are that of the box. -/
theorem prod_parityFactor (hD : Phase.IsGrid D) (hl : l ≠ []) (hdvd : 2 ^ (l.length - 1) ∣ D)
    (b : α → Bool) : ∏ m ∈ Finset.range (2 ^ l.length), parityFactor b l.length (selectBits m l) =
      if ∀ x ∈ l, b x = true then -1 else 1 := by
  have hsum := congrArg (Int.cast : ℤ → ℚ) (sum_charge hl b)
  rw [Int.cast_sum] at hsum
  rw [Finset.prod_congr rfl fun m _ => parityFactor_eq hD hdvd b _, ← turn_sum, ← Finset.sum_div,
    hsum]
  split
  · push_cast
    rw [div_self (by positivity), Phase.turn_one]
  · simp

end ZXRewriting.GraphLike
