import Mathlib.Algebra.Ring.Parity
import ZXRewriting.Proofs.GraphLike.Steady

/-!
# Odd neighbourhoods in a steady web

Turning over the bits of a set of spiders, and those of the ends wired to them, changes the weight by
a constant and by a sign for each other spider that has an odd number of edges to the set
(`Web.weight_mask`), if the factors in the set are chosen to fit. So in a steady web a set of
spiders away from the inputs always has an odd number of edges to some other spider away from the
outputs, and the other way round (`Web.Steady.oddCut`): else two rows of the matrix would be
proportional, or one of them zero.
-/

namespace ZXRewriting

open Function (update update_self update_of_ne)
open Multigraph (SamePair)

/-! ### Masks -/

/-- Adding fixed bits to those summed over. -/
theorem sumOver_mask {zs : Finset Vertex} {f : Bits → ℂ} {b b' m : Bits}
    (h : ∀ u ∉ zs, b' u = (b u ^^ m u)) :
    sumOver zs f b' = sumOver zs (fun b => f fun u => b u ^^ m u) b := by
  induction zs using Finset.induction_on generalizing f b' with
  | empty =>
    rw [sumOver_empty, sumOver_empty]
    exact congrArg f (funext fun u => h u (Finset.notMem_empty u))
  | insert v zs hv ih =>
    have hxor (b : Bits) (x : Bool) : (fun u => update b v x u ^^ m u) =
        update (fun u => b u ^^ m u) v (x ^^ m v) := by
      funext u
      by_cases hu : u = v
      · simp [hu]
      · simp [hu]
    have hfree := sumOver_update_of_notMem (x := b v ^^ m v) (b := b')
      (f := fun b => f (update b v false) + f (update b v true)) hv
    simp only [Function.update_idem] at hfree
    rw [sumOver_insert hv, sumOver_insert hv, ← hfree, ih fun u hu => ?_]
    · refine sumOver_congr fun b _ => ?_
      rw [hxor, hxor]
      cases m v
      · simp
      · simp [add_comm]
    · by_cases huv : u = v
      · rw [huv, update_self]
      · rw [update_of_ne huv]
        exact h u (by simp [huv, hu])

/-- The product over both directions of all pairs. -/
theorem Network.prod_pairs_both {bound : ℕ} {F : ℕ → ℕ → ℂ} (hself : ∀ p, F p p = 1) :
    ∏ p ∈ pairs bound, F p.1 p.2 * F p.2 p.1 =
      ∏ s ∈ Finset.range bound, ∏ t ∈ Finset.range bound, F s t := by
  -- the pairs the other way round, and the diagonal
  have hrest : ∏ p ∈ pairs bound, F p.2 p.1 =
      ∏ p ∈ (Finset.range bound ×ˢ Finset.range bound).filter (fun p => ¬p.1 < p.2), F p.1 p.2 := by
    have hsub : (Finset.range bound ×ˢ Finset.range bound).filter (fun p => p.2 < p.1) ⊆
        (Finset.range bound ×ˢ Finset.range bound).filter (fun p => ¬p.1 < p.2) :=
      Finset.monotone_filter_right _ fun p _ hp => Nat.lt_asymm hp
    rw [← Finset.prod_subset hsub fun p hp hp' => ?_]
    · refine Finset.prod_bij' (fun p _ => p.swap) (fun p _ => p.swap) (fun p hp => ?_)
        (fun p hp => ?_) (fun _ _ => rfl) (fun _ _ => rfl) fun _ _ => rfl
      · have := mem_pairs.1 hp
        simp only [Finset.mem_filter, Finset.mem_product, Finset.mem_range, Prod.fst_swap,
          Prod.snd_swap]
        omega
      · simp only [Finset.mem_filter, Finset.mem_product, Finset.mem_range] at hp
        rw [mem_pairs, Prod.fst_swap, Prod.snd_swap]
        omega
    · simp only [Finset.mem_filter] at hp hp'
      have hle : ¬p.2 < p.1 := fun h => hp' ⟨hp.1, h⟩
      rw [show p.2 = p.1 by omega, hself]
  rw [← Finset.prod_product', Finset.prod_mul_distrib, hrest, pairs,
    Finset.prod_filter_mul_prod_filter_not]

namespace Web

variable {w w' : Web} {s t u v : Vertex} {σ : Vertex → ℂ} {b m : Bits} {n : ℕ}
  {os is : List Vertex} {zs : Finset Vertex}

/-- The number of Hadamard edges to the vertices of a mask. -/
def touches (w : Web) (m : Bits) (v : Vertex) : ℕ :=
  ∑ u ∈ Finset.range w.next, if m u then w.count v u .hadamard else 0

/-- What the weight is multiplied by, when the bits of a mask are turned over. -/
noncomputable def maskFactor (w : Web) (σ : Vertex → ℂ) (m : Bits) : ℂ :=
  (∏ p ∈ Network.pairs w.next, EdgeKind.hadamard.value (m p.1) (m p.2) ^ w.count p.1 p.2 .hadamard) *
    ∏ v ∈ (w.weighted σ).inner, if m v then σ v else 1

/-- The signs of the edges from a vertex to a mask. -/
theorem prod_value_mask (x : Bool) (v : Vertex) :
    ∏ u ∈ Finset.range w.next, EdgeKind.hadamard.value x (m u) ^ w.count v u .hadamard =
      if x then (-1) ^ w.touches m v else 1 := by
  cases x with
  | false => simp
  | true =>
    rw [if_pos rfl, touches, ← Finset.prod_pow_eq_pow_sum]
    refine Finset.prod_congr rfl fun u _ => ?_
    cases m u <;> simp [EdgeKind.value]

/-- Turning over the bits of a mask that goes along the plain edges, the factors in the mask being
    roots of the signs there. -/
theorem Valid.weight_mask (hw : w.Valid) (hm : ∀ s t, w.count s t .plain ≠ 0 → m s = m t)
    (hends : ∀ v, ¬w.IsZ v → Even (w.touches m v))
    (hσ : ∀ v, w.IsZ v → m v = true → σ v * σ v = (-1) ^ w.touches m v) (b : Bits) :
    (w.weighted σ).weight (fun u => b u ^^ m u) = w.maskFactor σ m * (w.weighted σ).weight b *
      ∏ v ∈ (w.weighted σ).inner, if b v && !m v then (-1) ^ w.touches m v else 1 := by
  set n := w.weighted σ with hn
  have hbond (s t : Vertex) : n.bond (fun u => b u ^^ m u) s t = n.bond b s t *
      EdgeKind.hadamard.value (m s) (m t) ^ w.count s t .hadamard *
      (EdgeKind.hadamard.value (b s) (m t) ^ w.count s t .hadamard *
        EdgeKind.hadamard.value (b t) (m s) ^ w.count t s .hadamard) := by
    have hplain : EdgeKind.plain.value (b s ^^ m s) (b t ^^ m t) ^ w.count s t .plain =
        EdgeKind.plain.value (b s) (b t) ^ w.count s t .plain := by
      by_cases hzero : w.count s t .plain = 0
      · rw [hzero, pow_zero, pow_zero]
      · rw [hm s t hzero]
        cases b s <;> cases b t <;> cases m t <;> rfl
    have hhad : EdgeKind.hadamard.value (b s ^^ m s) (b t ^^ m t) =
        EdgeKind.hadamard.value (b s) (b t) * EdgeKind.hadamard.value (m s) (m t) *
          (EdgeKind.hadamard.value (b s) (m t) * EdgeKind.hadamard.value (b t) (m s)) := by
      cases b s <;> cases b t <;> cases m s <;> cases m t <;> simp [EdgeKind.value]
    change EdgeKind.plain.value (b s ^^ m s) (b t ^^ m t) ^ w.count s t .plain *
      EdgeKind.hadamard.value (b s ^^ m s) (b t ^^ m t) ^ w.count s t .hadamard = _
    rw [hplain, hhad, hw.symm t s]
    change _ = EdgeKind.plain.value (b s) (b t) ^ w.count s t .plain *
      EdgeKind.hadamard.value (b s) (b t) ^ w.count s t .hadamard * _ * _
    ring
  have hpairs : ∏ p ∈ Network.pairs w.next, n.bond (fun u => b u ^^ m u) p.1 p.2 =
      (∏ p ∈ Network.pairs w.next, n.bond b p.1 p.2) *
        (∏ p ∈ Network.pairs w.next,
          EdgeKind.hadamard.value (m p.1) (m p.2) ^ w.count p.1 p.2 .hadamard) *
        ∏ v ∈ n.inner, if b v then (-1) ^ w.touches m v else 1 := by
    rw [Finset.prod_congr rfl fun (p : ℕ × ℕ) _ => hbond p.1 p.2, Finset.prod_mul_distrib,
      Finset.prod_mul_distrib]
    congr 1
    rw [Network.prod_pairs_both (F := fun s t =>
      EdgeKind.hadamard.value (b s) (m t) ^ w.count s t .hadamard) fun p => by rw [hw.self, pow_zero],
      Finset.prod_congr rfl fun v _ => prod_value_mask (b v) v]
    refine (Finset.prod_subset (fun v hv => Finset.mem_range.2 (mem_inner_weighted.1 hv).1)
      fun v hv hv' => ?_).symm
    rw [(hends v fun hz => hv' (mem_inner_weighted.2 ⟨Finset.mem_range.1 hv, hz⟩)).neg_one_pow,
      ite_self]
  have hspins : (∏ v ∈ n.inner, n.spin (fun u => b u ^^ m u) v) *
      (∏ v ∈ n.inner, if b v then (-1) ^ w.touches m v else 1) =
      (∏ v ∈ n.inner, if m v then σ v else 1) * (∏ v ∈ n.inner, n.spin b v) *
        ∏ v ∈ n.inner, if b v && !m v then (-1) ^ w.touches m v else 1 := by
    rw [← Finset.prod_mul_distrib, ← Finset.prod_mul_distrib, ← Finset.prod_mul_distrib]
    refine Finset.prod_congr rfl fun v hv => ?_
    have hroot := hσ v (mem_inner_weighted.1 hv).2
    change (if b v ^^ m v then σ v else 1) * _ = _ * (if b v then σ v else 1) * _
    cases hb : b v <;> cases hmv : m v <;> simp [hmv] at hroot ⊢
    exact hroot.symm
  rw [Network.weight, Network.weight, maskFactor]
  change _ * ∏ p ∈ Network.pairs w.next, _ = _ * (_ * ∏ p ∈ Network.pairs w.next, _) * _
  rw [hpairs]
  linear_combination (∏ p ∈ Network.pairs w.next, n.bond b p.1 p.2) * (∏ p ∈ Network.pairs w.next,
    EdgeKind.hadamard.value (m p.1) (m p.2) ^ w.count p.1 p.2 .hadamard) * hspins

/-! ### Sets of spiders -/

/-- All edges at ends are wires. -/
def PlainEnds (w : Web) : Prop := ∀ t, w.IsEnd t → ∀ u, w.count t u .hadamard = 0

/-- A set of spiders with the ends next to them. -/
def maskOf (w : Web) (zs : Finset Vertex) : Bits := fun x =>
  decide (x ∈ zs ∨ w.IsEnd x ∧ ∃ v ∈ zs, v ∈ w.nearby x)

/-- Every set of spiders away from the inputs has an odd number of edges to some other spider, one
    away from the outputs. -/
def OddCut (w : Web) (outputs inputs : List Vertex) : Prop :=
  ∀ zs : Finset Vertex, zs.Nonempty →
    (∀ v ∈ zs, w.IsZ v ∧ ∀ t ∈ w.nearby v, t ∉ inputs) →
    ∃ v ∉ zs, w.IsZ v ∧ (∀ t ∈ w.nearby v, t ∉ outputs) ∧ Odd (∑ u ∈ zs, w.joins v u)

/-- Vertices next to ends have their bits. -/
theorem InForm.bit_eq_of_weight (hw : w.InForm) (hplain : w.PlainEnds) (ht : w.IsEnd t)
    (hj : t ∈ w.nearby v) (h : (w.weighted σ).weight b ≠ 0) : b v = b t := by
  have hval := hw.simple.valid
  have h₀ := SameShape.unphased w
  obtain ⟨k, hk⟩ := Option.isSome_iff_exists.1 (link_isSome_iff.2 (hval.mem_nearby.1 hj))
  rw [← network_unphased, (h₀.inForm hw).weight_cut ((h₀.link v t).trans hk)] at h
  cases k with
  | plain =>
    by_contra hne
    exact h (by simp [EdgeKind.value, hne])
  | hadamard =>
    have hcount := hplain t ht v
    rw [hval.symm] at hcount
    simp [link, hcount] at hk

theorem maskOf_of_isZ (hv : w.IsZ v) : w.maskOf zs v = decide (v ∈ zs) := by
  simp [maskOf, hv.not_isEnd]

section

variable (hw : w.InForm) (hplain : w.PlainEnds) (hzs : ∀ v ∈ zs, w.IsZ v)
include hw hzs

/-- The mask of a set of spiders goes along the plain edges. -/
theorem InForm.maskOf_eq_of_plain (h : w.count s t .plain ≠ 0) : w.maskOf zs s = w.maskOf zs t := by
  have hval := hw.simple.valid
  have hside {s t : Vertex} (hs : w.IsEnd s) (h : w.count s t .plain ≠ 0) :
      w.maskOf zs s = w.maskOf zs t := by
    have hmem : t ∈ w.nearby s :=
      hval.mem_nearby.2 (joins_pos_iff.2 ⟨.plain, Nat.pos_of_ne_zero h⟩)
    have hnot {x : Vertex} (hx : w.IsEnd x) : x ∉ zs := fun h => (hzs x h).not_isEnd hx
    have hnear := hw.nearby_end hs hmem
    rcases hw.simple.colour t (hval.has_of_mem_nearby hmem) with ht | ht
    · rw [maskOf_of_isZ ht]
      simp [maskOf, hs, hnot hs, hnear]
    · have hnear' := hw.nearby_end ht (hval.mem_nearby_comm.1 hmem)
      simp [maskOf, hs, ht, hnot hs, hnot ht, hnear, hnear']
  rcases hw.simple.colour s (hval.has _ _ _ (Nat.pos_of_ne_zero h)) with hs | hs
  · rcases hw.simple.colour t (hval.has _ _ _ (hval.symm s t _ ▸ Nat.pos_of_ne_zero h)) with ht | ht
    · exact absurd (hw.simple.plain s t hs ht) h
    · exact (hside ht (hval.symm s t _ ▸ h)).symm
  · exact hside hs h

include hplain

theorem InForm.touches_maskOf (hv : w.IsZ v) :
    w.touches (w.maskOf zs) v = ∑ u ∈ zs, w.joins v u := by
  have hval := hw.simple.valid
  have hsub : zs ⊆ Finset.range w.next := fun u hu => Finset.mem_range.2 (hval.lt u (hzs u hu).has)
  rw [touches, ← Finset.sum_subset hsub fun u _ hu => ?_]
  · refine Finset.sum_congr rfl fun u hu => ?_
    rw [maskOf_of_isZ (hzs u hu), if_pos (decide_eq_true hu),
      hw.simple.hadamard_eq hv (hzs u hu)]
  · split
    · next hm =>
      have hend : w.IsEnd u := by
        rw [maskOf, decide_eq_true_iff] at hm
        exact (hm.resolve_left hu).1
      rw [hval.symm, hplain u hend]
    · rfl

omit hzs in
theorem InForm.touches_eq_zero (hv : ¬w.IsZ v) (m : Bits) : w.touches m v = 0 := by
  have hval := hw.simple.valid
  refine Finset.sum_eq_zero fun u _ => ?_
  have hzero : w.count v u .hadamard = 0 := by
    by_contra hne
    have hhas := hval.has _ _ _ (Nat.pos_of_ne_zero hne)
    exact hne (hplain v ((hw.simple.colour v hhas).resolve_left hv) u)
  rw [hzero, ite_self]

/-- Turning over the bits of a set of spiders, with the bits of the outputs being zero. -/
theorem InForm.weight_maskOf {os : List Vertex}
    (heven : ∀ v ∉ zs, w.IsZ v → (∀ t ∈ w.nearby v, t ∉ os) → Even (∑ u ∈ zs, w.joins v u))
    (hos : ∀ t ∈ os, w.IsEnd t)
    (hσ : ∀ v ∈ zs, σ v * σ v = (-1) ^ ∑ u ∈ zs, w.joins v u) (hb : ∀ t ∈ os, b t = false) :
    (w.weighted σ).weight (fun u => b u ^^ w.maskOf zs u) =
      w.maskFactor σ (w.maskOf zs) * (w.weighted σ).weight b := by
  have hval := hw.simple.valid
  rw [hval.weight_mask (fun s t => hw.maskOf_eq_of_plain hzs)
    (fun v hv => by rw [hw.touches_eq_zero hplain hv]; exact Even.zero) fun v hv hm => ?_]
  · by_cases hzero : (w.weighted σ).weight b = 0
    · rw [hzero, mul_zero, zero_mul]
    rw [Finset.prod_eq_one fun v hv => ?_, mul_one]
    have hz := (mem_inner_weighted.1 hv).2
    rw [hw.touches_maskOf hplain hzs hz, maskOf_of_isZ hz]
    split
    · next hbv =>
      rw [Bool.and_eq_true, Bool.not_eq_true', decide_eq_false_iff_not] at hbv
      -- the bit of a spider next to an output is zero
      refine (heven v hbv.2 hz fun t ht hto => ?_).neg_one_pow
      have heq := hw.bit_eq_of_weight hplain (hos t hto) ht hzero
      rw [hbv.1, hb t hto] at heq
      cases heq
    · rfl
  · rw [maskOf_of_isZ hv, decide_eq_true_iff] at hm
    rw [hw.touches_maskOf hplain hzs hv]
    exact hσ v hm

end

/-- The factor of a mask changes its sign with that of a spider in it. -/
theorem maskFactor_neg (hv : v ∈ (w.weighted σ).inner) (hm : m v = true) :
    w.maskFactor (update σ v (-σ v)) m = -w.maskFactor σ m := by
  have hprod : ∏ u ∈ (w.weighted σ).inner, (if m u then update σ v (-σ v) u else 1) =
      -∏ u ∈ (w.weighted σ).inner, if m u then σ u else 1 := by
    rw [← Finset.mul_prod_erase _ _ hv, ← Finset.mul_prod_erase _ (fun u => if m u then σ u else 1) hv,
      if_pos hm, if_pos hm, update_self, neg_mul]
    refine congrArg _ (congrArg _ (Finset.prod_congr rfl fun u hu => ?_))
    rw [update_of_ne (Finset.ne_of_mem_erase hu)]
  rw [maskFactor, maskFactor, ← mul_neg, ← hprod]
  rfl

/-- Factors that are roots of the signs of the numbers of edges to a set. -/
def SignRoots (w : Web) (σ : Vertex → ℂ) (zs : Finset Vertex) : Prop :=
  ∀ v, σ v ≠ 0 ∧ σ v * σ v = (-1) ^ ∑ u ∈ zs, w.joins v u

theorem exists_signRoots (w : Web) (zs : Finset Vertex) : ∃ σ, w.SignRoots σ zs := by
  refine ⟨fun v => if Even (∑ u ∈ zs, w.joins v u) then 1 else Complex.I, fun v => ?_⟩
  dsimp only
  split
  · next h => exact ⟨one_ne_zero, by rw [h.neg_one_pow, one_mul]⟩
  · next h =>
    refine ⟨Complex.I_ne_zero, ?_⟩
    rw [(Nat.not_even_iff_odd.1 h).neg_one_pow, Complex.I_mul_I]

/-- Each factor can be the other root. -/
theorem SignRoots.flip (h : w.SignRoots σ zs) (v : Vertex) :
    w.SignRoots (update σ v (-σ v)) zs := fun u => by
  by_cases hu : u = v
  · rw [hu, update_self, neg_mul_neg]
    exact ⟨neg_ne_zero.2 (h v).1, (h v).2⟩
  · rw [update_of_ne hu]
    exact h u

/-- The row for the bits of a mask at the outputs is a multiple of that for zeros, if the set has no
    odd neighbours. -/
theorem InForm.amplitude_maskOf (hw : w.InForm) (hplain : w.PlainEnds) (hends : Ends n os is)
    (hmem : ∀ t, w.IsEnd t ↔ t ∈ os ∨ t ∈ is)
    (hfar : ∀ v ∈ zs, w.IsZ v ∧ ∀ t ∈ w.nearby v, t ∉ is)
    (hall : ∀ v ∉ zs, w.IsZ v → (∀ t ∈ w.nearby v, t ∉ os) → Even (∑ u ∈ zs, w.joins v u))
    (hσ : w.SignRoots σ zs) (x : Fin n → Bool) :
    (w.weighted σ).amplitude (endBits os is (fun q : Fin n => w.maskOf zs (os.getD q 0)) x) =
      w.maskFactor σ (w.maskOf zs) *
        (w.weighted σ).amplitude (endBits os is (fun _ : Fin n => false) x) := by
  have hval := hw.simple.valid
  have hout {t : Vertex} (ht : t ∈ os) :
      endBits os is (fun q : Fin n => w.maskOf zs (os.getD q 0)) x t = w.maskOf zs t ∧
        endBits os is (fun _ : Fin n => false) x t = false := by
    obtain ⟨q, hq, rfl⟩ := hends.exists_output ht
    rw [hends.endBits_output hq, hends.endBits_output hq, getBit, getBit, dif_pos hq, dif_pos hq]
    exact ⟨rfl, rfl⟩
  rw [Network.amplitude, sumOver_mask (m := w.maskOf zs) fun u hu => ?_, Network.amplitude,
    ← sumOver_mul_left]
  · refine sumOver_congr fun b hb => ?_
    refine hw.weight_maskOf hplain (fun v hv => (hfar v hv).1) hall
      (fun t ht => (hmem t).2 (.inl ht)) (fun v _ => (hσ v).2) fun t ht => ?_
    rw [hb t fun h => (mem_inner_weighted.1 h).2.not_isEnd ((hmem t).2 (.inl ht))]
    exact (hout ht).2
  · by_cases ho : u ∈ os
    · rw [(hout ho).1, (hout ho).2, Bool.false_xor]
    · have hmu : w.maskOf zs u = false := by
        rw [maskOf, decide_eq_false_iff_not]
        rintro (huz | ⟨he, v, hv, hu'⟩)
        · have hz := (hfar u huz).1
          exact hu (mem_inner_weighted.2 ⟨hval.lt u hz.has, hz⟩)
        · exact (hfar v hv).2 u (hval.mem_nearby_comm.1 hu') (((hmem u).1 he).resolve_left ho)
      rw [hmu, Bool.xor_false, endBits, endBits, if_neg ho, if_neg ho]

/-- In a web that is invertible for all factors, sets of spiders have odd neighbours. -/
theorem InForm.oddCut_of_plain (hw : w.InForm) (hplain : w.PlainEnds) (hends : Ends n os is)
    (hmem : ∀ t, w.IsEnd t ↔ t ∈ os ∨ t ∈ is)
    (hinv : ∀ σ : Vertex → ℂ, (∀ v, σ v ≠ 0) → Reversible n os is (w.weighted σ).amplitude) :
    w.OddCut os is := by
  classical
  intro zs ⟨v, hv⟩ hfar
  by_contra hall
  push Not at hall
  have heven : ∀ v ∉ zs, w.IsZ v → (∀ t ∈ w.nearby v, t ∉ os) → Even (∑ u ∈ zs, w.joins v u) :=
    fun v hv hz hnear => Nat.not_odd_iff_even.1 (hall v hv hz hnear)
  have hrows {σ : Vertex → ℂ} (hσ : w.SignRoots σ zs) (x : Fin n → Bool) :=
    hw.amplitude_maskOf hplain hends hmem hfar heven hσ x
  obtain ⟨σ, hσ⟩ := w.exists_signRoots zs
  by_cases hy : (fun q : Fin n => w.maskOf zs (os.getD q 0)) = fun _ => false
  · -- one row is a multiple of itself, by two different numbers
    have hone {σ : Vertex → ℂ} (hσ : w.SignRoots σ zs) : w.maskFactor σ (w.maskOf zs) = 1 := by
      obtain ⟨x, hx⟩ :=
        (hends.reversible_comm.1 (hinv σ fun v => (hσ v).1)).exists_ne_zero fun _ => false
      rw [← hends.endBits_comm] at hx
      have hrow := hrows hσ x
      rw [hy] at hrow
      exact mul_right_cancel₀ hx (hrow.symm.trans (one_mul _).symm)
    have hz := (hfar v hv).1
    have hneg : w.maskFactor (update σ v (-σ v)) (w.maskOf zs) = -w.maskFactor σ (w.maskOf zs) := by
      refine maskFactor_neg (mem_inner_weighted.2 ⟨hw.simple.valid.lt v hz.has, hz⟩) ?_
      rw [maskOf_of_isZ hz, decide_eq_true hv]
    rw [hone (hσ.flip v), hone hσ] at hneg
    norm_num at hneg
  · obtain ⟨x, hx⟩ := (hends.reversible_comm.1 (hinv σ fun v => (hσ v).1)).exists_ne hy
      (w.maskFactor σ (w.maskOf zs))
    rw [← hends.endBits_comm, ← hends.endBits_comm] at hx
    exact hx (hrows hσ x)

/-! ### Steady webs -/

/-- Webs with the same vertices and edges, up to the kinds of the edges. -/
structure SameJoins (w w' : Web) : Prop where
  kind : w'.kind = w.kind
  nearby : ∀ v, w'.nearby v = w.nearby v
  joins : ∀ s t, w'.joins s t = w.joins s t
  inputs : w'.inputs = w.inputs
  outputs : w'.outputs = w.outputs

namespace SameJoins

theorem refl (w : Web) : SameJoins w w := ⟨rfl, fun _ => rfl, fun _ _ => rfl, rfl, rfl⟩

theorem trans {w'' : Web} (h : SameJoins w w') (h' : SameJoins w' w'') : SameJoins w w'' :=
  ⟨h'.kind.trans h.kind, fun v => (h'.nearby v).trans (h.nearby v),
    fun s t => (h'.joins s t).trans (h.joins s t), h'.inputs.trans h.inputs,
    h'.outputs.trans h.outputs⟩

theorem isZ (h : SameJoins w w') : w'.IsZ v ↔ w.IsZ v := by rw [IsZ, h.kind, IsZ]

theorem isEnd (h : SameJoins w w') : w'.IsEnd v ↔ w.IsEnd v := by rw [IsEnd, h.kind, IsEnd]

theorem oddCut (h : SameJoins w w') (hodd : w'.OddCut os is) : w.OddCut os is := by
  intro zs hne hzs
  obtain ⟨v, hv, hz, hnear, hsum⟩ := hodd zs hne fun v hv =>
    ⟨h.isZ.2 (hzs v hv).1, fun t ht => (hzs v hv).2 t (h.nearby v ▸ ht)⟩
  refine ⟨v, hv, h.isZ.1 hz, fun t ht => hnear t (h.nearby v ▸ ht), ?_⟩
  simpa only [h.joins] using hsum

end SameJoins

/-- Hadamard edges to ends are made wires. -/
theorem Steady.exists_plainEnds (hs : w.Steady) (hw : w.InForm) :
    ∃ w', SameJoins w w' ∧ w'.InForm ∧ w'.Steady ∧ w'.PlainEnds := by
  classical
  -- there are fewer ends with a Hadamard edge
  induction hn : ((Finset.range w.next).filter fun t =>
    w.IsEnd t ∧ ∃ v, w.link v t = some .hadamard).card using Nat.strongRecOn generalizing w with
  | ind n ih =>
  have hval := hw.simple.valid
  by_cases hex : ∃ t v, w.IsEnd t ∧ w.link v t = some .hadamard
  · obtain ⟨t, v, ht, hk⟩ := hex
    have hkeeps := hw.setKind ht hk .plain
    have hjoins (x y : Vertex) : (w.setKind v t .plain).joins x y = w.joins x y :=
      hval.joins_setKind x y
    have hsame : SameJoins w (w.setKind v t .plain) :=
      ⟨rfl, fun u => List.filter_congr fun x _ => by rw [hjoins], hjoins, rfl, rfl⟩
    have hsteady : (w.setKind v t .plain).Steady := ⟨hs.lengths, fun σ hσ =>
      (hw.inverts_setKind hs.lengths ht hk).2 (hs.inverts σ hσ)⟩
    have hlink {x y : Vertex} (h : (w.setKind v t .plain).link x y = some .hadamard) :
        w.link x y = some .hadamard ∧ ¬SamePair x y v t := by
      have hnot : ¬SamePair x y v t := fun hp => by
        have hpos : 0 < w.joins v t := link_isSome_iff.1 (by rw [hk]; rfl)
        simp [link, setKind, setCount, hp, hpos] at h
      have hcount (k : EdgeKind) : (w.setKind v t .plain).count x y k = w.count x y k := by
        simp [setKind, setCount, hnot]
      rw [link, hcount, hcount] at h
      exact ⟨h, hnot⟩
    have hfewer : ((Finset.range w.next).filter fun x => w.IsEnd x ∧
        ∃ u, (w.setKind v t .plain).link u x = some .hadamard).card < n := by
      rw [← hn]
      refine Finset.card_lt_card ((Finset.ssubset_iff_of_subset fun x hx => ?_).2 ⟨t, ?_, ?_⟩)
      · obtain ⟨hlt, hx, u, hu⟩ := Finset.mem_filter.1 hx
        exact Finset.mem_filter.2 ⟨hlt, hx, u, (hlink hu).1⟩
      · exact Finset.mem_filter.2 ⟨Finset.mem_range.2 (hval.lt t ht.has), ht, v, hk⟩
      · intro hmem
        obtain ⟨-, -, u, hu⟩ := Finset.mem_filter.1 hmem
        obtain rfl := hw.eq_of_link ht (hlink hu).1 hk
        exact (hlink hu).2 (.inl ⟨rfl, rfl⟩)
    obtain ⟨w', hsame', hrest⟩ := ih _ hfewer hsteady hkeeps rfl
    exact ⟨w', hsame.trans hsame', hrest⟩
  · push Not at hex
    refine ⟨w, .refl w, hw, hs, fun t ht u => ?_⟩
    by_contra hne
    refine hex t u ht ?_
    have hone := hw.simple.count_eq t u .hadamard
    by_contra hno
    exact hne (hone.trans (if_neg (hval.link_comm u t ▸ hno)))

/-- In a steady web sets of spiders away from the inputs have odd neighbours away from the outputs, and
    the other way round. -/
theorem Steady.oddCut (hs : w.Steady) (hw : w.InForm) :
    w.OddCut w.outputs w.inputs ∧ w.OddCut w.inputs w.outputs := by
  obtain ⟨w', hsame, hw', hs', hplain⟩ := hs.exists_plainEnds hw
  have hends := hw'.toEnds hs'.lengths
  rw [← hsame.outputs, ← hsame.inputs]
  have hmem (t : Vertex) : w'.IsEnd t ↔ t ∈ w'.outputs ∨ t ∈ w'.inputs :=
    ⟨fun h => (hw'.mem_of_isEnd h).symm, fun h => h.elim hw'.isEnd_of_mem_outputs hw'.isEnd_input⟩
  exact ⟨hsame.oddCut (hw'.oddCut_of_plain hplain hends hmem hs'.inverts),
    hsame.oddCut (hw'.oddCut_of_plain hplain hends.symm (fun t => (hmem t).trans or_comm)
      fun σ hσ => hends.reversible_comm.1 (hs'.inverts σ hσ))⟩

/-- The bits of two different outputs of a steady web are independent: no vertex is next to both, and
    they are not joined. -/
theorem Steady.output_eq_of_nearby (hs : w.Steady) (hw : w.InForm) (ht : t ∈ w.outputs)
    (hs' : s ∈ w.outputs) (h : t ∈ w.nearby s ∨ ∃ v, t ∈ w.nearby v ∧ s ∈ w.nearby v) : s = t := by
  obtain ⟨w', hsame, hw', hs₀, hplain⟩ := hs.exists_plainEnds hw
  have hends := hw'.toEnds hs₀.lengths
  rw [← hsame.outputs] at ht hs'
  by_contra hne
  obtain ⟨q, hq, rfl⟩ := hends.exists_output hs'
  obtain ⟨r, hr, rfl⟩ := hends.exists_output ht
  -- a row with different bits at the two outputs
  obtain ⟨x, hx⟩ := (hends.reversible_comm.1 (hs₀.inverts 1 fun _ => one_ne_zero)).exists_ne_zero
    fun p => decide (p.1 = q)
  rw [← hends.endBits_comm] at hx
  obtain ⟨b, hb, hweight⟩ : ∃ b, (∀ t ∈ w'.outputs,
      b t = endBits w'.outputs w'.inputs (fun p => decide (p.1 = q)) x t) ∧
      (w'.weighted 1).weight b ≠ 0 := by
    by_contra hall
    push Not at hall
    exact hx (sumOver_zero fun b hb => hall b fun t ht => hb t fun h =>
      (mem_inner_weighted.1 h).2.not_isEnd (hw'.isEnd_of_mem_outputs ht))
  have hbit {v t : Vertex} (ht : t ∈ w'.outputs) (hj : t ∈ w.nearby v) : b v = b t :=
    hw'.bit_eq_of_weight hplain (hw'.isEnd_of_mem_outputs ht) (hsame.nearby v ▸ hj) hweight
  have hsame' : b (w'.outputs.getD q 0) = b (w'.outputs.getD r 0) := by
    rcases h with h | ⟨v, hvt, hvs⟩
    · exact hbit ht h
    · exact (hbit hs' hvs).symm.trans (hbit ht hvt)
  rw [hb _ hs', hb _ ht, hends.endBits_output hq, hends.endBits_output hr, getBit, getBit, dif_pos hq,
    dif_pos hr] at hsame'
  have hqr : r = q := by simpa using hsame'
  exact hne (by rw [hqr])

end Web

end ZXRewriting
