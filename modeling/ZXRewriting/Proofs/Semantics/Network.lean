import Mathlib.Algebra.BigOperators.Group.Finset.Powerset
import Mathlib.Algebra.BigOperators.Ring.Finset
import Mathlib.Data.Complex.Basic
import Mathlib.Tactic.LinearCombination
import ZXRewriting.Spider

/-!
# Networks of bits

What a diagram denotes, apart from how it is stored: a *network* has bits at its vertices, a
factor for each bit summed over and a factor for each edge. `Network.weight` is the product of
the factors for given bits, and `Network.amplitude` the sum of the weights over the bits inside,
a function of the bits at the boundary.

A rewrite is sound when the weights of the one side, summed over the bits that it removes, are
those of the other side times a scalar that is not zero; the rest of the file are the rules for
such local sums (`sumOver_insert`), for taking a vertex out of a weight (`Network.weight_star`),
and for changing one factor at a time (`Network.weight_mul_edge`, `Network.weight_mul_factor`).
-/

namespace ZXRewriting

/-- Bits at the vertices. -/
abbrev Bits := Vertex → Bool

open Function (update update_self update_of_ne update_comm update_idem)

/-! ### Scalars -/

/-- Two functions of bits that are equal up to a scalar which is not zero. -/
def Proportional (f g : Bits → ℂ) : Prop := ∃ c : ℂ, c ≠ 0 ∧ ∀ b, f b = c * g b

namespace Proportional

variable {f g h : Bits → ℂ}

@[refl] theorem refl (f : Bits → ℂ) : Proportional f f := ⟨1, one_ne_zero, fun _ => by rw [one_mul]⟩

theorem of_eq (h : ∀ b, f b = g b) : Proportional f g :=
  ⟨1, one_ne_zero, fun b => by rw [one_mul, h]⟩

theorem symm (h : Proportional f g) : Proportional g f := by
  obtain ⟨c, hc, hfg⟩ := h
  exact ⟨c⁻¹, inv_ne_zero hc, fun b => by rw [hfg, inv_mul_cancel_left₀ hc]⟩

theorem trans (h₁ : Proportional f g) (h₂ : Proportional g h) : Proportional f h := by
  obtain ⟨c, hc, hfg⟩ := h₁
  obtain ⟨d, hd, hgh⟩ := h₂
  exact ⟨c * d, mul_ne_zero hc hd, fun b => by rw [hfg, hgh, mul_assoc]⟩

end Proportional

/-! ### Sums over bits -/

/-- The sum of a function over the bits at the vertices of a set, given those at the others. -/
noncomputable def sumOver (zs : Finset Vertex) (f : Bits → ℂ) (b : Bits) : ℂ :=
  ∑ T ∈ zs.powerset, f fun v => if v ∈ zs then decide (v ∈ T) else b v

variable {zs : Finset Vertex} {f g : Bits → ℂ} {b : Bits} {u v : Vertex} {x : Bool}

@[simp] theorem sumOver_empty : sumOver ∅ f b = f b := by simp [sumOver]

/-- Summing over one bit more. -/
theorem sumOver_insert (hv : v ∉ zs) : sumOver (insert v zs) f b =
    sumOver zs (fun b => f (update b v false) + f (update b v true)) b := by
  rw [sumOver, Finset.sum_powerset_insert hv, sumOver, ← Finset.sum_add_distrib]
  refine Finset.sum_congr rfl fun T hT => ?_
  have hvT : v ∉ T := fun h => hv (Finset.mem_powerset.1 hT h)
  congr 1 <;> refine congrArg f (funext fun u => ?_)
  · by_cases hu : u = v
    · simp [hu, hvT]
    · simp [hu, Finset.mem_insert]
  · by_cases hu : u = v
    · simp [hu]
    · simp [hu, Finset.mem_insert]

theorem sumOver_singleton : sumOver {v} f b = f (update b v false) + f (update b v true) := by
  rw [← insert_empty_eq, sumOver_insert (Finset.notMem_empty v), sumOver_empty]

theorem sumOver_pair (huv : u ≠ v) :
    sumOver {u, v} f b = ∑ y : Bool, ∑ x : Bool, f (update (update b v x) u y) := by
  rw [sumOver_insert (by simpa using huv), sumOver_singleton]
  simp
  ring

theorem sumOver_update_of_mem (hv : v ∈ zs) : sumOver zs f (update b v x) = sumOver zs f b := by
  refine Finset.sum_congr rfl fun T _ => congrArg f (funext fun u => ?_)
  by_cases hu : u = v
  · simp [hu, hv]
  · simp [hu]

theorem sumOver_update_of_notMem (hv : v ∉ zs) :
    sumOver zs f (update b v x) = sumOver zs (fun b => f (update b v x)) b := by
  refine Finset.sum_congr rfl fun T _ => congrArg f (funext fun u => ?_)
  by_cases hu : u = v
  · simp [hu, hv]
  · simp [hu]

/-- The functions only have to agree on the bits that come up. -/
theorem sumOver_congr (h : ∀ b', (∀ u ∉ zs, b' u = b u) → f b' = g b') :
    sumOver zs f b = sumOver zs g b :=
  Finset.sum_congr rfl fun _ _ => h _ fun _ hu => if_neg hu

theorem sumOver_mul_left (c : ℂ) : sumOver zs (fun b => c * f b) b = c * sumOver zs f b := by
  rw [sumOver, sumOver, Finset.mul_sum]

theorem sumOver_add : sumOver zs (fun b => f b + g b) b = sumOver zs f b + sumOver zs g b := by
  rw [sumOver, sumOver, sumOver, Finset.sum_add_distrib]

/-- A factor that does not depend on the bits summed over comes out. -/
theorem sumOver_mul_of_agree {k : Bits → ℂ} (hk : ∀ b b', (∀ u ∉ zs, b u = b' u) → k b = k b') :
    sumOver zs (fun b => k b * f b) b = k b * sumOver zs f b := by
  rw [← sumOver_mul_left]
  exact sumOver_congr fun b' hb => by rw [hk b' b hb]

theorem sumOver_zero (h : ∀ b', (∀ u ∉ zs, b' u = b u) → f b' = 0) : sumOver zs f b = 0 :=
  Finset.sum_eq_zero fun _ _ => h _ fun _ hu => if_neg hu

/-- A function that vanishes unless all bits summed over are the same. -/
theorem sumOver_eq_of_forced (x : Bool)
    (h : ∀ b', (∀ u ∉ zs, b' u = b u) → (∃ v ∈ zs, b' v ≠ x) → f b' = 0) :
    sumOver zs f b = f fun v => if v ∈ zs then x else b v := by
  obtain ⟨T, hT, hall⟩ : ∃ T ∈ zs.powerset, ∀ v ∈ zs, decide (v ∈ T) = x := by
    cases x
    · exact ⟨∅, Finset.empty_mem_powerset zs, fun v _ => by simp⟩
    · exact ⟨zs, Finset.mem_powerset_self zs, fun v hv => by simp [hv]⟩
  rw [sumOver, Finset.sum_eq_single T (fun S hS hne => ?_) fun hT' => absurd hT hT']
  · refine congrArg f (funext fun v => ?_)
    split
    · next hv => exact hall v hv
    · rfl
  · refine h _ (fun u hu => if_neg hu) ?_
    -- otherwise the two sets have the same elements
    by_contra hsame
    push Not at hsame
    refine hne (Finset.ext fun v => ?_)
    by_cases hv : v ∈ zs
    · have hS' := hsame v hv
      rw [if_pos hv] at hS'
      rw [← decide_eq_decide, hS', hall v hv]
    · exact iff_of_false (fun h => hv (Finset.mem_powerset.1 hS h))
        fun h => hv (Finset.mem_powerset.1 hT h)

/-- Sums over disjoint sets of vertices, one after the other. -/
theorem sumOver_union {ys : Finset Vertex} (h : Disjoint ys zs) :
    sumOver (ys ∪ zs) f b = sumOver zs (sumOver ys f) b := by
  induction ys using Finset.induction_on generalizing f b with
  | empty =>
    rw [Finset.empty_union]
    exact sumOver_congr fun b' _ => sumOver_empty.symm
  | insert v ys hv ih =>
    rw [Finset.disjoint_insert_left] at h
    rw [Finset.insert_union, sumOver_insert (by simp [hv, h.1]), ih h.2]
    exact sumOver_congr fun b' _ => (sumOver_insert hv).symm

/-! ### Edges -/

/-- The factor of an edge with the given bits at its ends. -/
noncomputable def EdgeKind.value : EdgeKind → Bool → Bool → ℂ
  | plain, x, y => if x = y then 1 else 0
  | hadamard, x, y => if x && y then -1 else 1

namespace EdgeKind

theorem value_comm (k : EdgeKind) (x y : Bool) : k.value x y = k.value y x := by
  cases k <;> cases x <;> cases y <;> rfl

@[simp] theorem value_plain_self (x : Bool) : plain.value x x = 1 := if_pos rfl

@[simp] theorem value_hadamard_false (x : Bool) : hadamard.value false x = 1 := rfl

@[simp] theorem value_hadamard_false_right (x : Bool) : hadamard.value x false = 1 := by
  cases x <;> rfl

theorem value_hadamard_mul_self (x y : Bool) :
    hadamard.value x y * hadamard.value x y = 1 := by
  cases x <;> cases y <;> simp [value]

end EdgeKind

/-! ### Networks -/

/-- Bits at the vertices below a bound, those inside being summed over with a factor each, and a
    factor for the two bits of each pair of vertices. -/
structure Network where
  bound : ℕ
  inner : Finset Vertex
  factor : Vertex → ℂ
  edge : Vertex → Vertex → Bool → Bool → ℂ

namespace Network

variable {n n' : Network} {s t : Vertex}

/-- The unordered pairs of vertices, the smaller one first. -/
def pairs (bound : ℕ) : Finset (ℕ × ℕ) :=
  (Finset.range bound ×ˢ Finset.range bound).filter fun p => p.1 < p.2

theorem mem_pairs {bound : ℕ} {p : ℕ × ℕ} :
    p ∈ pairs bound ↔ p.1 < p.2 ∧ p.2 < bound := by
  simp only [pairs, Finset.mem_filter, Finset.mem_product, Finset.mem_range]
  omega

/-- The factor of the edges between two vertices. -/
def bond (n : Network) (b : Bits) (s t : Vertex) : ℂ := n.edge s t (b s) (b t)

/-- The factor of a bit that is summed over. -/
noncomputable def spin (n : Network) (b : Bits) (v : Vertex) : ℂ := if b v then n.factor v else 1

/-- The product of all factors for given bits. -/
noncomputable def weight (n : Network) (b : Bits) : ℂ :=
  (∏ v ∈ n.inner, n.spin b v) * ∏ p ∈ pairs n.bound, n.bond b p.1 p.2

/-- The sum of the weights over the bits inside. -/
noncomputable def amplitude (n : Network) (b : Bits) : ℂ := sumOver n.inner n.weight b

/-- The vertices are below the bound, edges have no direction, and none is a loop. -/
structure Valid (n : Network) : Prop where
  lt : ∀ v ∈ n.inner, v < n.bound
  symm : ∀ s t x y, n.edge s t x y = n.edge t s y x
  self : ∀ v x, n.edge v v x x = 1

theorem Valid.bond_comm (hn : n.Valid) (b : Bits) (s t : Vertex) : n.bond b s t = n.bond b t s :=
  hn.symm s t _ _

theorem bond_congr {b b' : Bits} (h : n.edge s t = n'.edge s t) (hs : b s = b' s)
    (ht : b t = b' t) : n.bond b s t = n'.bond b' s t := by
  rw [bond, bond, h, hs, ht]

/-- Only the bits below the bound are looked at. -/
theorem weight_congr {b b' : Bits} (hinner : ∀ v ∈ n.inner, b v = b' v)
    (h : ∀ v < n.bound, b v = b' v) : n.weight b = n.weight b' := by
  rw [weight, weight]
  congr 1
  · exact Finset.prod_congr rfl fun v hv => by rw [spin, spin, hinner v hv]
  · refine Finset.prod_congr rfl fun p hp => ?_
    have := mem_pairs.1 hp
    exact bond_congr rfl (h _ (this.1.trans this.2)) (h _ this.2)

/-- The weight does not depend on the bit at a vertex without edges that is not inside. -/
theorem weight_update_isolated {v : Vertex} (hn : n.Valid)
    (hv : v ∉ n.inner) (h : ∀ u x y, n.edge v u x y = 1) (b : Bits) (x : Bool) :
    n.weight (update b v x) = n.weight b := by
  have hspin : ∀ u ∈ n.inner, n.spin (update b v x) u = n.spin b u := fun u hu => by
    rw [spin, spin, update_of_ne (ne_of_mem_of_not_mem hu hv)]
  have hbond (s t : Vertex) : n.bond (update b v x) s t = n.bond b s t := by
    by_cases hs : s = v
    · subst hs
      exact (h t _ _).trans (h t _ _).symm
    · by_cases ht : t = v
      · subst ht
        rw [hn.bond_comm, hn.bond_comm b]
        exact (h s _ _).trans (h s _ _).symm
      · exact bond_congr rfl (update_of_ne hs ..) (update_of_ne ht ..)
  rw [weight, weight, Finset.prod_congr rfl hspin]
  congr 1
  exact Finset.prod_congr rfl fun p _ => hbond p.1 p.2

/-! ### Changing one factor -/

/-- The pair that two vertices make. -/
private def ordered (s t : ℕ) : ℕ × ℕ := if s < t then (s, t) else (t, s)

/-- Multiplying the factor of one pair of vertices. -/
theorem prod_pairs_mul {bound s t : ℕ} {F G : ℕ → ℕ → ℂ} (hs : s < bound) (ht : t < bound)
    (hst : s ≠ t) {c : ℂ} (hsymm : ∀ p q, F p q = F q p) (hsymm' : ∀ p q, G p q = G q p)
    (hat : G s t = F s t * c)
    (hoff : ∀ p q, p < q → ¬(p = s ∧ q = t ∨ p = t ∧ q = s) → G p q = F p q) :
    ∏ p ∈ pairs bound, G p.1 p.2 = (∏ p ∈ pairs bound, F p.1 p.2) * c := by
  have hmem : ordered s t ∈ pairs bound := by
    rw [mem_pairs, ordered]
    split
    · exact ⟨‹_›, ht⟩
    · exact ⟨by dsimp only; omega, hs⟩
  have hval : G (ordered s t).1 (ordered s t).2 = F (ordered s t).1 (ordered s t).2 * c := by
    rw [ordered]
    split
    · exact hat
    · dsimp only
      rw [hsymm', hsymm, hat]
  rw [← Finset.mul_prod_erase _ _ hmem, ← Finset.mul_prod_erase _ (fun p => F p.1 p.2) hmem, hval,
    Finset.prod_congr rfl fun p hp => ?_]
  · ring
  · obtain ⟨hne, hp⟩ := Finset.mem_erase.1 hp
    have hlt := (mem_pairs.1 hp).1
    refine hoff _ _ hlt fun h => hne ?_
    rw [ordered]
    rcases h with ⟨rfl, rfl⟩ | ⟨rfl, rfl⟩
    · rw [if_pos hlt]
    · rw [if_neg (by omega)]

/-- A network that differs in the edges between two vertices, and so in one factor. -/
theorem weight_mul_edge (hn : n.Valid) (hn' : n'.Valid) (hbound : n'.bound = n.bound)
    (hinner : n'.inner = n.inner) (hfactor : ∀ v ∈ n.inner, n'.factor v = n.factor v)
    (hs : s < n.bound) (ht : t < n.bound) (hst : s ≠ t) {c : ℂ}
    (hat : n'.bond b s t = n.bond b s t * c)
    (hoff : ∀ p q, ¬(p = s ∧ q = t ∨ p = t ∧ q = s) → n'.edge p q = n.edge p q) :
    n'.weight b = n.weight b * c := by
  rw [weight, weight, hbound, hinner, prod_pairs_mul hs ht hst (hn.bond_comm b) (hn'.bond_comm b)
    hat fun p q _ h => bond_congr (hoff p q h) rfl rfl, ← mul_assoc]
  congr 2
  exact Finset.prod_congr rfl fun v hv => by rw [spin, spin, hfactor v hv]

/-- A network that differs in the factor of one bit. -/
theorem weight_mul_factor (hinner : n'.inner = n.inner) (hbound : n'.bound = n.bound)
    (hedge : n'.edge = n.edge) (hv : v ∈ n.inner) {c : ℂ}
    (hat : n'.factor v = n.factor v * c)
    (hoff : ∀ u ∈ n.inner, u ≠ v → n'.factor u = n.factor u) :
    n'.weight b = n.weight b * if b v then c else 1 := by
  have hbond : ∀ p ∈ pairs n.bound, n'.bond b p.1 p.2 = n.bond b p.1 p.2 := fun p _ =>
    bond_congr (by rw [hedge]) rfl rfl
  rw [weight, weight, hbound, hinner, Finset.prod_congr rfl hbond, ← Finset.mul_prod_erase _ _ hv,
    ← Finset.mul_prod_erase _ (n.spin b) hv, Finset.prod_congr rfl fun u hu => ?_]
  · rw [spin, spin, hat]
    split <;> ring
  · obtain ⟨hne, hu⟩ := Finset.mem_erase.1 hu
    rw [spin, spin, hoff u hu hne]

/-- One vertex more, which no edge leads to, does not change the factors of the edges. -/
theorem prod_pairs_grow (hbound : n'.bound = n.bound + 1)
    (hedge : ∀ p q, p < n.bound → q < n.bound → n'.edge p q = n.edge p q)
    (hfree : ∀ p x y, n'.edge p n.bound x y = 1) :
    ∏ p ∈ pairs n'.bound, n'.bond b p.1 p.2 = ∏ p ∈ pairs n.bound, n.bond b p.1 p.2 := by
  rw [hbound]
  have hsub : pairs n.bound ⊆ pairs (n.bound + 1) := fun p hp => by
    have := mem_pairs.1 hp
    exact mem_pairs.2 ⟨this.1, by omega⟩
  rw [← Finset.prod_subset hsub fun p hp hp' => ?_]
  · refine Finset.prod_congr rfl fun p hp => ?_
    have := mem_pairs.1 hp
    exact bond_congr (hedge _ _ (this.1.trans this.2) this.2) rfl rfl
  · have h := mem_pairs.1 hp
    have h' : ¬p.2 < n.bound := fun hlt => hp' (mem_pairs.2 ⟨h.1, hlt⟩)
    rw [show p.2 = n.bound by omega]
    exact hfree _ _ _

/-- A network with one vertex more, which no edge leads to. -/
theorem weight_grow (hbound : n'.bound = n.bound + 1) (hlt : ∀ v ∈ n.inner, v < n.bound)
    (hinner : n'.inner = insert n.bound n.inner) (hfactor : ∀ v ∈ n.inner, n'.factor v = n.factor v)
    (hedge : ∀ p q, p < n.bound → q < n.bound → n'.edge p q = n.edge p q)
    (hfree : ∀ p x y, n'.edge p n.bound x y = 1) :
    n'.weight b = n.weight b * if b n.bound then n'.factor n.bound else 1 := by
  have hnew : n.bound ∉ n.inner := fun h => Nat.lt_irrefl _ (hlt _ h)
  have hspins : ∏ u ∈ n.inner, n'.spin b u = ∏ u ∈ n.inner, n.spin b u :=
    Finset.prod_congr rfl fun u hu => by rw [spin, spin, hfactor u hu]
  rw [weight, weight, prod_pairs_grow hbound hedge hfree, hinner, Finset.prod_insert hnew, hspins,
    spin]
  ring

/-- A network with one vertex more that is not inside. -/
theorem weight_widen (hbound : n'.bound = n.bound + 1) (hinner : n'.inner = n.inner)
    (hfactor : ∀ v ∈ n.inner, n'.factor v = n.factor v)
    (hedge : ∀ p q, p < n.bound → q < n.bound → n'.edge p q = n.edge p q)
    (hfree : ∀ p x y, n'.edge p n.bound x y = 1) : n'.weight b = n.weight b := by
  rw [weight, weight, prod_pairs_grow hbound hedge hfree, hinner,
    Finset.prod_congr rfl fun u hu => show n'.spin b u = n.spin b u by
      rw [spin, spin, hfactor u hu]]

/-! ### Taking a vertex out -/

/-- The network without a vertex and its edges. -/
def without (n : Network) (v : Vertex) : Network where
  bound := n.bound
  inner := n.inner.erase v
  factor := n.factor
  edge s t x y := if s = v ∨ t = v then 1 else n.edge s t x y

theorem Valid.without (hn : n.Valid) (v : Vertex) : (n.without v).Valid where
  lt u hu := hn.lt u (Finset.mem_of_mem_erase hu)
  symm s t x y := by simp only [Network.without, or_comm, hn.symm s t x y]
  self u x := by simp [Network.without, hn.self]

/-- What is left without a vertex does not depend on its bit. -/
theorem weight_without_update (n : Network) (v : Vertex) (b : Bits) (x : Bool) :
    (n.without v).weight (update b v x) = (n.without v).weight b := by
  have hbond (s t : Vertex) :
      (n.without v).bond (update b v x) s t = (n.without v).bond b s t := by
    by_cases h : s = v ∨ t = v
    · exact (if_pos h).trans (if_pos h).symm
    · push Not at h
      exact bond_congr rfl (update_of_ne h.1 _ _) (update_of_ne h.2 _ _)
  have hspin : ∀ u ∈ (n.without v).inner,
      (n.without v).spin (update b v x) u = (n.without v).spin b u := fun u hu => by
    rw [spin, spin, update_of_ne (Finset.ne_of_mem_erase hu)]
  rw [weight, weight, Finset.prod_congr rfl hspin]
  congr 1
  exact Finset.prod_congr rfl fun p _ => hbond p.1 p.2

/-- The factors at a vertex which is summed over. -/
noncomputable def star (n : Network) (b : Bits) (v : Vertex) : ℂ :=
  n.spin b v * ∏ u ∈ Finset.range n.bound, n.bond b v u

/-- The product over the pairs that a vertex is part of. -/
theorem prod_pairs_star {bound v : ℕ} {F : ℕ → ℕ → ℂ} (hv : v < bound)
    (hsymm : ∀ p q, F p q = F q p) (hself : F v v = 1) :
    ∏ p ∈ pairs bound, F p.1 p.2 =
      (∏ p ∈ pairs bound, if p.1 = v ∨ p.2 = v then 1 else F p.1 p.2) *
        ∏ u ∈ Finset.range bound, F v u := by
  have hsplit : ∀ p ∈ pairs bound, F p.1 p.2 =
      (if p.1 = v ∨ p.2 = v then 1 else F p.1 p.2) *
        if p.1 = v ∨ p.2 = v then F p.1 p.2 else 1 := fun p _ => by split <;> simp
  rw [Finset.prod_congr rfl hsplit, Finset.prod_mul_distrib]
  congr 1
  rw [← Finset.prod_filter, ← Finset.mul_prod_erase _ (F v) (Finset.mem_range.2 hv), hself, one_mul]
  -- the other end of a pair that the vertex is part of
  refine Finset.prod_bij' (fun p _ => if p.1 = v then p.2 else p.1)
    (fun u _ => ordered v u) (fun p hp => ?_) (fun u hu => ?_) (fun p hp => ?_) (fun u hu => ?_)
    fun p hp => ?_
  · obtain ⟨hp, hpv⟩ := Finset.mem_filter.1 hp
    have := mem_pairs.1 hp
    refine Finset.mem_erase.2 ⟨?_, Finset.mem_range.2 ?_⟩
    · split <;> omega
    · split <;> omega
  · obtain ⟨hne, hu⟩ := Finset.mem_erase.1 hu
    have := Finset.mem_range.1 hu
    rw [Finset.mem_filter, mem_pairs, ordered]
    split <;> dsimp only <;> omega
  · obtain ⟨hp, hpv⟩ := Finset.mem_filter.1 hp
    obtain ⟨p, q⟩ := p
    have := mem_pairs.1 hp
    simp only at this hpv ⊢
    rcases hpv with rfl | rfl
    · rw [if_pos rfl, ordered, if_pos this.1]
    · have hne : p ≠ q := by omega
      rw [if_neg hne, ordered, if_neg (by omega)]
  · obtain ⟨hne, hu⟩ := Finset.mem_erase.1 hu
    by_cases h : v < u
    · rw [ordered, if_pos h, if_pos rfl]
    · rw [ordered, if_neg h]
      exact if_neg hne
  · obtain ⟨hp, hpv⟩ := Finset.mem_filter.1 hp
    split
    · next h => rw [h]
    · next h =>
      rw [hpv.resolve_left h, hsymm]

/-- The weight, split into the factors at a vertex and the others. -/
theorem weight_star (hn : n.Valid) (hv : v ∈ n.inner) (b : Bits) :
    n.weight b = (n.without v).weight b * n.star b v := by
  have hself : n.bond b v v = 1 := hn.self v _
  have hbond : ∀ p ∈ pairs n.bound, (n.without v).bond b p.1 p.2 =
      if p.1 = v ∨ p.2 = v then 1 else n.bond b p.1 p.2 := fun _ _ => rfl
  rw [weight, prod_pairs_star (hn.lt v hv) (hn.bond_comm b) hself,
    ← Finset.mul_prod_erase _ _ hv, weight, star,
    show (n.without v).bound = n.bound from rfl, Finset.prod_congr rfl hbond]
  simp only [Network.without, spin]
  ring

/-- Taking the sum over the bit of a vertex. -/
theorem amplitude_sum (hv : v ∈ n.inner) (b : Bits) : n.amplitude b =
    sumOver (n.inner.erase v)
      (fun b => n.weight (update b v false) + n.weight (update b v true)) b := by
  rw [amplitude]
  conv_lhs => rw [← Finset.insert_erase hv]
  exact sumOver_insert (Finset.notMem_erase v _)

/-- A rewrite that removes one vertex: the weights, summed over its bit, are those of the other
    side up to a scalar. -/
theorem amplitude_eq_of_sum (hv : v ∈ n.inner) (hinner : n'.inner = n.inner.erase v) {c : ℂ}
    (h : ∀ b, n.weight (update b v false) + n.weight (update b v true) = c * n'.weight b)
    (b : Bits) : n.amplitude b = c * n'.amplitude b := by
  rw [amplitude_sum hv, amplitude, hinner, ← sumOver_mul_left]
  exact sumOver_congr fun b' _ => h b'

/-- A rewrite that removes two vertices. -/
theorem amplitude_eq_of_sum_pair (hu : u ∈ n.inner) (hv : v ∈ n.inner.erase u)
    (hinner : n'.inner = (n.inner.erase u).erase v) {c : ℂ}
    (h : ∀ b, (n.weight (update (update b v false) u false) +
        n.weight (update (update b v false) u true)) +
      (n.weight (update (update b v true) u false) + n.weight (update (update b v true) u true)) =
        c * n'.weight b)
    (b : Bits) : n.amplitude b = c * n'.amplitude b := by
  rw [amplitude_sum hu, ← Finset.insert_erase hv, sumOver_insert (Finset.notMem_erase v _),
    amplitude, hinner, ← sumOver_mul_left]
  exact sumOver_congr fun b' _ => h b'

/-- A rewrite that replaces some vertices by others: the weights of the one side, summed over the
    bits of its vertices, are those of the other side up to a scalar. -/
theorem amplitude_eq_of_sumOver {S T : Finset Vertex} (hS : S ⊆ n.inner)
    (hT : T ⊆ n'.inner) (hrest : n.inner \ S = n'.inner \ T) {c : ℂ}
    (h : ∀ b, sumOver S n.weight b = c * sumOver T n'.weight b) (b : Bits) :
    n.amplitude b = c * n'.amplitude b := by
  have hsplit {n : Network} {zs : Finset Vertex} (hzs : zs ⊆ n.inner) :
      n.amplitude b = sumOver (n.inner \ zs) (sumOver zs n.weight) b := by
    rw [amplitude]
    conv_lhs => rw [← Finset.union_sdiff_of_subset hzs]
    exact sumOver_union Finset.disjoint_sdiff
  rw [hsplit hS, hsplit hT, ← hrest, ← sumOver_mul_left]
  exact sumOver_congr fun b' _ => h b'

/-- A rewrite that changes the weights by a scalar. -/
theorem amplitude_eq_of_weight (hinner : n'.inner = n.inner) {c : ℂ}
    (h : ∀ b, n.weight b = c * n'.weight b) (b : Bits) :
    n.amplitude b = c * n'.amplitude b := by
  rw [amplitude, amplitude, hinner, ← sumOver_mul_left]
  exact sumOver_congr fun b' _ => h b'

end Network

end ZXRewriting
