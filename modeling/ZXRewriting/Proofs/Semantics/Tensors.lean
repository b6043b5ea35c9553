import ZXRewriting.Proofs.Semantics.Amplitude

/-!
# What a diagram of spiders of all kinds denotes

The tensor of a spider gives a number for bits on its legs: a Z spider copies a bit, an X spider is
its Hadamard conjugate, and a box is -1 where all legs are one and 1 elsewhere
(`SpiderKind.tensor`). A diagram denotes the contraction of these tensors along its wires
(`Web.contraction`), a function of the bits at the ends.

Every one of these tensors is a sum over a single bit of a product over the legs
(`SpiderKind.leg`), so that the contraction is, up to a scalar, the amplitude of a network with a bit
at each spider (`Valid.contraction`, `Web.tensors`). That network also has factors for Hadamard
edges, and for a graph-like diagram it is the network of its Z spiders (`tensors_eq_network`).
-/

namespace ZXRewriting

open Function (update update_self update_of_ne)
open Multigraph (SamePair)

/-! ### Tensors -/

namespace SpiderKind

/-- The tensor of a spider. That of an end, at which the bit is `bit`, says that its legs have that
    bit. -/
noncomputable def tensor (kind : SpiderKind) (p : Phase) (bit : Bool) (legs : Multiset Bool) : ℂ :=
  match kind with
  | input | output => if ∀ s ∈ legs, s = bit then 1 else 0
  | z => (if ∀ s ∈ legs, s = false then 1 else 0) + p.unit * if ∀ s ∈ legs, s = true then 1 else 0
  | x => (1 + p.unit * (-1) ^ legs.count true) / rootTwo ^ legs.card
  | box => if ∀ s ∈ legs, s = true then -1 else 1

/-- The factor of a leg with the bit `s` at a spider with the bit `y`. -/
noncomputable def leg (kind : SpiderKind) (y s : Bool) : ℂ :=
  match kind with
  | x => EdgeKind.hadamard.value y s
  | box => if y && !s then 0 else 1
  | input | output | z => EdgeKind.plain.value y s

/-- The factor of a spider with the bit one. -/
noncomputable def factor (kind : SpiderKind) (p : Phase) : ℂ :=
  match kind with
  | box => -1 - 1
  | input | output | z | x => p.unit

theorem factor_box (p : Phase) : box.factor p = -2 := by
  norm_num [factor]

theorem isBoundary_of_isPhased {kind : SpiderKind} (h : kind.isPhased = true) :
    kind.isBoundary = false := by
  cases kind <;> simp_all [isPhased, isBoundary]

theorem factor_of_isPhased {kind : SpiderKind} (h : kind.isPhased = true) (p : Phase) :
    kind.factor p = p.unit := by
  cases kind <;> simp_all [isPhased, factor]

/-- The scalar between a tensor and the sum over its bit. -/
noncomputable def norm (kind : SpiderKind) (n : ℕ) : ℂ :=
  match kind with
  | x => (rootTwo ^ n)⁻¹
  | input | output | z | box => 1

theorem norm_ne_zero (kind : SpiderKind) (n : ℕ) : kind.norm n ≠ 0 := by
  cases kind with
  | x => exact inv_ne_zero (pow_ne_zero n sqrt_two_ne_zero)
  | input | output | z | box => exact one_ne_zero

theorem prod_value_plain (y : Bool) (legs : Multiset Bool) :
    (legs.map (EdgeKind.plain.value y)).prod = if ∀ s ∈ legs, s = y then 1 else 0 := by
  induction legs using Multiset.induction_on with
  | empty => simp
  | cons s rest ih =>
    simp only [Multiset.map_cons, Multiset.prod_cons, ih, EdgeKind.value, Multiset.forall_mem_cons,
      eq_comm (a := s)]
    by_cases h : y = s <;> simp [h]

/-- A tensor is a sum over one bit. -/
theorem tensor_eq (kind : SpiderKind) (h : kind.isBoundary = false) (p : Phase) (bit : Bool)
    (legs : Multiset Bool) : kind.tensor p bit legs = kind.norm legs.card *
      (kind.factor p * (legs.map (kind.leg true)).prod + (legs.map (kind.leg false)).prod) := by
  cases kind with
  | input | output => cases h
  | z =>
    have hleg : z.leg = EdgeKind.plain.value := rfl
    rw [hleg, prod_value_plain, prod_value_plain, tensor, norm, factor]
    ring
  | x =>
    have hsign : (legs.map (leg x true)).prod = (-1) ^ legs.count true := by
      induction legs using Multiset.induction_on with
      | empty => simp
      | cons s rest ih =>
        rw [Multiset.map_cons, Multiset.prod_cons, ih]
        cases s <;> simp [leg, EdgeKind.value, pow_succ]
    have hone : (legs.map (leg x false)).prod = 1 := by
      rw [show leg x false = fun _ => 1 from funext EdgeKind.value_hadamard_false]
      simp
    rw [hone, hsign, tensor, norm, factor]
    ring
  | box =>
    have hone : (legs.map (leg box false)).prod = 1 := by
      rw [show leg box false = fun _ => 1 from rfl]
      simp
    have htrue : (legs.map (leg box true)).prod = if ∀ s ∈ legs, s = true then 1 else 0 := by
      rw [← prod_value_plain]
      congr 2
      funext s
      cases s <;> simp [leg, EdgeKind.value]
    rw [hone, htrue, tensor, norm, factor]
    split <;> norm_num

/-- The tensor of an end. -/
theorem tensor_end (kind : SpiderKind) (h : kind.isBoundary = true) (p : Phase) (bit : Bool)
    (legs : Multiset Bool) : kind.tensor p bit legs = (legs.map (kind.leg bit)).prod := by
  cases kind with
  | input | output => exact (prod_value_plain bit legs).symm
  | z | x | box => cases h

end SpiderKind

/-! ### Joining legs -/

/-- The factor of an edge between two legs, given how each of them depends on its bit. -/
noncomputable def EdgeKind.joint (k : EdgeKind) (f g : Bool → ℂ) : ℂ :=
  ∑ s, ∑ t, f s * k.value s t * g t

namespace EdgeKind

variable {f g : Bool → ℂ}

theorem joint_plain (f g : Bool → ℂ) : plain.joint f g = f true * g true + f false * g false := by
  simp [joint, value]

theorem joint_hadamard (f g : Bool → ℂ) : hadamard.joint f g =
    f false * g false + f false * g true + f true * g false - f true * g true := by
  simp [joint, value]
  ring

theorem joint_comm (k : EdgeKind) (f g : Bool → ℂ) : k.joint f g = k.joint g f := by
  cases k
  · rw [joint_plain, joint_plain]
    ring
  · rw [joint_hadamard, joint_hadamard]
    ring

/-- Between spiders that copy a bit the factor is that of the edge. -/
theorem joint_value (k : EdgeKind) (x y : Bool) :
    k.joint (plain.value x) (plain.value y) = k.value x y := by
  cases k
  · rw [joint_plain]
    cases x <;> cases y <;> simp [value]
  · rw [joint_hadamard]
    cases x <;> cases y <;> simp [value]

end EdgeKind

namespace Web

variable {w w' : Web} {s t u v : Vertex} {k : EdgeKind} {τ : Vertex → ℂ} {b : Bits}

/-! ### Contraction -/

/-- The kind of a vertex, which does not matter if there is no spider. -/
def kindAt (w : Web) (v : Vertex) : SpiderKind := (w.kind v).getD .z

/-- The spiders. -/
def spiders (w : Web) : Finset Vertex := (Finset.range w.next).filter w.Has

/-- The plain edges: the two ends, the smaller one first, and a number. -/
def wires (w : Web) : Finset ((_ : ℕ × ℕ) × ℕ) :=
  (Network.pairs w.next).sigma fun p => Finset.range (w.count p.1 p.2 .plain)

/-- The wires at a spider. -/
def wiresAt (w : Web) (v : Vertex) : Finset ((_ : ℕ × ℕ) × ℕ) :=
  w.wires.filter fun e => e.1.1 = v ∨ e.1.2 = v

/-- The bits on the legs of a spider, if the wires of a set carry the bit one. -/
def legs (w : Web) (ones : Finset ((_ : ℕ × ℕ) × ℕ)) (v : Vertex) : Multiset Bool :=
  (w.wiresAt v).val.map fun e => decide (e ∈ ones)

/-- What a diagram with plain edges denotes: the sum, over the bits of the wires, of the product of
    the tensors. -/
noncomputable def contraction (w : Web) (b : Bits) : ℂ :=
  ∑ ones ∈ w.wires.powerset, ∏ v ∈ w.spiders, (w.kindAt v).tensor (w.phase v) (b v) (w.legs ones v)

/-- The leg of a spider, as a function of its bit and that of the spider. -/
noncomputable def leg (w : Web) (v : Vertex) : Bool → Bool → ℂ := (w.kindAt v).leg

/-- The network of the spiders of a web, those inside having a bit each, and their factors being
    twisted by `τ`. -/
noncomputable def tensors (w : Web) (τ : Vertex → ℂ) : Network where
  bound := w.next
  inner := w.spiders.filter fun v => ¬w.IsEnd v
  factor v := (w.kindAt v).factor (w.phase v) * τ v
  edge s t x y := EdgeKind.plain.joint (w.leg s x) (w.leg t y) ^ w.count s t .plain *
    EdgeKind.hadamard.joint (w.leg s x) (w.leg t y) ^ w.count s t .hadamard

theorem bond_tensors : (w.tensors τ).bond b s t =
    EdgeKind.plain.joint (w.leg s (b s)) (w.leg t (b t)) ^ w.count s t .plain *
      EdgeKind.hadamard.joint (w.leg s (b s)) (w.leg t (b t)) ^ w.count s t .hadamard := rfl

theorem mem_spiders : v ∈ w.spiders ↔ v < w.next ∧ w.Has v := by
  rw [spiders, Finset.mem_filter, Finset.mem_range]

theorem mem_tensors_inner : v ∈ (w.tensors τ).inner ↔ (v < w.next ∧ w.Has v) ∧ ¬w.IsEnd v := by
  rw [tensors, Finset.mem_filter, mem_spiders]

theorem Valid.mem_tensors (hw : w.Valid) :
    v ∈ (w.tensors τ).inner ↔ w.Has v ∧ ¬w.IsEnd v := by
  rw [mem_tensors_inner]
  exact and_congr_left fun _ => and_iff_right_of_imp (hw.lt v)

/-- A spider that is no end has a bit that is summed over. -/
theorem Valid.mem_tensors_of_kind (hw : w.Valid) {kind : SpiderKind} (hk : w.kind v = some kind)
    (h : kind.isBoundary = false) : v ∈ (w.tensors τ).inner := by
  rw [hw.mem_tensors, Has, IsEnd, hk]
  simp [h]

theorem kindAt_eq {kind : SpiderKind} (hk : w.kind v = some kind) : w.kindAt v = kind := by
  rw [kindAt, hk, Option.getD_some]

theorem isEnd_iff_kindAt (hv : w.Has v) : w.IsEnd v ↔ (w.kindAt v).isBoundary = true := by
  obtain ⟨kind, hk⟩ := Option.isSome_iff_exists.1 hv
  rw [IsEnd, kindAt, hk]
  rfl

/-- A product of sums of two terms each. -/
theorem prod_bits {α : Type} [DecidableEq α] (zs : Finset α) (h : α → Bool → ℂ) :
    ∏ e ∈ zs, (h e true + h e false) = ∑ ones ∈ zs.powerset, ∏ e ∈ zs, h e (decide (e ∈ ones)) := by
  rw [Finset.prod_add]
  refine Finset.sum_congr rfl fun ones hones => ?_
  rw [← Finset.prod_sdiff (Finset.mem_powerset.1 hones), mul_comm]
  congr 1
  · exact Finset.prod_congr rfl fun e he => by rw [decide_eq_false (Finset.mem_sdiff.1 he).2]
  · exact Finset.prod_congr rfl fun e he => by rw [decide_eq_true he]

/-- Each wire has two ends. -/
theorem Valid.prod_legs (hw : w.Valid) (h : Vertex → (_ : ℕ × ℕ) × ℕ → ℂ) :
    ∏ v ∈ w.spiders, ∏ e ∈ w.wiresAt v, h v e = ∏ e ∈ w.wires, h e.1.1 e * h e.1.2 e := by
  simp only [wiresAt, Finset.prod_filter]
  rw [Finset.prod_comm]
  refine Finset.prod_congr rfl fun e he => ?_
  obtain ⟨hp, hn⟩ := Finset.mem_sigma.1 he
  have hlt := Network.mem_pairs.1 hp
  have hpos : 0 < w.count e.1.1 e.1.2 .plain := Nat.zero_lt_of_lt (Finset.mem_range.1 hn)
  have hhas := hw.has_of_joins (joins_pos_iff.2 ⟨_, hpos⟩)
  have h₁ : e.1.1 ∈ w.spiders := mem_spiders.2 ⟨hlt.1.trans hlt.2, hhas.1⟩
  have h₂ : e.1.2 ∈ w.spiders.erase e.1.1 :=
    Finset.mem_erase.2 ⟨Nat.ne_of_gt hlt.1, mem_spiders.2 ⟨hlt.2, hhas.2⟩⟩
  rw [← Finset.mul_prod_erase _ _ h₁, if_pos (.inl rfl), ← Finset.mul_prod_erase _ _ h₂,
    if_pos (.inr rfl), Finset.prod_eq_one fun v hv => if_neg ?_, mul_one]
  simp only [Finset.mem_erase] at hv
  exact not_or.2 ⟨Ne.symm hv.2.1, Ne.symm hv.1⟩

/-- The weight of bits at the spiders is a sum over bits of the wires. -/
theorem Valid.weight_eq_sum (hw : w.Valid) (hplain : ∀ s t, w.count s t .hadamard = 0) (b : Bits) :
    (w.tensors τ).weight b = ∑ ones ∈ w.wires.powerset,
      (∏ v ∈ (w.tensors τ).inner, (w.tensors τ).spin b v) *
        ∏ v ∈ w.spiders, ∏ e ∈ w.wiresAt v, w.leg v (b v) (decide (e ∈ ones)) := by
  have hpairs : ∏ p ∈ Network.pairs w.next, (w.tensors τ).bond b p.1 p.2 =
      ∏ e ∈ w.wires, (w.leg e.1.1 (b e.1.1) true * w.leg e.1.2 (b e.1.2) true +
        w.leg e.1.1 (b e.1.1) false * w.leg e.1.2 (b e.1.2) false) := by
    rw [wires, Finset.prod_sigma]
    refine Finset.prod_congr rfl fun p _ => ?_
    dsimp only
    rw [Finset.prod_const, Finset.card_range, bond_tensors, hplain, pow_zero, mul_one,
      EdgeKind.joint_plain]
  rw [Network.weight, ← Finset.mul_sum]
  congr 1
  rw [show (w.tensors τ).bound = w.next from rfl, hpairs,
    prod_bits w.wires fun e s => w.leg e.1.1 (b e.1.1) s * w.leg e.1.2 (b e.1.2) s]
  exact Finset.sum_congr rfl fun ones _ =>
    (hw.prod_legs fun v e => w.leg v (b v) (decide (e ∈ ones))).symm

/-- The contraction of the tensors, up to a scalar. -/
theorem Valid.contraction (hw : w.Valid) (hplain : ∀ s t, w.count s t .hadamard = 0) :
    Proportional w.contraction (w.tensors 1).amplitude := by
  set inner := (w.tensors 1).inner
  refine ⟨∏ v ∈ inner, (w.kindAt v).norm (w.wiresAt v).card,
    Finset.prod_ne_zero_iff.2 fun v _ => SpiderKind.norm_ne_zero _ _, fun b => ?_⟩
  -- the bits at the spiders, those of the ends being given
  set bits : Finset Vertex → Bits := fun S v => if v ∈ inner then decide (v ∈ S) else b v
  have hsub : inner ⊆ w.spiders := Finset.filter_subset _ _
  have hterm (ones : Finset ((_ : ℕ × ℕ) × ℕ)) :
      ∏ v ∈ w.spiders, (w.kindAt v).tensor (w.phase v) (b v) (w.legs ones v) =
        (∏ v ∈ inner, (w.kindAt v).norm (w.wiresAt v).card) * ∑ S ∈ inner.powerset,
          (∏ v ∈ inner, (w.tensors 1).spin (bits S) v) *
            ∏ v ∈ w.spiders, ∏ e ∈ w.wiresAt v, w.leg v (bits S v) (decide (e ∈ ones)) := by
    have hends : ∀ v ∈ w.spiders \ inner, (w.kindAt v).tensor (w.phase v) (b v) (w.legs ones v) =
        ∏ e ∈ w.wiresAt v, w.leg v (b v) (decide (e ∈ ones)) := fun v hv => by
      obtain ⟨hv, hnot⟩ := Finset.mem_sdiff.1 hv
      have hend : w.IsEnd v := by
        by_contra h
        exact hnot (Finset.mem_filter.2 ⟨hv, h⟩)
      rw [SpiderKind.tensor_end _ ((isEnd_iff_kindAt (mem_spiders.1 hv).2).1 hend), legs,
        Multiset.map_map]
      rfl
    set G : Vertex → Bool → ℂ := fun v y => (if y then (w.tensors 1).factor v else 1) *
      ∏ e ∈ w.wiresAt v, w.leg v y (decide (e ∈ ones)) with hG
    have hinner : ∀ v ∈ inner, (w.kindAt v).tensor (w.phase v) (b v) (w.legs ones v) =
        (w.kindAt v).norm (w.wiresAt v).card * (G v true + G v false) := fun v hv => by
      obtain ⟨hv, hnot⟩ := Finset.mem_filter.1 hv
      have hkind : (w.kindAt v).isBoundary = false := by
        rw [isEnd_iff_kindAt (mem_spiders.1 hv).2, Bool.not_eq_true] at hnot
        exact hnot
      rw [SpiderKind.tensor_eq _ hkind, legs, Multiset.card_map, Multiset.map_map,
        Multiset.map_map, hG, tensors]
      simp only [if_true, Bool.false_eq_true, if_false, one_mul, Pi.one_apply, mul_one]
      rfl
    rw [← Finset.prod_sdiff hsub, Finset.prod_congr rfl hends, Finset.prod_congr rfl hinner,
      Finset.prod_mul_distrib, prod_bits inner G, mul_left_comm, Finset.mul_sum]
    refine congrArg _ (Finset.sum_congr rfl fun S _ => ?_)
    have hout : ∀ v ∈ w.spiders \ inner,
        ∏ e ∈ w.wiresAt v, w.leg v (b v) (decide (e ∈ ones)) =
          ∏ e ∈ w.wiresAt v, w.leg v (bits S v) (decide (e ∈ ones)) := fun v hv => by
      rw [show bits S v = b v from if_neg (Finset.mem_sdiff.1 hv).2]
    have hin : ∀ v ∈ inner, G v (decide (v ∈ S)) = (w.tensors 1).spin (bits S) v *
        ∏ e ∈ w.wiresAt v, w.leg v (bits S v) (decide (e ∈ ones)) := fun v hv => by
      rw [Network.spin, show bits S v = decide (v ∈ S) from if_pos hv]
    rw [← Finset.prod_sdiff hsub, Finset.prod_congr rfl hin, Finset.prod_mul_distrib,
      Finset.prod_congr rfl hout]
    ring
  rw [Web.contraction, Finset.sum_congr rfl fun ones _ => hterm ones, ← Finset.mul_sum,
    Finset.sum_comm, Network.amplitude, sumOver]
  congr 1
  exact Finset.sum_congr rfl fun S _ => (hw.weight_eq_sum hplain _).symm

/-- The network does not see which spiders are carried. -/
theorem tensors_congr (hn : w'.next = w.next) (hk : w'.kind = w.kind) (hp : w'.phase = w.phase)
    (hc : w'.count = w.count) : w'.tensors τ = w.tensors τ := by
  obtain ⟨next, kind, phase, count, inputs, outputs, carrier⟩ := w
  obtain ⟨next', kind', phase', count', inputs', outputs', carrier'⟩ := w'
  subst hn hk hp hc
  rfl

/-- Of a diagram of Z spiders this is the network of its spiders. -/
theorem tensors_eq_network (h : ∀ v, w.Has v → w.IsZ v ∨ w.IsEnd v) :
    w.tensors τ = w.network τ := by
  have hkind (v : Vertex) : w.kindAt v ≠ .x ∧ w.kindAt v ≠ .box := by
    rw [kindAt]
    cases hk : w.kind v with
    | none => exact ⟨by simp, by simp⟩
    | some kind =>
      rcases h v (by rw [Has, hk]; rfl) with hz | he
      · rw [IsZ, hk] at hz
        cases hz
        exact ⟨by simp, by simp⟩
      · rw [IsEnd, hk] at he
        constructor <;> rintro rfl <;> cases he
  have hleg (v : Vertex) (y : Bool) : w.leg v y = EdgeKind.plain.value y := by
    have := hkind v
    rw [leg]
    cases hk : w.kindAt v <;> simp_all <;> rfl
  have hfactor (v : Vertex) : (w.kindAt v).factor (w.phase v) = (w.phase v).unit := by
    have := hkind v
    cases hk : w.kindAt v <;> simp_all [SpiderKind.factor]
  have hinner : (w.spiders.filter fun v => ¬w.IsEnd v) =
      (Finset.range w.next).filter fun v => w.IsZ v := by
    ext v
    rw [Finset.mem_filter, mem_spiders, Finset.mem_filter, Finset.mem_range, and_assoc]
    refine and_congr_right fun _ => ⟨fun hv => (h v hv.1).resolve_right hv.2, fun hv => ?_⟩
    exact ⟨hv.has, hv.not_isEnd⟩
  simp only [tensors, network, hleg, hfactor, EdgeKind.joint_value, hinner]

end Web

end ZXRewriting
