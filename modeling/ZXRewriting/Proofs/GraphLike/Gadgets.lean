import ZXRewriting.GraphLike.Gadgets
import ZXRewriting.Proofs.GraphLike.Identities

/-!
# Fusing phase gadgets is sound

A leaf behind a spider with phase 0 puts its phase on the parity of the other neighbours, and so do
two such leaves on the same neighbours (`Web.SameSupport.amplitude_absorb`). A half turn on the
spider turns the phase of the leaf around (`Web.IsGadget.amplitude_clearCentre`).
-/

namespace ZXRewriting

open Function (update update_self update_of_ne update_comm)

namespace Web

variable {w w' : Web} {s t u v c d l m : Vertex} {vs : List Vertex} {p q : Phase} {D : ℕ}
  {τ τ' : Vertex → ℂ} {b : Bits}

/-- A leaf behind a spider that is joined to Z spiders only. -/
structure IsGadget (w : Web) (c l : Vertex) : Prop where
  centre : w.IsZ c
  leaf : w.IsZ l
  nearby_leaf : w.nearby l = [c]
  nearby_centre : ∀ u ∈ w.nearby c, w.IsZ u

namespace IsGadget

/-- Edits of phases leave gadgets where they are. -/
theorem congr (h : w.IsGadget c l) (hk : w'.kind = w.kind) (hn : w'.nearby = w.nearby) :
    w'.IsGadget c l := by
  refine ⟨?_, ?_, hn ▸ h.nearby_leaf, fun u hu => ?_⟩
  · exact (congrFun hk c).trans h.centre
  · exact (congrFun hk l).trans h.leaf
  · rw [hn] at hu
    exact (congrFun hk u).trans (h.nearby_centre u hu)

variable (h : w.IsGadget c l) (hw : w.Simple)
include h

theorem nearby_leaf_isZ : ∀ u ∈ w.nearby l, w.IsZ u := fun u hu => by
  rw [h.nearby_leaf, List.mem_singleton] at hu
  exact hu ▸ h.centre

include hw

theorem mem_nearby : l ∈ w.nearby c := hw.valid.mem_nearby_comm.1 (by simp [h.nearby_leaf])

theorem ne : c ≠ l := fun he => hw.valid.notMem_nearby_self (he ▸ h.mem_nearby hw)

/-- The weights by the bit of the leaf. -/
theorem weight_leaf (b : Bits) (x : Bool) : (w.network τ).weight (update b l x) =
    ((w.remove l).network τ).weight b *
      if x then (w.phase l).unit * τ l * EdgeKind.hadamard.value true (b c) else 1 := by
  rw [hw.weight_signs h.leaf (hw.plain_eq_zero h.leaf h.nearby_leaf_isZ), h.nearby_leaf]
  simp [signs]

end IsGadget

/-! ### Half turns on centres -/

/-- Clears a half turn on a centre by negating the phase of its leaf. -/
def clearCentre (w : Web) (c l : Vertex) : Web :=
  if (w.phase c).isPi then (w.setPhase c .zero).negatePhase l else w

@[simp] theorem kind_clearCentre : (w.clearCentre c l).kind = w.kind := by
  rw [clearCentre]
  split <;> rfl

@[simp] theorem next_clearCentre : (w.clearCentre c l).next = w.next := by
  rw [clearCentre]
  split <;> rfl

@[simp] theorem count_clearCentre : (w.clearCentre c l).count = w.count := by
  rw [clearCentre]
  split <;> rfl

@[simp] theorem nearby_clearCentre : (w.clearCentre c l).nearby = w.nearby := by
  rw [clearCentre]
  split <;> rfl

/-- The phase at a spider that is neither the centre nor the leaf. -/
theorem phase_clearCentre_of_ne (hc : u ≠ c) (hl : u ≠ l) :
    (w.clearCentre c l).phase u = w.phase u := by
  rw [clearCentre]
  split
  · exact (update_of_ne hl _ _).trans (update_of_ne hc _ _)
  · rfl

/-- No half turn is left on the centre. -/
theorem phase_clearCentre (hne : c ≠ l) (hp : (w.phase c).isPauli) :
    ((w.clearCentre c l).phase c).unit = 1 := by
  rw [clearCentre]
  split
  · have hzero : (((w.setPhase c .zero).negatePhase l).phase c) = .zero :=
      (update_of_ne hne _ _).trans (update_self (β := fun _ => Phase) c _ _)
    rw [hzero, Phase.unit_zero]
  · next hpi =>
    rcases Phase.unit_of_isPauli hp with ⟨-, hu⟩ | ⟨hpi', -⟩
    · exact hu
    · exact absurd hpi' hpi

theorem InForm.clearCentre (hw : w.InForm) (c l : Vertex) : (w.clearCentre c l).InForm := by
  rw [Web.clearCentre]
  split
  · exact ((hw.setPhase c .zero).setPhase l _).withCarrier _
  · exact hw

theorem OnGrid.clearCentre (hD : Phase.IsGrid D) (hg : w.OnGrid D) (c l : Vertex) :
    (w.clearCentre c l).OnGrid D := by
  rw [Web.clearCentre]
  split
  · exact (hg.setPhase Phase.onGrid_zero c).negatePhase hD l
  · exact hg

/-- A half turn on the centre turns the leaf around, with its twist. -/
theorem IsGadget.amplitude_clearCentre (h : w.IsGadget c l) (hw : w.Simple) (hD : Phase.IsGrid D)
    (hg : w.OnGrid D) (hl : τ l ≠ 0) (hoff : ∀ u, u ≠ l → τ' u = τ u)
    (hat : τ' l = if (w.phase c).isPi then (τ l)⁻¹ else τ l) :
    Proportional (w.network τ).amplitude ((w.clearCentre c l).network τ').amplitude := by
  by_cases hpi : (w.phase c).isPi
  · rw [if_pos hpi] at hat
    set w₁ := w.setPhase c .zero with hw₁
    have hw₁s : w₁.Simple := hw.setPhase c .zero
    set u := (w.phase l).unit with hu
    have hu0 : u ≠ 0 := Phase.unit_ne_zero _
    have hphase : w₁.phase l = w.phase l := update_of_ne (h.ne hw).symm _ _
    have hunit : Phase.zero.unit = (w.phase c).unit * -1 := by
      rw [Phase.unit_zero, Phase.unit_of_isPi hpi]
      norm_num
    have hweight (b : Bits) : ((w.clearCentre c l).network τ').weight b =
        (w.network τ).weight b * (if b c then -1 else 1) *
          if b l then (u * τ l)⁻¹ * (u * τ l)⁻¹ else 1 := by
      have hmem : l ∈ ((w₁.negatePhase l).network τ).inner :=
        (hw₁s.negatePhase l).valid.mem_inner.2 h.leaf
      rw [Web.clearCentre, if_pos hpi, ← hw₁,
        weight_twist hmem (c := (τ l)⁻¹ * (τ l)⁻¹) (by rw [hat, mul_inv_cancel_left₀ hl])
          fun u _ hne => hoff u hne,
        hw₁s.valid.weight_negatePhase hD (hg.setPhase Phase.onGrid_zero c) h.leaf, hphase,
        hw.valid.weight_setPhase h.centre hunit]
      cases b l
      · simp
      · simp only [if_true, mul_inv]
        ring
    have hsub : {l} ⊆ (w.network τ).inner :=
      Finset.singleton_subset_iff.2 (hw.valid.mem_inner.2 h.leaf)
    have hinner : ((w.clearCentre c l).network τ').inner = (w.network τ).inner :=
      inner_congr next_clearCentre kind_clearCentre
    refine ⟨u * τ l, mul_ne_zero hu0 hl, Network.amplitude_eq_of_sumOver hsub (hinner ▸ hsub)
      (by rw [hinner]) fun b => ?_⟩
    rw [sumOver_singleton, sumOver_singleton, hweight, hweight, h.weight_leaf hw, h.weight_leaf hw,
      update_self, update_self, update_of_ne (h.ne hw), update_of_ne (h.ne hw)]
    cases b c
    · simp
      field_simp
      ring
    · simp [EdgeKind.value]
      field_simp
      ring
  · rw [if_neg hpi] at hat
    have hτ : τ' = τ := funext fun u => by
      by_cases hu : u = l
      · rw [hu, hat]
      · exact hoff u hu
    rw [Web.clearCentre, if_neg hpi, hτ]

/-! ### Gadgets with the same support -/

/-- Two gadgets with the same neighbours past their leaves. -/
structure SameSupport (w : Web) (c d l m : Vertex) : Prop where
  left : w.IsGadget c l
  right : w.IsGadget d m
  ne : c ≠ d
  support : (w.nearby c).filter (· ≠ l) = (w.nearby d).filter (· ≠ m)
  nonempty : (w.nearby d).filter (· ≠ m) ≠ []

/-- Adds the phase of the second leaf to that of the first and removes the second gadget. -/
def absorb (w : Web) (d l m : Vertex) : Web :=
  (((w.addToPhase l (w.phase m)).mergeCarriers l m).remove m).remove d

/-- Fuses the second gadget into the first. -/
def fuseGadgets (w : Web) (c d l m : Vertex) : Web :=
  ((w.clearCentre c l).clearCentre d m).absorb d l m

@[simp] theorem kind_absorb : (w.absorb d l m).kind = update (update w.kind m none) d none := by
  obtain ⟨c, hc⟩ := exists_mergeCarriers (w.addToPhase l (w.phase m)) l m
  rw [absorb, hc, kind_remove, kind_remove]
  rfl

@[simp] theorem next_absorb : (w.absorb d l m).next = w.next := by
  obtain ⟨c, hc⟩ := exists_mergeCarriers (w.addToPhase l (w.phase m)) l m
  rw [absorb, hc]
  rfl

/-- On the bit of the leaf that stays, two gadgets weigh as one does. -/
theorem sum_gadgets {S : ℂ} (hS : S = 1 ∨ S = -1) (μ : ℂ) (x : Bool) :
    (1 + EdgeKind.hadamard.value true x * S) * ((1 + μ) + S * (1 - μ)) =
      2 * ((1 + EdgeKind.hadamard.value true x * S) * if x then μ else 1) := by
  rcases hS with rfl | rfl <;> cases x <;> simp [EdgeKind.value] <;> ring

namespace SameSupport

/-- Edits of phases leave gadgets where they are. -/
theorem congr (h : w.SameSupport c d l m) (hk : w'.kind = w.kind) (hn : w'.nearby = w.nearby) :
    w'.SameSupport c d l m :=
  ⟨h.left.congr hk hn, h.right.congr hk hn, h.ne, hn ▸ h.support, hn ▸ h.nonempty⟩

variable (h : w.SameSupport c d l m) (hw : w.Simple)
include h

theorem leaf_ne_leaf : l ≠ m := fun he => by
  have hnear := h.left.nearby_leaf
  rw [he, h.right.nearby_leaf] at hnear
  exact h.ne (List.singleton_injective hnear).symm

include hw

/-- The leaf that stays is not the centre that goes: a centre has other neighbours. -/
theorem leaf_ne_centre : l ≠ d := fun he => by
  have hnear := h.left.nearby_leaf
  have hm := h.right.mem_nearby hw
  rw [he] at hnear
  rw [hnear, List.mem_singleton] at hm
  refine h.nonempty ?_
  rw [hnear, hm]
  simp

theorem centre_notMem : d ∉ w.nearby c := fun hd => by
  have hmem : d ∈ (w.nearby c).filter (· ≠ l) :=
    List.mem_filter.2 ⟨hd, decide_eq_true (h.leaf_ne_centre hw).symm⟩
  rw [h.support] at hmem
  exact hw.valid.notMem_nearby_self (List.mem_of_mem_filter hmem)

theorem leaf_notMem : m ∉ w.nearby c := fun hm => by
  have hc := hw.valid.mem_nearby_comm.1 hm
  rw [h.right.nearby_leaf, List.mem_singleton] at hc
  exact h.ne hc

theorem centre_ne_leaf : c ≠ m := fun he => h.leaf_ne_centre hw (by
  have hl := h.left.mem_nearby hw
  rw [he, h.right.nearby_leaf] at hl
  exact List.mem_singleton.1 hl)

/-- The signs at the first centre are those of its leaf and those at the second one. -/
theorem signs_left (b : Bits) : signs (w.nearby c) b =
    EdgeKind.hadamard.value true (b l) * signs ((w.nearby d).filter (· ≠ m)) b := by
  have hperm : (w.nearby c).Perm (l :: (w.nearby c).filter (· ≠ l)) := by
    have herase := List.perm_cons_erase (h.left.mem_nearby hw)
    rwa [nodup_nearby.erase_eq_filter, List.filter_congr (q := fun x => decide (x ≠ l))
      fun x _ => by rw [Bool.eq_iff_iff]; simp] at herase
  rw [← h.support, signs, (hperm.map _).prod_eq]
  rfl

/-- The weights by the bits of the gadget that goes. -/
theorem weight_right (b : Bits) (y z : Bool) : (w.network τ).weight (update (update b d y) m z) =
    (((w.remove m).remove d).network τ).weight b *
      (if y then (w.phase d).unit * τ d * signs ((w.nearby d).filter (· ≠ m)) b else 1) *
        if z then (w.phase m).unit * τ m * EdgeKind.hadamard.value true y else 1 := by
  have hdm : d ≠ m := h.right.ne hw
  have hz : (w.remove m).IsZ d := by
    rw [IsZ, kind_remove, update_of_ne hdm]
    exact h.right.centre
  have hplain (u : Vertex) : (w.remove m).count d u .plain = 0 := by
    simp only [Web.remove]
    split
    · rfl
    · exact hw.plain_eq_zero h.right.centre h.right.nearby_centre u
  rw [h.right.weight_leaf hw, update_self, (hw.remove m).weight_signs hz hplain, phase_remove,
    update_of_ne hdm, nearby_remove, if_neg hdm]

/-- The weights by the bit of the centre that stays, without the gadget that goes. -/
theorem weight_left (b : Bits) (x : Bool) :
    (((w.remove m).remove d).network τ).weight (update b c x) =
      ((((w.remove m).remove d).remove c).network τ).weight b *
        if x then (w.phase c).unit * τ c * (EdgeKind.hadamard.value true (b l) *
          signs ((w.nearby d).filter (· ≠ m)) b) else 1 := by
  have hcm := h.centre_ne_leaf hw
  have hz : ((w.remove m).remove d).IsZ c := by
    rw [IsZ, kind_remove, update_of_ne h.ne, kind_remove, update_of_ne hcm]
    exact h.left.centre
  have hplain (u : Vertex) : ((w.remove m).remove d).count c u .plain = 0 := by
    simp only [Web.remove]
    split
    · rfl
    split
    · rfl
    · exact hw.plain_eq_zero h.left.centre h.left.nearby_centre u
  have hnear : ((w.remove m).remove d).nearby c = w.nearby c := by
    rw [nearby_remove, if_neg h.ne, nearby_remove, if_neg hcm, List.filter_filter,
      List.filter_eq_self]
    intro u hu
    simp only [Bool.and_eq_true, decide_eq_true_iff]
    exact ⟨ne_of_mem_of_not_mem hu (h.centre_notMem hw), ne_of_mem_of_not_mem hu
      (h.leaf_notMem hw)⟩
  rw [((hw.remove m).remove d).weight_signs hz hplain, hnear, h.signs_left hw, phase_remove,
    update_of_ne h.ne, phase_remove, update_of_ne hcm]

theorem weight_absorb (hD : Phase.IsGrid D) (hg : w.OnGrid D) (hat : τ' l = τ l * τ m)
    (hoff : ∀ u, u ≠ d → u ≠ l → u ≠ m → τ' u = τ u) (b : Bits) :
    ((w.absorb d l m).network τ').weight b =
      (((w.remove m).remove d).network τ).weight b *
        if b l then (w.phase m).unit * τ m else 1 := by
  have hlm := h.leaf_ne_leaf
  have hld := h.leaf_ne_centre hw
  set w₂ := (w.remove m).remove d with hw₂
  have hw₂s : w₂.Simple := (hw.remove m).remove d
  have hz : w₂.IsZ l := by
    rw [hw₂, IsZ, kind_remove, update_of_ne hld, kind_remove, update_of_ne hlm]
    exact h.left.leaf
  have hnet : (w.absorb d l m).network τ' = (w₂.addToPhase l (w.phase m)).network τ' := by
    obtain ⟨c, hc⟩ := exists_mergeCarriers (w.addToPhase l (w.phase m)) l m
    have hphase : w₂.phase l = w.phase l := by
      rw [hw₂, phase_remove, update_of_ne hld, phase_remove, update_of_ne hlm]
    rw [absorb, hc]
    refine network_congr rfl rfl ?_ rfl
    change update (update (update w.phase l (w.phase l + w.phase m)) m .zero) d .zero =
      update (update (update w.phase m .zero) d .zero) l (w₂.phase l + w.phase m)
    rw [hphase, update_comm hlm, update_comm hld]
  have hmem : l ∈ ((w₂.addToPhase l (w.phase m)).network τ).inner :=
    (hw₂s.addToPhase l _).valid.mem_inner.2 hz
  rw [hnet, weight_twist hmem hat fun u hu hne => ?_,
    hw₂s.valid.weight_addToPhase hD ((hg.remove m).remove d) hz (hg m)]
  · cases b l
    · simp
    · simp only [if_true, mul_assoc]
  · have hu' : w₂.IsZ u := (hw₂s.addToPhase l (w.phase m)).valid.mem_inner.1 hu
    rw [hw₂, IsZ, kind_remove, Function.update_apply, kind_remove, Function.update_apply] at hu'
    split at hu'
    · simp at hu'
    split at hu'
    · simp at hu'
    · next hud hum => exact hoff u hud hne hum

/-- Two gadgets without phases on the centres are one, with the twists of both leaves at the leaf
    that stays. -/
theorem amplitude_absorb (hD : Phase.IsGrid D) (hg : w.OnGrid D) (hc : (w.phase c).unit * τ c = 1)
    (hd : (w.phase d).unit * τ d = 1) (hat : τ' l = τ l * τ m)
    (hoff : ∀ u, u ≠ d → u ≠ l → u ≠ m → τ' u = τ u) :
    Proportional (w.network τ).amplitude ((w.absorb d l m).network τ').amplitude := by
  have hdm : d ≠ m := h.right.ne hw
  have hlc : l ≠ c := (h.left.ne hw).symm
  have hmc := (h.centre_ne_leaf hw).symm
  have hin {u : Vertex} (hu : w.IsZ u) : u ∈ (w.network τ).inner := hw.valid.mem_inner.2 hu
  have hin' {u : Vertex} : u ∈ ((w.absorb d l m).network τ').inner ↔
      u ≠ d ∧ u ≠ m ∧ u ∈ (w.network τ).inner := by
    rw [mem_inner_iff, mem_inner_iff, next_absorb, IsZ, IsZ, kind_absorb, Function.update_apply,
      Function.update_apply]
    split
    · simp [*]
    split
    · simp [*]
    · simp [*]
  have hsub : ({m, d, c} : Finset Vertex) ⊆ (w.network τ).inner := by
    intro u hu
    simp only [Finset.mem_insert, Finset.mem_singleton] at hu
    rcases hu with rfl | rfl | rfl
    · exact hin h.right.leaf
    · exact hin h.right.centre
    · exact hin h.left.centre
  have hsub' : {c} ⊆ ((w.absorb d l m).network τ').inner :=
    Finset.singleton_subset_iff.2 (hin'.2 ⟨h.ne, hmc.symm, hin h.left.centre⟩)
  have hrest : (w.network τ).inner \ {m, d, c} =
      ((w.absorb d l m).network τ').inner \ {c} := by
    ext u
    simp only [Finset.mem_sdiff, Finset.mem_insert, Finset.mem_singleton, hin']
    tauto
  refine ⟨2, two_ne_zero, Network.amplitude_eq_of_sumOver hsub hsub' hrest fun b => ?_⟩
  have hm_notMem : m ∉ ({d, c} : Finset Vertex) := by simp [hdm.symm, hmc]
  have hd_notMem : d ∉ ({c} : Finset Vertex) := by simpa using h.ne.symm
  set S := signs ((w.nearby d).filter (· ≠ m)) b with hS
  set μ := (w.phase m).unit * τ m
  set R := ((((w.remove m).remove d).remove c).network τ).weight b
  have hSc (x : Bool) : signs ((w.nearby d).filter (· ≠ m)) (update b c x) = S := by
    refine signs_update (fun hmem => ?_) b x
    rw [← h.support] at hmem
    exact hw.valid.notMem_nearby_self (List.mem_of_mem_filter hmem)
  have hsum := sum_gadgets (signs_eq ((w.nearby d).filter (· ≠ m)) b) μ (b l)
  rw [sumOver_insert hm_notMem, sumOver_insert hd_notMem, sumOver_singleton, sumOver_singleton,
    h.weight_right hw, h.weight_right hw, h.weight_right hw, h.weight_right hw, h.weight_right hw,
    h.weight_right hw, h.weight_right hw, h.weight_right hw, h.weight_absorb hw hD hg hat hoff,
    h.weight_absorb hw hD hg hat hoff, h.weight_left hw, h.weight_left hw, hSc, hSc,
    update_of_ne hlc, update_of_ne hlc, hc, hd, ← hS]
  simp only [Bool.false_eq_true, if_false, if_true, mul_one, one_mul,
    EdgeKind.value_hadamard_false_right] at hsum ⊢
  rw [show EdgeKind.hadamard.value true true = -1 from rfl]
  linear_combination R * hsum

end SameSupport

/-! ### The graph-like form -/

theorem SameSupport.keeps_absorb (h : w.SameSupport c d l m) (hw : w.InForm) :
    Keeps w (w.absorb d l m) := by
  have hwithin := Within.setPhase w l (w.phase l + w.phase m)
  have hform := hwithin.remove_remove hw (hw.simple.addToPhase l (w.phase m)) h.right.leaf
    h.right.centre (h.right.ne hw.simple) h.right.nearby_leaf_isZ h.right.nearby_centre
  obtain ⟨k, hk⟩ := exists_mergeCarriers (w.addToPhase l (w.phase m)) l m
  have habsorb : w.absorb d l m =
      { (((w.addToPhase l (w.phase m)).remove m).remove d) with
        carrier := update (update k m none) d none } := by
    rw [absorb, hk]
    rfl
  rw [habsorb]
  exact ⟨hform.withCarrier _, rfl, rfl⟩

theorem SameSupport.rewrites_absorb (h : w.SameSupport c d l m) (hw : w.InForm)
    (hD : Phase.IsGrid D) (hg : w.OnGrid D) (hc : (w.phase c).unit = 1)
    (hd : (w.phase d).unit = 1) : Rewrites D w (w.absorb d l m) := by
  refine ⟨h.keeps_absorb hw, ?_, h.amplitude_absorb hw.simple hD hg (by rw [hc]; exact mul_one 1)
    (by rw [hd]; exact mul_one 1) (mul_one _).symm fun _ _ _ _ => rfl⟩
  obtain ⟨k, hk⟩ := exists_mergeCarriers (w.addToPhase l (w.phase m)) l m
  rw [absorb, hk]
  exact (OnGrid.remove (w := { w.addToPhase l (w.phase m) with carrier := k })
    (hg.addToPhase hD (hg m) l) m).remove d

theorem InForm.keeps_clearCentre (hw : w.InForm) (c l : Vertex) : Keeps w (w.clearCentre c l) := by
  refine ⟨hw.clearCentre c l, ?_, ?_⟩ <;>
  · rw [Web.clearCentre]
    split <;> rfl

theorem IsGadget.rewrites_clearCentre (h : w.IsGadget c l) (hw : w.InForm) (hD : Phase.IsGrid D)
    (hg : w.OnGrid D) : Rewrites D w (w.clearCentre c l) :=
  ⟨hw.keeps_clearCentre c l, hg.clearCentre hD c l,
    h.amplitude_clearCentre hw.simple hD hg one_ne_zero (fun _ _ => rfl) (by simp)⟩

/-- After clearing both centres the gadgets are as before, and neither centre has a phase. -/
theorem SameSupport.cleared (h : w.SameSupport c d l m) (hw : w.Simple)
    (hc : (w.phase c).isPauli) (hd : (w.phase d).isPauli) :
    ((w.clearCentre c l).clearCentre d m).SameSupport c d l m ∧
      (((w.clearCentre c l).clearCentre d m).phase c).unit = 1 ∧
        (((w.clearCentre c l).clearCentre d m).phase d).unit = 1 := by
  refine ⟨h.congr (by rw [kind_clearCentre, kind_clearCentre])
    (by rw [nearby_clearCentre, nearby_clearCentre]), ?_, ?_⟩
  · rw [phase_clearCentre_of_ne h.ne (h.centre_ne_leaf hw)]
    exact phase_clearCentre (h.left.ne hw) hc
  · refine phase_clearCentre (h.right.ne hw) ?_
    rw [phase_clearCentre_of_ne h.ne.symm (h.leaf_ne_centre hw).symm]
    exact hd

theorem SameSupport.keeps (h : w.SameSupport c d l m) (hw : w.InForm) :
    Keeps w (w.fuseGadgets c d l m) := by
  have h₁ := hw.keeps_clearCentre c l
  have h₂ := h₁.form.keeps_clearCentre d m
  have hsame : ((w.clearCentre c l).clearCentre d m).SameSupport c d l m :=
    h.congr (by rw [kind_clearCentre, kind_clearCentre]) (by rw [nearby_clearCentre, nearby_clearCentre])
  exact (h₁.trans h₂).trans (hsame.keeps_absorb h₂.form)

theorem SameSupport.rewrites (h : w.SameSupport c d l m) (hw : w.InForm) (hD : Phase.IsGrid D)
    (hg : w.OnGrid D) (hc : (w.phase c).isPauli) (hd : (w.phase d).isPauli) :
    Rewrites D w (w.fuseGadgets c d l m) := by
  have h₁ := h.left.rewrites_clearCentre hw hD hg
  have h₂ := (h.right.congr kind_clearCentre nearby_clearCentre).rewrites_clearCentre h₁.form hD
    h₁.grid
  obtain ⟨hsame, hc', hd'⟩ := h.cleared hw.simple hc hd
  exact (h₁.trans h₂).trans (hsame.rewrites_absorb h₂.form hD h₂.grid hc' hd')

end Web

/-! ### The program -/

namespace GraphLike

variable {g : GraphLike} {c d l m v : Vertex} {D : ℕ}

open Web

theorem web_clearCentre : (g.clearCentre c l).web = g.web.clearCentre c l := by
  rw [GraphLike.clearCentre, Web.clearCentre]
  change (if (g.phase c).isPi = true then _ else _ : GraphLike).web =
    if (g.phase c).isPi = true then _ else _
  split
  · rw [web_negatePhase, web_setPhase]
  · rfl

theorem Coherent.clearCentre (hg : g.Coherent) (c l : Vertex) : (g.clearCentre c l).Coherent := by
  rw [GraphLike.clearCentre]
  split
  · exact Coherent.negatePhase (Coherent.setPhase hg c _) l
  · exact hg

@[simp] theorem master_clearCentre : (g.clearCentre c l).master = g.master := by
  rw [GraphLike.clearCentre]
  split
  · exact master_negatePhase
  · rfl

theorem gadgetSupport_eq (hg : g.Coherent) (hv : g.web.Has c) :
    g.gadgetSupport c l = .ok ((g.web.nearby c).filter (· ≠ l)) := by
  rw [gadgetSupport, neighborSet_eq hg hv]
  rfl

/-- Splitting the edges of a spider by whether the neighbour is a leaf. -/
theorem foldlM_leaves (hg : g.Coherent) (hw : g.web.Simple) {es : List (Vertex × EdgeKind)}
    (hes : ∀ e ∈ es, g.web.Has e.1) (leaves others : List Vertex) :
    es.foldlM (fun (leaves, others) (n, _) =>
        return if ← g.isLeaf n then (n :: leaves, others) else (leaves, n :: others))
      (leaves, others) =
    Except.ok (ε := Fault) (((es.map Prod.fst).filter fun u => g.web.IsLeaf u).reverse ++ leaves,
      ((es.map Prod.fst).filter fun u => ¬g.web.IsLeaf u).reverse ++ others) := by
  induction es generalizing leaves others with
  | nil => rfl
  | cons e rest ih =>
    obtain ⟨n, k⟩ := e
    have hn := hes _ List.mem_cons_self
    have hrest := ih fun e he => hes e (List.mem_cons_of_mem _ he)
    rw [List.foldlM_cons]
    change (g.isLeaf n >>= fun x => _) >>= _ = _
    rw [isLeaf_eq hg hw hn]
    by_cases hleaf : g.web.IsLeaf n
    · refine Eq.trans ?_ ((hrest (n :: leaves) others).trans ?_)
      · simp [hleaf, bind, Except.bind, pure, Except.pure]
      · simp [hleaf]
    · refine Eq.trans ?_ ((hrest leaves (n :: others)).trans ?_)
      · simp [hleaf, bind, Except.bind, pure, Except.pure]
      · simp [hleaf]

/-- A leaf that is found makes a gadget of its neighbour, which has other neighbours. -/
theorem isGadget_of_gadgetLeaf? (hg : g.Coherent) (hw : g.web.Simple) (hv : g.web.Has c)
    (h : g.gadgetLeaf? c = .ok (some l)) :
    g.web.IsGadget c l ∧ (g.phase c).isPauli ∧ (g.web.nearby c).filter (· ≠ l) ≠ [] := by
  obtain ⟨z, hz, h⟩ := of_bind_eq_ok h
  rw [isZ_eq hv] at hz
  obtain rfl := Except.ok.inj hz
  split at h
  · cases h
  next hz =>
  split at h
  · cases h
  next hp =>
  obtain ⟨edges, hedges, h⟩ := of_bind_eq_ok h
  rw [incidentEdges_eq hg hw.noParallel hv] at hedges
  obtain rfl := Except.ok.inj hedges
  obtain ⟨proper, hall, h⟩ := of_bind_eq_ok h
  split at h
  swap
  · cases h
  next hproper =>
  obtain ⟨⟨leaves, others⟩, hfold, h⟩ := of_bind_eq_ok h
  have hz : g.web.IsZ c := by simpa using hz
  have hnear := isZ_of_allM_incident hg (hall.trans (congrArg Except.ok hproper)) fun e he => by
    rw [and_eq_true_iff, and_eq_true_iff] at he
    exact he.2.1
  have hhas : ∀ e ∈ g.web.incident c, g.web.Has e.1 := fun e he =>
    (hnear e.1 (mem_incident.1 he).1).has
  rw [foldlM_leaves hg hw hhas] at hfold
  obtain ⟨rfl, rfl⟩ := Prod.mk.inj (Except.ok.inj hfold)
  have hfst : (g.web.incident c).map Prod.fst = g.web.nearby c := by
    rw [Web.incident_eq hw hz hnear, List.map_map]
    exact List.map_id _
  rw [hfst, List.append_nil, List.append_nil] at h
  dsimp only at h
  split at h
  swap
  · cases h
  next leaf other rest hleaves hothers =>
  obtain rfl : leaf = l := Option.some.inj (Except.ok.inj h)
  have hleaf : leaf ∈ g.web.nearby c ∧ g.web.IsLeaf leaf := by
    have hmem : leaf ∈ ((g.web.nearby c).filter fun u => g.web.IsLeaf u).reverse := by
      rw [hleaves]
      exact List.mem_singleton_self leaf
    simpa using hmem
  have hother : other ∈ g.web.nearby c ∧ ¬g.web.IsLeaf other := by
    have hmem : other ∈ ((g.web.nearby c).filter fun u => ¬g.web.IsLeaf u).reverse := by
      rw [hothers]
      exact List.mem_cons_self
    simpa using hmem
  refine ⟨⟨hz, hleaf.2.1, ?_, hnear⟩, by simpa using hp, fun hnil => ?_⟩
  · -- the centre is the only neighbour of the leaf
    have hlen := hw.degree_eq leaf
    rw [hleaf.2.2.1] at hlen
    obtain ⟨u, hu⟩ := List.length_eq_one_iff.1 hlen.symm
    have hc := hw.valid.mem_nearby_comm.1 hleaf.1
    rw [hu, List.mem_singleton] at hc
    rw [hu, hc]
  · have hne : other ≠ leaf := fun he => hother.2 (he ▸ hleaf.2)
    have hmem : other ∈ (g.web.nearby c).filter (· ≠ leaf) :=
      List.mem_filter.2 ⟨hother.1, decide_eq_true hne⟩
    rw [hnil] at hmem
    exact List.not_mem_nil hmem

/-- Two centres that pass the check belong to gadgets with the same support. -/
theorem sameSupport_of_check (hg : g.Coherent) (hw : g.web.Simple) (hc : g.web.Has c)
    (hd : g.web.Has d) (h : g.checkFuseGadgets c d = .ok true) :
    ∃ l m, g.gadgetLeaf? c = .ok (some l) ∧ g.gadgetLeaf? d = .ok (some m) ∧
      g.web.SameSupport c d l m ∧ (g.phase c).isPauli ∧ (g.phase d).isPauli := by
  rw [checkFuseGadgets] at h
  split at h
  · cases h
  next hne =>
  obtain ⟨l, hl, h⟩ := of_bind_eq_ok h
  obtain ⟨m, hm, h⟩ := of_bind_eq_ok h
  cases l with
  | none => cases h
  | some l =>
  cases m with
  | none => cases h
  | some m =>
  dsimp only at h
  rw [gadgetSupport_eq hg hc, gadgetSupport_eq hg hd] at h
  have hsupport := Except.ok.inj h
  obtain ⟨hleft, hpc, -⟩ := isGadget_of_gadgetLeaf? hg hw hc hl
  obtain ⟨hright, hpd, hnil⟩ := isGadget_of_gadgetLeaf? hg hw hd hm
  exact ⟨l, m, hl, hm, ⟨hleft, hright, hne, eq_of_beq hsupport, hnil⟩, hpc, hpd⟩

/-- The master after two gadgets are fused. -/
def fusedGadgetMaster (g : GraphLike) (c d l m : Vertex) : Diagram :=
  let w := (g.web.clearCentre c l).clearCentre d m
  (w.addToPhase l (w.phase m)).mergedMaster g.master l m

/-- Fusing two gadgets. -/
theorem Gives.fuseGadgets (hg : g.Coherent) (hw : g.web.Simple) (h : g.web.SameSupport c d l m)
    (hl : g.gadgetLeaf? c = .ok (some l)) (hm : g.gadgetLeaf? d = .ok (some m)) :
    Gives (g.fuseGadgets c d) (g.web.fuseGadgets c d l m) (g.fusedGadgetMaster c d l m) := by
  set g₁ := (g.clearCentre c l).clearCentre d m with hg₁
  have hweb₁ : g₁.web = (g.web.clearCentre c l).clearCentre d m := by
    rw [hg₁, web_clearCentre, web_clearCentre]
  have hcoh₁ : g₁.Coherent := Coherent.clearCentre (Coherent.clearCentre hg c l) d m
  have hmaster₁ : g₁.master = g.master := by rw [hg₁, master_clearCentre, master_clearCentre]
  have hprogram : g.fuseGadgets c d =
      (((g₁.addToPhase l (g₁.phase m)).mergeCarriers l m).removeSpider m >>=
        fun g₂ => g₂.removeSpider d) := by
    rw [GraphLike.fuseGadgets, hl, hm]
    rfl
  set g₂ := (g₁.addToPhase l (g₁.phase m)).mergeCarriers l m with hg₂
  have hweb₂ : g₂.web = (g₁.web.addToPhase l (g₁.web.phase m)).mergeCarriers l m := by
    rw [hg₂, web_mergeCarriers, web_addToPhase]
    rfl
  have hmaster₂ : g₂.master = g.fusedGadgetMaster c d l m := by
    have hphase : g₁.phase m = g₁.web.phase m := rfl
    rw [hg₂, master_mergeCarriers, web_addToPhase, hphase, hweb₁, fusedGadgetMaster, ← hmaster₁]
    rfl
  have hcoh₂ : g₂.Coherent := Coherent.mergeCarriers (Coherent.addToPhase hcoh₁ _ _) l m
  have hkind₂ : g₂.web.kind = g.web.kind := by
    rw [hweb₂, kind_mergeCarriers, kind_addToPhase, hweb₁, kind_clearCentre, kind_clearCentre]
  rw [hprogram]
  have hremove := Gives.removeSpider hcoh₂ (v := m) (by rw [Has, hkind₂]; exact h.right.leaf.has)
  refine hremove.bind fun g₃ hg₃ hw₃ hm₃ => ?_
  have hlast := Gives.removeSpider hg₃ (v := d) (by
    rw [Has, hw₃, kind_remove, update_of_ne (h.right.ne hw), hkind₂]
    exact h.right.centre.has)
  rw [hw₃, hm₃, hmaster₂, hweb₂, hweb₁] at hlast
  exact hlast

end GraphLike

end ZXRewriting
