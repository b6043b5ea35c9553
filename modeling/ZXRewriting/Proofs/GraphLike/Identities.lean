import ZXRewriting.GraphLike.Identities
import ZXRewriting.Proofs.GraphLike.Clear

/-!
# Fusing the neighbours of a spider is sound

A spider with phase 0 or pi and two edges makes the bits of its neighbours equal, or opposite
(`sum_link`). So one of the neighbours can go (`Web.fuse`), and its phase and its edges move to the
other one, turned around if the bits are opposite. The twist of the one that goes is then found at
the one that stays (`Web.Fusable.amplitude_fuse`).

A spider without a phase can be removed instead, and its neighbours are joined
(`GraphLike.Gives.removeIdentity`).
-/

namespace ZXRewriting

open Function (update update_self update_of_ne)

namespace Web

variable {w : Web} {s t u v keep gone : Vertex} {vs : List Vertex} {p q : Phase} {D : ℕ}
  {τ τ' : Vertex → ℂ} {b : Bits}

/-! ### Carriers -/

theorem InForm.withCarrier (hw : w.InForm) (c : Vertex → Option Carrier) :
    { w with carrier := c }.InForm :=
  ⟨⟨⟨hw.simple.valid.lt, hw.simple.valid.symm, hw.simple.valid.self, hw.simple.valid.has⟩,
    hw.simple.colour, hw.simple.plain, hw.simple.single⟩, hw.degree_end, hw.inputs_nodup,
    hw.outputs_nodup, hw.mem_inputs, hw.mem_outputs⟩

/-! ### Pushing a half turn through a spider -/

theorem Valid.weight_negatePhase (hw : w.Valid) (hD : Phase.IsGrid D) (hg : w.OnGrid D)
    (hv : w.IsZ v) : ((w.negatePhase v).network τ).weight b =
      (w.network τ).weight b * if b v then (w.phase v).unit⁻¹ * (w.phase v).unit⁻¹ else 1 := by
  have hp : (-w.phase v).unit =
      (w.phase v).unit * ((w.phase v).unit⁻¹ * (w.phase v).unit⁻¹) := by
    rw [((hg v).neg hD).2, mul_inv_cancel_left₀ (Phase.unit_ne_zero _)]
  exact hw.weight_setPhase hv hp

theorem Simple.negatePhase (hw : w.Simple) (v : Vertex) : (w.negatePhase v).Simple :=
  ⟨⟨hw.valid.lt, hw.valid.symm, hw.valid.self, hw.valid.has⟩, hw.colour, hw.plain, hw.single⟩

theorem OnGrid.negatePhase (hD : Phase.IsGrid D) (hg : w.OnGrid D) (v : Vertex) :
    (w.negatePhase v).OnGrid D := hg.setPhase ((hg v).neg hD).1 v

/-- Pushes a half turn on `v`, if there is one, through its neighbour `gone`. -/
def pushThrough (w : Web) (v gone : Vertex) : Web :=
  if (w.phase v).isPi then
    (w.negatePhase gone).addToPhases ((w.nearby gone).filter (· ≠ v)) .pi
  else w

@[simp] theorem kind_pushThrough : (w.pushThrough v gone).kind = w.kind := by
  rw [pushThrough]
  split
  · rw [kind_addToPhases, kind_negatePhase]
  · rfl

@[simp] theorem next_pushThrough : (w.pushThrough v gone).next = w.next := by
  rw [pushThrough]
  split
  · exact next_addToPhases
  · rfl

@[simp] theorem count_pushThrough : (w.pushThrough v gone).count = w.count := by
  rw [pushThrough]
  split
  · exact count_addToPhases
  · rfl

theorem nearby_pushThrough : (w.pushThrough v gone).nearby u = w.nearby u := by
  rw [nearby, nearby, next_pushThrough]
  exact List.filter_congr fun x _ => by rw [joins, joins, count_pushThrough]

theorem Simple.pushThrough (hw : w.Simple) : (w.pushThrough v gone).Simple := by
  rw [Web.pushThrough]
  split
  · exact (hw.negatePhase gone).addToPhases _ _
  · exact hw

theorem OnGrid.pushThrough (hD : Phase.IsGrid D) (hg : w.OnGrid D) :
    (w.pushThrough v gone).OnGrid D := by
  rw [Web.pushThrough]
  split
  · exact (hg.negatePhase hD gone).addToPhases hD Phase.onGrid_pi _
  · exact hg

/-- A phase that a half turn is not pushed onto. -/
theorem phase_addToPhases (h : v ∉ vs) : (w.addToPhases vs p).phase v = w.phase v := by
  induction vs generalizing w with
  | nil => rfl
  | cons n rest ih =>
    rw [List.mem_cons, not_or] at h
    rw [addToPhases_cons, ih h.2, phase_addToPhase, update_of_ne h.1]

theorem Valid.phase_pushThrough (hw : w.Valid) : (w.pushThrough v gone).phase gone =
    if (w.phase v).isPi then -w.phase gone else w.phase gone := by
  rw [Web.pushThrough]
  split
  · have hself : gone ∉ (w.nearby gone).filter (· ≠ v) := fun hmem =>
      hw.notMem_nearby_self (List.mem_of_mem_filter hmem)
    rw [phase_addToPhases hself]
    exact update_self (β := fun _ => Phase) gone _ _
  · rfl

/-! ### Fusing -/

/-- Without two spiders that no plain edge leads to, the weights are those where their bits are
    zero. -/
theorem Simple.weight_remove_remove (hw : w.Simple) (hv : w.IsZ v) (hu : w.IsZ u) (hne : u ≠ v)
    (hpv : ∀ n, w.count v n .plain = 0) (hpu : ∀ n, w.count u n .plain = 0) :
    (((w.remove v).remove u).network τ).weight b =
      (w.network τ).weight (update (update b u false) v false) := by
  have hu' : (w.remove v).IsZ u := by
    rw [IsZ, kind_remove, update_of_ne hne]
    exact hu
  have hpu' (n : Vertex) : (w.remove v).count u n .plain = 0 := by
    simp only [Web.remove]
    split
    · rfl
    · exact hpu n
  have h := (hw.remove v).weight_signs (τ := τ) (b := b) hu' hpu' false
  rw [if_neg Bool.false_ne_true, mul_one] at h
  rw [hw.weight_signs hv hpv, if_neg Bool.false_ne_true, mul_one, h]

/-- The phase and the edges of `gone`, but for those to `v`, given to `keep`. -/
def handOver (w : Web) (v keep gone : Vertex) : Web :=
  (w.addToPhase keep (w.phase gone)).toggleAll keep ((w.nearby gone).filter (· ≠ v))

/-- Removes a spider and fuses its two neighbours. -/
def fuse (w : Web) (v keep gone : Vertex) : Web :=
  ((((w.pushThrough v gone).handOver v keep gone).mergeCarriers keep gone).remove v).remove gone

@[simp] theorem kind_fuse :
    (w.fuse v keep gone).kind = update (update w.kind v none) gone none := by
  obtain ⟨c, hc⟩ := exists_mergeCarriers ((w.pushThrough v gone).handOver v keep gone) keep gone
  have hk : ((w.pushThrough v gone).handOver v keep gone).kind = w.kind := by
    rw [handOver, kind_toggleAll, kind_addToPhase, kind_pushThrough]
  rw [fuse, hc, kind_remove, kind_remove, hk]

@[simp] theorem next_fuse : (w.fuse v keep gone).next = w.next := by
  obtain ⟨c, hc⟩ := exists_mergeCarriers ((w.pushThrough v gone).handOver v keep gone) keep gone
  rw [fuse, hc]
  exact next_toggleAll.trans next_pushThrough

/-- Between two spiders the bits are equal or opposite, as the phase of the one that joins them
    says. -/
theorem sum_link {P : ℂ} (hP : P = 1 ∨ P = -1) (x : Bool) (f : Bool → ℂ) :
    f false + f false * (P * (EdgeKind.hadamard.value true x *
          EdgeKind.hadamard.value true false)) +
        (f true + f true * (P * (EdgeKind.hadamard.value true x *
          EdgeKind.hadamard.value true true))) = 2 * if P = 1 then f x else f !x := by
  have hne : (-1 : ℂ) ≠ 1 := by norm_num
  rcases hP with rfl | rfl <;> cases x <;> simp [EdgeKind.value, hne] <;> ring

/-- What fusing the neighbours of a spider asks for. -/
structure Fusable (w : Web) (v keep gone : Vertex) : Prop where
  isZ : w.IsZ v
  pauli : (w.phase v).isPauli
  nearby : w.nearby v = [keep, gone] ∨ w.nearby v = [gone, keep]
  keep_isZ : w.IsZ keep
  gone_isZ : w.IsZ gone
  gone_nearby : ∀ u ∈ w.nearby gone, w.IsZ u

/-- Handing over changes the weights by the phase and the signs of the edges. -/
theorem Simple.weight_handOver (hw : w.Simple) (hD : Phase.IsGrid D) (hg : w.OnGrid D)
    (hk : w.IsZ keep) (hns : ∀ u ∈ (w.nearby gone).filter (· ≠ v), w.IsZ u) :
    ((w.handOver v keep gone).network τ).weight b = (w.network τ).weight b *
      if b keep then (w.phase gone).unit * signs ((w.nearby gone).filter (· ≠ v)) b else 1 := by
  rw [handOver, (hw.addToPhase keep _).weight_toggleAll
      (fun _ => ⟨hD, hg.addToPhase hD (hg gone) keep⟩) hk hns,
    hw.valid.weight_addToPhase hD hg hk (hg gone)]
  cases b keep
  · simp
  · simp only [if_true, mul_assoc]

namespace Fusable

variable (h : w.Fusable v keep gone)
include h

theorem mem_nearby : u ∈ w.nearby v ↔ u = keep ∨ u = gone := by
  rcases h.nearby with he | he <;> simp [he, or_comm]

theorem ne : keep ≠ gone := fun he => by
  have hnd := nodup_nearby (w := w) (v := v)
  rcases h.nearby with hn | hn <;> simp [hn, he] at hnd

theorem nearby_isZ : ∀ u ∈ w.nearby v, w.IsZ u := fun u hu => by
  rcases h.mem_nearby.1 hu with rfl | rfl
  · exact h.keep_isZ
  · exact h.gone_isZ

theorem others : ∀ u ∈ (w.nearby gone).filter (· ≠ v), w.IsZ u := fun u hu =>
  h.gone_nearby u (List.mem_of_mem_filter hu)

theorem signs_nearby (b : Bits) : signs (w.nearby v) b =
    EdgeKind.hadamard.value true (b keep) * EdgeKind.hadamard.value true (b gone) := by
  rcases h.nearby with he | he <;> simp [he, signs, mul_comm]

/-- The web before the two spiders are removed. -/
theorem simple_handOver (hw : w.Simple) :
    ((w.pushThrough v gone).handOver v keep gone).Simple := by
  have hz {x : Vertex} (hx : w.IsZ x) : (w.pushThrough v gone).IsZ x := by
    rwa [IsZ, kind_pushThrough]
  refine (hw.pushThrough.addToPhase keep _).toggleAll (hz h.keep_isZ) fun u hu => ?_
  rw [nearby_pushThrough] at hu
  exact hz (h.others u hu)

/-- What pushing a half turn brings where the bit of `gone` is zero. -/
theorem weight_pushThrough (hw : w.Simple) (hD : Phase.IsGrid D) (hg : w.OnGrid D)
    (hb : b gone = false) : ((w.pushThrough v gone).network τ).weight b =
      (w.network τ).weight b *
        if (w.phase v).isPi then signs ((w.nearby gone).filter (· ≠ v)) b else 1 := by
  have hne : (-1 : ℂ) ≠ 1 := by norm_num
  rw [Web.pushThrough]
  split
  · rw [(hw.negatePhase gone).valid.weight_addToPhases hD (hg.negatePhase hD gone) h.others
      Phase.onGrid_pi,
      hw.valid.weight_negatePhase hD hg h.gone_isZ, Phase.unit_pi, powers_of_sign (.inr rfl),
      if_neg hne, hb, if_neg Bool.false_ne_true, mul_one]
  · rw [mul_one]

/-- The weights by the bits of the two spiders that are removed. -/
theorem weight_eq (hw : w.Simple) (b : Bits) (x y : Bool) :
    (w.network τ).weight (update (update b gone y) v x) =
      (((w.remove v).remove gone).network τ).weight b *
        (if y then (w.phase gone).unit * τ gone * signs ((w.nearby gone).filter (· ≠ v)) b
          else 1) *
        if x then (w.phase v).unit * τ v * (EdgeKind.hadamard.value true (b keep) *
          EdgeKind.hadamard.value true y) else 1 := by
  have hgv : gone ≠ v := fun he => hw.valid.notMem_nearby_self (he ▸ h.mem_nearby.2 (.inr rfl))
  have hz : (w.remove v).IsZ gone := by
    rw [IsZ, kind_remove, update_of_ne hgv]
    exact h.gone_isZ
  have hplain (u : Vertex) : (w.remove v).count gone u .plain = 0 := by
    simp only [Web.remove]
    split
    · rfl
    · exact hw.plain_eq_zero h.gone_isZ h.gone_nearby u
  rw [hw.weight_signs h.isZ (hw.plain_eq_zero h.isZ h.nearby_isZ), h.signs_nearby,
    update_self, update_of_ne h.ne, (hw.remove v).weight_signs hz hplain, phase_remove,
    update_of_ne hgv, nearby_remove, if_neg hgv]

/-- The weights of the fused web. -/
theorem weight_fuse (hw : w.Simple) (hD : Phase.IsGrid D) (hg : w.OnGrid D) (b : Bits) :
    ((w.fuse v keep gone).network τ).weight b =
      (((w.remove v).remove gone).network τ).weight b *
        ((if (w.phase v).isPi then signs ((w.nearby gone).filter (· ≠ v)) b else 1) *
          if b keep then (if (w.phase v).isPi then (w.phase gone).unit⁻¹ else (w.phase gone).unit) *
            signs ((w.nearby gone).filter (· ≠ v)) b else 1) := by
  have hvg : v ∉ w.nearby v := hw.valid.notMem_nearby_self
  have hkv : keep ≠ v := fun he => hvg (he ▸ h.mem_nearby.2 (.inl rfl))
  have hgv : gone ≠ v := fun he => hvg (he ▸ h.mem_nearby.2 (.inr rfl))
  set w₁ := (w.pushThrough v gone).handOver v keep gone with hw₁
  have hsimple : w₁.Simple := h.simple_handOver hw
  have hz {x : Vertex} (hx : w.IsZ x) : (w.pushThrough v gone).IsZ x := by
    rwa [IsZ, kind_pushThrough]
  have hz₁ {x : Vertex} (hx : w.IsZ x) : w₁.IsZ x := isZ_toggleAll.2 (hz hx)
  have hothers : ∀ u ∈ ((w.pushThrough v gone).nearby gone).filter (· ≠ v),
      (w.pushThrough v gone).IsZ u := fun u hu => hz (h.others u (by rwa [nearby_pushThrough] at hu))
  have hplain (s t : Vertex) : w₁.count s t .plain = w.count s t .plain := by
    rw [hw₁, handOver, (hw.pushThrough.addToPhase keep _).plain_toggleAll (hz h.keep_isZ) hothers,
      count_addToPhase, count_pushThrough]
  have hnet : (w.fuse v keep gone).network τ = ((w₁.remove v).remove gone).network τ := by
    obtain ⟨c, hc⟩ := exists_mergeCarriers w₁ keep gone
    rw [fuse, ← hw₁, hc]
    rfl
  set b₀ : Bits := update (update b gone false) v false with hb₀
  have hgone₀ : b₀ gone = false := by rw [hb₀, update_of_ne hgv, update_self]
  have hkeep₀ : b₀ keep = b keep := by rw [hb₀, update_of_ne hkv, update_of_ne h.ne]
  have hsigns₀ : signs ((w.nearby gone).filter (· ≠ v)) b₀ =
      signs ((w.nearby gone).filter (· ≠ v)) b := by
    rw [hb₀, signs_update (by simp), signs_update fun hmem =>
      hw.valid.notMem_nearby_self (List.mem_of_mem_filter hmem)]
  have hzero : (w.network τ).weight b₀ = (((w.remove v).remove gone).network τ).weight b := by
    rw [hb₀, h.weight_eq hw]
    simp
  have hunit : ((w.pushThrough v gone).phase gone).unit =
      if (w.phase v).isPi then (w.phase gone).unit⁻¹ else (w.phase gone).unit := by
    rw [hw.valid.phase_pushThrough]
    split
    · exact ((hg gone).neg hD).2
    · rfl
  rw [hnet, hsimple.weight_remove_remove (hz₁ h.isZ) (hz₁ h.gone_isZ) hgv
    (fun n => (hplain v n).trans (hw.plain_eq_zero h.isZ h.nearby_isZ n))
    (fun n => (hplain gone n).trans (hw.plain_eq_zero h.gone_isZ h.gone_nearby n)), ← hb₀, hw₁,
    hw.pushThrough.weight_handOver hD (hg.pushThrough hD) (hz h.keep_isZ) hothers,
    h.weight_pushThrough hw hD hg hgone₀, hzero, hunit, hkeep₀, nearby_pushThrough, hsigns₀,
    mul_assoc]

/-- Fusing the neighbours of a spider, with the twist of the one that goes found at the other one,
    changes what the diagram denotes by a scalar only. -/
theorem amplitude_fuse (hw : w.Simple) (hD : Phase.IsGrid D) (hg : w.OnGrid D) (hv : τ v = 1)
    (hgone : τ gone ≠ 0) (hoff : ∀ u, u ≠ v → u ≠ keep → u ≠ gone → τ' u = τ u)
    (hat : τ' keep = τ keep * if (w.phase v).isPi then (τ gone)⁻¹ else τ gone) :
    Proportional (w.network τ).amplitude ((w.fuse v keep gone).network τ').amplitude := by
  have hgv : gone ≠ v := fun he => hw.valid.notMem_nearby_self (he ▸ h.mem_nearby.2 (.inr rfl))
  have hkv : keep ≠ v := fun he => hw.valid.notMem_nearby_self (he ▸ h.mem_nearby.2 (.inl rfl))
  have hmem {x : Vertex} {σ : Vertex → ℂ} : x ∈ ((w.fuse v keep gone).network σ).inner ↔
      x ≠ gone ∧ x ≠ v ∧ x ∈ (w.network τ).inner := by
    rw [mem_inner_iff, mem_inner_iff, next_fuse, IsZ, IsZ, kind_fuse, Function.update_apply,
      Function.update_apply]
    split
    · simp [*]
    split
    · simp [*]
    · simp [*]
  have hinner : ((w.fuse v keep gone).network τ').inner =
      ((w.network τ).inner.erase v).erase gone := by
    ext x
    rw [hmem, Finset.mem_erase, Finset.mem_erase]
  have hgone_mem : gone ∈ (w.network τ).inner.erase v :=
    Finset.mem_erase.2 ⟨hgv, hw.valid.mem_inner.2 h.gone_isZ⟩
  set t : ℂ := if (w.phase v).isPi then (τ gone)⁻¹ else τ gone
  have htwist (b : Bits) : ((w.fuse v keep gone).network τ').weight b =
      ((w.fuse v keep gone).network τ).weight b * if b keep then t else 1 :=
    weight_twist (hmem.2 ⟨h.ne, hkv, hw.valid.mem_inner.2 h.keep_isZ⟩) hat fun u hu hne =>
      hoff u (hmem.1 hu).2.1 hne (hmem.1 hu).1
  have hu0 := Phase.unit_ne_zero (w.phase gone)
  have hne1 : (-1 : ℂ) ≠ 1 := by norm_num
  refine ⟨2 * if (w.phase v).isPi then (w.phase gone).unit * τ gone else 1, ?_, fun b => ?_⟩
  · split
    · exact mul_ne_zero two_ne_zero (mul_ne_zero hu0 hgone)
    · norm_num
  -- sum over the spider that is removed and the neighbour that goes, with the bits of all others
  -- fixed
  refine Network.amplitude_eq_of_sum_pair (hw.valid.mem_inner.2 h.isZ) hgone_mem hinner
    (fun b => ?_) b
  set R := (((w.remove v).remove gone).network τ).weight b with hR
  set S := signs ((w.nearby gone).filter (· ≠ v)) b with hS
  have hsum := sum_link ((Phase.unit_of_isPauli h.pauli).imp And.right And.right) (b keep)
    fun y => R * if y then (w.phase gone).unit * τ gone * S else 1
  rw [htwist, h.weight_fuse hw hD hg, h.weight_eq hw, h.weight_eq hw, h.weight_eq hw,
    h.weight_eq hw, hv, ← hR, ← hS]
  simp only [Bool.false_eq_true, if_false, if_true, mul_one] at hsum ⊢
  rw [hsum]
  -- the sum forces the bit of the neighbour that goes to be that of the other one, or its opposite
  rcases Phase.unit_of_isPauli h.pauli with ⟨-, hP⟩ | ⟨hpi, hP⟩
  · have hpi : ¬(w.phase v).isPi := fun hpi => hne1 ((Phase.unit_of_isPi hpi).symm.trans hP)
    rw [if_pos hP, if_neg hpi, if_neg hpi, if_neg hpi, show t = τ gone from if_neg hpi]
    cases b keep
    · simp
    · simp only [if_true]
      ring
  · have hSS : S * S = 1 := signs_mul_self _ b
    rw [if_neg (hP ▸ hne1), if_pos hpi, if_pos hpi, if_pos hpi, show t = (τ gone)⁻¹ from if_pos hpi]
    cases b keep
    · simp only [Bool.not_false, if_true, Bool.false_eq_true, if_false]
      ring
    · simp only [Bool.not_true, if_true, Bool.false_eq_true, if_false]
      field_simp
      linear_combination (-R) * hSS

end Fusable

/-! ### The graph-like form -/

theorem InForm.pushThrough (hw : w.InForm) : (w.pushThrough v gone).InForm := by
  rw [Web.pushThrough]
  split
  · have hneg : (w.negatePhase gone).InForm := (hw.setPhase gone _).withCarrier _
    exact (Within.addToPhases _ _ _).inForm hneg (hneg.simple.addToPhases _ _)
  · exact hw

/-- Fusing changes edges and phases inside, but for the two spiders that go. -/
theorem Fusable.keeps (h : w.Fusable v keep gone) (hw : w.InForm) : Keeps w (w.fuse v keep gone) := by
  have hgv : gone ≠ v := fun he =>
    hw.simple.valid.notMem_nearby_self (he ▸ h.mem_nearby.2 (.inr rfl))
  have hz {x : Vertex} (hx : w.IsZ x) : (w.pushThrough v gone).IsZ x := by
    rwa [IsZ, kind_pushThrough]
  have hothers : ∀ u ∈ ((w.pushThrough v gone).nearby gone).filter (· ≠ v),
      (w.pushThrough v gone).IsZ u := fun u hu => hz (h.others u (by rwa [nearby_pushThrough] at hu))
  have hwithin : Within (w.pushThrough v gone) ((w.pushThrough v gone).handOver v keep gone) :=
    (Within.setPhase _ keep _).trans (Within.toggleAll (hz h.keep_isZ) hothers)
  have hform := hwithin.remove_remove hw.pushThrough (h.simple_handOver hw.simple) (hz h.isZ)
    (hz h.gone_isZ) hgv (fun x hx => hz (h.nearby_isZ x (by rwa [nearby_pushThrough] at hx)))
    fun x hx => hz (h.gone_nearby x (by rwa [nearby_pushThrough] at hx))
  have hinputs : (w.pushThrough v gone).inputs = w.inputs ∧
      (w.pushThrough v gone).outputs = w.outputs := by
    rw [Web.pushThrough]
    split
    · exact ⟨(Within.addToPhases _ _ _).inputs, (Within.addToPhases _ _ _).outputs⟩
    · exact ⟨rfl, rfl⟩
  obtain ⟨c, hc⟩ := exists_mergeCarriers ((w.pushThrough v gone).handOver v keep gone) keep gone
  have hfuse : w.fuse v keep gone = { ((((w.pushThrough v gone).handOver v keep gone).remove
      v).remove gone) with carrier := update (update c v none) gone none } := by
    rw [fuse, hc]
    rfl
  rw [hfuse]
  exact ⟨hform.withCarrier _, hwithin.inputs.trans hinputs.1, hwithin.outputs.trans hinputs.2⟩

theorem Fusable.rewrites (h : w.Fusable v keep gone) (hw : w.InForm) (hD : Phase.IsGrid D)
    (hg : w.OnGrid D) : Rewrites D w (w.fuse v keep gone) := by
  refine ⟨h.keeps hw, ?_, h.amplitude_fuse hw.simple hD hg rfl one_ne_zero
    (fun _ _ _ _ => rfl) (by simp)⟩
  have hgrid : ((w.pushThrough v gone).handOver v keep gone).OnGrid D :=
    ((hg.pushThrough hD).addToPhase hD (hg.pushThrough hD gone) keep).toggleAll hD _ _
  obtain ⟨c, hc⟩ := exists_mergeCarriers ((w.pushThrough v gone).handOver v keep gone) keep gone
  rw [fuse, hc]
  exact (OnGrid.remove (w := { (w.pushThrough v gone).handOver v keep gone with carrier := c })
    hgrid v).remove gone

/-- The two neighbours of a spider, the one that stays first. -/
def identityEnds (w : Web) (v : Vertex) : Option (Vertex × Vertex) :=
  match w.nearby v with
  | [a, b] => if w.ends b = [] then some (a, b) else if w.ends a = [] then some (b, a) else none
  | _ => none

theorem nearby_of_identityEnds (h : w.identityEnds v = some (keep, gone)) :
    (w.nearby v = [keep, gone] ∨ w.nearby v = [gone, keep]) ∧ w.ends gone = [] := by
  rw [identityEnds] at h
  split at h
  · next a b hab =>
    split at h
    · next hb =>
      obtain ⟨rfl, rfl⟩ := Prod.mk.inj (Option.some.inj h)
      exact ⟨.inl hab, hb⟩
    · split at h
      · next ha =>
        obtain ⟨rfl, rfl⟩ := Prod.mk.inj (Option.some.inj h)
        exact ⟨.inr hab, ha⟩
      · simp at h
  · simp at h

/-- A spider next to no end of a wire is next to Z spiders only. -/
theorem Simple.isZ_of_ends_eq_nil (hw : w.Simple) (h : w.ends v = []) :
    ∀ u ∈ w.nearby v, w.IsZ u := fun u hu => by
  rw [ends, List.filter_eq_nil_iff] at h
  exact (hw.isZ_iff (hw.valid.has_of_mem_nearby hu)).2 (by simpa using h u hu)

end Web

/-! ### The program -/

namespace GraphLike

variable {g : GraphLike} {v keep gone : Vertex}

open Web

theorem identityEnds_eq (hg : g.Coherent) (hv : g.web.Has v) :
    g.identityEnds v = .ok (g.web.identityEnds v) := by
  rw [GraphLike.identityEnds, neighborSet_eq hg hv, Web.identityEnds]
  have hmem : ∀ u ∈ g.web.nearby v, g.web.Has u := fun u hu => hg.valid.has_of_mem_nearby hu
  change (match g.web.nearby v with | [a, b] => _ | _ => _) = _
  split
  · next a b hab =>
    rw [hab] at hmem
    rw [boundaryNeighbors_eq hg (hmem a (by simp)), boundaryNeighbors_eq hg (hmem b (by simp))]
    change (if (g.web.ends b).isEmpty = true then _ else _) = _
    simp only [List.isEmpty_iff]
    split <;> rfl
  · rfl

theorem Gives.pushThrough (hg : g.Coherent) (hgone : g.web.Has gone) :
    Gives (if (g.phase v).isPi then g.pushThrough v gone else .ok g) (g.web.pushThrough v gone)
      g.master := by
  rw [Web.pushThrough]
  change Gives _ (if (g.phase v).isPi = true then _ else _) _
  split
  · have hneg : (g.negatePhase gone).web = g.web.negatePhase gone := web_negatePhase
    have hcoh := Coherent.negatePhase hg gone
    have hnear : (g.negatePhase gone).neighborSet gone = .ok (g.web.nearby gone) := by
      rw [neighborSet_eq hcoh (by rw [hneg]; exact hgone), hneg]
      rfl
    rw [GraphLike.pushThrough, hnear]
    refine Gives.pure (Coherent.addToPhases hcoh) ?_ ?_
    · rw [web_addToPhases, hneg]
    · rw [master_addToPhases, master_negatePhase]
  · exact Gives.ok hg

/-- The master after the neighbours of a spider are fused. -/
def fusedMaster (g : GraphLike) (v keep gone : Vertex) : Diagram :=
  ((g.web.pushThrough v gone).handOver v keep gone).mergedMaster g.master keep gone

/-- The program that fuses the neighbours of a spider, once these are known. -/
theorem fuseNeighbors_eq (hg : g.Coherent) (hv : g.web.Has v)
    (hends : g.web.identityEnds v = some (keep, gone)) : g.fuseNeighbors v =
      ((if (g.phase v).isPi then g.pushThrough v gone else .ok g) >>= fun g₁ : GraphLike => (do
        let g₂ := g₁.addToPhase keep (g₁.phase gone)
        let edges := (← g₂.incidentEdges gone).filter (·.1 ≠ v)
        let g₃ ← edges.foldlM (fun g (n, kind) => g.addEdgeReduced keep n kind) g₂
        (← (g₃.mergeCarriers keep gone).removeSpider v).removeSpider gone)) := by
  rw [GraphLike.fuseNeighbors, identityEnds_eq hg hv, hends]
  change (if (g.phase v).isPi = true then _ else _) = _
  split <;> rfl

/-- Fusing the neighbours of a spider. -/
theorem Gives.fuseNeighbors (hg : g.Coherent) (hw : g.web.InForm)
    (h : g.web.Fusable v keep gone) (hends : g.web.identityEnds v = some (keep, gone)) :
    Gives (g.fuseNeighbors v) (g.web.fuse v keep gone) (g.fusedMaster v keep gone) := by
  have hgv : gone ≠ v := fun he =>
    hw.simple.valid.notMem_nearby_self (he ▸ h.mem_nearby.2 (.inr rfl))
  rw [fuseNeighbors_eq hg h.isZ.has hends]
  refine (Gives.pushThrough hg h.gone_isZ.has).bind fun g₁ hg₁ hw₁ hm₁ => ?_
  have hz {x : Vertex} (hx : g.web.IsZ x) : g₁.web.IsZ x := by rwa [IsZ, hw₁, kind_pushThrough]
  have hform₁ : g₁.web.InForm := hw₁ ▸ hw.pushThrough
  have hnear (x : Vertex) : g₁.web.nearby x = g.web.nearby x := by rw [hw₁, nearby_pushThrough]
  -- the edges that are moved
  set g₂ := g₁.addToPhase keep (g₁.phase gone) with hg₂
  have hweb₂ : g₂.web = g₁.web.addToPhase keep (g₁.web.phase gone) := web_addToPhase
  have hcoh₂ : g₂.Coherent := Coherent.addToPhase hg₁ _ _
  have hedges : g₂.incidentEdges gone =
      .ok ((g.web.nearby gone).map fun u => (u, EdgeKind.hadamard)) := by
    have hsimple : g₂.web.Simple := by
      rw [hweb₂]
      exact hform₁.simple.addToPhase keep _
    rw [incidentEdges_eq hcoh₂ hsimple.noParallel (by rw [hweb₂]; exact (hz h.gone_isZ).has), hweb₂]
    refine congrArg Except.ok ?_
    have hincident := Web.incident_eq hform₁.simple (hz h.gone_isZ)
      fun u hu => hz (h.gone_nearby u (hnear gone ▸ hu))
    rw [hnear] at hincident
    exact hincident
  have hmoved : ((g.web.nearby gone).map fun u => (u, EdgeKind.hadamard)).filter (·.1 ≠ v) =
      ((g.web.nearby gone).filter (· ≠ v)).map fun u => (u, EdgeKind.hadamard) := by
    rw [List.filter_map]
    rfl
  have htoggle := Gives.addToPhase_toggleAll hg₁ hform₁.simple (hz h.keep_isZ)
    (fun n hn => hz (h.others n hn)) (g₁.phase gone)
  change Gives (g₂.incidentEdges gone >>= _) _ _
  rw [hedges]
  change Gives (List.foldlM _ g₂ (List.filter _ _) >>= _) _ _
  rw [hmoved, List.foldlM_map]
  refine htoggle.bind fun g₃ hg₃ hw₃ hm₃ => ?_
  have hw₃' : g₃.web = (g.web.pushThrough v gone).handOver v keep gone := by
    rw [hw₃, handOver, nearby_pushThrough, ← hw₁]
    rfl
  have hkind : (g₃.mergeCarriers keep gone).web.kind = g.web.kind := by
    obtain ⟨c, hc⟩ := exists_mergeCarriers g₃.web keep gone
    rw [web_mergeCarriers, hc, hw₃', handOver, kind_toggleAll, kind_addToPhase, kind_pushThrough]
  have hcoh₃ : (g₃.mergeCarriers keep gone).Coherent := Coherent.mergeCarriers hg₃ keep gone
  have hremove := Gives.removeSpider hcoh₃ (v := v) (by rw [Has, hkind]; exact h.isZ.has)
  refine hremove.bind fun g₄ hg₄ hw₄ hm₄ => ?_
  have hlast := Gives.removeSpider hg₄ (v := gone)
    (by rw [Has, hw₄, kind_remove, update_of_ne hgv, hkind]; exact h.gone_isZ.has)
  rw [hw₄, hm₄, web_mergeCarriers, master_mergeCarriers, hw₃', hm₃, hm₁] at hlast
  exact hlast

/-- A test of the edges of a spider that looks for Z spiders at the other ends. -/
theorem isZ_of_allM_incident (hg : g.Coherent) {f : Vertex × EdgeKind → Except Fault Bool}
    (h : (g.web.incident v).allM f = .ok true)
    (hf : ∀ e, f e = .ok true → g.isZ e.1 = .ok true) : ∀ u ∈ g.web.nearby v, g.web.IsZ u := by
  intro u hu
  obtain ⟨k, hk⟩ := Option.isSome_iff_exists.1 (link_isSome_iff.2 (hg.valid.mem_nearby.1 hu))
  have hz := hf (u, k) (of_allM_eq_true h (u, k) (mem_incident.2 ⟨hu, hk⟩))
  rw [isZ_eq (hg.valid.has_of_mem_nearby hu)] at hz
  exact of_decide_eq_true (Except.ok.inj hz)

/-- A spider that passes the check has two neighbours that can be fused. -/
theorem fusable_of_check (hg : g.Coherent) (hw : g.web.InForm) (hv : g.web.Has v)
    (h : g.checkFuseNeighbors v = .ok true) (hends : g.identityEnds v = .ok (some (keep, gone))) :
    g.web.Fusable v keep gone ∧ g.web.identityEnds v = some (keep, gone) := by
  rw [identityEnds_eq hg hv] at hends
  have hends' := Except.ok.inj hends
  obtain ⟨hnear, hgone⟩ := nearby_of_identityEnds hends'
  rw [checkFuseNeighbors, and_eq_true_iff, and_eq_true_iff, and_eq_true_iff, and_eq_true_iff] at h
  obtain ⟨hz, hp, -, hall, -⟩ := h
  rw [isZ_eq hv] at hz
  have hzv : g.web.IsZ v := of_decide_eq_true (Except.ok.inj hz)
  rw [incidentEdges_eq hg hw.simple.noParallel hv] at hall
  have hneighbor := isZ_of_allM_incident hg hall fun e he => by
    rw [and_eq_true_iff, and_eq_true_iff] at he
    exact he.2.1
  have hmem : keep ∈ g.web.nearby v ∧ gone ∈ g.web.nearby v := by
    rcases hnear with he | he <;> simp [he]
  exact ⟨⟨hzv, Except.ok.inj hp, hnear, hneighbor keep hmem.1, hneighbor gone hmem.2,
    hw.simple.isZ_of_ends_eq_nil hgone⟩, hends'⟩

/-! ### Removing a spider between two others -/

/-- Something is there if it has been asked for its kind. -/
theorem has_of_isZ {r : Bool} (h : g.isZ v = .ok r) : g.web.Has v := by
  obtain ⟨κ, hκ, -⟩ := of_bind_eq_ok h
  rw [Diagram.kind] at hκ
  rw [Has, show g.web.kind v = g.kinds[v]? from rfl]
  split at hκ
  · next hk => rw [hk, Option.isSome_some]
  · cases hκ

theorem checkRemoveIdentity_eq (hg : g.Coherent) (hw : g.web.NoParallel) (hv : g.web.Has v) :
    g.checkRemoveIdentity v =
      .ok (decide (g.web.IsZ v ∧ (g.phase v).isZero ∧ (g.web.nearby v).length = 2)) := by
  rw [checkRemoveIdentity, isZ_eq hv, show g.toDiagram.degree v = _ from degree_eq hg hv,
    show g.toDiagram.neighborSet v = _ from neighborSet_eq hg hv, hw.degree_eq]
  change (Except.ok _ <&&> (Except.ok _ <&&> (Except.ok _ <&&> Except.ok _))) = _
  rw [and_eq fun _ => and_eq fun _ => and_eq fun _ => rfl]
  congr 1
  by_cases h : (g.web.nearby v).length = 2 <;> simp [h, Bool.decide_and]

/-- A spider that passes the check is a Z spider without a phase and has two edges. -/
theorem of_checkRemoveIdentity (hg : g.Coherent) (hw : g.web.NoParallel)
    (h : g.checkRemoveIdentity v = .ok true) : g.web.IsZ v ∧ (g.phase v).isZero ∧
      ∃ a k₁ b k₂, g.web.incident v = [(a, k₁), (b, k₂)] ∧ a ≠ b := by
  have hv : g.web.Has v := has_of_isZ (and_eq_true_iff.1 h).1
  rw [checkRemoveIdentity_eq hg hw hv, ← hw.valid.length_incident] at h
  obtain ⟨hz, hzero, hlen⟩ := of_decide_eq_true (Except.ok.inj h)
  obtain ⟨⟨a, k₁⟩, ⟨b, k₂⟩, hlist⟩ := List.length_eq_two.1 hlen
  have hlt := pairwise_incident (w := g.web) (v := v)
  rw [hlist, List.pairwise_pair] at hlt
  exact ⟨hz, hzero, a, k₁, b, k₂, hlist, Nat.ne_of_lt hlt⟩

/-- Removing a spider with two edges joins its neighbours. -/
theorem Gives.removeIdentity {a b : Vertex} {k₁ k₂ : EdgeKind} (hg : g.Coherent)
    (hw : g.web.NoParallel) (hv : g.web.Has v) (hlist : g.web.incident v = [(a, k₁), (b, k₂)])
    (hends : g.web.link a b ≠ none → ¬g.web.IsEnd a ∧ ¬g.web.IsEnd b) :
    Gives (g.removeIdentity v) ((g.web.remove v).addReduced a b (k₁.merge k₂)) g.master := by
  have hnear {u : Vertex} {k : EdgeKind} (h : (u, k) ∈ g.web.incident v) :
      g.web.Has u ∧ u ≠ v := by
    have hu := (mem_incident.1 h).1
    exact ⟨hg.valid.has_of_mem_nearby hu, (hg.valid.ne_of_mem_nearby hu).symm⟩
  obtain ⟨ha, hav⟩ : g.web.Has a ∧ a ≠ v := hnear (k := k₁) (by simp [hlist])
  obtain ⟨hb, hbv⟩ : g.web.Has b ∧ b ≠ v := hnear (k := k₂) (by simp [hlist])
  rw [GraphLike.removeIdentity, incidentEdges_eq hg hw hv, hlist]
  refine (Gives.removeSpider hg hv).bind fun g₁ hg₁ hw₁ hm₁ => ?_
  rw [← hw₁, ← hm₁]
  refine .addReduced hg₁ (hw₁ ▸ has_remove.2 ⟨hav, ha⟩) (hw₁ ▸ has_remove.2 ⟨hbv, hb⟩) ?_ _
  rw [hw₁, link_remove hav hbv, IsEnd, IsEnd, kind_remove, update_of_ne hav, update_of_ne hbv]
  exact hends

end GraphLike

end ZXRewriting
