import ZXRewriting.Proofs.Diagram.RoundTrip
import ZXRewriting.Proofs.Diagram.Woven
import ZXRewriting.Proofs.Semantics.Reversible

/-!
# The unitary of a diagram of cells

The actions of cells are invertible, whatever the factors of their spiders are twisted by, and so is
the map that a woven web denotes (`Woven.reversible`). Without twists they are those of the gates
that the cells are read as (`Woven.exists_unitary`), so that a circuit read back from a diagram of
cells has the unitary that the diagram denotes, up to a scalar (`Written.toCircuit_unitary`).
-/

namespace ZXRewriting

open Equiv (Perm)

namespace Web.Woven

variable {w : Web} {n : ℕ} {lines : Diagram.Side → Perm ℕ} {beside : Vertex → List Vertex}
  {cells : List Cell}

theorem ends (h : w.Woven n lines beside cells) : Ends n w.outputs w.inputs where
  outputs_nodup := h.threaded.nodup .back
  inputs_nodup := h.threaded.nodup .front
  disjoint v hv hv' := by
    cases ((h.threaded.inputs v).1 hv').symm.trans ((h.threaded.outputs v).1 hv)
  outputs_length := h.threaded.length .back
  inputs_length := h.threaded.length .front

theorem keepsPlaces (h : w.Woven n lines beside cells) :
    KeepsPlaces n ((lines .front).symm * lines .back) :=
  (h.threaded.keeps .front).symm.mul (h.threaded.keeps .back)

end Web.Woven

section Reversible

variable {n : ℕ} {outputs inputs : List Vertex} {f : Bits → ℂ} {κ : SpiderKind} {c : ℂ} {o : Vertex}

/-- The matrix of wires that lie as a permutation says. -/
def carryMatrix (n : ℕ) (σ : Perm ℕ) : Matrix (Fin n → Bool) (Fin n → Bool) ℂ :=
  Matrix.of fun y x => if y = carry σ x then 1 else 0

theorem carryMatrix_mul {σ τ : Perm ℕ} (hσ : KeepsPlaces n σ) :
    carryMatrix n σ * carryMatrix n τ = carryMatrix n (τ * σ) := by
  ext y x
  simp only [carryMatrix, Matrix.mul_apply, Matrix.of_apply, mul_ite, mul_one, mul_zero,
    Finset.sum_ite_eq', Finset.mem_univ, if_true, carry_mul hσ]

theorem isUnit_carryMatrix {σ : Perm ℕ} (hσ : KeepsPlaces n σ) : IsUnit (carryMatrix n σ) := by
  have hone : carryMatrix n 1 = 1 := by
    ext y x
    rw [carryMatrix, Matrix.of_apply, carry_one, Matrix.one_apply]
  refine ⟨⟨carryMatrix n σ, carryMatrix n σ.symm, ?_, ?_⟩, rfl⟩
  · rw [carryMatrix_mul hσ, show σ.symm * σ = 1 from Equiv.ext σ.symm_apply_apply, hone]
  · rw [carryMatrix_mul hσ.symm, show σ * σ.symm = 1 from Equiv.ext σ.apply_symm_apply, hone]

/-- What wires denote that lead to the places a permutation says. -/
theorem Ends.toMatrix_wiring (he : Ends n outputs inputs) {σ : Perm ℕ} (hσ : KeepsPlaces n σ) :
    toMatrix n n outputs inputs (wiring (fun q => outputs.getD q 0) (fun q => inputs.getD q 0)
      ((List.range n).map σ)) = carryMatrix n σ := by
  ext y x
  rw [toMatrix, Matrix.of_apply, wiring_map_range, carryMatrix, Matrix.of_apply]
  refine if_congr ⟨fun h => funext fun q => ?_, fun h q hq => ?_⟩ rfl rfl
  · have hq := h q q.2
    rw [he.endBits_output q.2, he.endBits_comm, he.symm.endBits_output ((hσ q).2 q.2),
      getBit_eq q.2] at hq
    exact hq
  · rw [he.endBits_output hq, he.endBits_comm, he.symm.endBits_output ((hσ q).2 hq), h,
      getBit_carry hσ]

/-- A spider at an end that has a factor. -/
theorem Ends.reversible_spider (he : Ends n outputs inputs) (ho : o ∈ outputs)
    (hκ : κ.isBoundary = false) (hc : if κ = .box then c = -2 else c ≠ 0) :
    Reversible n outputs inputs (κ.act c o f) ↔ Reversible n outputs inputs f := by
  cases κ with
  | z =>
    rw [show SpiderKind.z.act c o f = _ from funext (SpiderKind.act_z c o f)]
    exact he.reversible_factor (.inl ho) hc f
  | x =>
    rw [SpiderKind.act_x, he.reversible_hadamardAt (.inl ho), he.reversible_factor (.inl ho) hc,
      he.reversible_hadamardAt (.inl ho)]
  | box =>
    rw [if_pos rfl] at hc
    rw [hc, SpiderKind.act_box, he.reversible_hadamardAt (.inl ho)]
  | input | output => cases hκ

/-- A cell at the ends. -/
theorem Cell.Shown.reversible_act {w : Web} {beside : Vertex → List Vertex} {c : Cell} {σ : Perm ℕ}
    {τ : Vertex → ℂ} (h : c.Shown w beside) (he : Ends n outputs inputs) (hσ : KeepsPlaces n σ)
    (hspots : ∀ s ∈ c.spots, s.2 < n) (hne : ∀ v, τ v ≠ 0)
    (hτ : ∀ v, w.kind v = some .box → τ v = 1) :
    Reversible n outputs inputs (c.act τ (fun t => outputs.getD (σ t) 0) f) ↔
      Reversible n outputs inputs f := by
  have hmem {t : ℕ} (ht : t < n) : outputs.getD (σ t) 0 ∈ outputs := by
    refine List.mem_of_getElem? (getElem?_getD ?_)
    rw [he.outputs_length]
    exact (hσ t).2 ht
  have hfactor (p : Phase) (v : Vertex) : p.unit * τ v ≠ 0 := mul_ne_zero p.unit_ne_zero (hne v)
  cases h with
  | @wire κ p v t hκ hk _ _ =>
    refine he.reversible_spider (hmem (hspots (v, t) (List.mem_singleton_self _))) hκ ?_
    split
    next hbox =>
      subst hbox
      rw [hτ v hk, mul_one, SpiderKind.factor_box]
    next hbox =>
      have hphased : κ.isPhased = true := by
        cases κ <;> simp_all [SpiderKind.isPhased, SpiderKind.isBoundary]
      rw [SpiderKind.factor_of_isPhased hphased]
      exact hfactor p v
  | @cnot p p' a b s t _ hst =>
    have hs := hspots (a, s) List.mem_cons_self
    have ht := hspots (b, t) (List.mem_cons_of_mem _ List.mem_cons_self)
    rw [Cell.act, he.reversible_spider (κ := .x) (hmem ht) rfl (hfactor p' b),
      he.reversible_spider (κ := .z) (hmem hs) rfl (hfactor p a)]
    exact he.reversible_act (g := .plain .cnot [σ s, σ t]) ⟨rfl, by simpa [Gate.plain] using hst,
      by simpa [Gate.plain] using ⟨(hσ s).2 hs, (hσ t).2 ht⟩⟩ f
  | @cz p p' a b m s t _ hst =>
    have hs := hspots (a, s) List.mem_cons_self
    have ht := hspots (b, t) (List.mem_cons_of_mem _ List.mem_cons_self)
    rw [Cell.act, he.reversible_spider (κ := .z) (hmem ht) rfl (hfactor p' b),
      he.reversible_spider (κ := .z) (hmem hs) rfl (hfactor p a)]
    exact he.reversible_act (g := .plain .cz [σ s, σ t]) ⟨rfl, by simpa [Gate.plain] using hst,
      by simpa [Gate.plain] using ⟨(hσ s).2 hs, (hσ t).2 ht⟩⟩ f

end Reversible

namespace Web.Woven

variable {w : Web} {n : ℕ} {lines : Diagram.Side → Perm ℕ} {beside : Vertex → List Vertex}
  {cells : List Cell} {τ : Vertex → ℂ}

theorem toMatrix_wiring (h : w.Woven n lines beside cells) :
    toMatrix n n w.outputs w.inputs (wiring w.output w.input
      ((List.range n).map ((lines .front).symm * lines .back : Perm ℕ))) =
        carryMatrix n ((lines .front).symm * lines .back) := h.ends.toMatrix_wiring h.keepsPlaces

/-- Whatever the factors of its spiders, a woven web denotes an invertible map. -/
theorem reversible (h : w.Woven n lines beside cells) (hne : ∀ v, τ v ≠ 0)
    (hτ : ∀ v, w.kind v = some .box → τ v = 1) :
    Reversible n w.outputs w.inputs (w.tensors τ).amplitude := by
  have hstart : Reversible n w.outputs w.inputs (wiring w.output w.input
      ((List.range n).map ((lines .front).symm * lines .back : Perm ℕ))) := by
    rw [Reversible, h.toMatrix_wiring]
    exact isUnit_carryMatrix h.keepsPlaces
  have hspots : ∀ c ∈ cells, ∀ s ∈ c.spots, s.2 < n := fun c hc s hs =>
    (h.threaded.spider s (List.mem_flatMap.2 ⟨c, hc, hs⟩)).2.2
  rw [h.amplitude_eq hτ]
  refine List.foldlRecOn cells _ hstart fun f hf c hc => ?_
  exact ((h.shown c hc).reversible_act h.ends (h.threaded.keeps .back).symm (hspots c hc) hne
    hτ).2 hf

end Web.Woven

/-! ### Reading back -/

section Gates

variable {n : ℕ} {o : ℕ → Vertex} {ρ σ : Perm ℕ} {f : Bits → ℂ} {hs : List Gate}

theorem Gate.act_relabel (g : Gate) : (g.relabel ρ).act o f = g.act (fun q => o (ρ q)) f := by
  obtain ⟨kind, qubits, p⟩ := g
  rcases qubits with - | ⟨q, - | ⟨r, - | ⟨s, qubits⟩⟩⟩ <;> cases kind <;> rfl

theorem actAll_relabel (gs : List Gate) :
    actAll o (gs.map (Gate.relabel ρ)) f = actAll (fun q => o (ρ q)) gs f := by
  induction gs generalizing f with
  | nil => rfl
  | cons g gs ih => rw [List.map_cons, actAll_cons, ih, Gate.act_relabel, actAll_cons]

/-- The unitary of swaps is that of the places they lead to. -/
theorem gatesMatrix_of_follow (hh : ∀ g ∈ hs, g.Valid n) (hfollow : follow 1 hs = ([], σ)) :
    gatesMatrix n hs = carryMatrix n σ := by
  have hσ := (KeepsPlaces.one.follow hh).1
  have hone := gatesMatrix_follow KeepsPlaces.one hh
  rw [hfollow] at hσ hone
  ext y x
  obtain ⟨y, rfl⟩ := (carry_bijective hσ).surjective y
  have hentry := congrFun (congrFun hone y) x
  rw [Matrix.submatrix_apply, carry_one] at hentry
  rw [← hentry, carryMatrix, Matrix.of_apply]
  simp only [gatesMatrix, List.foldl_nil, Matrix.one_apply, (carry_bijective hσ).injective.eq_iff]

/-- Swaps before gates do what swaps after them do to the gates along the wires. -/
theorem gatesMatrix_swaps_append {gs : List Gate} (hg : ∀ g ∈ gs, g.Valid n ∧ g.kind ≠ .swap)
    (hh : ∀ g ∈ hs, g.Valid n) (hfollow : follow 1 hs = ([], σ)) :
    gatesMatrix n ((gs.map (Gate.relabel σ)).filter (!·.isIdle) ++ hs) =
      gatesMatrix n gs * carryMatrix n σ := by
  have hafter : follow 1 (hs ++ gs) = (gs.map (Gate.relabel σ), σ) := by
    have hgates : follow (σ * 1) gs = _ := follow_mul
    rw [follow_of_ne fun g hmem => (hg g hmem).2, mul_one] at hgates
    rw [follow_append, hfollow, List.nil_append, hgates]
  have hvalid : ∀ g ∈ hs ++ gs, g.Valid n := fun g hmem =>
    (List.mem_append.1 hmem).elim (hh g) fun hmem => (hg g hmem).1
  have happend := gatesMatrix_follow_append hvalid hh (by rw [hafter, hfollow])
  rw [hafter] at happend
  rw [happend, gatesMatrix_append, gatesMatrix_of_follow hh hfollow]

end Gates

namespace Cell.Shown

variable {w : Web} {beside : Vertex → List Vertex} {c : Cell} {n : ℕ}

/-- Without twists, the action of a cell is that of the gates it is read as. -/
theorem act_one (h : c.Shown w beside) (o : ℕ → Vertex) (f : Bits → ℂ) :
    c.act 1 o f = actAll o c.gates f := by
  have hz (p : Phase) (o : Vertex) (f : Bits → ℂ) : SpiderKind.z.act (p.unit * 1) o f =
      fun b => (if b o then p.unit else 1) * f b := by
    rw [mul_one]
    exact funext (SpiderKind.act_z _ _ _)
  have hx (p : Phase) (o : Vertex) (f : Bits → ℂ) : SpiderKind.x.act (p.unit * 1) o f =
      hadamardAt o (fun b => (if b o then p.unit else 1) * hadamardAt o f b) := by
    rw [mul_one, SpiderKind.act_x]
  cases h with
  | @wire κ p v t hκ =>
    cases κ with
    | z => exact hz p (o t) f
    | x => exact hx p (o t) f
    | box =>
      rw [Cell.act, SpiderKind.factor_box, Pi.one_apply, mul_one, SpiderKind.act_box]
      rfl
    | input | output => cases hκ
  | cnot => rw [Cell.act, Pi.one_apply, Pi.one_apply, hx, hz]; rfl
  | cz => rw [Cell.act, Pi.one_apply, Pi.one_apply, hz, hz]; rfl

theorem valid_gates (h : c.Shown w beside) (hspots : ∀ s ∈ c.spots, s.2 < n) :
    ∀ g ∈ c.gates, g.Valid n ∧ g.kind ≠ .swap := by
  have hone {kind : GateKind} {q : ℕ} {p : Phase} (hk : kind.arity = 1) (hq : q < n) :
      (⟨kind, [q], p⟩ : Gate).Valid n ∧ kind ≠ .swap :=
    ⟨⟨hk.symm, List.nodup_singleton q, by simpa using hq⟩, by rintro rfl; cases hk⟩
  have htwo {kind : GateKind} {q r : ℕ} {p : Phase} (hk : kind.arity = 2) (hs : kind ≠ .swap)
      (hqr : q ≠ r) (hq : q < n) (hr : r < n) :
      (⟨kind, [q, r], p⟩ : Gate).Valid n ∧ kind ≠ .swap :=
    ⟨⟨hk.symm, by simpa using hqr, by simpa using ⟨hq, hr⟩⟩, hs⟩
  cases h with
  | @wire κ p v t =>
    have ht := hspots (v, t) (List.mem_singleton_self _)
    refine List.forall_mem_singleton.2 ?_
    cases κ <;> exact hone rfl ht
  | @cnot p p' a b s t _ hst =>
    have hs := hspots (a, s) List.mem_cons_self
    have ht := hspots (b, t) (List.mem_cons_of_mem _ List.mem_cons_self)
    exact List.forall_mem_cons.2 ⟨htwo rfl (by decide) hst hs ht,
      List.forall_mem_cons.2 ⟨hone rfl hs, List.forall_mem_singleton.2 (hone rfl ht)⟩⟩
  | @cz p p' a b m s t _ hst =>
    have hs := hspots (a, s) List.mem_cons_self
    have ht := hspots (b, t) (List.mem_cons_of_mem _ List.mem_cons_self)
    exact List.forall_mem_cons.2 ⟨htwo rfl (by decide) hst hs ht,
      List.forall_mem_cons.2 ⟨hone rfl hs, List.forall_mem_singleton.2 (hone rfl ht)⟩⟩

end Cell.Shown

namespace Web.Woven

variable {w : Web} {n : ℕ} {lines : Diagram.Side → Perm ℕ} {beside : Vertex → List Vertex}
  {cells : List Cell}

theorem valid_gates (h : w.Woven n lines beside cells) :
    ∀ g ∈ cells.flatMap Cell.gates, g.Valid n ∧ g.kind ≠ .swap := fun g hg => by
  obtain ⟨c, hc, hg⟩ := List.mem_flatMap.1 hg
  exact (h.shown c hc).valid_gates
    (fun s hs => (h.threaded.spider s (List.mem_flatMap.2 ⟨c, hc, hs⟩)).2.2) g hg

/-- What a woven web denotes as a matrix: that of its gates, put at the outputs of bare wires. -/
theorem exists_toMatrix (h : w.Woven n lines beside cells) : ∃ k : ℂ, k ≠ 0 ∧
    toMatrix n n w.outputs w.inputs (w.tensors 1).amplitude =
      k • (gatesMatrix n ((cells.flatMap Cell.gates).map (Gate.relabel (lines .back).symm)) *
        carryMatrix n ((lines .front).symm * lines .back)) := by
  have hfold (cs : List Cell) (hcs : ∀ c ∈ cs, c.Shown w beside) (f : Bits → ℂ) :
      cs.foldl (fun f c => c.act 1 (fun t => w.output ((lines .back).symm t)) f) f =
        actAll w.output ((cs.flatMap Cell.gates).map (Gate.relabel (lines .back).symm)) f := by
    rw [actAll_relabel]
    induction cs generalizing f with
    | nil => rfl
    | cons c cs ih =>
      rw [List.foldl_cons, ih fun c' hc' => hcs c' (List.mem_cons_of_mem _ hc'),
        (hcs c List.mem_cons_self).act_one, List.flatMap_cons, actAll_append]
  obtain ⟨k, hk, hmat⟩ := gatesMatrix_mul_toMatrix n w.inputs h.ends.outputs_nodup
    h.ends.outputs_length (fun _ hq => getElem?_outputs hq)
    (List.forall_mem_map.2 fun g hg => (h.valid_gates g hg).1.relabel (h.threaded.keeps .back).symm)
    (wiring w.output w.input ((List.range n).map ((lines .front).symm * lines .back : Perm ℕ)))
  refine ⟨k, hk, ?_⟩
  rw [h.amplitude_eq (τ := 1) fun _ _ => rfl, hfold cells h.shown, hmat, h.toMatrix_wiring]

/-- The gates of the cells on the wires of the inputs, with swaps before them for the order in which
    threads end, are valid and have the unitary that a woven web denotes. -/
theorem exists_unitary (h : w.Woven n lines beside cells) {swaps : List Gate}
    (hswaps : ∀ g ∈ swaps, g.Valid n)
    (hfollow : follow 1 swaps = ([], (lines .front).symm * lines .back)) {gs : List Gate}
    (hgs : gs = ((cells.flatMap Cell.gates).map (Gate.relabel (lines .front).symm)).filter
      (!·.isIdle) ++ swaps) : (∀ g ∈ gs, g.Valid n) ∧ ∃ k : ℂ, k ≠ 0 ∧
        toMatrix n n w.outputs w.inputs (w.tensors 1).amplitude = k • gatesMatrix n gs := by
  have hvalid := h.valid_gates
  have hgates : (cells.flatMap Cell.gates).map (Gate.relabel (lines .front).symm) =
      ((cells.flatMap Cell.gates).map (Gate.relabel (lines .back).symm)).map
        (Gate.relabel ((lines .front).symm * lines .back)) := by
    rw [List.map_map]
    refine List.map_congr_left fun g _ => ?_
    rw [Function.comp_apply, Gate.relabel_relabel, mul_assoc,
      show lines .back * (lines .back).symm = 1 from Equiv.ext (lines .back).apply_symm_apply,
      mul_one]
  refine ⟨fun g hg => ?_, ?_⟩
  · rcases List.mem_append.1 (hgs ▸ hg) with hg | hg
    · obtain ⟨g', hg', rfl⟩ := List.mem_map.1 (List.mem_filter.1 hg).1
      exact (hvalid g' hg').1.relabel (h.threaded.keeps .front).symm
    · exact hswaps g hg
  · obtain ⟨k, hk, hmat⟩ := h.exists_toMatrix
    refine ⟨k, hk, hmat.trans ?_⟩
    rw [hgs, hgates, gatesMatrix_swaps_append (List.forall_mem_map.2 fun g hg =>
      ⟨(hvalid g hg).1.relabel (h.threaded.keeps .back).symm, (hvalid g hg).2⟩) hswaps hfollow]

end Web.Woven

namespace Diagram

variable {d : Diagram} {n : ℕ} {lines : Side → Perm ℕ} {beside : Vertex → List Vertex}
  {cells : List (ℤ × Cell)} {first last : ℤ}

/-- A circuit read back from a diagram of cells has the unitary that the diagram denotes. -/
theorem Written.toCircuit_unitary (h : d.Written n lines beside cells first last)
    (hsize : last - first < 2 ^ 53)
    (hfix : ∀ q, n ≤ q → ((lines .front).symm * lines .back : Perm ℕ) q = q) :
    ∃ c, d.toCircuit = .ok c ∧ c.qubits = n ∧ (∀ g ∈ c.gates, g.Valid n) ∧ ∃ k : ℂ, k ≠ 0 ∧
      toMatrix n n d.outputs d.inputs (d.web.tensors 1).amplitude = k • c.unitary n := by
  have hw := h.woven
  obtain ⟨_, swaps, hroute, hswaps, hfollow, -⟩ := exists_routeOutputs (d := d) hw.keepsPlaces hfix
    (h.threaded.length .back)
  obtain ⟨hvalid, hmap⟩ := hw.exists_unitary (fun g hg => (hswaps g hg).1) hfollow rfl
  rw [List.flatMap_map] at hvalid hmap
  exact ⟨_, h.toCircuit_eq hsize rfl hroute, rfl, hvalid, hmap⟩

end Diagram

end ZXRewriting
