import Mathlib.Analysis.SpecialFunctions.Pow.Real
import Mathlib.Data.Matrix.Mul
import ZXRewriting.Circuit.Basic
import ZXRewriting.Proofs.Phase.Unit
import ZXRewriting.Proofs.Semantics.Network

/-!
# The unitary of a circuit

Gates as matrices over the bits of the qubits (`Gate.matrix`), and a circuit as the product of
its gates (`Circuit.unitary`).

On functions of bits at the vertices of a diagram a gate acts at the outputs (`Gate.act`): it
takes the function that a diagram denotes to the one denoted with the gate put onto the ends of
the wires. `Gate.matrix_mul_toMatrix` says that this is the product with its matrix, up to a
scalar.
-/

namespace ZXRewriting

open Function (update update_self update_of_ne)

/-! ### Bits of qubits -/

/-- The bit of a qubit, false if there is none. -/
def getBit {n : ℕ} (x : Fin n → Bool) (q : ℕ) : Bool := if h : q < n then x ⟨q, h⟩ else false

/-- Sets the bit of a qubit. -/
def setBit {n : ℕ} (x : Fin n → Bool) (q : ℕ) (v : Bool) : Fin n → Bool :=
  fun i => if i.val = q then v else x i

section Bits

variable {n q r : ℕ} {x y z : Fin n → Bool} {v u : Bool}

theorem getBit_setBit (hq : q < n) : getBit (setBit x q v) r = if r = q then v else getBit x r := by
  by_cases hr : r < n
  · simp [getBit, setBit, hr]
  · have : r ≠ q := by omega
    simp [getBit, hr, this]

@[simp] theorem setBit_setBit : setBit (setBit x q u) q v = setBit x q v := by
  funext i
  simp only [setBit]
  split <;> rfl

@[simp] theorem setBit_getBit : setBit x q (getBit x q) = x := by
  funext i
  simp only [setBit, getBit]
  split
  · next h =>
    subst h
    simp
  · rfl

/-- Two lists of bits that agree off one qubit. -/
theorem setBit_eq_iff : setBit x q false = setBit z q false ↔ z = setBit x q (getBit z q) := by
  constructor
  · intro h
    calc z = setBit (setBit z q false) q (getBit z q) := by rw [setBit_setBit, setBit_getBit]
      _ = setBit x q (getBit z q) := by rw [← h, setBit_setBit]
  · intro h
    rw [h, setBit_setBit]

/-- A sum over all bits that agree off one qubit. -/
theorem sum_ite_setBit (hq : q < n) (f : (Fin n → Bool) → ℂ) :
    ∑ z, (if setBit x q false = setBit z q false then f z else 0) =
      f (setBit x q false) + f (setBit x q true) := by
  have hne : setBit x q false ≠ setBit x q true := fun h => by
    have := congrArg (getBit · q) h
    simp [getBit_setBit hq] at this
  rw [← Finset.sum_filter, show Finset.univ.filter (fun z => setBit x q false = setBit z q false) =
    {setBit x q false, setBit x q true} from ?_, Finset.sum_pair hne]
  ext z
  rw [Finset.mem_filter, and_iff_right (Finset.mem_univ z), setBit_eq_iff, Finset.mem_insert,
    Finset.mem_singleton]
  constructor
  · intro h
    cases hb : getBit z q <;> rw [hb] at h
    · exact .inl h
    · exact .inr h
  · rintro (rfl | rfl) <;> rw [getBit_setBit hq, if_pos rfl]

/-- A sum with the entries of the matrix of an exchange of bits. -/
theorem sum_ite_involution {P : (Fin n → Bool) → Fin n → Bool} (hP : ∀ z, P (P z) = z)
    (f : (Fin n → Bool) → ℂ) : ∑ z, (if y = P z then 1 else 0) * f z = f (P y) := by
  have hinv (z : Fin n → Bool) : y = P z ↔ z = P y :=
    ⟨fun h => by rw [h, hP], fun h => by rw [h, hP]⟩
  simp only [hinv, ite_mul, one_mul, zero_mul, Finset.sum_ite_eq', Finset.mem_univ, if_true]

end Bits

/-! ### Gates -/

namespace Gate

/-- Whether a gate has the arity of its type and names distinct qubits out of `n`. -/
structure Valid (n : ℕ) (g : Gate) : Prop where
  arity : g.qubits.length = g.kind.arity
  nodup : g.qubits.Nodup
  lt : ∀ q ∈ g.qubits, q < n

/-- The rotation of a qubit about the Z axis. -/
noncomputable def rz (n q : ℕ) (p : Phase) : Matrix (Fin n → Bool) (Fin n → Bool) ℂ :=
  Matrix.diagonal fun x => if getBit x q then p.unit else 1

/-- The Hadamard gate of a qubit. -/
noncomputable def had (n q : ℕ) : Matrix (Fin n → Bool) (Fin n → Bool) ℂ :=
  Matrix.of fun y x => if setBit y q false = setBit x q false
    then (Real.sqrt 2 : ℂ)⁻¹ * EdgeKind.hadamard.value (getBit y q) (getBit x q) else 0

/-- What a controlled NOT makes of bits. -/
def flipBits {n : ℕ} (control target : ℕ) (x : Fin n → Bool) : Fin n → Bool :=
  setBit x target (getBit x target ^^ getBit x control)

/-- What exchanging two qubits makes of bits. -/
def swapBits {n : ℕ} (q r : ℕ) (x : Fin n → Bool) : Fin n → Bool :=
  setBit (setBit x q (getBit x r)) r (getBit x q)

/-- The matrix of a gate on `n` qubits. -/
noncomputable def matrix (n : ℕ) (g : Gate) : Matrix (Fin n → Bool) (Fin n → Bool) ℂ :=
  match g.kind, g.qubits with
  | .zPhase, [q] => rz n q g.phase
  | .xPhase, [q] => had n q * rz n q g.phase * had n q
  | .hadamard, [q] => had n q
  | .cnot, [q, r] => Matrix.of fun y x => if y = flipBits q r x then 1 else 0
  | .cz, [q, r] => Matrix.diagonal fun x => EdgeKind.hadamard.value (getBit x q) (getBit x r)
  | .swap, [q, r] => Matrix.of fun y x => if y = swapBits q r x then 1 else 0
  | _, _ => 1

variable {n q r : ℕ} {g : Gate}

theorem Valid.exists_one (hg : g.Valid n) (h : g.kind.arity = 1) :
    ∃ q, g.qubits = [q] ∧ q < n := by
  obtain ⟨q, hq⟩ := List.length_eq_one_iff.1 (hg.arity.trans h)
  exact ⟨q, hq, hg.lt q (by simp [hq])⟩

theorem Valid.exists_two (hg : g.Valid n) (h : g.kind.arity = 2) :
    ∃ q r, g.qubits = [q, r] ∧ q < n ∧ r < n ∧ q ≠ r := by
  obtain ⟨q, r, hqr⟩ := List.length_eq_two.1 (hg.arity.trans h)
  have hnodup := hg.nodup
  rw [hqr] at hnodup
  exact ⟨q, r, hqr, hg.lt q (by simp [hqr]), hg.lt r (by simp [hqr]), by simpa using hnodup⟩

theorem flipBits_flipBits (hr : r < n) (hqr : q ≠ r) (z : Fin n → Bool) :
    flipBits q r (flipBits q r z) = z := by
  rw [flipBits, flipBits, setBit_setBit, getBit_setBit hr, getBit_setBit hr, if_pos rfl,
    if_neg hqr, Bool.xor_assoc, Bool.xor_self, Bool.xor_false, setBit_getBit]

theorem swapBits_swapBits (hq : q < n) (hr : r < n) (hqr : q ≠ r) (z : Fin n → Bool) :
    swapBits q r (swapBits q r z) = z := by
  have hrq : r ≠ q := Ne.symm hqr
  funext i
  simp only [swapBits, getBit_setBit hr, getBit_setBit hq, if_neg hqr, if_neg hrq, if_true]
  rw [setBit]
  split
  · next hi => simp [getBit, ← hi]
  · rw [setBit]
    split
    · next hi => simp [getBit, ← hi]
    · next h h' => simp [setBit, h, h']

/-! ### Gates are invertible -/

theorem isUnit_rz (n q : ℕ) (p : Phase) : IsUnit (rz n q p) := by
  have hinv (c : ℂ) (hc : c ≠ 0) : (Matrix.diagonal fun x : Fin n → Bool =>
      if getBit x q then c else 1) * (Matrix.diagonal fun x => if getBit x q then c⁻¹ else 1) = 1 := by
    rw [Matrix.diagonal_mul_diagonal, ← Matrix.diagonal_one]
    congr 1
    funext x
    split
    · exact mul_inv_cancel₀ hc
    · exact one_mul 1
  refine ⟨⟨_, _, hinv p.unit p.unit_ne_zero, ?_⟩, rfl⟩
  have := hinv p.unit⁻¹ (inv_ne_zero p.unit_ne_zero)
  rwa [inv_inv] at this

/-- A matrix that is its own inverse. -/
theorem isUnit_of_mul_self {M : Matrix (Fin n → Bool) (Fin n → Bool) ℂ} (h : M * M = 1) :
    IsUnit M := ⟨⟨M, M, h, h⟩, rfl⟩

theorem had_mul_had (hq : q < n) : had n q * had n q = 1 := by
  have hsqrt : (Real.sqrt 2 : ℂ)⁻¹ * (Real.sqrt 2 : ℂ)⁻¹ = 2⁻¹ := by
    rw [← mul_inv, ← Complex.ofReal_mul, Real.mul_self_sqrt (by norm_num)]
    norm_num
  ext y x
  simp only [Matrix.mul_apply, had, Matrix.of_apply, ite_mul, zero_mul]
  rw [sum_ite_setBit hq]
  simp only [getBit_setBit hq, setBit_setBit, if_true]
  by_cases hyx : setBit y q false = setBit x q false
  · have hfactor (a b c : ℂ) : a * b * (a * c) = a * a * (b * c) := by ring
    rw [if_pos hyx, if_pos hyx, hfactor, hfactor, hsqrt, Matrix.one_apply]
    have hiff : y = x ↔ getBit y q = getBit x q := by
      refine ⟨fun h => by rw [h], fun h => ?_⟩
      rw [setBit_eq_iff] at hyx
      rw [hyx, ← h, setBit_getBit]
    rw [if_congr hiff rfl rfl]
    cases getBit y q <;> cases getBit x q <;> simp [EdgeKind.value] <;> norm_num
  · rw [if_neg hyx, if_neg hyx, mul_zero, mul_zero, add_zero,
      Matrix.one_apply_ne fun h => hyx (by rw [h])]

/-- The matrix of an exchange of bits. -/
theorem isUnit_of_involution {P : (Fin n → Bool) → Fin n → Bool} (hP : ∀ z, P (P z) = z) :
    IsUnit (Matrix.of fun y x => if y = P x then (1 : ℂ) else 0) := by
  refine isUnit_of_mul_self ?_
  ext y x
  simp only [Matrix.mul_apply, Matrix.of_apply]
  rw [sum_ite_involution hP, Matrix.one_apply]
  refine if_congr ⟨fun h => ?_, fun h => by rw [h]⟩ rfl rfl
  rw [← hP y, h, hP]

theorem Valid.isUnit_matrix (hg : g.Valid n) : IsUnit (g.matrix n) := by
  have hone := hg.exists_one
  have htwo := hg.exists_two
  obtain ⟨kind, qubits, p⟩ := g
  cases kind with
  | zPhase =>
    obtain ⟨q, rfl, hq⟩ := hone rfl
    exact isUnit_rz n q p
  | xPhase =>
    obtain ⟨q, rfl, hq⟩ := hone rfl
    have hhad := isUnit_of_mul_self (had_mul_had hq)
    exact (hhad.mul (isUnit_rz n q p)).mul hhad
  | hadamard =>
    obtain ⟨q, rfl, hq⟩ := hone rfl
    exact isUnit_of_mul_self (had_mul_had hq)
  | cnot =>
    obtain ⟨q, r, rfl, hq, hr, hqr⟩ := htwo rfl
    exact isUnit_of_involution (flipBits_flipBits hr hqr)
  | cz =>
    obtain ⟨q, r, rfl, hq, hr, hqr⟩ := htwo rfl
    refine isUnit_of_mul_self ?_
    rw [Gate.matrix, Matrix.diagonal_mul_diagonal, ← Matrix.diagonal_one]
    simp only [EdgeKind.value_hadamard_mul_self]
  | swap =>
    obtain ⟨q, r, rfl, hq, hr, hqr⟩ := htwo rfl
    exact isUnit_of_involution (swapBits_swapBits hq hr hqr)

/-! ### Gates read backwards -/

/-- The matrix of an exchange of bits is symmetric. -/
theorem transpose_involution {P : (Fin n → Bool) → Fin n → Bool} (hP : ∀ z, P (P z) = z) :
    (Matrix.of fun y x => if y = P x then (1 : ℂ) else 0).transpose =
      Matrix.of fun y x => if y = P x then (1 : ℂ) else 0 := by
  ext y x
  exact if_congr ⟨fun h => by rw [h, hP], fun h => by rw [h, hP]⟩ rfl rfl

theorem transpose_rz (n q : ℕ) (p : Phase) : (rz n q p).transpose = rz n q p :=
  Matrix.diagonal_transpose _

theorem transpose_had (n q : ℕ) : (had n q).transpose = had n q := by
  ext y x
  rw [Matrix.transpose_apply, had, Matrix.of_apply, Matrix.of_apply, EdgeKind.value_comm]
  exact if_congr eq_comm rfl rfl

theorem Valid.transpose_matrix (hg : g.Valid n) : (g.matrix n).transpose = g.matrix n := by
  have hone := hg.exists_one
  have htwo := hg.exists_two
  obtain ⟨kind, qubits, p⟩ := g
  cases kind with
  | zPhase =>
    obtain ⟨q, rfl, -⟩ := hone rfl
    exact transpose_rz n q p
  | xPhase =>
    obtain ⟨q, rfl, -⟩ := hone rfl
    change (had n q * rz n q p * had n q).transpose = had n q * rz n q p * had n q
    rw [Matrix.transpose_mul, Matrix.transpose_mul, transpose_had, transpose_rz, Matrix.mul_assoc]
  | hadamard =>
    obtain ⟨q, rfl, -⟩ := hone rfl
    exact transpose_had n q
  | cnot =>
    obtain ⟨q, r, rfl, -, hr, hqr⟩ := htwo rfl
    exact transpose_involution (flipBits_flipBits hr hqr)
  | cz =>
    obtain ⟨q, r, rfl, -⟩ := htwo rfl
    exact Matrix.diagonal_transpose _
  | swap =>
    obtain ⟨q, r, rfl, hq, hr, hqr⟩ := htwo rfl
    exact transpose_involution (swapBits_swapBits hq hr hqr)

end Gate

/-- The product of gates that come one after the other. -/
noncomputable def gatesMatrix (n : ℕ) (gates : List Gate) :
    Matrix (Fin n → Bool) (Fin n → Bool) ℂ :=
  gates.foldl (fun U g => g.matrix n * U) 1

/-- The unitary of a circuit, on `n` qubits. -/
noncomputable def Circuit.unitary (n : ℕ) (c : Circuit) :
    Matrix (Fin n → Bool) (Fin n → Bool) ℂ := gatesMatrix n c.gates

theorem gatesMatrix_append (n : ℕ) (gs hs : List Gate) :
    gatesMatrix n (gs ++ hs) = gatesMatrix n hs * gatesMatrix n gs := by
  have aux (hs : List Gate) (U : Matrix (Fin n → Bool) (Fin n → Bool) ℂ) :
      hs.foldl (fun U g => g.matrix n * U) U = gatesMatrix n hs * U := by
    induction hs generalizing U with
    | nil => simp [gatesMatrix]
    | cons h hs ih =>
      have hcons : gatesMatrix n (h :: hs) = gatesMatrix n hs * h.matrix n := by
        rw [gatesMatrix, List.foldl_cons, ih, Matrix.mul_one]
      rw [List.foldl_cons, ih, hcons, Matrix.mul_assoc]
  rw [gatesMatrix, List.foldl_append, aux]
  rfl

theorem isUnit_gatesMatrix {n : ℕ} {gates : List Gate} (hg : ∀ g ∈ gates, g.Valid n) :
    IsUnit (gatesMatrix n gates) := by
  induction gates with
  | nil => exact isUnit_one
  | cons g gates ih =>
    rw [show g :: gates = [g] ++ gates from rfl, gatesMatrix_append]
    refine (ih fun g' hg' => hg g' (List.mem_cons_of_mem g hg')).mul ?_
    rw [gatesMatrix, List.foldl_cons, List.foldl_nil, Matrix.mul_one]
    exact (hg g List.mem_cons_self).isUnit_matrix

/-- Whether all gates of a circuit have the arity of their type and name distinct qubits, and the
    phases of its rotations are multiples of `1 / D`. -/
structure Circuit.Valid (D : ℕ) (c : Circuit) : Prop where
  gates : ∀ g ∈ c.gates, g.Valid c.qubits
  phases : ∀ g ∈ c.gates, g.kind.hasPhase → g.phase.OnGrid D

/-! ### Gates at the outputs of a diagram -/

/-- A sum over the bit at a vertex, with the sign of a Hadamard edge. -/
noncomputable def hadamardAt (o : Vertex) (f : Bits → ℂ) (b : Bits) : ℂ :=
  f (update b o false) + EdgeKind.hadamard.value true (b o) * f (update b o true)

/-- The action of a gate on a function of bits, qubit `q` being the bit at the vertex `o q`. -/
noncomputable def Gate.act (o : ℕ → Vertex) (g : Gate) (f : Bits → ℂ) (b : Bits) : ℂ :=
  match g.kind, g.qubits with
  | .zPhase, [q] => (if b (o q) then g.phase.unit else 1) * f b
  | .xPhase, [q] => hadamardAt (o q)
      (fun b => (if b (o q) then g.phase.unit else 1) * hadamardAt (o q) f b) b
  | .hadamard, [q] => hadamardAt (o q) f b
  | .cnot, [q, r] => f (update b (o r) (b (o r) ^^ b (o q)))
  | .cz, [q, r] => EdgeKind.hadamard.value (b (o q)) (b (o r)) * f b
  | .swap, [q, r] => f (update (update b (o q) (b (o r))) (o r) (b (o q)))
  | _, _ => f b

/-- The action of gates that come one after the other. -/
noncomputable def actAll (o : ℕ → Vertex) (gates : List Gate) (f : Bits → ℂ) : Bits → ℂ :=
  gates.foldl (fun f g => g.act o f) f

@[simp] theorem actAll_nil (o : ℕ → Vertex) (f : Bits → ℂ) : actAll o [] f = f := rfl

@[simp] theorem actAll_cons (o : ℕ → Vertex) (g : Gate) (gates : List Gate) (f : Bits → ℂ) :
    actAll o (g :: gates) f = actAll o gates (g.act o f) := rfl

theorem actAll_append (o : ℕ → Vertex) (gs hs : List Gate) (f : Bits → ℂ) :
    actAll o (gs ++ hs) f = actAll o hs (actAll o gs f) := by
  rw [actAll, List.foldl_append]
  rfl

theorem hadamardAt_mul_left (o : Vertex) (c : ℂ) (f : Bits → ℂ) (b : Bits) :
    hadamardAt o (fun b => c * f b) b = c * hadamardAt o f b := by
  rw [hadamardAt, hadamardAt]
  ring

theorem Gate.act_mul_left (o : ℕ → Vertex) (g : Gate) (c : ℂ) (f : Bits → ℂ) (b : Bits) :
    g.act o (fun b => c * f b) b = c * g.act o f b := by
  unfold Gate.act
  split
  · ring
  · simp only [hadamardAt_mul_left, mul_left_comm _ c]
  · rw [hadamardAt_mul_left]
  · rfl
  · ring
  · rfl
  · rfl

theorem Proportional.act {f f' : Bits → ℂ} (h : Proportional f f') (o : ℕ → Vertex) (g : Gate) :
    Proportional (g.act o f) (g.act o f') := by
  obtain ⟨c, hc, hf⟩ := h
  obtain rfl : f = fun b => c * f' b := funext hf
  exact ⟨c, hc, fun b => Gate.act_mul_left o g c f' b⟩

theorem actAll_mul_left (o : ℕ → Vertex) (gates : List Gate) (c : ℂ) (f : Bits → ℂ) :
    actAll o gates (fun b => c * f b) = fun b => c * actAll o gates f b := by
  induction gates generalizing f with
  | nil => rfl
  | cons g gates ih =>
    rw [actAll_cons, actAll_cons, ← ih]
    exact congrArg (actAll o gates) (funext (Gate.act_mul_left o g c f))

theorem Proportional.actAll {f f' : Bits → ℂ} (h : Proportional f f') (o : ℕ → Vertex)
    (gates : List Gate) : Proportional (actAll o gates f) (actAll o gates f') := by
  obtain ⟨c, hc, hf⟩ := h
  obtain rfl : f = fun b => c * f' b := funext hf
  exact ⟨c, hc, fun b => by rw [actAll_mul_left]⟩

/-- The bits of a diagram with the given bits at its outputs and inputs. -/
def endBits {n m : ℕ} (outputs inputs : List Vertex) (y : Fin n → Bool) (x : Fin m → Bool) : Bits :=
  fun v => if v ∈ outputs then getBit y (outputs.idxOf v) else getBit x (inputs.idxOf v)

/-- A function of bits as a matrix, from the inputs to the outputs. -/
def toMatrix (n m : ℕ) (outputs inputs : List Vertex) (f : Bits → ℂ) :
    Matrix (Fin n → Bool) (Fin m → Bool) ℂ :=
  Matrix.of fun y x => f (endBits outputs inputs y x)

section Act

variable {n m q r : ℕ} {outputs inputs : List Vertex} {o : ℕ → Vertex} {y : Fin n → Bool}
  {x : Fin m → Bool}

theorem endBits_apply (hnd : outputs.Nodup) (ho : ∀ q < outputs.length, outputs[q]? = some (o q))
    (hq : q < outputs.length) : endBits outputs inputs y x (o q) = getBit y q := by
  obtain ⟨hlt, hget⟩ := List.getElem?_eq_some_iff.1 (ho q hq)
  rw [endBits, ← hget, if_pos (List.getElem_mem hlt), hnd.idxOf_getElem]

theorem endBits_setBit (hnd : outputs.Nodup) (hlen : outputs.length = n)
    (ho : ∀ q < outputs.length, outputs[q]? = some (o q)) (hq : q < n) (v : Bool) :
    endBits outputs inputs (setBit y q v) x = update (endBits outputs inputs y x) (o q) v := by
  obtain ⟨hlt, hget⟩ := List.getElem?_eq_some_iff.1 (ho q (hlen ▸ hq))
  funext u
  rw [Function.update_apply]
  by_cases hu : u ∈ outputs
  · rw [endBits, if_pos hu, getBit_setBit hq, endBits, if_pos hu]
    refine if_congr ⟨fun h => ?_, fun h => ?_⟩ rfl rfl
    · rw [← hget, ← List.getElem_idxOf (List.idxOf_lt_length_of_mem hu)]
      simp only [h]
    · rw [h, ← hget, hnd.idxOf_getElem]
  · have : u ≠ o q := fun h => hu (h ▸ hget ▸ List.getElem_mem hlt)
    rw [endBits, if_neg hu, if_neg this, endBits, if_neg hu]

/-- The square root of two. -/
noncomputable def rootTwo : ℂ := Real.sqrt 2

theorem sqrt_two_ne_zero : (Real.sqrt 2 : ℂ) ≠ 0 := by
  have : Real.sqrt 2 ≠ 0 := by positivity
  exact_mod_cast this

/-- Multiplying by the matrix of a gate is acting at the outputs, up to a scalar. -/
theorem Gate.matrix_mul_toMatrix (m : ℕ) (inputs : List Vertex) (hnd : outputs.Nodup)
    (hlen : outputs.length = n) (ho : ∀ q < outputs.length, outputs[q]? = some (o q)) {g : Gate}
    (hg : g.Valid n) (f : Bits → ℂ) : ∃ c : ℂ, c ≠ 0 ∧
      toMatrix n m outputs inputs (g.act o f) = c • (g.matrix n * toMatrix n m outputs inputs f) := by
  have hget {q : ℕ} (hq : q < n) (y : Fin n → Bool) (x : Fin m → Bool) :
      endBits outputs inputs y x (o q) = getBit y q := endBits_apply hnd ho (hlen ▸ hq)
  have hset {q : ℕ} (hq : q < n) (y : Fin n → Bool) (x : Fin m → Bool) (v : Bool) :
      endBits outputs inputs (setBit y q v) x = update (endBits outputs inputs y x) (o q) v :=
    endBits_setBit hnd hlen ho hq v
  have hz {q : ℕ} (hq : q < n) (p : Phase) (f : Bits → ℂ) :
      toMatrix n m outputs inputs (fun b => (if b (o q) then p.unit else 1) * f b) =
        rz n q p * toMatrix n m outputs inputs f := by
    ext y x
    rw [rz, Matrix.diagonal_mul, toMatrix, toMatrix, Matrix.of_apply, Matrix.of_apply, hget hq]
  have hh {q : ℕ} (hq : q < n) (f : Bits → ℂ) : toMatrix n m outputs inputs (hadamardAt (o q) f) =
      (Real.sqrt 2 : ℂ) • (had n q * toMatrix n m outputs inputs f) := by
    ext y x
    rw [Matrix.smul_apply, Matrix.mul_apply, had]
    simp only [Matrix.of_apply, ite_mul, zero_mul]
    rw [sum_ite_setBit hq, toMatrix, Matrix.of_apply, hadamardAt, toMatrix, Matrix.of_apply,
      Matrix.of_apply, hset hq, hset hq, hget hq, getBit_setBit hq, getBit_setBit hq, if_pos rfl,
      if_pos rfl, EdgeKind.value_comm _ true, EdgeKind.value_hadamard_false_right, smul_eq_mul]
    have := sqrt_two_ne_zero
    field_simp
  have one := hg.exists_one
  have two := hg.exists_two
  obtain ⟨kind, qubits, p⟩ := g
  -- the gates on one qubit, then those on two
  cases kind with
  | zPhase =>
    obtain ⟨q, rfl, hq⟩ := one rfl
    exact ⟨1, one_ne_zero, by rw [one_smul]; exact hz hq p f⟩
  | xPhase =>
    obtain ⟨q, rfl, hq⟩ := one rfl
    refine ⟨(Real.sqrt 2 : ℂ) * Real.sqrt 2, mul_ne_zero sqrt_two_ne_zero sqrt_two_ne_zero, ?_⟩
    have := hh hq fun b => (if b (o q) then p.unit else 1) * hadamardAt (o q) f b
    refine this.trans ?_
    rw [hz hq, hh hq, Matrix.mul_smul, Matrix.mul_smul, smul_smul]
    simp only [Gate.matrix, Matrix.mul_assoc]
  | hadamard =>
    obtain ⟨q, rfl, hq⟩ := one rfl
    exact ⟨Real.sqrt 2, sqrt_two_ne_zero, hh hq f⟩
  | cnot =>
    obtain ⟨q, r, rfl, hq, hr, hqr⟩ := two rfl
    refine ⟨1, one_ne_zero, ?_⟩
    ext y x
    rw [one_smul, Matrix.mul_apply]
    refine Eq.trans ?_ (sum_ite_involution (flipBits_flipBits hr hqr) _).symm
    simp only [toMatrix, Matrix.of_apply, Gate.act, flipBits, hset hr, hget hq, hget hr]
  | cz =>
    obtain ⟨q, r, rfl, hq, hr, hqr⟩ := two rfl
    refine ⟨1, one_ne_zero, ?_⟩
    ext y x
    rw [one_smul, Gate.matrix, Matrix.diagonal_mul]
    simp only [toMatrix, Matrix.of_apply, Gate.act, hget hq, hget hr]
  | swap =>
    obtain ⟨q, r, rfl, hq, hr, hqr⟩ := two rfl
    refine ⟨1, one_ne_zero, ?_⟩
    ext y x
    rw [one_smul, Matrix.mul_apply]
    refine Eq.trans ?_ (sum_ite_involution (swapBits_swapBits hq hr hqr) _).symm
    simp only [toMatrix, Matrix.of_apply, Gate.act, swapBits, hset hr, hset hq, hget hq, hget hr]

/-- Multiplying by the unitary of a circuit is acting at the outputs, up to a scalar. -/
theorem gatesMatrix_mul_toMatrix (m : ℕ) (inputs : List Vertex) (hnd : outputs.Nodup)
    (hlen : outputs.length = n) (ho : ∀ q < outputs.length, outputs[q]? = some (o q))
    {gates : List Gate} (hg : ∀ g ∈ gates, g.Valid n) (f : Bits → ℂ) : ∃ c : ℂ, c ≠ 0 ∧
      toMatrix n m outputs inputs (actAll o gates f) =
        c • (gatesMatrix n gates * toMatrix n m outputs inputs f) := by
  induction gates generalizing f with
  | nil => exact ⟨1, one_ne_zero, by rw [one_smul, gatesMatrix, List.foldl_nil, Matrix.one_mul]; rfl⟩
  | cons g gates ih =>
    obtain ⟨c, hc, h⟩ := ih (fun g' hg' => hg g' (List.mem_cons_of_mem g hg')) (g.act o f)
    obtain ⟨d, hd, h'⟩ := Gate.matrix_mul_toMatrix m inputs hnd hlen ho
      (hg g List.mem_cons_self) f
    refine ⟨c * d, mul_ne_zero hc hd, ?_⟩
    rw [show g :: gates = [g] ++ gates from rfl, gatesMatrix_append]
    refine h.trans ?_
    rw [h', Matrix.mul_smul, smul_smul, Matrix.mul_assoc]
    simp only [gatesMatrix, List.foldl_cons, List.foldl_nil, Matrix.mul_one]

open Classical in
/-- The function of bits of wires: the output `q` has the bit of the input that `lines` has at `q`. -/
noncomputable def wiring (o i : ℕ → Vertex) (lines : List ℕ) (b : Bits) : ℂ :=
  if ∀ q r, lines[q]? = some r → b (o q) = b (i r) then 1 else 0

/-- Wires that lead straight on denote the identity. -/
theorem toMatrix_wiring {i : ℕ → Vertex} (hnd : outputs.Nodup) (hnd' : inputs.Nodup)
    (hdisj : ∀ v ∈ inputs, v ∉ outputs) (hlen : outputs.length = n) (hlen' : inputs.length = n)
    (ho : ∀ q < outputs.length, outputs[q]? = some (o q))
    (hi : ∀ r < inputs.length, inputs[r]? = some (i r)) :
    toMatrix n n outputs inputs (wiring o i (List.range n)) = 1 := by
  have hout {y x : Fin n → Bool} {q : ℕ} (hq : q < n) :
      endBits outputs inputs y x (o q) = getBit y q := endBits_apply hnd ho (hlen.symm ▸ hq)
  have hin {y x : Fin n → Bool} {r : ℕ} (hr : r < n) :
      endBits outputs inputs y x (i r) = getBit x r := by
    obtain ⟨hlt, heq⟩ := List.getElem?_eq_some_iff.1 (hi r (hlen'.symm ▸ hr))
    rw [endBits, ← heq, if_neg (hdisj _ (List.getElem_mem hlt)), hnd'.idxOf_getElem]
  have hget (z : Fin n → Bool) (j : Fin n) : getBit z j = z j := by simp [getBit]
  ext y x
  rw [toMatrix, Matrix.of_apply, wiring, Matrix.one_apply]
  classical
  refine if_congr ⟨fun h => funext fun j => ?_, fun h q r hqr => ?_⟩ rfl rfl
  · have := h j j (List.getElem?_range j.2)
    rwa [hout j.2, hin j.2, hget, hget] at this
  · obtain ⟨hq, hr⟩ := List.getElem?_eq_some_iff.1 hqr
    rw [List.length_range] at hq
    rw [List.getElem_range] at hr
    subst hr
    rw [hout hq, hin hq, h]

end Act

end ZXRewriting
