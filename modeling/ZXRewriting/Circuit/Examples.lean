import ZXRewriting.Circuit.Basic

/-!
# Example circuits

Two fixed circuits: one of Clifford gates with two T gates on four qubits, and a reversible
arithmetic one with 28 T gates on five, made of Hadamard gates, CNOT gates and rotations by
multiples of an eighth of a turn.
-/

namespace ZXRewriting.Circuit

/-- A rotation about the Z axis by `k` eighths of a turn. -/
private def rz (k q : Nat) : Gate := ⟨.zPhase, [q], .reduce k 4⟩

/-- A rotation about the X axis by `k` eighths of a turn. -/
private def rx (k q : Nat) : Gate := ⟨.xPhase, [q], .reduce k 4⟩

private def h (q : Nat) : Gate := .plain .hadamard [q]

private def cx (control target : Nat) : Gate := .plain .cnot [control, target]

private def cz (a b : Nat) : Gate := .plain .cz [a, b]

/-- A circuit on four qubits with two T gates. -/
def cliffordExample : Circuit where
  qubits := 4
  gates := [
    rz 6 0, h 0, rz 2 0, h 3, cz 3 0, cx 3 0, h 0, h 3, rz 1 0, rz 6 3, rx 4 3, h 0, rz 2 3,
    rx 4 3, rz 2 1, cx 1 2, h 1, cx 1 2, rz 1 1, rz 2 2, h 1, h 2, rz 2 2, cx 1 2]

/-- A reversible arithmetic circuit on five qubits with 28 T gates. -/
def arithmeticExample : Circuit where
  qubits := 5
  gates := [
    rx 4 4, h 4, rz 0 4, cx 3 4, rz 7 4, cx 0 4, rz 1 4, cx 3 4, rz 1 3, rz 7 4, cx 0 4, cx 0 3,
    rz 1 4, rz 1 0, rz 7 3, cx 0 3, cx 3 4, rz 7 4, cx 2 4, rz 1 4, cx 3 4, rz 1 3, rz 7 4,
    cx 2 4, cx 2 3, rz 1 4, rz 1 2, rz 7 3, h 4, rz 0 4, cx 2 3, cx 3 4, h 4, rz 0 4, cx 2 4,
    rz 7 4, cx 1 4, rz 1 4, cx 2 4, rz 1 2, rz 7 4, cx 1 4, cx 1 2, rz 1 4, h 4, rz 1 1, rz 7 2,
    rz 0 4, cx 1 2, cx 2 4, h 4, rz 0 4, cx 1 4, rz 7 4, cx 0 4, rz 1 4, cx 1 4, rz 1 1, rz 7 4,
    cx 0 4, cx 0 1, rz 1 4, rz 1 0, rz 7 1, h 4, rz 0 4, cx 0 1, cx 1 4, cx 0 4]

end ZXRewriting.Circuit
