import ZXRewriting.Fault

/-!
# Kinds of spiders and of edges

What a vertex of a diagram stands for, and how an edge joins two of them.
-/

namespace ZXRewriting

/-- What a spider stands for. -/
inductive SpiderKind
  /-- The end of a wire at the inputs. -/
  | input
  /-- The end of a wire at the outputs. -/
  | output
  /-- A copy in the computational basis, with a phase. -/
  | z
  /-- A copy in the Hadamard basis, with a phase. -/
  | x
  /-- A Hadamard box. -/
  | box
  deriving DecidableEq, Repr

namespace SpiderKind

/-- Whether this is the end of a wire. -/
def isBoundary : SpiderKind → Bool
  | input | output => true
  | _ => false

/-- Whether such a spider carries a phase. -/
def isPhased : SpiderKind → Bool
  | z | x => true
  | _ => false

/-- The other colour; kinds without a colour stay. -/
def opposite : SpiderKind → SpiderKind
  | z => x
  | x => z
  | kind => kind

@[simp] theorem opposite_opposite (kind : SpiderKind) : kind.opposite.opposite = kind := by
  cases kind <;> rfl

@[simp] theorem isPhased_opposite (kind : SpiderKind) :
    kind.opposite.isPhased = kind.isPhased := by
  cases kind <;> rfl

/-- The name of the kind in listings. -/
def label : SpiderKind → String
  | input => "input"
  | output => "output"
  | z => "Z"
  | x => "X"
  | box => "H"

end SpiderKind

/-- How an edge joins two spiders. -/
inductive EdgeKind
  /-- A wire. -/
  | plain
  /-- A wire through a Hadamard box. -/
  | hadamard
  deriving DecidableEq, Repr

namespace EdgeKind

instance : Inhabited EdgeKind := ⟨plain⟩

/-- The other kind. -/
def opposite : EdgeKind → EdgeKind
  | plain => hadamard
  | hadamard => plain

@[simp] theorem opposite_opposite (kind : EdgeKind) : kind.opposite.opposite = kind := by
  cases kind <;> rfl

/-- The kind of the two edges joined end to end. -/
def merge : EdgeKind → EdgeKind → EdgeKind
  | plain, second => second
  | hadamard, second => second.opposite

theorem merge_comm (first second : EdgeKind) : first.merge second = second.merge first := by
  cases first <;> cases second <;> rfl

/-- The place of the kind in sorted lists: plain edges first. -/
def rank : EdgeKind → Nat
  | plain => 0
  | hadamard => 1

end EdgeKind

end ZXRewriting
