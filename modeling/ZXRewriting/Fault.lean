/-!
# Faults and refusals

Two ways for an operation to give no result.

A *fault* is a broken promise of the caller: an edit at a spider which is not there, a
self-loop, a zero denominator, a position outside a table. Nothing is promised about the
diagram after it, so no diagram comes with it.

A *refusal* is an answer: the request was looked at and turned down for a stated reason, and
whoever asked still has the diagram as it was.

`Attempt ε α` is a computation that gives an `α`, refuses for a reason in `ε`, or meets a
fault; a computation that can only meet a fault (`Except Fault α`) is one for every `ε`.
-/

namespace ZXRewriting

/-- The name of a spider: its index in the order in which spiders were made. -/
abbrev Vertex := Nat

/-- A broken promise of the caller. -/
inductive Fault
  /-- No vertex of this name is in the graph. -/
  | vertexNotFound (v : Vertex)
  /-- An edge was to join a vertex to itself. -/
  | selfLoop (v : Vertex)
  /-- No kind is recorded for this spider. -/
  | spiderNotFound (v : Vertex)
  /-- A second edge was to reach a boundary spider. -/
  | parallelAtBoundary (s t : Vertex)
  /-- A diagram was to be made of a graph, one vertex of which has no kind. -/
  | noSpiderKind (v : Vertex)
  /-- A gate was to go on the wire of a boundary spider that has none. -/
  | disconnectedBoundary (v : Vertex)
  /-- A fraction with denominator zero. -/
  | zeroDenominator
  /-- A position outside a list or a matrix. -/
  | outOfBounds
  /-- A loop used up the rounds it was given. -/
  | outOfRounds
  deriving DecidableEq, Repr

/-- What a fault says; a position outside a table, or a loop cut short, has no text. -/
def Fault.message : Fault → Option String
  | .vertexNotFound v => some s!"Vertex not found: {v}"
  | .selfLoop v => some s!"Self-loops are not supported: {v}"
  | .spiderNotFound v => some s!"Spider not found: {v}"
  | .parallelAtBoundary s t => some s!"Parallel edges at a boundary ({s} -- {t})"
  | .noSpiderKind v => some s!"No spider type given for vertex {v}"
  | .disconnectedBoundary v => some s!"Boundary {v} is disconnected"
  | .zeroDenominator => some "denominator == 0"
  | .outOfBounds => none
  | .outOfRounds => none

/-- Why an attempt gave no result. -/
inductive Failure (ε : Type)
  /-- A promise of the caller was broken. -/
  | fault (cause : Fault)
  /-- The request was turned down. -/
  | refused (reason : ε)
  deriving DecidableEq, Repr

/-- A computation that may meet a fault or be refused. -/
abbrev Attempt (ε α : Type) := Except (Failure ε) α

instance {ε : Type} : MonadLift (Except Fault) (Except (Failure ε)) where
  monadLift x := x.mapError .fault

/-- Turns the request down for the given reason. -/
def refuse {ε α : Type} (reason : ε) : Attempt ε α :=
  .error (.refused reason)

end ZXRewriting
