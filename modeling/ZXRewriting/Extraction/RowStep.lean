import ZXRewriting.BitMatrix.Elimination
import ZXRewriting.Extraction.Frontier

/-!
# Freeing a frontier spider by CNOT gates

The edges between the frontier and its neighbours are a matrix over the field of two elements,
one row for each frontier spider, and a CNOT gate at the outputs adds one row to another. A
frontier spider with a single neighbour can be extracted, so a sum of rows with a single one is
looked for: elimination finds such sums, and of these the one of the fewest rows is made, in the
first of its rows.
-/

namespace ZXRewriting.Extraction.State

/-- The Z spiders next to the frontier in ascending order. -/
def frontierNeighbors (s : State) : Except Fault (List Vertex) := do
  let near ← s.frontier.mapM fun (_, v) => s.graph.neighborSet v
  Multigraph.ascending <$> near.flatten.filterM s.graph.isZ

/-- The matrix of the edges between the frontier and the given spiders. -/
def frontierMatrix (s : State) (neighbors : List Vertex) : Except Fault BitMatrix := do
  let rows ← s.frontier.mapM fun (_, v) =>
    neighbors.mapM fun n => return (← s.graph.connected v n).toNat
  return ⟨rows⟩

/-- Gives an edge between two spiders, or none, as an entry of the matrix says. -/
def setEntry (v : Vertex) (g : GraphLike) (cell : Vertex × Nat) : Except Fault GraphLike := do
  let (n, x) := cell
  let joined ← g.connected v n
  if x = 1 then
    if joined then return g else g.addEdge v n .hadamard
  else
    if joined then g.removeEdge v n else return g

/-- Gives the frontier the edges of a matrix. -/
def setMatrix (s : State) (neighbors : List Vertex) (m : BitMatrix) : Except Fault State := do
  let graph ← (s.frontier.zip m.rows).foldlM
    (fun g ((_, v), row) => (neighbors.zip row).foldlM (setEntry v) g) s.graph
  return { s with graph }

/-- A sum of rows with a single one: the row that elimination leaves it in, the rows that are
    added up, and the frontier spider of the row. -/
structure UnitSum where
  rows : List Nat
  spider : Vertex

/-- Whether a sum is of fewer rows than another, or of as many with an older spider. -/
def UnitSum.better (a b : UnitSum) : Bool :=
  a.rows.length < b.rows.length ||
    (a.rows.length == b.rows.length && a.spider < b.spider)

/-- The first of the best sums of a list. -/
def bestSum? : List UnitSum → Option UnitSum
  | [] => none
  | a :: rest => some (rest.foldl (fun best b => if b.better best then b else best) a)

/-- The sums of rows with a single one that a full elimination finds. -/
def unitSums (s : State) (m : BitMatrix) : Except Halted (List UnitSum) := do
  let e ← Elimination.run true m
  let made ← RowAddition.applyAll e.additions (.identity m.height)
  let found := (s.frontier.zip (e.matrix.rows.zip made.rows)).filter fun (_, reduced, _) =>
    reduced.countP (· != 0) == 1
  return found.map fun ((_, v), _, sum) =>
    ⟨(sum.zipIdx.filter fun (x, _) => x == 1).map (·.2), v⟩

/-- Takes off the CNOT gates that make a sum of rows in the first one, `target`. -/
def addFrontierRows (s : State) (neighbors : List Vertex) (m : BitMatrix) (target : Nat)
    (sources : List Nat) : Except Fault State := do
  let additions := sources.map fun source => (⟨source, target⟩ : RowAddition)
  let sum ← (RowAddition.applyAll additions m).mapError Halted.cause
  let gates ← additions.mapM fun a => do
    match s.frontier[a.target]?, s.frontier[a.source]? with
    | some (control, _), some (target, _) => return Gate.plain .cnot [control, target]
    | _, _ => throw .outOfBounds
  let s := gates.foldl emit s
  s.setMatrix neighbors sum

/-- Frees a frontier spider if a sum of rows has a single one, and changes nothing otherwise. -/
def rowStep (s : State) : Except Fault State := do
  let neighbors ← s.frontierNeighbors
  let m ← s.frontierMatrix neighbors
  let sums ← (s.unitSums m).mapError Halted.cause
  match (bestSum? sums).map (·.rows) with
  | some (target :: source :: sources) =>
    s.addFrontierRows neighbors m target (source :: sources)
  | _ => return s

end ZXRewriting.Extraction.State
