import ZXRewriting.Spider

/-!
# Undirected multigraphs

The wiring of a diagram. Every vertex has a list of *links*: a neighbour, a kind of edge, and
how many edges of that kind lead there. An edge is stored at both of its ends.

Vertices are numbered in the order they are made, and the slot of a removed vertex stays empty,
so a number never comes back. Links are in the order in which they came up, but for this: a
link that runs out is replaced by the last one of its list.

`Multigraph.count` is the abstract view, a number of edges for each pair of vertices and kind of
edge; each operation changes exactly the counts it names.
-/

namespace ZXRewriting

/-- The edges of one kind from a vertex to one neighbour. -/
structure Link where
  node : Vertex
  kind : EdgeKind
  count : Nat
  deriving DecidableEq, Repr

/-- Whether this link leads to `v` by edges of the given kind. -/
def Link.leadsTo (v : Vertex) (kind : EdgeKind) (l : Link) : Bool :=
  l.node == v && l.kind == kind

/-! ### Lists of links -/

namespace Links

/-- The number of edges of a kind to `v`. -/
def count (links : List Link) (v : Vertex) (kind : EdgeKind) : Nat :=
  match links.find? (Link.leadsTo v kind) with
  | some l => l.count
  | none => 0

/-- The number of edges that the links stand for. -/
def total : List Link → Nat
  | [] => 0
  | l :: rest => l.count + total rest

/-- The links with `m` more edges of a kind to `v`. -/
def add (links : List Link) (v : Vertex) (kind : EdgeKind) (m : Nat) : List Link :=
  match links with
  | [] => [⟨v, kind, m⟩]
  | l :: rest =>
    if l.leadsTo v kind then { l with count := l.count + m } :: rest
    else l :: add rest v kind m

/-- Adding edges changes the count it names and no other. -/
theorem count_add (links : List Link) (v w : Vertex) (kind other : EdgeKind) (m : Nat) :
    count (add links v kind m) w other =
      count links w other + if v = w ∧ kind = other then m else 0 := by
  induction links with
  | nil => by_cases h : v = w ∧ kind = other <;> simp_all [add, count, Link.leadsTo]
  | cons l rest ih =>
    by_cases hl : l.leadsTo v kind
    · by_cases h : v = w ∧ kind = other <;> simp_all [add, count, Link.leadsTo]
    · by_cases h : l.leadsTo w other <;> simp_all [add, count]
      simp_all [Link.leadsTo]
      grind

/-- A list without its element at `i`, which the last one takes the place of. -/
def fillIn {α : Type} (l : List α) (i : Nat) : List α :=
  match l.getLast? with
  | some last => (l.set i last).dropLast
  | none => []

/-- The links with `m` edges less of a kind to `v`. -/
def remove (links : List Link) (v : Vertex) (kind : EdgeKind) (m : Nat) : List Link :=
  match links.findIdx? (Link.leadsTo v kind) with
  | none => links
  | some i =>
    let left := count links v kind - m
    if left = 0 then fillIn links i else links.modify i ({ · with count := left })

end Links

/-- An undirected multigraph with two kinds of edges. -/
structure Multigraph where
  /-- The links of every vertex ever made, none for a removed one. -/
  slots : Array (Option (List Link))
  /-- The number of vertices. -/
  vertexCount : Nat
  /-- The number of edges, parallel ones counted separately. -/
  edgeCount : Nat
  deriving DecidableEq, Repr

namespace Multigraph

/-- The graph without vertices. -/
def empty : Multigraph := ⟨#[], 0, 0⟩

/-! ### Reading -/

/-- The number the next vertex will get. -/
def nextVertex (g : Multigraph) : Vertex := g.slots.size

/-- The links of a vertex, if it is there. -/
def links? (g : Multigraph) (v : Vertex) : Option (List Link) := g.slots[v]?.join

/-- The links of a vertex. -/
def links (g : Multigraph) (v : Vertex) : Except Fault (List Link) :=
  match g.links? v with
  | some links => .ok links
  | none => .error (.vertexNotFound v)

/-- Whether a vertex is there. -/
def contains (g : Multigraph) (v : Vertex) : Bool := (g.links? v).isSome

/-- The vertices in ascending order. -/
def vertices (g : Multigraph) : List Vertex := (List.range g.slots.size).filter g.contains

/-- The edges in ascending order of their lower end, each with its kind and multiplicity. -/
def edges (g : Multigraph) : List (Vertex × Link) :=
  g.vertices.flatMap fun s =>
    (((g.links? s).getD []).filter (s < ·.node)).map fun l => (s, l)

/-- The number of edges of a kind between two vertices, zero if one is missing. -/
def count (g : Multigraph) (s t : Vertex) (kind : EdgeKind) : Nat :=
  Links.count ((g.links? s).getD []) t kind

/-- The number of edges of a kind from a vertex that has to be there. -/
def multiplicity (g : Multigraph) (s t : Vertex) (kind : EdgeKind) : Except Fault Nat :=
  return Links.count (← g.links s) t kind

/-- The number of edges of either kind from a vertex to another. -/
def totalMultiplicity (g : Multigraph) (s t : Vertex) : Except Fault Nat :=
  return Links.total ((← g.links s).filter (·.node == t))

/-- Whether an edge joins two vertices. -/
def connected (g : Multigraph) (s t : Vertex) : Except Fault Bool :=
  return (← g.links s).any (·.node == t)

/-- The kind of the edges between two vertices, plain if there are both. -/
def edgeKind? (g : Multigraph) (s t : Vertex) : Except Fault (Option EdgeKind) := do
  let there := (← g.links s).filter (·.node == t)
  return if there.any (·.kind == .plain) then some .plain else there.head?.map (·.kind)

/-- The neighbours of a vertex, once for every edge. -/
def neighbors (g : Multigraph) (v : Vertex) : Except Fault (List Vertex) :=
  return (← g.links v).flatMap fun l => List.replicate l.count l.node

/-- Puts a vertex into an ascending list, unless it is there. -/
def insertAscending (v : Vertex) : List Vertex → List Vertex
  | [] => [v]
  | w :: rest =>
    if v < w then v :: w :: rest
    else if v = w then w :: rest
    else w :: insertAscending v rest

/-- The vertices of a list in ascending order, each once. -/
def ascending (vs : List Vertex) : List Vertex := vs.foldr insertAscending []

theorem mem_insertAscending (v w : Vertex) (vs : List Vertex) :
    w ∈ insertAscending v vs ↔ w = v ∨ w ∈ vs := by
  induction vs with
  | nil => simp [insertAscending]
  | cons u rest ih => rw [insertAscending]; grind

@[simp] theorem mem_ascending (w : Vertex) (vs : List Vertex) : w ∈ ascending vs ↔ w ∈ vs := by
  induction vs with
  | nil => rfl
  | cons v rest ih =>
    rw [ascending, List.foldr_cons, mem_insertAscending, ← ascending, ih, List.mem_cons]

theorem pairwise_insertAscending (v : Vertex) {vs : List Vertex} (h : vs.Pairwise (· < ·)) :
    (insertAscending v vs).Pairwise (· < ·) := by
  induction vs with
  | nil => simp [insertAscending]
  | cons u rest ih =>
    rw [insertAscending]
    split
    next hv =>
      refine .cons (fun w hw => ?_) h
      rcases List.mem_cons.1 hw with rfl | hw
      · exact hv
      · exact Nat.lt_trans hv (List.rel_of_pairwise_cons h hw)
    next hv =>
      split
      next => exact h
      next hne =>
        refine .cons (fun w hw => ?_) (ih (List.Pairwise.of_cons h))
        rcases (mem_insertAscending v w rest).1 hw with rfl | hw
        · exact Nat.lt_of_le_of_ne (Nat.le_of_not_lt hv) (Ne.symm hne)
        · exact List.rel_of_pairwise_cons h hw

/-- The vertices of `ascending vs` come in strictly ascending order. -/
theorem pairwise_ascending (vs : List Vertex) : (ascending vs).Pairwise (· < ·) := by
  induction vs with
  | nil => exact .nil
  | cons v rest ih => exact pairwise_insertAscending v ih

/-- The distinct neighbours of a vertex in ascending order. -/
def neighborSet (g : Multigraph) (v : Vertex) : Except Fault (List Vertex) :=
  return ascending ((← g.links v).map (·.node))

/-- The number of edges at a vertex. -/
def degree (g : Multigraph) (v : Vertex) : Except Fault Nat :=
  return Links.total (← g.links v)

/-! ### Editing -/

/-- The graph with one more vertex, and that vertex. -/
def addVertex (g : Multigraph) : Vertex × Multigraph :=
  (g.nextVertex, { g with slots := g.slots.push (some []), vertexCount := g.vertexCount + 1 })

@[simp] theorem links?_addVertex (g : Multigraph) (v : Vertex) :
    g.addVertex.2.links? v = if v = g.nextVertex then some [] else g.links? v := by
  simp only [links?, addVertex, nextVertex, Array.getElem?_push]
  split <;> simp_all

@[simp] theorem count_addVertex (g : Multigraph) (s t : Vertex) (kind : EdgeKind) :
    g.addVertex.2.count s t kind = g.count s t kind := by
  simp only [count, links?_addVertex]
  split
  · simp_all [links?, nextVertex, Links.count]
  · rfl

/-- The graph of the vertices below `n`, without edges. -/
def ofVertices (n : Nat) : Multigraph :=
  ⟨Array.replicate n (some []), n, 0⟩

/-- Changes the links of a vertex. -/
def modifyLinks (g : Multigraph) (v : Vertex) (f : List Link → List Link) :
    Except Fault Multigraph := do
  let links ← g.links v
  return { g with slots := g.slots.setIfInBounds v (some (f links)) }

/-- Removes a vertex with all of its edges. -/
def removeVertex (g : Multigraph) (v : Vertex) : Except Fault Multigraph := do
  let links ← g.links v
  let emptied : Multigraph :=
    { g with slots := g.slots.setIfInBounds v none, vertexCount := g.vertexCount - 1 }
  links.foldlM (fun g l => do
    let g ← g.modifyLinks l.node (·.filter fun back => !back.leadsTo v l.kind)
    return { g with edgeCount := g.edgeCount - l.count }) emptied

/-- Adds `m` parallel edges. No edge may join a vertex to itself. -/
def addEdges (g : Multigraph) (s t : Vertex) (kind : EdgeKind) (m : Nat) :
    Except Fault Multigraph := do
  if s = t then
    throw (.selfLoop s)
  else if m = 0 then
    return g
  else
    let g ← g.modifyLinks s (Links.add · t kind m)
    let g ← g.modifyLinks t (Links.add · s kind m)
    return { g with edgeCount := g.edgeCount + m }

/-- Adds one edge. -/
def addEdge (g : Multigraph) (s t : Vertex) (kind : EdgeKind) : Except Fault Multigraph :=
  g.addEdges s t kind 1

/-- Removes up to `m` edges of a kind, and says how many. -/
def removeEdges (g : Multigraph) (s t : Vertex) (kind : EdgeKind) (m : Nat) :
    Except Fault (Nat × Multigraph) := do
  let removed := min (← g.multiplicity s t kind) m
  if removed = 0 then
    return (0, g)
  else
    let g ← g.modifyLinks s (Links.remove · t kind removed)
    let g ← g.modifyLinks t (Links.remove · s kind removed)
    return (removed, { g with edgeCount := g.edgeCount - removed })

/-- Removes every edge of a kind between two vertices, and says how many. -/
def removeKind (g : Multigraph) (s t : Vertex) (kind : EdgeKind) :
    Except Fault (Nat × Multigraph) := do
  g.removeEdges s t kind (← g.multiplicity s t kind)

/-- Removes every edge between two vertices, and says how many. -/
def disconnect (g : Multigraph) (s t : Vertex) : Except Fault (Nat × Multigraph) := do
  let (plain, g) ← g.removeKind s t .plain
  let (hadamard, g) ← g.removeKind s t .hadamard
  return (plain + hadamard, g)

/-- Gives every edge between two vertices the same kind. -/
def setEdgeKind (g : Multigraph) (s t : Vertex) (kind : EdgeKind) :
    Except Fault Multigraph := do
  let (m, g) ← g.disconnect s t
  g.addEdges s t kind m

end Multigraph

end ZXRewriting
