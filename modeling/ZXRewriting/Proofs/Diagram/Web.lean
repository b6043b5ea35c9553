import ZXRewriting.GraphLike.Basic
import ZXRewriting.Proofs.Multigraph.WellFormed

/-!
# Diagrams as functions

The abstract view of a diagram: which vertices are spiders of which kind, their phases, the
number of edges between any two of them, and who carries whose phase (`Diagram.web`). Where
spiders lie, and the order in which their links are stored, do not show.

A diagram is *coherent* when its graph is well-formed and has exactly the vertices that a kind is
recorded for. On a coherent diagram reading comes down to its web, without faults, and each way of
editing it to an edit of the web. `Gives` says that a program ends with a coherent diagram whose
web is the given one, so that a rewrite of many steps is described by one function on webs.
-/

namespace ZXRewriting

open Function (update)
open Multigraph (SamePair)

/-- A map with one more datum, as a function. -/
theorem VertexMap.insert_eq {α : Type} (m : VertexMap α) (v : Vertex) (x : α) :
    (fun u => (m.insert v x)[u]?) = update (fun u => m[u]?) v (some x) := by
  funext u
  simp only [Std.ExtTreeMap.getElem?_insert, Nat.compare_eq_eq, Function.update_apply,
    eq_comm (a := v)]

/-- A map with one datum less, as a function. -/
theorem VertexMap.erase_eq {α : Type} (m : VertexMap α) (v : Vertex) :
    (fun u => (m.erase v)[u]?) = update (fun u => m[u]?) v none := by
  funext u
  simp only [Std.ExtTreeMap.getElem?_erase, Nat.compare_eq_eq, Function.update_apply,
    eq_comm (a := v)]

/-- A diagram as functions of its vertices. -/
@[ext] structure Web where
  /-- The number the next vertex will get. -/
  next : ℕ
  kind : Vertex → Option SpiderKind
  phase : Vertex → Phase
  count : Vertex → Vertex → EdgeKind → ℕ
  inputs : List Vertex
  outputs : List Vertex
  carrier : Vertex → Option Carrier

namespace Web

variable {w : Web} {s t u v : Vertex} {k : EdgeKind}

/-! ### Reading -/

/-- Whether a spider is there. -/
def Has (w : Web) (v : Vertex) : Prop := (w.kind v).isSome

/-- Whether a vertex is a Z spider. -/
def IsZ (w : Web) (v : Vertex) : Prop := w.kind v = some .z

/-- Whether a vertex is the end of a wire. -/
def IsEnd (w : Web) (v : Vertex) : Prop := (w.kind v).any (·.isBoundary) = true

/-- Whether a vertex is a coloured spider. -/
def IsColoured (w : Web) (v : Vertex) : Prop := (w.kind v).any (·.isPhased) = true

instance : DecidablePred w.Has := fun _ => inferInstanceAs (Decidable (_ = _))

instance : DecidablePred w.IsZ := fun _ => inferInstanceAs (Decidable (_ = _))

instance : DecidablePred w.IsEnd := fun _ => inferInstanceAs (Decidable (_ = _))

instance : DecidablePred w.IsColoured := fun _ => inferInstanceAs (Decidable (_ = _))

theorem IsZ.has (h : w.IsZ v) : w.Has v := by rw [Has, h]; rfl

theorem IsEnd.has (h : w.IsEnd v) : w.Has v := by
  rw [IsEnd] at h
  rw [Has]
  cases hk : w.kind v with
  | none => simp [hk] at h
  | some k => rfl

theorem IsColoured.has (h : w.IsColoured v) : w.Has v := by
  rw [IsColoured] at h
  rw [Has]
  cases hk : w.kind v with
  | none => simp [hk] at h
  | some κ => rfl

theorem IsZ.isColoured (h : w.IsZ v) : w.IsColoured v := by
  rw [IsColoured, h]
  rfl

theorem IsZ.not_isEnd (h : w.IsZ v) : ¬w.IsEnd v := by rw [IsEnd, h]; simp [SpiderKind.isBoundary]

/-- The number of edges between two vertices. -/
def joins (w : Web) (s t : Vertex) : ℕ := w.count s t .plain + w.count s t .hadamard

/-- The vertices with an edge to `v`, in ascending order. -/
def nearby (w : Web) (v : Vertex) : List Vertex :=
  (List.range w.next).filter fun u => 0 < w.joins v u

/-- The number of edges at a vertex. -/
def degree (w : Web) (v : Vertex) : ℕ := ∑ u ∈ Finset.range w.next, w.joins v u

/-- The kind of the edges between two vertices. -/
def link (w : Web) (s t : Vertex) : Option EdgeKind :=
  if 0 < w.count s t .plain then some .plain
  else if 0 < w.count s t .hadamard then some .hadamard
  else none

/-- Vertices are below the next one, and edges join two of them, without a direction. -/
structure Valid (w : Web) : Prop where
  lt : ∀ v, w.Has v → v < w.next
  symm : ∀ s t k, w.count s t k = w.count t s k
  self : ∀ v k, w.count v v k = 0
  has : ∀ s t k, 0 < w.count s t k → w.Has s

theorem Valid.joins_comm (hw : w.Valid) (s t : Vertex) : w.joins s t = w.joins t s := by
  rw [joins, joins, hw.symm s t, hw.symm s t]

theorem Valid.joins_self (hw : w.Valid) (v : Vertex) : w.joins v v = 0 := by
  rw [joins, hw.self, hw.self]

theorem joins_pos_iff : 0 < w.joins s t ↔ ∃ k, 0 < w.count s t k := by
  constructor
  · intro h
    rcases Nat.eq_zero_or_pos (w.count s t .plain) with hp | hp
    · exact ⟨.hadamard, by rw [joins] at h; omega⟩
    · exact ⟨.plain, hp⟩
  · rintro ⟨k, h⟩
    cases k <;> rw [joins] <;> omega

theorem Valid.has_of_joins (hw : w.Valid) (h : 0 < w.joins s t) : w.Has s ∧ w.Has t := by
  obtain ⟨k, hk⟩ := joins_pos_iff.1 h
  exact ⟨hw.has s t k hk, hw.has t s k (hw.symm s t k ▸ hk)⟩

theorem Valid.mem_nearby (hw : w.Valid) : u ∈ w.nearby v ↔ 0 < w.joins v u := by
  rw [nearby, List.mem_filter, List.mem_range, decide_eq_true_iff, and_iff_right_iff_imp]
  exact fun h => hw.lt u (hw.has_of_joins h).2

theorem pairwise_nearby : (w.nearby v).Pairwise (· < ·) :=
  List.pairwise_lt_range.sublist List.filter_sublist

theorem nodup_nearby : (w.nearby v).Nodup := pairwise_nearby.imp Nat.ne_of_lt

theorem Valid.notMem_nearby_self (hw : w.Valid) : v ∉ w.nearby v := by
  rw [hw.mem_nearby, hw.joins_self]
  simp

theorem Valid.ne_of_mem_nearby (hw : w.Valid) (h : u ∈ w.nearby v) : v ≠ u :=
  fun he => hw.notMem_nearby_self (he ▸ h)

theorem Valid.mem_nearby_comm (hw : w.Valid) : u ∈ w.nearby v ↔ v ∈ w.nearby u := by
  rw [hw.mem_nearby, hw.mem_nearby, hw.joins_comm]

theorem Valid.has_of_mem_nearby (hw : w.Valid) (h : u ∈ w.nearby v) : w.Has u :=
  (hw.has_of_joins (hw.mem_nearby.1 h)).2

/-- Where there is no spider there are no edges. -/
theorem Valid.joins_eq_zero (hw : w.Valid) (h : ¬w.Has s) : w.joins s t = 0 := by
  by_contra hne
  exact h (hw.has_of_joins (Nat.pos_of_ne_zero hne)).1

theorem Valid.not_has_next (hw : w.Valid) : ¬w.Has w.next := fun h => Nat.lt_irrefl _ (hw.lt _ h)

theorem Valid.ne_next (hw : w.Valid) (h : w.Has v) : v ≠ w.next := Nat.ne_of_lt (hw.lt v h)

/-- The next vertex has no edges yet. -/
theorem Valid.count_next (hw : w.Valid) (u : Vertex) (k : EdgeKind) : w.count w.next u k = 0 := by
  by_contra h
  exact hw.not_has_next (hw.has _ u k (Nat.pos_of_ne_zero h))

/-- The output of a qubit. -/
def output (w : Web) (q : ℕ) : Vertex := w.outputs.getD q 0

/-- An input by its number. -/
def input (w : Web) (r : ℕ) : Vertex := w.inputs.getD r 0

theorem output_eq {q : ℕ} (h : w.outputs[q]? = some t) : w.output q = t := by
  rw [output, List.getD_eq_getElem?_getD, h]
  rfl

theorem getElem?_outputs {q : ℕ} (h : q < w.outputs.length) :
    w.outputs[q]? = some (w.output q) := by
  rw [output, List.getD_eq_getElem?_getD, List.getElem?_eq_getElem h]
  rfl

theorem getElem?_inputs {r : ℕ} (h : r < w.inputs.length) : w.inputs[r]? = some (w.input r) := by
  rw [input, List.getD_eq_getElem?_getD, List.getElem?_eq_getElem h]
  rfl

/-! ### Editing -/

/-- Sets the phase of a spider. -/
def setPhase (w : Web) (v : Vertex) (p : Phase) : Web := { w with phase := update w.phase v p }

/-- Adds to the phase of a spider. -/
def addToPhase (w : Web) (v : Vertex) (p : Phase) : Web := w.setPhase v (w.phase v + p)

/-- Sets the number of edges of each kind between two vertices. -/
def setCount (w : Web) (s t : Vertex) (m : EdgeKind → ℕ) : Web :=
  { w with count := fun a b k => if SamePair a b s t then m k else w.count a b k }

/-- Adds edges between two vertices. -/
def addEdges (w : Web) (s t : Vertex) (k : EdgeKind) (m : ℕ) : Web :=
  w.setCount s t fun k' => w.count s t k' + if k = k' then m else 0

/-- Removes all edges between two vertices. -/
def cut (w : Web) (s t : Vertex) : Web := w.setCount s t fun _ => 0

/-- Gives the edges between two vertices the same kind. -/
def setKind (w : Web) (s t : Vertex) (k : EdgeKind) : Web :=
  w.setCount s t fun k' => if k = k' then w.joins s t else 0

/-- Removes a spider with its edges. -/
def remove (w : Web) (v : Vertex) : Web :=
  { w with
    kind := update w.kind v none
    phase := update w.phase v .zero
    count := fun s t k => if s = v ∨ t = v then 0 else w.count s t k
    carrier := update w.carrier v none }

/-- Takes out a spider and joins the vertices on its two sides. -/
def bypass (w : Web) (v t n : Vertex) (k : EdgeKind) : Web := (w.remove v).addEdges t n k 1

/-- Adds a Z spider without edges. -/
def addSpider (w : Web) (p : Phase) : Web :=
  { w with
    next := w.next + 1
    kind := update w.kind w.next (some .z)
    phase := update w.phase w.next p }

/-- Other edges between two vertices only. -/
theorem withCount_eq {c : Vertex → Vertex → EdgeKind → ℕ} {n : EdgeKind → ℕ}
    (hat : ∀ k, c s t k = n k) (hat' : ∀ k, c t s k = n k)
    (hoff : ∀ a b k, ¬SamePair a b s t → c a b k = w.count a b k) :
    { w with count := c } = w.setCount s t n := by
  refine Web.ext rfl rfl rfl (funext fun a => funext fun b => funext fun k => ?_) rfl rfl rfl
  simp only [setCount]
  split
  · next h =>
    rcases h with ⟨rfl, rfl⟩ | ⟨rfl, rfl⟩
    · exact hat k
    · exact hat' k
  · next h => exact hoff a b k h

section Fields

@[simp] theorem next_setPhase {p : Phase} : (w.setPhase v p).next = w.next := rfl
@[simp] theorem kind_setPhase {p : Phase} : (w.setPhase v p).kind = w.kind := rfl
@[simp] theorem count_setPhase {p : Phase} : (w.setPhase v p).count = w.count := rfl
@[simp] theorem phase_setPhase {p : Phase} : (w.setPhase v p).phase = update w.phase v p := rfl
@[simp] theorem next_addToPhase {p : Phase} : (w.addToPhase v p).next = w.next := rfl
@[simp] theorem kind_addToPhase {p : Phase} : (w.addToPhase v p).kind = w.kind := rfl
@[simp] theorem count_addToPhase {p : Phase} : (w.addToPhase v p).count = w.count := rfl
@[simp] theorem phase_addToPhase {p : Phase} :
    (w.addToPhase v p).phase = update w.phase v (w.phase v + p) := rfl
@[simp] theorem next_setCount {m} : (w.setCount s t m).next = w.next := rfl
@[simp] theorem kind_setCount {m} : (w.setCount s t m).kind = w.kind := rfl
@[simp] theorem phase_setCount {m} : (w.setCount s t m).phase = w.phase := rfl
@[simp] theorem next_remove : (w.remove v).next = w.next := rfl
@[simp] theorem kind_remove : (w.remove v).kind = update w.kind v none := rfl
@[simp] theorem next_addSpider {p : Phase} : (w.addSpider p).next = w.next + 1 := rfl
@[simp] theorem kind_addSpider {p : Phase} :
    (w.addSpider p).kind = update w.kind w.next (some .z) := rfl
@[simp] theorem phase_addSpider {p : Phase} :
    (w.addSpider p).phase = update w.phase w.next p := rfl
@[simp] theorem phase_remove : (w.remove v).phase = update w.phase v .zero := rfl
@[simp] theorem count_addSpider {p : Phase} : (w.addSpider p).count = w.count := rfl

end Fields

theorem Valid.setPhase (hw : w.Valid) (v : Vertex) (p : Phase) : (w.setPhase v p).Valid :=
  ⟨hw.lt, hw.symm, hw.self, hw.has⟩

theorem Valid.addToPhase (hw : w.Valid) (v : Vertex) (p : Phase) : (w.addToPhase v p).Valid :=
  hw.setPhase v _

theorem Valid.setCount (hw : w.Valid) (hs : w.Has s) (ht : w.Has t) (hst : s ≠ t)
    (m : EdgeKind → ℕ) : (w.setCount s t m).Valid where
  lt := hw.lt
  symm a b k := by
    simp only [Web.setCount, SamePair.swap_iff (a := a) (b := b), hw.symm a b]
  self v k := by
    have : ¬SamePair v v s t := by
      rintro (⟨rfl, h⟩ | ⟨rfl, h⟩)
      · exact hst h
      · exact hst h.symm
    simp [Web.setCount, this, hw.self]
  has a b k h := by
    simp only [Web.setCount] at h
    split at h
    · next hc =>
      rcases hc with ⟨rfl, -⟩ | ⟨rfl, -⟩
      · exact hs
      · exact ht
    · exact hw.has a b k h

/-- New edges, counted at both ends. -/
theorem Valid.count_addEdges_eq (hw : w.Valid) {m : ℕ} (a b : Vertex) (k' : EdgeKind) :
    (w.addEdges s t k m).count a b k' =
      w.count a b k' + if SamePair a b s t ∧ k = k' then m else 0 := by
  change (if SamePair a b s t then w.count s t k' + _ else _) = _
  by_cases h : SamePair a b s t
  · have hab : w.count a b k' = w.count s t k' := by
      rcases h with ⟨rfl, rfl⟩ | ⟨rfl, rfl⟩
      · rfl
      · exact hw.symm _ _ _
    simp [h, hab]
  · simp [h]

theorem Valid.addEdges_comm (hw : w.Valid) (s t : Vertex) (k : EdgeKind) (m : ℕ) :
    w.addEdges s t k m = w.addEdges t s k m := by
  refine Web.ext rfl rfl rfl (funext fun a => funext fun b => funext fun k => ?_) rfl rfl rfl
  change (if SamePair a b s t then w.count s t k + _ else w.count a b k) =
    if SamePair a b t s then w.count t s k + _ else w.count a b k
  simp only [SamePair.comm_iff (s := s), hw.symm t s]

theorem Valid.remove (hw : w.Valid) (v : Vertex) : (w.remove v).Valid where
  lt u hu := by
    refine hw.lt u ?_
    rw [Has, kind_remove] at hu
    by_cases h : u = v
    · simp [h] at hu
    · rwa [Function.update_of_ne h] at hu
  symm a b k := by simp only [Web.remove, or_comm, hw.symm a b]
  self u k := by simp [Web.remove, hw.self]
  has a b k h := by
    simp only [Web.remove] at h
    split at h
    · simp at h
    · next hc =>
      push Not at hc
      rw [Has, kind_remove, Function.update_of_ne hc.1]
      exact hw.has a b k h

theorem has_remove {x : Vertex} : (w.remove v).Has x ↔ x ≠ v ∧ w.Has x := by
  rw [Has, kind_remove]
  by_cases hx : x = v
  · simp [hx]
  · simp [hx, Has]

theorem joins_remove {x y : Vertex} :
    (w.remove v).joins x y = if x = v ∨ y = v then 0 else w.joins x y := by
  simp only [joins, remove]
  split <;> rfl

theorem link_remove (hs : s ≠ v) (ht : t ≠ v) : (w.remove v).link s t = w.link s t := by
  simp only [link, remove, if_neg (not_or.2 ⟨hs, ht⟩)]

theorem Valid.addSpider (hw : w.Valid) (p : Phase) : (w.addSpider p).Valid where
  lt u hu := by
    rw [Has, kind_addSpider] at hu
    by_cases h : u = w.next
    · exact h ▸ Nat.lt_succ_self _
    · rw [Function.update_of_ne h] at hu
      exact Nat.lt_succ_of_lt (hw.lt u hu)
  symm := hw.symm
  self := hw.self
  has a b k h := by
    have hlt := hw.lt a (hw.has a b k h)
    rw [Has, kind_addSpider, Function.update_of_ne (Nat.ne_of_lt hlt)]
    exact hw.has a b k h

end Web

/-! ### Coherent diagrams -/

namespace Diagram

variable {d : Diagram} {s t u v : Vertex}

/-- The web of a diagram. -/
def web (d : Diagram) : Web where
  next := d.graph.nextVertex
  kind v := d.kinds[v]?
  phase := d.phase
  count := d.graph.count
  inputs := d.inputs
  outputs := d.outputs
  carrier v := d.carriers[v]?

/-- The graph is well-formed, and its vertices are those that have a kind. -/
structure Coherent (d : Diagram) : Prop where
  wf : d.graph.WellFormed
  has : ∀ v, d.web.Has v ↔ d.graph.contains v

theorem Coherent.valid (hd : d.Coherent) : d.web.Valid where
  lt v hv := Multigraph.lt_nextVertex ((hd.has v).1 hv)
  symm := hd.wf.symm
  self _ _ := hd.wf.count_self
  has s _ _ h := (hd.has s).2 (hd.wf.contains_of_count_pos h).1

theorem contains_eq (hd : d.Coherent) : d.contains v = decide (d.web.Has v) := by
  rw [Bool.eq_iff_iff, decide_eq_true_iff, hd.has]
  rfl

theorem spiders_eq (hd : d.Coherent) :
    d.spiders = (List.range d.web.next).filter fun v => d.web.Has v :=
  List.filter_congr fun _ _ => contains_eq hd

theorem kind_eq {k : SpiderKind} (h : d.web.kind v = some k) : d.kind v = .ok k := by
  rw [Diagram.kind, show d.kinds[v]? = some k from h]

theorem isBoundary_eq (h : d.web.Has v) : d.isBoundary v = .ok (decide (d.web.IsEnd v)) := by
  obtain ⟨k, hk⟩ := Option.isSome_iff_exists.1 h
  rw [isBoundary, kind_eq hk]
  refine congrArg Except.ok ?_
  rw [Bool.eq_iff_iff, decide_eq_true_iff, Web.IsEnd, hk]
  rfl

theorem neighborSet_eq (hd : d.Coherent) (h : d.web.Has v) :
    d.graph.neighborSet v = .ok (d.web.nearby v) := by
  rw [Multigraph.neighborSet_eq ((hd.has v).1 h)]
  refine congrArg Except.ok ?_
  refine List.Perm.eq_of_pairwise (fun _ _ _ _ h₁ h₂ => absurd h₂ (Nat.lt_asymm h₁))
    Multigraph.pairwise_nearby Web.pairwise_nearby ?_
  refine (List.perm_ext_iff_of_nodup Multigraph.nodup_nearby Web.nodup_nearby).2 fun u => ?_
  rw [hd.wf.mem_nearby, hd.valid.mem_nearby]
  rfl

theorem degree_eq (hd : d.Coherent) (h : d.web.Has v) :
    d.graph.degree v = .ok (d.web.degree v) := hd.wf.degree_eq ((hd.has v).1 h)

theorem connected_eq (hd : d.Coherent) (h : d.web.Has s) :
    d.graph.connected s t = .ok (decide (0 < d.web.joins s t)) :=
  hd.wf.connected_eq ((hd.has s).1 h)

theorem totalMultiplicity_eq (hd : d.Coherent) (h : d.web.Has s) :
    d.graph.totalMultiplicity s t = .ok (d.web.joins s t) :=
  hd.wf.totalMultiplicity_eq ((hd.has s).1 h)

theorem edgeKind?_eq (hd : d.Coherent) (h : d.web.Has s) :
    d.graph.edgeKind? s t = .ok (d.web.link s t) := hd.wf.edgeKind?_eq ((hd.has s).1 h)

/-- The links of a spider stand for the edges there. -/
theorem exists_links (hd : d.Coherent) (h : d.web.Has v) : ∃ links, d.graph.links v = .ok links ∧
    Links.Proper links ∧
    ∀ l, l ∈ links ↔ 0 < l.count ∧ d.web.count v l.node l.kind = l.count := by
  obtain ⟨links, hl⟩ := Multigraph.contains_iff.1 ((hd.has v).1 h)
  exact ⟨links, Multigraph.links_eq hl, hd.wf.proper hl, fun l => hd.wf.mem_links hl⟩

end Diagram

end ZXRewriting
