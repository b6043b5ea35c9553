import ZXRewriting.GraphLike.Rules

/-!
# The lists of ends play no part

No rule for graph-like diagrams reads or changes the lists of the inputs and of the outputs: on a
diagram with other lists (`GraphLike.relist`) every check and every listing of matches gives the
same answer, and rewriting gives the same diagram with those lists (`GraphRule.apply_relist`).
-/

namespace ZXRewriting

namespace GraphLike

variable {g : GraphLike} {i o : List Vertex}

/-- The diagram with other lists of inputs and outputs. -/
def relist (g : GraphLike) (i o : List Vertex) : GraphLike := { g with inputs := i, outputs := o }

/-! ### Programs -/

/-- What is computed with other lists is what is computed, with those lists. -/
def Relisted (i o : List Vertex) (x' x : Except Fault GraphLike) : Prop := x' = x.map (·.relist i o)

namespace Relisted

theorem ok : Relisted i o (.ok (g.relist i o)) (.ok g) := rfl

/-- Reading the diagram before the rest. -/
theorem read {α : Type} {x : Except Fault α} {f' f : α → Except Fault GraphLike}
    (h : ∀ a, Relisted i o (f' a) (f a)) : Relisted i o (x >>= f') (x >>= f) := by
  cases x with
  | error e => rfl
  | ok a => exact h a

/-- Changing the diagram before the rest. -/
theorem bind {x' x : Except Fault GraphLike} {f' f : GraphLike → Except Fault GraphLike}
    (hx : Relisted i o x' x) (h : ∀ g, Relisted i o (f' (g.relist i o)) (f g)) :
    Relisted i o (x' >>= f') (x >>= f) := by
  rw [hx]
  cases x with
  | error e => rfl
  | ok g => exact h g

theorem foldlM {α : Type} {f : GraphLike → α → Except Fault GraphLike}
    (h : ∀ g a, Relisted i o (f (g.relist i o) a) (f g a)) (l : List α) (g : GraphLike) :
    Relisted i o (l.foldlM f (g.relist i o)) (l.foldlM f g) := by
  induction l generalizing g with
  | nil => rfl
  | cons a rest ih =>
    rw [List.foldlM_cons, List.foldlM_cons]
    exact (h g a).bind ih

theorem ite {c : Prop} [Decidable c] {x' x y' y : Except Fault GraphLike} (hx : Relisted i o x' x)
    (hy : Relisted i o y' y) : Relisted i o (if c then x' else y') (if c then x else y) := by
  split
  · exact hx
  · exact hy

end Relisted

/-! ### Edits -/

theorem relist_removeSpider (g : GraphLike) (v : Vertex) :
    Relisted i o ((g.relist i o).removeSpider v) (g.removeSpider v) := by
  rw [removeSpider, removeSpider, Diagram.removeSpider, Diagram.removeSpider]
  change Relisted i o ((g.graph.removeVertex v >>= _) >>= _) ((g.graph.removeVertex v >>= _) >>= _)
  cases g.graph.removeVertex v <;> rfl

theorem relist_addEdge (g : GraphLike) (s t : Vertex) (k : EdgeKind) :
    Relisted i o ((g.relist i o).addEdge s t k) (g.addEdge s t k) :=
  .read (x := g.graph.addEdge s t k) fun _ => rfl

theorem relist_removeEdge (g : GraphLike) (s t : Vertex) :
    Relisted i o ((g.relist i o).removeEdge s t) (g.removeEdge s t) :=
  .read (x := g.graph.disconnect s t) fun _ => rfl

theorem relist_setEdgeKind (g : GraphLike) (s t : Vertex) (k : EdgeKind) :
    Relisted i o ((g.relist i o).setEdgeKind s t k) (g.setEdgeKind s t k) :=
  .read (x := g.graph.setEdgeKind s t k) fun _ => rfl

theorem relist_addEdgeReduced (g : GraphLike) (s t : Vertex) (k : EdgeKind) :
    Relisted i o ((g.relist i o).addEdgeReduced s t k) (g.addEdgeReduced s t k) := by
  rw [addEdgeReduced, addEdgeReduced]
  refine .ite ?_ (.read (x := g.edgeKind? s t) fun old => ?_)
  · split <;> rfl
  cases old with
  | none => exact relist_addEdge g s t k
  | some old =>
    refine .read (x := g.isBoundary s) fun b => .ite rfl
      (.read (x := g.isBoundary t) fun b => .ite rfl ?_)
    cases old with
    | plain => cases k <;> rfl
    | hadamard =>
      cases k with
      | plain => exact (relist_setEdgeKind g s t .plain).bind fun _ => rfl
      | hadamard => exact relist_removeEdge g s t

theorem relist_mergeCarriers (g : GraphLike) (s t : Vertex) :
    (g.relist i o).mergeCarriers s t = (g.mergeCarriers s t).relist i o := by
  rw [mergeCarriers, mergeCarriers, show (g.relist i o).carriers = g.carriers from rfl]
  cases g.carriers[t]? with
  | none => rfl
  | some c =>
    dsimp only
    cases (g.carriers.erase t)[s]? with
    | none => rfl
    | some k =>
      dsimp only
      split <;> rfl

theorem relist_moveCarrier (g : GraphLike) (s t : Vertex) :
    (g.relist i o).moveCarrier s t = (g.moveCarrier s t).relist i o := by
  rw [moveCarrier, moveCarrier, show (g.relist i o).carriers = g.carriers from rfl]
  cases g.carriers[s]? <;> rfl

theorem relist_negatePhase (g : GraphLike) (v : Vertex) :
    (g.relist i o).negatePhase v = (g.negatePhase v).relist i o := by
  rw [negatePhase, negatePhase,
    show ((g.relist i o).setPhase v (-(g.relist i o).phase v)).carriers = g.carriers from rfl,
    show (g.setPhase v (-g.phase v)).carriers = g.carriers from rfl]
  cases g.carriers[v]? <;> rfl

theorem relist_addToPhases (g : GraphLike) (vs : List Vertex) (p : Phase) :
    vs.foldl (·.addToPhase · p) (g.relist i o) = (vs.foldl (·.addToPhase · p) g).relist i o := by
  induction vs generalizing g with
  | nil => rfl
  | cons v rest ih => exact ih (g.addToPhase v p)

/-! ### Local complementation and pivoting -/

theorem relist_complement (p : Phase) (ns : List Vertex) (g : GraphLike) :
    Relisted i o (complement p ns (g.relist i o)) (complement p ns g) := by
  induction ns generalizing g with
  | nil => rfl
  | cons n rest ih =>
    rw [complement, complement]
    exact (Relisted.foldlM (fun g t => relist_addEdgeReduced g n t .hadamard) rest
      (g.addToPhase n (-p))).bind ih

theorem relist_localComplement (g : GraphLike) (v : Vertex) :
    Relisted i o ((g.relist i o).localComplement v) (g.localComplement v) :=
  .read (x := g.neighborSet v) fun ns =>
    (relist_complement (g.phase v) ns g).bind fun g => relist_removeSpider g v

theorem relist_pivot (g : GraphLike) (v u : Vertex) :
    Relisted i o ((g.relist i o).pivot v u) (g.pivot v u) := by
  refine .read (x := g.neighborSet v) fun ns => .read (x := g.neighborSet u) fun ms => ?_
  refine (Relisted.foldlM (fun g n => ?_) ns g).bind fun g => ?_
  · exact Relisted.foldlM (fun g t => relist_addEdgeReduced g n t .hadamard) _ (g.addToPhase n _)
  · rw [relist_addToPhases]
    exact (relist_removeSpider _ v).bind fun g => relist_removeSpider g u

theorem relist_shiftBoundary (g : GraphLike) (v t : Vertex) :
    Relisted i o (shiftBoundary v (g.relist i o) t) (shiftBoundary v g t) := by
  rw [shiftBoundary, shiftBoundary]
  refine .read (x := g.isBoundary t) fun b => .ite (.read (x := g.edgeKind? v t) fun k => ?_) rfl
  cases k with
  | none => rfl
  | some k =>
    refine (relist_addEdge (g.addSpider .zero (g.qubit? v) (g.column? v)).2 v _ .hadamard).bind
      fun g => (relist_addEdge g _ t k.opposite).bind fun g => relist_removeEdge g v t

theorem relist_shiftBoundaries (g : GraphLike) (v : Vertex) :
    Relisted i o ((g.relist i o).shiftBoundaries v) (g.shiftBoundaries v) :=
  .read (x := g.boundaryNeighbors v) fun ts =>
    .foldlM (fun g t => relist_shiftBoundary g v t) ts g

theorem relist_shiftPhase (g : GraphLike) (v : Vertex) :
    Relisted i o ((g.relist i o).shiftPhase v) (g.shiftPhase v) := by
  rw [shiftPhase, shiftPhase]
  refine .ite rfl ?_
  refine Relisted.bind (relist_addEdge (((g.addSpider .zero none (g.column? v)).2.addSpider
    (g.phase v) none (g.column? v)).2.setPhase v .zero) v _ .hadamard) fun g =>
      (relist_addEdge g _ _ .hadamard).bind fun g => ?_
  rw [relist_moveCarrier]
  exact .ok

theorem relist_clear (g : GraphLike) (v : Vertex) :
    Relisted i o ((g.relist i o).clear v) (g.clear v) :=
  (relist_shiftPhase g v).bind fun g => relist_shiftBoundaries g v

theorem relist_frontierPivot (g : GraphLike) (v u : Vertex) :
    Relisted i o ((g.relist i o).frontierPivot v u) (g.frontierPivot v u) :=
  (relist_clear g v).bind fun g => (relist_clear g u).bind fun g => relist_pivot g v u

/-! ### Fusion -/

theorem relist_pushThrough (g : GraphLike) (v gone : Vertex) :
    Relisted i o ((g.relist i o).pushThrough v gone) (g.pushThrough v gone) := by
  rw [pushThrough, pushThrough, relist_negatePhase]
  refine .read (x := (g.negatePhase gone).neighborSet gone) fun ns => ?_
  rw [relist_addToPhases]
  exact .ok

/-- The edges and the phase of the spider that goes are handed over, whatever was done before. -/
theorem relist_handOver (g : GraphLike) (v keep gone : Vertex) :
    Relisted i o (do
      let edges := (← ((g.relist i o).addToPhase keep (g.phase gone)).incidentEdges gone).filter
        (·.1 ≠ v)
      let g ← edges.foldlM (fun g (n, kind) => g.addEdgeReduced keep n kind)
        ((g.relist i o).addToPhase keep (g.phase gone))
      (← (g.mergeCarriers keep gone).removeSpider v).removeSpider gone)
    (do
      let edges := (← (g.addToPhase keep (g.phase gone)).incidentEdges gone).filter (·.1 ≠ v)
      let g ← edges.foldlM (fun g (n, kind) => g.addEdgeReduced keep n kind)
        (g.addToPhase keep (g.phase gone))
      (← (g.mergeCarriers keep gone).removeSpider v).removeSpider gone) := by
  refine .read (x := (g.addToPhase keep (g.phase gone)).incidentEdges gone) fun edges => ?_
  refine (Relisted.foldlM (fun g e => relist_addEdgeReduced g keep e.1 e.2) _
    (g.addToPhase keep (g.phase gone))).bind fun g => ?_
  rw [relist_mergeCarriers]
  exact (relist_removeSpider _ v).bind fun g => relist_removeSpider g gone

theorem relist_fuseNeighbors (g : GraphLike) (v : Vertex) :
    Relisted i o ((g.relist i o).fuseNeighbors v) (g.fuseNeighbors v) := by
  rw [fuseNeighbors, fuseNeighbors]
  refine .read (x := g.identityEnds v) fun ends => ?_
  cases ends with
  | none => rfl
  | some ends =>
    obtain ⟨keep, gone⟩ := ends
    exact Relisted.ite ((relist_pushThrough g v gone).bind fun g => relist_handOver g v keep gone)
      (relist_handOver g v keep gone)

theorem relist_clearCentre (g : GraphLike) (c l : Vertex) :
    (g.relist i o).clearCentre c l = (g.clearCentre c l).relist i o := by
  rw [clearCentre, clearCentre]
  split
  · next h =>
    rw [if_pos (show (g.phase c).isPi from h)]
    exact relist_negatePhase (g.setPhase c .zero) l
  · next h =>
    rw [if_neg (show ¬(g.phase c).isPi from h)]

theorem relist_fuseGadgets (g : GraphLike) (c d : Vertex) :
    Relisted i o ((g.relist i o).fuseGadgets c d) (g.fuseGadgets c d) := by
  rw [fuseGadgets, fuseGadgets]
  refine .read (x := g.gadgetLeaf? c) fun l => .read (x := g.gadgetLeaf? d) fun m => ?_
  cases l with
  | none => rfl
  | some l =>
    cases m with
    | none => rfl
    | some m =>
      dsimp only
      rw [relist_clearCentre, relist_clearCentre]
      refine Relisted.bind ?_ fun g => relist_removeSpider g d
      have h := relist_mergeCarriers (i := i) (o := o)
        (((g.clearCentre c l).clearCentre d m).addToPhase l
          (((g.clearCentre c l).clearCentre d m).phase m)) l m
      exact h ▸ relist_removeSpider _ m

end GraphLike

open GraphLike

/-- Rewriting with other lists of ends. -/
theorem GraphRule.apply_relist (rule : GraphRule) (g : GraphLike) (m : Match) (i o : List Vertex) :
    rule.apply (g.relist i o) m = (rule.apply g m).map (·.relist i o) := by
  rw [GraphRule.apply.eq_def, GraphRule.apply.eq_def]
  split
  · exact relist_localComplement g _
  · exact relist_pivot g _ _
  · exact (relist_shiftBoundaries g _).bind fun g => relist_pivot g _ _
  · exact (relist_shiftPhase g _).bind fun g => relist_pivot g _ _
  · exact (relist_shiftBoundaries g _).bind fun g => (relist_shiftPhase g _).bind fun g =>
      relist_pivot g _ _
  · exact relist_fuseNeighbors g _
  · exact relist_fuseGadgets g _ _
  · rfl

theorem GraphRule.check_relist (rule : GraphRule) (g : GraphLike) (m : Match) (i o : List Vertex) :
    rule.check (g.relist i o) m = rule.check g m := rfl

end ZXRewriting
