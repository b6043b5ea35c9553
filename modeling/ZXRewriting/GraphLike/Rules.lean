import ZXRewriting.GraphLike.Gadgets
import ZXRewriting.GraphLike.Identities
import ZXRewriting.GraphLike.LocalComplement
import ZXRewriting.GraphLike.Pivot

/-!
# The rules for graph-like diagrams

The seven rules by name. A match holds exactly the spiders of its pattern, all of which have to
be there for it to apply.
-/

namespace ZXRewriting

/-- A rule for graph-like diagrams. -/
inductive GraphRule
  /-- Remove a spider with a phase of a quarter turn. -/
  | localComplement
  /-- Remove two joined spiders with phases 0 or pi. -/
  | pivot
  /-- The same with one of them at the boundary. -/
  | pivotBoundary
  /-- The same with a phase of one in the way. -/
  | pivotGadget
  /-- The same with one at the boundary and its phase in the way. -/
  | pivotBoundaryGadget
  /-- Remove a spider with two edges and fuse its neighbours. -/
  | identity
  /-- Fuse two phase gadgets on the same spiders. -/
  | gadgetFusion
  deriving DecidableEq, Repr

namespace GraphRule

/-- The short name of a rule. -/
def label : GraphRule → String
  | localComplement => "lc"
  | pivot => "p1"
  | pivotBoundary => "pab"
  | pivotGadget => "p2"
  | pivotBoundaryGadget => "p3"
  | identity => "id"
  | gadgetFusion => "gf"

/-- The places a rule applies at. -/
def sites : GraphRule → GraphLike → Except Fault (List Match)
  | localComplement => GraphLike.localComplementSites
  | pivot => GraphLike.pivotSites
  | pivotBoundary => GraphLike.pivotBoundarySites
  | pivotGadget => GraphLike.pivotGadgetSites
  | pivotBoundaryGadget => GraphLike.pivotBoundaryGadgetSites
  | identity => GraphLike.fuseNeighborsSites
  | gadgetFusion => GraphLike.fuseGadgetsSites

/-- Whether a match applies to a diagram which has all of its spiders. -/
def checkPresent (rule : GraphRule) (g : GraphLike) (m : Match) : Except Fault Bool :=
  match rule, m with
  | localComplement, [v] => g.checkLocalComplement v
  | pivot, [v, w] => g.checkPivot v w
  | pivotBoundary, [v, w, b] =>
    g.checkPivotBoundary v w <&&> (return (← g.boundaryNeighbors w) == [b])
  | pivotGadget, [v, w] => g.checkPivotGadget v w
  | pivotBoundaryGadget, [v, w, b] =>
    g.checkPivotBoundaryGadget v w <&&> (return (← g.boundaryNeighbors w) == [b])
  | identity, [v, keep, gone] =>
    g.checkFuseNeighbors v <&&> (return (← g.identityEnds v) == some (keep, gone))
  | gadgetFusion, [c, d, l, m] =>
    g.checkFuseGadgets c d <&&> (return (← g.gadgetLeaf? c) == some l) <&&>
      (return (← g.gadgetLeaf? d) == some m)
  | _, _ => return false

/-- Whether a match applies. -/
def check (rule : GraphRule) (g : GraphLike) (m : Match) : Except Fault Bool :=
  if m.all g.contains then rule.checkPresent g m else return false

/-- Rewrites at a match, which is not checked. Spiders past those the rule is applied at are not
    looked at. -/
def apply (rule : GraphRule) (g : GraphLike) (m : Match) : Except Fault GraphLike :=
  match rule, m with
  | localComplement, v :: _ => g.localComplement v
  | pivot, v :: w :: _ => g.pivot v w
  | pivotBoundary, v :: w :: _ => g.pivotBoundary v w
  | pivotGadget, v :: w :: _ => g.pivotGadget v w
  | pivotBoundaryGadget, v :: w :: _ => g.pivotBoundaryGadget v w
  | identity, v :: _ => g.fuseNeighbors v
  | gadgetFusion, c :: d :: _ => g.fuseGadgets c d
  | _, _ => throw .outOfBounds

end GraphRule

instance : Rule GraphRule GraphLike where
  label := GraphRule.label
  sites := GraphRule.sites
  check := GraphRule.check
  apply := GraphRule.apply

end ZXRewriting
