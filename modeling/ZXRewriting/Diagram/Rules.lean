import ZXRewriting.Diagram.Colours
import ZXRewriting.Diagram.PiCopy

/-!
# The rules for diagrams in circuit form

The six rules by name. A match holds exactly the spiders of its pattern, all of which have to be
there for it to apply.
-/

namespace ZXRewriting

/-- A rule for diagrams in circuit form. -/
inductive DiagramRule
  /-- Fuse two spiders of one colour. -/
  | fusion
  /-- Turn an X spider into a Z spider with boxes around it. -/
  | hadamard
  /-- Remove a spider that acts as a wire. -/
  | identity
  /-- Cancel parallel wires, or two boxes in a row. -/
  | cancel
  /-- Push a half turn through a spider of the other colour. -/
  | piCopy
  /-- Change the colour of a spider with boxes around it. -/
  | colourChange
  deriving DecidableEq, Repr

namespace DiagramRule

/-- The short name of a rule. -/
def label : DiagramRule → String
  | fusion => "f"
  | hadamard => "h"
  | identity => "i1"
  | cancel => "i2"
  | piCopy => "pi"
  | colourChange => "c"

/-- The places a rule applies at. -/
def sites : DiagramRule → Diagram → Except Fault (List Match)
  | fusion => Diagram.fusionSites
  | hadamard => Diagram.hadamardSites
  | identity => Diagram.identitySites
  | cancel => Diagram.cancelSites
  | piCopy => Diagram.piCopySites
  | colourChange => Diagram.colourChangeSites

/-- Whether a match applies to a diagram which has all of its spiders. -/
def checkPresent (rule : DiagramRule) (d : Diagram) (m : Match) : Except Fault Bool :=
  match rule, m with
  | fusion, [v, w] => d.checkFusion v w
  | hadamard, [v] => d.checkHadamard v
  | identity, [v] => d.checkIdentity v
  | cancel, [v, w] => d.checkCancel v w
  | piCopy, [v, w] => d.checkPiCopy v w
  | colourChange, v :: boxes =>
    d.checkColourChange v <&&> (return (← d.boxesAround v) == boxes)
  | _, _ => return false

/-- Whether a match applies. -/
def check (rule : DiagramRule) (d : Diagram) (m : Match) : Except Fault Bool :=
  if m.all d.contains then rule.checkPresent d m else return false

/-- Rewrites at a match, which is not checked. Spiders past those the rule is applied at are not
    looked at. -/
def apply (rule : DiagramRule) (d : Diagram) (m : Match) : Except Fault Diagram :=
  match rule, m with
  | fusion, v :: w :: _ => d.fuse v w
  | hadamard, v :: _ => d.hadamard v
  | identity, v :: _ => d.removeIdentity v
  | cancel, v :: w :: _ => d.cancel v w
  | piCopy, v :: w :: _ => d.piCopy v w
  | colourChange, v :: _ => d.changeColour v
  | _, _ => throw .outOfBounds

end DiagramRule

instance : Rule DiagramRule Diagram where
  label := DiagramRule.label
  sites := DiagramRule.sites
  check := DiagramRule.check
  apply := DiagramRule.apply

end ZXRewriting
