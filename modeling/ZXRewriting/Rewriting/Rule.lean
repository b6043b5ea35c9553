import ZXRewriting.Diagram.Refusal

/-!
# Rules and how they are applied

A *match* of a rule is a list of spiders: the one or two that the rule is applied at, then the
rest of the pattern, so that matches touching the same spiders can be told apart. A rule
(`Rule`) lists the matches there are, says whether a match still applies, and rewrites at one
without asking.

A batch of matches is applied by `rewrite`, which passes over a match that shares a spider with
one applied before it, or that does not apply any more. `replace` is one round of listing and
rewriting, and `simplify` goes on until there is no match left.

Most rules list their matches by one scan of the spiders (`scan`), in which each match claims
spiders that the later ones have to leave alone.
-/

namespace ZXRewriting

/-- The spiders of one place a rule applies at. -/
abbrev Match := List Vertex

/-- The rules `ρ` rewrite diagrams of the form `δ`. -/
class Rule (ρ δ : Type) where
  /-- The short name of a rule. -/
  label : ρ → String
  /-- The places a rule applies at, no two of which share a spider. -/
  sites : ρ → δ → Except Fault (List Match)
  /-- Whether a match applies. -/
  check : ρ → δ → Match → Except Fault Bool
  /-- Rewrites at a match, which is not checked. -/
  apply : ρ → δ → Match → Except Fault δ

namespace Rule

variable {ρ δ : Type} [Rule ρ δ]

/-- A batch being applied: the diagram, the spiders touched, and the number of rewrites. -/
structure Progress (δ : Type) where
  diagram : δ
  touched : List Vertex
  count : Nat

/-- Applies one match of a batch, if no earlier one has touched it and it still applies. -/
def step (rule : ρ) (p : Progress δ) (m : Match) : Except Fault (Progress δ) := do
  if m.any (· ∈ p.touched) then
    return p
  else if ← check rule p.diagram m then
    return ⟨← apply rule p.diagram m, m ++ p.touched, p.count + 1⟩
  else
    return p

/-- Applies a batch of matches, and says how many were applied. -/
def rewrite (rule : ρ) (d : δ) (ms : List Match) : Except Fault (Nat × δ) := do
  let p ← ms.foldlM (step rule) ⟨d, [], 0⟩
  return (p.count, p.diagram)

/-- Applies a single match, which is refused if it does not apply any more. -/
def rewriteOne (rule : ρ) (d : δ) (m : Match) : Attempt Refusal δ := do
  if ← check rule d m then apply rule d m
  else refuse (.staleMatch (label δ rule) m)

/-- One round: lists the matches and applies them. -/
def replace (rule : ρ) (d : δ) : Except Fault (Nat × δ) := do
  rewrite rule d (← sites rule d)

/-- Rounds until there is no match, or none can be applied, with the number of rewrites. -/
def simplifyWithin (rule : ρ) : (rounds : Nat) → δ → Except Fault (Nat × δ)
  | 0, _ => throw .outOfRounds
  | rounds + 1, d => do
    let ms ← sites rule d
    if ms.isEmpty then
      return (0, d)
    else
      let (n, d) ← rewrite rule d ms
      if n = 0 then
        return (0, d)
      else
        let (more, d) ← simplifyWithin rule rounds d
        return (n + more, d)

end Rule

/-! ### Scanning for matches -/

/-- A match found by a scan, and the spiders later matches have to leave alone. -/
structure Claim where
  found : Match
  taken : List Vertex

/-- Asks for a match at each spider that is not taken, given the spiders that are. -/
def scanFrom (site : List Vertex → Vertex → Except Fault (Option Claim)) :
    (taken : List Vertex) → List Vertex → Except Fault (List Match)
  | _, [] => return []
  | taken, v :: rest => do
    if v ∈ taken then
      scanFrom site taken rest
    else match ← site taken v with
      | none => scanFrom site taken rest
      | some claim =>
        let later ← scanFrom site (claim.taken ++ taken) rest
        return claim.found :: later

/-- Scans spiders, none of which is taken at first. -/
def scan (site : List Vertex → Vertex → Except Fault (Option Claim)) (vs : List Vertex) :
    Except Fault (List Match) :=
  scanFrom site [] vs

end ZXRewriting
