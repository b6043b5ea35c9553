import ZXRewriting.Circuit.Examples
import ZXRewriting.Circuit.Random
import ZXRewriting.Diagram.ReadBack
import ZXRewriting.Floating.Decimal
import ZXRewriting.Pipelines

/-!
# The command line

The command `opt` optimises a circuit, one of the examples or a random one, and writes either
the gates or the counts before and after.

An option is given by its name and a value, in the next argument or after an equality sign; a
flag by its name alone. Each may be given once. Exactly one source of the circuit has to be
named, and at most one method. A value in an argument of its own must not look like an option.
-/

namespace ZXRewriting.CommandLine

open Floating

/-- An example circuit. -/
inductive Example
  | clifford
  | arithmetic
  deriving DecidableEq, Repr

/-- The circuit of an example. -/
def Example.circuit : Example → Circuit
  | clifford => Circuit.cliffordExample
  | arithmetic => Circuit.arithmeticExample

/-- How a circuit is optimised. -/
inductive Method
  | clifford
  | teleport
  deriving DecidableEq, Repr

/-- What the command is asked to do. -/
structure Options where
  /-- The example to optimise, instead of a random circuit. -/
  source : Option Example
  qubits : Nat
  depth : Nat
  pT : Single
  /-- The seed of a random circuit, if it is to be reproducible. -/
  seed : Option Nat
  method : Method
  /-- Whether to write the gates rather than the counts. -/
  print : Bool
  /-- The file to write to. -/
  out : Option String
  deriving DecidableEq

/-! ### Arguments -/

/-- The names of the options, which take a value. -/
def optionNames : List String := ["example", "qubits", "depth", "p-t", "seed", "out"]

/-- The names of the flags. -/
def flagNames : List String := ["random", "clifford", "teleport", "print"]

/-- What is given: options by name with their values, and flags by name. -/
structure Given where
  options : List (String × String)
  flags : List String
  deriving DecidableEq, Repr

/-- Whether an option or a flag is given. -/
def Given.has (g : Given) (name : String) : Bool :=
  g.options.any (·.1 == name) || g.flags.contains name

/-- Whether an argument can be the value of an option before it: it does not look like an option
    itself. A lone dash does not. -/
def isValue (text : String) : Bool := text == "-" || text.toList.head? != some '-'

/-- Splits the text after the dashes of an argument at the first equality sign. -/
def splitValue (cs : List Char) : String × Option String :=
  match cs.dropWhile (· ≠ '=') with
  | [] => (String.ofList cs, none)
  | _ :: value => (String.ofList (cs.takeWhile (· ≠ '=')), some (String.ofList value))

/-- What one argument begins. -/
inductive Argument
  | flag (name : String)
  /-- An option, with its value if that is in the same argument. -/
  | option (name : String) (value : Option String)
  deriving DecidableEq, Repr

/-- Reads the beginning of an argument. -/
def readArgument? (text : String) : Option Argument :=
  match text.toList with
  | '-' :: '-' :: cs =>
    let (name, value) := splitValue cs
    if optionNames.contains name then some (.option name value)
    else if flagNames.contains name && value.isNone then some (.flag name)
    else none
  | ['-', 'o'] => some (.option "out" none)
  | '-' :: 'o' :: '=' :: cs => some (.option "out" (some (String.ofList cs)))
  | '-' :: 'o' :: cs => some (.option "out" (some (String.ofList cs)))
  | _ => none

/-- Reads arguments up to the end, or to a double dash at the end. -/
def readArguments? (given : Given) : List String → Option Given
  | [] => some given
  | text :: rest =>
    if text = "--" then
      if rest.isEmpty then some given else none
    else match readArgument? text with
      | none => none
      | some (.flag name) =>
        if given.has name then none
        else readArguments? { given with flags := name :: given.flags } rest
      | some (.option name (some value)) =>
        if given.has name then none
        else readArguments? { given with options := (name, value) :: given.options } rest
      | some (.option name none) =>
        match rest with
        | value :: rest =>
          if given.has name || !isValue value then none
          else readArguments? { given with options := (name, value) :: given.options } rest
        | [] => none

/-- Reads a whole number below `2 ^ 64`: digits, perhaps after a plus sign. -/
def readWord? (text : String) : Option Nat :=
  let digits := match text.toList with
    | '+' :: rest => rest
    | cs => cs
  if !digits.isEmpty && digits.all Char.isDigit && digitsValue digits < UInt64.size then
    some (digitsValue digits)
  else none

/-- Reads the name of an example. -/
def readExample? : String → Option Example
  | "clifford" => some .clifford
  | "arithmetic" => some .arithmetic
  | _ => none

/-- The value of an option: what its text says if it is given, or else a default. -/
def Given.value {α : Type} (g : Given) (name : String) (read : String → Option α) (default : α) :
    Option α :=
  match g.options.lookup name with
  | some text => read text
  | none => some default

/-- What the arguments ask for, if they are as they have to be. -/
def Given.toOptions? (g : Given) : Option Options := do
  let source ← g.value "example" (fun text => (readExample? text).map some) none
  let qubits ← g.value "qubits" readWord? 4
  let depth ← g.value "depth" readWord? 40
  let pT ← g.value "p-t" Number.ofText? (Number.ofFraction false 1 10)
  let seed ← g.value "seed" (fun text => (readWord? text).map some) none
  let out ← g.value "out" (fun text => if text.isEmpty then none else some (some text)) none
  if source.isSome == g.has "random" || (g.has "clifford" && g.has "teleport") then none
  else
    let method := if g.has "teleport" then Method.teleport else .clifford
    some { source, qubits, depth, pT, seed, method, print := g.has "print", out }

/-- Reads the arguments of the program: the command, then its options. -/
def parse? : List String → Option Options
  | "opt" :: rest => do (← readArguments? ⟨[], []⟩ rest).toOptions?
  | _ => none

/-! ### Running -/

/-- Why a circuit could not be optimised. -/
inductive Problem
  /-- The circuit could not be made a diagram, or read back. -/
  | diagram (reason : Refusal)
  /-- No circuit could be extracted. -/
  | extraction (obstacle : Obstacle)
  deriving DecidableEq

/-- What a problem says. -/
def Problem.message : Problem → String
  | diagram reason => "Invalid circuit: " ++ reason.message
  | extraction obstacle => "Extraction failed: " ++ obstacle.message

/-- Takes the reason of a refusal for a problem. -/
def orProblem {ε α : Type} (problem : ε → Problem) (x : Attempt ε α) : Attempt Problem α :=
  x.mapError fun
    | .fault cause => .fault cause
    | .refused reason => .refused (problem reason)

/-- The circuit to optimise, a random one being drawn from the given seed if it has none. -/
def Options.circuit (o : Options) (fresh : Nat) : Circuit :=
  match o.source with
  | some e => e.circuit
  | none =>
    let r := { RandomCircuit.new with qubits := o.qubits, depth := o.depth }.cliffordT o.pT
    (r.build (.ofSeed (UInt64.ofNat (o.seed.getD fresh)))).1

/-- Optimises the circuit of a diagram. -/
def Method.optimise (m : Method) (d : Diagram) : Attempt Problem Circuit :=
  match m with
  | clifford => orProblem (fun u => .extraction u.obstacle) (cliffordSimplification d)
  | teleport => do orProblem .diagram (← phaseTeleportation d).toCircuit

/-- What the command writes. -/
def Options.run (o : Options) (fresh : Nat) : Attempt Problem String := do
  let c := o.circuit fresh
  let d ← orProblem .diagram (Diagram.ofCircuit c)
  let result ← o.method.optimise d
  if o.print then
    return result.toText
  else
    return "Input: " ++ c.stats.toText ++ "\nOutput: " ++ result.stats.toText ++ "\n"

end ZXRewriting.CommandLine
