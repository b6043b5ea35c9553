import ZXRewriting.CommandLine

/-!
# The program

Reads the arguments, and writes the result to the standard output or to a file.
-/

open ZXRewriting CommandLine

/-- How the program is called. -/
def usage : String :=
  "usage: opt (--example clifford|arithmetic | --random) [--clifford | --teleport]\n" ++
  "           [--qubits N] [--depth N] [--p-t P] [--seed N] [--print] [--out FILE]"

/-- A seed that differs from run to run. -/
def freshSeed : IO Nat := do
  let bytes ← IO.getRandomBytes 8
  return bytes.foldl (fun n b => 256 * n + b.toNat) 0

/-- Writes a result where it is wanted. -/
def deliver (o : Options) (text : String) : IO Unit :=
  match o.out with
  | some file => IO.FS.writeFile file text
  | none => IO.print text

/-- Runs the program. -/
def main (args : List String) : IO UInt32 := do
  match parse? args with
  | none =>
    IO.eprintln usage
    return 2
  | some o =>
    match o.run (← freshSeed) with
    | .ok text =>
      deliver o text
      return 0
    | .error (.refused problem) =>
      IO.eprintln problem.message
      return 1
    | .error (.fault cause) =>
      IO.eprintln (cause.message.getD "internal fault")
      return 101
