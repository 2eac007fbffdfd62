import ClosureEnv.Command.Result

/-!
# The command

Reads the command line, works on the files that it names, and prints the result.
-/

namespace ClosureEnv.Command

/-- The files of the system. -/
def systemFiles : Files IO where
  read path := do
    try return some (← IO.FS.readFile path)
    catch _ => return none
  write path text := do
    try
      IO.FS.writeFile path text
      return true
    catch _ => return false

/-- How to use the command. -/
def usage : String :=
  "Usage: [--log FILTER] parse|lower|run FILE [--format pretty|json] [--merge] [--incremental]"
    ++ " [--baseline FILE] [--emit-baseline FILE]"

/-- More fuel than any run can use up. -/
def plentyOfFuel : Nat :=
  0x1000000000000000

/-- Runs the command, with 1 as its code when it fails and 2 when there is nothing to run. -/
def perform (args : List String) : IO UInt32 := do
  match Line.ofArgs? args with
  | none =>
    IO.eprintln usage
    return 2
  | some line =>
    match ← (line.exec systemFiles plentyOfFuel).run with
    | .ok text =>
      IO.print text
      return 0
    | .error message =>
      IO.eprintln ("Error: " ++ message)
      return 1

end ClosureEnv.Command

/-- The command. -/
def main (args : List String) : IO UInt32 :=
  ClosureEnv.Command.perform args
