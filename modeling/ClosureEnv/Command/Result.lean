import ClosureEnv.Binding.Module
import ClosureEnv.Command.Line
import ClosureEnv.Layout.Codec
import ClosureEnv.Lowered.Json
import ClosureEnv.Lowered.Printer
import ClosureEnv.Lowering
import ClosureEnv.Run.Unit
import ClosureEnv.Syntax.Json
import ClosureEnv.Syntax.Outline
import ClosureEnv.Syntax.Parser

/-!
# Results of commands

What a command line leads to, over whatever keeps the files: the text that it prints, or the
message that it fails with.
-/

namespace ClosureEnv.Command

/-- Where files are kept. -/
structure Files (m : Type → Type) where
  /-- The text of a file, if it can be read. -/
  read : String → m (Option String)
  /-- Writes a file, and tells whether that could be done. -/
  write : String → String → m Bool

/-- What a command leads to. -/
abbrev Result (m : Type → Type) := ExceptT String m

/-- How many bytes a source file may have. -/
def maxSourceBytes : Nat :=
  1000000

variable {m : Type → Type} [Monad m]

/-- The text of a source file. -/
def readSource (files : Files m) (path : String) : Result m String := do
  match ← files.read path with
  | none => throw ("failed to read '" ++ path ++ "'")
  | some s =>
    if s.utf8ByteSize > maxSourceBytes then
      throw ("source file exceeds " ++ toString (maxSourceBytes / 1000000) ++ "MB limit ("
        ++ toString s.utf8ByteSize ++ " bytes)")
    else return s

/-- The module in a source file. -/
def readModule (files : Files m) (path : String) : Result m Syntax.Module := do
  match Syntax.parse (← readSource files path) with
  | .ok x => return x
  | .error e => throw (e.message path)

/-- What the generation before left, if the command names it. -/
def readBaseline (files : Files m) : Option String → Result m (Option Baseline)
  | none => return none
  | some path => do
    match ← files.read path with
    | none => throw ("failed to read baseline '" ++ path ++ "'")
    | some s =>
      match Baseline.read? s with
      | none => throw ("invalid baseline '" ++ path ++ "'")
      | some b => return some b

/-- Writes what a unit leaves for the next generation, if the command says where. -/
def emitBaseline (files : Files m) (u : LoweredUnit) : Option String → Result m Unit
  | none => return ()
  | some path => do
    if !(← files.write path u.nextBaseline.write) then
      throw ("failed to write baseline '" ++ path ++ "'")

/-- The lowered unit in a source file. -/
def lowerFile (files : Files m) (line : Line) : Result m LoweredUnit := do
  let source ← readModule files line.file
  match bindModule source (unitName line.file) with
  | .error e => throw e.message
  | .ok tree =>
    let baseline ← readBaseline files line.baseline
    match lowerUnit tree line.options baseline with
    | .error e => throw e.message
    | .ok u =>
      emitBaseline files u line.emitBaseline
      return u

/-- Runs a unit. -/
def runLowered (u : LoweredUnit) (fuel : Nat) : Result m Run.Val :=
  match ((Run.runUnit u fuel).run Run.Machine.start).1 with
  | .ok v | .error (.returned v) => return v
  | .error (.failed e) => throw e.message
  | .error .outOfFuel => throw "out of fuel"

/-- A document and the end of its line. -/
def document (j : Json) : String :=
  j.pretty ++ "\n"

/-- The text of a result. -/
def resultText (u : LoweredUnit) (format : Format) (v : Run.Val) : String :=
  match format, v with
  | .pretty, .unit => "Program completed successfully.\n"
  | .pretty, v => "main() = " ++ v.text ++ "\n"
  | .json, v => document <| .object
      [("unit", .text u.unit), ("generation", .nat u.generation), ("result", .text v.text)]

/-- What a command line prints. -/
def Line.exec (files : Files m) (fuel : Nat) (line : Line) : Result m String := do
  match line.action with
  | .parse =>
    let source ← readModule files line.file
    match line.format with
    | .pretty => return source.outline.spread 0 ++ "\n"
    | .json => return document source.toJson
  | .lower =>
    let u ← lowerFile files line
    match line.format with
    | .pretty => return u.text
    | .json => return document u.toJson
  | .run =>
    let u ← lowerFile files line
    return resultText u line.format (← runLowered u fuel)

end ClosureEnv.Command
