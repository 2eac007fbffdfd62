import ClosureEnv.Plan.Candidate
import ClosureEnv.Text.Lines

/-!
# Command lines

What a command line asks for. Options may stand anywhere, with their value behind them or behind an
equals sign, up to two dashes that stand alone: nothing after those is an option.
-/

namespace ClosureEnv.Command

/-- How a result is written. -/
inductive Format where
  | pretty | json
  deriving DecidableEq, Repr, Inhabited

/-- What is to be done with a source file. -/
inductive Action where
  | parse | lower | run
  deriving DecidableEq, Repr, Inhabited

/-- A command line. -/
structure Line where
  action : Action
  /-- The path of the source file. -/
  file : String
  format : Format
  options : LowerOptions
  /-- Where to read what the generation before left. -/
  baseline : Option String
  /-- Where to write what this generation leaves. -/
  emitBaseline : Option String
  /-- Which messages are logged. -/
  log : Option String
  deriving DecidableEq, Repr, Inhabited

/-- The action of a name. -/
def Action.ofName? : String → Option Action
  | "parse" => some .parse
  | "lower" => some .lower
  | "run" => some .run
  | _ => none

/-- The format of a name. -/
def Format.ofName? : String → Option Format
  | "pretty" => some .pretty
  | "json" => some .json
  | _ => none

/-- The words of a command line as they are read: what has no name, by order, and the options. -/
structure Words where
  plain : List String
  flags : List String
  settings : List (String × String)

/-- The options that have a value. -/
def settingNames : List String :=
  ["--format", "--baseline", "--emit-baseline", "--log"]

/-- The option and the value of a word that holds both. -/
def joined? (word : String) : Option (String × String) :=
  match word.toList.span (· != '=') with
  | (name, '=' :: value) =>
    if settingNames.contains (String.ofList name) then
      some (String.ofList name, String.ofList value)
    else none
  | _ => none

/-- Sorts the words of a command line. -/
def Words.ofArgs : List String → Words
  | [] => ⟨[], [], []⟩
  | [w] =>
    match joined? w with
    | some setting => ⟨[], [], [setting]⟩
    | none => if w.startsWith "--" then ⟨[], [w], []⟩ else ⟨[w], [], []⟩
  | w :: v :: rest =>
    if w == "--" then ⟨v :: rest, [], []⟩
    else if settingNames.contains w then
      let words := ofArgs rest
      { words with settings := (w, v) :: words.settings }
    else
      let words := ofArgs (v :: rest)
      match joined? w with
      | some setting => { words with settings := setting :: words.settings }
      | none =>
        if w.startsWith "--" then { words with flags := w :: words.flags }
        else { words with plain := w :: words.plain }

/-- The value of an option, if it is given. -/
def Words.setting? (w : Words) (name : String) : Option String :=
  (w.settings.find? (·.1 == name)).map Prod.snd

/-- Reads a command line. -/
def Line.ofArgs? (args : List String) : Option Line := do
  let words := Words.ofArgs args
  match words.plain with
  | [action, file] =>
    return {
      action := ← Action.ofName? action
      file
      format := ← Format.ofName? ((words.setting? "--format").getD "pretty")
      options := {
        merge := if words.flags.contains "--merge" then .contained else .never
        incremental := words.flags.contains "--incremental" }
      baseline := words.setting? "--baseline"
      emitBaseline := words.setting? "--emit-baseline"
      log := words.setting? "--log" }
  | _ => none

/-- Text without the blanks at its ends. -/
def trimmed (s : String) : String :=
  String.ofList ((s.toList.dropWhile Text.isBlank).reverse.dropWhile Text.isBlank).reverse

/-- Which messages are logged: as the command line says, or else as the environment says; warnings
where that is blank. -/
def logFilter (flag environment : Option String) : String :=
  match (flag.or environment).map trimmed with
  | none | some "" => "warn"
  | some filter => filter

/-- The name of the unit in a file: the last part of the path, without its last extension. -/
def unitName (path : String) : String :=
  let parts := (path.splitOn "/").filter fun p => p != "" && p != "."
  match parts.getLast? with
  | none | some ".." => "main"
  | some name =>
    match name.toList.reverse.span (· != '.') with
    | (_, '.' :: stem) => if stem.isEmpty then name else String.ofList stem.reverse
    | _ => name

end ClosureEnv.Command
