/-!
# Outlines

A value of nested named parts, and its two written forms: on one line, and spread with one part
to a line, four spaces to a level and a comma after every part.
-/

namespace ClosureEnv.Text

/-- A value of nested named parts. -/
inductive Outline where
  /-- A part written as it is. -/
  | atom (text : String)
  /-- A name over parts in parentheses. -/
  | tuple (name : String) (parts : List Outline)
  /-- A name over named parts in braces. -/
  | record (name : String) (fields : List (String × Outline))
  /-- Parts in brackets. -/
  | list (parts : List Outline)

namespace Outline

/-- A number. -/
def nat (n : Nat) : Outline :=
  atom (toString n)

/-- A truth value. -/
def bool (b : Bool) : Outline :=
  atom (if b then "true" else "false")

/-- A part that may be absent. -/
def option : Option Outline → Outline
  | none => atom "None"
  | some x => tuple "Some" [x]

mutual

/-- The outline on one line. -/
def inline : Outline → String
  | atom s => s
  | tuple name parts => name ++ "(" ++ ", ".intercalate (inlineParts parts) ++ ")"
  | record name fields =>
    name ++ " \x7b " ++ ", ".intercalate (inlineFields fields) ++ " \x7d"
  | list parts => "[" ++ ", ".intercalate (inlineParts parts) ++ "]"

/-- Each part on one line. -/
def inlineParts : List Outline → List String
  | [] => []
  | x :: xs => inline x :: inlineParts xs

/-- Each named part on one line, after its name. -/
def inlineFields : List (String × Outline) → List String
  | [] => []
  | (name, x) :: xs => (name ++ ": " ++ inline x) :: inlineFields xs

end

/-- The start of a line at a level. -/
def margin (level : Nat) : String :=
  String.ofList (List.replicate (4 * level) ' ')

mutual

/-- The outline with one part to a line, its first line unindented and its parts one level below
`level`. -/
def spread (level : Nat) : Outline → String
  | atom s => s
  | tuple name parts => name ++ "(\n" ++ spreadParts level parts ++ margin level ++ ")"
  | record name fields =>
    name ++ " \x7b\n" ++ spreadFields level fields ++ margin level ++ "\x7d"
  | list [] => "[]"
  | list (x :: xs) => "[\n" ++ spreadParts level (x :: xs) ++ margin level ++ "]"

/-- The lines of the parts. -/
def spreadParts (level : Nat) : List Outline → String
  | [] => ""
  | x :: xs => margin (level + 1) ++ spread (level + 1) x ++ ",\n" ++ spreadParts level xs

/-- The lines of the named parts. -/
def spreadFields (level : Nat) : List (String × Outline) → String
  | [] => ""
  | (name, x) :: xs =>
    margin (level + 1) ++ name ++ ": " ++ spread (level + 1) x ++ ",\n" ++ spreadFields level xs

end

end Outline

end ClosureEnv.Text
