import ClosureEnv.Json.Value
import ClosureEnv.Text.Quoted

/-!
# JSON text

The two written forms of a value: without any space, and with one element to a line, two spaces
to a level.
-/

namespace ClosureEnv.Json

/-- One character of a JSON text: the quote, the backslash and the controls are escaped, all
others stand for themselves. -/
def escapedChar (c : Char) : String :=
  match c with
  | '"' => "\\\""
  | '\\' => "\\\\"
  | '\n' => "\\n"
  | '\r' => "\\r"
  | '\t' => "\\t"
  | '\x08' => "\\b"
  | '\x0c' => "\\f"
  | c =>
    if c.toNat < 0x20 then
      (if c.toNat < 0x10 then "\\u000" else "\\u00") ++ Text.hex c.toNat
    else c.toString

/-- The text between double quotes. -/
def quote (s : String) : String :=
  "\"" ++ s.foldl (fun out c => out ++ escapedChar c) "" ++ "\""

/-- The digits of a number, as they were written. -/
def numberText (n : Number) : String :=
  (if n.negative then "-" else "") ++ toString n.whole ++ n.rest

mutual

/-- The value without any space. -/
def compact : Json → String
  | null => "null"
  | bool b => if b then "true" else "false"
  | number n => numberText n
  | text s => quote s
  | unpaired => "null"
  | list items => "[" ++ ",".intercalate (compactItems items) ++ "]"
  | object fields => "\x7b" ++ ",".intercalate (compactFields fields) ++ "\x7d"

/-- Each item without any space. -/
def compactItems : List Json → List String
  | [] => []
  | x :: xs => compact x :: compactItems xs

/-- Each field without any space. -/
def compactFields : List (String × Json) → List String
  | [] => []
  | (key, x) :: xs => (quote key ++ ":" ++ compact x) :: compactFields xs

end

/-- The start of a line at a level. -/
def margin (level : Nat) : String :=
  String.ofList (List.replicate (2 * level) ' ')

mutual

/-- The value with one element to a line, its first line unindented and its elements one level
below `level`. -/
def indented (level : Nat) : Json → String
  | null => "null"
  | bool b => if b then "true" else "false"
  | number n => numberText n
  | text s => quote s
  | unpaired => "null"
  | list [] => "[]"
  | list (x :: xs) =>
    "[\n" ++ ",\n".intercalate (indentedItems (level + 1) (x :: xs)) ++ "\n" ++ margin level ++ "]"
  | object [] => "\x7b\x7d"
  | object (f :: fs) =>
    "\x7b\n" ++ ",\n".intercalate (indentedFields (level + 1) (f :: fs)) ++ "\n" ++ margin level
      ++ "\x7d"

/-- The lines of the items. -/
def indentedItems (level : Nat) : List Json → List String
  | [] => []
  | x :: xs => (margin level ++ indented level x) :: indentedItems level xs

/-- The lines of the fields. -/
def indentedFields (level : Nat) : List (String × Json) → List String
  | [] => []
  | (key, x) :: xs =>
    (margin level ++ quote key ++ ": " ++ indented level x) :: indentedFields level xs

end

/-- The value as a document of its own. -/
def pretty (v : Json) : String :=
  indented 0 v

end ClosureEnv.Json
