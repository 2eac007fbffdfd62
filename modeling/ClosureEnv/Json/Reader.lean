import ClosureEnv.Json.Value

/-!
# Reading JSON

The strict grammar of RFC 8259: no leading zeros, no trailing commas, no raw controls in a text,
and nothing after the document.
-/

namespace ClosureEnv.Json

/-- What is left after the blanks between tokens. -/
def skipBlanks : List Char → List Char
  | [] => []
  | c :: cs =>
    if c == ' ' || c == '\n' || c == '\t' || c == '\r' then skipBlanks cs else c :: cs

/-- The value of a hexadecimal digit. -/
def hexDigit? (c : Char) : Option Nat :=
  if '0' ≤ c ∧ c ≤ '9' then some (c.toNat - '0'.toNat)
  else if 'a' ≤ c ∧ c ≤ 'f' then some (c.toNat - 'a'.toNat + 10)
  else if 'A' ≤ c ∧ c ≤ 'F' then some (c.toNat - 'A'.toNat + 10)
  else none

/-- The number that four hexadecimal digits write. -/
def hex4? (a b c d : Char) : Option Nat := do
  let a ← hexDigit? a
  let b ← hexDigit? b
  let c ← hexDigit? c
  let d ← hexDigit? d
  return ((a * 16 + b) * 16 + c) * 16 + d

/-- The character that a backslash and a letter stand for. -/
def escape? : Char → Option Char
  | '"' => some '"'
  | '\\' => some '\\'
  | '/' => some '/'
  | 'b' => some '\x08'
  | 'f' => some '\x0c'
  | 'n' => some '\n'
  | 'r' => some '\r'
  | 't' => some '\t'
  | _ => none

/-- A text after its opening quote. `done` is what was read, last character first; it is absent
once an escape named half of a character. -/
def readText (done : Option (List Char)) : List Char → Option (Option String × List Char)
  | [] => none
  | '"' :: cs => some (done.map fun d => String.ofList d.reverse, cs)
  | '\\' :: 'u' :: a :: b :: c :: d :: '\\' :: 'u' :: e :: f :: g :: h :: cs =>
    match hex4? a b c d, hex4? e f g h with
    | some high, some low =>
      if 0xD800 ≤ high ∧ high < 0xDC00 ∧ 0xDC00 ≤ low ∧ low < 0xE000 then
        readText (done.map (Char.ofNat (0x10000 + (high - 0xD800) * 0x400 + (low - 0xDC00)) :: ·))
          cs
      else if 0xD800 ≤ high ∧ high < 0xE000 then
        readText none ('\\' :: 'u' :: e :: f :: g :: h :: cs)
      else
        readText (done.map (Char.ofNat high :: ·)) ('\\' :: 'u' :: e :: f :: g :: h :: cs)
    | _, _ => none
  | '\\' :: 'u' :: a :: b :: c :: d :: cs =>
    match hex4? a b c d with
    | some n =>
      if 0xD800 ≤ n ∧ n < 0xE000 then readText none cs
      else readText (done.map (Char.ofNat n :: ·)) cs
    | none => none
  | '\\' :: c :: cs =>
    match escape? c with
    | some x => readText (done.map (x :: ·)) cs
    | none => none
  | c :: cs => if c.toNat < 0x20 then none else readText (done.map (c :: ·)) cs

/-- The digits at the front, and what is left. -/
def readDigits (done : List Char) : List Char → List Char × List Char
  | [] => (done.reverse, [])
  | c :: cs => if c.isDigit then readDigits (c :: done) cs else (done.reverse, c :: cs)

/-- The number that decimal digits write. -/
def digitsValue (digits : List Char) : Nat :=
  digits.foldl (fun n c => n * 10 + (c.toNat - '0'.toNat)) 0

/-- The fraction at the front: a point and at least one digit, or nothing. -/
def readFraction (cs : List Char) : Option (List Char × List Char) :=
  match cs with
  | '.' :: cs =>
    match readDigits [] cs with
    | ([], _) => none
    | (digits, rest) => some ('.' :: digits, rest)
  | cs => some ([], cs)

/-- The exponent at the front: a letter, a sign or none, and at least one digit, or nothing. -/
def readExponent (cs : List Char) : Option (List Char × List Char) :=
  match cs with
  | c :: cs =>
    if c == 'e' || c == 'E' then
      let (sign, cs) := match cs with
        | '+' :: cs => (['+'], cs)
        | '-' :: cs => (['-'], cs)
        | cs => ([], cs)
      match readDigits [] cs with
      | ([], _) => none
      | (digits, rest) => some (c :: sign ++ digits, rest)
    else some ([], c :: cs)
  | [] => some ([], [])

/-- A number after its sign. -/
def readNumber (negative : Bool) (cs : List Char) : Option (Json × List Char) := do
  let (digits, cs) := readDigits [] cs
  if digits.isEmpty then none
  else if digits.head? == some '0' && digits.length != 1 then none
  else
    let (fraction, cs) ← readFraction cs
    let (exponent, cs) ← readExponent cs
    return (number ⟨negative, digitsValue digits, String.ofList (fraction ++ exponent)⟩, cs)

/-- What is left after a word. -/
def dropWord (word : List Char) (cs : List Char) : Option (List Char) :=
  if word.isPrefixOf cs then some (cs.drop word.length) else none

mutual

/-- A value at the front, after any blanks. A document needs no more steps than it has
characters. -/
def readValue : Nat → List Char → Option (Json × List Char)
  | 0, _ => none
  | fuel + 1, cs =>
    match skipBlanks cs with
    | [] => none
    | '"' :: cs => (readText (some []) cs).map fun (s, rest) => ((s.map text).getD unpaired, rest)
    | '[' :: cs =>
      match skipBlanks cs with
      | ']' :: rest => some (list [], rest)
      | cs => (readItems fuel [] cs).map fun (items, rest) => (list items, rest)
    | '\x7b' :: cs =>
      match skipBlanks cs with
      | '\x7d' :: rest => some (object [], rest)
      | cs =>
        (readFields fuel (some []) cs).map fun (fields, rest) =>
          ((fields.map object).getD unpaired, rest)
    | '-' :: cs => readNumber true cs
    | 't' :: cs => (dropWord "rue".toList cs).map (bool true, ·)
    | 'f' :: cs => (dropWord "alse".toList cs).map (bool false, ·)
    | 'n' :: cs => (dropWord "ull".toList cs).map (null, ·)
    | cs => readNumber false cs

/-- Items up to the closing bracket, at least one. -/
def readItems : Nat → List Json → List Char → Option (List Json × List Char)
  | 0, _, _ => none
  | fuel + 1, done, cs =>
    match readValue fuel cs with
    | none => none
    | some (v, rest) =>
      match skipBlanks rest with
      | ',' :: rest => readItems fuel (v :: done) rest
      | ']' :: rest => some ((v :: done).reverse, rest)
      | _ => none

/-- Fields up to the closing brace, at least one; none are left where a key holds half of a
character. -/
def readFields : Nat → Option (List (String × Json)) → List Char →
    Option (Option (List (String × Json)) × List Char)
  | 0, _, _ => none
  | fuel + 1, done, cs =>
    match skipBlanks cs with
    | '"' :: cs =>
      match readText (some []) cs with
      | some (key, rest) =>
        match skipBlanks rest with
        | ':' :: rest =>
          match readValue fuel rest with
          | none => none
          | some (v, rest) =>
            let done := do return (← key, v) :: (← done)
            match skipBlanks rest with
            | ',' :: rest => readFields fuel done rest
            | '\x7d' :: rest => some (done.map List.reverse, rest)
            | _ => none
        | _ => none
      | none => none
    | _ => none

end

/-- The value of a whole document. -/
def read (document : String) : Option Json :=
  let cs := document.toList
  match readValue (cs.length + 1) cs with
  | some (v, rest) => if (skipBlanks rest).isEmpty then some v else none
  | none => none

end ClosureEnv.Json
