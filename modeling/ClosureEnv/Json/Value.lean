/-!
# JSON values

Values as a document writes them: a number keeps its written form, and an object keeps the order
and the repetitions of its keys.
-/

namespace ClosureEnv

/-- A number as it is written: the sign, the whole part, and the text of the fraction and the
exponent. -/
structure Number where
  /-- Whether a minus sign stands in front. -/
  negative : Bool
  /-- The whole part. -/
  whole : Nat
  /-- The fraction and the exponent, as written; empty when there is neither. -/
  rest : String
  deriving DecidableEq, Repr

/-- A JSON value. -/
inductive Json where
  | null
  | bool (value : Bool)
  | number (value : Number)
  | text (value : String)
  /-- A text with an escape that names half of a character, so that it has no content. -/
  | unpaired
  | list (items : List Json)
  | object (fields : List (String × Json))
  deriving Repr, Inhabited

namespace Json

/-- A natural number, written without fraction and exponent. -/
def nat (n : Nat) : Json :=
  number ⟨false, n, ""⟩

/-- An integer, written without fraction and exponent. -/
def int (n : Int) : Json :=
  number ⟨n < 0, n.natAbs, ""⟩

/-- The value, or null when there is none. -/
def ofOption (f : α → Json) : Option α → Json
  | none => null
  | some x => f x

/-- A value under a single key. -/
def tagged (key : String) (value : Json) : Json :=
  object [(key, value)]

/-- The natural number that the value writes without sign, fraction and exponent. -/
def toNat? : Json → Option Nat
  | number ⟨false, n, ""⟩ => some n
  | _ => none

/-- The content of a text. -/
def toText? : Json → Option String
  | text s => some s
  | _ => none

/-- The value of a truth value. -/
def toBool? : Json → Option Bool
  | bool b => some b
  | _ => none

/-- The first value under a key of an object. -/
def find? (key : String) : Json → Option Json
  | object fields => (fields.find? fun f => f.1 == key).map Prod.snd
  | _ => none

/-- Reading back a written natural number. -/
@[simp] theorem toNat?_nat (n : Nat) : (nat n).toNat? = some n := rfl

end Json

end ClosureEnv
