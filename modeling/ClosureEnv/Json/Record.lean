import ClosureEnv.Json.Value

/-!
# Records in JSON

How a value of several named parts, or one of several variants, is read from JSON: a record is an
object, or an array of its parts in their order; a variant is its name, or an object from its name
to its content. A reader takes the number of arrays and objects that may still be opened.
-/

namespace ClosureEnv.Json

/-- How many arrays and objects may be open at once. -/
def maxOpen : Nat :=
  127

/-- What is under a key: nothing, or the one value; a key that is written twice is refused. -/
def single? (key : String) (fields : List (String × Json)) : Option (Option Json) :=
  match fields.filter fun f => f.1 == key with
  | [] => some none
  | [f] => some (some f.2)
  | _ => none

/-- The parts of a record by their names, in the order of `names`. Other keys are passed over. -/
def parts? (names : List String) : Json → Option (List (Option Json))
  | object fields => names.mapM fun name => single? name fields
  | list items =>
    if items.length ≤ names.length then
      some (items.map some ++ List.replicate (names.length - items.length) none)
    else none
  | _ => none

/-- The name of a variant without content. -/
def variant? (room : Nat) : Json → Option String
  | text name => some name
  | object [(name, null)] => if room == 0 then none else some name
  | _ => none

/-- The items of an array, each read with one level less. -/
def items? (read : Nat → Json → Option α) : Nat → Json → Option (List α)
  | room + 1, list items => items.mapM (read room)
  | _, _ => none

/-- The pair that an array of two items holds. -/
def pair? {α β : Type} (first : Nat → Json → Option α) (second : Nat → Json → Option β) :
    Nat → Json → Option (α × β)
  | room + 1, list [x, y] => do return (← first room x, ← second room y)
  | _, _ => none

/-- A natural number of at most 32 bits. -/
def word32? (j : Json) : Option Nat :=
  j.toNat?.filter (· < 0x100000000)

/-- A text, or null for none. -/
def optionText? : Json → Option (Option String)
  | null => some none
  | text s => some (some s)
  | _ => none

end ClosureEnv.Json
