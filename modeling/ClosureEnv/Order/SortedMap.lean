/-!
# Sorted maps

Finite maps as lists of pairs with strictly increasing keys: a map has one such list, which is the
order in which it is shown. `find?_insert` says what writing does to reading.
-/

namespace ClosureEnv

/-- A finite map, as its pairs in the order of the keys. -/
abbrev SortedMap (κ β : Type) := List (κ × β)

namespace SortedMap

variable {κ β : Type} [Ord κ]

/-- Writes a key, over what it held. -/
def insert (k : κ) (v : β) : SortedMap κ β → SortedMap κ β
  | [] => [(k, v)]
  | (l, w) :: rest =>
    match compare k l with
    | .lt => (k, v) :: (l, w) :: rest
    | .eq => (k, v) :: rest
    | .gt => (l, w) :: insert k v rest

/-- What a key holds. -/
def find? (k : κ) : SortedMap κ β → Option β
  | [] => none
  | (l, w) :: rest => if compare k l == .eq then some w else find? k rest

/-- Removes a key. -/
def erase (k : κ) (m : SortedMap κ β) : SortedMap κ β :=
  m.filter fun e => compare k e.1 != .eq

/-- Whether a key holds something. -/
def contains (k : κ) (m : SortedMap κ β) : Bool :=
  (m.find? k).isSome

/-- The keys, in order. -/
def keys (m : SortedMap κ β) : List κ :=
  m.map Prod.fst

/-- The map of some pairs, the last of a key winning. -/
def ofList (entries : List (κ × β)) : SortedMap κ β :=
  entries.foldl (fun m e => m.insert e.1 e.2) []

variable [Std.LawfulEqOrd κ]

/-- Writing a key changes what that key holds, and no other. -/
theorem find?_insert (k l : κ) (v : β) (m : SortedMap κ β) :
    (insert k v m).find? l = if compare l k == .eq then some v else m.find? l := by
  induction m with
  | nil => simp [insert, find?]
  | cons e rest ih =>
    obtain ⟨n, w⟩ := e
    simp only [insert]
    split
    · simp [find?]
    · next h =>
      have : k = n := Std.LawfulEqOrd.eq_of_compare h
      subst this
      by_cases hl : compare l k = .eq <;> simp [find?, hl]
    · next h =>
      simp only [find?, ih]
      -- A search that ends at the head is not one for `k`, which lies further on.
      by_cases hn : compare l n = .eq
      · have : l = n := Std.LawfulEqOrd.eq_of_compare hn
        subst this
        have : compare l k ≠ .eq := by
          intro hk
          have : l = k := Std.LawfulEqOrd.eq_of_compare hk
          subst this
          simp [Std.ReflCmp.compare_self] at h
        simp [this]
      · simp [hn]

end SortedMap

end ClosureEnv
