/-!
# Sorted sets

Finite sets as strictly increasing lists: a set has one such list, which is the order in which it
is shown. `mem_ofList` and `pairwise_ofList` say that `ofList` has the members of a list, in order.
-/

namespace ClosureEnv.SortedSet

variable {α : Type} [Ord α]

/-- Adds a member. -/
def insert (x : α) : List α → List α
  | [] => [x]
  | y :: ys =>
    match compare x y with
    | .lt => x :: y :: ys
    | .eq => y :: ys
    | .gt => y :: insert x ys

/-- The members of a list, in order. -/
def ofList (xs : List α) : List α :=
  xs.foldl (fun set x => insert x set) []

/-- The members of two sets. -/
def union (xs ys : List α) : List α :=
  ys.foldl (fun set x => insert x set) xs

variable [Std.LawfulEqOrd α]

/-- Adding a member adds that member only. -/
@[simp] theorem mem_insert {x y : α} {xs : List α} : y ∈ insert x xs ↔ y = x ∨ y ∈ xs := by
  induction xs with
  | nil => simp [insert]
  | cons z zs ih =>
    simp only [insert]
    split
    · simp
    · next h =>
      have : x = z := Std.LawfulEqOrd.eq_of_compare h
      simp [this]
    · simp [ih, or_left_comm]

/-- A union has the members of both sets. -/
@[simp] theorem mem_union {y : α} {xs ys : List α} : y ∈ union xs ys ↔ y ∈ xs ∨ y ∈ ys := by
  unfold union
  induction ys generalizing xs with
  | nil => simp
  | cons z zs ih => simp [ih, or_assoc, or_comm, or_left_comm]

/-- The set of a list has its members. -/
@[simp] theorem mem_ofList {y : α} {xs : List α} : y ∈ ofList xs ↔ y ∈ xs := by
  rw [show ofList xs = union [] xs from rfl, mem_union]
  simp

variable [Std.TransOrd α]

/-- Adding a member keeps the order. -/
theorem pairwise_insert {x : α} {xs : List α} (h : xs.Pairwise fun a b => compare a b = .lt) :
    (insert x xs).Pairwise fun a b => compare a b = .lt := by
  induction xs with
  | nil => simp [insert]
  | cons z zs ih =>
    rw [List.pairwise_cons] at h
    simp only [insert]
    split
    · next hlt =>
      refine List.pairwise_cons.2 ⟨fun a ha => ?_, List.pairwise_cons.2 h⟩
      rcases List.mem_cons.1 ha with rfl | ha
      · exact hlt
      · exact Std.TransCmp.lt_trans hlt (h.1 a ha)
    · exact List.pairwise_cons.2 h
    · next hgt =>
      refine List.pairwise_cons.2 ⟨fun a ha => ?_, ih h.2⟩
      rcases mem_insert.1 ha with rfl | ha
      · exact Std.OrientedCmp.gt_iff_lt.1 hgt
      · exact h.1 a ha

/-- The set of a list is in order. -/
theorem pairwise_ofList (xs : List α) :
    (ofList xs).Pairwise fun a b => compare a b = .lt := by
  have h (set : List α) (hs : set.Pairwise fun a b => compare a b = .lt) :
      (union set xs).Pairwise fun a b => compare a b = .lt := by
    unfold union
    induction xs generalizing set with
    | nil => exact hs
    | cons z zs ih => exact ih _ (pairwise_insert hs)
  exact h [] List.Pairwise.nil

end ClosureEnv.SortedSet
