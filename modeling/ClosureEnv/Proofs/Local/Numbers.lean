import ClosureEnv.Proofs.Scope.Chain
import Mathlib.Data.List.Forall2

/-!
# Numbers that stand for each other

The parts of one function have other numbers in another tree, in the same order. A relation between
numbers that keeps their order (`InOrder`) and leads from parents to parents (`SameParents`) tells
the same of what is around what.
-/

namespace ClosureEnv

/-- Related lists have something related in them. -/
theorem exists_of_forall₂ {α β : Type} {r : α → β → Prop} {xs : List α} {ys : List β}
    (h : List.Forall₂ r xs ys) {x : α} (hx : x ∈ xs) : ∃ y ∈ ys, r x y := by
  induction h with
  | nil => cases hx
  | cons hxy _ ih =>
    rcases List.mem_cons.mp hx with rfl | hx
    · exact ⟨_, List.mem_cons_self, hxy⟩
    · obtain ⟨y, hy, hxy⟩ := ih hx
      exact ⟨y, List.mem_cons_of_mem _ hy, hxy⟩

/-- Without their first elements, related lists are related. -/
theorem forall₂_tail {α β : Type} {r : α → β → Prop} {xs : List α} {ys : List β}
    (h : List.Forall₂ r xs ys) : List.Forall₂ r xs.tail ys.tail := by
  cases h with
  | nil => exact .nil
  | cons _ h => exact h

/-- Related options are related the other way round. -/
theorem rel_flip {α β : Type} {r : α → β → Prop} {a : Option α} {b : Option β}
    (h : Option.Rel r a b) : Option.Rel (fun y x => r x y) b a := by
  cases h with
  | some h => exact .some h
  | none => exact .none

/-- What is related to something is something. -/
theorem exists_of_rel {α β : Type} {r : α → β → Prop} {a : Option α} {b : Option β} {x : α}
    (h : Option.Rel r a b) (ha : a = some x) : ∃ y, b = some y ∧ r x y := by
  subst ha
  cases h with
  | some h => exact ⟨_, rfl, h⟩

/-- A relation between numbers that keeps their order. -/
def InOrder (r : Nat → Nat → Prop) : Prop :=
  ∀ i j i' j', r i j → r i' j' → (i < i' ↔ j < j')

namespace InOrder

variable {r : Nat → Nat → Prop}

/-- The other way round the order is kept too. -/
theorem flip (h : InOrder r) : InOrder fun i j => r j i :=
  fun i j i' j' hi hj => (h j i j' i' hi hj).symm

/-- Different numbers stand for different numbers. -/
theorem eq_iff (h : InOrder r) {i j i' j' : Nat} (hi : r i j) (hj : r i' j') :
    i = i' ↔ j = j' := by
  have h₁ := h i j i' j' hi hj
  have h₂ := h i' j' i j hj hi
  omega

/-- Increasing lists with the same members but for their numbers are the same but for them. -/
theorem forall₂ (h : InOrder r) : ∀ {xs ys : List Nat}, xs.Pairwise (· < ·) →
    ys.Pairwise (· < ·) → (∀ x ∈ xs, ∃ y ∈ ys, r x y) → (∀ y ∈ ys, ∃ x ∈ xs, r x y) →
    List.Forall₂ r xs ys
  | [], ys, _, _, _, hys => by
    cases ys with
    | nil => exact .nil
    | cons y ys =>
      obtain ⟨x, hx, -⟩ := hys y List.mem_cons_self
      cases hx
  | x :: xs, [], _, _, hxs, _ => by
    obtain ⟨y, hy, -⟩ := hxs x List.mem_cons_self
    cases hy
  | x :: xs, y :: ys, hx, hy, hxs, hys => by
    rw [List.pairwise_cons] at hx hy
    -- the least numbers of the two lists stand for each other
    have hxy : r x y := by
      obtain ⟨y', hy', hxy'⟩ := hxs x List.mem_cons_self
      obtain ⟨x', hx', hxy⟩ := hys y List.mem_cons_self
      rcases List.mem_cons.mp hy' with rfl | hy'
      · exact hxy'
      rcases List.mem_cons.mp hx' with rfl | hx'
      · exact hxy
      exact absurd ((h x' y x y' hxy hxy').mpr (hy.1 y' hy')) (Nat.not_lt_of_gt (hx.1 x' hx'))
    refine .cons hxy (h.forall₂ hx.2 hy.2 (fun x' hx' => ?_) fun y' hy' => ?_)
    · obtain ⟨y', hy', hxy'⟩ := hxs x' (List.mem_cons_of_mem _ hx')
      have hlt := (h x y x' y' hxy hxy').mp (hx.1 x' hx')
      exact ⟨y', (List.mem_cons.mp hy').resolve_left (Nat.ne_of_gt hlt), hxy'⟩
    · obtain ⟨x', hx', hxy'⟩ := hys y' (List.mem_cons_of_mem _ hy')
      have hlt := (h x y x' y' hxy hxy').mpr (hy.1 y' hy')
      exact ⟨x', (List.mem_cons.mp hx').resolve_left (Nat.ne_of_gt hlt), hxy'⟩

end InOrder

/-- Scopes that stand for each other have parents that do, or none. -/
structure SameParents (r : Nat → Nat → Prop) (xs ys : Array Scope) : Prop where
  order : InOrder r
  parent : ∀ i j, r i j → Option.Rel r (parentIn? xs i) (parentIn? ys j)

namespace SameParents

variable {r : Nat → Nat → Prop} {xs ys : Array Scope}

/-- The trees may change places. -/
theorem flip (h : SameParents r xs ys) : SameParents (fun i j => r j i) ys xs :=
  ⟨h.order.flip, fun i j hij => rel_flip (h.parent j i hij)⟩

variable (h : SameParents r xs ys) (hx : Preorder xs) (hy : Preorder ys)

include h hx hy

/-- What is around a scope stands for something around its counterpart. -/
theorem exists_around {i : Nat} : ∀ {j o : Nat}, r i j → Around xs o i →
    ∃ o', r o o' ∧ Around ys o' j := by
  induction i using Nat.strongRecOn with
  | ind i ih =>
    intro j o hij ho
    obtain ⟨p, hp, hop⟩ := (around_iff hx).mp ho
    obtain ⟨q, hq, hpq⟩ := exists_of_rel (h.parent i j hij) hp
    rcases hop with rfl | hop
    · exact ⟨q, hpq, around_parent hy hq⟩
    · obtain ⟨o', hoo, ho'⟩ := ih p (hx i p hp) hpq hop
      exact ⟨o', hoo, around_of_parent hy hq (.inr ho')⟩

/-- Being around is the same in both trees. -/
theorem around_iff {i j o o' : Nat} (hij : r i j) (hoo : r o o') :
    Around xs o i ↔ Around ys o' j := by
  constructor
  · intro ho
    obtain ⟨o'', hoo', ho'⟩ := h.exists_around hx hy hij ho
    rwa [(h.order.eq_iff hoo hoo').mp rfl]
  · intro ho
    obtain ⟨o'', hoo', ho'⟩ := h.flip.exists_around hy hx hij ho
    rwa [(h.order.eq_iff hoo hoo').mpr rfl]

/-- Being at or around is the same in both trees. -/
theorem aroundEq_iff {i j o o' : Nat} (hij : r i j) (hoo : r o o') :
    AroundEq xs o i ↔ AroundEq ys o' j :=
  or_congr (h.order.eq_iff hoo hij) (h.around_iff hx hy hij hoo)

end SameParents

end ClosureEnv
