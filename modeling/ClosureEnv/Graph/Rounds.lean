/-!
# Nodes by rounds

The nodes of a finite graph that can be reached from some roots: each round adds the successors that
are new, and one that adds none ends the search. And the nodes that are left when every node goes to
which neither a root nor a node that is left leads; nodes on a cycle support one another.
-/

namespace ClosureEnv.Graph

/-- The nodes of `seen` and what `bound` rounds add to them. -/
def spread (next : Nat → List Nat) : Nat → List Nat → List Nat
  | 0, seen => seen
  | bound + 1, seen =>
    let new := ((seen.flatMap next).filter fun x => !seen.contains x).eraseDups
    if new.isEmpty then seen else spread next bound (seen ++ new)

/-- The nodes that can be reached from the roots in a graph of at most `size` nodes: every round
but the last adds one. -/
def reachable (next : Nat → List Nat) (size : Nat) (roots : List Nat) : List Nat :=
  spread next size roots.eraseDups

/-- Rounds only add nodes. -/
theorem subset_spread (next : Nat → List Nat) (bound : Nat) (seen : List Nat) :
    seen ⊆ spread next bound seen := by
  induction bound generalizing seen with
  | zero => simp [spread]
  | succ n ih =>
    simp only [spread]
    split
    · simp
    · exact fun x hx => ih _ (by simp [hx])

/-! ## Supported nodes -/

/-- The nodes below `size` that are in a list, as marks. -/
def marks (size : Nat) (nodes : List Nat) : Array Bool :=
  nodes.foldl (fun ms x => ms.setIfInBounds x true) (.replicate size false)

/-- The nodes of `left` that are roots or that some node of `left` leads to. -/
def stillSupported (next : Nat → List Nat) (size : Nat) (roots left : List Nat) : List Nat :=
  let ms := marks size (roots ++ left.flatMap next)
  left.filter fun x => ms[x]? == some true

/-- What is left of `left` after at most `bound` rounds; one that takes nothing away is the
last. -/
def settle (next : Nat → List Nat) (size : Nat) (roots : List Nat) : Nat → List Nat → List Nat
  | 0, left => left
  | bound + 1, left =>
    let kept := stillSupported next size roots left
    if kept.length == left.length then left else settle next size roots bound kept

/-- The supported nodes of a graph of `size` nodes: every round but the last takes one away. -/
def supported (next : Nat → List Nat) (size : Nat) (roots : List Nat) : List Nat :=
  settle next size roots size (List.range size)

/-- Exactly the nodes of the list that are in range are marked. -/
theorem getElem?_marks (size : Nat) (nodes : List Nat) (x : Nat) :
    (marks size nodes)[x]? = some true ↔ x < size ∧ x ∈ nodes := by
  suffices h : ∀ (ms : Array Bool), (nodes.foldl (fun ms x => ms.setIfInBounds x true) ms)[x]?
      = some true ↔ ms[x]? = some true ∨ (x < ms.size ∧ x ∈ nodes) by
    rw [marks, h]
    simp [Array.getElem?_replicate]
  intro ms
  induction nodes generalizing ms with
  | nil => simp
  | cons y ys ih =>
    simp only [List.foldl_cons, ih, Array.size_setIfInBounds, List.mem_cons,
      Array.getElem?_setIfInBounds]
    grind

/-- A round keeps the nodes that are supported by what was left. -/
theorem mem_stillSupported {next : Nat → List Nat} {size : Nat} {roots left : List Nat} {x : Nat} :
    x ∈ stillSupported next size roots left ↔
      x ∈ left ∧ x < size ∧ (x ∈ roots ∨ ∃ y ∈ left, x ∈ next y) := by
  simp [stillSupported, getElem?_marks]

/-- Roots stay. -/
theorem mem_settle_of_mem_roots {next : Nat → List Nat} {size : Nat} {roots : List Nat} {x : Nat}
    (hs : x < size) (hr : x ∈ roots) (bound : Nat) {left : List Nat} (h : x ∈ left) :
    x ∈ settle next size roots bound left := by
  induction bound generalizing left with
  | zero => exact h
  | succ n ih =>
    simp only [settle]
    split
    · exact h
    · exact ih (mem_stillSupported.2 ⟨h, hs, .inl hr⟩)

end ClosureEnv.Graph
