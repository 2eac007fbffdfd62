import ClosureEnv.Binding.Escape
import ClosureEnv.Proofs.Bound.Scoped

/-!
# The invariant of binding

What holds of the state of binding between any two steps, field by field: the scopes so far form a
forest (`ForestInv`) and belong together with the closures (`PairInv`), keys and ordinals tell them
apart (`KeyInv`, `RootInv`, `OrdinalInv`), variables and free variables belong to scopes (`VarInv`),
the open scopes are a chain (`FrameInv`), and what is noted about flow is in range (`FlowInv`).
`State.Grows` is how one state comes out of another: new things are added at the end, and what is
closed does not change. The parts take the fields of the state that they speak of, so that a step on
other fields keeps them as they are.
-/

namespace ClosureEnv.Binding

/-- The scopes so far, of `fnCount` functions that have begun, form a forest. -/
structure ForestInv (scopes : Array Scope) (fnCount : Nat) : Prop where
  preorder : Preorder scopes
  scope_id : ∀ (i : Nat) s, scopes[i]? = some s → s.id = i
  root_iff : ∀ (i : Nat) s, scopes[i]? = some s → (s.parent = none ↔ s.kind = .function)
  depth : ∀ (i p : Nat) s q, scopes[i]? = some s → s.parent = some p → scopes[p]? = some q →
    s.depth = q.depth + 1
  scope_owner : ∀ (i : Nat) s, scopes[i]? = some s → s.owner < fnCount

/-- The closures so far and their scopes belong together. -/
structure PairInv (scopes : Array Scope) (closures : Array Closure) (fnCount : Nat) : Prop where
  closure_iff : ∀ (i : Nat) s, scopes[i]? = some s → (s.kind = .closure ↔ ∃ c, s.closure = some c)
  closure_of_scope : ∀ (i : Nat) s c, scopes[i]? = some s → s.closure = some c →
    ∃ k, closures[c]? = some k ∧ k.scope = i
  closure_id : ∀ (c : Nat) k, closures[c]? = some k → k.id = c
  closure_scope : ∀ (c : Nat) k, closures[c]? = some k →
    ∃ s, scopes[k.scope]? = some s ∧ s.closure = some c ∧ s.parent = some k.declaredIn
  closure_owner : ∀ (c : Nat) k, closures[c]? = some k → k.owner < fnCount

/-- The key of a scope is that of its parent with a position that no sibling has; `childCounts` says
how many positions are given out. -/
structure KeyInv (scopes : Array Scope) (childCounts : Array Nat) : Prop where
  size : childCounts.size = scopes.size
  child : ∀ (i p : Nat) s q, scopes[i]? = some s → s.parent = some p → scopes[p]? = some q →
    ∃ n m, childCounts[p]? = some m ∧ n < m ∧ s.key = q.key ++ "/" ++ toString n
  sibling : ∀ (i j p : Nat) s s', scopes[i]? = some s → scopes[j]? = some s' → i ≠ j →
    s.parent = some p → s'.parent = some p → s.key ≠ s'.key

/-- A scope without a parent is that of a function that is bound, or of the current one, and has
its name as key. -/
structure RootInv (scopes : Array Scope) (fns : Array Function) (name : String) : Prop where
  bound : ∀ (i : Nat) s, scopes[i]? = some s → s.parent = none →
    (∃ f, fns[s.owner]? = some f ∧ f.scope = i ∧ f.name = s.key) ∨
      (s.owner = fns.size ∧ s.key = name)
  unique : ∀ (i j : Nat) s s', scopes[i]? = some s → scopes[j]? = some s' →
    s.parent = none → s'.parent = none → s.owner = fns.size → s'.owner = fns.size → i = j

/-- Ordinals tell the closures of one function apart; the current one, after `fnCount` others, has
`count` so far. -/
structure OrdinalInv (closures : Array Closure) (fnCount count : Nat) : Prop where
  lt : ∀ (c : Nat) k, closures[c]? = some k → k.owner = fnCount → k.ordinal < count
  ne : ∀ (c d : Nat) k l, closures[c]? = some k → closures[d]? = some l → c ≠ d →
    k.owner = l.owner → k.ordinal ≠ l.ordinal

/-- Variables belong to scopes and satisfy `P` by name, and free variables belong to scopes around
their closure. -/
structure VarInv (P : String → Prop) (scopes : Array Scope) (vars : Array Variable)
    (closures : Array Closure) : Prop where
  var_scope : ∀ (v : Nat) x, vars[v]? = some x → x.id = v ∧ x.scope < scopes.size
  var_name : ∀ (v : Nat) x, vars[v]? = some x → P x.name
  free_var : ∀ (c : Nat) k v, closures[c]? = some k → v ∈ k.freeVars →
    ∃ x, vars[v]? = some x ∧ Around scopes x.scope k.scope

/-- Open scopes, innermost first, are a scope, its parent, and so on up to a root. -/
def FrameChain (scopes : Array Scope) : List ScopeId → Prop
  | [] => True
  | [s] => parentIn? scopes s = none ∧ s < scopes.size
  | s :: r :: rs => parentIn? scopes s = some r ∧ FrameChain scopes (r :: rs)

/-- The open scopes are a chain, name variables of their own, and hold the open closures. -/
structure FrameInv (scopes : Array Scope) (vars : Array Variable) (frames : List Frame)
    (closureStack : List ClosureId) : Prop where
  chain : FrameChain scopes (frames.map Frame.scope)
  names : ∀ f ∈ frames, ∀ n v, (n, v) ∈ f.names → ∃ x, vars[v]? = some x ∧ x.scope = f.scope
  stack : closureStack = frames.filterMap fun f => scopes[f.scope]?.bind Scope.closure

/-- A source that exists. -/
def Source.InRange (varCount closureCount : Nat) : Source → Prop
  | .closure c => c < closureCount
  | .var v => v < varCount

/-- The sources that reach a sink. -/
def Sink.sources : Sink → List Source
  | .escape sources | .within _ sources | .below _ sources => sources

/-- What is noted about flow is in range. -/
structure FlowInv (varCount closureCount : Nat) (varSources : Array (List Source))
    (sinks : List Sink) : Prop where
  size : varSources.size = varCount
  stored : ∀ (v : Nat) xs, varSources[v]? = some xs →
    ∀ x ∈ xs, x.InRange varCount closureCount
  drained : ∀ sink ∈ sinks, ∀ x ∈ sink.sources, x.InRange varCount closureCount

namespace State

/-- The functions that have begun: those that are bound, and the current one if a scope is open. -/
def begun (b : State) : Nat :=
  if b.frames.isEmpty then b.fns.size else b.fns.size + 1

/-- What holds between the steps of binding; names of variables satisfy `P`. -/
structure Inv (P : String → Prop) (b : State) : Prop where
  forest : ForestInv b.scopes b.begun
  pairs : PairInv b.scopes b.closures b.begun
  keys : KeyInv b.scopes b.childCounts
  roots : RootInv b.scopes b.fns b.current.name
  ordinals : OrdinalInv b.closures b.fns.size b.current.closureCount
  vars : VarInv P b.scopes b.vars b.closures
  frames : FrameInv b.scopes b.vars b.frames b.closureStack
  flow : FlowInv b.vars.size b.closures.size b.varSources b.sinks
  current : b.frames ≠ [] → b.current.id = b.fns.size ∧
    ∃ x, b.scopes[b.current.scope]? = some x ∧ x.parent = none ∧ x.owner = b.fns.size

/-- A variable that an open scope names. -/
def Vis (b : State) (v : VarId) : Prop :=
  ∃ f ∈ b.frames, ∃ n, (n, v) ∈ f.names

/-- A closure that keeps its place. -/
structure SamePlace (k l : Closure) : Prop where
  id : l.id = k.id
  scope : l.scope = k.scope
  declaredIn : l.declaredIn = k.declaredIn
  owner : l.owner = k.owner
  ordinal : l.ordinal = k.ordinal

/-- A closure that keeps its place and may get more free variables. -/
structure ClosureLe (k l : Closure) : Prop extends SamePlace k l where
  freeVars : k.freeVars ⊆ l.freeVars

/-- One state comes out of another by more steps. -/
structure Grows (b b' : State) : Prop where
  scopes : ∀ (i : Nat) s, b.scopes[i]? = some s → b'.scopes[i]? = some s
  vars : ∀ (v : Nat) x, b.vars[v]? = some x → b'.vars[v]? = some x
  closures : ∀ (c : Nat) k, b.closures[c]? = some k → ∃ l, b'.closures[c]? = some l ∧ ClosureLe k l
  closed : ∀ (c : Nat) k, b.closures[c]? = some k → c ∉ b.closureStack → b'.closures[c]? = some k
  stack : ∀ c : Nat, c < b.closures.size → c ∈ b'.closureStack → c ∈ b.closureStack
  fns : ∀ (i : Nat) f, b.fns[i]? = some f → b'.fns[i]? = some f
  frames : ∀ f ∈ b'.frames, f.scope ∈ b.frames.map Frame.scope ∨ b.scopes.size ≤ f.scope
  new_parent : ∀ i p : Nat, b.scopes.size ≤ i → parentIn? b'.scopes i = some p →
    p ∈ b.frames.map Frame.scope ∨ b.scopes.size ≤ p
  stored : ∀ (v : Nat) x, x ∈ b.sourcesOf v → x ∈ b'.sourcesOf v
  sinks : b.sinks ⊆ b'.sinks
  fnTypes : b'.fnTypes = b.fnTypes

end State

variable {P : String → Prop} {b b' b'' : State}

/-- An array that has something at every position of another is no shorter. -/
theorem size_le_of_getElem? {α β : Type} {xs : Array α} {ys : Array β}
    (h : ∀ (i : Nat) x, xs[i]? = some x → ∃ y, ys[i]? = some y) : xs.size ≤ ys.size := by
  refine Nat.le_of_not_lt fun hlt => ?_
  obtain ⟨y, hy⟩ := h ys.size _ (Array.getElem?_eq_getElem hlt)
  simp at hy

/-- A closure keeps its place. -/
theorem State.ClosureLe.refl (k : Closure) : State.ClosureLe k k :=
  ⟨⟨rfl, rfl, rfl, rfl, rfl⟩, fun _ h => h⟩

/-- Keeping the place is transitive. -/
theorem State.ClosureLe.trans {k l m : Closure} (h : State.ClosureLe k l)
    (h' : State.ClosureLe l m) : State.ClosureLe k m :=
  ⟨⟨h'.id.trans h.id, h'.scope.trans h.scope, h'.declaredIn.trans h.declaredIn,
    h'.owner.trans h.owner, h'.ordinal.trans h.ordinal⟩, fun _ hv => h'.freeVars (h.freeVars hv)⟩

namespace State.Grows

/-- No step is needed. -/
theorem refl (b : State) : b.Grows b where
  scopes _ _ h := h
  vars _ _ h := h
  closures _ k h := ⟨k, h, .refl k⟩
  closed _ _ h _ := h
  stack _ _ h := h
  fns _ _ h := h
  frames f hf := .inl (List.mem_map_of_mem hf)
  new_parent i p hi h := absurd (lt_size_of_parentIn? h) (by omega)
  stored _ _ h := h
  sinks _ h := h
  fnTypes := rfl

/-- The number of closures does not go down. -/
theorem closures_size (h : b.Grows b') : b.closures.size ≤ b'.closures.size :=
  size_le_of_getElem? fun i x hx => (h.closures i x hx).imp fun _ => And.left

/-- The number of variables does not go down. -/
theorem vars_size (h : b.Grows b') : b.vars.size ≤ b'.vars.size :=
  size_le_of_getElem? fun i x hx => ⟨x, h.vars i x hx⟩

/-- The number of scopes does not go down. -/
theorem scopes_size (h : b.Grows b') : b.scopes.size ≤ b'.scopes.size :=
  size_le_of_getElem? fun i x hx => ⟨x, h.scopes i x hx⟩

/-- A scope keeps its parent. -/
theorem parentIn?_eq (h : b.Grows b') {s : Nat} (hs : s < b.scopes.size) :
    parentIn? b'.scopes s = parentIn? b.scopes s :=
  parentIn?_congr h.scopes hs

/-- A parent remains one. -/
theorem parent (h : b.Grows b') {s p : Nat} (hp : parentIn? b.scopes s = some p) :
    parentIn? b'.scopes s = some p :=
  (h.parentIn?_eq (lt_size_of_parentIn? hp)).trans hp

/-- Steps compose. -/
theorem trans (h : b.Grows b') (h' : b'.Grows b'') : b.Grows b'' where
  scopes i s hs := h'.scopes i s (h.scopes i s hs)
  vars v x hx := h'.vars v x (h.vars v x hx)
  closures c k hk := by
    obtain ⟨l, hl, hkl⟩ := h.closures c k hk
    obtain ⟨m, hm, hlm⟩ := h'.closures c l hl
    exact ⟨m, hm, hkl.trans hlm⟩
  closed c k hk hc := by
    have hlt := (Array.getElem?_eq_some_iff.mp hk).1
    exact h'.closed c k (h.closed c k hk hc) fun hmem => hc (h.stack c hlt hmem)
  stack c hc hmem := by
    have := h.closures_size
    exact h.stack c hc (h'.stack c (by omega) hmem)
  fns i f hf := h'.fns i f (h.fns i f hf)
  frames f hf := by
    have hsize := h.scopes_size
    rcases h'.frames f hf with hmem | hle
    · obtain ⟨g, hg, hgf⟩ := List.mem_map.mp hmem
      exact hgf ▸ h.frames g hg
    · exact .inr (Nat.le_trans hsize hle)
  new_parent i p hi hp := by
    have hsize := h.scopes_size
    -- A scope that the first part made has a frame of `b` as its parent, as has one of the second
    -- part whose parent is a frame of `b'`.
    by_cases hlt : i < b'.scopes.size
    · exact h.new_parent i p hi ((h'.parentIn?_eq hlt).symm.trans hp)
    · rcases h'.new_parent i p (by omega) hp with hmem | hle
      · obtain ⟨g, hg, rfl⟩ := List.mem_map.mp hmem
        exact h.frames g hg
      · exact .inr (Nat.le_trans hsize hle)
  stored v x hx := h'.stored v x (h.stored v x hx)
  sinks _ hx := h'.sinks (h.sinks hx)
  fnTypes := h'.fnTypes.trans h.fnTypes

end State.Grows

end ClosureEnv.Binding
