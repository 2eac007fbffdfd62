import ClosureEnv.Proofs.Binding.Moves
import ClosureEnv.Proofs.Scope.Chain

/-!
# Numbering and owners

What binding keeps of the numbers that it gives out, beyond what `Invariant` says of them: scopes
are numbered in preorder (`NestInv`), keys count children (`ChildInv`), owners are handed down
(`OwnerInv`), and ordinals count closures (`CountInv`). Each primitive step keeps all of it
(`Move.numbered`).
-/

namespace ClosureEnv.Binding

open State ClosureEnv.Bound

/-- The ordinals of the closures of a function, in the order of the closures. -/
def ordinalsIn (closures : Array Closure) (f : FnId) : List Nat :=
  (closures.toList.filter fun k => k.owner == f).map Closure.ordinal

/-- The scopes so far, of which `ids` are open, are numbered in preorder, with depths from zero. -/
structure NestInv (scopes : Array Scope) (ids : List ScopeId) : Prop where
  adjoining : Adjoining scopes
  current : ∀ s ∈ ids.head?, AroundEq scopes s (scopes.size - 1)
  root_depth : ∀ (i : Nat) s, scopes[i]? = some s → s.parent = none → s.depth = 0

/-- The key of a scope ends in its position among the children of its parent. -/
structure ChildInv (scopes : Array Scope) (childCounts : Array Nat) : Prop where
  count : ∀ (p n : Nat), childCounts[p]? = some n → (childrenIn scopes p).length = n
  key : ∀ (i p : Nat) s q, scopes[i]? = some s → s.parent = some p → scopes[p]? = some q →
    ∃ n : Nat, (childrenIn scopes p)[n]? = some i ∧ s.key = q.key ++ "/" ++ toString n

/-- A scope has the owner of its parent, and a closure that of its scope; open scopes belong to the
current function. -/
structure OwnerInv (scopes : Array Scope) (closures : Array Closure) (fns : Array Function)
    (ids : List ScopeId) (current : FnId) : Prop where
  parent : ∀ (i p : Nat) s q, scopes[i]? = some s → s.parent = some p → scopes[p]? = some q →
    s.owner = q.owner
  opened : ∀ i ∈ ids, ∀ s, scopes[i]? = some s → s.owner = current
  fn : ∀ (n : Nat) f, fns[n]? = some f → ∃ s, scopes[f.scope]? = some s ∧ s.owner = n
  closure : ∀ (c : Nat) k, closures[c]? = some k → ∃ s, scopes[k.scope]? = some s ∧ s.owner = k.owner

/-- The ordinals of the closures of each function count from zero. -/
structure CountInv (closures : Array Closure) (frames : List Frame) (current : Current) : Prop where
  range : ∀ n, ordinalsIn closures n = List.range (ordinalsIn closures n).length
  count : frames ≠ [] → (ordinalsIn closures current.id).length = current.closureCount

/-- What binding keeps of the numbers that it gives out. -/
structure State.Numbered (b : State) : Prop where
  nest : NestInv b.scopes (b.frames.map Frame.scope)
  children : ChildInv b.scopes b.childCounts
  owners : OwnerInv b.scopes b.closures b.fns (b.frames.map Frame.scope) b.current.id
  ordinals : CountInv b.closures b.frames b.current

variable {scopes : Array Scope} {closures : Array Closure} {fns : Array Function}
  {ids : List ScopeId} {counts : Array Nat} {frames : List Frame} {current : Current} {f : FnId}
  {s : Scope} {b b' : State}

/-! ## Scopes -/

/-- A new scope below the innermost open one, or outside of any. -/
theorem NestInv.push (h : NestInv scopes ids) (hp : Preorder scopes) (hs : s.parent = ids.head?)
    (hlt : ∀ p ∈ ids.head?, p < scopes.size) (hd : s.parent = none → s.depth = 0) :
    NestInv (scopes.push s) (scopes.size :: ids) where
  adjoining := h.adjoining.push hp s fun p hpar => by
    rw [hs] at hpar
    exact ⟨hlt p hpar, h.current p hpar⟩
  current i hi := by
    cases Option.mem_some_iff.mp hi
    rw [Array.size_push, Nat.add_sub_cancel]
    exact .inl rfl
  root_depth i x hx hpar := by
    rw [Array.getElem?_push] at hx
    split at hx
    · cases hx
      exact hd hpar
    · exact h.root_depth i x hx hpar

/-- The innermost open scope is closed. -/
theorem NestInv.pop {i : ScopeId} (h : NestInv scopes (i :: ids)) (hp : Preorder scopes)
    (hc : FrameChain scopes (i :: ids)) : NestInv scopes ids where
  adjoining := h.adjoining
  current p hpar := by
    cases ids with
    | nil => cases hpar
    | cons r rs =>
      cases Option.mem_some_iff.mp hpar
      exact .inr ((around_parent hp hc.1).trans_eq hp (h.current i rfl))
  root_depth := h.root_depth

/-- A new scope under the next position below its parent. -/
theorem ChildInv.push_child (h : ChildInv scopes counts) (hp : Preorder scopes)
    (hsize : counts.size = scopes.size) {p : Nat} {q : Scope} {n : Nat} (hs : s.parent = some p)
    (hq : scopes[p]? = some q) (hn : counts[p]? = some n)
    (hkey : s.key = q.key ++ "/" ++ toString n) :
    ChildInv (scopes.push s) ((counts.modify p (· + 1)).push 0) := by
  have hlt := (Array.getElem?_eq_some_iff.mp hq).1
  refine ⟨fun r m hm => ?_, fun i r x y hx hpar hy => ?_⟩
  · -- The count of the parent goes up by one, and the new scope has no children.
    rw [childrenIn_push, hs]
    rw [Array.getElem?_push, Array.size_modify, hsize] at hm
    split at hm
    · next hr =>
      cases hm
      rw [childrenIn_eq_nil hp (Nat.le_of_eq hr.symm), if_neg (by simp; omega)]
      rfl
    · rw [Array.getElem?_modify] at hm
      split at hm
      · next hpr =>
        subst hpr
        rw [hn] at hm
        cases hm
        rw [if_pos rfl, List.length_append, h.count p n hn, List.length_singleton]
      · next hpr =>
        rw [if_neg fun heq => hpr (Option.some.inj heq), List.append_nil]
        exact h.count r m hm
  · -- The new scope is the last child of its parent, and the others keep their places.
    rw [childrenIn_push]
    rw [Array.getElem?_push] at hx
    split at hx
    · next hi =>
      cases hx
      cases hs.symm.trans hpar
      rw [Array.getElem?_push, if_neg (by omega)] at hy
      cases hq.symm.trans hy
      refine ⟨n, ?_, hkey⟩
      rw [if_pos hs, ← h.count p n hn, List.getElem?_append_right (Nat.le_refl _), Nat.sub_self, hi]
      rfl
    · have hri := hp i r ((parentIn?_of_scope hx).trans hpar)
      have hlt' := (Array.getElem?_eq_some_iff.mp hx).1
      rw [Array.getElem?_push, if_neg (by omega)] at hy
      obtain ⟨m, hm, hkey⟩ := h.key i r x y hx hpar hy
      refine ⟨m, ?_, hkey⟩
      rw [List.getElem?_append_left (List.getElem?_eq_some_iff.mp hm).1]
      exact hm

/-- A new scope outside of any. -/
theorem ChildInv.push_root (h : ChildInv scopes counts) (hp : Preorder scopes)
    (hsize : counts.size = scopes.size) (hs : s.parent = none) :
    ChildInv (scopes.push s) (counts.push 0) := by
  have hchildren (p : Nat) : childrenIn (scopes.push s) p = childrenIn scopes p := by
    rw [childrenIn_push, hs, if_neg nofun, List.append_nil]
  refine ⟨fun r m hm => ?_, fun i r x y hx hpar hy => ?_⟩
  · rw [hchildren]
    rw [Array.getElem?_push, hsize] at hm
    split at hm
    · next hr =>
      cases hm
      rw [childrenIn_eq_nil hp (Nat.le_of_eq hr.symm)]
      rfl
    · exact h.count r m hm
  · rw [hchildren]
    rw [Array.getElem?_push] at hx
    split at hx
    · cases hx
      cases hs.symm.trans hpar
    · have hri := hp i r ((parentIn?_of_scope hx).trans hpar)
      have hlt' := (Array.getElem?_eq_some_iff.mp hx).1
      rw [Array.getElem?_push, if_neg (by omega)] at hy
      exact h.key i r x y hx hpar hy

/-! ## Owners -/

/-- A new scope of the current function. -/
theorem OwnerInv.push_scope (h : OwnerInv scopes closures fns ids f) (hs : s.owner = f)
    (hp : ∀ p : Nat, s.parent = some p → p ∈ ids ∧ p < scopes.size) (hpre : Preorder scopes) :
    OwnerInv (scopes.push s) closures fns (scopes.size :: ids) f := by
  refine ⟨fun i p x q hx hpar hq => ?_, fun i hi x hx => ?_, fun n g hg => ?_, fun c k hk => ?_⟩
  · rw [Array.getElem?_push] at hx
    split at hx
    · cases hx
      obtain ⟨hmem, hlt⟩ := hp p hpar
      rw [Array.getElem?_push, if_neg (Nat.ne_of_lt hlt)] at hq
      rw [hs, h.opened p hmem q hq]
    · have hpi := hpre i p ((parentIn?_of_scope hx).trans hpar)
      have hlt := (Array.getElem?_eq_some_iff.mp hx).1
      rw [Array.getElem?_push, if_neg (by omega)] at hq
      exact h.parent i p x q hx hpar hq
  · rw [Array.getElem?_push] at hx
    split at hx
    · cases hx
      exact hs
    · next hne => exact h.opened i ((List.mem_cons.mp hi).resolve_left hne) x hx
  · obtain ⟨x, hx, ho⟩ := h.fn n g hg
    exact ⟨x, getElem?_push_of_some hx s, ho⟩
  · obtain ⟨x, hx, ho⟩ := h.closure c k hk
    exact ⟨x, getElem?_push_of_some hx s, ho⟩

/-- Fewer scopes are open. -/
theorem OwnerInv.pop {i : ScopeId} (h : OwnerInv scopes closures fns (i :: ids) f) :
    OwnerInv scopes closures fns ids f :=
  { h with opened := fun j hj => h.opened j (List.mem_cons_of_mem i hj) }

/-- A new closure with its scope. -/
theorem OwnerInv.push_closure (h : OwnerInv scopes closures fns ids f) {k : Closure}
    (hk : ∃ x, scopes[k.scope]? = some x ∧ x.owner = k.owner) :
    OwnerInv scopes (closures.push k) fns ids f :=
  { h with
    closure := fun c l hl => by
      rw [Array.getElem?_push] at hl
      split at hl
      · cases hl
        exact hk
      · exact h.closure c l hl }

/-- Closures that keep their places keep their owners. -/
theorem OwnerInv.modify (h : OwnerInv scopes closures fns ids f) (c : Nat)
    {g : Closure → Closure} (hg : ∀ k, SamePlace k (g k)) :
    OwnerInv scopes (closures.modify c g) fns ids f :=
  { h with
    closure := fun d l hl => by
      obtain ⟨k, hk, hkl⟩ := samePlace_of_modify hg hl
      rw [hkl.scope, hkl.owner]
      exact h.closure d k hk }

/-- Another function is there. -/
theorem OwnerInv.push_fn (h : OwnerInv scopes closures fns ids f) {g : Function}
    (hg : ∃ x, scopes[g.scope]? = some x ∧ x.owner = fns.size) :
    OwnerInv scopes closures (fns.push g) ids f :=
  { h with
    fn := fun n l hl => by
      rw [Array.getElem?_push] at hl
      split at hl
      · next hn =>
        cases hl
        exact hn ▸ hg
      · exact h.fn n l hl }

/-! ## Ordinals -/

/-- A new closure is the last one of its owner. -/
theorem ordinalsIn_push (k : Closure) (n : FnId) : ordinalsIn (closures.push k) n =
    ordinalsIn closures n ++ if k.owner = n then [k.ordinal] else [] := by
  rw [ordinalsIn, Array.toList_push, List.filter_append, List.map_append, List.filter_cons,
    List.filter_nil]
  simp only [beq_iff_eq]
  split <;> rfl

/-- Closures that keep their places keep their ordinals. -/
theorem ordinalsIn_modify (c : Nat) {g : Closure → Closure} (hg : ∀ k, SamePlace k (g k))
    (n : FnId) : ordinalsIn (closures.modify c g) n = ordinalsIn closures n := by
  have hpairs : (closures.modify c g).toList.map (fun k => (k.owner, k.ordinal)) =
      closures.toList.map fun k => (k.owner, k.ordinal) := by
    refine List.ext_getElem? fun i => ?_
    rw [List.getElem?_map, List.getElem?_map, Array.getElem?_toList, Array.getElem?_toList,
      Array.getElem?_modify]
    split
    · cases closures[i]? with
      | none => rfl
      | some k => simp [(hg k).owner, (hg k).ordinal]
    · rfl
  have hread (xs : List Closure) : (xs.filter fun k => k.owner == n).map Closure.ordinal =
      ((xs.map fun k => (k.owner, k.ordinal)).filter fun p => p.1 == n).map Prod.snd := by
    rw [List.filter_map, List.map_map]
    rfl
  rw [ordinalsIn, ordinalsIn, hread, hread, hpairs]

/-- A new closure of the current function gets the next ordinal. -/
theorem CountInv.push (h : CountInv closures frames current) (hf : frames ≠ []) {k : Closure}
    (ho : k.owner = current.id) (hk : k.ordinal = current.closureCount) (f : Frame) :
    CountInv (closures.push k) (f :: frames)
      { current with closureCount := current.closureCount + 1 } := by
  refine ⟨fun n => ?_, fun _ => ?_⟩
  · rw [ordinalsIn_push]
    split
    · next hn =>
      rw [List.length_append, List.length_singleton, List.range_succ, ← h.range n, hk, ← h.count hf,
        ← ho, hn]
    · rw [List.append_nil]
      exact h.range n
  · rw [ordinalsIn_push, if_pos ho, List.length_append, h.count hf]
    rfl

/-- Closures that keep their places keep the count. -/
theorem CountInv.modify (h : CountInv closures frames current) (c : Nat) {g : Closure → Closure}
    (hg : ∀ k, SamePlace k (g k)) : CountInv (closures.modify c g) frames current := by
  refine ⟨fun n => ?_, fun hf => ?_⟩
  · rw [ordinalsIn_modify c hg]
    exact h.range n
  · rw [ordinalsIn_modify c hg]
    exact h.count hf

/-- What is open does not matter to the count, as long as something was. -/
theorem CountInv.reopened (h : CountInv closures frames current) {frames' : List Frame}
    (hf : frames' ≠ [] → frames ≠ []) : CountInv closures frames' current :=
  ⟨h.range, fun hne => h.count (hf hne)⟩

/-- The next function has no closures yet. -/
theorem CountInv.next (h : CountInv closures frames current)
    (howner : ∀ (c : Nat) k, closures[c]? = some k → k.owner < f) (frames' : List Frame)
    {current' : Current} (hid : current'.id = f) (hc : current'.closureCount = 0) :
    CountInv closures frames' current' := by
  refine ⟨h.range, fun _ => ?_⟩
  rw [hid, hc, List.length_eq_zero_iff, ordinalsIn, List.map_eq_nil_iff, List.filter_eq_nil_iff]
  intro k hk
  obtain ⟨c, hc⟩ := List.mem_iff_getElem?.mp hk
  rw [Array.getElem?_toList] at hc
  simpa using Nat.ne_of_lt (howner c k hc)

/-! ## Primitive steps -/

/-- Opening a scope below the current one. -/
theorem State.Numbered.opened (h : b.Numbered) (hb : b.Regular) (hf : b.frames ≠ [])
    (kind : ScopeKind) (closure : Option ClosureId) (span : Syntax.Span) :
    (b.opened kind closure span).Numbered := by
  have hlt := hb.currentScope_lt hf
  obtain ⟨f, fs, hfs⟩ := List.exists_cons_of_ne_nil hf
  rw [currentScope_eq hfs] at hlt
  have hp := hb.forest.preorder
  have hpar : (b.newScope kind closure span).parent = some f.scope := by simp [newScope, hfs]
  have hhead : (b.frames.map Frame.scope).head? = some f.scope := by simp [hfs]
  have hq := Array.getElem?_eq_getElem hlt
  have hcount : f.scope < b.childCounts.size := by rw [hb.keys.size]; exact hlt
  have hc := Array.getElem?_eq_getElem hcount
  refine ⟨?_, ?_, ?_, h.ordinals.reopened fun _ => hf⟩
  · refine h.nest.push hp (hpar.trans hhead.symm) (fun p hmem => ?_) fun hnone => ?_
    · rw [hhead] at hmem
      exact Option.mem_some_iff.mp hmem ▸ hlt
    · rw [hpar] at hnone
      cases hnone
  · simp only [State.opened, hfs]
    exact h.children.push_child hp hb.keys.size hpar hq hc (by simp [newScope, hfs, hq, hc])
  · refine h.owners.push_scope rfl (fun p hp' => ?_) hp
    cases hpar.symm.trans hp'
    exact ⟨by simp [hfs], hlt⟩

/-- Closing the innermost scope. -/
theorem State.Numbered.closed (h : b.Numbered) (hb : b.Regular) (hf : b.frames ≠ []) :
    b.closed.Numbered := by
  obtain ⟨f, fs, hfs⟩ := List.exists_cons_of_ne_nil hf
  have hchain := hb.frames.chain
  have hnest := h.nest
  have howners := h.owners
  rw [hfs, List.map_cons] at hchain hnest howners
  refine ⟨?_, h.children, ?_, h.ordinals.reopened fun _ => hf⟩
  · simp only [State.closed, hfs]
    exact hnest.pop hb.forest.preorder hchain
  · simp only [State.closed, hfs]
    exact howners.pop

/-- Changing closures in place. -/
theorem State.Numbered.modify (h : b.Numbered) (c : Nat) {g : Closure → Closure}
    (hg : ∀ k, SamePlace k (g k)) :
    State.Numbered { b with closures := b.closures.modify c g } :=
  { h with
    owners := h.owners.modify c hg
    ordinals := h.ordinals.modify c hg }

/-- Opening a closure. -/
theorem State.Numbered.openedClosure (h : b.Numbered) (hb : b.Regular) (hf : b.frames ≠ [])
    (span : Syntax.Span) : (b.openedClosure span).Numbered := by
  have hopened := h.opened hb hf .closure (some b.closures.size) span
  exact { hopened with
    owners := hopened.owners.push_closure ⟨_, Array.getElem?_push_size, rfl⟩
    ordinals := h.ordinals.push hf rfl rfl _ }

/-- Starting a function. -/
theorem State.Numbered.started (h : b.Numbered) (hb : b.Regular) (hf : b.frames = [])
    (name : String) (generics : List String) (span : Syntax.Span) (isSynthetic : Bool) :
    (b.started name generics span isSynthetic).Numbered := by
  have hp := hb.forest.preorder
  have hnest := h.nest
  rw [hf] at hnest
  refine ⟨?_, ?_, ?_, ?_⟩
  · simp only [State.started, State.opened, hf]
    exact hnest.push hp (by simp [newScope]) (by simp) (by simp [newScope])
  · simp only [State.started, State.opened, hf]
    exact h.children.push_root hp hb.keys.size (by simp [newScope])
  · have hnone : OwnerInv b.scopes b.closures b.fns [] b.fns.size :=
      { h.owners with opened := by simp }
    simp only [State.started, State.opened, hf, List.map_cons, List.map_nil]
    exact hnone.push_scope rfl (by simp [newScope]) hp
  · have howner (c : Nat) (k : Closure) (hk : b.closures[c]? = some k) : k.owner < b.fns.size :=
      begun_eq_of_nil hf ▸ hb.pairs.closure_owner c k hk
    exact h.ordinals.next howner _ rfl rfl

/-- A primitive step keeps the numbering. -/
theorem Move.numbered (h : Move b b') (hb : b.Regular) (hn : b.Numbered) : b'.Numbered := by
  cases h with
  | opened hf hk hk' span => exact hn.opened hb hf _ none span
  | closed hf hc => exact hn.closed hb fun h0 => hf (by simp [h0])
  | declared hf name ty isMut isParam span =>
    obtain ⟨f, fs, hfs⟩ := List.exists_cons_of_ne_nil hf
    have hmap : (b.declared name ty isMut isParam span).frames.map Frame.scope =
        b.frames.map Frame.scope := by simp [State.declared, hfs]
    exact ⟨hmap ▸ hn.nest, hn.children, hmap ▸ hn.owners, hn.ordinals.reopened fun _ => hf⟩
  | @used v hv =>
    unfold State.used
    split
    · exact hn
    · split
      · exact hn.modify _ fun k => by split <;> exact ⟨rfl, rfl, rfl, rfl, rfl⟩
      · exact hn
  | stored v hs => exact { hn with }
  | drainedBy sink hs => exact { hn with }
  | openedClosure hf span => exact hn.openedClosure hb hf span
  | @finished hf c hc params body sources hs =>
    have hclosed := hn.closed hb fun h0 => hf (by simp [h0])
    have hdrained : (b.closedClosure.drainedBy (.escape sources)).Numbered := { hclosed with }
    exact hdrained.modify c fun k => ⟨rfl, rfl, rfl, rfl, rfl⟩
  | started hf name generics span isSynthetic => exact hn.started hb hf name generics span isSynthetic
  | @ended f hf hc params ret body =>
    have hne : b.frames ≠ [] := by simp [hf]
    have hclosed := hn.closed hb hne
    obtain ⟨x, hx, -, ho⟩ := (hb.current hne).2
    exact { hclosed with owners := hclosed.owners.push_fn ⟨x, hx, ho⟩ }
  | learnt fnTypes globalTypes globals => exact { hn with }

/-- Nothing has a number at the beginning. -/
theorem State.numbered_empty : State.empty.Numbered := by
  refine ⟨⟨fun i p h => ?_, nofun, ?_⟩, ⟨?_, ?_⟩, ⟨?_, nofun, ?_, ?_⟩, ⟨fun n => rfl, nofun⟩⟩
  · simp [State.empty, parentIn?] at h
  all_goals simp [State.empty]

/-- What binding a module ends in is numbered. -/
theorem numbered_of_bindState {m : Syntax.Module} {F : State} (hF : bindState m = .ok F) :
    F.Numbered := by
  have hempty : State.empty.Regular :=
    (between_empty (P := fun _ => True) (u := "") [] []).inv
  exact ((moves_of_bindState hF).keeps Move.numbered hempty State.numbered_empty).2

end ClosureEnv.Binding
