import ClosureEnv.Proofs.Binding.Primitives

/-!
# The primitive steps keep the invariant

For each primitive step, `inv` says that it keeps the invariant and `grows` that the state grows.
-/

namespace ClosureEnv.Binding.State

variable {P : String → Prop} {b : State}

/-- The current scope is the innermost open one. -/
theorem currentScope_eq {f : Frame} {fs : List Frame} (h : b.frames = f :: fs) :
    b.currentScope = f.scope := by
  simp [currentScope, h]

/-- A scope that is opened while others are lies right below the current one. -/
theorem newScope_parent (h : b.frames ≠ []) (kind : ScopeKind) (closure : Option ClosureId)
    (span : Syntax.Span) : (b.newScope kind closure span).parent = some b.currentScope := by
  obtain ⟨f, fs, hfs⟩ := List.exists_cons_of_ne_nil h
  simp [newScope, currentScope, hfs]

/-- A scope that is opened while none is has no parent. -/
theorem newScope_root (h : b.frames = []) (kind : ScopeKind) (closure : Option ClosureId)
    (span : Syntax.Span) : (b.newScope kind closure span).parent = none := by
  simp [newScope, h]

/-- While a scope is open, the current function has begun. -/
theorem begun_eq (h : b.frames ≠ []) : b.begun = b.fns.size + 1 := by
  simp [begun, h]

/-- Before and after functions, those that have begun are bound. -/
theorem begun_eq_of_nil (h : b.frames = []) : b.begun = b.fns.size := by
  simp [begun, h]

namespace Inv

/-- The current scope exists. -/
theorem currentScope_lt (h : b.Inv P) (hf : b.frames ≠ []) : b.currentScope < b.scopes.size := by
  obtain ⟨f, fs, hfs⟩ := List.exists_cons_of_ne_nil hf
  rw [currentScope_eq hfs]
  exact h.frames.chain.lt_size _ (by simp [hfs])

/-- The open scopes are the current one and those around it. -/
theorem mem_frames_iff (h : b.Inv P) (hf : b.frames ≠ []) {s : ScopeId} :
    s ∈ b.frames.map Frame.scope ↔ AroundEq b.scopes s b.currentScope := by
  obtain ⟨f, fs, hfs⟩ := List.exists_cons_of_ne_nil hf
  have hchain := h.frames.chain
  rw [currentScope_eq hfs]
  rw [hfs, List.map_cons] at hchain ⊢
  exact hchain.mem_iff h.forest.preorder

/-- The scope of a closure exists. -/
theorem closure_scope_lt (h : b.Inv P) {c : Nat} {k : Closure} (hk : b.closures[c]? = some k) :
    k.scope < b.scopes.size := by
  obtain ⟨s, hs, -⟩ := h.pairs.closure_scope c k hk
  exact (Array.getElem?_eq_some_iff.mp hs).1

/-- A scope that is opened below the current one is new. -/
theorem newScope (h : b.Inv P) (hf : b.frames ≠ []) {kind : ScopeKind} (hk : kind ≠ .function)
    (closure : Option ClosureId) (span : Syntax.Span) :
    NewScope b.scopes b.begun (b.newScope kind closure span) := by
  have hlt := h.currentScope_lt hf
  have hid := (h.current hf).1
  have hbegun := begun_eq hf
  have hpar := newScope_parent hf kind closure span
  refine ⟨rfl, fun p hp => ?_, ?_, fun p q hp hq => ?_, ?_⟩
  · cases hpar.symm.trans hp
    exact hlt
  · rw [hpar]
    simp [State.newScope, hk]
  · cases hpar.symm.trans hp
    obtain ⟨f, fs, hfs⟩ := List.exists_cons_of_ne_nil hf
    rw [currentScope_eq hfs] at hq
    simp [State.newScope, hfs, hq]
  · simp only [State.newScope, hid, hbegun]
    exact Nat.lt_succ_self _

/-- The keys after a scope is opened below the current one. -/
theorem keys_opened (h : b.Inv P) (hf : b.frames ≠ []) (kind : ScopeKind)
    (closure : Option ClosureId) (span : Syntax.Span) :
    KeyInv (b.opened kind closure span).scopes (b.opened kind closure span).childCounts := by
  have hlt := h.currentScope_lt hf
  obtain ⟨f, fs, hfs⟩ := List.exists_cons_of_ne_nil hf
  rw [currentScope_eq hfs] at hlt
  have hcount : f.scope < b.childCounts.size := by rw [h.keys.size]; exact hlt
  have hq := Array.getElem?_eq_getElem hlt
  have hc := Array.getElem?_eq_getElem hcount
  simp only [opened, hfs]
  refine h.keys.push_child h.forest.preorder ?_ hq hc ?_
  · rw [newScope_parent hf, currentScope_eq hfs]
  · simp [State.newScope, hfs, hq, hc]

/-- The roots after a scope is opened below the current one. -/
theorem roots_opened (h : b.Inv P) (hf : b.frames ≠ []) (kind : ScopeKind)
    (closure : Option ClosureId) (span : Syntax.Span) :
    RootInv (b.opened kind closure span).scopes b.fns b.current.name := by
  refine h.roots.push_child ?_
  rw [newScope_parent hf]
  simp

/-- The root of the current function stays where it is when a scope is opened. -/
theorem current_opened (h : b.Inv P) (hf : b.frames ≠ []) (s : Scope) :
    b.current.id = b.fns.size ∧ ∃ x, (b.scopes.push s)[b.current.scope]? = some x ∧
      x.parent = none ∧ x.owner = b.fns.size := by
  obtain ⟨hid, x, hx, hxp, hxo⟩ := h.current hf
  exact ⟨hid, x, getElem?_push_of_some hx s, hxp, hxo⟩

/-- Opening the scope of a block or a loop. -/
theorem opened (h : b.Inv P) (hf : b.frames ≠ []) {kind : ScopeKind} (hk : kind ≠ .function)
    (hk' : kind ≠ .closure) (span : Syntax.Span) : (b.opened kind none span).Inv P := by
  have hnew := h.newScope hf hk none span
  have hbegun : (b.opened kind none span).begun = b.begun := by
    rw [begun_eq hf]
    rfl
  refine ⟨?_, ?_, h.keys_opened hf kind none span, h.roots_opened hf kind none span, h.ordinals,
    ?_, ?_, h.flow, fun _ => h.current_opened hf _⟩
  · rw [hbegun]
    exact h.forest.push (Nat.le_refl _) hnew
  · rw [hbegun]
    exact h.pairs.push_scope (Nat.le_refl _) hk' rfl
  · exact h.vars.push_scope h.forest.preorder hnew.parent_lt fun c k => h.closure_scope_lt
  · exact h.frames.push (s := b.newScope kind none span) rfl

/-- Opening the scope of a closure. -/
theorem openedClosure (h : b.Inv P) (hf : b.frames ≠ []) (span : Syntax.Span) :
    (b.openedClosure span).Inv P := by
  have hnew := h.newScope hf (show ScopeKind.closure ≠ .function by decide) (some b.closures.size) span
  have hbegun : (b.openedClosure span).begun = b.begun := by
    rw [begun_eq hf]
    rfl
  have hid := (h.current hf).1
  have hcur := newScope_parent hf .closure (some b.closures.size) span
  refine ⟨?_, ?_, h.keys_opened hf _ _ span, h.roots_opened hf _ _ span, ?_, ?_, ?_, ?_,
    fun _ => h.current_opened hf _⟩
  · rw [hbegun]
    exact h.forest.push (Nat.le_refl _) hnew
  · rw [hbegun]
    exact h.pairs.push_closure rfl rfl rfl rfl hcur hnew.owner
  · exact h.ordinals.push hid rfl
  · exact (h.vars.push_scope h.forest.preorder hnew.parent_lt
      fun c k => h.closure_scope_lt).push_closure rfl
  · exact h.frames.push (s := b.newScope .closure (some b.closures.size) span) rfl
  · exact h.flow.mono_closures (by simp [State.openedClosure, State.opened])

/-- Closing the scope of a block or a loop inside another scope. -/
theorem closed (h : b.Inv P) (hf : b.frames.tail ≠ [])
    (hc : b.scopes[b.currentScope]?.bind Scope.closure = none) : b.closed.Inv P := by
  obtain ⟨f, fs, hfs⟩ := List.exists_cons_of_ne_nil (l := b.frames) (by intro h; simp [h] at hf)
  have hbegun : b.closed.begun = b.begun := by
    rw [begun_eq (b := b) (by simp [hfs]), begun_eq (b := b.closed) hf]
    rfl
  refine ⟨hbegun ▸ h.forest, hbegun ▸ h.pairs, h.keys, h.roots, h.ordinals, h.vars, ?_, h.flow,
    fun _ => h.current (by simp [hfs])⟩
  have hpop := (hfs ▸ h.frames).pop
  rw [← currentScope_eq hfs, hc] at hpop
  simpa [State.closed, hfs] using hpop

/-- Closing the scope of a closure. -/
theorem closedClosure (h : b.Inv P) (hf : b.frames.tail ≠ []) {c : ClosureId}
    (hc : b.scopes[b.currentScope]?.bind Scope.closure = some c) : b.closedClosure.Inv P := by
  obtain ⟨f, fs, hfs⟩ := List.exists_cons_of_ne_nil (l := b.frames) (by intro h; simp [h] at hf)
  have hbegun : b.closedClosure.begun = b.begun := by
    rw [begun_eq (b := b) (by simp [hfs]), begun_eq (b := b.closedClosure) hf]
    rfl
  refine ⟨hbegun ▸ h.forest, hbegun ▸ h.pairs, h.keys, h.roots, h.ordinals, h.vars, ?_, h.flow,
    fun _ => h.current (by simp [hfs])⟩
  have hpop := (hfs ▸ h.frames).pop
  rw [← currentScope_eq hfs, hc] at hpop
  simpa [State.closedClosure, hfs] using hpop

/-- Declaring a variable. -/
theorem declared (h : b.Inv P) (hf : b.frames ≠ []) {name : String} (hname : P name) (ty : Ty)
    (isMut isParam : Bool) (span : Syntax.Span) :
    (b.declared name ty isMut isParam span).Inv P := by
  have hlt := h.currentScope_lt hf
  obtain ⟨f, fs, hfs⟩ := List.exists_cons_of_ne_nil hf
  have hbegun : (b.declared name ty isMut isParam span).begun = b.begun := by
    rw [begun_eq hf, begun_eq (by simp [State.declared, hfs])]
    rfl
  refine ⟨hbegun ▸ h.forest, hbegun ▸ h.pairs, h.keys, h.roots, h.ordinals,
    h.vars.push_var rfl hlt hname, ?_, ?_, fun _ => h.current hf⟩
  · simp only [State.declared, hfs]
    exact (hfs ▸ h.frames).push_var (currentScope_eq hfs) name
  · have := h.flow.push_var
    simpa [State.declared] using this

/-- Noting that a closure mentions a variable from around it. -/
theorem mentioned (h : b.Inv P) {c : Nat} {v : VarId}
    (hv : ∀ k, b.closures[c]? = some k → ∃ x, b.vars[v]? = some x ∧
      Around b.scopes x.scope k.scope) : (b.mentioned c v).Inv P := by
  have hplace (k : Closure) : SamePlace k (if k.freeVars.contains v then k
      else { k with freeVars := k.freeVars ++ [v] }) := by
    split <;> exact ⟨rfl, rfl, rfl, rfl, rfl⟩
  refine ⟨h.forest, h.pairs.modify c hplace, h.keys, h.roots, h.ordinals.modify c hplace,
    h.vars.modify c fun k hk => ⟨(hplace k).scope, fun w hw => ?_⟩, h.frames, ?_, h.current⟩
  · split at hw
    · exact .inl hw
    · rcases List.mem_append.mp hw with hw | hw
      · exact .inl hw
      · cases List.mem_singleton.mp hw
        exact .inr (hv k hk)
  · simpa [State.mentioned] using h.flow

/-- Storing into a variable. -/
theorem stored (h : b.Inv P) (v : VarId) {sources : List Source}
    (hs : ∀ x ∈ sources, x.InRange b.vars.size b.closures.size) : (b.stored v sources).Inv P :=
  { h with flow := h.flow.store v hs }

/-- Noting a sink. -/
theorem drainedBy (h : b.Inv P) (sink : Sink)
    (hs : ∀ x ∈ sink.sources, x.InRange b.vars.size b.closures.size) : (b.drainedBy sink).Inv P :=
  { h with flow := h.flow.drain hs }

/-- Recording the body of a closure. -/
theorem recorded (h : b.Inv P) (c : ClosureId) (params : List VarId) (body : Bound.Expr) :
    (b.recorded c params body).Inv P := by
  have hplace (k : Closure) : SamePlace k { k with params, body } := ⟨rfl, rfl, rfl, rfl, rfl⟩
  exact { h with
    pairs := h.pairs.modify c hplace
    ordinals := h.ordinals.modify c hplace
    vars := h.vars.modify c (f := fun k => { k with params, body }) fun k _ =>
      ⟨rfl, fun v hv => .inl hv⟩
    flow := by simpa [State.recorded] using h.flow }

/-- Starting a function. -/
theorem started (h : b.Inv P) (hf : b.frames = []) (name : String) (generics : List String)
    (span : Syntax.Span) (isSynthetic : Bool) :
    (b.started name generics span isSynthetic).Inv P := by
  have hbegun := begun_eq_of_nil hf
  have howner := hbegun ▸ h.forest.scope_owner
  have hbegun' : (b.started name generics span isSynthetic).begun = b.fns.size + 1 := rfl
  refine ⟨?_, ?_, ?_, ?_, ?_, ?_, ?_, h.flow, fun _ => ⟨rfl, ?_⟩⟩
  · rw [hbegun']
    refine (hbegun ▸ h.forest).push (Nat.le_succ _) ⟨rfl, ?_, ?_, ?_, Nat.lt_succ_self _⟩
    · simp [State.newScope, hf]
    · simp [State.newScope, hf]
    · simp [State.newScope, hf]
  · rw [hbegun']
    exact (hbegun ▸ h.pairs).push_scope (Nat.le_succ _) nofun rfl
  · simp only [State.started, State.opened, hf]
    exact h.keys.push_root h.forest.preorder (by simp [State.newScope])
  · refine h.roots.push_root howner rfl ?_
    simp [State.newScope, hf, State.started]
  · exact h.ordinals.next fun c k hk => hbegun ▸ h.pairs.closure_owner c k hk
  · refine h.vars.push_scope h.forest.preorder ?_ fun c k => h.closure_scope_lt
    simp [State.newScope, hf]
  · refine h.frames.push ?_
    simp [State.newScope]
  · exact ⟨_, Array.getElem?_push_size, by simp [State.newScope, hf], rfl⟩

/-- Ending a function. -/
theorem ended (h : b.Inv P) {f : Frame} (hf : b.frames = [f])
    (hc : b.scopes[f.scope]?.bind Scope.closure = none) (params : List VarId) (ret : Ty)
    (body : Bound.Block) : (b.ended params ret body).Inv P := by
  have hne : b.frames ≠ [] := by simp [hf]
  have hbegun := begun_eq hne
  have hbegun' : (b.ended params ret body).begun = b.fns.size + 1 := by
    rw [begun_eq_of_nil (by simp [State.ended, hf])]
    simp [State.ended]
  have howner := hbegun ▸ h.forest.scope_owner
  refine ⟨?_, ?_, h.keys, ?_, ?_, h.vars, ?_, h.flow, ?_⟩
  · rw [hbegun']
    exact hbegun ▸ h.forest
  · rw [hbegun']
    exact hbegun ▸ h.pairs
  · exact h.roots.push_fn howner (h.current hne).2 rfl
  · refine ⟨fun c k hk hko => ?_, h.ordinals.ne⟩
    have := hbegun ▸ h.pairs.closure_owner c k hk
    rw [hko] at this
    simp [State.ended] at this
  · have hpop := (hf ▸ h.frames).pop
    rw [hc] at hpop
    simpa [State.ended, hf] using hpop
  · simp [State.ended, hf]

end Inv

end ClosureEnv.Binding.State
