import ClosureEnv.Proofs.Binding.Preservation

/-!
# Steps inside a function

What binding a part of a body does to the state. A `Step` keeps the invariant and the open scopes,
and what it adds lies in the current scope: its variables belong there, and its closures mention
only their own variables and those that were visible. What a part promises of itself, `Part`, holds
in every final state that grows out of the state after it, because flow is only known at the end.
-/

namespace ClosureEnv.Binding

variable {P : String → Prop} {u : String} {b b' b'' F : State}

namespace State

/-- What variables may hold in a state. -/
def Holds (b : State) (v : VarId) (c : ClosureId) : Prop :=
  c ∈ b.holds v

/-- The end of binding: every declared function is there. -/
structure Final (P : String → Prop) (F : State) : Prop where
  inv : F.Inv P
  fns : ∀ name, (F.fnTypes.lookup name).isSome → ∃ f ∈ F.fns, f.name = name ∧ f.isSynthetic = false

/-- A variable that is visible in `b` and that the innermost closure of `b` needs if it is declared
around that closure. -/
def Seen (u : String) (F b : State) (v : VarId) : Prop :=
  b.Vis v ∧ ∀ (c : Nat) k x, b.closureStack.head? = some c → F.closures[c]? = some k →
    F.vars[v]? = some x → Around F.scopes x.scope k.scope → (F.finish u).Needs c v

/-- The body of a closure is well-scoped. -/
def BodyDone (u : String) (F : State) (c : Nat) : Prop :=
  ∀ k, (F.finish u).closures[c]? = some k →
    Bound.BodyScoped (F.finish u) F.Holds k.scope
        (fun v => (F.finish u).Needs c v ∨ v ∈ k.params) k.body ∧
      Bound.AllEscape (F.finish u) F.Holds k.body.sources ∧
      Bound.ParamsOf (F.finish u) k.scope k.params k.body.binds

end State

open State

/-- What binding a part of a body does. -/
structure Step (P : String → Prop) (u : String) (b b' : State) : Prop where
  inv : b'.Inv P
  grows : b.Grows b'
  stack : b'.closureStack = b.closureStack
  frames : b'.frames.map Frame.scope = b.frames.map Frame.scope
  outer : b'.frames.tail = b.frames.tail
  fns : b'.fns = b.fns
  globals : b'.globals = b.globals
  globalTypes : b'.globalTypes = b.globalTypes
  current : ∃ n, b'.current = { b.current with closureCount := n }
  /-- Nothing old becomes visible. -/
  vis : ∀ v, b'.Vis v → b.Vis v ∨ b.vars.size ≤ v
  /-- Closures mention nothing old that was not visible. -/
  free : ∀ (c : Nat) l v, b'.closures[c]? = some l → v ∈ l.freeVars →
    (∃ k, b.closures[c]? = some k ∧ v ∈ k.freeVars) ∨ b.Vis v ∨ b.vars.size ≤ v
  /-- New variables belong to the current scope or below. -/
  new_vars : ∀ (v : Nat) x, b.vars.size ≤ v → b'.vars[v]? = some x →
    AroundEq b'.scopes b.currentScope x.scope
  /-- The innermost open scope keeps its names. -/
  names : ∀ f ∈ b.frames.head?, ∃ f' ∈ b'.frames.head?, f.names ⊆ f'.names
  /-- New variables of the current scope are named there. -/
  named : ∀ (v : Nat) x, b.vars.size ≤ v → b'.vars[v]? = some x → x.scope = b.currentScope →
    ∃ f ∈ b'.frames.head?, ∃ n, (n, v) ∈ f.names
  /-- New closures are done. -/
  bodies : ∀ F, F.Final P → b'.Grows F → ∀ c, b.closures.size ≤ c → c < b'.closures.size →
    F.BodyDone u c

/-- What binding a part of a body does, where the part declares some variables and keeps a promise
at the end of binding. -/
structure Part (P : String → Prop) (u : String) (b b' : State) (binds : List VarId)
    (promise : State → Prop) : Prop extends Step P u b b' where
  binds_mem : ∀ v ∈ binds, b.vars.size ≤ v ∧ v < b'.vars.size
  binds_nodup : binds.Nodup
  kept : ∀ F, F.Final P → b'.Grows F → promise F

/-- What binding a part of a body with a value does. -/
structure Valued (P : String → Prop) (u : String) (b b' : State) (binds : List VarId)
    (sources : List Source) (promise : State → Prop) : Prop
    extends Part P u b b' binds promise where
  same : b'.frames = b.frames
  in_range : ∀ s ∈ sources, s.InRange b'.vars.size b'.closures.size

/-- Scopes further in do not change what is around a scope. -/
theorem State.Grows.around_later_iff (h : b.Grows b') (hb : b.Inv P) (hb' : b'.Inv P) {o s : Nat}
    (hs : s < b.scopes.size) : Around b'.scopes o s ↔ Around b.scopes o s :=
  around_congr hb.forest.preorder hb'.forest.preorder h.scopes hs

/-- Scopes further in do not change what is at or around a scope. -/
theorem State.Grows.aroundEq_later_iff (h : b.Grows b') (hb : b.Inv P) (hb' : b'.Inv P) {o s : Nat}
    (hs : s < b.scopes.size) : AroundEq b'.scopes o s ↔ AroundEq b.scopes o s :=
  or_congr_right (h.around_later_iff hb hb' hs)

/-- The current scope is known from the open ones. -/
theorem State.currentScope_congr (h : b'.frames.map Frame.scope = b.frames.map Frame.scope) :
    b'.currentScope = b.currentScope := by
  unfold currentScope
  rcases hf : b.frames with _ | ⟨f, fs⟩ <;> rcases hf' : b'.frames with _ | ⟨g, gs⟩ <;>
    simp_all

namespace Step

/-- The current scope stays. -/
theorem currentScope (h : Step P u b b') : b'.currentScope = b.currentScope :=
  currentScope_congr h.frames

/-- A scope stays open. -/
theorem frames_ne (h : Step P u b b') (hf : b.frames ≠ []) : b'.frames ≠ [] := by
  intro h0
  have := h.frames
  rw [h0, List.map_nil] at this
  exact hf (List.map_eq_nil_iff.mp this.symm)

/-- No step is needed. -/
theorem refl (h : b.Inv P) : Step P u b b where
  inv := h
  grows := .refl b
  stack := rfl
  frames := rfl
  outer := rfl
  fns := rfl
  globals := rfl
  globalTypes := rfl
  current := ⟨_, rfl⟩
  vis _ hv := .inl hv
  free _ l _ hl hv := .inl ⟨l, hl, hv⟩
  new_vars v x hv hx := absurd (Array.getElem?_eq_some_iff.mp hx).1 (by omega)
  names f hf := ⟨f, hf, fun _ h => h⟩
  named v x hv hx := absurd (Array.getElem?_eq_some_iff.mp hx).1 (by omega)
  bodies _ _ _ c hc hc' := absurd hc' (by omega)

/-- Steps compose. -/
theorem trans (h : Step P u b b') (h' : Step P u b' b'') : Step P u b b'' where
  inv := h'.inv
  grows := h.grows.trans h'.grows
  stack := h'.stack.trans h.stack
  frames := h'.frames.trans h.frames
  outer := h'.outer.trans h.outer
  fns := h'.fns.trans h.fns
  globals := h'.globals.trans h.globals
  globalTypes := h'.globalTypes.trans h.globalTypes
  current := by
    obtain ⟨m, hm⟩ := h.current
    obtain ⟨n, hn⟩ := h'.current
    exact ⟨n, by rw [hn, hm]⟩
  vis v hv := by
    have := h.grows.vars_size
    rcases h'.vis v hv with hv | hv
    · exact h.vis v hv
    · exact .inr (Nat.le_trans this hv)
  -- A free variable that the second part adds was visible between the parts, so it was visible at
  -- the start or is new.
  free c l v hl hv := by
    have := h.grows.vars_size
    rcases h'.free c l v hl hv with ⟨k, hk, hkv⟩ | hv | hv
    · exact h.free c k v hk hkv
    · exact .inr (h.vis v hv)
    · exact .inr (.inr (Nat.le_trans this hv))
  -- A variable of the first part keeps its scope, and one of the second is below the same scope.
  new_vars v x hv hx := by
    by_cases hlt : v < b'.vars.size
    · have hx' := Array.getElem?_eq_getElem hlt
      have heq := hx.symm.trans (h'.grows.vars v _ hx')
      cases heq
      have hs := (h.inv.vars.var_scope v _ hx').2
      exact (h'.grows.aroundEq_later_iff h.inv h'.inv hs).mpr (h.new_vars v _ hv hx')
    · have := h'.new_vars v x (by omega) hx
      rwa [h.currentScope] at this
  names f hf := by
    obtain ⟨g, hg, hfg⟩ := h.names f hf
    obtain ⟨f', hf', hgf⟩ := h'.names g hg
    exact ⟨f', hf', fun _ hn => hgf (hfg hn)⟩
  named v x hv hx hs := by
    by_cases hlt : v < b'.vars.size
    · have hx' := Array.getElem?_eq_getElem hlt
      cases hx.symm.trans (h'.grows.vars v _ hx')
      obtain ⟨f, hf, n, hn⟩ := h.named v _ hv hx' hs
      obtain ⟨f', hf', hff⟩ := h'.names f hf
      exact ⟨f', hf', n, hff hn⟩
    · exact h'.named v x (by omega) hx (hs.trans h.currentScope.symm)
  bodies F hF hg c hc hc' := by
    by_cases hlt : c < b'.closures.size
    · exact h.bodies F hF (h'.grows.trans hg) c hc hlt
    · exact h'.bodies F hF hg c (by omega) hc'

end Step

namespace Part

variable {xs ys : List VarId} {φ ψ : State → Prop}

/-- A step that declares nothing. -/
theorem ofStep (h : Step P u b b') (hφ : ∀ F, F.Final P → b'.Grows F → φ F) :
    Part P u b b' [] φ :=
  { h with binds_mem := nofun, binds_nodup := .nil, kept := hφ }

/-- What follows from a promise is promised too. -/
theorem imp (h : Part P u b b' xs φ) (hφ : ∀ F, F.Final P → b'.Grows F → φ F → ψ F) :
    Part P u b b' xs ψ :=
  { h with kept := fun F hF hg => hφ F hF hg (h.kept F hF hg) }

/-- Parts compose. -/
theorem append (h : Part P u b b' xs φ) (h' : Part P u b' b'' ys ψ) :
    Part P u b b'' (xs ++ ys) fun F => φ F ∧ ψ F where
  toStep := h.toStep.trans h'.toStep
  binds_mem v hv := by
    have hle := h.grows.vars_size
    have hle' := h'.grows.vars_size
    rcases List.mem_append.mp hv with hv | hv
    · have := h.binds_mem v hv
      exact ⟨this.1, Nat.lt_of_lt_of_le this.2 hle'⟩
    · have := h'.binds_mem v hv
      exact ⟨Nat.le_trans hle this.1, this.2⟩
  binds_nodup := by
    refine List.nodup_append.mpr ⟨h.binds_nodup, h'.binds_nodup, ?_⟩
    rintro v hv w hw rfl
    exact absurd (h.binds_mem v hv).2 (Nat.not_lt.mpr (h'.binds_mem v hw).1)
  kept F hF hg := ⟨h.kept F hF (h'.grows.trans hg), h'.kept F hF hg⟩

/-- A part and a step that declares nothing. -/
theorem step (h : Part P u b b' xs φ) (h' : Step P u b' b'') : Part P u b b'' xs φ := by
  have := h.append (ofStep (φ := fun _ => True) h' fun _ _ _ => trivial)
  rw [List.append_nil] at this
  exact this.imp fun _ _ _ => And.left

end Part

namespace Valued

variable {xs ys : List VarId} {ss ts : List Source} {φ ψ : State → Prop}

/-- The same variables are seen. -/
theorem seen_eq (h : Valued P u b b' xs ss φ) (F : State) :
    F.Seen u b' = F.Seen u b := by
  funext v
  simp only [Seen, Vis, h.same, h.stack]

/-- A part with a value declares nothing in the current scope itself. -/
theorem below (h : Valued P u b b' xs ss φ) (hb : b.Inv P) {v : Nat} {x : Variable}
    (hv : b.vars.size ≤ v) (hx : b'.vars[v]? = some x) :
    Around b'.scopes b.currentScope x.scope := by
  refine (h.new_vars v x hv hx).resolve_left fun heq => ?_
  obtain ⟨f, hf, n, hn⟩ := h.named v x hv hx heq.symm
  rw [h.same] at hf
  obtain ⟨y, hy, -⟩ := hb.frames.names f (List.mem_of_mem_head? hf) n v hn
  exact absurd (Array.getElem?_eq_some_iff.mp hy).1 (Nat.not_lt.mpr hv)

/-- What follows from a promise is promised too. -/
theorem imp (h : Valued P u b b' xs ss φ) (hφ : ∀ F, F.Final P → b'.Grows F → φ F → ψ F) :
    Valued P u b b' xs ss ψ :=
  { h.toPart.imp hφ with same := h.same, in_range := h.in_range }

/-- A value whose sources do not matter. -/
theorem dropSources (h : Valued P u b b' xs ss φ) : Valued P u b b' xs [] φ :=
  { h with in_range := nofun }

/-- The sources of a value are in range later on. -/
theorem in_range_later (h : Valued P u b b' xs ss φ) (h' : b'.Grows b'') :
    ∀ s ∈ ss, s.InRange b''.vars.size b''.closures.size :=
  fun s hs => (h.in_range s hs).mono h'.vars_size h'.closures_size

/-- Values compose. -/
theorem append (h : Valued P u b b' xs ss φ) (h' : Valued P u b' b'' ys ts ψ) :
    Valued P u b b'' (xs ++ ys) (ss ++ ts) fun F => φ F ∧ ψ F :=
  { h.toPart.append h'.toPart with
    same := h'.same.trans h.same
    in_range := fun s hs => (List.mem_append.mp hs).elim (h.in_range_later h'.grows s)
      (h'.in_range s) }

end Valued

end ClosureEnv.Binding
