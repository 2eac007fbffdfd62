import ClosureEnv.Proofs.Binding.Step

/-!
# What an open scope encloses

The primitive steps as steps of binding, and how a step inside a scope becomes one outside of it
when the scope is closed. Nothing is added below a scope once it is closed, so what a closure needs
is known when its scope is closed (`getElem?_of_inside`).
-/

namespace ClosureEnv.Binding

open State

variable {P : String → Prop} {u : String} {b b' F : State}

/-- The closures of the tree are those that were bound, with their hints. -/
theorem State.closure_finish_iff {c : Nat} {k : Closure} :
    (F.finish u).closures[c]? = some k ↔
      ∃ l, F.closures[c]? = some l ∧ { l with escapes := F.escaping.contains l.id } = k := by
  rw [State.finish, Array.getElem?_map, Option.map_eq_some_iff]

/-- A closure that was bound is one of the tree. -/
theorem State.closure_finish {c : Nat} {k : Closure} (hk : F.closures[c]? = some k) :
    (F.finish u).closures[c]? = some { k with escapes := F.escaping.contains k.id } :=
  State.closure_finish_iff.mpr ⟨k, hk, rfl⟩

/-- What a closure needs, from the state that the tree is made of. -/
theorem needs_finish_iff {c : Nat} {v : VarId} :
    (F.finish u).Needs c v ↔ ∃ outer inner x, F.closures[c]? = some outer ∧
      inner ∈ F.closures ∧ F.vars[v]? = some x ∧ AroundEq F.scopes outer.scope inner.scope ∧
      v ∈ inner.freeVars ∧ ¬ AroundEq F.scopes outer.scope x.scope := by
  simp only [ScopeTree.Needs, State.finish, Array.getElem?_map, Option.map_eq_some_iff,
    Array.mem_map]
  constructor
  · rintro ⟨_, _, x, ⟨outer, ho, rfl⟩, ⟨inner, hi, rfl⟩, hx, h⟩
    exact ⟨outer, inner, x, ho, hi, hx, h⟩
  · rintro ⟨outer, inner, x, ho, hi, hx, h⟩
    exact ⟨_, _, x, ⟨outer, ho, rfl⟩, ⟨inner, hi, rfl⟩, hx, h⟩

/-- Nothing is added below a scope that is closed. -/
theorem State.Grows.lt_of_inside (h : b.Grows F) (hb : b.Inv P) (hF : F.Inv P)
    (hf : b.frames ≠ []) {q : Nat} (hq : q < b.scopes.size) (hclosed : q ∉ b.frames.map Frame.scope)
    {s : Nat} (hs : AroundEq F.scopes q s) : s < b.scopes.size := by
  induction s using Nat.strongRecOn with
  | ind s ih =>
    refine Nat.lt_of_not_le fun hle => ?_
    rcases hs with rfl | hs
    · exact absurd hq (Nat.not_lt.mpr hle)
    · obtain ⟨p, hpar, hqp⟩ := (around_iff hF.forest.preorder).mp hs
      have hps := hF.forest.preorder s p hpar
      rcases h.new_parent s p hle hpar with hp | hp
      · have hpc := (hb.mem_frames_iff hf).mp hp
        have hlt := Nat.lt_of_le_of_lt (hpc.le hb.forest.preorder) (hb.currentScope_lt hf)
        have hqp' := (h.aroundEq_later_iff hb hF hlt).mp hqp
        exact hclosed ((hb.mem_frames_iff hf).mpr (hqp'.trans hb.forest.preorder hpc))
      · exact absurd (ih p hps hqp) (Nat.not_lt.mpr hp)

/-- An open closure is there. -/
theorem State.Inv.closure_of_mem_stack (h : b.Inv P) {c : Nat} (hc : c ∈ b.closureStack) :
    ∃ k, b.closures[c]? = some k := by
  rw [h.frames.stack, List.mem_filterMap] at hc
  obtain ⟨f, -, hfc⟩ := hc
  obtain ⟨s, hs, hsc⟩ := Option.bind_eq_some_iff.mp hfc
  obtain ⟨k, hk, -⟩ := h.pairs.closure_of_scope _ s _ hs hsc
  exact ⟨k, hk⟩

/-- An open closure has an open scope. -/
theorem State.Inv.scope_mem_frames (h : b.Inv P) {c : Nat} {k : Closure}
    (hk : b.closures[c]? = some k) (hc : c ∈ b.closureStack) :
    k.scope ∈ b.frames.map Frame.scope := by
  rw [h.frames.stack, List.mem_filterMap] at hc
  obtain ⟨f, hf, hfc⟩ := hc
  obtain ⟨s, hs, hsc⟩ := Option.bind_eq_some_iff.mp hfc
  obtain ⟨l, hl, hlf⟩ := h.pairs.closure_of_scope f.scope s c hs hsc
  cases hk.symm.trans hl
  exact hlf ▸ List.mem_map_of_mem hf

/-- What is below a closed scope at the end was there when it was closed. -/
theorem State.Grows.getElem?_of_inside (h : b.Grows F) (hb : b.Inv P) (hF : F.Inv P)
    (hf : b.frames ≠ []) {q : Nat} (hq : q < b.scopes.size) (hclosed : q ∉ b.frames.map Frame.scope)
    {d : Nat} {inner : Closure} (hd : F.closures[d]? = some inner)
    (hs : AroundEq F.scopes q inner.scope) : b.closures[d]? = some inner := by
  have hlt := h.lt_of_inside hb hF hf hq hclosed hs
  obtain ⟨s, hsF, hsc, -⟩ := hF.pairs.closure_scope d inner hd
  have hsb := Array.getElem?_eq_getElem hlt
  cases hsF.symm.trans (h.scopes _ _ hsb)
  obtain ⟨k, hk, hks⟩ := hb.pairs.closure_of_scope inner.scope _ d hsb hsc
  have hstack : d ∉ b.closureStack := by
    intro hmem
    have hmem' := hb.scope_mem_frames hk hmem
    rw [hks, hb.mem_frames_iff hf] at hmem'
    have hqs := (h.aroundEq_later_iff hb hF hlt).mp hs
    exact hclosed ((hb.mem_frames_iff hf).mpr (hqs.trans hb.forest.preorder hmem'))
  cases hd.symm.trans (h.closed d k hk hstack)
  exact hk

namespace State

/-- Opening a scope. -/
theorem grows_opened (b : State) (kind : ScopeKind) (closure : Option ClosureId) (span : Syntax.Span) :
    b.Grows (b.opened kind closure span) :=
  { Grows.refl b with
    scopes := fun i s hs => getElem?_push_of_some hs _
    frames := fun f hf => (List.mem_cons.mp hf).elim (fun hf => .inr (hf ▸ Nat.le_refl _))
      fun hf => .inl (List.mem_map_of_mem hf)
    new_parent := by
      intro i p hi hp
      simp only [State.opened, parentIn?_push] at hp
      split at hp
      · rcases hfs : b.frames with _ | ⟨f, fs⟩ <;> simp [State.newScope, hfs] at hp ⊢
        exact .inl (.inl hp.symm)
      · exact absurd (lt_size_of_parentIn? hp) (by omega) }

/-- Opening a scope below the current one. -/
theorem parentIn?_opened (h : b.frames ≠ []) (kind : ScopeKind) (closure : Option ClosureId)
    (span : Syntax.Span) :
    parentIn? (b.opened kind closure span).scopes b.scopes.size = some b.currentScope :=
  (parentIn?_of_scope Array.getElem?_push_size).trans (newScope_parent h kind closure span)

/-- Closing a scope. -/
theorem grows_closed (b : State) : b.Grows b.closed :=
  { Grows.refl b with
    frames := fun _ hf => .inl (List.mem_map_of_mem (List.mem_of_mem_tail hf))
    new_parent := fun _ _ hi hp => absurd (lt_size_of_parentIn? hp) (Nat.not_lt.mpr hi) }

/-- Opening the scope of a closure. -/
theorem grows_openedClosure (b : State) (span : Syntax.Span) :
    b.Grows (b.openedClosure span) :=
  { grows_opened b .closure (some b.closures.size) span with
    closures := fun _ k hk => ⟨k, getElem?_push_of_some hk _, .refl k⟩
    closed := fun _ _ hk _ => getElem?_push_of_some hk _
    stack := fun _ hc hmem => (List.mem_cons.mp hmem).elim
      (fun h => absurd hc (h ▸ Nat.lt_irrefl _)) id }

end State

namespace Step

/-- Declaring a variable. -/
theorem declared (h : b.Inv P) (hf : b.frames ≠ []) {name : String} (hname : P name) (ty : Ty)
    (isMut isParam : Bool) (span : Syntax.Span) :
    Step P u b (b.declared name ty isMut isParam span) := by
  have hinv := h.declared hf hname ty isMut isParam span
  obtain ⟨f, fs, hfs⟩ := List.exists_cons_of_ne_nil hf
  -- The only new variable is one of the current scope.
  have hold (v : Nat) (x : Variable) (hv : b.vars.size ≤ v)
      (hx : (b.declared name ty isMut isParam span).vars[v]? = some x) :
      x.scope = b.currentScope := by
    simp only [State.declared, Array.getElem?_push] at hx
    split at hx
    · cases hx
      rfl
    · exact absurd (Array.getElem?_eq_some_iff.mp hx).1 (by omega)
  exact { Step.refl (u := u) h with
    inv := hinv
    grows := { Grows.refl b with
      vars := fun v x hx => getElem?_push_of_some hx _
      frames := fun g hg => by
        simp only [State.declared, hfs, List.mem_cons] at hg
        refine .inl ?_
        rcases hg with rfl | hg
        · simp [hfs]
        · exact hfs ▸ List.mem_map_of_mem (List.mem_cons_of_mem f hg)
      stored := fun v x hx => by
        simp only [State.declared, sourcesOf] at hx ⊢
        rw [Array.getElem?_push, if_neg]
        · exact hx
        · rintro rfl
          simp at hx }
    frames := by simp [State.declared, hfs]
    outer := by simp [State.declared, hfs]
    vis := fun v hv => by
      obtain ⟨g, hg, n, hn⟩ := hv
      simp only [State.declared, hfs, List.mem_cons] at hg
      rcases hg with rfl | hg
      · rcases List.mem_cons.mp hn with heq | hn
        · cases heq
          exact .inr (Nat.le_refl _)
        · exact .inl ⟨f, by simp [hfs], n, hn⟩
      · exact .inl ⟨g, by simp [hfs, hg], n, hn⟩
    new_vars := fun v x hv hx => .inl (hold v x hv hx).symm
    names := fun g hg => by
      rw [hfs] at hg
      cases hg
      refine ⟨{ f with names := (name, b.vars.size) :: f.names }, ?_, List.subset_cons_self _ _⟩
      simp [State.declared, hfs]
    named := fun v x hv hx _ => by
      have hlt := (Array.getElem?_eq_some_iff.mp hx).1
      simp only [State.declared, Array.size_push] at hlt
      obtain rfl : v = b.vars.size := by omega
      refine ⟨{ f with names := (name, b.vars.size) :: f.names }, ?_, name, List.mem_cons_self⟩
      simp [State.declared, hfs]
    bodies := fun _ _ _ _ hc hc' => absurd hc' (Nat.not_lt.mpr hc) }

/-- Noting that an open closure mentions a visible variable from around it. -/
theorem mentioned (h : b.Inv P) {c : Nat} (hc : c ∈ b.closureStack) {v : VarId} (hvis : b.Vis v)
    (hv : ∀ k, b.closures[c]? = some k → ∃ x, b.vars[v]? = some x ∧
      Around b.scopes x.scope k.scope) : Step P u b (b.mentioned c v) := by
  -- A list of free variables only grows.
  have hle (d : Nat) (k : Closure) (hk : b.closures[d]? = some k) :
      ∃ l, (b.mentioned c v).closures[d]? = some l ∧ ClosureLe k l := by
    rw [getElem?_mentioned, hk]
    by_cases hcd : c = d
    · refine ⟨_, by rw [if_pos hcd]; rfl, ?_⟩
      dsimp only
      split
      · exact .refl k
      · exact ⟨⟨rfl, rfl, rfl, rfl, rfl⟩, List.subset_append_left _ _⟩
    · exact ⟨k, if_neg hcd, .refl k⟩
  exact { Step.refl (u := u) h with
    inv := h.mentioned hv
    grows := { Grows.refl b with
      closures := hle
      closed := fun d k hk hd => by
        rw [getElem?_mentioned, if_neg]
        · exact hk
        · rintro rfl
          exact hd hc }
    free := fun d l w hl hw => by
      rw [getElem?_mentioned] at hl
      split at hl
      · obtain ⟨k, hk, rfl⟩ := Option.map_eq_some_iff.mp hl
        split at hw
        · exact .inl ⟨k, hk, hw⟩
        · rcases List.mem_append.mp hw with hw | hw
          · exact .inl ⟨k, hk, hw⟩
          · cases List.mem_singleton.mp hw
            exact .inr (.inl hvis)
      · exact .inl ⟨l, hl, hw⟩
    bodies := fun _ _ _ d hd hd' => by
      simp only [State.mentioned, Array.size_modify] at hd'
      exact absurd hd' (Nat.not_lt.mpr hd) }

/-- Noting a use of a visible variable. Afterwards the innermost closure mentions the variable if
it comes from around the closure. -/
theorem used (h : b.Inv P) {v : VarId} (hvis : b.Vis v) :
    Step P u b (b.used v) ∧ (b.used v).frames = b.frames ∧
      ∀ (c : Nat) k x, b.closureStack.head? = some c → b.closures[c]? = some k →
        b.vars[v]? = some x → Around b.scopes x.scope k.scope →
        ∃ l, (b.used v).closures[c]? = some l ∧ v ∈ l.freeVars := by
  unfold State.used
  split
  · next hs => exact ⟨.refl h, rfl, fun c k x hc => by simp [hs] at hc⟩
  · next c cs hs =>
    have hc : c ∈ b.closureStack := hs ▸ List.mem_cons_self
    obtain ⟨f, hf, n, hn⟩ := hvis
    obtain ⟨x, hx, -⟩ := h.frames.names f hf n v hn
    split
    · next hanc =>
      refine ⟨.mentioned h hc ⟨f, hf, n, hn⟩ fun k hk => ⟨x, hx, ?_⟩, rfl, ?_⟩
      · simpa [hx, hk, isStrictAncestorIn_iff] using hanc
      · intro d k y hd hk _ _
        cases hd.symm.trans (hs ▸ List.head?_cons)
        refine ⟨_, by rw [getElem?_mentioned, if_pos rfl, hk]; rfl, ?_⟩
        dsimp only
        split
        · next hmem => simpa using hmem
        · simp
    · next hanc =>
      -- The variable is not from around the closure, of which nothing is claimed then.
      refine ⟨.refl h, rfl, fun d k y hd hk hy hyk => absurd ?_ hanc⟩
      cases hd.symm.trans (hs ▸ List.head?_cons)
      simpa [hy, hk, isStrictAncestorIn_iff] using hyk

/-- Storing into a variable. -/
theorem stored (h : b.Inv P) (v : VarId) {sources : List Source}
    (hs : ∀ x ∈ sources, x.InRange b.vars.size b.closures.size) :
    Step P u b (b.stored v sources) :=
  { Step.refl (u := u) h with
    inv := h.stored v hs
    grows := { Grows.refl b with
      stored := fun w x hx => by
        simp only [State.stored, sourcesOf] at hx ⊢
        rw [Array.getElem?_modify]
        split
        · next heq =>
          subst heq
          rcases hw : b.varSources[v]? with _ | xs
          · simp [hw] at hx
          · simp only [hw, Option.getD_some, Option.map_some, List.mem_append] at hx ⊢
            exact .inl hx
        · exact hx }
    bodies := fun _ _ _ _ hc hc' => absurd hc' (Nat.not_lt.mpr hc) }

/-- Noting a sink. -/
theorem drainedBy (h : b.Inv P) (sink : Sink)
    (hs : ∀ x ∈ sink.sources, x.InRange b.vars.size b.closures.size) :
    Step P u b (b.drainedBy sink) :=
  { Step.refl (u := u) h with
    inv := h.drainedBy sink hs
    grows := { Grows.refl b with sinks := List.subset_cons_self sink b.sinks }
    bodies := fun _ _ _ _ hc hc' => absurd hc' (Nat.not_lt.mpr hc) }

/-- A step inside a block or a loop, seen from outside once the scope is closed. -/
theorem enclosed (h : b.Inv P) (hf : b.frames ≠ []) {kind : ScopeKind} (hk : kind ≠ .function)
    (hk' : kind ≠ .closure) {span : Syntax.Span} (hs : Step P u (b.opened kind none span) b') :
    Step P u b b'.closed ∧ b'.closed.frames = b.frames := by
  have hopen := h.opened hf hk hk' span
  have htail : b'.frames.tail = b.frames := hs.outer
  have hcur : b'.currentScope = b.scopes.size := hs.currentScope
  have hnew : (b.opened kind none span).scopes[b.scopes.size]? =
      some (b.newScope kind none span) := Array.getElem?_push_size
  have hnew' := hs.grows.scopes _ _ hnew
  have hpar := hs.grows.parent (State.parentIn?_opened hf kind none span)
  have hinv : b'.closed.Inv P := by
    refine hs.inv.closed (htail ▸ hf) ?_
    rw [hcur, hnew']
    rfl
  refine ⟨?_, htail⟩
  exact {
    inv := hinv
    grows := ((grows_opened b kind none span).trans hs.grows).trans (grows_closed b')
    stack := hs.stack
    frames := congrArg _ htail
    outer := congrArg _ htail
    fns := hs.fns
    globals := hs.globals
    globalTypes := hs.globalTypes
    current := hs.current
    -- What is visible once the scope is closed was visible before it was opened.
    vis := fun v hv => by
      obtain ⟨g, hg, n, hn⟩ := hv
      exact .inl ⟨g, htail ▸ hg, n, hn⟩
    free := fun c l v hl hv => by
      rcases hs.free c l v hl hv with hv | ⟨g, hg, n, hn⟩ | hv
      · exact .inl hv
      · -- The name is not one of the new frame, which starts without any.
        rcases List.mem_cons.mp hg with rfl | hg
        · simp at hn
        · exact .inr (.inl ⟨g, hg, n, hn⟩)
      · exact .inr (.inr hv)
    new_vars := fun v x hv hx =>
      .inr (around_parent hs.inv.forest.preorder hpar |>.trans_eq hs.inv.forest.preorder
        (hs.new_vars v x hv hx))
    names := fun f hf => ⟨f, (congrArg List.head? htail).symm ▸ hf, fun _ h => h⟩
    -- A new variable lies below the current scope, so none is declared in it.
    named := fun v x hv hx heq => by
      have hnew := (around_parent hs.inv.forest.preorder hpar).trans_eq hs.inv.forest.preorder
        (hs.new_vars v x hv hx)
      exact absurd (heq ▸ hnew) (Around.irrefl hs.inv.forest.preorder)
    bodies := fun F hF hg c hc hc' => hs.bodies F hF ((grows_closed b').trans hg) c hc hc' }

end Step

end ClosureEnv.Binding
