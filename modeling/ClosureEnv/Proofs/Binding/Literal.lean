import ClosureEnv.Proofs.Binding.Flow

/-!
# Closure literals

Binding a closure literal, from the opening of the scope of the closure to its end. What the closure
needs is visible where the literal stands, because its own variables and those below are declared
inside; and its body, which saw what was visible then, sees what the closure needs.
-/

namespace ClosureEnv.Binding

open State ClosureEnv.Bound

variable {P : String → Prop} {u : String} {b b' F : State}

/-- Ending a closure that is the innermost one. -/
theorem State.grows_finished {c : Nat} {cs : List ClosureId} (h : b.closureStack = c :: cs)
    (params : List VarId) (body : Expr) (sources : List Source) :
    b.Grows (b.finished c params body sources) :=
  { Grows.refl b with
    closures := fun d k hk => by
      rw [getElem?_finished, hk]
      by_cases hcd : c = d
      · exact ⟨{ k with params, body }, by rw [if_pos hcd]; rfl, ⟨rfl, rfl, rfl, rfl, rfl⟩,
          fun _ => id⟩
      · exact ⟨k, if_neg hcd, .refl k⟩
    closed := fun d k hk hd => by
      rw [getElem?_finished, if_neg]
      · exact hk
      · rintro rfl
        exact hd (h ▸ List.mem_cons_self)
    stack := fun _ _ hd => List.mem_of_mem_tail hd
    frames := fun _ hf => .inl (List.mem_map_of_mem (List.mem_of_mem_tail hf))
    new_parent := fun _ _ hi hp => absurd (lt_size_of_parentIn? hp) (Nat.not_lt.mpr hi)
    sinks := List.subset_cons_self _ b.sinks }

/-- The state inside a closure whose scope was opened in `b`: at position `b.closures.size`, with a
scope at position `b.scopes.size`. -/
structure Within (P : String → Prop) (u : String) (span : Syntax.Span) (b b' : State) : Prop
    extends Step P u (b.openedClosure span) b' where
  start : b.Inv P
  frames_ne : b.frames ≠ []

namespace Within

variable {span : Syntax.Span} (h : Within P u span b b')

include h

/-- The closure is there. -/
theorem closure : ∃ k, b'.closures[b.closures.size]? = some k ∧ k.scope = b.scopes.size ∧
    k.declaredIn = b.currentScope := by
  have hnew : (b.openedClosure span).closures[b.closures.size]? = some (b.newClosure span) :=
    Array.getElem?_push_size
  obtain ⟨k, hk, hle⟩ := h.grows.closures _ _ hnew
  exact ⟨k, hk, hle.scope, hle.declaredIn⟩

/-- The scope of the closure is right below the scope outside. -/
theorem parent : parentIn? b'.scopes b.scopes.size = some b.currentScope :=
  h.grows.parent (parentIn?_opened h.frames_ne .closure (some b.closures.size) span)

/-- The closure is open, and no other that was not open outside. -/
theorem stack_eq : b'.closureStack = b.closures.size :: b.closureStack :=
  h.stack

/-- The scopes open outside are still open. -/
theorem outer_eq : b'.frames.tail = b.frames :=
  h.outer

/-- The current scope is that of the closure or below: it is that of the closure. -/
theorem currentScope_eq : b'.currentScope = b.scopes.size :=
  h.currentScope

/-- The closure is not open outside. -/
theorem not_mem_stack : b.closures.size ∉ b.closureStack := by
  intro hmem
  obtain ⟨k, hk⟩ := h.start.closure_of_mem_stack hmem
  exact Nat.lt_irrefl _ (Array.getElem?_eq_some_iff.mp hk).1

variable {params : List VarId} {body : Expr} {sources : List Source}

/-- The invariant after the closure is ended. -/
theorem inv_finished (params : List VarId) (body : Expr)
    (hrange : ∀ s ∈ sources, s.InRange b'.vars.size b'.closures.size) :
    (b'.finished b.closures.size params body sources).Inv P := by
  have hnew : (b.openedClosure span).scopes[b.scopes.size]? =
      some (b.newScope .closure (some b.closures.size) span) := Array.getElem?_push_size
  have hclosed : b'.closedClosure.Inv P := by
    refine h.inv.closedClosure (c := b.closures.size) (h.outer_eq ▸ h.frames_ne) ?_
    rw [h.currentScope_eq, h.grows.scopes _ _ hnew]
    rfl
  exact (hclosed.drainedBy (.escape sources) hrange).recorded _ params body

/-- The closure once it is ended. -/
theorem closure_finished (params : List VarId) (body : Expr) (sources : List Source) :
    ∃ k, (b'.finished b.closures.size params body sources).closures[
      b.closures.size]? = some k ∧ k.scope = b.scopes.size ∧ k.declaredIn = b.currentScope ∧
      k.params = params ∧ k.body = body := by
  obtain ⟨k, hk, hs, hd⟩ := h.closure
  refine ⟨{ k with params, body }, ?_, hs, hd, rfl, rfl⟩
  rw [getElem?_finished, if_pos rfl, hk]
  rfl

/-- The literal, seen from outside, but for the body of the closure itself. -/
theorem finished (hrange : ∀ s ∈ sources, s.InRange b'.vars.size b'.closures.size)
    (hdone : ∀ F, F.Final P → (b'.finished b.closures.size params body sources).Grows F →
      F.BodyDone u b.closures.size) :
    Step P u b (b'.finished b.closures.size params body sources) where
  inv := h.inv_finished params body hrange
  grows := ((grows_openedClosure b span).trans h.grows).trans
    (grows_finished h.stack_eq params body sources)
  stack := congrArg List.tail h.stack_eq
  frames := congrArg _ h.outer_eq
  outer := congrArg _ h.outer_eq
  fns := h.fns
  globals := h.globals
  globalTypes := h.globalTypes
  current := by
    obtain ⟨n, hn⟩ := h.current
    exact ⟨n, hn⟩
  vis v := by
    rintro ⟨g, hg, n, hn⟩
    exact .inl ⟨g, h.outer_eq ▸ hg, n, hn⟩
  -- What the closures mention is already in the last state of the body, where only the literal is
  -- finished.
  free d l v hl hv := by
    have hl' : ∃ k, b'.closures[d]? = some k ∧ v ∈ k.freeVars := by
      rw [getElem?_finished] at hl
      split at hl
      · obtain ⟨k, hk, rfl⟩ := Option.map_eq_some_iff.mp hl
        exact ⟨k, hk, hv⟩
      · exact ⟨l, hl, hv⟩
    obtain ⟨k, hk, hkv⟩ := hl'
    rcases h.free d k v hk hkv with ⟨m, hm, hmv⟩ | ⟨g, hg, n, hn⟩ | hv
    · simp only [openedClosure, Array.getElem?_push] at hm
      split at hm
      · cases hm
        simp [newClosure] at hmv
      · exact .inl ⟨m, hm, hmv⟩
    · rcases List.mem_cons.mp hg with rfl | hg
      · simp at hn
      · exact .inr (.inl ⟨g, hg, n, hn⟩)
    · exact .inr (.inr hv)
  new_vars v x hv hx := .inr <| (around_parent h.inv.forest.preorder h.parent).trans_eq
    h.inv.forest.preorder (h.new_vars v x hv hx)
  names f hf := ⟨f, (congrArg List.head? h.outer_eq).symm ▸ hf, fun _ h => h⟩
  named v x hv hx heq := by
    have hnew := (around_parent h.inv.forest.preorder h.parent).trans_eq h.inv.forest.preorder
      (h.new_vars v x hv hx)
    exact absurd (heq ▸ hnew) (Around.irrefl h.inv.forest.preorder)
  -- The literal itself is done by assumption, and the later ones were done in the body.
  bodies F hF hg d hd hd' := by
    have hfin := grows_finished h.stack_eq params body sources
    rcases Nat.eq_or_lt_of_le hd with rfl | hlt
    · exact hdone F hF hg
    · refine h.bodies F hF (hfin.trans hg) d ?_ ?_
      · simp only [openedClosure, Array.size_push]
        exact hlt
      · simpa [State.finished, recorded, closedClosure, drainedBy] using hd'

/-- The scope of the closure is not open any more. -/
theorem not_mem_frames : b.scopes.size ∉
    (b'.finished b.closures.size params body sources).frames.map Frame.scope := by
  intro hmem
  have hmem' : b.scopes.size ∈ b.frames.map Frame.scope := by
    simpa [State.finished, recorded, closedClosure, drainedBy, h.outer_eq] using hmem
  exact Nat.lt_irrefl _ (h.start.frames.chain.lt_size _ hmem')

/-- What the closure needs in the end is visible where the literal stands, and needed by the closure
around it if it comes from around that. -/
theorem seen_of_needs (hrange : ∀ s ∈ sources, s.InRange b'.vars.size b'.closures.size)
    (hF : F.Final P) (hg : (b'.finished b.closures.size params body sources).Grows F)
    (hstep : Step P u b (b'.finished b.closures.size params body sources)) {v : VarId}
    (hv : (F.finish u).Needs b.closures.size v) : F.Seen u b v := by
  have hinv := h.inv_finished params body hrange
  have hpF := hF.inv.forest.preorder
  obtain ⟨k, hk, hks, hkd, -⟩ := h.closure_finished params body sources
  have hkF := hg.closed _ k hk (by
    rw [hstep.stack]
    exact h.not_mem_stack)
  have hlt : b.scopes.size < (b'.finished b.closures.size params body sources).scopes.size :=
    hks ▸ hinv.closure_scope_lt hk
  rw [needs_finish_iff] at hv
  obtain ⟨outer, inner, x, ho, hi, hx, hin, hvi, hout⟩ := hv
  cases ho.symm.trans hkF
  rw [hks] at hin hout
  obtain ⟨d, hd⟩ := Array.mem_iff_getElem?.mp hi
  have hd' := hg.getElem?_of_inside hinv hF.inv (hstep.frames_ne h.frames_ne) hlt h.not_mem_frames
    hd hin
  obtain ⟨y, hy, hyi⟩ := hinv.vars.free_var d inner v hd' hvi
  cases (hg.vars v y hy).symm.trans hx
  have hpar := ((grows_finished h.stack_eq params body sources).trans hg).parent h.parent
  -- Some closure inside the literal mentions the variable, and had it in its list already in the
  -- body.
  have hvis : b.Vis v := by
    rcases hstep.free d inner v hd' hvi with ⟨l, hl, -⟩ | hv | hv
    · -- the closure that mentions the variable is new
      obtain ⟨m, hm, hle⟩ := hstep.grows.closures d l hl
      cases hm.symm.trans hd'
      have hl' := h.start.closure_scope_lt hl
      rw [← hle.scope] at hl'
      exact absurd hl' (Nat.not_lt.mpr (hin.le hpF))
    · exact hv
    · have hnew := h.new_vars v x hv hy
      rw [show (b.openedClosure span).currentScope = b.scopes.size from rfl] at hnew
      have hxs := (hinv.vars.var_scope v x hy).2
      exact absurd ((hg.aroundEq_later_iff hinv hF.inv hxs).mpr hnew) hout
  refine ⟨hvis, fun c l y hc hl hy hyl => ?_⟩
  cases hy.symm.trans hx
  rw [needs_finish_iff]
  refine ⟨l, inner, x, hl, hi, hx, ?_, hvi, fun har => ?_⟩
  · -- the closure around encloses the scope of the literal, which encloses the one that mentions
    have hcs : c ∈ b.closureStack := by
      rcases hs : b.closureStack with _ | ⟨d, ds⟩ <;> simp_all
    have hbF := hstep.grows.trans hg
    obtain ⟨m, hm⟩ := h.start.closure_of_mem_stack hcs
    obtain ⟨l', hl', hle⟩ := hbF.closures _ _ hm
    cases hl'.symm.trans hl
    have hmem := h.start.scope_mem_frames hm hcs
    rw [h.start.mem_frames_iff h.frames_ne, ← hle.scope] at hmem
    have hcur := (hbF.aroundEq_later_iff h.start hF.inv (h.start.currentScope_lt h.frames_ne)).mpr
      hmem
    exact .inr ((hcur.trans_around hpF (around_parent hpF hpar)).trans_eq hpF hin)
  · exact Around.irrefl hpF (hyl.trans_eq hpF har)

/-- The body of the closure is well-scoped, as it saw what was visible when it was bound. -/
theorem bodyDone
    (hbody : Part P u (b.openedClosure span) b' (params ++ body.binds) fun F =>
      (∀ v ∈ params, ∃ x, F.vars[v]? = some x ∧ x.scope = b.scopes.size) ∧
      BodyScoped (F.finish u) F.Holds b.scopes.size (fun v =>
        (v ∈ params ∨ b.Vis v) ∧ ∀ k x, F.closures[b.closures.size]? = some k →
          F.vars[v]? = some x → Around F.scopes x.scope k.scope →
          (F.finish u).Needs b.closures.size v) body)
    (hsources : body.sources = sources) (hF : F.Final P)
    (hg : (b'.finished b.closures.size params body sources).Grows F) :
    F.BodyDone u b.closures.size := by
  have hpF := hF.inv.forest.preorder
  have hg' := (grows_finished h.stack_eq params body sources).trans hg
  obtain ⟨k, hk, hks, -, hkp, hkb⟩ := h.closure_finished params body sources
  have hkF := hg.closed _ k hk (by
    rw [show (b'.finished b.closures.size params body sources).closureStack = b.closureStack
      from congrArg List.tail h.stack_eq]
    exact h.not_mem_stack)
  have hbF : b.Grows F := ((grows_openedClosure b span).trans h.grows).trans hg'
  have hpar := hg'.parent h.parent
  obtain ⟨hscopes, hscoped⟩ := hbody.kept F hF hg'
  intro l hl
  cases (closure_finish hkF).symm.trans hl
  simp only [hks, hkp, hkb, hsources]
  refine ⟨?_, ?_, ?_, hbody.binds_nodup⟩
  · refine hscoped.mono (fun v hv => ?_) body
    rcases hv with ⟨hp | ⟨f, hf, n, hn⟩, hneeds⟩
    · exact .inr hp
    · -- A name that was visible around the literal is from around it, so the closure needs it.
      refine .inl ?_
      obtain ⟨x, hx, hxf⟩ := h.start.frames.names f hf n v hn
      refine hneeds k x hkF (hbF.vars v x hx) ?_
      have hxc : AroundEq b.scopes x.scope b.currentScope :=
        (h.start.mem_frames_iff h.frames_ne).mp (hxf ▸ List.mem_map_of_mem hf)
      have hcur := h.start.currentScope_lt h.frames_ne
      rw [hks]
      exact around_of_parent hpF hpar ((hbF.aroundEq_later_iff h.start hF.inv hcur).mpr hxc)
  · exact hF.inv.allEscape (hg.sinks List.mem_cons_self)
  · exact hscopes

end Within

end ClosureEnv.Binding
