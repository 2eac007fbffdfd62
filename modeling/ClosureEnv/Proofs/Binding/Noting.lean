import ClosureEnv.Proofs.Binding.Moves
import ClosureEnv.Proofs.Bound.Mentions

/-!
# Noting what closures mention

While a body is bound, each mention of a variable is noted with the innermost closure, and with no
other. `Noting` says this of a step that mentions some variables: if the closure had noted, of what
was mentioned in it before, the variables from outside by first mention, then so it has afterwards.
-/

namespace ClosureEnv

/-- The variables that an expression in a scope reads or assigns, in order. -/
abbrev Bound.Expr.mentioned (s : ScopeId) (e : Bound.Expr) : List VarId :=
  (e.mentions s).map Prod.snd

/-- The variables among some that are declared around a scope, by first occurrence. -/
def firstAround (scopes : Array Scope) (vars : Array Variable) (s : ScopeId) (vs : List VarId) :
    List VarId :=
  (vs.filter fun v => isStrictAncestorIn scopes (vars[v]?.getD default).scope s).eraseDups

namespace Binding

open State ClosureEnv.Bound

variable {b b' b'' F : State} {vs ws : List VarId}

/-- One more member is kept if it is new. -/
theorem eraseDups_append_singleton (vs : List VarId) (v : VarId) : (vs ++ [v]).eraseDups =
    if vs.eraseDups.contains v then vs.eraseDups else vs.eraseDups ++ [v] := by
  rw [List.eraseDups_append]
  simp only [List.contains_iff_mem, List.mem_eraseDups]
  split
  · next hmem => simp [List.removeAll, hmem]
  · next hmem => simp [List.removeAll, hmem, List.eraseDups_cons]

/-- What a closure has noted after one more mention. -/
theorem firstAround_append_singleton (scopes : Array Scope) (vars : Array Variable) (s : ScopeId)
    (vs : List VarId) (v : VarId) : firstAround scopes vars s (vs ++ [v]) =
      if isStrictAncestorIn scopes (vars[v]?.getD default).scope s then
        if (firstAround scopes vars s vs).contains v then firstAround scopes vars s vs
        else firstAround scopes vars s vs ++ [v]
      else firstAround scopes vars s vs := by
  unfold firstAround
  rw [List.filter_append, List.filter_cons, List.filter_nil]
  split
  · exact eraseDups_append_singleton _ v
  · rw [List.append_nil]

/-- Closures that are not open have noted, by first mention, what their bodies mention from around
their scopes. -/
def State.Exact (F b : State) : Prop :=
  ∀ (c : Nat) k, b.closures[c]? = some k → c ∉ b.closureStack →
    k.freeVars = firstAround F.scopes F.vars k.scope (k.body.mentioned k.scope)

/-- A step inside a function in which the innermost closure mentions `vs`. -/
structure Noting (F b b' : State) (vs : List VarId) : Prop where
  stack : b'.closureStack = b.closureStack
  inner : ∀ (c : Nat) k done, b.closureStack.head? = some c → b.closures[c]? = some k →
    k.freeVars = firstAround F.scopes F.vars k.scope done →
    ∃ l, b'.closures[c]? = some l ∧ l.scope = k.scope ∧
      l.freeVars = firstAround F.scopes F.vars k.scope (done ++ vs)
  outer : ∀ c ∈ b.closureStack, b.closureStack.head? ≠ some c → b'.closures[c]? = b.closures[c]?
  exact : F.Exact b → F.Exact b'

namespace Noting

/-- A step that leaves closures alone. -/
theorem of_eq (hclosures : b'.closures = b.closures) (hstack : b'.closureStack = b.closureStack) :
    Noting F b b' [] where
  stack := hstack
  inner c k done _ hk hdone := ⟨k, hclosures ▸ hk, rfl, by rw [List.append_nil, hdone]⟩
  outer c _ _ := by rw [hclosures]
  exact h c k hk hc := h c k (hclosures ▸ hk) (hstack ▸ hc)

/-- One step after another. -/
theorem trans (h : Noting F b b' vs) (h' : Noting F b' b'' ws) : Noting F b b'' (vs ++ ws) where
  stack := h'.stack.trans h.stack
  inner c k done hc hk hdone := by
    obtain ⟨l, hl, hls, hlf⟩ := h.inner c k done hc hk hdone
    obtain ⟨l', hl', hls', hlf'⟩ := h'.inner c l (done ++ vs) (h.stack ▸ hc) hl (hls ▸ hlf)
    exact ⟨l', hl', hls'.trans hls, by rw [hlf', hls, List.append_assoc]⟩
  outer c hc hne := by rw [h'.outer c (h.stack ▸ hc) (h.stack ▸ hne), h.outer c hc hne]
  exact := h'.exact ∘ h.exact

/-- A step that leaves closures alone, after another. -/
theorem before (h : Noting F b b' vs) (h' : Noting F b' b'' []) : Noting F b b'' vs :=
  List.append_nil vs ▸ h.trans h'

/-- Using a variable that is in sight. -/
theorem used (hb : b.Regular) (hF : F.Regular) (hg : b.Grows F) {v : VarId} (hv : b.Vis v) :
    Noting F b (b.used v) [v] := by
  obtain ⟨f, hf, n, hn⟩ := hv
  obtain ⟨x, hx, -⟩ := hb.frames.names f hf n v hn
  have htest {c : Nat} {k : Closure} (hk : b.closures[c]? = some k) :
      isStrictAncestorIn F.scopes (F.vars[v]?.getD default).scope k.scope =
        isStrictAncestorIn b.scopes (b.vars[v]?.getD default).scope
          (b.closures[c]?.getD default).scope := by
    rw [hg.vars v x hx, hx, hk, Bool.eq_iff_iff, isStrictAncestorIn_iff, isStrictAncestorIn_iff]
    exact hg.around_later_iff hb hF (hb.closure_scope_lt hk)
  unfold State.used
  split
  · next hs =>
    exact ⟨rfl, fun c k done hc => absurd hc (by simp [hs]), fun _ _ _ => rfl, id⟩
  · next c cs hs =>
    have hhead : b.closureStack.head? = some c := by rw [hs]; rfl
    split
    · next hin =>
      refine ⟨rfl, fun d k done hd hk hdone => ?_, fun d _ hd => ?_, fun he d k hk hd => ?_⟩
      · cases hhead.symm.trans hd
        refine ⟨_, by rw [getElem?_mentioned, if_pos rfl, hk]; rfl, ?_, ?_⟩
        · dsimp only
          split <;> rfl
        · rw [firstAround_append_singleton, htest hk, if_pos hin, ← hdone]
          dsimp only
          split <;> rfl
      · have hcd : c ≠ d := fun heq => hd (heq ▸ hhead)
        rw [getElem?_mentioned, if_neg hcd]
      · have hcd : c ≠ d := by
          rintro rfl
          exact hd (hs ▸ List.mem_cons_self)
        rw [getElem?_mentioned, if_neg hcd] at hk
        exact he d k hk hd
    · next hout =>
      refine ⟨rfl, fun d k done hd hk hdone => ⟨k, hk, rfl, ?_⟩, fun _ _ _ => rfl, id⟩
      cases hhead.symm.trans hd
      rw [firstAround_append_singleton, htest hk, if_neg hout, hdone]

/-- A step inside a closure whose scope was opened in `b`, seen from outside once the closure is
ended: what its body mentions is noted with the closure. -/
theorem literal (hb : b.Regular) {span : Syntax.Span} {b₁ b₂ : State} {params : List VarId}
    {body : Expr} {ss : List Source} (hclosures : b₁.closures = (b.openedClosure span).closures)
    (hstack : b₁.closureStack = (b.openedClosure span).closureStack)
    (h : Noting F b₁ b₂ (body.mentioned b.scopes.size)) :
    Noting F b (b₂.finished b.closures.size params body ss) [] := by
  have hlt {c : Nat} (hc : c ∈ b.closureStack) : c < b.closures.size := by
    obtain ⟨k, hk⟩ := hb.closure_of_mem_stack hc
    exact (Array.getElem?_eq_some_iff.mp hk).1
  have hhead : b₁.closureStack.head? = some b.closures.size := by rw [hstack]; rfl
  have hold {c : Nat} (hc : c < b.closures.size) : b₁.closures[c]? = b.closures[c]? := by
    rw [hclosures]
    exact Array.getElem?_push_lt hc ▸ (Array.getElem?_eq_getElem hc).symm
  -- closures that are open around the literal are left alone
  have houter {c : Nat} (hc : c ∈ b.closureStack) :
      (b₂.finished b.closures.size params body ss).closures[c]? = b.closures[c]? := by
    have hne : b.closures.size ≠ c := (Nat.ne_of_lt (hlt hc)).symm
    rw [getElem?_finished, if_neg hne, h.outer c (hstack ▸ List.mem_cons_of_mem _ hc) ?_, hold (hlt hc)]
    rw [hhead]
    exact fun heq => hne (Option.some.inj heq)
  refine ⟨?_, fun c k done hc hk hdone => ?_, fun c hc _ => houter hc, fun he c k hk hc => ?_⟩
  · show b₂.closureStack.tail = b.closureStack
    rw [h.stack, hstack]
    rfl
  · refine ⟨k, ?_, rfl, by rw [List.append_nil, hdone]⟩
    rw [houter (List.mem_of_mem_head? hc), hk]
  · -- Off the stack there is the new closure, which mentions what its body does, and those that
    -- were complete before.
    have hc' : c ∉ b.closureStack := by
      intro hmem
      refine hc ?_
      show c ∈ b₂.closureStack.tail
      rw [h.stack, hstack]
      exact hmem
    rw [getElem?_finished] at hk
    split at hk
    · next hcs =>
      subst hcs
      obtain ⟨l, hl, rfl⟩ := Option.map_eq_some_iff.mp hk
      have hnew : b₁.closures[b.closures.size]? = some (b.newClosure span) := by
        rw [hclosures]
        exact Array.getElem?_push_size
      obtain ⟨l', hl', hls, hlf⟩ := h.inner _ _ [] hhead hnew rfl
      cases hl.symm.trans hl'
      dsimp only
      rw [hlf, hls]
      rfl
    · next hne =>
      have hopened : F.Exact b₁ := by
        intro d l hl hd
        rw [hstack] at hd
        have hdn : d ≠ b.closures.size := fun heq => hd (heq ▸ List.mem_cons_self)
        have hlt' : d < b.closures.size := by
          have := (Array.getElem?_eq_some_iff.mp hl).1
          simp only [hclosures, State.openedClosure, Array.size_push] at this
          omega
        rw [hold hlt'] at hl
        exact he d l hl fun hmem => hd (List.mem_cons_of_mem _ hmem)
      refine h.exact hopened c k hk ?_
      rw [h.stack, hstack]
      exact fun hmem => (List.mem_cons.mp hmem).elim (fun heq => hne heq.symm) hc'

end Noting

end Binding

end ClosureEnv
