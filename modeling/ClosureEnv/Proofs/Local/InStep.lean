import ClosureEnv.Proofs.Local.Twins

/-!
# Steps that two runs take together

Each primitive step of binding, taken in both of two states that are twins, leads to twins again.
-/

namespace ClosureEnv.Binding

variable {names : String → Prop} {β γ b c : State}

namespace Twin

variable (h : Twin names β γ b c)

include h

/-! ## What is looked up -/

/-- A name stands for the same variable, or for none in both runs. -/
theorem lookup?_rel (name : String) :
    Option.Rel (VarTwin β γ) (b.lookup? name) (c.lookup? name) := by
  unfold State.lookup?
  have hframes := h.frames
  generalize b.frames = fs at hframes
  generalize c.frames = gs at hframes
  induction hframes with
  | nil => exact .none
  | @cons f g fs gs hfg _ ih =>
    -- Frame by frame the names are the same, with variables that stand for each other.
    have hone : Option.Rel (VarTwin β γ) (f.names.lookup name) (g.names.lookup name) := by
      have hnames := hfg.names
      generalize f.names = ns at hnames
      generalize g.names = ms at hnames
      induction hnames with
      | nil => exact .none
      | @cons x y xs ys hxy _ ihn =>
        rw [List.lookup_cons, List.lookup_cons, hxy.1]
        cases name == y.1 with
        | true => exact .some hxy.2
        | false => exact ihn
    rw [List.findSome?_cons, List.findSome?_cons]
    generalize f.names.lookup name = o at hone
    generalize g.names.lookup name = o' at hone
    cases hone with
    | none => exact ih
    | some hvw => exact .some hvw

/-- A variable that a name stands for is the same in both runs. -/
theorem exists_var {name : String} {v w : VarId} (hv : b.lookup? name = some v)
    (hvw : VarTwin β γ v w) :
    ∃ x y, b.vars[v]? = some x ∧ c.vars[w]? = some y ∧ VarAlike β γ x y := by
  obtain ⟨f, hf, n, hn⟩ := State.vis_of_lookup hv
  have hx := Array.getElem?_eq_getElem ((h.opened f hf).2 n v hn)
  obtain ⟨y, hy, hxy⟩ := h.vars.exists_of_some hvw hx
  exact ⟨_, y, hx, hy, hxy⟩

/-- The current scope is the same. -/
theorem currentScope (hf : b.frames ≠ []) : ScopeTwin β γ b.currentScope c.currentScope := by
  have hframes := h.frames
  unfold State.currentScope
  generalize b.frames = fs at hframes hf
  generalize c.frames = gs at hframes
  cases hframes with
  | nil => exact absurd rfl hf
  | cons hfg _ => exact hfg.scope

/-! ## Opening and closing scopes -/

/-- The scope that is opened next is the same. -/
theorem newScope_alike (kind : ScopeKind) (closure closure' : Option ClosureId)
    (span span' : Syntax.Span) :
    ScopeAlike β γ (b.newScope kind closure span) (c.newScope kind closure' span') := by
  have hframes := h.frames
  rcases hb : b.frames with _ | ⟨f, fs⟩ <;> rcases hc : c.frames with _ | ⟨g, gs⟩ <;>
    rw [hb, hc] at hframes
  · exact ⟨by simp only [State.newScope, hb, hc, h.name], rfl,
      by simp only [State.newScope, hb, hc], by simp only [State.newScope, hb, hc]; exact .none⟩
  · cases hframes
  · cases hframes
  obtain ⟨hfg, -⟩ := List.forall₂_cons.mp hframes
  -- the scope around is the same, and has as many scopes in it so far
  have habove : (b.scopes[f.scope]?.getD default).key = (c.scopes[g.scope]?.getD default).key ∧
      (b.scopes[f.scope]?.getD default).depth = (c.scopes[g.scope]?.getD default).depth := by
    have hscope := h.scopes _ _ hfg.scope
    generalize b.scopes[f.scope]? = o at hscope
    generalize c.scopes[g.scope]? = o' at hscope
    cases hscope with
    | none => exact ⟨rfl, rfl⟩
    | some hxy => exact ⟨hxy.key, hxy.depth⟩
  have hcount : b.childCounts[f.scope]?.getD 0 = c.childCounts[g.scope]?.getD 0 := by
    have hcount := h.counts _ _ hfg.scope
    generalize b.childCounts[f.scope]? = o at hcount
    generalize c.childCounts[g.scope]? = o' at hcount
    cases hcount with
    | none => rfl
    | some heq => rw [heq]
  exact ⟨by simp only [State.newScope, hb, hc, habove.1, hcount], rfl,
    by simp only [State.newScope, hb, hc, habove.2],
    by simp only [State.newScope, hb, hc]; exact .some hfg.scope⟩

/-- A scope is opened. -/
theorem opened' (kind : ScopeKind) (closure closure' : Option ClosureId)
    (span span' : Syntax.Span) :
    Twin names β γ (b.opened kind closure span) (c.opened kind closure' span') := by
  have hparent (p : Nat) (hp : (b.newScope kind closure span).parent = some p) :
      p < b.scopes.size := by
    rcases hb : b.frames with _ | ⟨f, fs⟩ <;> simp only [State.newScope, hb] at hp <;> cases hp
    exact (h.opened f (by simp [hb])).1
  have hparent' (p : Nat) (hp : (c.newScope kind closure' span').parent = some p) :
      p < c.scopes.size := by
    have hrel := rel_flip (h.newScope_alike kind closure closure' span span').parent
    obtain ⟨q, hq, hqp⟩ := exists_of_rel hrel hp
    exact (Apart.inOrder _ _ _ _ _ _ hqp h.scope_next).mp (hparent q hq)
  -- The count goes up by one in both, for scopes that stand for each other.
  have hcounts : AlikeAt (ScopeTwin β γ) (fun _ => (· = ·))
      (b.opened kind closure span).childCounts (c.opened kind closure' span').childCounts := by
    have hframes := h.frames
    have hnext : ScopeTwin β γ b.childCounts.size c.childCounts.size := by
      rw [h.counts_size.1, h.counts_size.2]
      exact h.scope_next
    rcases hb : b.frames with _ | ⟨f, fs⟩ <;> rcases hc : c.frames with _ | ⟨g, gs⟩ <;>
      rw [hb, hc] at hframes
    · simp only [State.opened, hb, hc]
      exact h.counts.push (Apart.inOrder _ _) hnext rfl
    · cases hframes
    · cases hframes
    · simp only [State.opened, hb, hc]
      refine (h.counts.modify (Apart.inOrder _ _) (List.forall₂_cons.mp hframes).1.scope
        fun x y hxy => by rw [hxy]).push (Apart.inOrder _ _) ?_ rfl
      simpa only [Array.size_modify] using hnext
  exact { h with
    scope_next := by simpa [State.opened] using h.scope_next.succ
    scopes := h.scopes.push (Apart.inOrder _ _) h.scope_next
      (h.newScope_alike kind closure closure' span span')
    counts := hcounts
    counts_size := by
      constructor
      · simp only [State.opened, Array.size_push, ← h.counts_size.1]
        split <;> simp
      · simp only [State.opened, Array.size_push, ← h.counts_size.2]
        split <;> simp
    frames := .cons ⟨h.scope_next, .nil⟩ h.frames
    preorder := ⟨Preorder.push h.preorder.1 _ hparent, Preorder.push h.preorder.2 _ hparent'⟩
    opened := by
      refine List.forall_mem_cons.mpr ⟨⟨by simp [State.opened], by simp⟩, fun f hf => ?_⟩
      obtain ⟨hlt, hnames⟩ := h.opened f hf
      exact ⟨Nat.lt_of_lt_of_le hlt (by simp [State.opened]), hnames⟩ }

/-- A scope is closed. -/
theorem closed : Twin names β γ b.closed c.closed :=
  { h with
    frames := forall₂_tail h.frames
    opened := fun f hf => h.opened f (List.mem_of_mem_tail hf) }

/-! ## Variables -/

/-- A variable is declared. -/
theorem declared (hf : b.frames ≠ []) (name : String) (ty : Ty) (isMut isParam : Bool)
    (span span' : Syntax.Span) : Twin names β γ (b.declared name ty isMut isParam span)
      (c.declared name ty isMut isParam span') := by
  have hscope := h.currentScope hf
  have hframes := h.frames
  have hopened := h.opened
  obtain ⟨f, fs, hb⟩ := List.exists_cons_of_ne_nil hf
  rcases hc : c.frames with _ | ⟨g, gs⟩ <;> rw [hb, hc] at hframes
  · cases hframes
  obtain ⟨hfg, hrest⟩ := List.forall₂_cons.mp hframes
  rw [hb] at hopened
  obtain ⟨⟨hlt, hnames⟩, hothers⟩ := List.forall_mem_cons.mp hopened
  have hnext : VarTwin β γ b.varSources.size c.varSources.size := by
    rw [h.stored_size.1, h.stored_size.2]
    exact h.var_next
  exact { h with
    var_next := by simpa [State.declared] using h.var_next.succ
    vars := h.vars.push (Apart.inOrder _ _) h.var_next ⟨rfl, rfl, rfl, hscope⟩
    stored := h.stored.push (Apart.inOrder _ _) hnext .nil
    stored_size := by simp [State.declared, h.stored_size.1, h.stored_size.2]
    frames := by
      simp only [State.declared, hb, hc]
      exact .cons ⟨hfg.scope, .cons ⟨rfl, h.var_next⟩ hfg.names⟩ hrest
    opened := by
      simp only [State.declared, hb, Array.size_push]
      refine List.forall_mem_cons.mpr ⟨⟨hlt, fun n v hmem => ?_⟩, fun f' hf' => ?_⟩
      · rcases List.mem_cons.mp hmem with heq | hmem
        · cases heq
          exact Nat.lt_succ_self _
        · exact Nat.lt_succ_of_lt (hnames n v hmem)
      · obtain ⟨hlt', hnames'⟩ := hothers f' hf'
        exact ⟨hlt', fun n v hmem => Nat.lt_succ_of_lt (hnames' n v hmem)⟩
    kept := fun v hv => by
      have hle := h.var_next.le.1
      rw [← h.kept v hv]
      simp only [State.declared, Array.getElem?_push]
      rw [if_neg (by rw [h.stored_size.1]; omega)] }

/-- Something is stored into a variable. -/
theorem stored_into {v w : VarId} (hvw : VarTwin β γ v w) {xs ys : List Source}
    (hxy : List.Forall₂ (SourceTwin β γ) xs ys) :
    Twin names β γ (b.stored v xs) (c.stored w ys) :=
  { h with
    stored := h.stored.modify (Apart.inOrder _ _) hvw fun _ _ hold => List.rel_append hold hxy
    stored_size := by simp [State.stored, h.stored_size.1, h.stored_size.2]
    kept := fun i hi => by
      have hle := hvw.le.1
      rw [← h.kept i hi]
      simp only [State.stored, Array.getElem?_modify]
      rw [if_neg (by rintro rfl; exact absurd hi (Nat.not_lt.mpr hle))] }

/-- Something leaves. -/
theorem drainedBy {x y : Sink} (hxy : SinkTwin β γ x y) :
    Twin names β γ (b.drainedBy x) (c.drainedBy y) := by
  obtain ⟨xs, ys, hxs, hys, hsinks⟩ := h.sinks
  exact { h with
    sinks := ⟨x :: xs, y :: ys, congrArg (x :: ·) hxs, congrArg (y :: ·) hys, .cons hxy hsinks⟩ }

/-! ## Closures -/

/-- A use of a variable is noted. -/
theorem used {v w : VarId} (hvw : VarTwin β γ v w) {x y : Variable} (hx : b.vars[v]? = some x)
    (hy : c.vars[w]? = some y) (hxy : VarAlike β γ x y) :
    Twin names β γ (b.used v) (c.used w) := by
  have hstack := h.stack
  rcases hb : b.closureStack with _ | ⟨k, ks⟩ <;> rcases hc : c.closureStack with _ | ⟨l, ls⟩ <;>
    rw [hb, hc] at hstack
  · simpa only [State.used, hb, hc] using h
  · cases hstack
  · cases hstack
  obtain ⟨hkl, -⟩ := List.forall₂_cons.mp hstack
  obtain ⟨k', hk⟩ : ∃ k', b.closures[k]? = some k' :=
    ⟨_, Array.getElem?_eq_getElem (h.stacked k (by simp [hb]))⟩
  obtain ⟨m, hm, hclosure⟩ := h.closures.exists_of_some hkl hk
  -- the variable is from around the closure in both runs or in none
  have haround : isStrictAncestorIn b.scopes x.scope k'.scope =
      isStrictAncestorIn c.scopes y.scope m.scope := by
    rw [Bool.eq_iff_iff, isStrictAncestorIn_iff, isStrictAncestorIn_iff]
    exact h.sameParents.around_iff h.preorder.1 h.preorder.2 hclosure.scope hxy.scope
  have hmentioned : Twin names β γ (b.mentioned k v) (c.mentioned l w) :=
    { h with
      closure_next := by simpa [State.mentioned] using h.closure_next
      closures := h.closures.modify (Apart.inOrder _ _) hkl fun p q hpq => by
        -- Lists that stand for each other have the two variables in them at once.
        have hmem : p.freeVars.contains v = q.freeVars.contains w := by
          rw [Bool.eq_iff_iff, List.contains_iff_mem, List.contains_iff_mem]
          have heq {u : VarId} {u' : VarId} (hu : VarTwin β γ u u') : v = u ↔ w = u' :=
            (Apart.inOrder _ _).eq_iff hvw hu
          constructor
          · intro hv
            obtain ⟨u, hu, hvu⟩ := exists_of_forall₂ hpq.freeVars hv
            rwa [(heq hvu).mp rfl]
          · intro hw
            obtain ⟨u, hu, huw⟩ := exists_of_forall₂ hpq.freeVars.flip hw
            rwa [(heq huw).mpr rfl]
        rw [hmem]
        split
        · exact hpq
        · exact ⟨hpq.scope, List.rel_append hpq.freeVars (.cons hvw .nil), hpq.params, hpq.body,
            hpq.owner⟩
      stacked := fun d hd => by simpa [State.mentioned] using h.stacked d hd }
  simp only [State.used, hb, hc, hx, hy, hk, hm, Option.getD_some, haround]
  split
  · exact hmentioned
  · exact h

/-- The scope of a closure is opened. -/
theorem openedClosure (span span' : Syntax.Span) :
    Twin names β γ (b.openedClosure span) (c.openedClosure span') := by
  have hopen := h.opened' .closure (some b.closures.size) (some c.closures.size) span span'
  exact { hopen with
    closure_next := by simpa [State.openedClosure] using h.closure_next.succ
    closures := h.closures.push (Apart.inOrder _ _) h.closure_next
      ⟨h.scope_next, .nil, .nil, fun _ _ _ _ _ _ _ => rfl, h.owner⟩
    stack := .cons h.closure_next h.stack
    stacked := by
      simp only [State.openedClosure, Array.size_push]
      exact List.forall_mem_cons.mpr ⟨Nat.lt_succ_self _, fun k hk =>
        Nat.lt_succ_of_lt (h.stacked k hk)⟩ }

/-- A closure is ended. -/
theorem finished {k l : ClosureId} (hkl : ClosureTwin β γ k l) {vs ws : List VarId}
    (hvw : List.Forall₂ (VarTwin β γ) vs ws) {x y : Bound.Expr}
    (hxy : TypedAlike names β γ (k + 1) x y) {ss ts : List Source}
    (hst : List.Forall₂ (SourceTwin β γ) ss ts) :
    Twin names β γ (b.finished k vs x ss) (c.finished l ws y ts) := by
  have hclosed : Twin names β γ b.closedClosure c.closedClosure :=
    { h.closed with
      stack := forall₂_tail h.stack
      stacked := fun d hd => h.stacked d (List.mem_of_mem_tail hd) }
  have hdrained := hclosed.drainedBy (x := .escape ss) (y := .escape ts) hst
  exact { hdrained with
    closure_next := by simpa [State.finished, State.recorded] using hdrained.closure_next
    closures := hdrained.closures.modify (Apart.inOrder _ _) hkl fun p q hpq =>
      ⟨hpq.scope, hpq.freeVars, hvw, hxy, hpq.owner⟩
    stacked := fun d hd => by
      simpa [State.finished, State.recorded] using hdrained.stacked d hd }

end Twin

end ClosureEnv.Binding
