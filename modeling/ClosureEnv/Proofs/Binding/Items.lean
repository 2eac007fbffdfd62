import ClosureEnv.Proofs.Binding.Scoping

/-!
# Binding the items of a module

Between items no scope is open. Binding a function leads from such a state to another one with the
function added, and binding the globals takes place in one function of its own. What is promised of
the bodies that are bound holds in every final state that grows out of the state after them.
-/

namespace ClosureEnv.Binding

open State ClosureEnv.Bound

variable {P : String → Prop} {u : String} {b b' F : State}

namespace State

/-- The body of a function is well-scoped. -/
def FnDone (u : String) (F : State) (f : Function) : Prop :=
  Block.Scoped (F.finish u) F.Holds f.scope (· ∈ f.params) f.body ∧ f.body.scope = none ∧
    AllEscape (F.finish u) F.Holds f.body.sources ∧
    ParamsOf (F.finish u) f.scope f.params f.body.binds

/-- The initial value of a global, in the scope `r`, is well-scoped. -/
def GlobalDone (u : String) (r : ScopeId) (F : State) (g : Global) : Prop :=
  g.init.Scoped (F.finish u) F.Holds r (fun _ => False) ∧
    AllEscape (F.finish u) F.Holds g.init.sources ∧ g.init.binds.Nodup

/-- What holds of the functions and closures that are bound. -/
structure Done (P : String → Prop) (u : String) (b : State) : Prop where
  inv : b.Inv P
  fn_scope : ∀ (i : Nat) f, b.fns[i]? = some f → f.id = i ∧ f.ordinal = i ∧
    ∃ s, b.scopes[f.scope]? = some s ∧ s.kind = .function
  bodies : ∀ F, F.Final P → b.Grows F → ∀ c < b.closures.size, F.BodyDone u c
  fn_body : ∀ F, F.Final P → b.Grows F → ∀ f ∈ b.fns, f.isSynthetic = false → F.FnDone u f

/-- What holds between items. -/
structure Between (P : String → Prop) (u : String) (b : State) : Prop extends Done P u b where
  closed : b.frames = []

/-- What holds between globals, which are bound in the scope `r`. -/
structure InGlobals (P : String → Prop) (u : String) (r : ScopeId) (b : State) : Prop
    extends Done P u b where
  opened : b.frames = [⟨r, []⟩]
  scope : b.current.scope = r
  root : b.scopes[r]?.bind Scope.closure = none
  vars : ∀ (v : Nat) x, b.vars[v]? = some x → x.scope ≠ r
  globals : ∀ F, F.Final P → b.Grows F → ∀ g ∈ b.globals, F.GlobalDone u r g

end State

/-- Starting a function adds a scope without a parent. -/
theorem State.grows_started (hf : b.frames = []) (name : String) (generics : List String)
    (span : Syntax.Span) (isSynthetic : Bool) :
    b.Grows (b.started name generics span isSynthetic) :=
  { Grows.refl b with
    scopes := fun i s hs => getElem?_push_of_some hs _
    frames := fun f hfm => by
      simp only [started, opened, hf, List.mem_singleton] at hfm
      exact .inr (hfm ▸ Nat.le_refl _)
    new_parent := fun i p hi hp => by
      simp only [started, opened, parentIn?_push] at hp
      split at hp
      · rw [newScope_root (by exact hf)] at hp
        cases hp
      · exact absurd (lt_size_of_parentIn? hp) (Nat.not_lt.mpr hi) }

/-- The scope of a function is a root, and remains one. -/
theorem State.parentIn?_started (hf : b.frames = []) {name : String} {generics : List String}
    {span : Syntax.Span} {isSynthetic : Bool}
    (hg : (b.started name generics span isSynthetic).Grows b') :
    parentIn? b'.scopes b.scopes.size = none := by
  have hlt : b.scopes.size < (b.started name generics span isSynthetic).scopes.size := by
    simp [started, opened]
  rw [hg.parentIn?_eq hlt]
  exact (parentIn?_of_scope Array.getElem?_push_size).trans (newScope_root hf .function none span)

/-- Ending a function adds it. -/
theorem State.grows_ended (b : State) (params : List VarId) (ret : Ty) (body : Block) :
    b.Grows (b.ended params ret body) :=
  { Grows.refl b with
    frames := fun _ hf => .inl (List.mem_map_of_mem (List.mem_of_mem_tail hf))
    new_parent := fun _ _ hi hp => absurd (lt_size_of_parentIn? hp) (Nat.not_lt.mpr hi)
    fns := fun _ _ hf => getElem?_push_of_some hf _ }

/-- The scope of a function that was started. -/
theorem State.started_scope (b : State) (name : String) (generics : List String)
    (span : Syntax.Span) (isSynthetic : Bool) :
    ∃ s, (b.started name generics span isSynthetic).scopes[b.scopes.size]? = some s ∧
      s.kind = .function ∧ s.closure = none :=
  ⟨_, Array.getElem?_push_size, rfl, rfl⟩

/-- Ending a function that was started at position `r` keeps what is known. -/
theorem State.Done.ended {f : Frame} (h : b.Done P u) (hf : b.frames = [f])
    (hr : ∃ s, b.scopes[b.current.scope]? = some s ∧ s.kind = .function ∧ s.closure = none)
    (hscope : f.scope = b.current.scope) (params : List VarId) (ret : Ty) (body : Block)
    (hbody : b.current.isSynthetic = false → ∀ F, F.Final P → (b.ended params ret body).Grows F →
      Block.Scoped (F.finish u) F.Holds b.current.scope (· ∈ params) body ∧ body.scope = none ∧
        AllEscape (F.finish u) F.Holds body.sources ∧
        ParamsOf (F.finish u) b.current.scope params body.binds) :
    (b.ended params ret body).Between P u := by
  obtain ⟨s, hs, hsk, hsc⟩ := hr
  have hg := grows_ended b params ret body
  refine ⟨⟨h.inv.ended hf (by rw [hscope, hs]; exact hsc) params ret body, ?_, ?_, ?_⟩, ?_⟩
  · intro i g hgi
    simp only [State.ended, Array.getElem?_push] at hgi
    split at hgi
    · next hi =>
      cases hgi
      have hid := (h.inv.current (by simp [hf])).1
      exact ⟨hid.trans hi.symm, hid.trans hi.symm, s, hs, hsk⟩
    · exact h.fn_scope i g hgi
  · intro F hF hg' c hc
    exact h.bodies F hF (hg.trans hg') c hc
  · intro F hF hg' g hgm hsyn
    simp only [State.ended, Array.mem_push] at hgm
    rcases hgm with hgm | rfl
    · exact h.fn_body F hF (hg.trans hg') g hgm hsyn
    · exact hbody hsyn F hF hg'
  · simp [State.ended, hf]

/-- A step inside a function keeps what is known. -/
theorem Step.done (h : Step P u b b') (hb : b.Done P u) : b'.Done P u where
  inv := h.inv
  fn_scope i f hf := by
    rw [h.fns] at hf
    obtain ⟨hid, hord, s, hs, hk⟩ := hb.fn_scope i f hf
    exact ⟨hid, hord, s, h.grows.scopes _ _ hs, hk⟩
  bodies F hF hg c hc := by
    by_cases hlt : c < b.closures.size
    · exact hb.bodies F hF (h.grows.trans hg) c hlt
    · exact h.bodies F hF hg c (Nat.le_of_not_lt hlt) hc
  fn_body F hF hg f hf := by
    rw [h.fns] at hf
    exact hb.fn_body F hF (h.grows.trans hg) f hf

/-- Starting a function keeps what is known. -/
theorem State.Between.started (h : b.Between P u) (name : String) (generics : List String)
    (span : Syntax.Span) (isSynthetic : Bool) :
    (b.started name generics span isSynthetic).Done P u where
  inv := h.inv.started h.closed name generics span isSynthetic
  fn_scope i f hf := by
    obtain ⟨hid, hord, s, hs, hk⟩ := h.fn_scope i f hf
    exact ⟨hid, hord, s, getElem?_push_of_some hs _, hk⟩
  bodies F hF hg := h.bodies F hF ((grows_started h.closed name generics span isSynthetic).trans hg)
  fn_body F hF hg :=
    h.fn_body F hF ((grows_started h.closed name generics span isSynthetic).trans hg)

/-- Binding a function. -/
theorem bindFn_spec {d : Syntax.FnDecl} {r : Unit} (hp : ∀ p ∈ d.params, P p.name.text)
    (hd : d.body.Named P) (h : b.Between P u) (hrun : (bindFn d).run b = .ok (r, b')) :
    b'.Between P u ∧ b.Grows b' ∧ b'.globals = b.globals ∧
      ∃ f, b'.fns = b.fns.push f ∧ f.name = d.name.text ∧ f.isSynthetic = false := by
  obtain ⟨vs, y, ts, ret, b₂, b₃, h₂, h₃, rfl⟩ := bindFn_run hrun
  generalize d.generics.map Syntax.Ident.text = generics at *
  have hstart := h.started d.name.text generics d.span false
  have hne : (b.started d.name.text generics d.span false).frames ≠ [] := List.cons_ne_nil _ _
  obtain ⟨hps, hvis⟩ := declareParams_spec (u := u) d.params hp hstart.inv hne h₂
  obtain ⟨⟨xs, tail, rfl⟩, hs, hy, hr⟩ := bindBlock_spec (u := u) d.body hd hps.inv
    (hps.frames_ne hne) h₃
  have hdr := Step.drainedBy (u := u) hy.inv (.escape ts) hr
  have hpart := (hps.append hy).step hdr
  have hstep := hpart.toStep
  have hcur : (b₃.drainedBy (.escape ts)).current.scope = b.scopes.size := by
    obtain ⟨n, hn⟩ := hstep.current
    rw [hn]
    rfl
  have hframes : (b₃.drainedBy (.escape ts)).frames.map Frame.scope = [b.scopes.size] := by
    rw [hstep.frames]
    simp [started, opened, h.closed]
  obtain ⟨f, hf, hfs⟩ := List.map_eq_singleton_iff.mp hframes
  have hgrow := (grows_started h.closed d.name.text generics d.span false).trans hstep.grows
  refine ⟨(hstep.done hstart).ended hf ?_ (by rw [hcur, hfs]) vs ret _ fun _ F hF hg => ?_,
    hgrow.trans (grows_ended _ vs ret _), hstep.globals, _, congrArg (Array.push · _) hstep.fns,
    ?_, ?_⟩
  · rw [hcur]
    obtain ⟨s, hs, hsk, hsc⟩ := started_scope b d.name.text generics d.span false
    exact ⟨s, hstep.grows.scopes _ _ hs, hsk, hsc⟩
  · -- Nothing is visible in an empty frame but the parameters, so that the body sees no more.
    have hg' := (grows_ended _ vs ret _).trans hg
    obtain ⟨hscopes, hscoped⟩ := hpart.kept F hF hg'
    rw [hps.currentScope, show (b.started d.name.text generics d.span false).currentScope =
      b.scopes.size from rfl] at hscoped
    rw [hcur]
    refine ⟨hscoped.mono fun v hv => ?_, rfl, hs ▸ hF.inv.allEscape (hg'.sinks
      List.mem_cons_self), hscopes, hpart.binds_nodup⟩
    rcases hvis v hv.1 with hv | ⟨g, hgm, n, hn⟩
    · exact hv
    simp only [started, opened, h.closed, List.mem_singleton] at hgm
    subst hgm
    simp at hn
  · obtain ⟨n, hn⟩ := hstep.current
    simp only [currentFn, hn]
    rfl
  · obtain ⟨n, hn⟩ := hstep.current
    simp only [currentFn, hn]
    rfl

/-- Binding functions, one after the other. -/
theorem bindFns_spec : ∀ (ds : List Syntax.FnDecl) {b b' : State} {r : Unit},
    (∀ d ∈ ds, (∀ p ∈ d.params, P p.name.text) ∧ d.body.Named P) → b.Between P u →
    (ds.forM bindFn).run b = .ok (r, b') → b'.Between P u ∧ b.Grows b' ∧ b'.globals = b.globals ∧
      ∃ fs : List Function, b'.fns.toList = b.fns.toList ++ fs ∧
        fs.map Function.name = ds.map (·.name.text) ∧ ∀ f ∈ fs, f.isSynthetic = false
  | [], b, b', r, _, h, hrun => by
    rw [List.forM, run_pure_eq_ok] at hrun
    cases hrun
    exact ⟨h, .refl b, rfl, [], by simp, rfl, nofun⟩
  | d :: ds, b, b', r, hn, h, hrun => by
    rw [List.forM, run_bind_eq_ok] at hrun
    obtain ⟨_, b₁, h₁, hrun⟩ := hrun
    obtain ⟨hp, hd⟩ := hn d List.mem_cons_self
    obtain ⟨hb, hg, hgl, f, hf, hfn, hfs⟩ := bindFn_spec hp hd h h₁
    obtain ⟨hb', hg', hgl', fs, hfs', hns, hss⟩ := bindFns_spec ds
      (fun d hd => hn d (List.mem_cons_of_mem _ hd)) hb hrun
    refine ⟨hb', hg.trans hg', hgl'.trans hgl, f :: fs, ?_, ?_, ?_⟩
    · rw [hfs', hf, Array.toList_push, List.append_assoc]
      rfl
    · rw [List.map_cons, List.map_cons, hns, hfn]
    · exact List.forall_mem_cons.mpr ⟨hfs, hss⟩

/-- Binding a global. -/
theorem bindGlobal_spec {d : Syntax.LetDecl} {r : ScopeId} {q : Unit} (hd : d.value.Named P)
    (h : b.InGlobals P u r) (hrun : (bindGlobal d).run b = .ok (q, b')) :
    b'.InGlobals P u r ∧ b.Grows b' ∧ b'.fns = b.fns ∧
      (∃ n, b'.current = { b.current with closureCount := n }) ∧
      ∃ g, b'.globals = b.globals.push g ∧ g.name = d.name.text := by
  obtain ⟨y, ts, ty, b₁, h₁, rfl⟩ := bindGlobal_run hrun
  have hne : b.frames ≠ [] := by simp [h.opened]
  obtain ⟨hs, hy⟩ := bindExpr_spec (u := u) d.value hd h.inv hne h₁
  have hyd := hy.drain (.escape ts) rfl
  have hdone := hyd.toStep.done h.toDone
  have hcur : b.currentScope = r := by simp [State.currentScope, h.opened]
  -- Globals are bound in a frame without names.
  have hvis (v : VarId) : ¬ b.Vis v := by
    rintro ⟨f, hf, n, hn⟩
    rw [h.opened, List.mem_singleton] at hf
    subst hf
    simp at hn
  obtain ⟨n, hn⟩ := hyd.current
  -- the new entry is for later globals only
  have hlater (F : State) (hg : State.Grows { b₁.drainedBy (.escape ts) with
      globalTypes := (d.name.text, d.isMut, ty) :: b₁.globalTypes
      globals := b₁.globals.push ⟨d.name.text, d.isMut, ty, y⟩ } F) :
      (b₁.drainedBy (.escape ts)).Grows F := { hg with }
  have hroot : (b₁.drainedBy (.escape ts)).scopes[r]?.bind Scope.closure = none := by
    have hlt := h.inv.currentScope_lt hne
    rw [hcur] at hlt
    rw [hyd.grows.scopes _ _ (Array.getElem?_eq_getElem hlt), ← Array.getElem?_eq_getElem hlt]
    exact h.root
  refine ⟨⟨⟨{ hdone.inv with }, hdone.fn_scope, fun F hF hg => hdone.bodies F hF (hlater F hg),
    fun F hF hg => hdone.fn_body F hF (hlater F hg)⟩, hyd.same.trans h.opened, ?_, hroot,
    fun v x hx => ?_, fun F hF hg g hgm => ?_⟩, { hyd.grows with }, hyd.fns, ⟨n, hn⟩, _,
    congrArg (Array.push · _) hyd.globals, rfl⟩
  · exact (congrArg Current.scope hn).trans h.scope
  · -- A variable of an initializer lies below the scope of the globals, not in it.
    by_cases hlt : v < b.vars.size
    · have hx' := Array.getElem?_eq_getElem hlt
      cases hx.symm.trans (hyd.grows.vars v _ hx')
      exact h.vars v _ hx'
    · have hbelow := hyd.below h.inv (Nat.le_of_not_lt hlt) hx
      rw [hcur] at hbelow
      exact fun heq => Around.irrefl hyd.inv.forest.preorder (heq ▸ hbelow)
  · have hg' := hlater F hg
    rcases Array.mem_push.mp hgm with hgm | rfl
    · change g ∈ (b₁.drainedBy (.escape ts)).globals at hgm
      rw [hyd.globals] at hgm
      exact h.globals F hF (hyd.grows.trans hg') g hgm
    · obtain ⟨hscoped, hsink⟩ := hyd.kept F hF hg'
      rw [hcur] at hscoped
      exact ⟨hscoped.mono (fun v hv => absurd hv.1 (hvis v)) y, hs ▸ hF.inv.allEscape hsink,
        hyd.binds_nodup⟩

/-- Binding globals, one after the other. -/
theorem bindGlobals_spec {r : ScopeId} : ∀ (ds : List Syntax.LetDecl) {b b' : State} {q : Unit},
    (∀ d ∈ ds, d.value.Named P) → b.InGlobals P u r → (ds.forM bindGlobal).run b = .ok (q, b') →
    b'.InGlobals P u r ∧ b.Grows b' ∧ b'.fns = b.fns ∧
      (∃ n, b'.current = { b.current with closureCount := n }) ∧
      b'.globals.toList.map Global.name = b.globals.toList.map Global.name ++ ds.map (·.name.text)
  | [], b, b', q, _, h, hrun => by
    rw [List.forM, run_pure_eq_ok] at hrun
    cases hrun
    exact ⟨h, .refl b, rfl, ⟨_, rfl⟩, by simp⟩
  | d :: ds, b, b', q, hn, h, hrun => by
    rw [List.forM, run_bind_eq_ok] at hrun
    obtain ⟨_, b₁, h₁, hrun⟩ := hrun
    obtain ⟨hb, hg, hf, ⟨m, hm⟩, g, hgl, hgn⟩ := bindGlobal_spec (hn d List.mem_cons_self) h h₁
    obtain ⟨hb', hg', hf', ⟨n, hn'⟩, hgl'⟩ := bindGlobals_spec ds
      (fun d hd => hn d (List.mem_cons_of_mem _ hd)) hb hrun
    refine ⟨hb', hg.trans hg', hf'.trans hf, ⟨n, by rw [hn', hm]⟩, ?_⟩
    rw [hgl', hgl, Array.toList_push, List.map_append, List.map_cons, hgn, List.append_assoc]
    rfl

end ClosureEnv.Binding
