import ClosureEnv.Proofs.Binding.Opened
import ClosureEnv.Proofs.Binding.Reading
import ClosureEnv.Proofs.Binding.Shape

/-!
# Names resolve, and free variables are exact

In the tree of a module every mention stands for what its name stands for there, and the free
variables of a closure are what its body mentions from around it, by first mention
(`resolved_of_bindModule`).
-/

namespace ClosureEnv

namespace Binding

open State ClosureEnv.Bound

variable {m : Syntax.Module} {b b' F : State} {u : String}

/-! ## Items -/

/-- What is known between items, for parts of bodies that come next. -/
structure State.Listed (m : Syntax.Module) (b F : State) : Prop where
  named : b.Named
  globals : ∀ name, (b.globalTypes.lookup name).isSome ↔ m.HasGlobal name
  fns : ∀ name, (b.fnTypes.lookup name).isSome ↔ m.HasFn name
  exact : F.Exact b

/-- A list with one more entry has its name and those from before. -/
theorem isSome_lookup_cons {α : Type} (name other : String) (x : α) (xs : List (String × α)) :
    (((other, x) :: xs).lookup name).isSome ↔ other = name ∨ (xs.lookup name).isSome := by
  rw [List.lookup_cons]
  by_cases h : name = other
  · simp [h]
  · simp [beq_false_of_ne h, Ne.symm h]

/-- Making items known. -/
theorem declareItems_lists : ∀ (items : List Syntax.Item) {seen : List String} {b b' : State}
    {r : Unit}, (declareItems seen items).run b = .ok (r, b') →
    (∀ name, (b'.globalTypes.lookup name).isSome ↔
      (∃ d ∈ globals items, d.name.text = name) ∨ (b.globalTypes.lookup name).isSome) ∧
    ∀ name, (b'.fnTypes.lookup name).isSome ↔
      (∃ d ∈ functions items, d.name.text = name) ∨ (b.fnTypes.lookup name).isSome
  | [], seen, b, b', r, hrun => by
    rw [declareItems, run_pure_eq_ok] at hrun
    cases hrun
    simp [globals, functions]
  | item :: items, seen, b, b', r, hrun => by
    rw [declareItems] at hrun
    split at hrun
    · obtain ⟨_, _, hthrow, -⟩ := run_bind_eq_ok.mp hrun
      exact absurd hthrow run_throw_ne_ok
    · cases item with
      | function d =>
        obtain ⟨_, b₁, h₁, hrun⟩ := run_bind_eq_ok.mp hrun
        cases h₁
        obtain ⟨hglobals, hfns⟩ := declareItems_lists items hrun
        refine ⟨hglobals, fun name => (hfns name).trans ?_⟩
        have hcons : functions (.function d :: items) = d :: functions items := rfl
        rw [hcons, List.exists_mem_cons_iff, or_assoc, or_left_comm]
        exact or_congr_right (isSome_lookup_cons name d.name.text _ _)
      | binding d =>
        obtain ⟨_, b₁, h₁, hrun⟩ := run_bind_eq_ok.mp hrun
        cases h₁
        obtain ⟨hglobals, hfns⟩ := declareItems_lists items hrun
        refine ⟨fun name => (hglobals name).trans ?_, hfns⟩
        have hcons : globals (.binding d :: items) = d :: globals items := rfl
        rw [hcons, List.exists_mem_cons_iff, or_assoc, or_left_comm]
        exact or_congr_right (isSome_lookup_cons name d.name.text _ _)

/-- Between items, no closure is open. -/
theorem State.Inv.stack_eq_nil {P : String → Prop} (h : b.Inv P) (hf : b.frames = []) :
    b.closureStack = [] := by
  rw [h.frames.stack, hf]
  rfl

/-- Binding a function. -/
theorem bindFn_reads {d : Syntax.FnDecl} {r : Unit} (hF : F.Regular)
    (h : b.Between (fun _ => True) "") (hl : b.Listed m F) (hrun : (bindFn d).run b = .ok (r, b'))
    (hg : b'.Grows F) : b'.Listed m F ∧ ∃ f, b'.fns = b.fns.push f ∧
      FnBinds (F.finish u) m b.vars.size d b'.vars.size f := by
  have hmoves := bindFn_moves h hrun
  have hnamed := (hmoves.keeps Move.named h.inv hl.named).2
  obtain ⟨vs, y, ts, ret, b₂, b₃, h₂, h₃, rfl⟩ := bindFn_run hrun
  generalize d.generics.map Syntax.Ident.text = generics at *
  -- The new function starts with an empty frame, and everything is declared behind it.
  have hready : Ready m (b.started d.name.text generics d.span false) :=
    ⟨h.inv.started h.closed d.name.text generics d.span false,
      Move.named (.started h.closed d.name.text generics d.span false) h.inv hl.named,
      List.cons_ne_nil _ _, hl.globals, hl.fns⟩
  have hps := hready.params h₂
  obtain ⟨hy, hr⟩ := hps.ready.block h₃
  have hd := hy.ready.drainedBy (.escape ts) hr
  have hend := grows_ended (b₃.drainedBy (.escape ts)) vs ret y
  have hg₃ := hd.grows.trans (hend.trans hg)
  obtain ⟨hclosures, hstack, hsize, hparams⟩ := declareParams_reads (u := u) d.params hready h₂
  obtain ⟨hbody, hnote⟩ := bindBlock_reads hF (u := u) d.body hps.ready h₃ hg₃
  have hscope : b₂.currentScope = b.scopes.size := hps.currentScope
  have hstep := hps.toStep.trans hy.toStep
  have hcurrent : b₃.current.scope = b.scopes.size ∧ b₃.current.name = d.name.text := by
    obtain ⟨n, hn⟩ := hstep.current
    rw [hn]
    exact ⟨rfl, rfl⟩
  have hroot := State.parentIn?_started h.closed (hstep.grows.trans hg₃)
  have hexact : F.Exact b₂ :=
    (Noting.of_eq (F := F) (b := b) hclosures hstack).exact hl.exact
  rw [hscope, hsize] at hbody
  refine ⟨⟨hnamed, hd.ready.globals, hd.ready.fns, hnote.exact hexact⟩, _,
    congrArg (Array.push · _) hstep.fns, ⟨hcurrent.2, ?_, ?_, ?_⟩⟩
  · show parentIn? F.scopes b₃.current.scope = none
    rw [hcurrent.1]
    exact hroot
  · show ParamsBind (F.finish u) b₃.current.scope b.vars.size d.params vs
    rw [hcurrent.1]
    exact hparams F (hy.grows.trans hg₃)
  · show BlockBinds (F.finish u) m b₃.current.scope _ d.body b₃.vars.size y
    rw [hcurrent.1]
    exact hbody

/-- Binding functions, one after the other. -/
theorem bindFns_reads (hF : F.Regular) : ∀ (ds : List Syntax.FnDecl) {b b' : State} {r : Unit},
    b.Between (fun _ => True) "" → b.Listed m F → (ds.forM bindFn).run b = .ok (r, b') →
    b'.Grows F → b'.Listed m F ∧ ∃ fs, b'.fns.toList = b.fns.toList ++ fs ∧
      FnsBind (F.finish u) m b.vars.size ds b'.vars.size fs
  | [], b, b', r, _, hl, hrun, _ => by
    cases run_pure_eq_ok.mp hrun
    exact ⟨hl, [], by simp, .nil _⟩
  | d :: ds, b, b', r, h, hl, hrun, hg => by
    rw [List.forM, run_bind_eq_ok] at hrun
    obtain ⟨_, b₁, h₁, hrun⟩ := hrun
    obtain ⟨hb, -⟩ := bindFn_spec (fun _ _ => trivial) d.body.named_true h h₁
    obtain ⟨-, hgrows, -⟩ := bindFns_spec ds (fun d _ => ⟨fun _ _ => trivial, d.body.named_true⟩)
      hb hrun
    obtain ⟨hl₁, f, hf, hfb⟩ := bindFn_reads (u := u) hF h hl h₁ (hgrows.trans hg)
    obtain ⟨hl', fs, hfs, hfsb⟩ := bindFns_reads hF ds hb hl₁ hrun hg
    refine ⟨hl', f :: fs, ?_, .cons hfb hfsb⟩
    rw [hfs, hf, Array.toList_push, List.append_assoc]
    rfl

/-- Binding a global of the module. -/
theorem bindGlobal_reads {d : Syntax.LetDecl} {r : ScopeId} {q : Unit} (hF : F.Regular)
    (hd : d ∈ Binding.globals m.items) (h : b.InGlobals (fun _ => True) "" r) (hl : b.Listed m F)
    (hrun : (bindGlobal d).run b = .ok (q, b')) (hg : b'.Grows F) :
    b'.Listed m F ∧ ∃ g, b'.globals = b.globals.push g ∧ g.name = d.name.text ∧
      ExprBinds (F.finish u) m r b.vars.size d.value b'.vars.size g.init := by
  have hmoves := bindGlobal_moves h hrun
  have hnamed := (hmoves.keeps Move.named h.inv hl.named).2
  obtain ⟨y, ts, ty, b₁, h₁, rfl⟩ := bindGlobal_run hrun
  have hne : b.frames ≠ [] := by simp [h.opened]
  have hready : Ready m b := ⟨h.inv, hl.named, hne, hl.globals, hl.fns⟩
  obtain ⟨hy, -⟩ := hready.expr h₁
  have hg₁ : b₁.Grows F := (grows_drainedBy b₁ (.escape ts)).trans { hg with }
  obtain ⟨hyb, hnote⟩ := bindExpr_reads hF (u := u) d.value hready h₁ hg₁
  have hscope : b.currentScope = r := by simp [State.currentScope, h.opened]
  rw [hscope] at hyb
  refine ⟨⟨hnamed, fun name => ?_, hy.ready.fns, hnote.exact hl.exact⟩, _,
    congrArg (Array.push · _) hy.globals, rfl, hyb⟩
  rw [isSome_lookup_cons]
  have hknown := hy.ready.globals name
  exact ⟨fun hname => hname.elim (fun heq => ⟨d, hd, heq⟩) hknown.mp, fun hname =>
    .inr (hknown.mpr hname)⟩

/-- Binding globals of the module, one after the other. -/
theorem bindGlobals_reads {r : ScopeId} (hF : F.Regular) : ∀ (ds : List Syntax.LetDecl)
    {b b' : State} {q : Unit}, (∀ d ∈ ds, d ∈ Binding.globals m.items) →
    b.InGlobals (fun _ => True) "" r → b.Listed m F → (ds.forM bindGlobal).run b = .ok (q, b') →
    b'.Grows F → b'.Listed m F ∧ ∃ gs, b'.globals.toList = b.globals.toList ++ gs ∧
      GlobalsBind (F.finish u) m r b.vars.size ds b'.vars.size gs
  | [], b, b', q, _, _, hl, hrun, _ => by
    cases run_pure_eq_ok.mp hrun
    exact ⟨hl, [], by simp, .nil _⟩
  | d :: ds, b, b', q, hds, h, hl, hrun, hg => by
    rw [List.forM, run_bind_eq_ok] at hrun
    obtain ⟨_, b₁, h₁, hrun⟩ := hrun
    obtain ⟨hb, -⟩ := bindGlobal_spec d.value.named_true h h₁
    obtain ⟨-, hgrows, -⟩ := bindGlobals_spec ds (fun d _ => d.value.named_true) hb hrun
    obtain ⟨hl₁, g, hgl, hgn, hgb⟩ := bindGlobal_reads (u := u) hF (hds d List.mem_cons_self) h hl
      h₁ (hgrows.trans hg)
    obtain ⟨hl', gs, hgs, hgsb⟩ := bindGlobals_reads hF ds
      (fun d hd => hds d (List.mem_cons_of_mem _ hd)) hb hl₁ hrun hg
    refine ⟨hl', g :: gs, ?_, .cons hgn hgb hgsb⟩
    rw [hgs, hgl, Array.toList_push, List.append_assoc]
    rfl

/-- Binding a module. -/
theorem bindState_reads (hF : bindState m = .ok F) : ModuleBinds (F.finish u) m ∧ F.Exact F := by
  have hinv : F.Regular := (bindState_spec (u := "") m.named_true hF).inv
  obtain ⟨b₀, b₁, h₀, h₁, hitems⟩ := bindState_run hF
  obtain ⟨hglobals, hfns⟩ := declareItems_lists m.items h₀
  obtain ⟨⟨ft, gt, rfl⟩, -⟩ := declareItems_spec m.items h₀
  have hstart : ({ State.empty with fnTypes := ft, globalTypes := gt } : State).Between
      (fun _ => True) "" := between_empty ft gt
  have hlisted : ({ State.empty with fnTypes := ft, globalTypes := gt } : State).Listed m F :=
    ⟨fun f hf => absurd hf List.not_mem_nil,
      fun name => by rw [hglobals]; simp [State.empty, Syntax.Module.HasGlobal],
      fun name => by rw [hfns]; simp [State.empty, Syntax.Module.HasFn],
      fun c k hk => by simp [State.empty] at hk⟩
  obtain ⟨hb, -, hgl, -⟩ := bindFns_spec (functions m.items)
    (fun d _ => ⟨fun _ _ => trivial, d.body.named_true⟩) hstart h₁
  -- Without globals the functions are all there is; with some, a function is made up to hold them.
  rcases hitems with ⟨hnone, rfl⟩ | ⟨-, b₃, h₃, rfl⟩
  · obtain ⟨hl, fs, hfs, hfsb⟩ := bindFns_reads (u := u) hinv _ hstart hlisted h₁ (.refl _)
    refine ⟨⟨F.vars.size, fs, [], 0, hfsb, ?_, ?_, .inl ⟨hnone, rfl⟩⟩, hl.exact⟩
    · show F.fns.toList = fs ++ []
      simpa [State.empty] using hfs
    · rw [hnone, show (F.finish u).globals = #[] from hgl]
      exact .nil _
  · have hin := hb.inGlobals hgl m.span
    obtain ⟨hin', hg₃, hfns₃, ⟨n, hn⟩, -⟩ := bindGlobals_spec (globals m.items)
      (fun d _ => d.value.named_true) hin h₃
    have hend := grows_ended b₃ [] .unit (.mk none [] none)
    have hgstart := grows_started hb.closed moduleFn [] m.span true
    obtain ⟨hl, fs, hfs, hfsb⟩ := bindFns_reads (u := u) hinv _ hstart hlisted h₁
      (hgstart.trans (hg₃.trans hend))
    have hl₂ : (b₁.started moduleFn [] m.span true).Listed m _ :=
      ⟨Move.named (.started hb.closed moduleFn [] m.span true) hb.inv hl.named, hl.globals,
        hl.fns, hl.exact⟩
    obtain ⟨hl₃, gs, hgs, hgsb⟩ := bindGlobals_reads (u := u) hinv _ (fun d hd => hd) hin hl₂ h₃
      hend
    refine ⟨⟨_, fs, [b₃.currentFn [] .unit (.mk none [] none)], b₁.scopes.size, hfsb, ?_, ?_,
      .inr ⟨_, rfl, hin'.scope, ?_⟩⟩, hl₃.exact⟩
    · show (b₃.fns.push _).toList = _
      have hfs' : b₁.fns.toList = fs := by simpa [State.empty] using hfs
      rw [Array.toList_push, hfns₃]
      exact congrArg (· ++ _) hfs'
    · have hnone : (b₁.started moduleFn [] m.span true).globals.toList = [] := by
        rw [show (b₁.started moduleFn [] m.span true).globals = #[] from hgl]
      rw [hnone, List.nil_append] at hgs
      show GlobalsBind _ m _ _ _ b₃.vars.size b₃.globals.toList
      rw [hgs]
      exact hgsb
    · exact State.parentIn?_started hb.closed (hg₃.trans (State.grows_ended b₃ _ _ _))

end Binding

/-! ## Trees of modules -/

/-- The free variables of a closure are what its body mentions from around it. -/
structure ScopeTree.FreeExactly (t : ScopeTree) (k : Closure) : Prop where
  /-- None is listed twice. -/
  nodup : k.freeVars.Nodup
  /-- They are the variables that the body mentions and that are declared around the closure, -/
  mem_iff : ∀ v, v ∈ k.freeVars ↔ v ∈ k.body.mentioned k.scope ∧
    ∃ x, t.vars[v]? = some x ∧ Around t.scopes x.scope k.scope
  /-- in the order in which the body comes to them. -/
  order : k.freeVars = firstAround t.scopes t.vars k.scope (k.body.mentioned k.scope)

/-- In the tree of a module names are resolved, and closures have the free variables that they
mention. -/
theorem resolved_of_bindModule {unit : String} {m : Syntax.Module} {t : ScopeTree}
    (ht : bindModule m unit = .ok t) :
    Bound.ModuleBinds t m ∧ ∀ k ∈ t.closures, t.FreeExactly k := by
  obtain ⟨holds, hwell⟩ := wellBound_of_bindModule ht
  have hnodup := (Binding.opensOnce_of_bindModule ht).2.2
  unfold bindModule at ht
  cases hF : Binding.bindState m with
  | error e => rw [hF] at ht; cases ht
  | ok F =>
    rw [hF] at ht
    cases ht
    obtain ⟨hbinds, hexact⟩ := Binding.bindState_reads (u := unit) hF
    have hbetween := (Binding.bindState_spec (u := "") m.named_true hF).toBetween
    refine ⟨hbinds, fun k hk => ?_⟩
    obtain ⟨c, hc⟩ := Array.mem_iff_getElem?.mp hk
    -- At the end no closure is open, so every list is exact.
    have horder : k.freeVars =
        firstAround F.scopes F.vars k.scope (k.body.mentioned k.scope) := by
      obtain ⟨l, hl, rfl⟩ := Binding.State.closure_finish_iff.mp hc
      exact hexact c l hl (by simp [hbetween.inv.stack_eq_nil hbetween.closed])
    refine ⟨hnodup k hk, fun v => ?_, horder⟩
    rw [horder, firstAround, List.mem_eraseDups, List.mem_filter, isStrictAncestorIn_iff]
    refine and_congr_right fun hv => ?_
    obtain ⟨⟨s, w⟩, hmem, rfl⟩ := List.mem_map.mp hv
    obtain ⟨x, hx, -⟩ := hwell.closure_inScope hc _ hmem
    have hx' : F.vars[w]? = some x := hx
    simp only [hx']
    constructor
    · exact fun haround => ⟨x, hx, haround⟩
    · rintro ⟨y, hy, haround⟩
      cases hx.symm.trans hy
      exact haround

/-- So it is in that of a source with a closure. -/
theorem resolved_of_captureSource : ∃ t, bindModule Syntax.captureSource "u" = .ok t ∧
    Bound.ModuleBinds t Syntax.captureSource ∧ ∀ k ∈ t.closures, t.FreeExactly k := by
  obtain ⟨t, ht⟩ := exists_captureTree
  exact ⟨t, ht, resolved_of_bindModule ht⟩

end ClosureEnv
