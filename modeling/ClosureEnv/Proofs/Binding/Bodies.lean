import ClosureEnv.Proofs.Binding.Literal
import ClosureEnv.Proofs.Syntax.Named

/-!
# Bound bodies are well-scoped

Binding a part of a body gives a part that is well-scoped once binding is at its end, by induction
on the source.
-/

namespace ClosureEnv.Binding

open State ClosureEnv.Bound

variable {P : String → Prop} {u : String} {b b' F : State} {xs : List VarId}
  {ss : List Source} {φ : State → Prop}

/-- A part with a value that goes down a drain. -/
theorem Valued.drain (h : Valued P u b b' xs ss φ) (sink : Sink) (hs : sink.sources = ss) :
    Valued P u b (b'.drainedBy sink) xs ss fun F => φ F ∧ sink ∈ F.sinks :=
  { h.toPart.step (Step.drainedBy h.inv sink (hs ▸ h.in_range)) with
    same := h.same
    in_range := h.in_range
    kept := fun F hF hg => ⟨h.kept F hF ((Step.drainedBy (u := u) h.inv sink
      (hs ▸ h.in_range)).grows.trans hg), hg.sinks List.mem_cons_self⟩ }

/-- The same variables are seen in a new scope. -/
theorem State.seen_opened (F : State) (kind : ScopeKind) (span : Syntax.Span) :
    F.Seen u (b.opened kind none span) = F.Seen u b := by
  funext v
  simp [Seen, Vis, opened]

/-- A part inside a block or a loop, seen from outside once the scope is closed. -/
theorem Part.enclosed (h : b.Inv P) (hf : b.frames ≠ []) {kind : ScopeKind} (hk : kind ≠ .function)
    (hk' : kind ≠ .closure) {span : Syntax.Span}
    (hs : Part P u (b.opened kind none span) b' xs φ)
    (hr : ∀ s ∈ ss, s.InRange b'.vars.size b'.closures.size) :
    Valued P u b b'.closed xs ss fun F =>
      φ F ∧ Opens (F.finish u) b.currentScope b.scopes.size kind := by
  obtain ⟨hstep, hsame⟩ := hs.toStep.enclosed h hf hk hk'
  have hnew : (b.opened kind none span).scopes[b.scopes.size]? =
      some (b.newScope kind none span) := Array.getElem?_push_size
  exact { hstep with
    binds_mem := hs.binds_mem
    binds_nodup := hs.binds_nodup
    kept := fun F hF hg => by
      have hg' := (grows_closed b').trans hg
      exact ⟨hs.kept F hF hg', _, hg'.scopes _ _ (hs.grows.scopes _ _ hnew), rfl,
        State.newScope_parent hf kind none span⟩
    same := hsame
    in_range := hr }

/-- What is seen after a declaration. -/
theorem State.seen_declared {name : String} {ty : Ty} {isMut isParam : Bool} {span : Syntax.Span}
    {v : VarId} (h : F.Seen u (b.declared name ty isMut isParam span) v) :
    F.Seen u b v ∨ v = b.vars.size := by
  obtain ⟨⟨f, hf, n, hn⟩, hneeds⟩ := h
  rcases hfs : b.frames with _ | ⟨g, gs⟩
  · simp [declared, hfs] at hf
  · simp only [declared, hfs, List.mem_cons] at hf
    rcases hf with rfl | hf
    · rcases List.mem_cons.mp hn with heq | hn
      · cases heq
        exact .inr rfl
      · exact .inl ⟨⟨g, by simp [hfs], n, hn⟩, hneeds⟩
    · exact .inl ⟨⟨f, by simp [hfs, hf], n, hn⟩, hneeds⟩

/-- A declaration as a part that declares its variable, in the current scope. -/
theorem Part.declared (h : b.Inv P) (hf : b.frames ≠ []) {name : String} (hname : P name) (ty : Ty)
    (isMut isParam : Bool) (span : Syntax.Span) :
    Part P u b (b.declared name ty isMut isParam span) [b.vars.size] fun F =>
      ∃ x, F.vars[b.vars.size]? = some x ∧ x.scope = b.currentScope :=
  { Step.declared h hf hname ty isMut isParam span with
    binds_mem := by simp [State.declared]
    binds_nodup := by simp
    kept := fun F _ hg => ⟨_, hg.vars _ _ Array.getElem?_push_size, rfl⟩ }

/-- Declaring parameters. -/
theorem declareParams_spec {f : Syntax.Param → Ty} : ∀ (params : List Syntax.Param) {b b' : State}
    {vs : List VarId}, (∀ p ∈ params, P p.name.text) → b.Inv P → b.frames ≠ [] →
    (params.mapM (fun p => declare p.name.text (f p) true true p.span) : Bind _).run b =
      .ok (vs, b') →
    (Part P u b b' vs fun F => ∀ v ∈ vs, ∃ x, F.vars[v]? = some x ∧ x.scope = b.currentScope) ∧
      ∀ v, b'.Vis v → v ∈ vs ∨ b.Vis v
  | [], b, b', vs, _, h, _, hrun => by
    rw [List.mapM_nil, run_pure_eq_ok] at hrun
    cases hrun
    exact ⟨.ofStep (.refl h) nofun, fun v => .inr⟩
  | p :: params, b, b', vs, hp, h, hf, hrun => by
    obtain ⟨ws, h₂, rfl⟩ := declareParams_cons_run hrun
    have hd := Part.declared (u := u) h hf (hp p List.mem_cons_self) (f p) true true p.span
    obtain ⟨hps, hvis⟩ := declareParams_spec params (fun q hq => hp q (List.mem_cons_of_mem p hq))
      hd.inv (hd.frames_ne hf) h₂
    refine ⟨(hd.append hps).imp fun F _ _ ⟨hv, hvs⟩ w hw => ?_, fun w hw => ?_⟩
    · rcases List.mem_cons.mp hw with rfl | hw
      · exact hv
      · rw [hd.currentScope] at hvs
        exact hvs w hw
    · -- What is visible behind the parameters is the new one, or was visible before.
      rcases hvis w hw with hw | hw
      · exact .inl (List.mem_cons_of_mem _ hw)
      · obtain ⟨g, hg, n, hn⟩ := hw
        obtain ⟨f, fs, hfs⟩ := List.exists_cons_of_ne_nil hf
        simp only [State.declared, hfs, List.mem_cons] at hg
        rcases hg with rfl | hg
        · rcases List.mem_cons.mp hn with heq | hn
          · cases heq
            exact .inl List.mem_cons_self
          · exact .inr ⟨f, by simp [hfs], n, hn⟩
        · exact .inr ⟨g, by simp [hfs, hg], n, hn⟩

/-- A name stands for a visible variable. -/
theorem State.vis_of_lookup {name : String} {v : VarId} (h : b.lookup? name = some v) :
    b.Vis v := by
  obtain ⟨f, hf, hv⟩ := List.exists_of_findSome?_eq_some h
  refine ⟨f, hf, name, ?_⟩
  obtain ⟨l₁, l₂, hl, -⟩ := List.lookup_eq_some_iff.mp hv
  simp [hl]

/-- A variable is seen where its use is noted. -/
theorem State.seen_of_used (h : b.Inv P) {v : VarId} (hvis : b.Vis v) (hF : F.Final P)
    (hg : (b.used v).Grows F) : F.Seen u b v := by
  obtain ⟨hstep, -, hfree⟩ := Step.used (u := u) h hvis
  refine ⟨hvis, fun c k x hc hk hx hxk => ?_⟩
  have hbF := hstep.grows.trans hg
  have hpF := hF.inv.forest.preorder
  obtain ⟨f, hf, n, hn⟩ := hvis
  obtain ⟨y, hy, -⟩ := h.frames.names f hf n v hn
  cases (hbF.vars v y hy).symm.trans hx
  have hcs : c ∈ b.closureStack := by
    rcases hs : b.closureStack with _ | ⟨d, ds⟩ <;> simp_all
  obtain ⟨l, hl⟩ := h.closure_of_mem_stack hcs
  obtain ⟨k', hk', hle⟩ := hbF.closures c l hl
  cases hk.symm.trans hk'
  rw [hle.scope, hbF.around_later_iff h hF.inv (h.closure_scope_lt hl)] at hxk
  obtain ⟨m, hm, hmv⟩ := hfree c l x hc hl hy hxk
  obtain ⟨k'', hk'', hle'⟩ := hg.closures c m hm
  cases hk.symm.trans hk''
  rw [needs_finish_iff]
  refine ⟨k, k, x, hk, Array.mem_of_getElem? hk, hx, .inl rfl, hle'.freeVars hmv, fun har => ?_⟩
  rw [hle.scope, hbF.aroundEq_later_iff h hF.inv (h.vars.var_scope v x hy).2] at har
  exact Around.irrefl h.forest.preorder (hxk.trans_eq h.forest.preorder har)

/-- Resolving a name. -/
theorem resolve_spec {name : Syntax.Ident} {x : Expr} {ss : List Source} (h : b.Inv P)
    (hrun : (resolve name).run b = .ok ((x, ss), b')) : x.sources = ss ∧
      Valued P u b b' x.binds ss fun F =>
        x.Scoped (F.finish u) F.Holds b.currentScope (F.Seen u b) := by
  cases resolve_run hrun with
  | @var v hv =>
    have hvis := vis_of_lookup hv
    obtain ⟨hstep, hsame, -⟩ := Step.used (u := u) h hvis
    refine ⟨rfl, { hstep with
      binds_mem := nofun
      binds_nodup := .nil
      kept := fun F hF hg => seen_of_used h hvis hF hg
      same := hsame
      in_range := ?_ }⟩
    intro s hs
    cases List.mem_singleton.mp hs
    obtain ⟨f, hf, n, hn⟩ := hvis
    obtain ⟨y, hy, -⟩ := h.frames.names f hf n v hn
    exact Nat.lt_of_lt_of_le (Array.getElem?_eq_some_iff.mp hy).1 hstep.grows.vars_size
  | global =>
    exact ⟨rfl, { Part.ofStep (Step.refl h) fun _ _ _ => trivial with
      same := rfl, in_range := nofun }⟩
  | fn _ _ hfn =>
    refine ⟨rfl, { Part.ofStep (Step.refl h) fun F hF hg => ?_ with
      same := rfl, in_range := nofun }⟩
    exact hF.fns _ (hg.fnTypes ▸ hfn)

/-- What is stored into a variable is among its sources. -/
theorem State.Inv.mem_sourcesOf_stored (h : b.Inv P) {v : Nat} (hv : v < b.vars.size)
    {sources : List Source} {x : Source} (hx : x ∈ sources) :
    x ∈ (b.stored v sources).sourcesOf v := by
  rw [← h.flow.size] at hv
  simp only [State.stored, sourcesOf]
  rw [Array.getElem?_modify, if_pos rfl, Array.getElem?_eq_getElem hv]
  exact List.mem_append_right _ hx

/-- Assigning a value. -/
theorem assign_spec {target : Syntax.Ident} {span : Syntax.Span} {value : Expr}
    {sources : List Source} {x : Stmt} (h : b.Inv P)
    (hr : ∀ s ∈ sources, s.InRange b.vars.size b.closures.size)
    (hrun : (assign target span value sources).run b = .ok (x, b')) :
    ∃ place, x = .assign place value ∧ Valued P u b b' [] [] fun F =>
      match place with
      | .var v => F.Seen u b v ∧ MayHold F.Holds v sources ∧
        MayRise (F.finish u) F.Holds v sources
      | .global _ => AllEscape (F.finish u) F.Holds sources := by
  cases assign_run hrun with
  | @var v hv =>
    have hvis := vis_of_lookup hv
    obtain ⟨f, hf, n, hn⟩ := id hvis
    obtain ⟨y, hy, -⟩ := h.frames.names f hf n v hn
    have hlt := (Array.getElem?_eq_some_iff.mp hy).1
    obtain ⟨hused, hsame, -⟩ := Step.used (u := u) h hvis
    have hr' : ∀ s ∈ sources, s.InRange (b.used v).vars.size (b.used v).closures.size :=
      fun s hs => (hr s hs).mono hused.grows.vars_size hused.grows.closures_size
    -- The sources go to the variable and then drain to a sink below its scope, so that both facts
    -- are read off the last state.
    have hstored := Step.stored (u := u) hused.inv v hr'
    have hdrained := Step.drainedBy (u := u) hstored.inv
      (.below (b.vars[v]?.getD default).scope sources) hr'
    have hlater := hstored.grows.trans hdrained.grows
    refine ⟨.var v, rfl, { (hused.trans hstored).trans hdrained with
      binds_mem := nofun
      binds_nodup := .nil
      kept := fun F hF hg => ⟨seen_of_used h hvis hF (hlater.trans hg), ?_, ?_⟩
      same := hsame
      in_range := nofun }⟩
    · refine hF.inv.mayHold fun x hx => (hdrained.grows.trans hg).stored v x ?_
      exact hused.inv.mem_sourcesOf_stored (Nat.lt_of_lt_of_le hlt hused.grows.vars_size) hx
    · refine hF.inv.mayRise (((hused.grows.trans hlater).trans hg).vars v y hy) (hg.sinks ?_)
      simp [State.drainedBy, hy]
  | global =>
    exact ⟨_, rfl, { Part.ofStep (Step.drainedBy h (.escape sources) hr)
      fun F hF hg => hF.inv.allEscape (hg.sinks List.mem_cons_self) with
      same := rfl, in_range := nofun }⟩

/-- The parameters of a closure keep the invariant. -/
theorem declareParams_inv {params : List Syntax.Param} (hp : ∀ p ∈ params, P p.name.text)
    (h : b.Inv P) (hf : b.frames ≠ []) {span : Syntax.Span} {vs : List VarId}
    (hparams : (declareParams params).run (b.openedClosure span) = .ok (vs, b')) :
    b'.Inv P ∧ b'.frames ≠ [] := by
  rw [declareParams_run] at hparams
  obtain ⟨hps, -⟩ := declareParams_spec (u := "") params hp (h.openedClosure hf span)
    (List.cons_ne_nil _ _) hparams
  exact ⟨hps.inv, hps.frames_ne (List.cons_ne_nil _ _)⟩

/-- A closure literal whose body is bound. -/
theorem literal_spec (h : b.Inv P) (hf : b.frames ≠ []) {params : List Syntax.Param}
    (hp : ∀ p ∈ params, P p.name.text) {span : Syntax.Span} {b₂ b₃ : State} {vs : List VarId}
    {body : Expr} (hparams : (declareParams params).run (b.openedClosure span) = .ok (vs, b₂))
    (hbody : Part P u b₂ b₃ body.binds fun F =>
      BodyScoped (F.finish u) F.Holds b₂.currentScope (F.Seen u b₂) body)
    (hsources : body.sources = ss) (hr : ∀ s ∈ ss, s.InRange b₃.vars.size b₃.closures.size) :
    Valued P u b (b₃.finished b.closures.size vs body ss) [] [.closure b.closures.size] fun F =>
      (Expr.closure b.closures.size).Scoped (F.finish u) F.Holds b.currentScope (F.Seen u b) := by
  rw [declareParams_run] at hparams
  obtain ⟨hps, hvis⟩ := declareParams_spec (u := u) params hp (h.openedClosure hf span)
    (List.cons_ne_nil _ _) hparams
  have hin : Within P u span b b₃ := ⟨hps.toStep.trans hbody.toStep, h, hf⟩
  have hcur : b₂.currentScope = b.scopes.size := hps.currentScope
  have hstack : b₂.closureStack.head? = some b.closures.size := by rw [hps.stack]; rfl
  -- What the body sees is a parameter, or was visible around the literal and is then needed by the
  -- closure.
  have hall := (hps.append hbody).imp (ψ := fun F =>
      (∀ v ∈ vs, ∃ x, F.vars[v]? = some x ∧ x.scope = b.scopes.size) ∧
      BodyScoped (F.finish u) F.Holds b.scopes.size (fun v =>
        (v ∈ vs ∨ b.Vis v) ∧ ∀ k x, F.closures[b.closures.size]? = some k →
          F.vars[v]? = some x → Around F.scopes x.scope k.scope →
          (F.finish u).Needs b.closures.size v) body)
    fun F _ _ ⟨hscopes, hscoped⟩ => ⟨hscopes, by
      rw [hcur] at hscoped
      refine hscoped.mono (fun v ⟨hv, hneeds⟩ => ⟨?_, fun k x => hneeds _ k x hstack⟩) body
      refine (hvis v hv).imp id fun ⟨g, hg, n, hn⟩ => ?_
      rcases List.mem_cons.mp hg with rfl | hg
      · simp at hn
      · exact ⟨g, hg, n, hn⟩⟩
  have hstep := hin.finished hr fun F hF hg => hin.bodyDone hall hsources hF hg
  refine { hstep with
    binds_mem := nofun
    binds_nodup := .nil
    same := hin.outer_eq
    kept := fun F hF hg => ?_
    in_range := fun s hs => ?_ }
  · -- The closure in the last table is the one that is finished here, with its escape filled in.
    obtain ⟨k, hk, -, hkd, -⟩ := hin.closure_finished vs body ss
    have hkF := hg.closed _ k hk (by rw [hstep.stack]; exact hin.not_mem_stack)
    exact ⟨_, State.closure_finish hkF, hkd, fun v hv => hin.seen_of_needs hr hF hg hstep hv⟩
  · cases List.mem_singleton.mp hs
    obtain ⟨k, hk, -⟩ := hin.closure_finished vs body ss
    exact (Array.getElem?_eq_some_iff.mp hk).1

end ClosureEnv.Binding
