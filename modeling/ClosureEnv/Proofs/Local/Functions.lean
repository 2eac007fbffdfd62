import ClosureEnv.Proofs.Binding.Resolution
import ClosureEnv.Proofs.Local.Bodies

/-!
# Functions in two runs

A function that is bound in two modules is bound to the same (`bindFn_twin`). When the two runs are
one, that says that the parts of a function have nothing to do with those of other items: what is
bound later leaves them alone, and leads from later parts to later parts only (`Beyond`).
-/

namespace ClosureEnv.Binding

open Syntax

variable {names : String → Prop} {β γ b c b' c' F : State}

/-- Between items of any names. -/
abbrev State.Outside (b : State) : Prop :=
  b.Between (fun _ => True) ""

/-! ## A function is bound to the same -/

/-- Behind two arrays there is nothing. -/
theorem AlikeAt.of_size {α β : Type} {like : Nat → α → β → Prop} (xs : Array α) (ys : Array β)
    {m n : Nat} (hm : xs.size ≤ m) (hn : ys.size ≤ n) : AlikeAt (Apart m n) like xs ys := by
  intro i j hij
  rw [Array.getElem?_eq_none (Nat.le_trans hm hij.le.1),
    Array.getElem?_eq_none (Nat.le_trans hn hij.le.2)]
  exact .none

/-- Two runs start a function. -/
theorem Twin.started (hb : β.Outside) (hc : γ.Outside) (hknown : AlikeFor names β γ) (name : String)
    (generics : List String) (span span' : Span) (isSynthetic : Bool) :
    Twin names β γ (β.started name generics span isSynthetic)
      (γ.started name generics span' isSynthetic) := by
  -- Before the function nothing stands for anything, and only the name of the function is set.
  have hbefore : Twin names β γ
      { β with current := ⟨β.fns.size, name, generics, 0, 0, isSynthetic⟩ }
      { γ with current := ⟨γ.fns.size, name, generics, 0, 0, isSynthetic⟩ } :=
    { scope_next := .start _ _
      var_next := .start _ _
      closure_next := .start _ _
      scopes := .of_size _ _ (Nat.le_refl _) (Nat.le_refl _)
      counts := .of_size _ _ (Nat.le_of_eq hb.inv.keys.size) (Nat.le_of_eq hc.inv.keys.size)
      vars := .of_size _ _ (Nat.le_refl _) (Nat.le_refl _)
      closures := .of_size _ _ (Nat.le_refl _) (Nat.le_refl _)
      stored := .of_size _ _ (Nat.le_of_eq hb.inv.flow.size) (Nat.le_of_eq hc.inv.flow.size)
      frames := by
        dsimp only
        rw [hb.closed, hc.closed]
        exact .nil
      stack := by
        dsimp only
        rw [hb.inv.stack_eq_nil hb.closed, hc.inv.stack_eq_nil hc.closed]
        exact .nil
      sinks := ⟨[], [], rfl, rfl, .nil⟩
      name := rfl
      generics := rfl
      owner := ⟨rfl, rfl⟩
      known := hknown
      counts_size := ⟨hb.inv.keys.size, hc.inv.keys.size⟩
      stored_size := ⟨hb.inv.flow.size, hc.inv.flow.size⟩
      preorder := ⟨hb.inv.forest.preorder, hc.inv.forest.preorder⟩
      opened := fun f hf => by
        dsimp only at hf
        rw [hb.closed] at hf
        cases hf
      stacked := fun k hk => by
        dsimp only at hk
        rw [hb.inv.stack_eq_nil hb.closed] at hk
        cases hk
      kept := fun _ _ => rfl }
  have hopened := hbefore.opened' .function none none span span'
  exact { hopened with }

/-- From `β` to `b` and from `γ` to `c` one function is bound to the same. -/
def BoundAlike (names : String → Prop) (β γ b c : State) : Prop :=
  ∃ b₁ c₁ vs ws ret ret' x y, Twin names β γ b₁ c₁ ∧ b = b₁.ended vs ret x ∧ c = c₁.ended ws ret' y

/-- The same function is bound to the same. -/
theorem bindFn_twin {d d' : FnDecl} {r r' : Unit} (hs : d.spanless = d'.spanless)
    (hn : ∀ n ∈ d.outer, names n) (hb : β.Outside) (hc : γ.Outside) (hknown : AlikeFor names β γ)
    (hrun : (bindFn d).run β = .ok (r, b')) (hrun' : (bindFn d').run γ = .ok (r', c')) :
    BoundAlike names β γ b' c' := by
  obtain ⟨vs, y, ss, ret, b₁, b₂, h₁, h₂, rfl⟩ := bindFn_run hrun
  obtain ⟨ws, z, ts, ret', c₁, c₂, h₁', h₂', rfl⟩ := bindFn_run hrun'
  simp only [FnDecl.spanless, FnDecl.mk.injEq] at hs
  obtain ⟨hname, hgenerics, hparams, -, hbody, -⟩ := hs
  have hname : d.name.text = d'.name.text := (congrArg Ident.text hname :)
  have hgenerics : d.generics.map Ident.text = d'.generics.map Ident.text := by
    have htexts := congrArg (List.map Ident.text) hgenerics
    rwa [List.map_map, List.map_map] at htexts
  rw [← hname, ← hgenerics] at h₁'
  have hstart :=
    Twin.started hb hc hknown d.name.text (d.generics.map Ident.text) d.span d'.span false
  obtain ⟨hmoved, -⟩ := declareParams_twin d.params d'.params hparams hstart
    (List.cons_ne_nil _ _) (.nil _) h₁ h₁'
  have hblock := bindBlock_twin none none d.body d'.body hbody hn hmoved.knows
    (hmoved.frames_ne (List.cons_ne_nil _ _)) hmoved.twin h₂ h₂'
  exact ⟨_, _, vs, ws, ret, ret', y, z,
    hblock.twin.drainedBy (x := .escape ss) (y := .escape ts) hblock.sources, rfl, rfl⟩

/-! ## What comes after a function -/

/-- A source that is a part from some state on. -/
def Source.Since (b : State) : Source → Prop
  | .closure c => b.closures.size ≤ c
  | .var v => b.vars.size ≤ v

/-- What was bound in a state stays, and what is bound after it has nothing to do with that. -/
structure State.Beyond (b F : State) : Prop where
  grows : b.Grows F
  var_scope : ∀ (v : Nat) x, b.vars.size ≤ v → F.vars[v]? = some x → b.scopes.size ≤ x.scope
  closure_scope : ∀ (c : Nat) k, b.closures.size ≤ c → F.closures[c]? = some k →
    b.scopes.size ≤ k.scope
  closure_owner : ∀ (c : Nat) k, b.closures.size ≤ c → F.closures[c]? = some k →
    b.fns.size ≤ k.owner
  /-- Nothing is stored into old variables. -/
  stored : ∀ v : Nat, v < b.vars.size → F.varSources[v]? = b.varSources[v]?
  /-- Nothing old is stored into new ones. -/
  since : ∀ (v : Nat) ss, b.vars.size ≤ v → F.varSources[v]? = some ss → ∀ s ∈ ss, s.Since b
  /-- Nothing old reaches new sinks. -/
  sinks : ∃ more, F.sinks = more ++ b.sinks ∧ ∀ sink ∈ more, ∀ s ∈ sink.sources, s.Since b

/-- A source that is a part from a later state on is one from an earlier state on. -/
theorem Source.Since.mono {s : Source} (h : s.Since b') (hg : b.Grows b') : s.Since b := by
  cases s with
  | closure c => exact Nat.le_trans hg.closures_size h
  | var v => exact Nat.le_trans hg.vars_size h

namespace State.Beyond

/-- Nothing comes after the last state. -/
theorem refl (b : State) (hsize : b.varSources.size = b.vars.size) : b.Beyond b where
  grows := .refl b
  var_scope _ _ hv hx := absurd (Array.getElem?_eq_some_iff.mp hx).1 (Nat.not_lt_of_le hv)
  closure_scope _ _ hc hk := absurd (Array.getElem?_eq_some_iff.mp hk).1 (Nat.not_lt_of_le hc)
  closure_owner _ _ hc hk := absurd (Array.getElem?_eq_some_iff.mp hk).1 (Nat.not_lt_of_le hc)
  stored _ _ := rfl
  since _ _ hv hss :=
    absurd (hsize ▸ (Array.getElem?_eq_some_iff.mp hss).1) (Nat.not_lt_of_le hv)
  sinks := ⟨[], rfl, fun _ h => absurd h List.not_mem_nil⟩

/-- More comes after that. -/
theorem trans (h : b.Beyond b') (h' : b'.Beyond F) : b.Beyond F := by
  have hclosure {c : Nat} {k : Closure} (hc : c < b'.closures.size) (hk : F.closures[c]? = some k) :
      ∃ l, b'.closures[c]? = some l ∧ k.scope = l.scope ∧ k.owner = l.owner := by
    have hl := Array.getElem?_eq_getElem hc
    obtain ⟨k', hk', hle⟩ := h'.grows.closures c _ hl
    cases hk.symm.trans hk'
    exact ⟨_, hl, hle.scope, hle.owner⟩
  -- Whatever is new since the start is new in one of the parts.
  refine ⟨h.grows.trans h'.grows, fun v x hv hx => ?_, fun c k hc hk => ?_, fun c k hc hk => ?_,
    fun v hv => ?_, fun v ss hv hss => ?_, ?_⟩
  · rcases Nat.lt_or_ge v b'.vars.size with hlt | hge
    · have hy := Array.getElem?_eq_getElem hlt
      cases hx.symm.trans (h'.grows.vars v _ hy)
      exact h.var_scope v _ hv hy
    · exact Nat.le_trans h.grows.scopes_size (h'.var_scope v x hge hx)
  · rcases Nat.lt_or_ge c b'.closures.size with hlt | hge
    · obtain ⟨l, hl, hscope, -⟩ := hclosure hlt hk
      exact hscope ▸ h.closure_scope c l hc hl
    · exact Nat.le_trans h.grows.scopes_size (h'.closure_scope c k hge hk)
  · rcases Nat.lt_or_ge c b'.closures.size with hlt | hge
    · obtain ⟨l, hl, -, howner⟩ := hclosure hlt hk
      exact howner ▸ h.closure_owner c l hc hl
    · refine Nat.le_trans ?_ (h'.closure_owner c k hge hk)
      exact size_le_of_getElem? fun i f hf => ⟨f, h.grows.fns i f hf⟩
  · exact (h'.stored v (Nat.lt_of_lt_of_le hv h.grows.vars_size)).trans (h.stored v hv)
  · rcases Nat.lt_or_ge v b'.vars.size with hlt | hge
    · exact h.since v ss hv ((h'.stored v hlt).symm.trans hss)
    · exact fun s hs => (h'.since v ss hge hss s hs).mono h.grows
  · obtain ⟨more, hmore, hsince⟩ := h.sinks
    obtain ⟨last, hlast, hsince'⟩ := h'.sinks
    refine ⟨last ++ more, by rw [hlast, hmore, List.append_assoc], fun sink hsink s hs => ?_⟩
    rcases List.mem_append.mp hsink with hsink | hsink
    · exact (hsince' sink hsink s hs).mono h.grows
    · exact hsince sink hsink s hs

end State.Beyond

/-- A source that is a part of the function is one from where the function begins. -/
theorem SourceTwin.since {x y : Source} (h : SourceTwin β γ x y) : x.Since β := by
  cases x <;> cases y <;> first | exact h.le.1 | exact h.elim

/-- The sources of a sink of the function are parts of the function. -/
theorem SinkTwin.since {x y : Sink} (h : SinkTwin β γ x y) : ∀ s ∈ x.sources, s.Since β := by
  have hall {xs ys : List Source} (h : List.Forall₂ (SourceTwin β γ) xs ys) :
      ∀ s ∈ xs, s.Since β := fun s hs => by
    obtain ⟨_, -, hst⟩ := exists_of_forall₂ h hs
    exact hst.since
  cases x <;> cases y <;> first | exact hall h | exact hall h.2 | exact h.elim

/-- The parts of a function come after those before it. -/
theorem Twin.beyond (h : Twin names β γ b c) {params : List VarId} {ret : Ty} {body : Bound.Block}
    (hg : β.Grows (b.ended params ret body)) : β.Beyond (b.ended params ret body) := by
  have hmeet {m n i : Nat} (hi : m ≤ i) : Apart m n i (n + (i - m)) := ⟨i - m, by omega, rfl⟩
  refine ⟨hg, fun v x hv hx => ?_, fun k l hk hl => ?_, fun k l hk hl => ?_, h.kept,
    fun v ss hv hss s hs => ?_, ?_⟩
  · obtain ⟨y, -, hxy⟩ := h.vars.exists_of_some (hmeet hv) hx
    exact hxy.scope.le.1
  · obtain ⟨y, -, hxy⟩ := h.closures.exists_of_some (hmeet hk) hl
    exact hxy.scope.le.1
  · obtain ⟨y, -, hxy⟩ := h.closures.exists_of_some (hmeet hk) hl
    exact Nat.le_of_eq hxy.owner.1.symm
  · obtain ⟨ts, -, hst⟩ := h.stored.exists_of_some (hmeet hv) hss
    obtain ⟨_, -, hst⟩ := exists_of_forall₂ hst hs
    exact hst.since
  · obtain ⟨xs, ys, hxs, -, hxy⟩ := h.sinks
    refine ⟨xs, hxs, fun sink hsink => ?_⟩
    obtain ⟨_, -, hst⟩ := exists_of_forall₂ hxy hsink
    exact hst.since

/-- A state knows of items what it knows. -/
theorem AlikeFor.refl (names : String → Prop) (b : State) : AlikeFor names b b :=
  fun _ _ => ⟨rfl, rfl⟩

/-- Binding a function. -/
theorem bindFn_beyond {d : FnDecl} {r : Unit} (hb : b.Outside)
    (hrun : (bindFn d).run b = .ok (r, b')) : b'.Outside ∧ b.Beyond b' ∧
      b'.globalTypes = b.globalTypes := by
  obtain ⟨hb', hg, -⟩ := bindFn_spec (fun _ _ => trivial) d.body.named_true hb hrun
  refine ⟨hb', ?_, ?_⟩
  · have halike : BoundAlike (fun _ => True) b b b' b' :=
      bindFn_twin rfl (fun _ _ => trivial) hb hb (.refl _ b) hrun hrun
    obtain ⟨_, _, _, _, _, _, _, _, htwin, rfl, -⟩ := halike
    exact htwin.beyond hg
  · obtain ⟨vs, y, ss, ret, b₁, b₂, h₁, h₂, rfl⟩ := bindFn_run hrun
    have hstart := hb.inv.started hb.closed d.name.text (d.generics.map Ident.text) d.span false
    obtain ⟨hps, -⟩ := declareParams_spec (P := fun _ => True) (u := "") d.params
      (fun _ _ => trivial) hstart (List.cons_ne_nil _ _) h₁
    obtain ⟨-, -, hy, -⟩ := bindBlock_spec (P := fun _ => True) (u := "") d.body d.body.named_true
      hps.inv (hps.frames_ne (List.cons_ne_nil _ _)) h₂
    exact (hps.toStep.trans hy.toStep).globalTypes

/-- Binding functions, one after the other. -/
theorem bindFns_beyond : ∀ (ds : List FnDecl) {b b' : State} {r : Unit}, b.Outside →
    (ds.forM bindFn).run b = .ok (r, b') → b'.Outside ∧ b.Beyond b' ∧
      b'.globalTypes = b.globalTypes
  | [], b, b', r, hb, hrun => by
    cases run_pure_eq_ok.mp hrun
    exact ⟨hb, .refl b hb.inv.flow.size, rfl⟩
  | d :: ds, b, b', r, hb, hrun => by
    rw [List.forM, run_bind_eq_ok] at hrun
    obtain ⟨_, b₁, h₁, hrun⟩ := hrun
    obtain ⟨hb₁, hone, hgl⟩ := bindFn_beyond hb h₁
    obtain ⟨hb', hrest, hgl'⟩ := bindFns_beyond ds hb₁ hrun
    exact ⟨hb', hone.trans hrest, hgl'.trans hgl⟩

/-- Binding a global in two runs that are one. -/
theorem bindGlobal_twin {d : LetDecl} {q : Unit} (h : Twin (fun _ => True) β β b b)
    (hf : b.frames ≠ []) (hrun : (bindGlobal d).run b = .ok (q, b')) :
    Twin (fun _ => True) β β b' b' ∧ b'.frames = b.frames := by
  obtain ⟨y, ts, ty, b₁, h₁, rfl⟩ := bindGlobal_run hrun
  have hy := bindExpr_twin d.value d.value rfl (fun _ _ => trivial) (.nil b) hf h h₁ h₁
  have hdrained := hy.twin.drainedBy (x := .escape ts) (y := .escape ts) hy.sources
  exact ⟨{ hdrained with known := .refl _ _ }, hy.same⟩

/-- Binding globals, one after the other. -/
theorem bindGlobals_twin : ∀ (ds : List LetDecl) {b b' : State} {q : Unit},
    Twin (fun _ => True) β β b b → b.frames ≠ [] → (ds.forM bindGlobal).run b = .ok (q, b') →
    Twin (fun _ => True) β β b' b'
  | [], b, b', q, h, _, hrun => by
    cases run_pure_eq_ok.mp hrun
    exact h
  | d :: ds, b, b', q, h, hf, hrun => by
    rw [List.forM, run_bind_eq_ok] at hrun
    obtain ⟨_, b₁, h₁, hrun⟩ := hrun
    obtain ⟨hone, hframes⟩ := bindGlobal_twin h hf h₁
    exact bindGlobals_twin ds hone (hframes ▸ hf) hrun

/-- Where the function `d` of a module is bound: `β` is the state before, `b` the one after, and `F`
the state at the end. -/
structure BoundAt (m : Module) (d : FnDecl) (β b F : State) : Prop where
  outside : β.Outside
  run : (bindFn d).run β = .ok ((), b)
  after : b.Outside
  beyond : b.Beyond F
  final : F.OfModule (fun _ => True) "" m
  /-- What is known of the items is what they show. -/
  known : ∃ q b₀, (declareItems [] m.items).run .empty = .ok (q, b₀) ∧ β.fnTypes = b₀.fnTypes ∧
    β.globalTypes = b₀.globalTypes

/-- What two modules show of some names is known in both where functions are bound. -/
theorem BoundAt.alikeFor {m m' : Module} {d d' : FnDecl} {F' : State} {names : String → Prop}
    (h : BoundAt m d β b F) (h' : BoundAt m' d' γ c F')
    (hsame : ∀ x, names x → m.signature? x = m'.signature? x) : AlikeFor names β γ := by
  obtain ⟨q, b₀, hb, hfns, hglobals⟩ := h.known
  obtain ⟨q', c₀, hc, hfns', hglobals'⟩ := h'.known
  intro x hx
  rw [hfns, hfns', hglobals, hglobals']
  exact alikeFor_of_signature hb hc hsame x hx

/-- A list that goes on is run through part by part. -/
theorem run_forM_append {α : Type} {f : α → Bind Unit} : ∀ (xs : List α) {ys : List α}
    {b b' : State} {q : Unit}, ((xs ++ ys).forM f).run b = .ok (q, b') →
    ∃ b₁, (xs.forM f).run b = .ok ((), b₁) ∧ (ys.forM f).run b₁ = .ok (q, b')
  | [], _, b, _, _, hrun => ⟨b, rfl, hrun⟩
  | x :: xs, _, b, _, _, hrun => by
    obtain ⟨r, b₁, h₁, hrun⟩ := run_bind_eq_ok.mp hrun
    obtain ⟨b₂, h₂, hrun⟩ := run_forM_append xs hrun
    exact ⟨b₂, run_bind_eq_ok.mpr ⟨r, b₁, h₁, h₂⟩, hrun⟩

/-- Every function of a module is bound somewhere. -/
theorem exists_boundAt {m : Module} {d : FnDecl} (hd : .function d ∈ m.items)
    (hF : bindState m = .ok F) : ∃ β b, BoundAt m d β b F := by
  have hfinal := bindState_spec (u := "") m.named_true hF
  have hmem : d ∈ functions m.items := mem_functions.mpr hd
  -- The run is cut before the function and behind it.
  obtain ⟨ds, more, hsplit⟩ := List.append_of_mem hmem
  obtain ⟨b₀, b₁, h₀, h₁, hitems⟩ := bindState_run hF
  obtain ⟨⟨ft, gt, hb₀⟩, -⟩ := declareItems_spec m.items h₀
  have hstart : b₀.Outside := hb₀ ▸ State.between_empty ft gt
  have hgl : b₁.globals = #[] := by
    obtain ⟨-, -, hgl, -⟩ := bindFns_spec (functions m.items)
      (fun d _ => ⟨fun _ _ => trivial, d.body.named_true⟩) hstart h₁
    rw [hgl, hb₀]
    rfl
  rw [hsplit] at h₁
  obtain ⟨β, hβ, h₁⟩ := run_forM_append ds h₁
  obtain ⟨⟨⟩, b, hb, h₁⟩ := run_bind_eq_ok.mp h₁
  obtain ⟨houtside, hbefore, hglobals⟩ := bindFns_beyond ds hstart hβ
  obtain ⟨hafter, -⟩ := bindFn_beyond houtside hb
  obtain ⟨hlast, hrest, -⟩ := bindFns_beyond more hafter h₁
  refine ⟨β, b, houtside, hb, hafter, ?_, hfinal, _, b₀, h₀, hbefore.grows.fnTypes, hglobals⟩
  -- The globals come last, as one more function that adds to what is there.
  rcases hitems with ⟨-, rfl⟩ | ⟨-, b₃, h₃, rfl⟩
  · exact hrest
  · have htwin := bindGlobals_twin (globals m.items)
      (Twin.started hlast hlast (.refl _ b₁) moduleFn [] m.span m.span true)
      (List.cons_ne_nil _ _) h₃
    refine hrest.trans (htwin.beyond ?_)
    obtain ⟨-, hg₃, -⟩ := bindGlobals_spec (globals m.items)
      (fun d _ => d.value.named_true) (hlast.inGlobals hgl m.span) h₃
    exact (State.grows_started hlast.closed moduleFn [] m.span true).trans
      (hg₃.trans (State.grows_ended b₃ [] .unit (.mk none [] none)))

end ClosureEnv.Binding
