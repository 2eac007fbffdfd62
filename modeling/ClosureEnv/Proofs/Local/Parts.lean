import ClosureEnv.Proofs.Local.InStep

/-!
# The parts of a function in two runs

When a part of a function is bound in both of two states that are twins, the states afterwards are
twins, and what the part shows and where its value may come from is the same. The induction is on
the source, with a case for each construct.
-/

namespace ClosureEnv.Binding

open Syntax

variable {names : String → Prop} {β γ b c b' c' : State} {known : List String}

/-- The names are known in a state. -/
def Knows (b : State) (known : List String) : Prop :=
  ∀ n ∈ known, (b.lookup? n).isSome

/-- No name has to be known. -/
theorem Knows.nil (b : State) : Knows b [] :=
  fun _ hn => absurd hn List.not_mem_nil

/-- What both runs come to when they bind a part that may declare something. -/
structure Moved (names : String → Prop) (β γ b : State) (known : List String) (b' c' : State) :
    Prop where
  twin : Twin names β γ b' c'
  open_iff : b'.frames = [] ↔ b.frames = []
  outer : b'.frames.tail = b.frames.tail
  grows : b.closures.size ≤ b'.closures.size
  knows : Knows b' known

/-- What both runs come to when they bind a part with a value. Of what it shows, `f` and `g` tell
the type. -/
structure Valued₂ (names : String → Prop) (β γ b : State) (f g : State → (ClosureId → Ty) → Ty)
    (ss ts : List Source) (b' c' : State) : Prop where
  twin : Twin names β γ b' c'
  same : b'.frames = b.frames
  grows : b.closures.size ≤ b'.closures.size
  typed : SameTy names β γ b.closures.size f g
  sources : List.Forall₂ (SourceTwin β γ) ss ts

/-- What both runs come to when they bind an expression. -/
abbrev ExprTwin (names : String → Prop) (β γ b : State) (x y : Bound.Expr) : List Source →
    List Source → State → State → Prop :=
  Valued₂ names β γ b (fun b types => b.inferWith types x) fun b types => b.inferWith types y

/-- What both runs come to when they bind an expression that may be there. -/
abbrev OptionTwin (names : String → Prop) (β γ b : State) (x y : Option Bound.Expr) : List Source →
    List Source → State → State → Prop :=
  Valued₂ names β γ b (fun b types => b.inferTail types x) fun b types => b.inferTail types y

/-- What both runs come to when they bind a block. -/
abbrev BlockTwin (names : String → Prop) (β γ b : State) (x y : Bound.Block) : List Source →
    List Source → State → State → Prop :=
  Valued₂ names β γ b (fun b types => b.inferBlock types x) fun b types => b.inferBlock types y

namespace Valued₂

variable {f g : State → (ClosureId → Ty) → Ty} {ss ts : List Source}
  (h : Valued₂ names β γ b f g ss ts b' c')

include h

/-- Names that were known are. -/
theorem knows (hk : Knows b known) : Knows b' known := by
  intro n hn
  have := hk n hn
  unfold State.lookup? at this ⊢
  rwa [h.same]

/-- A scope is still open. -/
theorem frames_ne (hf : b.frames ≠ []) : b'.frames ≠ [] :=
  h.same ▸ hf

/-- Something leaves. -/
theorem drained {x y : Sink} (hxy : SinkTwin β γ x y) :
    Valued₂ names β γ b f g ss ts (b'.drainedBy x) (c'.drainedBy y) :=
  { h with twin := h.twin.drainedBy hxy }

/-- A part with another type whose value does not matter. -/
theorem typed_as {f' g' : State → (ClosureId → Ty) → Ty}
    (ht : SameTy names β γ b.closures.size f' g') : Valued₂ names β γ b f' g' [] [] b' c' :=
  { h with typed := ht, sources := .nil }

/-- A part after a part. -/
theorem next {b₂ c₂ : State} {f' g' : State → (ClosureId → Ty) → Ty} {us vs : List Source}
    (h' : Valued₂ names β γ b' f' g' us vs b₂ c₂) : Valued₂ names β γ b f' g' us vs b₂ c₂ :=
  ⟨h'.twin, h'.same.trans h.same, Nat.le_trans h.grows h'.grows, h'.typed.mono h.grows, h'.sources⟩

/-- A part that declares nothing. -/
theorem moved (hk : Knows b known) : Moved names β γ b known b' c' :=
  ⟨h.twin, by rw [h.same], by rw [h.same], h.grows, h.knows hk⟩

end Valued₂

namespace Moved

variable (h : Moved names β γ b known b' c')

include h

/-- A scope is still open. -/
theorem frames_ne (hf : b.frames ≠ []) : b'.frames ≠ [] :=
  fun hb => hf (h.open_iff.mp hb)

/-- More after that. -/
theorem trans {known' : List String} {b₂ c₂ : State} (h' : Moved names β γ b' known' b₂ c₂) :
    Moved names β γ b known' b₂ c₂ :=
  ⟨h'.twin, h'.open_iff.trans h.open_iff, h'.outer.trans h.outer, Nat.le_trans h.grows h'.grows,
    h'.knows⟩

end Moved

/-! ## Names -/

/-- The type of a binding is the same. -/
theorem bindingTy_twin {stated stated' : Option TypeExpr} {generics : List String}
    {x y : Bound.Expr} {ty ty' : Ty} {first : Nat} (h : Twin names β γ b c)
    (hs : stated.map TypeExpr.spanless = stated'.map TypeExpr.spanless)
    (hxy : TypedAlike names β γ first x y) (hb : (bindingTy stated generics x).run b = .ok (ty, b'))
    (hc : (bindingTy stated' generics y).run c = .ok (ty', c')) : ty = ty' ∧ b' = b ∧ c' = c := by
  refine ⟨?_, bindingTy_run hb, bindingTy_run hc⟩
  cases stated with
  | none =>
    cases stated' with
    | none =>
      cases hb
      cases hc
      exact h.infer_eq hxy
    | some t' => cases hs
  | some t =>
    cases stated' with
    | none => cases hs
    | some t' =>
      cases hb
      cases hc
      have ht : t.spanless = t'.spanless := Option.some.inj hs
      rw [← ofTypeExpr_spanless generics t, ht, ofTypeExpr_spanless]

/-- After a declaration the name is known too. -/
theorem knows_declared (hf : b.frames ≠ []) (hk : Knows b known) (name : String) (ty : Ty)
    (isMut isParam : Bool) (span : Span) :
    Knows (b.declared name ty isMut isParam span) (name :: known) := by
  obtain ⟨f, fs, hb⟩ := List.exists_cons_of_ne_nil hf
  have hlookup (n : String) : (b.declared name ty isMut isParam span).lookup? n =
      if n == name then some b.vars.size else b.lookup? n := by
    simp only [State.lookup?, State.declared, hb, List.findSome?_cons, List.lookup_cons]
    cases n == name <;> rfl
  intro n hn
  rw [hlookup]
  split
  · rfl
  · next hne =>
    refine hk n ((List.mem_cons.mp hn).resolve_left fun heq => hne ?_)
    rw [heq, beq_self_eq_true]

/-- A declaration. -/
theorem Twin.moved_declared (h : Twin names β γ b c) (hf : b.frames ≠ []) (hk : Knows b known)
    (name : String) (ty : Ty) (isMut isParam : Bool) (span span' : Span) :
    Moved names β γ b (name :: known) (b.declared name ty isMut isParam span)
      (c.declared name ty isMut isParam span') := by
  refine ⟨h.declared hf name ty isMut isParam span span', ?_, ?_, Nat.le_refl _,
    knows_declared hf hk name ty isMut isParam span⟩ <;>
  · obtain ⟨f, fs, hb⟩ := List.exists_cons_of_ne_nil hf
    simp [State.declared, hb]

/-- The same parameters are declared. -/
theorem declareParams_twin : ∀ (params params' : List Param) {known : List String}
    {generics : List String} {b c b' c' : State} {vs ws : List VarId},
    params.map Param.spanless = params'.map Param.spanless → Twin names β γ b c → b.frames ≠ [] →
    Knows b known →
    (params.mapM (fun p => declare p.name.text (paramTy generics p) true true p.span) :
      Bind _).run b = .ok (vs, b') →
    (params'.mapM (fun p => declare p.name.text (paramTy generics p) true true p.span) :
      Bind _).run c = .ok (ws, c') →
    Moved names β γ b (knownParams known params) b' c' ∧ List.Forall₂ (VarTwin β γ) vs ws
  | [], [], known, _, b, c, b', c', vs, ws, _, h, _, hk, hb, hc => by
    rw [List.mapM_nil, run_pure_eq_ok] at hb hc
    cases hb
    cases hc
    exact ⟨⟨h, .rfl, rfl, Nat.le_refl _, hk⟩, .nil⟩
  | [], _ :: _, _, _, _, _, _, _, _, _, hs, _, _, _, _, _
  | _ :: _, [], _, _, _, _, _, _, _, _, hs, _, _, _, _, _ => by cases hs
  | p :: ps, p' :: ps', known, generics, b, c, b', c', vs, ws, hs, h, hf, hk, hb, hc => by
    rw [List.map_cons, List.map_cons, List.cons.injEq] at hs
    obtain ⟨vs', hb₂, rfl⟩ := declareParams_cons_run hb
    obtain ⟨ws', hc₂, rfl⟩ := declareParams_cons_run hc
    have hname : p.spanless.name.text = p'.spanless.name.text := by rw [hs.1]
    change p.name.text = p'.name.text at hname
    have hty : paramTy generics p = paramTy generics p' := by
      have hp : p.spanless.ty = p'.spanless.ty := by rw [hs.1]
      change statedTy generics p.ty = statedTy generics p'.ty
      have hty : p.ty.map TypeExpr.spanless = p'.ty.map TypeExpr.spanless := hp
      rw [← statedTy_spanless, hty, statedTy_spanless]
    rw [← hname, ← hty] at hc₂
    have hone := h.moved_declared hf hk p.name.text (paramTy generics p) true true p.span p'.span
    obtain ⟨hrest, hvw⟩ := declareParams_twin ps ps' hs.2 hone.twin (hone.frames_ne hf) hone.knows
      hb₂ hc₂
    exact ⟨hone.trans hrest, .cons h.var_next hvw⟩

/-- A name that is not known is from outside. -/
theorem names_of_lookup?_eq_none {name : Ident} (hk : Knows b known)
    (hn : ∀ n ∈ outerName known name, names n) (hb : b.lookup? name.text = none) :
    names name.text := by
  refine hn _ ?_
  rw [outerName, if_neg, List.mem_singleton]
  intro hmem
  have := hk _ hmem
  rw [hb] at this
  cases this

/-- Noting a use opens and closes nothing. -/
theorem used_same (b : State) (v : VarId) :
    (b.used v).frames = b.frames ∧ (b.used v).closures.size = b.closures.size := by
  unfold State.used
  split
  · exact ⟨rfl, rfl⟩
  · split
    · exact ⟨rfl, Array.size_modify⟩
    · exact ⟨rfl, rfl⟩

/-- Nothing happens. -/
theorem Twin.valued (h : Twin names β γ b c) {f g : State → (ClosureId → Ty) → Ty}
    (ht : SameTy names β γ b.closures.size f g) : Valued₂ names β γ b f g [] [] b c :=
  ⟨h, rfl, Nat.le_refl _, ht, .nil⟩

/-- A name from outside is that of a global in both runs or in neither. -/
theorem Twin.isSome_global (h : Twin names β γ b c) {name : String} (hname : names name) :
    (b.globalTypes.lookup name).isSome = (c.globalTypes.lookup name).isSome := by
  rw [← Option.isSome_map (f := Prod.snd), (h.known _ hname).2, Option.isSome_map]

/-- A name is resolved to the same thing. -/
theorem resolve_twin {name name' : Ident} {x y : Bound.Expr} {ss ts : List Source}
    (hs : name.text = name'.text) (hn : ∀ n ∈ outerName known name, names n) (hk : Knows b known)
    (h : Twin names β γ b c) (hb : (resolve name).run b = .ok ((x, ss), b'))
    (hc : (resolve name').run c = .ok ((y, ts), c')) : ExprTwin names β γ b x y ss ts b' c' := by
  have hrel := h.lookup?_rel name.text
  have hc := hs ▸ resolve_run hc
  cases resolve_run hb with
  | @var v hv =>
    cases hc with
    | @var w hw =>
      rw [hv, hw] at hrel
      cases hrel with
      | some hvw =>
      obtain ⟨p, q, hp, hq, hpq⟩ := h.exists_var hv hvw
      exact ⟨h.used hvw hp hq hpq, (used_same b v).1, Nat.le_of_eq (used_same b v).2.symm,
        fun b c _ _ hvars _ _ => hvars v w hvw, .cons hvw .nil⟩
    | global hnone => rw [hv, hnone] at hrel; cases hrel
    | fn hnone => rw [hv, hnone] at hrel; cases hrel
  | global hnone hglobal =>
    have hname := names_of_lookup?_eq_none hk hn hnone
    cases hc with
    | var hw => rw [hnone, hw] at hrel; cases hrel
    | global =>
      refine h.valued fun b c _ _ _ hknown _ => ?_
      simp only [State.inferWith, State.globalTy]
      rw [(hknown _ hname).2]
    | fn _ hno => exact absurd ((h.isSome_global hname).symm.trans hglobal) hno
  | fn hnone hno =>
    have hname := names_of_lookup?_eq_none hk hn hnone
    cases hc with
    | var hw => rw [hnone, hw] at hrel; cases hrel
    | global _ hglobal => exact absurd ((h.isSome_global hname).trans hglobal) hno
    | fn =>
      refine h.valued fun b c _ _ _ hknown _ => ?_
      simp only [State.inferWith, State.fnTy]
      rw [(hknown _ hname).1]

/-- The same assignment is bound. -/
theorem assign_twin {target target' : Ident} {span span' : Span} {x y : Bound.Expr}
    {ss ts : List Source} {out out' : Bound.Stmt} (hs : target.text = target'.text)
    (hk : Knows b known) (h : Twin names β γ b c)
    (hst : List.Forall₂ (SourceTwin β γ) ss ts)
    (hb : (assign target span x ss).run b = .ok (out, b'))
    (hc : (assign target' span' y ts).run c = .ok (out', c')) : Moved names β γ b known b' c' := by
  have hrel := h.lookup?_rel target.text
  have hc := hs ▸ assign_run hc
  cases assign_run hb with
  | @var v hv =>
    cases hc with
    | global hnone => rw [hv, hnone] at hrel; cases hrel
    | @var w hw =>
    rw [hv, hw] at hrel
    cases hrel with
    | some hvw =>
    obtain ⟨p, q, hp, hq, hpq⟩ := h.exists_var hv hvw
    -- The use, the store and the drain are each of counterparts.
    have htwin := ((h.used hvw hp hq hpq).stored_into hvw hst).drainedBy
      (x := .below (b.vars[v]?.getD default).scope ss)
      (y := .below (c.vars[w]?.getD default).scope ts) (by
        rw [hp, hq]
        exact ⟨hpq.scope, hst⟩)
    obtain ⟨hframes, hsize⟩ := used_same b v
    refine ⟨htwin, iff_of_eq (congrArg (· = []) hframes), congrArg List.tail hframes,
      Nat.le_of_eq hsize.symm, fun n hn => ?_⟩
    have := hk n hn
    unfold State.lookup? at this ⊢
    exact (congrArg (fun fs => (List.findSome? (fun f : Frame => f.names.lookup n) fs).isSome)
      hframes).trans this
  | global hnone =>
    cases hc with
    | var hw => rw [hnone, hw] at hrel; cases hrel
    | global =>
      exact ⟨h.drainedBy (x := .escape ss) (y := .escape ts) hst, .rfl, rfl, Nat.le_refl _, hk⟩

end ClosureEnv.Binding
