import ClosureEnv.Proofs.Local.Numbers
import ClosureEnv.Proofs.Local.Outer

/-!
# Two runs of binding

The same function is bound in two modules. What came before in each does not matter but for how much
it was, so that the parts of the function have numbers that are as far from where it begins
(`Apart`). `Twin` says that the states of the two runs are the same but for that. The primitive
steps keep it.
-/

namespace ClosureEnv.Binding

/-! ## Numbers -/

/-- Numbers that come as far after others. -/
def Apart (m n i j : Nat) : Prop :=
  ∃ k, i = m + k ∧ j = n + k

namespace Apart

variable {m n i j : Nat}

/-- Where they begin. -/
theorem start (m n : Nat) : Apart m n m n :=
  ⟨0, rfl, rfl⟩

/-- One further. -/
theorem succ (h : Apart m n i j) : Apart m n (i + 1) (j + 1) := by
  obtain ⟨k, rfl, rfl⟩ := h
  exact ⟨k + 1, rfl, rfl⟩

/-- They come after those. -/
theorem le (h : Apart m n i j) : m ≤ i ∧ n ≤ j := by
  obtain ⟨k, rfl, rfl⟩ := h
  exact ⟨Nat.le_add_right m k, Nat.le_add_right n k⟩

/-- Their order is kept. -/
theorem inOrder (m n : Nat) : InOrder (Apart m n) := by
  rintro i j i' j' ⟨k, rfl, rfl⟩ ⟨k', rfl, rfl⟩
  rw [Nat.add_lt_add_iff_left, Nat.add_lt_add_iff_left]

end Apart

/-! ## Arrays -/

/-- What is at positions that stand for each other is alike. -/
def AlikeAt {α β : Type} (r : Nat → Nat → Prop) (like : Nat → α → β → Prop) (xs : Array α)
    (ys : Array β) : Prop :=
  ∀ i j, r i j → Option.Rel (like i) xs[i]? ys[j]?

namespace AlikeAt

variable {α β : Type} {r : Nat → Nat → Prop} {like : Nat → α → β → Prop} {xs : Array α}
  {ys : Array β} (h : AlikeAt r like xs ys) (hr : InOrder r)

include h hr

/-- One more on both sides. -/
theorem push (hn : r xs.size ys.size) {x : α} {y : β} (hxy : like xs.size x y) :
    AlikeAt r like (xs.push x) (ys.push y) := by
  intro i j hij
  have heq := hr.eq_iff hij hn
  rw [Array.getElem?_push, Array.getElem?_push]
  by_cases hi : i = xs.size
  · subst hi
    rw [if_pos rfl, if_pos (heq.mp rfl)]
    exact .some hxy
  · rw [if_neg hi, if_neg fun hj => hi (heq.mpr hj)]
    exact h i j hij

/-- The same change on both sides. -/
theorem modify {a b : Nat} (hab : r a b) {f : α → α} {g : β → β}
    (hfg : ∀ x y, like a x y → like a (f x) (g y)) :
    AlikeAt r like (xs.modify a f) (ys.modify b g) := by
  intro i j hij
  have heq := hr.eq_iff hab hij
  rw [Array.getElem?_modify, Array.getElem?_modify]
  have hold := h i j hij
  by_cases ha : a = i
  · subst ha
    rw [if_pos rfl, if_pos (heq.mp rfl)]
    generalize xs[a]? = o at hold
    generalize ys[j]? = o' at hold
    cases hold with
    | none => exact .none
    | some hxy => exact .some (hfg _ _ hxy)
  · rw [if_neg ha, if_neg fun hb => ha (heq.mpr hb)]
    exact hold

omit hr in
/-- What is there has a counterpart. -/
theorem exists_of_some {i j : Nat} (hij : r i j) {x : α} (hx : xs[i]? = some x) :
    ∃ y, ys[j]? = some y ∧ like i x y :=
  exists_of_rel (h i j hij) hx

end AlikeAt

/-! ## Twin states -/

section

variable (names : String → Prop) (β γ : State)

/-- Scopes as far from the first one of the function. -/
abbrev ScopeTwin : ScopeId → ScopeId → Prop :=
  Apart β.scopes.size γ.scopes.size

/-- Variables as far from the first one. -/
abbrev VarTwin : VarId → VarId → Prop :=
  Apart β.vars.size γ.vars.size

/-- Closures as far from the first one. -/
abbrev ClosureTwin : ClosureId → ClosureId → Prop :=
  Apart β.closures.size γ.closures.size

/-- The same scope. -/
structure ScopeAlike (x y : Scope) : Prop where
  key : x.key = y.key
  kind : x.kind = y.kind
  depth : x.depth = y.depth
  parent : Option.Rel (ScopeTwin β γ) x.parent y.parent

/-- The same variable. -/
structure VarAlike (x y : Variable) : Prop where
  name : x.name = y.name
  ty : x.ty = y.ty
  isMut : x.isMut = y.isMut
  scope : ScopeTwin β γ x.scope y.scope

/-- Types that are found the same, where the types of the variables, of the items of the names, and
of closures from `first` on are the same. -/
def SameTy (first : Nat) (f g : State → (ClosureId → Ty) → Ty) : Prop :=
  ∀ (b c : State) (types types' : ClosureId → Ty),
    (∀ v w, VarTwin β γ v w → b.varTy v = c.varTy w) → AlikeFor names b c →
    (∀ k l : Nat, first ≤ k → ClosureTwin β γ k l → types k = types' l) →
    f b types = g c types'

/-- Expressions that show the same type. -/
abbrev TypedAlike (first : Nat) (x y : Bound.Expr) : Prop :=
  SameTy names β γ first (fun b types => b.inferWith types x) fun b types => b.inferWith types y

/-- The same closure, at position `c`. Its body has later closures only. -/
structure ClosureAlike (c : Nat) (k l : Closure) : Prop where
  scope : ScopeTwin β γ k.scope l.scope
  freeVars : List.Forall₂ (VarTwin β γ) k.freeVars l.freeVars
  params : List.Forall₂ (VarTwin β γ) k.params l.params
  body : TypedAlike names β γ (c + 1) k.body l.body
  owner : k.owner = β.fns.size ∧ l.owner = γ.fns.size

/-- The same source. -/
def SourceTwin : Source → Source → Prop
  | .closure c, .closure d => ClosureTwin β γ c d
  | .var v, .var w => VarTwin β γ v w
  | _, _ => False

/-- The same sink. -/
def SinkTwin : Sink → Sink → Prop
  | .escape xs, .escape ys => List.Forall₂ (SourceTwin β γ) xs ys
  | .within s xs, .within s' ys | .below s xs, .below s' ys =>
    ScopeTwin β γ s s' ∧ List.Forall₂ (SourceTwin β γ) xs ys
  | _, _ => False

/-- The same open scope, with the same names. -/
structure FrameTwin (f g : Frame) : Prop where
  scope : ScopeTwin β γ f.scope g.scope
  names : List.Forall₂ (fun x y => x.1 = y.1 ∧ VarTwin β γ x.2 y.2) f.names g.names

/-- States that two runs from `β` and from `γ` are in at the same place of a function. -/
structure Twin (b c : State) : Prop where
  scope_next : ScopeTwin β γ b.scopes.size c.scopes.size
  var_next : VarTwin β γ b.vars.size c.vars.size
  closure_next : ClosureTwin β γ b.closures.size c.closures.size
  scopes : AlikeAt (ScopeTwin β γ) (fun _ => ScopeAlike β γ) b.scopes c.scopes
  counts : AlikeAt (ScopeTwin β γ) (fun _ => (· = ·)) b.childCounts c.childCounts
  vars : AlikeAt (VarTwin β γ) (fun _ => VarAlike β γ) b.vars c.vars
  closures : AlikeAt (ClosureTwin β γ) (ClosureAlike names β γ) b.closures c.closures
  stored : AlikeAt (VarTwin β γ) (fun _ => List.Forall₂ (SourceTwin β γ)) b.varSources c.varSources
  frames : List.Forall₂ (FrameTwin β γ) b.frames c.frames
  stack : List.Forall₂ (ClosureTwin β γ) b.closureStack c.closureStack
  /-- The sinks of the function come before those of others. -/
  sinks : ∃ xs ys, b.sinks = xs ++ β.sinks ∧ c.sinks = ys ++ γ.sinks ∧
    List.Forall₂ (SinkTwin β γ) xs ys
  name : b.current.name = c.current.name
  generics : b.current.generics = c.current.generics
  owner : b.current.id = β.fns.size ∧ c.current.id = γ.fns.size
  known : AlikeFor names b c
  counts_size : b.childCounts.size = b.scopes.size ∧ c.childCounts.size = c.scopes.size
  stored_size : b.varSources.size = b.vars.size ∧ c.varSources.size = c.vars.size
  preorder : Preorder b.scopes ∧ Preorder c.scopes
  /-- Open scopes exist, and so do the variables that they name. -/
  opened : ∀ f ∈ b.frames, f.scope < b.scopes.size ∧ ∀ n v, (n, v) ∈ f.names → v < b.vars.size
  /-- The closures around exist. -/
  stacked : ∀ k ∈ b.closureStack, k < b.closures.size
  /-- Nothing is stored into variables of other functions. -/
  kept : ∀ v : Nat, v < β.vars.size → b.varSources[v]? = β.varSources[v]?

end

variable {names : String → Prop} {β γ b c : State}

/-- Types are still found the same where more is the same. -/
theorem SameTy.mono {first first' : Nat} {f g : State → (ClosureId → Ty) → Ty}
    (h : SameTy names β γ first f g) (hle : first' ≤ first) : SameTy names β γ first' f g :=
  fun b c types types' hvars hknown htypes => h b c types types' hvars hknown fun k l hk =>
    htypes k l (Nat.le_trans hle hk)

namespace Twin

variable (h : Twin names β γ b c)

include h

/-- Parents stand for each other. -/
theorem sameParents : SameParents (ScopeTwin β γ) b.scopes c.scopes where
  order := Apart.inOrder _ _
  parent i j hij := by
    have hscope := h.scopes i j hij
    unfold parentIn?
    generalize b.scopes[i]? = o at hscope
    generalize c.scopes[j]? = o' at hscope
    cases hscope with
    | none => exact .none
    | some hxy => exact hxy.parent

/-- Variables have the same type. -/
theorem varTy_eq {v w : VarId} (hvw : VarTwin β γ v w) : b.varTy v = c.varTy w := by
  have hvar := h.vars v w hvw
  unfold State.varTy
  generalize b.vars[v]? = o at hvar
  generalize c.vars[w]? = o' at hvar
  cases hvar with
  | none => rfl
  | some hxy => exact hxy.ty

/-- Closures have the same type: what one holds comes after it, so that the bounds on how deep they
nest do not matter. -/
theorem closureTy_eq (n : Nat) : ∀ (n' : Nat) {k l : Nat}, ClosureTwin β γ k l →
    b.closures.size ≤ n + k → c.closures.size ≤ n' + l →
    b.closureTy n k = c.closureTy n' l := by
  induction n with
  | zero =>
    intro n' k l hkl hb hc
    have hclosure := h.closures k l hkl
    rw [Array.getElem?_eq_none (by omega)] at hclosure
    have hl : c.closures[l]? = none := by
      generalize c.closures[l]? = o at hclosure
      cases hclosure
      rfl
    cases n' with
    | zero => rfl
    | succ n' => rw [State.closureTy, State.closureTy, hl]
  | succ n ih =>
    intro n' k l hkl hb hc
    have hclosure := h.closures k l hkl
    cases n' with
    | zero =>
      rw [show c.closures[l]? = none from Array.getElem?_eq_none (by omega)] at hclosure
      rw [State.closureTy, State.closureTy]
      generalize b.closures[k]? = o at hclosure
      cases hclosure
      rfl
    | succ n' =>
      rw [State.closureTy, State.closureTy]
      generalize b.closures[k]? = o at hclosure
      generalize c.closures[l]? = o' at hclosure
      cases hclosure with
      | none => rfl
      | @some x y hxy =>
        have hparams : x.params.map b.varTy = y.params.map c.varTy := by
          rw [← List.forall₂_eq_eq_eq, List.forall₂_map_left_iff, List.forall₂_map_right_iff]
          exact hxy.params.imp fun _ _ hvw => h.varTy_eq hvw
        have hbody : b.inferWith (b.closureTy n) x.body = c.inferWith (c.closureTy n') y.body := by
          refine hxy.body b c _ _ (fun _ _ => h.varTy_eq) h.known fun k' l' hk' hkl' => ?_
          -- A literal in the body is a later closure, in both runs.
          have hlt := (Apart.inOrder _ _ k l k' l' hkl hkl').mp (by omega)
          exact ih n' hkl' (by omega) (by omega)
        dsimp only
        rw [hparams, hbody]

/-- Expressions of the function show the same type. -/
theorem infer_eq {first : Nat} {x y : Bound.Expr} (hxy : TypedAlike names β γ first x y) :
    b.infer x = c.infer y :=
  hxy b c _ _ (fun _ _ => h.varTy_eq) h.known fun _ _ _ hkl =>
    h.closureTy_eq _ _ hkl (Nat.le_add_right _ _) (Nat.le_add_right _ _)

end Twin

end ClosureEnv.Binding
