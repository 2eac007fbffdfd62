import ClosureEnv.Proofs.Binding.Module
import ClosureEnv.Proofs.Syntax.Normal

/-!
# What a function sees of other items

Of the names in a function, some are those of its own parameters and variables. For the others it
sees what the items of the module state of themselves: the types in the head of a function, and the
type of a global (`Signature`). Binding knows no more of them when it comes to
a function (`declareItems_lookup`).
-/

namespace ClosureEnv

namespace Syntax

/-! ## Names from outside -/

/-- The name that a statement makes known to what follows it. -/
def Stmt.declares : Stmt → List String
  | .bind _ name _ _ _ => [name.text]
  | _ => []

/-- The names that are known after some statements. -/
def knownAfter (known : List String) (ss : List Stmt) : List String :=
  ss.foldl (fun known s => s.declares ++ known) known

/-- The names that are known after some parameters. -/
def knownParams (known : List String) (params : List Param) : List String :=
  params.foldl (fun known p => p.name.text :: known) known

/-- A name, unless it is known. -/
def outerName (known : List String) (name : Ident) : List String :=
  if name.text ∈ known then [] else [name.text]

mutual

/-- The names in an expression that are neither known around it nor its own. -/
def Expr.outer (known : List String) : Expr → List String
  | .lit _ _ => []
  | .var name => outerName known name
  | .unary _ operand _ => operand.outer known
  | .call callee args _ => callee.outer known ++ exprsOuter known args
  | .binary _ lhs rhs _ => lhs.outer known ++ rhs.outer known
  | .paren inner _ => inner.outer known
  | .block body => body.outer known
  | .cond test yes no _ => test.outer known ++ (yes.outer known ++ optionOuter known no)
  | .loop test body _ => test.outer known ++ body.outer known
  | .closure params body _ => body.outer (knownParams known params)

/-- The names in an expression that may be there. -/
def optionOuter (known : List String) : Option Expr → List String
  | none => []
  | some e => e.outer known

/-- The names in some expressions. -/
def exprsOuter (known : List String) : List Expr → List String
  | [] => []
  | e :: es => e.outer known ++ exprsOuter known es

/-- The names in a block. -/
def Block.outer (known : List String) : Block → List String
  | .mk ss tail _ => stmtsOuter known ss ++ optionOuter (knownAfter known ss) tail

/-- The names in a statement. -/
def Stmt.outer (known : List String) : Stmt → List String
  | .bind _ _ _ value _ => value.outer known
  | .assign target value _ => outerName known target ++ value.outer known
  | .expr value _ => value.outer known
  | .ret value _ => optionOuter known value

/-- The names in statements: each knows what those before it declare. -/
def stmtsOuter (known : List String) : List Stmt → List String
  | [] => []
  | s :: ss => s.outer known ++ stmtsOuter (s.declares ++ known) ss

end

/-- The names that a function refers to outside of its parameters and its variables. -/
def FnDecl.outer (d : FnDecl) : List String :=
  d.body.outer (knownParams [] d.params)

/-- What parameters make known does not depend on where they are. -/
theorem knownParams_spanless (known : List String) (params : List Param) :
    knownParams known (params.map Param.spanless) = knownParams known params := by
  rw [knownParams, knownParams, List.foldl_map]
  rfl

/-- What a statement makes known does not depend on where it is. -/
theorem declares_spanless (s : Stmt) : s.spanless.declares = s.declares := by
  cases s <;> rfl

/-- What statements make known does not depend on where they are. -/
theorem knownAfter_spanless : ∀ (ss : List Stmt) (known : List String),
    knownAfter known (stmtsSpanless ss) = knownAfter known ss
  | [], _ => rfl
  | s :: ss, known => by
    have hcons (s : Stmt) (ss : List Stmt) :
        knownAfter known (s :: ss) = knownAfter (s.declares ++ known) ss := rfl
    rw [stmtsSpanless, hcons, hcons, declares_spanless, knownAfter_spanless ss]

mutual

/-- The names in an expression do not depend on where it is. -/
theorem outer_spanless : ∀ (e : Expr) (known : List String),
    e.spanless.outer known = e.outer known
  | .lit _ _, _ => rfl
  | .var _, _ => rfl
  | .unary _ operand _, known => outer_spanless operand known
  | .call callee args _, known => by
    rw [Expr.spanless, Expr.outer, Expr.outer, outer_spanless callee, exprsOuter_spanless args]
  | .binary _ lhs rhs _, known => by
    rw [Expr.spanless, Expr.outer, Expr.outer, outer_spanless lhs, outer_spanless rhs]
  | .paren inner _, known => outer_spanless inner known
  | .block body, known => blockOuter_spanless body known
  | .cond test yes no _, known => by
    rw [Expr.spanless, Expr.outer, Expr.outer, outer_spanless test, blockOuter_spanless yes,
      optionOuter_spanless no]
  | .loop test body _, known => by
    rw [Expr.spanless, Expr.outer, Expr.outer, outer_spanless test, blockOuter_spanless body]
  | .closure params body _, known => by
    rw [Expr.spanless, Expr.outer, Expr.outer, knownParams_spanless, outer_spanless body]

/-- So it is for an expression that may be there, -/
theorem optionOuter_spanless : ∀ (e : Option Expr) (known : List String),
    optionOuter known (optionSpanless e) = optionOuter known e
  | none, _ => rfl
  | some e, known => outer_spanless e known

/-- for some expressions, -/
theorem exprsOuter_spanless : ∀ (es : List Expr) (known : List String),
    exprsOuter known (exprsSpanless es) = exprsOuter known es
  | [], _ => rfl
  | e :: es, known => by
    rw [exprsSpanless, exprsOuter, exprsOuter, outer_spanless e, exprsOuter_spanless es]

/-- for a block, -/
theorem blockOuter_spanless : ∀ (b : Block) (known : List String),
    b.spanless.outer known = b.outer known
  | .mk ss tail _, known => by
    rw [Block.spanless, Block.outer, Block.outer, stmtsOuter_spanless ss, knownAfter_spanless,
      optionOuter_spanless tail]

/-- for a statement, -/
theorem stmtOuter_spanless : ∀ (s : Stmt) (known : List String),
    s.spanless.outer known = s.outer known
  | .bind _ _ _ value _, known => outer_spanless value known
  | .assign target value _, known => by
    rw [Stmt.spanless, Stmt.outer, Stmt.outer, outer_spanless value]
    rfl
  | .expr value _, known => outer_spanless value known
  | .ret value _, known => optionOuter_spanless value known

/-- and for statements. -/
theorem stmtsOuter_spanless : ∀ (ss : List Stmt) (known : List String),
    stmtsOuter known (stmtsSpanless ss) = stmtsOuter known ss
  | [], _ => rfl
  | s :: ss, known => by
    rw [stmtsSpanless, stmtsOuter, stmtsOuter, declares_spanless, stmtOuter_spanless s,
      stmtsOuter_spanless ss]

end

/-- The names in a function do not depend on where it is. -/
theorem FnDecl.outer_eq {d d' : FnDecl} (h : d.spanless = d'.spanless) : d.outer = d'.outer := by
  have hspanless (d : FnDecl) : d.spanless.outer = d.outer := by
    rw [FnDecl.outer, FnDecl.spanless, FnDecl.outer, knownParams_spanless, blockOuter_spanless]
  rw [← hspanless d, h, hspanless d']

/-! ## Signatures -/

/-- The type that a written type stands for, if there is one. -/
def statedTy (generics : List String) (t : Option TypeExpr) : Ty :=
  (t.map (Ty.ofTypeExpr generics)).getD .unknown

/-- What an item shows to the others: whether it is a function or a global, and the types that are
written in its head. -/
inductive Signature where
  /-- The type of a function, as far as it is written. -/
  | function (params : List Ty) (ret : Ty)
  /-- The type of a global, if it is written. -/
  | binding (ty : Ty)
  deriving DecidableEq

/-- What an item shows. A name stands for a type parameter if the function has one of the name. -/
def Item.signature : Item → Signature
  | .function d =>
    .function (d.params.map fun p => statedTy (d.generics.map Ident.text) p.ty)
      (statedTy (d.generics.map Ident.text) d.retTy)
  | .binding d => .binding (statedTy [] d.ty)

/-- What the first of some items of a name shows. -/
def signatureIn? (items : List Item) (name : String) : Option Signature :=
  (items.find? fun i => (Binding.itemName i).text == name).map Item.signature

/-- What the item of a name shows. -/
def Module.signature? (m : Module) (name : String) : Option Signature :=
  signatureIn? m.items name

/-- The type of a function. -/
def Signature.fnTy? : Signature → Option Ty
  | function params ret => some (.fn params ret)
  | binding _ => none

/-- The type of a global, as far as it is known before its initial value is. -/
def Signature.globalTy? : Signature → Option Ty
  | function .. => none
  | binding ty => some ty

mutual

/-- A type does not depend on where it is written. -/
theorem ofTypeExpr_spanless (generics : List String) : ∀ t : TypeExpr,
    Ty.ofTypeExpr generics t.spanless = Ty.ofTypeExpr generics t
  | .path name => by rw [TypeExpr.spanless, Ty.ofTypeExpr, Ty.ofTypeExpr, Ident.spanless]
  | .arrow params ret _ => by
    rw [TypeExpr.spanless, Ty.ofTypeExpr, Ty.ofTypeExpr, ofTypeExprs_spanless generics params,
      ofTypeExpr_spanless generics ret]

/-- Types do not depend on where they are written. -/
theorem ofTypeExprs_spanless (generics : List String) : ∀ ts : List TypeExpr,
    Ty.ofTypeExprs generics (typesSpanless ts) = Ty.ofTypeExprs generics ts
  | [] => rfl
  | t :: ts => by
    rw [typesSpanless, Ty.ofTypeExprs, Ty.ofTypeExprs, ofTypeExpr_spanless generics t,
      ofTypeExprs_spanless generics ts]

end

/-- The type that is stated does not depend on where it is written. -/
theorem statedTy_spanless (generics : List String) (t : Option TypeExpr) :
    statedTy generics (t.map TypeExpr.spanless) = statedTy generics t := by
  cases t with
  | none => rfl
  | some t => exact ofTypeExpr_spanless generics t

end Syntax

/-! ## What binding knows of items -/

namespace Binding

open Syntax

/-- Once items are known, their types are those that they show. -/
theorem declareItems_lookup : ∀ (items : List Item) {seen : List String} {b b' : State} {r : Unit},
    (∀ x, x ∉ seen → b.fnTypes.lookup x = none ∧ b.globalTypes.lookup x = none) →
    (declareItems seen items).run b = .ok (r, b') → ∀ x,
      b'.fnTypes.lookup x = (signatureIn? items x).elim (b.fnTypes.lookup x) Signature.fnTy? ∧
      (b'.globalTypes.lookup x).map Prod.snd =
        (signatureIn? items x).elim ((b.globalTypes.lookup x).map Prod.snd) Signature.globalTy?
  | [], _, _, _, _, _, hrun, x => by
    rw [declareItems, run_pure_eq_ok] at hrun
    cases hrun
    exact ⟨rfl, rfl⟩
  | item :: items, seen, b, b', r, hb, hrun, x => by
    rw [declareItems] at hrun
    split at hrun
    · obtain ⟨_, _, hthrow, -⟩ := run_bind_eq_ok.mp hrun
      exact absurd hthrow run_throw_ne_ok
    next hseen =>
    rw [List.contains_iff_mem] at hseen
    have hnone := hb _ hseen
    -- nothing is known of the items to come
    have hlater (y : String) (hy : y ∉ (itemName item).text :: seen) :
        (y == (itemName item).text) = false ∧ b.fnTypes.lookup y = none ∧
          b.globalTypes.lookup y = none :=
      ⟨beq_false_of_ne fun heq => hy (heq ▸ List.mem_cons_self),
        hb y fun hmem => hy (List.mem_cons_of_mem _ hmem)⟩
    -- no later item has the name of this one
    have hrest (hnames : ∀ i ∈ items, (itemName i).text ∉ (itemName item).text :: seen) :
        signatureIn? items (itemName item).text = none := by
      refine Option.map_eq_none_iff.mpr (List.find?_eq_none.mpr fun i hi hname => ?_)
      exact hnames i hi (List.mem_cons.mpr (.inl (beq_iff_eq.mp hname)))
    have hcons : signatureIn? (item :: items) x =
        if (itemName item).text == x then some item.signature else signatureIn? items x := by
      unfold signatureIn?
      rw [List.find?_cons]
      split
      · next heq => rw [if_pos heq]; rfl
      · next hne => rw [if_neg (Bool.not_eq_true _ ▸ hne)]
    rw [hcons]
    cases item with
    | function d =>
      obtain ⟨_, b₁, h₁, hrun⟩ := run_bind_eq_ok.mp hrun
      cases h₁
      have hnames := (declareItems_spec items hrun).2.2.2
      obtain ⟨hfn, hgl⟩ := declareItems_lookup items (fun y hy => by
        rw [List.lookup_cons, (hlater y hy).1]
        exact (hlater y hy).2) hrun x
      by_cases heq : (itemName (.function d)).text = x
      · subst heq
        rw [hrest hnames] at hfn hgl
        rw [if_pos (beq_self_eq_true _)]
        refine ⟨hfn.trans ?_, hgl.trans ?_⟩
        · rw [Option.elim_none, List.lookup_cons, beq_self_eq_true]
          rfl
        · rw [Option.elim_none, hnone.2]
          rfl
      · rw [if_neg (by simpa using heq)]
        rw [List.lookup_cons, beq_false_of_ne (Ne.symm heq)] at hfn
        exact ⟨hfn, hgl⟩
    | binding d =>
      obtain ⟨_, b₁, h₁, hrun⟩ := run_bind_eq_ok.mp hrun
      cases h₁
      have hnames := (declareItems_spec items hrun).2.2.2
      obtain ⟨hfn, hgl⟩ := declareItems_lookup items (fun y hy => by
        rw [List.lookup_cons, (hlater y hy).1]
        exact (hlater y hy).2) hrun x
      by_cases heq : (itemName (.binding d)).text = x
      · subst heq
        rw [hrest hnames] at hfn hgl
        rw [if_pos (beq_self_eq_true _)]
        refine ⟨hfn.trans ?_, hgl.trans ?_⟩
        · rw [Option.elim_none, hnone.1]
          rfl
        · rw [Option.elim_none, List.lookup_cons, beq_self_eq_true]
          rfl
      · rw [if_neg (by simpa using heq)]
        rw [List.lookup_cons, beq_false_of_ne (Ne.symm heq)] at hgl
        exact ⟨hfn, hgl⟩

/-- What two states know of the items of some names is the same. -/
def AlikeFor (names : String → Prop) (b c : State) : Prop :=
  ∀ x, names x → b.fnTypes.lookup x = c.fnTypes.lookup x ∧
    (b.globalTypes.lookup x).map Prod.snd = (c.globalTypes.lookup x).map Prod.snd

/-- The states may change places. -/
theorem AlikeFor.symm {names : String → Prop} {b c : State} (h : AlikeFor names b c) :
    AlikeFor names c b :=
  fun x hx => ⟨(h x hx).1.symm, (h x hx).2.symm⟩

/-- Modules whose items show the same are known to be alike. -/
theorem alikeFor_of_signature {m n : Module} {b c : State} {r q : Unit} {names : String → Prop}
    (hb : (declareItems [] m.items).run .empty = .ok (r, b))
    (hc : (declareItems [] n.items).run .empty = .ok (q, c))
    (hsame : ∀ x, names x → m.signature? x = n.signature? x) : AlikeFor names b c := by
  intro x hx
  have hempty : ∀ x, x ∉ ([] : List String) → State.empty.fnTypes.lookup x = none ∧
      State.empty.globalTypes.lookup x = none := fun _ _ => ⟨rfl, rfl⟩
  obtain ⟨hbf, hbg⟩ := declareItems_lookup m.items hempty hb x
  obtain ⟨hcf, hcg⟩ := declareItems_lookup n.items hempty hc x
  have hsig : signatureIn? m.items x = signatureIn? n.items x := hsame x hx
  rw [hbf, hcf, hbg, hcg, hsig]
  exact ⟨rfl, rfl⟩

end Binding

end ClosureEnv
