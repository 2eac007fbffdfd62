import ClosureEnv.Proofs.Syntax.Grammar

/-!
# Names in a source

`Named P` says that every name that a part of a source declares satisfies `P`. It does if every
identifier of the part satisfies `P`.
-/

namespace ClosureEnv.Syntax

variable (P : String → Prop)

mutual

/-- The names that an expression declares satisfy `P`. -/
def Expr.Named : Expr → Prop
  | .lit _ _ | .var _ => True
  | .unary _ operand _ => operand.Named
  | .call callee args _ => callee.Named ∧ exprsNamed args
  | .binary _ lhs rhs _ => lhs.Named ∧ rhs.Named
  | .paren inner _ => inner.Named
  | .block body => body.Named
  | .cond test yes no _ => test.Named ∧ yes.Named ∧ optionNamed no
  | .loop test body _ => test.Named ∧ body.Named
  | .closure params body _ => (∀ p ∈ params, P p.name.text) ∧ body.Named

/-- The names that an optional expression declares satisfy `P`. -/
def optionNamed : Option Expr → Prop
  | none => True
  | some e => e.Named

/-- The names that expressions declare satisfy `P`. -/
def exprsNamed : List Expr → Prop
  | [] => True
  | e :: es => e.Named ∧ exprsNamed es

/-- The names that a block declares satisfy `P`. -/
def Block.Named : Block → Prop
  | .mk ss tail _ => stmtsNamed ss ∧ optionNamed tail

/-- The names that a statement declares satisfy `P`. -/
def Stmt.Named : Stmt → Prop
  | .bind _ name _ value _ => P name.text ∧ value.Named
  | .assign _ value _ | .expr value _ => value.Named
  | .ret value _ => optionNamed value

/-- The names that statements declare satisfy `P`. -/
def stmtsNamed : List Stmt → Prop
  | [] => True
  | s :: ss => s.Named ∧ stmtsNamed ss

end

/-- The names of an item and those that it declares satisfy `P`. -/
def Item.Named : Item → Prop
  | .binding d => P d.name.text ∧ d.value.Named P
  | .function d => P d.name.text ∧ (∀ p ∈ d.params, P p.name.text) ∧ d.body.Named P

/-- All names that a source declares satisfy `P`. -/
def Module.Named (m : Module) : Prop :=
  ∀ item ∈ m.items, item.Named P

/-! ## Identifiers -/

/-- Every identifier of a part of a source satisfies `P`. -/
def Node.AllNames (n : Node) : Prop :=
  ∀ name, n.Holds (.ident name) → P name.text

variable {P}

/-- The identifiers of a child are among those of the whole. -/
theorem Node.AllNames.child {n c : Node} (h : n.AllNames P) (hc : c ∈ n.children) : c.AllNames P :=
  fun name hname => h name (.of_child hc hname)

/-- An identifier is one of its own. -/
theorem Node.AllNames.ident {name : Ident} (h : (Node.ident name).AllNames P) : P name.text :=
  h name .refl

/-- The name of a parameter is an identifier of it. -/
theorem Node.AllNames.params {n : Node} {params : List Param} (h : n.AllNames P)
    (hparams : ∀ p ∈ params, .param p ∈ n.children) : ∀ p ∈ params, P p.name.text :=
  fun p hp => ((h.child (hparams p hp)).child List.mem_cons_self).ident

mutual

/-- The names that an expression declares are identifiers of it. -/
theorem Expr.named : ∀ {e : Expr}, (Node.expr e).AllNames P → e.Named P
  | .lit _ _, _ | .var _, _ => trivial
  | .unary _ operand _, h => Expr.named (e := operand) (h.child List.mem_cons_self)
  | .paren inner _, h => Expr.named (e := inner) (h.child List.mem_cons_self)
  | .call _ _ _, h =>
    ⟨Expr.named (h.child List.mem_cons_self),
      exprs_named fun _ he => h.child (.tail _ (List.mem_map_of_mem he))⟩
  | .binary _ _ _ _, h =>
    ⟨Expr.named (h.child List.mem_cons_self), Expr.named (h.child (.tail _ List.mem_cons_self))⟩
  | .block _, h => Block.named (h.child List.mem_cons_self)
  | .cond _ _ _ _, h =>
    ⟨Expr.named (h.child List.mem_cons_self), Block.named (h.child (.tail _ List.mem_cons_self)),
      option_named fun _ he => h.child (.tail _ (.tail _
        (Option.mem_toList.mpr (Option.mem_map_of_mem _ he))))⟩
  | .loop _ _ _, h =>
    ⟨Expr.named (h.child List.mem_cons_self), Block.named (h.child (.tail _ List.mem_cons_self))⟩
  | .closure _ _ _, h =>
    ⟨h.params fun _ hp => List.mem_append_left _ (List.mem_map_of_mem hp),
      Expr.named (h.child (List.mem_append_right _ List.mem_cons_self))⟩

/-- So are those of an expression that may be there. -/
theorem option_named : ∀ {e : Option Expr}, (∀ x ∈ e, (Node.expr x).AllNames P) → optionNamed P e
  | none, _ => trivial
  | some _, h => Expr.named (h _ rfl)

/-- So are those of expressions. -/
theorem exprs_named : ∀ {es : List Expr}, (∀ e ∈ es, (Node.expr e).AllNames P) → exprsNamed P es
  | [], _ => trivial
  | _ :: _, h =>
    ⟨Expr.named (h _ List.mem_cons_self), exprs_named fun _ he => h _ (List.mem_cons_of_mem _ he)⟩

/-- So are those of a block. -/
theorem Block.named : ∀ {b : Block}, (Node.block b).AllNames P → b.Named P
  | .mk _ _ _, h =>
    ⟨stmts_named fun _ hs => h.child (List.mem_append_left _ (List.mem_map_of_mem hs)),
      option_named fun _ he => h.child (List.mem_append_right _
        (Option.mem_toList.mpr (Option.mem_map_of_mem _ he)))⟩

/-- So are those of a statement. -/
theorem Stmt.named : ∀ {s : Stmt}, (Node.stmt s).AllNames P → s.Named P
  | .bind _ _ _ _ _, h =>
    ⟨(h.child List.mem_cons_self).ident,
      Expr.named (h.child (List.mem_append_right _ List.mem_cons_self))⟩
  | .assign _ _ _, h => Expr.named (h.child (.tail _ List.mem_cons_self))
  | .expr _ _, h => Expr.named (h.child List.mem_cons_self)
  | .ret _ _, h =>
    option_named fun _ he => h.child (Option.mem_toList.mpr (Option.mem_map_of_mem _ he))

/-- So are those of statements. -/
theorem stmts_named : ∀ {ss : List Stmt}, (∀ s ∈ ss, (Node.stmt s).AllNames P) → stmtsNamed P ss
  | [], _ => trivial
  | _ :: _, h =>
    ⟨Stmt.named (h _ List.mem_cons_self), stmts_named fun _ hs => h _ (List.mem_cons_of_mem _ hs)⟩

end

/-- So are those of a source. -/
theorem Module.named {m : Module} (h : (Node.root m).AllNames P) : m.Named P := by
  intro item hitem
  have hnode := h.child (List.mem_map_of_mem hitem)
  cases item with
  | binding d =>
    exact ⟨(hnode.child List.mem_cons_self).ident,
      Expr.named (hnode.child (List.mem_append_right _ List.mem_cons_self))⟩
  | function d =>
    refine ⟨(hnode.child (by simp [Item.node, Node.children])).ident,
      hnode.params fun p hp => ?_, Block.named (hnode.child (by simp [Item.node, Node.children]))⟩
    simp [Item.node, Node.children, hp]

/-! ## Any names -/

/-- An expression declares names. -/
theorem Expr.named_true (e : Expr) : e.Named fun _ => True :=
  Expr.named fun _ _ => trivial

/-- An optional expression declares names. -/
theorem optionNamed_true (e : Option Expr) : optionNamed (fun _ => True) e :=
  option_named fun _ _ _ _ => trivial

/-- Expressions declare names. -/
theorem exprsNamed_true (es : List Expr) : exprsNamed (fun _ => True) es :=
  exprs_named fun _ _ _ _ => trivial

/-- A block declares names. -/
theorem Block.named_true (b : Block) : b.Named fun _ => True :=
  Block.named fun _ _ => trivial

/-- A statement declares names. -/
theorem Stmt.named_true (s : Stmt) : s.Named fun _ => True :=
  Stmt.named fun _ _ => trivial

/-- Statements declare names. -/
theorem stmtsNamed_true (ss : List Stmt) : stmtsNamed (fun _ => True) ss :=
  stmts_named fun _ _ _ _ => trivial

/-- A source declares names. -/
theorem Module.named_true (m : Module) : m.Named fun _ => True :=
  Module.named fun _ _ => trivial

end ClosureEnv.Syntax
