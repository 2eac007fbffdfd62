import ClosureEnv.Proofs.Syntax.Normal
import Mathlib.Logic.Relation

/-!
# The grammar

`Node.forms` lists the ways to write a node: words and nodes one after the other, and here and there
a look at the word that follows. `Spells` says which tokens are written by such a form, each node in
it by a form of its own. What the span of a node has to do with its tokens is a parameter: `Covers`
says that the span goes from the first of them to the last, and `anywhere` says nothing.
-/

namespace ClosureEnv.Syntax

/-! ## Nodes -/

/-- A node of a tree. -/
inductive Node where
  | ident (name : Ident)
  | type (t : TypeExpr)
  | param (p : Param)
  | expr (e : Expr)
  | block (b : Block)
  | stmt (s : Stmt)
  | binding (d : LetDecl)
  | function (d : FnDecl)
  | root (m : Module)

/-- The node that an item is. -/
def Item.node : Item → Node
  | .binding d => .binding d
  | .function d => .function d

/-- The span of a statement. -/
def Stmt.span : Stmt → Span
  | .bind _ _ _ _ span | .assign _ _ span | .expr _ span | .ret _ span => span

namespace Node

/-- The span of a node. -/
def span : Node → Span
  | ident name => name.span
  | type t => t.span
  | param p => p.span
  | expr e => e.span
  | block b => b.span
  | stmt s => s.span
  | binding d => d.span
  | function d => d.span
  | root m => m.span

/-- The nodes right below a node, in the order of the source. -/
def children : Node → List Node
  | ident _ => []
  | type (.path name) => [ident name]
  | type (.arrow params ret _) => params.map type ++ [type ret]
  | param p => ident p.name :: (p.ty.map type).toList
  | expr (.lit _ _) => []
  | expr (.var name) => [ident name]
  | expr (.unary _ operand _) => [expr operand]
  | expr (.call callee args _) => expr callee :: args.map expr
  | expr (.binary _ lhs rhs _) => [expr lhs, expr rhs]
  | expr (.paren inner _) => [expr inner]
  | expr (.block body) => [block body]
  | expr (.cond test yes no _) => expr test :: block yes :: (no.map expr).toList
  | expr (.loop test body _) => [expr test, block body]
  | expr (.closure params body _) => params.map param ++ [expr body]
  | block (.mk stmts tail _) => stmts.map stmt ++ (tail.map expr).toList
  | stmt (.bind _ name ty value _) => ident name :: (ty.map type).toList ++ [expr value]
  | stmt (.assign target value _) => [ident target, expr value]
  | stmt (.expr value _) => [expr value]
  | stmt (.ret value _) => (value.map expr).toList
  | binding d => ident d.name :: (d.ty.map type).toList ++ [expr d.value]
  | function d =>
    ident d.name :: d.generics.map ident ++ d.params.map param ++ (d.retTy.map type).toList ++
      [block d.body]
  | root m => m.items.map Item.node

/-- The node `c` is `n` or somewhere below it. -/
def Holds : Node → Node → Prop :=
  Relation.ReflTransGen fun n c => c ∈ n.children

/-- A child is below. -/
theorem Holds.child {n c : Node} (h : c ∈ n.children) : n.Holds c :=
  .single h

/-- What is below a child is below. -/
theorem Holds.of_child {n c d : Node} (h : c ∈ n.children) (hd : c.Holds d) : n.Holds d :=
  .head h hd

end Node

/-! ## Forms -/

/-- A part of a form. -/
inductive Part where
  /-- A token of that kind. -/
  | word (kind : TokenKind)
  /-- The tokens of a node. -/
  | node (n : Node)
  /-- No token, but the next one is of a kind that passes the test. -/
  | ahead (test : TokenKind → Prop)

/-- The nodes among some parts. -/
def partNodes : List Part → List Node
  | [] => []
  | .node n :: ps => n :: partNodes ps
  | _ :: ps => partNodes ps

/-- Nodes with commas between them. -/
def commaParts : List Node → List Part
  | [] => []
  | [n] => [.node n]
  | n :: n' :: ns => .node n :: .word .comma :: commaParts (n' :: ns)

/-- A type that may be stated, with the token in front of it. -/
def statedParts (mark : TokenKind) : Option TypeExpr → List Part
  | none => []
  | some t => [.word mark, .node (.type t)]

/-- The forms of the parameters of a closure, with their bars. -/
def closureForms (params : List Param) : List (List Part) :=
  (.word .pipe :: (commaParts (params.map .param) ++ [.word .pipe])) ::
    if params = [] then [[.word .orOr]] else []

/-- The forms of type parameters. -/
def genericForms (names : List Ident) : List (List Part) :=
  (.word .lt :: (commaParts (names.map .ident) ++ [.word .gt])) ::
    if names = [] then [[]] else []

/-- A binding. -/
def bindingParts (isMut : Bool) (name : Ident) (ty : Option TypeExpr) (value : Expr) : List Part :=
  .word .kwLet :: ((if isMut then [.word .kwMut] else []) ++
    .node (.ident name) :: (statedParts .colon ty ++
      [.word .eq, .node (.expr value), .word .semicolon]))

/-- What follows the block of a conditional. -/
def elseParts : Option Expr → List Part
  | none => [.ahead (· ≠ .kwElse)]
  | some e => [.word .kwElse, .node (.expr e)]

/-- The kinds of token that part a statement without a semicolon from the entry after it. -/
def Separates (k : TokenKind) : Prop :=
  Stops 0 k ∧ k ≠ .rBrace

/-- The entries of a block. -/
def entryParts (stmts : List Stmt) (tail : Option Expr) : List Part :=
  (stmts.map Node.stmt ++ (tail.map Node.expr).toList).map .node

/-- The forms of a node. -/
def Node.forms : Node → List (List Part)
  | ident name => [[.word (.ident name.text)]]
  | type (.path name) => [[.node (.ident name)]]
  | type (.arrow params ret _) =>
    [.word .kwFn :: .word .lParen :: (commaParts (params.map type) ++
      [.word .rParen, .word .arrow, .node (.type ret)])]
  | param p => [.node (.ident p.name) :: statedParts .colon p.ty]
  | expr (.lit v _) => [[.word v.kind]]
  | expr (.var name) => [[.node (.ident name)]]
  | expr (.unary op operand _) => [[.word op.kind, .node (.expr operand)]]
  | expr (.call callee args _) =>
    [.node (.expr callee) :: .word .lParen :: (commaParts (args.map expr) ++ [.word .rParen])]
  | expr (.binary op lhs rhs _) => [[.node (.expr lhs), .word op.kind, .node (.expr rhs)]]
  | expr (.paren inner _) => [[.word .lParen, .node (.expr inner), .word .rParen]]
  | expr (.block body) => [[.node (.block body)]]
  | expr (.cond test yes no _) =>
    [.word .kwIf :: .node (.expr test) :: .node (.block yes) :: elseParts no]
  | expr (.loop test body _) => [[.word .kwWhile, .node (.expr test), .node (.block body)]]
  | expr (.closure params body _) => (closureForms params).map (· ++ [.node (.expr body)])
  | block (.mk stmts tail _) =>
    [.word .lBrace :: (entryParts stmts tail ++ [.word .rBrace])]
  | stmt (.bind isMut name ty value _) => [bindingParts isMut name ty value]
  | stmt (.assign target value _) =>
    [[.node (.ident target), .word .eq, .node (.expr value), .word .semicolon]]
  | stmt (.expr value _) =>
    -- what goes on with the expression, or leaves it as the value of the block, must not follow
    [.node (.expr value), .word .semicolon] ::
      if value.endsInBlock then [[.node (.expr value), .ahead Separates]] else []
  | stmt (.ret value _) =>
    [.word .kwReturn :: ((value.map expr).toList.map .node ++ [.word .semicolon])]
  | binding d => [bindingParts d.isMut d.name d.ty d.value]
  | function d =>
    (genericForms d.generics).map fun generics =>
      .word .kwFn :: .node (.ident d.name) :: (generics ++
        .word .lParen :: (commaParts (d.params.map param) ++
          .word .rParen :: (statedParts .arrow d.retTy ++ [.node (.block d.body)])))
  | root m => [(m.items.map Item.node).map .node ++ [.word .eof]]

/-! ## The nodes of a form -/

@[simp] theorem partNodes_append (ps qs : List Part) :
    partNodes (ps ++ qs) = partNodes ps ++ partNodes qs := by
  fun_induction partNodes ps <;> simp_all [partNodes]

@[simp] theorem partNodes_map (ns : List Node) : partNodes (ns.map .node) = ns := by
  induction ns <;> simp_all [partNodes]

@[simp] theorem partNodes_commaParts (ns : List Node) : partNodes (commaParts ns) = ns := by
  fun_induction commaParts ns <;> simp_all [partNodes]

@[simp] theorem partNodes_statedParts (mark : TokenKind) (ty : Option TypeExpr) :
    partNodes (statedParts mark ty) = (ty.map Node.type).toList := by
  cases ty <;> rfl

@[simp] theorem partNodes_elseParts (no : Option Expr) :
    partNodes (elseParts no) = (no.map Node.expr).toList := by
  cases no <;> rfl

@[simp] theorem partNodes_entryParts (stmts : List Stmt) (tail : Option Expr) :
    partNodes (entryParts stmts tail) = stmts.map .stmt ++ (tail.map Node.expr).toList :=
  partNodes_map _

@[simp] theorem partNodes_bindingParts (isMut : Bool) (name : Ident) (ty : Option TypeExpr)
    (value : Expr) :
    partNodes (bindingParts isMut name ty value) =
      .ident name :: (ty.map Node.type).toList ++ [.expr value] := by
  cases isMut <;> simp [bindingParts, partNodes]

/-- The parameters of a closure are between bars, or there are none. -/
theorem mem_closureForms {params : List Param} {ps : List Part} :
    ps ∈ closureForms params ↔
      ps = .word .pipe :: (commaParts (params.map .param) ++ [.word .pipe]) ∨
        params = [] ∧ ps = [.word .orOr] := by
  unfold closureForms
  split <;> simp_all

/-- Type parameters are between brackets, or there are none. -/
theorem mem_genericForms {names : List Ident} {ps : List Part} :
    ps ∈ genericForms names ↔
      ps = .word .lt :: (commaParts (names.map .ident) ++ [.word .gt]) ∨ names = [] ∧ ps = [] := by
  unfold genericForms
  split <;> simp_all

/-- A statement that is an expression has a semicolon, or its expression ends in a block. -/
theorem mem_forms_exprStmt {value : Expr} {span : Span} {ps : List Part} :
    ps ∈ (Node.stmt (.expr value span)).forms ↔
      ps = [.node (.expr value), .word .semicolon] ∨
        value.endsInBlock = true ∧ ps = [.node (.expr value), .ahead Separates] := by
  unfold Node.forms
  split <;> simp_all

/-- Every form of a node has its children in order. -/
theorem Node.partNodes_of_mem_forms : ∀ {n : Node} {ps : List Part},
    ps ∈ n.forms → partNodes ps = n.children
  | .expr (.closure ..), _, h => by
    obtain ⟨qs, hqs, rfl⟩ := List.mem_map.mp h
    rcases mem_closureForms.mp hqs with rfl | ⟨rfl, rfl⟩ <;> simp [partNodes, children]
  | .stmt (.expr ..), _, h => by
    rcases mem_forms_exprStmt.mp h with rfl | ⟨-, rfl⟩ <;> rfl
  | .function _, _, h => by
    obtain ⟨qs, hqs, rfl⟩ := List.mem_map.mp h
    rcases mem_genericForms.mp hqs with rfl | ⟨hnone, rfl⟩ <;> simp_all [partNodes, children]
  | .ident _, _, h | .type (.path _), _, h | .type (.arrow ..), _, h | .param _, _, h
  | .expr (.lit ..), _, h | .expr (.var _), _, h | .expr (.unary ..), _, h
  | .expr (.call ..), _, h | .expr (.binary ..), _, h | .expr (.paren ..), _, h
  | .expr (.block _), _, h | .expr (.cond ..), _, h | .expr (.loop ..), _, h
  | .block (.mk ..), _, h | .stmt (.bind ..), _, h | .stmt (.assign ..), _, h
  | .stmt (.ret ..), _, h | .binding _, _, h | .root _, _, h => by
    obtain rfl := List.mem_singleton.mp h
    simp [partNodes, children, -List.map_map]

/-! ## Tokens -/

/-- The kind of the token that follows, where one of kind `k` is behind the others. -/
def nextKind (ts : List Token) (k : TokenKind) : TokenKind :=
  (ts.map Token.kind).headD k

@[simp] theorem nextKind_nil (k : TokenKind) : nextKind [] k = k := rfl

@[simp] theorem nextKind_cons (t : Token) (ts : List Token) (k : TokenKind) :
    nextKind (t :: ts) k = t.kind := rfl

@[simp] theorem nextKind_append (ts us : List Token) (k : TokenKind) :
    nextKind (ts ++ us) k = nextKind ts (nextKind us k) := by
  cases ts <;> rfl

/-- A span goes from the first of some tokens to the last. -/
def Covers (span : Span) (ts : List Token) : Prop :=
  ∃ first ∈ ts.head?, ∃ last ∈ ts.getLast?, span = first.span.to last.span

/-- A span that may be any. -/
def anywhere (_ : Span) (_ : List Token) : Prop :=
  True

/-- The tokens `ts`, in front of one of kind `k`, are written by some parts, and the spans of all
nodes in them stand to their tokens as `At` says. -/
inductive Spells (At : Span → List Token → Prop) : List Part → List Token → TokenKind → Prop
  | nil (k : TokenKind) : Spells At [] [] k
  | word {ps : List Part} {t : Token} {ts : List Token} {k : TokenKind} :
    Spells At ps ts k → Spells At (.word t.kind :: ps) (t :: ts) k
  | ahead {test : TokenKind → Prop} {ps : List Part} {ts : List Token} {k : TokenKind} :
    test (nextKind ts k) → Spells At ps ts k → Spells At (.ahead test :: ps) ts k
  | node {n : Node} {qs ps : List Part} {us ts : List Token} {k : TokenKind} :
    qs ∈ n.forms → At n.span us → Spells At qs us (nextKind ts k) → Spells At ps ts k →
      Spells At (.node n :: ps) (us ++ ts) k

/-- The tokens `ts`, in front of one of kind `k`, are those of a node. -/
def Node.SpelledBy (At : Span → List Token → Prop) (n : Node) (ts : List Token) (k : TokenKind) :
    Prop :=
  ∃ ps ∈ n.forms, At n.span ts ∧ Spells At ps ts k

/-- A node of one form is written by that form. -/
theorem Node.SpelledBy.of_form {At : Span → List Token → Prop} {n : Node} {ps : List Part}
    {ts : List Token} {k : TokenKind} (h : n.SpelledBy At ts k) (hn : n.forms = [ps]) :
    Spells At ps ts k := by
  obtain ⟨qs, hqs, -, hspells⟩ := h
  rw [hn, List.mem_singleton] at hqs
  exact hqs ▸ hspells

/-- A node is written by the first of its forms. -/
theorem Node.SpelledBy.mk {At : Span → List Token → Prop} {n : Node} {ps : List Part}
    {pss : List (List Part)} {ts : List Token} {k : TokenKind} (hn : n.forms = ps :: pss)
    (hat : At n.span ts) (h : Spells At ps ts k) : n.SpelledBy At ts k :=
  ⟨ps, hn ▸ List.mem_cons_self, hat, h⟩

/-- The span of a node stands to its tokens as it has to. -/
theorem Node.SpelledBy.span {At : Span → List Token → Prop} {n : Node} {ts : List Token}
    {k : TokenKind} (h : n.SpelledBy At ts k) : At n.span ts := by
  obtain ⟨-, -, hat, -⟩ := h
  exact hat

namespace Spells

variable {At : Span → List Token → Prop} {ps qs : List Part} {ts us : List Token} {k : TokenKind}

@[simp] theorem nil_iff : Spells At [] ts k ↔ ts = [] :=
  ⟨fun h => by cases h; rfl, fun h => h ▸ .nil k⟩

@[simp] theorem word_iff {w : TokenKind} :
    Spells At (.word w :: ps) ts k ↔ ∃ t us, ts = t :: us ∧ t.kind = w ∧ Spells At ps us k := by
  constructor
  · rintro (_ | ⟨h⟩)
    exact ⟨_, _, rfl, rfl, h⟩
  · rintro ⟨t, us, rfl, rfl, h⟩
    exact .word h

@[simp] theorem ahead_iff {test : TokenKind → Prop} :
    Spells At (.ahead test :: ps) ts k ↔ test (nextKind ts k) ∧ Spells At ps ts k := by
  constructor
  · rintro (_ | _ | ⟨htest, h⟩)
    exact ⟨htest, h⟩
  · exact fun h => .ahead h.1 h.2

@[simp] theorem node_iff {n : Node} :
    Spells At (.node n :: ps) ts k ↔
      ∃ us vs, ts = us ++ vs ∧ n.SpelledBy At us (nextKind vs k) ∧ Spells At ps vs k := by
  constructor
  · rintro (_ | _ | _ | ⟨hform, hat, hn, h⟩)
    exact ⟨_, _, rfl, ⟨_, hform, hat, hn⟩, h⟩
  · rintro ⟨us, vs, rfl, ⟨qs, hform, hat, hn⟩, h⟩
    exact .node hform hat hn h

/-- A token of the kind of a word, and then others. -/
theorem cons_word {w : TokenKind} {t : Token} (ht : t.kind = w) (h : Spells At ps ts k) :
    Spells At (.word w :: ps) (t :: ts) k :=
  ht ▸ .word h

/-- The tokens of a node, and then others. -/
theorem cons_node {n : Node} (hn : n.SpelledBy At us (nextKind ts k)) (h : Spells At ps ts k) :
    Spells At (.node n :: ps) (us ++ ts) k :=
  node_iff.mpr ⟨us, ts, rfl, hn, h⟩

/-- One form after another. -/
theorem append_iff :
    Spells At (ps ++ qs) ts k ↔
      ∃ us vs, ts = us ++ vs ∧ Spells At ps us (nextKind vs k) ∧ Spells At qs vs k := by
  induction ps generalizing ts with
  | nil => exact ⟨fun h => ⟨[], ts, rfl, .nil _, h⟩, by rintro ⟨_, _, rfl, ⟨⟩, h⟩; exact h⟩
  | cons p ps ih =>
    cases p with
    | word w =>
      simp only [List.cons_append, word_iff, ih]
      constructor
      · rintro ⟨t, _, rfl, ht, us, vs, rfl, hps, hqs⟩
        exact ⟨t :: us, vs, rfl, ⟨t, us, rfl, ht, hps⟩, hqs⟩
      · rintro ⟨_, vs, rfl, ⟨t, us, rfl, ht, hps⟩, hqs⟩
        exact ⟨t, us ++ vs, rfl, ht, us, vs, rfl, hps, hqs⟩
    | ahead test =>
      simp only [List.cons_append, ahead_iff, ih]
      constructor
      · rintro ⟨htest, us, vs, rfl, hps, hqs⟩
        exact ⟨us, vs, rfl, ⟨by simpa using htest, hps⟩, hqs⟩
      · rintro ⟨us, vs, rfl, ⟨htest, hps⟩, hqs⟩
        exact ⟨by simpa using htest, us, vs, rfl, hps, hqs⟩
    | node n =>
      simp only [List.cons_append, node_iff, ih]
      constructor
      · rintro ⟨ws, _, rfl, hn, us, vs, rfl, hps, hqs⟩
        exact ⟨ws ++ us, vs, by simp, ⟨ws, us, rfl, by simpa using hn, hps⟩, hqs⟩
      · rintro ⟨_, vs, rfl, ⟨ws, us, rfl, hn, hps⟩, hqs⟩
        exact ⟨ws, us ++ vs, by simp, by simpa using hn, us, vs, rfl, hps, hqs⟩

/-- A node alone. -/
@[simp] theorem single_iff {n : Node} : Spells At [.node n] ts k ↔ n.SpelledBy At ts k := by
  rw [node_iff]
  constructor
  · rintro ⟨us, vs, rfl, hn, hvs⟩
    obtain rfl := nil_iff.mp hvs
    rwa [List.append_nil]
  · exact fun hn => ⟨ts, [], (List.append_nil ts).symm, hn, .nil k⟩

/-- One form after another. -/
theorem append (h : Spells At ps ts (nextKind us k)) (h' : Spells At qs us k) :
    Spells At (ps ++ qs) (ts ++ us) k :=
  append_iff.mpr ⟨ts, us, rfl, h, h'⟩

end Spells

end ClosureEnv.Syntax
