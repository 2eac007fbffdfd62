import ClosureEnv.Proofs.Syntax.Accepted

/-!
# The tokens of a normal tree are read as that tree

The tokens that `kinds` lists spell the tree (`Expr.writtenAs` and its siblings): a statement has
its semicolon and an empty list of parameters is one word. So a normal tree is read from its
source.
-/

namespace ClosureEnv.Syntax

open TokenKind (ident kwLet kwMut colon semicolon eq)

/-- A token of a kind, wherever it stands. -/
def TokenKind.bare (k : TokenKind) : Token :=
  ⟨k, default⟩

/-- Bare tokens are of their kinds. -/
@[simp] theorem map_kind_bare (ks : List TokenKind) :
    (ks.map TokenKind.bare).map Token.kind = ks := by
  rw [List.map_map]
  exact List.map_id ks

/-- The next of some bare tokens is of the first kind. -/
@[simp] theorem nextKind_bare (ks : List TokenKind) (k : TokenKind) :
    nextKind (ks.map TokenKind.bare) k = ks.headD k := by
  rw [nextKind, map_kind_bare]

/-- Tokens of kinds `ks`, in front of one of kind `k`, are written by some parts. -/
def Writes (ps : List Part) (ks : List TokenKind) (k : TokenKind) : Prop :=
  Spells anywhere ps (ks.map TokenKind.bare) k

/-- Tokens of kinds `ks`, in front of one of kind `k`, are those of a node. -/
def Node.WrittenAs (n : Node) (ks : List TokenKind) (k : TokenKind) : Prop :=
  ∃ ps ∈ n.forms, Writes ps ks k

namespace Writes

variable {ps qs : List Part} {ks ls : List TokenKind} {k : TokenKind}

/-- Nothing. -/
theorem nil (k : TokenKind) : Writes [] [] k :=
  Spells.nil k

/-- A word. -/
theorem word {w : TokenKind} (h : Writes ps ks k) : Writes (.word w :: ps) (w :: ks) k :=
  Spells.word (t := w.bare) h

/-- A node. -/
theorem node {n : Node} (hn : n.WrittenAs ks (ls.headD k)) (h : Writes ps ls k) :
    Writes (.node n :: ps) (ks ++ ls) k := by
  obtain ⟨qs, hqs, hspells⟩ := hn
  rw [Writes, List.map_append]
  exact .node hqs trivial (by rwa [nextKind_bare]) h

/-- One form after another. -/
theorem append (h : Writes ps ks (ls.headD k)) (h' : Writes qs ls k) :
    Writes (ps ++ qs) (ks ++ ls) k := by
  rw [Writes, List.map_append]
  exact Spells.append (by rwa [nextKind_bare]) h'

/-- A node alone. -/
theorem single {n : Node} (hn : n.WrittenAs ks k) : Writes [.node n] ks k := by
  rw [← List.append_nil ks]
  exact .node hn (.nil k)

/-- Nodes with commas between them. -/
theorem commaParts {α : Type} {f : α → Node} {g : α → List TokenKind} {as : List α}
    (h : ∀ a ∈ as, ∀ l, l = .comma ∨ l = k → (f a).WrittenAs (g a) l) :
    Writes (commaParts (as.map f)) (commas (as.map g)) k := by
  induction as with
  | nil => exact .nil k
  | cons a as ih =>
    obtain ⟨ha, has⟩ := List.forall_mem_cons.mp h
    cases as with
    | nil =>
      rw [List.map_singleton, List.map_singleton, commas, List.intercalate_singleton]
      exact .single (ha k (.inr rfl))
    | cons b as =>
      rw [List.map_cons, List.map_cons, List.map_cons, List.map_cons, commas,
        List.intercalate_cons_cons, List.append_assoc]
      exact .node (ha _ (.inl rfl)) (.word (ih has))

end Writes

namespace Node.WrittenAs

variable {n : Node} {ps : List Part} {ks : List TokenKind} {k : TokenKind}

/-- By the first form. -/
theorem mk {pss : List (List Part)} (hn : n.forms = ps :: pss) (h : Writes ps ks k) :
    n.WrittenAs ks k :=
  ⟨ps, hn ▸ List.mem_cons_self, h⟩

/-- Its tokens spell the node. -/
theorem spelledBy (h : n.WrittenAs ks k) : n.SpelledBy anywhere (ks.map TokenKind.bare) k := by
  obtain ⟨ps, hps, hspells⟩ := h
  exact ⟨ps, hps, trivial, hspells⟩

end Node.WrittenAs

/-! ## The kinds of a tree spell it -/

/-- A name is written as it is. -/
theorem Ident.writtenAs (name : Ident) (k : TokenKind) :
    (Node.ident name).WrittenAs [.ident name.text] k :=
  .mk rfl (.word (.nil k))

/-- The tokens of types are those of each. -/
theorem typesKinds_eq (ts : List TypeExpr) : typesKinds ts = ts.map TypeExpr.kinds := by
  induction ts with
  | nil => rfl
  | cons t ts ih => rw [typesKinds, ih, List.map_cons]

mutual

/-- The kinds of a type spell it. -/
theorem TypeExpr.writtenAs : ∀ (t : TypeExpr) (k : TokenKind), (Node.type t).WrittenAs t.kinds k
  | .path name, k => .mk rfl (.single (name.writtenAs k))
  | .arrow params ret _, k => by
    rw [TypeExpr.kinds, typesKinds_eq]
    have hparams := Writes.commaParts (k := .rParen) fun t ht l _ => types_writtenAs params t ht l
    exact .mk rfl (.word (.word (hparams.append (.word (.word (.single (ret.writtenAs k)))))))

/-- So do those of each of some types. -/
theorem types_writtenAs : ∀ (ts : List TypeExpr), ∀ t ∈ ts, ∀ k : TokenKind,
    (Node.type t).WrittenAs t.kinds k
  | t :: ts, _, h, k =>
    (List.mem_cons.mp h).elim (fun h => h ▸ t.writtenAs k) fun h => types_writtenAs ts _ h k

end

/-- A type that may be stated. -/
theorem writes_statedParts (mark : TokenKind) (ty : Option TypeExpr) (k : TokenKind) :
    Writes (statedParts mark ty) (statedKinds mark ty) k := by
  cases ty with
  | none => exact .nil k
  | some t => exact .word (.single (t.writtenAs k))

/-- A parameter. -/
theorem Param.writtenAs (p : Param) (k : TokenKind) : (Node.param p).WrittenAs p.kinds k :=
  .mk rfl (Writes.node (p.name.writtenAs _) (writes_statedParts .colon p.ty k))

/-- The parameters of a closure. -/
theorem exists_writes_closureForms (params : List Param) (k : TokenKind) :
    ∃ ps ∈ closureForms params, Writes ps (closureKinds params) k := by
  cases params with
  | nil => exact ⟨_, mem_closureForms.mpr (.inr ⟨rfl, rfl⟩), .word (.nil k)⟩
  | cons p params =>
    exact ⟨_, mem_closureForms.mpr (.inl rfl), .word
      ((Writes.commaParts fun p _ l _ => p.writtenAs l).append (.word (.nil k)))⟩

/-- A binding. -/
theorem writes_bindingParts (isMut : Bool) (name : Ident) (ty : Option TypeExpr) {value : Expr}
    (hvalue : (Node.expr value).WrittenAs value.kinds .semicolon) (k : TokenKind) :
    Writes (bindingParts isMut name ty value)
      (kwLet :: (if isMut then [kwMut] else []) ++
        ident name.text :: statedKinds colon ty ++ eq :: value.kinds ++ [semicolon]) k := by
  have hrest : Writes (.node (.ident name) :: (statedParts .colon ty ++
      [.word .eq, .node (.expr value), .word .semicolon]))
      ([ident name.text] ++ (statedKinds colon ty ++ eq :: (value.kinds ++ [semicolon]))) k :=
    .node (name.writtenAs _) ((writes_statedParts .colon ty _).append
      (.word (.node hvalue (.word (.nil k)))))
  simp only [List.append_assoc, List.cons_append]
  refine .word (Writes.append ?_ hrest)
  cases isMut
  · exact .nil _
  · exact .word (.nil _)

/-- The tokens of expressions are those of each. -/
theorem exprsKinds_eq (es : List Expr) : exprsKinds es = es.map Expr.kinds := by
  induction es with
  | nil => rfl
  | cons e es ih => rw [exprsKinds, ih, List.map_cons]

mutual

/-- The kinds of an expression spell it, where no `else` follows. -/
theorem Expr.writtenAs : ∀ (e : Expr) {k : TokenKind}, k ≠ .kwElse →
    (Node.expr e).WrittenAs e.kinds k
  | .lit _ _, k, _ => .mk rfl (.word (.nil k))
  | .var name, k, _ => .mk rfl (.single (name.writtenAs k))
  | .unary _ operand _, _, hk => .mk rfl (.word (.single (operand.writtenAs hk)))
  | .call callee args _, k, _ => by
    rw [Expr.kinds, exprsKinds_eq, List.append_assoc, List.cons_append]
    have hargs := Writes.commaParts (k := .rParen) fun e he l hl =>
      exprs_writtenAs args e he (by rcases hl with rfl | rfl <;> nofun)
    exact .mk rfl (.node (callee.writtenAs nofun) (.word (hargs.append (.word (.nil k)))))
  | .binary op lhs rhs _, _, hk =>
    .mk rfl (.node (lhs.writtenAs (by cases op <;> nofun)) (.word (.single (rhs.writtenAs hk))))
  | .paren inner _, k, _ => .mk rfl (.word (.node (inner.writtenAs nofun) (.word (.nil k))))
  | .block body, k, _ => .mk rfl (.single (body.writtenAs k))
  | .cond test yes no _, k, hk => by
    rw [Expr.kinds, List.cons_append]
    refine .mk rfl (.word (.node (test.writtenAs ?_) (.node (yes.writtenAs _) ?_)))
    · cases yes
      nofun
    · cases no with
      | none => exact Spells.ahead hk (.nil k)
      | some e => exact .word (.single (e.writtenAs hk))
  | .loop test body _, k, _ => by
    rw [Expr.kinds, List.cons_append]
    refine .mk rfl (.word (.node (test.writtenAs ?_) (.single (body.writtenAs k))))
    cases body
    nofun
  | .closure params body _, k, hk => by
    obtain ⟨ps, hps, h⟩ := exists_writes_closureForms params (body.kinds.headD k)
    exact ⟨_, List.mem_map_of_mem hps, h.append (.single (body.writtenAs hk))⟩

/-- So do those of each of some expressions. -/
theorem exprs_writtenAs : ∀ (es : List Expr), ∀ e ∈ es, ∀ {k : TokenKind}, k ≠ .kwElse →
    (Node.expr e).WrittenAs e.kinds k
  | e :: es, _, h, _, hk =>
    (List.mem_cons.mp h).elim (fun h => h ▸ e.writtenAs hk) fun h => exprs_writtenAs es _ h hk

/-- So do those of an expression that may be there. -/
theorem option_writtenAs : ∀ (o : Option Expr) {k : TokenKind}, k ≠ .kwElse →
    Writes ((o.map Node.expr).toList.map .node) (optionKinds o) k
  | none, k, _ => .nil k
  | some e, _, hk => .single (e.writtenAs hk)

/-- The kinds of a block spell it. -/
theorem Block.writtenAs : ∀ (b : Block) (k : TokenKind), (Node.block b).WrittenAs b.kinds k
  | .mk ss tail _, k => by
    rw [Block.kinds, List.cons_append, ← List.append_assoc]
    have hentries := stmts_writtenAs ss (option_writtenAs tail (k := .rBrace) nofun)
    rw [← List.map_append] at hentries
    exact .mk rfl (.word (hentries.append (.word (.nil k))))

/-- So do those of some statements. -/
theorem stmts_writtenAs : ∀ (ss : List Stmt) {ps : List Part} {ks : List TokenKind}
    {k : TokenKind}, Writes ps ks k →
      Writes ((ss.map Node.stmt).map .node ++ ps) (stmtsKinds ss ++ ks) k
  | [], _, _, _, h => h
  | s :: ss, _, _, _, h => by
    rw [stmtsKinds, List.append_assoc]
    exact .node (s.writtenAs _) (stmts_writtenAs ss h)

/-- The kinds of a statement spell it. -/
theorem Stmt.writtenAs : ∀ (s : Stmt) (k : TokenKind), (Node.stmt s).WrittenAs s.kinds k
  | .bind isMut name ty value _, k =>
    .mk rfl (writes_bindingParts isMut name ty (value.writtenAs nofun) k)
  | .assign target value _, k => by
    rw [Stmt.kinds, ← List.singleton_append, List.append_assoc]
    exact .mk rfl (.node (target.writtenAs _) (.word (.node (value.writtenAs nofun)
      (.word (.nil k)))))
  | .expr value _, k => .mk rfl (.node (value.writtenAs nofun) (.word (.nil k)))
  | .ret value _, k =>
    .mk rfl (.word ((option_writtenAs value (k := .semicolon) nofun).append (.word (.nil k))))

end

/-- The kinds of an item spell it. -/
theorem Item.writtenAs (item : Item) (k : TokenKind) : item.node.WrittenAs item.kinds k := by
  cases item with
  | binding d => exact .mk rfl (writes_bindingParts d.isMut d.name d.ty (d.value.writtenAs nofun) k)
  | function d =>
    have hgenerics (k : TokenKind) :
        ∃ ps ∈ genericForms d.generics, Writes ps (genericsKinds d.generics) k := by
      cases d.generics with
      | nil => exact ⟨_, mem_genericForms.mpr (.inr ⟨rfl, rfl⟩), .nil k⟩
      | cons g gs =>
        exact ⟨_, mem_genericForms.mpr (.inl rfl), .word
          ((Writes.commaParts fun g _ l _ => g.writtenAs l).append (.word (.nil k)))⟩
    obtain ⟨ps, hps, h⟩ := hgenerics .lParen
    rw [kinds, FnDecl.kinds]
    simp only [List.append_assoc, List.cons_append]
    exact ⟨_, List.mem_map_of_mem hps, .word (.node (d.name.writtenAs _) (h.append (.word
      ((Writes.commaParts fun p _ l _ => p.writtenAs l).append (.word
        ((writes_statedParts .arrow d.retTy _).append (.single (d.body.writtenAs k))))))))⟩

/-- The kinds of a module spell it. -/
theorem Module.writtenAs (m : Module) : (Node.root m).WrittenAs (m.kinds ++ [.eof]) .eof := by
  refine .mk rfl (Writes.append ?_ (.word (.nil _)))
  rw [kinds]
  induction m.items with
  | nil => exact .nil _
  | cons item is ih => exact .node (item.writtenAs _) ih

/-- The source of a tree. -/
def Module.written (m : Module) : String :=
  Syntax.written m.kinds

/-- A normal module is read from its source. -/
theorem Module.Normal.parse_written {m : Module} (h : m.Normal) :
    ∃ a, parse m.written = .ok a ∧ a.spanless = m.spanless := by
  have hkinds := (kinds_tokens_written h.writable).trans (map_kind_bare _).symm
  exact parse_of_spelled hkinds m.writtenAs.spelledBy h.shaped h.depth_le

end ClosureEnv.Syntax
