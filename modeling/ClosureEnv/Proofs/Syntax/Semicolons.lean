import ClosureEnv.Proofs.Syntax.Nesting
import ClosureEnv.Proofs.Syntax.Spans

/-!
# Semicolons behind blocks

A statement that ends in a block needs no semicolon (`parse_blot`): with the semicolon replaced by a
blank the same tree is read, unless what follows goes on with the expression. That is so for a
parenthesis, which makes the statement a callee, and for a minus and two bars, which make it a left
operand, though each of them may start an entry of its own (`exists_needed_semicolons`).
-/

namespace ClosureEnv.Syntax

variable {At : Span → List Token → Prop} {ps : List Part} {ts : List Token} {k l : TokenKind}

/-! ## What follows a node -/

/-- A test that a form makes of the token that follows: it is no `else`, or it parts two entries. -/
def IsLookahead (test : TokenKind → Prop) : Prop :=
  test = (· ≠ .kwElse) ∨ test = Separates

section Lookaheads

variable {test : TokenKind → Prop}

/-- Nothing is looked for behind a list with commas. -/
theorem ahead_not_mem_commaParts (ns : List Node) : Part.ahead test ∉ commaParts ns := by
  fun_induction commaParts ns <;> simp_all

/-- Nor behind a type that may be stated. -/
theorem ahead_not_mem_statedParts (mark : TokenKind) (ty : Option TypeExpr) :
    Part.ahead test ∉ statedParts mark ty := by
  cases ty <;> simp [statedParts]

/-- Nor in a binding. -/
theorem ahead_not_mem_bindingParts (isMut : Bool) (name : Ident) (ty : Option TypeExpr)
    (value : Expr) : Part.ahead test ∉ bindingParts isMut name ty value := by
  cases isMut <;> simp [bindingParts, ahead_not_mem_statedParts]

/-- A form looks ahead in these two ways only. -/
theorem Node.isLookahead_of_mem_forms : ∀ {n : Node} {ps : List Part}, ps ∈ n.forms →
    .ahead test ∈ ps → IsLookahead test
  | .expr (.cond _ _ no _), _, h, htest => by
    obtain rfl := List.mem_singleton.mp h
    cases no <;> simp_all [elseParts, IsLookahead]
  | .expr (.closure ..), _, h, htest => by
    obtain ⟨qs, hqs, rfl⟩ := List.mem_map.mp h
    rcases mem_closureForms.mp hqs with rfl | ⟨-, rfl⟩ <;>
      simp [ahead_not_mem_commaParts] at htest
  | .stmt (.expr ..), _, h, htest => by
    rcases mem_forms_exprStmt.mp h with rfl | ⟨-, rfl⟩
    · simp at htest
    · exact .inr (by simpa using htest)
  | .function _, _, h, htest => by
    obtain ⟨qs, hqs, rfl⟩ := List.mem_map.mp h
    rcases mem_genericForms.mp hqs with rfl | ⟨-, rfl⟩ <;>
      simp [ahead_not_mem_commaParts, ahead_not_mem_statedParts] at htest
  | .ident _, _, h, htest | .type (.path _), _, h, htest | .type (.arrow ..), _, h, htest
  | .param _, _, h, htest | .expr (.lit ..), _, h, htest | .expr (.var _), _, h, htest
  | .expr (.unary ..), _, h, htest | .expr (.call ..), _, h, htest
  | .expr (.binary ..), _, h, htest | .expr (.paren ..), _, h, htest
  | .expr (.block _), _, h, htest | .expr (.loop ..), _, h, htest
  | .block (.mk ..), _, h, htest | .stmt (.bind ..), _, h, htest | .stmt (.assign ..), _, h, htest
  | .stmt (.ret ..), _, h, htest | .binding _, _, h, htest | .root _, _, h, htest => by
    obtain rfl := List.mem_singleton.mp h
    simp [ahead_not_mem_commaParts, ahead_not_mem_statedParts, ahead_not_mem_bindingParts,
      entryParts] at htest

end Lookaheads

/-- A token that passes all tests can follow instead. -/
theorem Spells.follow (h : Spells At ps ts k) (hl : ∀ test, IsLookahead test → test l)
    (hps : ∀ test, .ahead test ∈ ps → IsLookahead test) : Spells At ps ts l := by
  induction h with
  | nil => exact .nil l
  | word _ ih => exact .word (ih fun test htest => hps test (.tail _ htest))
  | @ahead test ps ts k htest _ ih =>
    refine .ahead ?_ (ih fun test htest => hps test (.tail _ htest))
    cases ts with
    | nil => exact hl test (hps test List.mem_cons_self)
    | cons t ts => exact htest
  | @node n qs ps us ts k hform hat hn _ ihn ih =>
    refine .node hform hat ?_ (ih fun test htest => hps test (.tail _ htest))
    cases ts with
    | nil => exact ihn fun test htest => Node.isLookahead_of_mem_forms hform htest
    | cons t ts => exact hn

/-- So it can behind a node. -/
theorem Node.SpelledBy.follow {n : Node} (h : n.SpelledBy At ts k)
    (hl : ∀ test, IsLookahead test → test l) : n.SpelledBy At ts l := by
  obtain ⟨ps, hps, hat, hspells⟩ := h
  exact ⟨ps, hps, hat, hspells.follow hl fun test htest => Node.isLookahead_of_mem_forms hps htest⟩

/-! ## Entries -/

/-- Two spans that cover the same tokens are the same. -/
theorem Covers.unique {a b : Span} (ha : Covers a ts) (hb : Covers b ts) : a = b := by
  obtain ⟨first, hfirst, last, hlast, rfl⟩ := ha
  obtain ⟨first', hfirst', last', hlast', rfl⟩ := hb
  cases hfirst.symm.trans hfirst'
  cases hlast.symm.trans hlast'
  rfl

/-- An entry that does not start with one of three tokens passes all tests. -/
theorem TokenKind.StartsEntry.isLookahead (h : k.StartsEntry)
    (hk : k ∉ [TokenKind.lParen, .minus, .orOr]) : ∀ test, IsLookahead test → test k := by
  simp only [List.mem_cons, List.not_mem_nil, or_false, not_or] at hk
  have hne : k ≠ .kwElse ∧ Separates k := by
    rcases h with h | rfl | rfl
    · cases k <;> simp_all [Separates, Stops, Parser.infixOp?, TokenKind.StartsExpr]
    · simp [Separates, Stops, Parser.infixOp?]
    · simp [Separates, Stops, Parser.infixOp?]
  rintro _ (rfl | rfl)
  · exact hne.1
  · exact hne.2

/-- A statement that ends in a block, in a block with more behind it: its semicolon can go, unless
what follows starts with one of three tokens. -/
theorem Node.SpelledBy.without_semicolon {b : Block} {ss₁ ss₂ : List Stmt} {e : Expr} {span : Span}
    (h : (Node.block b).SpelledBy Covers ts k) (hstmts : b.stmts = ss₁ ++ .expr e span :: ss₂)
    (hblock : e.endsInBlock = true) (hsemi : span ≠ e.span) (hmore : ss₂ ≠ [] ∨ b.tail ≠ none) :
    ∃ opening us semi next vs, ts = opening :: (us ++ semi :: next :: vs) ∧
      semi.kind = .semicolon ∧ semi.span.stop = span.stop ∧
      (next.kind ∉ [TokenKind.lParen, .minus, .orOr] →
        (Node.block b).SpelledBy Syntax.anywhere (opening :: (us ++ next :: vs)) k) := by
  obtain ⟨stmts, tail, bspan⟩ := b
  obtain rfl : stmts = ss₁ ++ .expr e span :: ss₂ := hstmts
  have hparts : entryParts (ss₁ ++ .expr e span :: ss₂) tail =
      (ss₁.map Node.stmt).map .node ++ .node (.stmt (.expr e span)) :: entryParts ss₂ tail := by
    simp [entryParts]
  obtain ⟨opening, _, rfl, hopening, hts⟩ := Spells.word_iff.mp (h.of_form rfl)
  rw [hparts, List.append_assoc, List.cons_append] at hts
  obtain ⟨us, _, rfl, hus, hts⟩ := Spells.append_iff.mp hts
  obtain ⟨own, _, rfl, hown, hts⟩ := Spells.node_iff.mp hts
  obtain ⟨vs, ws, rfl, hvs, hws⟩ := Spells.append_iff.mp hts
  obtain ⟨next, vs, rfl, hnext⟩ := hvs.entries_cons hmore
  obtain ⟨qs, hqs, hat, hspells⟩ := hown
  -- the span tells that the statement has its semicolon
  rcases mem_forms_exprStmt.mp hqs with rfl | ⟨-, rfl⟩
  · obtain ⟨es, _, rfl, he, hsemi⟩ := Spells.node_iff.mp hspells
    obtain ⟨semi, _, rfl, hkind, hnil⟩ := Spells.word_iff.mp hsemi
    obtain rfl := Spells.nil_iff.mp hnil
    refine ⟨opening, us ++ es, semi, next, vs ++ ws, by simp, hkind, ?_, fun hfree => ?_⟩
    · obtain ⟨_, _, last, hlast, hspan⟩ := hat
      rw [List.getLast?_concat] at hlast
      cases hlast
      exact (congrArg Span.stop hspan).symm
    -- the statement without its semicolon, in front of the entry that follows
    have hstmt : (Node.stmt (.expr e span)).SpelledBy Syntax.anywhere es next.kind :=
      ⟨_, mem_forms_exprStmt.mpr (.inr ⟨hblock, rfl⟩), trivial, by
        rw [← List.append_nil es]
        exact .cons_node (he.anywhere.follow (hnext.isLookahead hfree))
          (.ahead (hnext.isLookahead hfree _ (.inr rfl)) (.nil _))⟩
    have hnextKind : nextKind (es ++ next :: (vs ++ ws)) k =
        nextKind ((es ++ [semi]) ++ (next :: vs ++ ws)) k := by
      obtain ⟨t, es, rfl, -⟩ := he.expr_cons
      rfl
    refine .mk rfl trivial (.cons_word hopening ?_)
    rw [hparts, List.append_assoc, List.append_assoc, List.cons_append]
    refine .append (by rw [hnextKind]; exact hus.anywhere) (.cons_node hstmt ?_)
    exact hvs.anywhere.append hws.anywhere
  · obtain ⟨es, _, rfl, he, hahead⟩ := Spells.node_iff.mp hspells
    obtain ⟨-, hnil⟩ := Spells.ahead_iff.mp hahead
    obtain rfl := Spells.nil_iff.mp hnil
    rw [List.append_nil] at hat
    exact (hsemi (hat.unique he.span)).elim

/-- The semicolon of a statement that ends in a block is optional, if more follows in the block:
with a blank in its place the same tree is read, up to the spans, unless the token behind the
semicolon is a parenthesis, a minus or two bars. -/
theorem parse_blot {src : String} {m : Module} (h : parse src = .ok m) {b : Block}
    (hb : (Node.root m).Holds (.block b)) {ss₁ ss₂ : List Stmt} {e : Expr} {span : Span}
    (hstmts : b.stmts = ss₁ ++ .expr e span :: ss₂) (hblock : e.endsInBlock = true)
    (hsemi : span ≠ e.span) (hmore : ss₂ ≠ [] ∨ b.tail ≠ none) :
    ∃ front back us semi next vs, src = front ++ ";" ++ back ∧
      (front ++ ";").utf8ByteSize = span.stop ∧
      tokens src = us ++ semi :: next :: vs ∧ semi.span = ⟨front.utf8ByteSize, span.stop⟩ ∧
      (next.kind ∉ [TokenKind.lParen, .minus, .orOr] →
        ∃ a, parse (front ++ " " ++ back) = .ok a ∧ a.spanless = m.spanless) := by
  obtain ⟨xs, own, ys, hts, hown, hreplace⟩ := (spelled_of_parse h).exists_held hb
  obtain ⟨opening, us, semi, next, vs, rfl, hkind, hstop, hfree⟩ :=
    hown.without_semicolon hstmts hblock hsemi hmore
  have htokens : tokens src = (xs ++ opening :: us) ++ semi :: (next :: (vs ++ ys)) := by simp [hts]
  obtain ⟨front, back, hsrc, hfront, hback, hblot⟩ := tokens_blot htokens hkind
  refine ⟨front, back, xs ++ opening :: us, semi, next, vs ++ ys, hsrc, by rw [← hback, hstop],
    htokens, ?_, fun hnext => ?_⟩
  · rw [← hfront, ← hstop]
  · -- the tokens without the semicolon spell the same tree, and it is the only one that they spell
    have hroot := hreplace _ (hfree hnext) rfl
    refine parse_of_spelled ?_ hroot (shaped_of_parse h) (depth_le_of_parse h)
    rw [hblot]
    simp

/-! ## A loop in front of other entries -/

/-- A function whose block begins with a loop, with a separator and an entry behind it. -/
def whileText (separator entry : String) : String :=
  "fn f() \x7b while c \x7b \x7d " ++ separator ++ " " ++ entry ++ " \x7d"

/-- The loop in it. -/
def whileLoop : Expr :=
  .loop (.var ⟨"c", ⟨15, 16⟩⟩) (.mk [] none ⟨17, 20⟩) ⟨9, 20⟩

/-- The tree of such a text, by the statements and the value of its block. -/
def whileModule (stmts : List Stmt) (tail : Expr) (stop : Nat) : Module :=
  ⟨[.function ⟨⟨"f", ⟨3, 4⟩⟩, [], [], none, .mk stmts (some tail) ⟨7, stop⟩, ⟨0, stop⟩⟩], ⟨0, stop⟩⟩

/-- The loop and a name behind it. -/
theorem parse_while_name : parse (whileText ";" "x") =
    .ok (whileModule [.expr whileLoop ⟨9, 22⟩] (.var ⟨"x", ⟨23, 24⟩⟩) 26) := by
  rw [parse_eq_within (show (whileText ";" "x").toList.length < 32 by decide)]
  rfl

/-- The semicolon behind the loop can go. -/
theorem parse_blot_while : ∃ front back us semi next vs,
    whileText ";" "x" = front ++ ";" ++ back ∧ (front ++ ";").utf8ByteSize = 22 ∧
      tokens (whileText ";" "x") = us ++ semi :: next :: vs ∧
      semi.span = ⟨front.utf8ByteSize, 22⟩ ∧
      (next.kind ∉ [TokenKind.lParen, .minus, .orOr] →
        ∃ a, parse (front ++ " " ++ back) = .ok a ∧ a.spanless =
          (whileModule [.expr whileLoop ⟨9, 22⟩] (.var ⟨"x", ⟨23, 24⟩⟩) 26).spanless) := by
  have hholds : (Node.root (whileModule [.expr whileLoop ⟨9, 22⟩] (.var ⟨"x", ⟨23, 24⟩⟩) 26)).Holds
      (.block (.mk ([] ++ [.expr whileLoop ⟨9, 22⟩]) (some (.var ⟨"x", ⟨23, 24⟩⟩)) ⟨7, 26⟩)) :=
    .of_child (List.mem_singleton_self _) (.child (.tail _ (List.mem_singleton_self _)))
  exact parse_blot parse_while_name hholds rfl rfl (by decide) (.inr nofun)

/-- Behind the loop an entry needs the semicolon: with a blank instead another tree is read. -/
def NeedsSemicolon (entry : String) : Prop :=
  ∃ tail stop a, parse (whileText ";" entry) =
      .ok (whileModule [.expr whileLoop ⟨9, 22⟩] tail stop) ∧
    parse (whileText " " entry) = .ok a ∧
    a.spanless ≠ (whileModule [.expr whileLoop ⟨9, 22⟩] tail stop).spanless

/-- A block without the loop among its statements is another one. -/
theorem spanless_whileModule_ne (s : Stmt) (t t' : Expr) (n n' : Nat) :
    (whileModule [] t n).spanless ≠ (whileModule [s] t' n').spanless := by
  intro h
  have hitems := congrArg Module.items h
  simp only [whileModule, Module.spanless, List.map_cons, List.cons.injEq, Item.spanless,
    FnDecl.spanless, Item.function.injEq, FnDecl.mk.injEq, Block.spanless, Block.mk.injEq] at hitems
  exact List.cons_ne_nil _ _ hitems.1.2.2.2.2.1.1.symm

/-- Parentheses, a minus and a closure without parameters need it, though a block may begin with
each of them. -/
theorem exists_needed_semicolons :
    NeedsSemicolon "(x)" ∧ NeedsSemicolon "-x" ∧ NeedsSemicolon "|| x" := by
  refine ⟨⟨.paren (.var ⟨"x", ⟨24, 25⟩⟩) ⟨23, 26⟩, 28,
      whileModule [] (.call whileLoop [.var ⟨"x", ⟨24, 25⟩⟩] ⟨9, 26⟩) 28, ?_, ?_, ?_⟩,
    ⟨.unary .neg (.var ⟨"x", ⟨24, 25⟩⟩) ⟨23, 25⟩, 27,
      whileModule [] (.binary .sub whileLoop (.var ⟨"x", ⟨24, 25⟩⟩) ⟨9, 25⟩) 27, ?_, ?_, ?_⟩,
    ⟨.closure [] (.var ⟨"x", ⟨26, 27⟩⟩) ⟨23, 27⟩, 29,
      whileModule [] (.binary .or whileLoop (.var ⟨"x", ⟨26, 27⟩⟩) ⟨9, 27⟩) 29, ?_, ?_, ?_⟩⟩
  · rw [parse_eq_within (show (whileText ";" "(x)").toList.length < 32 by decide)]
    rfl
  · rw [parse_eq_within (show (whileText " " "(x)").toList.length < 32 by decide)]
    rfl
  · exact spanless_whileModule_ne _ _ _ _ _
  · rw [parse_eq_within (show (whileText ";" "-x").toList.length < 32 by decide)]
    rfl
  · rw [parse_eq_within (show (whileText " " "-x").toList.length < 32 by decide)]
    rfl
  · exact spanless_whileModule_ne _ _ _ _ _
  · rw [parse_eq_within (show (whileText ";" "|| x").toList.length < 32 by decide)]
    rfl
  · rw [parse_eq_within (show (whileText " " "|| x").toList.length < 32 by decide)]
    rfl
  · exact spanless_whileModule_ne _ _ _ _ _

end ClosureEnv.Syntax
