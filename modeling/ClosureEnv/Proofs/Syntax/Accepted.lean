import ClosureEnv.Proofs.Syntax.Takes

/-!
# What the grammar writes is read

Tokens that spell a module are read as that module, up to the spans, if its operands stand where the
grammar reads them as such and its levels are no more than may nest: `parse_of_spelled`. For
expressions this goes along the left edge (`Reads.spine`): the parser has read the left operand or
the callee when it meets the operator or the parenthesis, so what it does with the tokens of an
expression and those behind them is what the loop over operators does with the latter, once it holds
the expression. The levels are counted down by an induction of their own.
-/

namespace ClosureEnv.Syntax

open ClosureEnv.Syntax.Parser

variable {At : Span → List Token → Prop} {ts : List Token} {k : TokenKind}

/-! ## Expressions -/

/-- Expressions without spans are each without its spans. -/
theorem exprsSpanless_eq (es : List Expr) : exprsSpanless es = es.map Expr.spanless := by
  induction es with
  | nil => rfl
  | cons e es ih => rw [exprsSpanless, ih, List.map_cons]

/-- Expressions are shaped if each is. -/
theorem exprsShaped_iff {es : List Expr} : exprsShaped es ↔ ∀ e ∈ es, e.Shaped := by
  induction es with
  | nil => simp [exprsShaped]
  | cons e es ih => simp [exprsShaped, ih]

/-- Statements are shaped if each is. -/
theorem stmtsShaped_iff {ss : List Stmt} : stmtsShaped ss ↔ ∀ s ∈ ss, s.Shaped := by
  induction ss with
  | nil => simp [stmtsShaped]
  | cons s ss ih => simp [stmtsShaped, ih]

/-- An expression that may be there is shaped if it is one that is. -/
theorem optionShaped_iff {tail : Option Expr} : optionShaped tail ↔ ∀ e ∈ tail, e.Shaped := by
  cases tail <;> simp [optionShaped]

/-- Expressions have as many levels as the one that has most. -/
theorem exprsDepth_le_iff {es : List Expr} {room : Nat} :
    exprsDepth es ≤ room ↔ ∀ e ∈ es, e.within < room := by
  induction es with
  | nil => simp [exprsDepth]
  | cons e es ih => rw [exprsDepth, Nat.max_le, ih, List.forall_mem_cons, Nat.add_one_le_iff]

/-- Statements have as many levels as the one that has most. -/
theorem stmtsDepth_le_iff {ss : List Stmt} {room : Nat} :
    stmtsDepth ss ≤ room ↔ ∀ s ∈ ss, s.depth ≤ room := by
  induction ss with
  | nil => simp [stmtsDepth]
  | cons s ss ih => rw [stmtsDepth, Nat.max_le, ih, List.forall_mem_cons]

/-- An expression that may be there has the levels that it has if it is there. -/
theorem optionDepth_le_iff {tail : Option Expr} {room : Nat} :
    optionDepth tail ≤ room ↔ ∀ e ∈ tail, e.within < room := by
  cases tail with
  | none => simp [optionDepth]
  | some e => exact Nat.add_one_le_iff.trans (by simp)

/-- The tokens that an expression may start with. -/
def TokenKind.StartsExpr : TokenKind → Prop
  | .ident _ | .int _ | .str _ | .kwTrue | .kwFalse | .kwNil | .bang | .minus | .lParen | .lBrace
  | .kwIf | .kwWhile | .pipe | .orOr => True
  | _ => False

namespace Node.SpelledBy

/-- A block starts with a brace. -/
theorem block_cons {b : Block} (h : (Node.block b).SpelledBy At ts k) :
    ∃ t us, ts = t :: us ∧ t.kind = .lBrace := by
  cases b
  obtain ⟨t, us, rfl, ht, -⟩ := Spells.word_iff.mp (h.of_form rfl)
  exact ⟨t, us, rfl, ht⟩

/-- The parameters of a closure start with a bar, and its body follows. -/
theorem closure_iff {params : List Param} {body : Expr} {span : Span}
    (h : (Node.expr (.closure params body span)).SpelledBy At ts k) :
    ∃ ps ∈ closureForms params, ∃ us vs, ts = us ++ vs ∧ Spells At ps us (nextKind vs k) ∧
      (Node.expr body).SpelledBy At vs k := by
  obtain ⟨_, hform, -, h⟩ := h
  obtain ⟨ps, hps, rfl⟩ := List.mem_map.mp hform
  obtain ⟨us, vs, rfl, hus, hvs⟩ := Spells.append_iff.mp h
  exact ⟨ps, hps, us, vs, rfl, hus, Spells.single_iff.mp hvs⟩

/-- An expression starts with one of these. -/
theorem expr_cons : ∀ {e : Expr} {ts : List Token} {k : TokenKind},
    (Node.expr e).SpelledBy At ts k → ∃ t us, ts = t :: us ∧ t.kind.StartsExpr
  | .lit v _, _, _, h => by
    obtain ⟨t, us, rfl, ht, -⟩ := Spells.word_iff.mp (h.of_form rfl)
    refine ⟨t, us, rfl, ht ▸ ?_⟩
    cases v with
    | bool b => cases b <;> trivial
    | _ => trivial
  | .var name, _, _, h => by
    obtain ⟨t, rfl, ht⟩ := (Spells.single_iff.mp (h.of_form rfl)).ident
    exact ⟨t, [], rfl, ht ▸ trivial⟩
  | .unary op _ _, _, _, h => by
    obtain ⟨t, us, rfl, ht, -⟩ := Spells.word_iff.mp (h.of_form rfl)
    exact ⟨t, us, rfl, ht ▸ by cases op <;> trivial⟩
  | .call callee _ _, _, _, h => by
    obtain ⟨us, vs, rfl, hcallee, -⟩ := Spells.node_iff.mp (h.of_form rfl)
    obtain ⟨t, us, rfl, ht⟩ := expr_cons hcallee
    exact ⟨t, us ++ vs, rfl, ht⟩
  | .binary _ lhs _ _, _, _, h => by
    obtain ⟨us, vs, rfl, hlhs, -⟩ := Spells.node_iff.mp (h.of_form rfl)
    obtain ⟨t, us, rfl, ht⟩ := expr_cons hlhs
    exact ⟨t, us ++ vs, rfl, ht⟩
  | .block body, _, _, h => by
    obtain ⟨t, us, rfl, ht⟩ := (Spells.single_iff.mp (h.of_form rfl)).block_cons
    exact ⟨t, us, rfl, ht ▸ trivial⟩
  | .closure .., _, _, h => by
    obtain ⟨ps, hps, us, vs, rfl, hus, -⟩ := h.closure_iff
    rcases mem_closureForms.mp hps with rfl | ⟨-, rfl⟩ <;>
    · obtain ⟨t, us, rfl, ht, -⟩ := Spells.word_iff.mp hus
      exact ⟨t, us ++ vs, rfl, ht ▸ trivial⟩
  | .paren .., _, _, h | .cond .., _, _, h | .loop .., _, _, h => by
    obtain ⟨t, us, rfl, ht, -⟩ := Spells.word_iff.mp (h.of_form rfl)
    exact ⟨t, us, rfl, ht ▸ trivial⟩

end Node.SpelledBy

/-- A token that an entry of a block may start with. -/
def TokenKind.StartsEntry (k : TokenKind) : Prop :=
  k.StartsExpr ∨ k = .kwLet ∨ k = .kwReturn

/-- No entry starts like this. -/
theorem TokenKind.StartsEntry.ne {k l : TokenKind} (h : k.StartsEntry)
    (hl : l ∈ [TokenKind.rBrace, .eq, .semicolon]) : k ≠ l := by
  simp only [List.mem_cons, List.not_mem_nil, or_false] at hl
  rintro rfl
  rcases hl with rfl | rfl | rfl <;> rcases h with h | h | h <;> cases h

/-- A statement starts with one of these. -/
theorem Node.SpelledBy.stmt_cons {s : Stmt} (h : (Node.stmt s).SpelledBy At ts k) :
    ∃ t us, ts = t :: us ∧ t.kind.StartsEntry := by
  cases s with
  | bind =>
    obtain ⟨t, us, rfl, ht, -⟩ := Spells.word_iff.mp (h.of_form rfl)
    exact ⟨t, us, rfl, .inr (.inl ht)⟩
  | assign =>
    obtain ⟨us, vs, rfl, hus, -⟩ := Spells.node_iff.mp (h.of_form rfl)
    obtain ⟨t, rfl, ht⟩ := hus.ident
    exact ⟨t, vs, rfl, .inl (ht ▸ trivial)⟩
  | expr =>
    obtain ⟨ps, hps, -, h⟩ := h
    rcases mem_forms_exprStmt.mp hps with rfl | ⟨-, rfl⟩ <;>
    · obtain ⟨us, vs, rfl, hus, -⟩ := Spells.node_iff.mp h
      obtain ⟨t, us, rfl, ht⟩ := hus.expr_cons
      exact ⟨t, us ++ vs, rfl, .inl ht⟩
  | ret =>
    obtain ⟨t, us, rfl, ht, -⟩ := Spells.word_iff.mp (h.of_form rfl)
    exact ⟨t, us, rfl, .inr (.inr ht)⟩

/-- Some entries of a block start like the first of them. -/
theorem Spells.entries_cons {ss : List Stmt} {tail : Option Expr}
    (h : Spells At (entryParts ss tail) ts k) (hne : ss ≠ [] ∨ tail ≠ none) :
    ∃ t us, ts = t :: us ∧ t.kind.StartsEntry := by
  cases ss with
  | cons s ss =>
    obtain ⟨us, vs, rfl, hs, -⟩ := Spells.node_iff.mp h
    obtain ⟨t, us, rfl, ht⟩ := hs.stmt_cons
    exact ⟨t, us ++ vs, rfl, ht⟩
  | nil =>
    cases tail with
    | none => exact (hne.elim (· rfl) (· rfl)).elim
    | some e =>
      obtain ⟨t, us, rfl, ht⟩ := (Spells.single_iff.mp h).expr_cons
      exact ⟨t, us, rfl, .inl ht⟩

/-- What follows a statement in a block starts another entry or is the closing brace. -/
theorem Spells.nextKind_entries {ss : List Stmt} {tail : Option Expr}
    (h : Spells At (entryParts ss tail) ts .rBrace) :
    nextKind ts .rBrace = .rBrace ∨ (nextKind ts .rBrace).StartsEntry := by
  by_cases hne : ss = [] ∧ tail = none
  · obtain ⟨rfl, rfl⟩ := hne
    obtain rfl := Spells.nil_iff.mp h
    exact .inl rfl
  · obtain ⟨t, us, rfl, ht⟩ := h.entries_cons (Classical.not_and_iff_not_or_not.mp hne)
    exact .inr ht

/-- Whether an expression ends in a block is told without its spans. -/
theorem Expr.endsInBlock_spanless (e : Expr) : e.spanless.endsInBlock = e.endsInBlock := by
  cases e <;> rfl

namespace Parser.Level

/-- The parsers of a level read what has at most `room` levels. -/
structure Reads (At : Span → List Token → Prop) (inner : Level) (room : Nat) : Prop where
  /-- An expression. -/
  expr : ∀ {e : Expr} {least : Nat} {ts : List Token} {k : TokenKind},
    (Node.expr e).SpelledBy At ts k → e.Shaped → e.within < room →
    (∀ p ∈ e.power?, least ≤ p) → e.Admits k → Stops least k →
    Takes (inner.expr least) ts k fun a => a.spanless = e.spanless
  /-- A block. -/
  block : ∀ {b : Block} {ts : List Token} {k : TokenKind},
    (Node.block b).SpelledBy At ts k → b.Shaped → b.depth ≤ room →
    Takes inner.block ts k fun a => a.spanless = b.spanless

namespace Reads

variable {inner : Level} {room : Nat}

/-- A whole expression, up to a token that no expression goes on with. -/
theorem expr_zero (h : inner.Reads At room) {e : Expr} (he : (Node.expr e).SpelledBy At ts k)
    (hshaped : e.Shaped) (hroom : e.within < room) (hk : Stops 0 k) :
    Takes (inner.expr 0) ts k fun a => a.spanless = e.spanless :=
  h.expr he hshaped hroom (fun _ _ => Nat.zero_le _) (hk.admits e) hk

/-- A whole expression, in front of a block. -/
theorem expr_brace (h : inner.Reads At room) {e : Expr} {b : Block} {us : List Token}
    {l : TokenKind} (hb : (Node.block b).SpelledBy At us l)
    (he : (Node.expr e).SpelledBy At ts (nextKind us k)) (hshaped : e.Shaped)
    (hroom : e.within < room) :
    Takes (inner.expr 0) ts (nextKind us k) fun a => a.spanless = e.spanless := by
  obtain ⟨t, us, rfl, ht⟩ := hb.block_cons
  refine h.expr_zero he hshaped hroom ?_
  rw [nextKind_cons, ht]
  exact ⟨nofun, nofun⟩

/-- A conditional. -/
theorem condIn (h : inner.Reads At room) {bound : Nat} {e : Expr} {test : Expr} {yes : Block}
    {no : Option Expr} {span : Span} (he : e = .cond test yes no span)
    (hspelled : (Node.expr e).SpelledBy At ts k) (hshaped : e.Shaped) (hroom : e.within ≤ room)
    (hbound : ts.length ≤ bound) :
    Takes (condIn inner bound) ts k fun a => a.spanless = e.spanless := by
  induction bound generalizing e test yes no span ts with
  | zero =>
    obtain ⟨t, us, rfl, -⟩ := hspelled.expr_cons
    cases hbound
  | succ bound ih =>
    subst he
    obtain ⟨htest, hyes, hno, hnoShaped⟩ := hshaped
    rw [Expr.within, Nat.max_le, Nat.max_le] at hroom
    obtain ⟨hroomTest, hroomYes, hroomNo⟩ := hroom
    obtain ⟨kw, _, rfl, hkw, hspelled⟩ := Spells.word_iff.mp (hspelled.of_form rfl)
    obtain ⟨us, _, rfl, hus, hspelled⟩ := Spells.node_iff.mp hspelled
    obtain ⟨vs, ws, rfl, hvs, hspelled⟩ := Spells.node_iff.mp hspelled
    rw [nextKind_append] at hus
    simp only [List.length_cons, List.length_append] at hbound
    refine Takes.expect_bind hkw nofun fun kw => ?_
    have htestTakes := h.expr_brace hvs hus htest hroomTest
    rw [← nextKind_append] at htestTakes
    refine htestTakes.bind fun test' htest' => (h.block hvs hyes hroomYes).bind fun yes' hyes' => ?_
    -- behind an `else` there is a block or another conditional, and the latter takes the recursion
    cases no with
    | none =>
      obtain ⟨helse, hnil⟩ := Spells.ahead_iff.mp hspelled
      obtain rfl := Spells.nil_iff.mp hnil
      refine Takes.no_eat_bind helse (.pure ?_)
      simp only [Expr.spanless, optionSpanless, htest', hyes']
    | some no =>
      have hfinish (no' : Expr) (hno' : no'.spanless = no.spanless) :
          (Expr.cond test' yes' (some no') (kw.span.to no'.span)).spanless =
            (Expr.cond test yes (some no) span).spanless := by
        simp only [Expr.spanless, optionSpanless, htest', hyes', hno']
      obtain ⟨kwElse, us', rfl, hkwElse, hspelled⟩ := Spells.word_iff.mp hspelled
      replace hspelled := Spells.single_iff.mp hspelled
      rw [List.length_cons] at hbound
      refine Takes.eat_bind hkwElse fun _ => Takes.check_bind ?_
      cases no with
      | block b =>
        have hb := Spells.single_iff.mp (hspelled.of_form rfl)
        have hnot : (nextKind us' k == .kwIf) = false := by
          obtain ⟨t, us', rfl, ht⟩ := hb.block_cons
          rw [nextKind_cons, ht]
          rfl
        rw [hnot, if_neg Bool.false_ne_true]
        have hblock := (h.block hb hnoShaped hroomNo).map (g := Expr.block)
          (S := fun a => a.spanless = (Expr.block b).spanless) fun a ha => congrArg Expr.block ha
        exact hblock.bind_pure hfinish
      | cond test₂ yes₂ no₂ span₂ =>
        have hif : (nextKind us' k == .kwIf) = true := by
          obtain ⟨t, us', rfl, ht, -⟩ := Spells.word_iff.mp (hspelled.of_form rfl)
          rw [nextKind_cons, ht]
          rfl
        rw [hif, if_pos rfl]
        exact (ih rfl hspelled hnoShaped hroomNo (by omega)).bind_pure hfinish
      | _ => exact (hno _ rfl).elim

/-- A loop. -/
theorem loop (h : inner.Reads At room) {test : Expr} {body : Block} {span : Span}
    (hspelled : (Node.expr (.loop test body span)).SpelledBy At ts k)
    (hshaped : (Expr.loop test body span).Shaped)
    (hroom : (Expr.loop test body span).within ≤ room) :
    Takes (loop inner) ts k fun a => a.spanless = (Expr.loop test body span).spanless := by
  obtain ⟨htest, hbody⟩ := hshaped
  rw [Expr.within, Nat.max_le] at hroom
  obtain ⟨kw, _, rfl, hkw, hspelled⟩ := Spells.word_iff.mp (hspelled.of_form rfl)
  obtain ⟨us, vs, rfl, hus, hvs⟩ := Spells.node_iff.mp hspelled
  replace hvs := Spells.single_iff.mp hvs
  refine Takes.expect_bind hkw nofun fun kw => ?_
  refine (h.expr_brace hvs hus htest hroom.1).bind fun test' htest' =>
    (h.block hvs hbody hroom.2).bind_pure fun body' hbody' => ?_
  simp only [Expr.spanless, htest', hbody']

/-- The parameters of a closure. -/
theorem takes_closureParams {params : List Param} {ps : List Part}
    (hps : ps ∈ closureForms params) (h : Spells At ps ts k) :
    Takes closureParams ts k fun as => as.map Param.spanless = params.map Param.spanless := by
  rcases mem_closureForms.mp hps with rfl | ⟨rfl, rfl⟩
  · obtain ⟨opening, _, rfl, hopening, h⟩ := Spells.word_iff.mp h
    obtain ⟨us, _, rfl, hus, h⟩ := Spells.append_iff.mp h
    obtain ⟨close, _, rfl, hclose, h⟩ := Spells.word_iff.mp h
    obtain rfl := Spells.nil_iff.mp h
    have hparams : Takes (commaList .pipe param) us close.kind
        fun as => as.map Param.spanless = params.map Param.spanless := by
      rw [nextKind_cons, hclose] at hus
      rw [hclose]
      exact takes_params hus nofun nofun nofun
    refine Takes.no_eat_bind (by rw [nextKind_cons, hopening]; nofun) ?_
    exact Takes.expect_bind hopening nofun fun _ => hparams.bind fun as has =>
      Takes.expect_bind hclose nofun fun _ => .pure has
  · obtain ⟨t, _, rfl, ht, h⟩ := Spells.word_iff.mp h
    obtain rfl := Spells.nil_iff.mp h
    exact Takes.eat_bind ht fun _ => .pure rfl

/-- A closure. -/
theorem closure (h : inner.Reads At room) {params : List Param} {body : Expr} {span : Span}
    (hspelled : (Node.expr (.closure params body span)).SpelledBy At ts k)
    (hshaped : (Expr.closure params body span).Shaped)
    (hroom : (Expr.closure params body span).within ≤ room)
    (hk : (Expr.closure params body span).Admits k) :
    Takes (closure inner) ts k fun a => a.spanless = (Expr.closure params body span).spanless := by
  obtain ⟨ps, hps, us, vs, rfl, hus, hvs⟩ := hspelled.closure_iff
  refine Takes.peek_bind fun _ _ => (takes_closureParams hps hus).bind fun params' hparams =>
    (h.expr_zero hvs hshaped hroom hk.1).bind_pure fun body' hbody => ?_
  simp only [Expr.spanless, hparams, hbody]

/-- An operand. -/
theorem operand (h : inner.Reads At room) {e : Expr} (hspelled : (Node.expr e).SpelledBy At ts k)
    (hshaped : e.Shaped) (hroom : e.within ≤ room) (hk : e.Admits k) (hpower : e.power? = none)
    (hcall : ∀ callee args span, e ≠ .call callee args span) :
    Takes (operand inner) ts k fun a => a.spanless = e.spanless := by
  -- the parser goes by the first token, which tells the kind of the operand
  refine Takes.peek_bind fun tok htok => ?_
  cases e with
  | lit v span =>
    obtain ⟨t, _, rfl, ht, hnil⟩ := Spells.word_iff.mp (hspelled.of_form rfl)
    obtain rfl := Spells.nil_iff.mp hnil
    have hlit : literal? tok.kind = some v := by
      rw [htok, nextKind_cons, ht]
      cases v with
      | bool b => cases b <;> rfl
      | _ => rfl
    rw [hlit]
    exact Takes.advance_bind fun _ _ => .pure rfl
  | var name =>
    have hname := Spells.single_iff.mp (hspelled.of_form rfl)
    have hkind : tok.kind = .ident name.text := by
      obtain ⟨t, rfl, ht⟩ := hname.ident
      rw [htok, nextKind_cons, ht]
    rw [hkind]
    exact (takes_ident hname).map fun a ha => congrArg Expr.var ha
  | unary op x span =>
    obtain ⟨t, us, rfl, ht, hx⟩ := Spells.word_iff.mp (hspelled.of_form rfl)
    have hpower : ∀ p ∈ x.power?, prefixPower ≤ p := by rw [hshaped.1]; nofun
    have hx := h.expr (Spells.single_iff.mp hx) hshaped.2 hroom hpower hk.2 hk.1
    rw [nextKind_cons, ht] at htok
    rw [htok]
    cases op with
    | not | neg =>
      refine Takes.advance_bind fun _ _ => hx.bind_pure fun x' hx' => ?_
      simp only [Expr.spanless, hx']
  | call callee args span => exact (hcall _ _ _ rfl).elim
  | binary => cases hpower
  | paren x span =>
    obtain ⟨opening, _, rfl, hopening, hspelled⟩ := Spells.word_iff.mp (hspelled.of_form rfl)
    obtain ⟨us, _, rfl, hus, hspelled⟩ := Spells.node_iff.mp hspelled
    obtain ⟨close, _, rfl, hclose, hnil⟩ := Spells.word_iff.mp hspelled
    obtain rfl := Spells.nil_iff.mp hnil
    rw [nextKind_cons, hopening] at htok
    rw [htok]
    refine Takes.advance_bind fun _ _ => ?_
    have hx := h.expr_zero hus hshaped hroom (by rw [nextKind_cons, hclose]; exact ⟨nofun, nofun⟩)
    refine hx.bind fun x' hx' => Takes.expect_bind hclose nofun fun _ => .pure ?_
    simp only [Expr.spanless, hx']
  | block b =>
    have hb := Spells.single_iff.mp (hspelled.of_form rfl)
    have hkind : tok.kind = .lBrace := by
      obtain ⟨t, us, rfl, ht⟩ := hb.block_cons
      rw [htok, nextKind_cons, ht]
    rw [hkind]
    exact (h.block hb hshaped hroom).map fun a ha => congrArg Expr.block ha
  | cond test yes no span =>
    have hkind : tok.kind = .kwIf := by
      obtain ⟨t, us, rfl, ht, -⟩ := Spells.word_iff.mp (hspelled.of_form rfl)
      rw [htok, nextKind_cons, ht]
    rw [hkind]
    exact Takes.remaining_bind fun n hn => h.condIn rfl hspelled hshaped hroom hn
  | loop test body span =>
    have hkind : tok.kind = .kwWhile := by
      obtain ⟨t, us, rfl, ht, -⟩ := Spells.word_iff.mp (hspelled.of_form rfl)
      rw [htok, nextKind_cons, ht]
    rw [hkind]
    exact h.loop hspelled hshaped hroom
  | closure params body span =>
    have hclosure := h.closure hspelled hshaped hroom hk
    have hkind : tok.kind = .pipe ∨ tok.kind = .orOr := by
      obtain ⟨ps, hps, us, vs, rfl, hus, -⟩ := hspelled.closure_iff
      rcases mem_closureForms.mp hps with rfl | ⟨-, rfl⟩ <;>
      · obtain ⟨t, us, rfl, ht, -⟩ := Spells.word_iff.mp hus
        rw [htok, List.cons_append, nextKind_cons, ht]
        simp
    rcases hkind with hkind | hkind <;> rw [hkind] <;> exact hclosure

/-- The loop over operators meets a parenthesis. -/
theorem operators_call (h : inner.Reads At room) {callee : Expr} {args : List Expr}
    (hshaped : exprsShaped args) (hroom : exprsDepth args ≤ room) {least bound : Nat}
    {opening close : Token} {us : List Token} (hopening : opening.kind = .lParen)
    (hclose : close.kind = .rParen)
    (hargs : Spells At (commaParts (args.map .expr)) us .rParen) {S : Expr → Prop}
    (hrest : ∀ args' span, exprsSpanless args' = exprsSpanless args →
      Takes (operators inner least bound (.call callee args' span)) ts k S) :
    Takes (operators inner least (bound + 1) callee) (opening :: (us ++ close :: ts)) k S := by
  refine Takes.peek_bind fun tok htok => ?_
  dsimp only
  rw [htok, nextKind_cons, hopening, if_pos (beq_iff_eq.mpr rfl), Level.call]
  simp only [bind_assoc, pure_bind]
  have hlist : Takes (commaList .rParen (inner.expr 0)) us close.kind
      fun as => as.map Expr.spanless = args.map Expr.spanless := by
    rw [hclose]
    refine takes_commaList nofun (fun e _ vs l hvs => ?_) (fun e he vs l hvs _ hl => ?_) hargs
    · obtain ⟨t, vs, rfl, ht⟩ := hvs.expr_cons
      exact ⟨t, vs, rfl, fun he => by rw [he] at ht; exact ht⟩
    · have hlt := exprsDepth_le_iff.mp hroom e he
      refine h.expr_zero hvs (exprsShaped_iff.mp hshaped e he) hlt ?_
      rcases hl with rfl | rfl <;> exact ⟨nofun, nofun⟩
  refine Takes.expect_bind hopening nofun fun _ => hlist.bind fun as has => ?_
  refine Takes.expect_bind hclose nofun fun _ => ?_
  exact hrest as _ (by rw [exprsSpanless_eq, exprsSpanless_eq, has])

/-- The loop over operators meets an operator. -/
theorem operators_binary {op : BinaryOp} {lhs rhs : Expr} {least bound : Nat}
    (hleast : least ≤ op.power) {t : Token} (ht : t.kind = op.kind) {us : List Token}
    (hrhs : Takes (inner.expr (op.power + 1)) us (nextKind ts k)
      fun a => a.spanless = rhs.spanless) {S : Expr → Prop}
    (hrest : ∀ rhs' span, rhs'.spanless = rhs.spanless →
      Takes (operators inner least bound (.binary op lhs rhs' span)) ts k S) :
    Takes (operators inner least (bound + 1) lhs) (t :: (us ++ ts)) k S := by
  refine Takes.peek_bind fun tok htok => ?_
  rw [nextKind_cons, ht] at htok
  dsimp only
  rw [htok, if_neg (mt beq_iff_eq.mp op.kind_ne_lParen), infixOp?_kind]
  dsimp only
  rw [if_neg (Nat.not_lt.mpr hleast)]
  exact Takes.advance_bind fun _ _ => hrhs.bind fun rhs' hrhs' => hrest rhs' _ hrhs'

/-- What a level makes of an expression and the tokens behind it is what the loop over operators
makes of the latter. -/
theorem spine (h : inner.Reads At room) {least : Nat} : ∀ {e : Expr} {us ts : List Token},
    (Node.expr e).SpelledBy At us (nextKind ts k) → e.Shaped → e.within ≤ room →
    (∀ p ∈ e.power?, least ≤ p) → ∀ {S : Expr → Prop}, e.Admits (nextKind ts k) →
    (∀ e' n, e'.spanless = e.spanless → ts.length ≤ n → Takes (operators inner least n e') ts k S) →
    Takes (exprBody inner least) (us ++ ts) k S
  | .binary op lhs rhs span, _, ts, hspelled, hshaped, hroom, hpower, S, hadmits, hrest => by
    obtain ⟨⟨hlhs, hclosure, hlhsShaped⟩, hrhs, hrhsShaped⟩ := hshaped
    -- the left operand is read first, and what is left for the loop starts with the operator
    have hleast := hpower _ rfl
    rw [Expr.within, Nat.max_le] at hroom
    obtain ⟨us, _, rfl, hus, hspelled⟩ := Spells.node_iff.mp (hspelled.of_form rfl)
    obtain ⟨t, vs, rfl, ht, hspelled⟩ := Spells.word_iff.mp hspelled
    have hvs := Spells.single_iff.mp hspelled
    rw [nextKind_cons] at hus
    rw [List.append_assoc, List.cons_append]
    refine spine h (by rwa [nextKind_cons]) hlhsShaped hroom.1
      (fun p hp => Nat.le_trans hleast (hlhs p hp)) ?_ fun lhs' n hlhs' hn => ?_
    · rw [nextKind_cons, ht]
      exact Expr.admits_of_power hlhs hclosure hlhsShaped
    obtain ⟨n, rfl⟩ := Nat.exists_eq_succ_of_ne_zero (Nat.ne_of_gt (Nat.zero_lt_of_lt hn))
    refine operators_binary hleast ht
      (h.expr hvs hrhsShaped hroom.2 hrhs hadmits.2 hadmits.1) fun rhs' span' hrhs' => ?_
    refine hrest _ n ?_ ?_
    · simp only [Expr.spanless, hlhs', hrhs']
    · simp only [List.length_cons, List.length_append] at hn
      omega
  | .call callee args span, _, ts, hspelled, hshaped, hroom, _, S, _, hrest => by
    obtain ⟨hcallee, hcalleeShaped, hargs⟩ := hshaped
    rw [Expr.within, Nat.max_le] at hroom
    obtain ⟨us, _, rfl, hus, hspelled⟩ := Spells.node_iff.mp (hspelled.of_form rfl)
    obtain ⟨opening, _, rfl, hopening, hspelled⟩ := Spells.word_iff.mp hspelled
    obtain ⟨vs, _, rfl, hvs, hspelled⟩ := Spells.append_iff.mp hspelled
    obtain ⟨close, _, rfl, hclose, hnil⟩ := Spells.word_iff.mp hspelled
    obtain rfl := Spells.nil_iff.mp hnil
    rw [nextKind_cons] at hus
    rw [nextKind_cons, hclose] at hvs
    simp only [List.append_assoc, List.cons_append, List.nil_append]
    refine spine h (by rwa [nextKind_cons]) hcalleeShaped hroom.1 ?_ ?_
      fun callee' n hcallee' hn => ?_
    · cases callee with
      | binary => exact hcallee.elim
      | _ => nofun
    · rw [nextKind_cons, hopening]
      exact callee.admits_lParen_iff.mpr hcallee
    obtain ⟨n, rfl⟩ := Nat.exists_eq_succ_of_ne_zero (Nat.ne_of_gt (Nat.zero_lt_of_lt hn))
    refine h.operators_call hargs hroom.2 hopening hclose hvs fun args' span' hargs' =>
      hrest _ n ?_ ?_
    · simp only [Expr.spanless, hcallee', hargs']
    · simp only [List.length_cons, List.length_append] at hn
      omega
  | .lit .., _, ts, hspelled, hshaped, hroom, _, S, hadmits, hrest
  | .var _, _, ts, hspelled, hshaped, hroom, _, S, hadmits, hrest
  | .unary .., _, ts, hspelled, hshaped, hroom, _, S, hadmits, hrest
  | .paren .., _, ts, hspelled, hshaped, hroom, _, S, hadmits, hrest
  | .block _, _, ts, hspelled, hshaped, hroom, _, S, hadmits, hrest
  | .cond .., _, ts, hspelled, hshaped, hroom, _, S, hadmits, hrest
  | .loop .., _, ts, hspelled, hshaped, hroom, _, S, hadmits, hrest
  | .closure .., _, ts, hspelled, hshaped, hroom, _, S, hadmits, hrest =>
    (h.operand hspelled hshaped hroom hadmits rfl nofun).bind fun e' he' =>
      Takes.remaining_bind fun n hn => hrest e' n he' hn

/-- The loop over operators ends. -/
theorem takes_operators_stop {least : Nat} (hk : Stops least k) (lhs : Expr) (n : Nat) :
    Takes (operators inner least n lhs) [] k (· = lhs) := by
  cases n with
  | zero => exact .pure rfl
  | succ n =>
    refine Takes.peek_bind fun tok htok => ?_
    rw [nextKind_nil] at htok
    dsimp only
    rw [htok, if_neg (mt beq_iff_eq.mp hk.1)]
    split
    · exact .pure rfl
    · next hinfix =>
      rw [if_pos (hk.2 _ hinfix)]
      exact .pure rfl

/-- An expression. -/
theorem exprBody (h : inner.Reads At room) {e : Expr} {least : Nat}
    (hspelled : (Node.expr e).SpelledBy At ts k) (hshaped : e.Shaped) (hroom : e.within ≤ room)
    (hpower : ∀ p ∈ e.power?, least ≤ p) (hadmits : e.Admits k) (hk : Stops least k) :
    Takes (exprBody inner least) ts k fun a => a.spanless = e.spanless := by
  rw [← List.append_nil ts]
  exact h.spine hspelled hshaped hroom hpower hadmits fun e' n he' _ =>
    (takes_operators_stop hk e' n).weaken fun a ha => by rw [ha, he']

/-! ## Blocks -/

/-- A binding. -/
theorem letDecl (h : inner.Reads At room) {isMut : Bool} {name : Ident} {ty : Option TypeExpr}
    {value : Expr} (hspelled : Spells At (bindingParts isMut name ty value) ts k)
    (hshaped : value.Shaped) (hroom : value.within < room) :
    Takes (letDecl inner) ts k fun a =>
      a.spanless = (⟨isMut, name, ty, value, default⟩ : LetDecl).spanless := by
  obtain ⟨kw, _, rfl, hkw, hspelled⟩ := Spells.word_iff.mp hspelled
  obtain ⟨muts, _, rfl, hmuts, hspelled⟩ := Spells.append_iff.mp hspelled
  obtain ⟨names, _, rfl, hname, hspelled⟩ := Spells.node_iff.mp hspelled
  obtain ⟨types, _, rfl, hty, hspelled⟩ := Spells.append_iff.mp hspelled
  obtain ⟨eq, _, rfl, heq, hspelled⟩ := Spells.word_iff.mp hspelled
  obtain ⟨values, _, rfl, hvalue, hspelled⟩ := Spells.node_iff.mp hspelled
  obtain ⟨semi, _, rfl, hsemi, hnil⟩ := Spells.word_iff.mp hspelled
  obtain rfl := Spells.nil_iff.mp hnil
  refine Takes.expect_bind hkw nofun fun kw => ?_
  -- what comes behind `mut` is read alike whether or not it is there
  have hrest (mut? : Option Token) (hmut : mut?.isSome = isMut) :
      Takes (do
        let name ← ident
        let ty ← statedType
        let _ ← expect .eq
        let value ← inner.expr 0
        let semi ← expect .semicolon
        return (⟨mut?.isSome, name, ty, value, kw.span.to semi.span⟩ : LetDecl))
      (names ++ (types ++ eq :: (values ++ [semi]))) k
      fun a => a.spanless = (⟨isMut, name, ty, value, default⟩ : LetDecl).spanless := by
    refine (takes_ident hname).bind fun name' hname => ?_
    refine (takes_statedType hty (by rw [nextKind_cons, heq]; nofun)).bind fun ty' hty => ?_
    refine Takes.expect_bind heq nofun fun _ => ?_
    refine (h.expr_zero hvalue hshaped hroom
      (by rw [nextKind_cons, hsemi]; exact ⟨nofun, nofun⟩)).bind
      fun value' hvalue => Takes.expect_bind hsemi nofun fun semi => .pure ?_
    simp only [LetDecl.spanless, hmut, hname, hty, hvalue]
  cases isMut with
  | false =>
    obtain rfl := Spells.nil_iff.mp hmuts
    obtain ⟨t, rfl, ht⟩ := hname.ident
    exact Takes.no_eat_bind
      (by rw [List.nil_append, List.singleton_append, nextKind_cons, ht]; nofun) (hrest none rfl)
  | true =>
    obtain ⟨t, _, rfl, ht, hnil⟩ := Spells.word_iff.mp hmuts
    obtain rfl := Spells.nil_iff.mp hnil
    exact Takes.eat_bind ht fun t => hrest (some t) rfl

/-- A return. -/
theorem returnStmt (h : inner.Reads At room) {value : Option Expr} {span : Span}
    (hspelled : (Node.stmt (.ret value span)).SpelledBy At ts k) (hshaped : optionShaped value)
    (hroom : optionDepth value ≤ room) :
    Takes (returnStmt inner) ts k fun a => a.spanless = (Stmt.ret value span).spanless := by
  obtain ⟨kw, _, rfl, hkw, hspelled⟩ := Spells.word_iff.mp (hspelled.of_form rfl)
  obtain ⟨us, _, rfl, hus, hspelled⟩ := Spells.append_iff.mp hspelled
  obtain ⟨semi, _, rfl, hsemi, hnil⟩ := Spells.word_iff.mp hspelled
  obtain rfl := Spells.nil_iff.mp hnil
  refine Takes.expect_bind hkw nofun fun kw => Takes.check_bind ?_
  dsimp only
  cases value with
  | none =>
    obtain rfl := Spells.nil_iff.mp hus
    rw [List.nil_append, nextKind_cons, hsemi, beq_self_eq_true, if_pos rfl, pure_bind]
    exact Takes.expect_bind hsemi nofun fun semi => .pure rfl
  | some e =>
    have he := Spells.single_iff.mp hus
    have hnot : (nextKind (us ++ [semi]) k == TokenKind.semicolon) = false := by
      obtain ⟨t, us, rfl, ht⟩ := he.expr_cons
      exact beq_eq_false_iff_ne.mpr fun hk => by
        rw [List.cons_append, nextKind_cons] at hk
        rw [hk] at ht
        exact ht
    rw [hnot, if_neg Bool.false_ne_true]
    have hvalue := (h.expr_zero he hshaped hroom
        (by rw [nextKind_cons, hsemi]; exact ⟨nofun, nofun⟩)).map
      (g := some) (S := fun a => optionSpanless a = optionSpanless (some e))
      fun a ha => congrArg some ha
    refine hvalue.bind fun value' hvalue' => Takes.expect_bind hsemi nofun fun semi => .pure ?_
    simp only [Stmt.spanless, hvalue']

/-- An entry that starts like an expression is read as such. -/
theorem takes_entry {Q : Stmt ⊕ Expr → Prop} (hstart : (nextKind ts k).StartsExpr)
    (h : Takes (exprEntry inner) ts k Q) : Takes (entry inner) ts k Q := by
  refine Takes.peek_bind fun tok htok => ?_
  split
  · next hkind =>
    rw [← htok, hkind] at hstart
    exact hstart.elim
  · next hkind =>
    rw [← htok, hkind] at hstart
    exact hstart.elim
  · exact h

/-- What an expression starts with is what it and more start with. -/
theorem startsExpr_append {e : Expr} (h : (Node.expr e).SpelledBy At ts k) (us : List Token)
    (l : TokenKind) : (nextKind (ts ++ us) l).StartsExpr := by
  obtain ⟨t, ts, rfl, ht⟩ := h.expr_cons
  exact ht

/-- A statement. The token behind one that may have a semicolon is none. -/
theorem entry_stmt (h : inner.Reads At room) {s : Stmt}
    (hspelled : (Node.stmt s).SpelledBy At ts k) (hshaped : s.Shaped) (hroom : s.depth ≤ room)
    (heq : k ≠ .eq) (hsemi : k ≠ .semicolon) :
    Takes (entry inner) ts k fun q => ∃ a, q = .inl a ∧ a.spanless = s.spanless := by
  cases s with
  | bind isMut name ty value span =>
    have hform := hspelled.of_form rfl
    have hdecl := h.letDecl hform hshaped hroom
    obtain ⟨kw, us, rfl, hkw, -⟩ := Spells.word_iff.mp hform
    refine Takes.peek_bind fun tok htok => ?_
    rw [nextKind_cons, hkw] at htok
    rw [htok]
    refine hdecl.bind_pure fun d hd => ⟨_, rfl, ?_⟩
    simp only [LetDecl.spanless, LetDecl.mk.injEq] at hd
    simp only [Stmt.spanless, hd]
  | assign target value span =>
    obtain ⟨us, _, rfl, hus, hspelled⟩ := Spells.node_iff.mp (hspelled.of_form rfl)
    obtain ⟨eq, _, rfl, heq, hspelled⟩ := Spells.word_iff.mp hspelled
    obtain ⟨vs, _, rfl, hvs, hspelled⟩ := Spells.node_iff.mp hspelled
    obtain ⟨semi, _, rfl, hsemi, hnil⟩ := Spells.word_iff.mp hspelled
    obtain rfl := Spells.nil_iff.mp hnil
    have hvar : (Node.expr (.var target)).SpelledBy At us (nextKind (eq :: (vs ++ [semi])) k) :=
      hus.expr_var
    refine takes_entry (startsExpr_append hvar _ k) ?_
    have htarget := h.expr_zero hvar trivial
      (Nat.lt_of_le_of_lt (Nat.zero_le _) hroom) (by rw [nextKind_cons, heq]; exact ⟨nofun, nofun⟩)
    refine htarget.bind fun x hx => Takes.eat_bind heq fun _ => ?_
    cases x with
    | var target' =>
      refine (h.expr_zero hvs hshaped hroom
          (by rw [nextKind_cons, hsemi]; exact ⟨nofun, nofun⟩)).bind
        fun value' hvalue => Takes.expect_bind hsemi nofun fun semi => .pure ⟨_, rfl, ?_⟩
      simp only [Expr.spanless, Expr.var.injEq] at hx
      simp only [Stmt.spanless, hx, hvalue]
    | _ => cases hx
  | expr value span =>
    obtain ⟨ps, hps, -, hspelled⟩ := hspelled
    -- without a semicolon it has to end in a block, and what follows must not go on with it
    rcases mem_forms_exprStmt.mp hps with rfl | ⟨hblock, rfl⟩
    · obtain ⟨us, _, rfl, hus, hspelled⟩ := Spells.node_iff.mp hspelled
      obtain ⟨semi, _, rfl, hsemi, hnil⟩ := Spells.word_iff.mp hspelled
      obtain rfl := Spells.nil_iff.mp hnil
      refine takes_entry (startsExpr_append hus _ k) ?_
      refine (h.expr_zero hus hshaped hroom
          (by rw [nextKind_cons, hsemi]; exact ⟨nofun, nofun⟩)).bind
        fun value' hvalue => Takes.no_eat_bind (by rw [nextKind_cons, hsemi]; nofun)
          (Takes.eat_bind hsemi fun semi => .pure ⟨_, rfl, ?_⟩)
      simp only [Stmt.spanless, hvalue]
    · obtain ⟨us, _, rfl, hus, hspelled⟩ := Spells.node_iff.mp hspelled
      obtain ⟨hseparates, hnil⟩ := Spells.ahead_iff.mp hspelled
      obtain rfl := Spells.nil_iff.mp hnil
      refine takes_entry (startsExpr_append hus _ k) ?_
      refine (h.expr_zero hus hshaped hroom hseparates.1).bind fun value' hvalue =>
        Takes.no_eat_bind heq (Takes.no_eat_bind hsemi (Takes.peek_bind fun tok htok => ?_))
      have hends : value'.endsInBlock = true := by
        rw [← Expr.endsInBlock_spanless, hvalue, Expr.endsInBlock_spanless, hblock]
      dsimp only
      rw [htok, if_neg (mt beq_iff_eq.mp hseparates.2), if_pos hends]
      exact .pure ⟨_, rfl, by simp only [Stmt.spanless, hvalue]⟩
  | ret value span =>
    have hret := h.returnStmt hspelled hshaped hroom
    obtain ⟨kw, us, rfl, hkw, -⟩ := Spells.word_iff.mp (hspelled.of_form rfl)
    refine Takes.peek_bind fun tok htok => ?_
    rw [nextKind_cons, hkw] at htok
    rw [htok]
    exact hret.map fun a ha => ⟨a, rfl, ha⟩

/-- The value that a block ends in. -/
theorem entry_tail (h : inner.Reads At room) {e : Expr}
    (hspelled : (Node.expr e).SpelledBy At ts .rBrace) (hshaped : e.Shaped)
    (hroom : e.within < room) :
    Takes (entry inner) ts .rBrace fun q => ∃ a, q = .inr a ∧ a.spanless = e.spanless := by
  have hstart := startsExpr_append hspelled [] .rBrace
  refine takes_entry (List.append_nil ts ▸ hstart) ?_
  rw [← List.append_nil ts]
  refine (h.expr_zero hspelled hshaped hroom ⟨nofun, nofun⟩).bind fun a ha =>
    Takes.no_eat_bind nofun (Takes.no_eat_bind nofun (Takes.peek_bind fun tok htok => ?_))
  dsimp only
  rw [htok, nextKind_nil, if_pos (beq_iff_eq.mpr rfl)]
  exact .pure ⟨a, rfl, ha⟩

/-- Statements without spans are each without its spans. -/
theorem stmtsSpanless_eq (ss : List Stmt) : stmtsSpanless ss = ss.map Stmt.spanless := by
  induction ss with
  | nil => rfl
  | cons s ss ih => rw [stmtsSpanless, ih, List.map_cons]

/-- The entries of a block. -/
theorem entries (h : inner.Reads At room) {ss : List Stmt} {tail : Option Expr}
    (hspelled : Spells At (entryParts ss tail) ts .rBrace)
    (hshaped : stmtsShaped ss) (htail : optionShaped tail) (hroom : stmtsDepth ss ≤ room)
    (htailRoom : optionDepth tail ≤ room) {bound : Nat} (hbound : ts.length ≤ bound)
    (done : Array Stmt) :
    Takes (entries inner bound done) ts .rBrace fun q =>
      q.1.map Stmt.spanless = (done.toList ++ ss).map Stmt.spanless ∧
        optionSpanless q.2 = optionSpanless tail := by
  induction ss generalizing bound done ts with
  | nil =>
    cases tail with
    | none =>
      obtain rfl := Spells.nil_iff.mp hspelled
      cases bound with
      | zero => exact .pure ⟨by rw [List.append_nil], rfl⟩
      | succ bound => exact Takes.check_bind (.pure ⟨by rw [List.append_nil], rfl⟩)
    | some e =>
      have he := Spells.single_iff.mp hspelled
      have hnot : (nextKind ts .rBrace == TokenKind.rBrace) = false :=
        beq_eq_false_iff_ne.mpr fun hk => by
          have := startsExpr_append he [] .rBrace
          rw [List.append_nil, hk] at this
          exact this
      obtain ⟨bound, rfl⟩ := Nat.exists_eq_succ_of_ne_zero (show bound ≠ 0 by
        obtain ⟨t, us, rfl, -⟩ := he.expr_cons
        exact Nat.ne_of_gt (Nat.lt_of_lt_of_le (Nat.succ_pos _) hbound))
      refine Takes.check_bind ?_
      rw [hnot, if_neg Bool.false_ne_true, ← List.append_nil ts]
      refine (h.entry_tail he htail htailRoom).bind fun q hq => ?_
      obtain ⟨a, rfl, ha⟩ := hq
      exact .pure ⟨by rw [List.append_nil], congrArg some ha⟩
  | cons s ss ih =>
    obtain ⟨us, vs, rfl, hs, hrest⟩ := Spells.node_iff.mp hspelled
    rw [stmtsDepth, Nat.max_le] at hroom
    obtain ⟨t, us, rfl, ht⟩ := hs.stmt_cons
    rw [List.length_append, List.length_cons] at hbound
    obtain ⟨bound, rfl⟩ := Nat.exists_eq_succ_of_ne_zero (show bound ≠ 0 by omega)
    -- behind the statement there is another entry or the brace, so it is no assignment
    have hnext (l : TokenKind) (hne : l ≠ .rBrace) (hl : l ∈ [TokenKind.rBrace, .eq, .semicolon]) :
        nextKind vs .rBrace ≠ l := by
      rcases hrest.nextKind_entries with hbrace | hstart
      · rw [hbrace]
        exact hne.symm
      · exact hstart.ne hl
    refine Takes.check_bind ?_
    rw [List.cons_append, nextKind_cons, beq_eq_false_iff_ne.mpr (ht.ne (by simp)),
      if_neg Bool.false_ne_true]
    refine (h.entry_stmt hs hshaped.1 hroom.1 (hnext _ nofun (by simp))
      (hnext _ nofun (by simp))).bind fun q hq => ?_
    obtain ⟨a, rfl, ha⟩ := hq
    refine (ih hrest hshaped.2 hroom.2 (by omega) (done.push a)).weaken fun q hq => ⟨?_, hq.2⟩
    rw [hq.1, Array.toList_push, List.append_assoc, List.singleton_append]
    simp only [List.map_append, List.map_cons, ha]

/-- A block. -/
theorem blockBody (h : inner.Reads At room) {b : Block}
    (hspelled : (Node.block b).SpelledBy At ts k) (hshaped : b.Shaped)
    (hroom : b.depth ≤ room + 1) :
    Takes (blockBody inner) ts k fun a => a.spanless = b.spanless := by
  obtain ⟨ss, tail, span⟩ := b
  rw [Block.depth, Nat.add_le_add_iff_right, Nat.max_le] at hroom
  obtain ⟨opening, _, rfl, hopening, hspelled⟩ := Spells.word_iff.mp (hspelled.of_form rfl)
  obtain ⟨us, _, rfl, hus, hspelled⟩ := Spells.append_iff.mp hspelled
  obtain ⟨close, _, rfl, hclose, hnil⟩ := Spells.word_iff.mp hspelled
  obtain rfl := Spells.nil_iff.mp hnil
  rw [nextKind_cons, hclose] at hus
  refine Takes.expect_bind hopening nofun fun opening => Takes.remaining_bind fun n hn => ?_
  rw [List.length_append, List.length_singleton] at hn
  have hentries := h.entries hus hshaped.1 hshaped.2 hroom.1 hroom.2 (Nat.le_of_succ_le hn) #[]
  rw [← hclose] at hentries
  refine hentries.bind fun q hq => Takes.expect_bind hclose nofun fun close => .pure ?_
  simp only [Block.spanless, stmtsSpanless_eq, hq.1, hq.2, List.nil_append]

end Reads

/-- With some room, what has no more levels is read. -/
theorem reads_ofRoom (room : Nat) : (ofRoom room).Reads At room := by
  induction room with
  | zero =>
    refine ⟨fun _ _ h => absurd h (Nat.not_lt_zero _), fun {b} _ _ _ _ h => ?_⟩
    cases b
    cases h
  | succ room ih =>
    exact ⟨fun hspelled hshaped hroom hpower hadmits hk =>
        ih.exprBody hspelled hshaped (Nat.le_of_lt_succ hroom) hpower hadmits hk,
      fun hspelled hshaped hroom => ih.blockBody hspelled hshaped hroom⟩

end Parser.Level

/-! ## Modules -/

namespace Parser

/-- Type parameters. -/
theorem takes_generics {names : List Ident} {ps : List Part} (hps : ps ∈ genericForms names)
    (h : Spells At ps ts k) (hk : k ≠ .lt) :
    Takes generics ts k fun as => as.map Ident.spanless = names.map Ident.spanless := by
  rcases mem_genericForms.mp hps with rfl | ⟨rfl, rfl⟩
  · obtain ⟨opening, _, rfl, hopening, h⟩ := Spells.word_iff.mp h
    obtain ⟨us, _, rfl, hus, h⟩ := Spells.append_iff.mp h
    obtain ⟨close, _, rfl, hclose, h⟩ := Spells.word_iff.mp h
    obtain rfl := Spells.nil_iff.mp h
    have hnames : Takes (commaList .gt ident) us close.kind
        fun as => as.map Ident.spanless = names.map Ident.spanless := by
      rw [nextKind_cons, hclose] at hus
      rw [hclose]
      refine takes_commaList nofun (fun name _ vs l hvs => ?_)
        (fun _ _ _ _ hvs _ _ => takes_ident hvs) hus
      obtain ⟨t, rfl, ht⟩ := hvs.ident
      exact ⟨t, [], rfl, by rw [ht]; nofun⟩
    exact Takes.eat_bind hopening fun _ => hnames.bind fun as has =>
      Takes.expect_bind hclose nofun fun _ => .pure has
  · obtain rfl := Spells.nil_iff.mp h
    exact Takes.no_eat_bind hk (.pure rfl)

/-- A function. -/
theorem takes_fnDecl {d : FnDecl} (h : (Node.function d).SpelledBy At ts k)
    (hshaped : d.body.Shaped) (hroom : d.body.depth ≤ maxNesting) :
    Takes fnDecl ts k fun a => a.spanless = d.spanless := by
  obtain ⟨name, gs, params, retTy, body, span⟩ := d
  obtain ⟨_, hform, -, h⟩ := h
  obtain ⟨ps, hps, rfl⟩ := List.mem_map.mp hform
  obtain ⟨kw, _, rfl, hkw, h⟩ := Spells.word_iff.mp h
  obtain ⟨names, _, rfl, hname, h⟩ := Spells.node_iff.mp h
  obtain ⟨generics, _, rfl, hgenerics, h⟩ := Spells.append_iff.mp h
  obtain ⟨opening, _, rfl, hopening, h⟩ := Spells.word_iff.mp h
  obtain ⟨us, _, rfl, hus, h⟩ := Spells.append_iff.mp h
  obtain ⟨close, _, rfl, hclose, h⟩ := Spells.word_iff.mp h
  obtain ⟨types, vs, rfl, hty, h⟩ := Spells.append_iff.mp h
  have hbody := Spells.single_iff.mp h
  have hparams : Takes (commaList .rParen param) us close.kind
      fun as => as.map Param.spanless = params.map Param.spanless := by
    rw [nextKind_cons, hclose] at hus
    rw [hclose]
    exact takes_params hus nofun nofun nofun
  refine Takes.expect_bind hkw nofun fun kw => (takes_ident hname).bind fun name' hname =>
    (takes_generics hps hgenerics (by rw [nextKind_cons, hopening]; nofun)).bind fun gs' hgs =>
    Takes.expect_bind hopening nofun fun _ => hparams.bind fun params' hparams =>
    Takes.expect_bind hclose nofun fun _ => ?_
  have hrest (ty' : Option TypeExpr)
      (hty : ty'.map TypeExpr.spanless = retTy.map TypeExpr.spanless) :
      Takes (do
        let body ← outermost.block
        return (⟨name', gs', params', ty', body, kw.span.to body.span⟩ : FnDecl)) vs k
        fun a => a.spanless = (⟨name, gs, params, retTy, body, span⟩ : FnDecl).spanless := by
    refine ((Level.reads_ofRoom maxNesting).block hbody hshaped hroom).bind_pure
      fun body' hbody' => ?_
    simp only [FnDecl.spanless, hname, hgs, hparams, hty, hbody']
  cases retTy with
  | none =>
    obtain rfl := Spells.nil_iff.mp hty
    obtain ⟨t, vs, rfl, ht⟩ := hbody.block_cons
    exact Takes.no_eat_bind (by rw [List.nil_append, nextKind_cons, ht]; nofun) (hrest none rfl)
  | some t =>
    obtain ⟨arrow, ws, rfl, harrow, hty⟩ := Spells.word_iff.mp hty
    refine Takes.eat_bind harrow fun _ => ?_
    have hty := (takes_typeExpr (Spells.single_iff.mp hty)).map (g := some)
      (S := fun a => a.map TypeExpr.spanless = (some t).map TypeExpr.spanless)
      fun a ha => by rw [Option.map_some, Option.map_some, ha]
    exact hty.bind fun ty' hty' => hrest ty' hty'

/-- Items up to the end of the source. -/
theorem takes_items {is : List Item} (h : Spells At ((is.map Item.node).map .node) ts .eof)
    (hshaped : ∀ item ∈ is, item.Shaped) (hdepth : ∀ item ∈ is, item.depth ≤ maxNesting)
    {bound : Nat} (hbound : ts.length ≤ bound) (done : Array Item) :
    Takes (items bound done) ts .eof fun as =>
      as.map Item.spanless = (done.toList ++ is).map Item.spanless := by
  induction is generalizing bound done ts with
  | nil =>
    obtain rfl := Spells.nil_iff.mp h
    cases bound with
    | zero => exact .pure (by rw [List.append_nil])
    | succ bound =>
      refine Takes.peek_bind fun tok htok => ?_
      rw [htok, nextKind_nil]
      exact .pure (by rw [List.append_nil])
  | cons item is ih =>
    obtain ⟨hitem, his⟩ := List.forall_mem_cons.mp hshaped
    obtain ⟨hitemDepth, hisDepth⟩ := List.forall_mem_cons.mp hdepth
    obtain ⟨us, vs, rfl, hus, hvs⟩ := Spells.node_iff.mp h
    -- the other items, after one that is read as this one
    have hnext (bound : Nat) (hbound : vs.length ≤ bound) (a : Item)
        (ha : a.spanless = item.spanless) :
        Takes (items bound (done.push a)) vs .eof fun as =>
          as.map Item.spanless = (done.toList ++ item :: is).map Item.spanless := by
      refine (ih hvs his hisDepth hbound (done.push a)).weaken fun as has => ?_
      rw [has, Array.toList_push, List.append_assoc, List.singleton_append]
      simp only [List.map_append, List.map_cons, ha]
    rw [List.length_append] at hbound
    cases item with
    | binding d =>
      have hform := Node.SpelledBy.of_form hus rfl
      have hdecl := (Level.reads_ofRoom maxNesting).letDecl hform hitem hitemDepth
      obtain ⟨kw, us, rfl, hkw, -⟩ := Spells.word_iff.mp hform
      rw [List.length_cons] at hbound
      obtain ⟨bound, rfl⟩ := Nat.exists_eq_succ_of_ne_zero (show bound ≠ 0 by omega)
      refine Takes.peek_bind fun tok htok => ?_
      rw [htok, List.cons_append, nextKind_cons, hkw]
      exact hdecl.bind fun a ha => hnext bound (by omega) (.binding a) (congrArg Item.binding ha)
    | function d =>
      have hdecl := takes_fnDecl hus hitem hitemDepth
      obtain ⟨_, hform, -, hus⟩ := hus
      obtain ⟨ps, hps, rfl⟩ := List.mem_map.mp hform
      obtain ⟨kw, us, rfl, hkw, -⟩ := Spells.word_iff.mp hus
      rw [List.length_cons] at hbound
      obtain ⟨bound, rfl⟩ := Nat.exists_eq_succ_of_ne_zero (show bound ≠ 0 by omega)
      refine Takes.peek_bind fun tok htok => ?_
      rw [htok, List.cons_append, nextKind_cons, hkw]
      exact hdecl.bind fun a ha => hnext bound (by omega) (.function a) (congrArg Item.function ha)

/-- A whole module. -/
theorem takes_source {m : Module} (h : Spells At ((m.items.map Item.node).map .node) ts .eof)
    (hshaped : m.Shaped) (hdepth : ∀ item ∈ m.items, item.depth ≤ maxNesting) :
    Takes source ts .eof fun a => a.spanless = m.spanless := by
  refine Takes.peek_bind fun start _ => Takes.remaining_bind fun n hn => ?_
  rw [← List.append_nil ts]
  refine (takes_items h hshaped hdepth hn #[]).bind fun is his =>
    Takes.peek_bind fun stop _ => .pure ?_
  rw [Module.spanless, Module.spanless, his, List.nil_append]

end Parser

/-- Tokens that spell a module are read as that module, up to the spans. -/
theorem parse_of_spelled {src : String} {m : Module} {ts : List Token}
    (hkinds : (tokens src).map Token.kind = ts.map Token.kind)
    (h : (Node.root m).SpelledBy At ts .eof) (hshaped : m.Shaped)
    (hdepth : ∀ item ∈ m.items, item.depth ≤ maxNesting) :
    ∃ a, parse src = .ok a ∧ a.spanless = m.spanless := by
  obtain ⟨us, _, rfl, hus, hspelled⟩ := Spells.append_iff.mp (h.of_form rfl)
  obtain ⟨eof, _, rfl, heof, hnil⟩ := Spells.word_iff.mp hspelled
  obtain rfl := Spells.nil_iff.mp hnil
  rw [nextKind_cons, heof] at hus
  rw [List.map_append, List.map_singleton, heof] at hkinds
  obtain ⟨a, r, hsource, ha, -⟩ :=
    takes_source hus hshaped hdepth (.ofTokens (tokens src)) [.eof] hkinds rfl
  refine ⟨a, ?_, ha⟩
  rw [parse, StateT.run, hsource]
  rfl

end ClosureEnv.Syntax
