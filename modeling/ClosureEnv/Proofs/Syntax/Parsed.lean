import ClosureEnv.Proofs.Syntax.Printed
import ClosureEnv.Proofs.Syntax.Yields

/-!
# What is parsed is shaped

The parser makes no operand that binds less than its operator, no callee that is an operator's or a
closure's, and puts nothing but a block or a conditional behind an `else`. For the loop over
operators it takes to know what follows: an expression is given only when the token that follows
goes on neither with it nor with the operand or body at its right edge (`Ends`), so an operator that
goes on with it after all binds no more than what was read.
-/

namespace ClosureEnv.Syntax

namespace Parser

/-- No more than `n` tokens are left. -/
def AtMost (n : Nat) (r : Rest) : Prop :=
  r.size ≤ n

instance (n : Nat) : Steady (AtMost n) :=
  ⟨fun h => Nat.le_trans (Nat.sub_le ..) h⟩

/-- Started at `r`, the parser gives only results that satisfy `Q` together with what is left. -/
def Gives {α : Type} (x : Parser α) (r : Rest) (Q : α → Rest → Prop) : Prop :=
  ∀ a r', x r = .ok (a, r') → Q a r'

namespace Gives

variable {α β : Type} {x : Parser α} {r : Rest} {Q : α → Rest → Prop} {S : β → Rest → Prop}

/-- What is returned at once. -/
theorem pure {a : α} (h : Q a r) : Gives (Pure.pure a : Parser α) r Q := by
  intro b r' hb
  cases hb
  exact h

/-- One parser after another. -/
theorem bind {f : α → Parser β} (hx : Gives x r Q) (hf : ∀ a r', Q a r' → Gives (f a) r' S) :
    Gives (x >>= f) r S := by
  intro b r' hb
  change (x r >>= fun q => f q.1 q.2) = _ at hb
  cases hxr : x r with
  | error e => rw [hxr] at hb; cases hb
  | ok q =>
    rw [hxr] at hb
    exact hf q.1 q.2 (hx q.1 q.2 hxr) b r' hb

/-- Looking at the next token. -/
theorem peek_bind {f : Token → Parser β} (hf : Gives (f r.head) r S) : Gives (peek >>= f) r S :=
  hf

/-- A weaker property of the results. -/
theorem weaken {R : α → Rest → Prop} (hx : Gives x r Q) (h : ∀ a r', Q a r' → R a r') :
    Gives x r R :=
  fun a r' ha => h a r' (hx a r' ha)

end Gives

/-- A parser that keeps the number of tokens bounded leaves no more than there were. -/
theorem Yields.gives {α : Type} {x : Parser α} {Q : α → Prop} {r : Rest}
    (h : Yields (AtMost r.size) x Q) : Gives x r fun a r' => r'.size ≤ r.size ∧ Q a :=
  fun a r' hx => ⟨(h r a r' (Nat.le_refl _) hx).2, (h r a r' (Nat.le_refl _) hx).1⟩

/-- The token that is taken is gone. -/
theorem gives_advance (r : Rest) : Gives advance r fun _ r' => r' = r.tail := by
  intro a r' h
  cases h
  rfl

/-- So is the one that has to be taken. -/
theorem gives_expect (kind : TokenKind) (r : Rest) :
    Gives (expect kind) r fun _ r' => r' = r.tail := by
  refine Gives.peek_bind ?_
  split
  · exact nofun
  split
  · exact gives_advance r
  · exact nofun

namespace Level

/-- An operand that the parser gives when a token of kind `k` follows. -/
structure Closes (k : TokenKind) (e : Expr) : Prop where
  /-- Its operands are such. -/
  shaped : e.Shaped
  /-- It is not made with an operator of two operands. -/
  power_eq : e.power? = none
  /-- What is at its right edge has ended. -/
  admits : e.Admits k

/-- An expression that the parser gives, with operators of level `least` or above, when a token of
kind `k` follows. -/
structure Ends (least : Nat) (k : TokenKind) (e : Expr) : Prop where
  /-- Its operands are such. -/
  shaped : e.Shaped
  /-- Its own operator is of that level. -/
  power_le : ∀ p ∈ e.power?, least ≤ p
  /-- What is at its right edge has ended. -/
  admits : e.Admits k
  /-- It has ended itself. -/
  stops : Stops least k

/-- The parsers of a level give what is shaped. -/
structure Shapes (inner : Level) : Prop where
  /-- An expression. -/
  expr : ∀ least r, Gives (inner.expr least) r fun e r' =>
    r'.size ≤ r.size ∧ Ends least r'.head.kind e
  /-- A block. -/
  block : ∀ n, Yields (AtMost n) inner.block Block.Shaped

namespace Shapes

variable {inner : Level}

/-- An expression, wherever it stands. -/
theorem yields_expr (h : inner.Shapes) (least n : Nat) :
    Yields (AtMost n) (inner.expr least) Expr.Shaped := by
  intro r e r' hr he
  obtain ⟨hsize, hends⟩ := h.expr least r e r' he
  exact ⟨hends.shaped, Nat.le_trans hsize hr⟩

/-- The arguments behind a callee. -/
theorem call (h : inner.Shapes) (callee : Expr) (r : Rest) :
    Gives (call inner callee) r fun e r' =>
      r'.size ≤ r.tail.size ∧ ∃ args span, e = .call callee args span ∧ exprsShaped args := by
  refine (gives_expect .lParen r).bind fun _ r' hr' => ?_
  subst hr'
  have hargs : Yields (AtMost r.tail.size) (commaList .rParen (inner.expr 0))
      fun args => ∀ e ∈ args, e.Shaped := yields_commaList _ (h.yields_expr 0 _)
  exact (hargs.bind fun args hargs => (yields_expect _).bind fun close _ =>
    .pure ⟨args, _, rfl, exprsShaped_iff.mpr hargs⟩).gives

/-- A conditional. -/
theorem condIn (h : inner.Shapes) (bound n : Nat) :
    Yields (AtMost n) (condIn inner bound) fun e => e.Shaped ∧ e.IsElse := by
  induction bound with
  | zero => exact yields_peek_any.bind fun _ _ => .fail _
  | succ bound ih =>
    refine (yields_expect _).bind fun _ _ => (h.yields_expr 0 n).bind fun test htest =>
      (h.block n).bind fun yes hyes => (yields_eat? _).bind fun found _ => ?_
    split
    · exact .pure ⟨⟨htest, hyes, nofun, trivial⟩, trivial⟩
    have hfinish (no : Expr) (hno : no.Shaped ∧ no.IsElse) (span : Span) :
        (Expr.cond test yes (some no) span).Shaped ∧
          (Expr.cond test yes (some no) span).IsElse := by
      refine ⟨⟨htest, hyes, fun e he => ?_, hno.1⟩, trivial⟩
      cases he
      exact hno.2
    refine (yields_check _).bind fun b _ => ?_
    split
    · exact ih.bind fun no hno => .pure (hfinish no hno _)
    · have hblock := (h.block n).map (S := fun e : Expr => e.Shaped ∧ e.IsElse) (f := Expr.block)
        fun _ hb => ⟨hb, trivial⟩
      exact hblock.bind fun no hno => .pure (hfinish no hno _)

/-- An operand, with what is at its right edge ended. -/
theorem operand (h : inner.Shapes) (r : Rest) :
    Gives (operand inner) r fun e r' => r'.size ≤ r.size ∧ Closes r'.head.kind e := by
  have hclosed {x : Parser Expr} (hx : Yields (AtMost r.size) x fun e => ∀ k, Closes k e) :
      Gives x r fun e r' => r'.size ≤ r.size ∧ Closes r'.head.kind e :=
    hx.gives.weaken fun e r' he => ⟨he.1, he.2 _⟩
  have hunary (op : UnaryOp) (tok : Token) :
      Gives (do let _ ← advance; let x ← inner.expr prefixPower
                return Expr.unary op x (tok.span.to x.span)) r fun e r' =>
        r'.size ≤ r.size ∧ Closes r'.head.kind e := by
    refine (gives_advance r).bind fun _ r' hr' => ?_
    subst hr'
    refine (h.expr prefixPower r.tail).bind fun x r' hx => .pure ?_
    have hpower : x.power? = none := by
      cases x with
      | binary op _ _ _ =>
        exact absurd (hx.2.power_le _ rfl) (Nat.not_le.mpr op.power_lt_prefixPower)
      | _ => rfl
    exact ⟨Nat.le_trans hx.1 (Nat.sub_le ..), ⟨hpower, hx.2.shaped⟩, rfl, hx.2.stops, hx.2.admits⟩
  have hclosure : Gives (closure inner) r fun e r' =>
      r'.size ≤ r.size ∧ Closes r'.head.kind e := by
    have hparams : Yields (AtMost r.size) closureParams fun ps => ∀ p ∈ ps, True :=
      yields_closureParams (P := fun _ => True) fun _ _ _ _ => trivial
    refine Gives.peek_bind (hparams.gives.bind fun ps r₁ hps => ?_)
    refine (h.expr 0 r₁).bind fun body r₂ hbody => .pure ?_
    exact ⟨Nat.le_trans hbody.1 hps.1, hbody.2.shaped, rfl, hbody.2.stops, hbody.2.admits⟩
  refine Gives.peek_bind ?_
  split
  · exact hclosed (yields_advance.bind fun _ _ => .pure fun _ => ⟨trivial, rfl, trivial⟩)
  split
  · exact hunary .not _
  · exact hunary .neg _
  · have hident : Yields (AtMost r.size) ident fun _ => True :=
      yields_ident (P := fun _ => True) fun _ _ _ _ => trivial
    exact hclosed (hident.map fun _ _ _ => ⟨trivial, rfl, trivial⟩)
  · exact hclosed (yields_advance.bind fun _ _ => (h.yields_expr 0 _).bind fun _ hx =>
      (yields_expect _).bind fun _ _ => .pure fun _ => ⟨hx, rfl, trivial⟩)
  · exact hclosed ((h.block _).map fun _ hb _ => ⟨hb, rfl, trivial⟩)
  · refine hclosed (yields_remaining.bind fun n _ => (h.condIn n _).weaken fun e he _ => ?_)
    cases e with
    | block | cond => exact ⟨he.1, rfl, trivial⟩
    | _ => exact he.2.elim
  · exact hclosed ((yields_expect _).bind fun _ _ => (h.yields_expr 0 _).bind fun _ htest =>
      (h.block _).bind fun _ hbody => .pure fun _ => ⟨⟨htest, hbody⟩, rfl, trivial⟩)
  · exact hclosure
  · exact hclosure
  · exact nofun
  · exact nofun

/-- The end of the source stops every expression. -/
theorem stops_eof (least : Nat) : Stops least .eof :=
  ⟨nofun, nofun⟩

/-- The calls and operators behind an operand. The level of an operator that goes on with the
expression is no less than that of the expression, which has ended before it. -/
theorem operators (h : inner.Shapes) (least : Nat) {bound : Nat} {lhs : Expr} {r : Rest}
    (hbound : r.size ≤ bound) (hshaped : lhs.Shaped) (hpower : ∀ p ∈ lhs.power?, least ≤ p)
    (hadmits : lhs.Admits r.head.kind) :
    Gives (operators inner least bound lhs) r fun e r' =>
      r'.size ≤ r.size ∧ Ends least r'.head.kind e := by
  induction bound generalizing lhs r with
  | zero =>
    have hnil : r.tokens = [] :=
      List.length_eq_zero_iff.mp (r.size_eq ▸ Nat.le_zero.mp hbound)
    have heof : r.head.kind = .eof := by rw [Rest.head, hnil]; rfl
    exact .pure ⟨Nat.le_refl _, hshaped, hpower, hadmits, heof ▸ stops_eof least⟩
  | succ bound ih =>
    have htail : r.tail.size ≤ bound := Nat.sub_le_of_le_add hbound
    refine Gives.peek_bind ?_
    dsimp only
    split
    · next hparen =>
      rw [beq_iff_eq.mp hparen, Expr.admits_lParen_iff] at hadmits
      refine (h.call lhs r).bind fun e r₁ he => ?_
      obtain ⟨hsize, args, span, rfl, hargs⟩ := he
      have hcall : (Expr.call lhs args span).Shaped := ⟨hadmits, hshaped, hargs⟩
      exact (ih (Nat.le_trans hsize htail) hcall nofun trivial).weaken fun e r₂ he =>
        ⟨Nat.le_trans he.1 (Nat.le_trans hsize (Nat.sub_le ..)), he.2⟩
    · next hparen =>
      have hne : r.head.kind ≠ .lParen := fun he => hparen (beq_iff_eq.mpr he)
      split
      · next hnone =>
        refine .pure ⟨Nat.le_refl _, hshaped, hpower, hadmits, hne, ?_⟩
        rw [hnone]
        exact nofun
      next op power hsome =>
      split
      · next hless =>
        refine .pure ⟨Nat.le_refl _, hshaped, hpower, hadmits, hne, ?_⟩
        rw [hsome]
        rintro _ ⟨⟩
        exact hless
      next hless =>
      obtain ⟨hkind, rfl⟩ := infixOp?_eq_some hsome
      rw [hkind] at hadmits
      refine (gives_advance r).bind fun _ r₁ hr₁ => ?_
      subst hr₁
      refine (h.expr (op.power + 1) r.tail).bind fun rhs r₂ hrhs => ?_
      refine (ih (Nat.le_trans hrhs.1 htail) ?_ ?_ ?_).weaken fun e r₃ he =>
        ⟨Nat.le_trans he.1 (Nat.le_trans hrhs.1 (Nat.sub_le ..)), he.2⟩
      · exact ⟨⟨hadmits.power_le, hadmits.not_endsInClosure, hshaped⟩,
          fun p hp => hrhs.2.power_le p hp, hrhs.2.shaped⟩
      · rintro _ ⟨⟩
        exact Nat.not_lt.mp hless
      · exact ⟨hrhs.2.stops, hrhs.2.admits⟩

/-- An expression. -/
theorem exprBody (h : inner.Shapes) (least : Nat) (r : Rest) :
    Gives (exprBody inner least) r fun e r' => r'.size ≤ r.size ∧ Ends least r'.head.kind e := by
  refine (h.operand r).bind fun lhs r₁ hlhs => ?_
  obtain ⟨hsize, hlhs⟩ := hlhs
  change Gives (Level.operators inner least r₁.size lhs) r₁ _
  refine (h.operators least (Nat.le_refl _) hlhs.shaped ?_ hlhs.admits).weaken fun e r₂ he =>
    ⟨Nat.le_trans he.1 hsize, he.2⟩
  rw [hlhs.power_eq]
  exact nofun

end Shapes

/-- A block, from its statements and its value. -/
theorem shaped_block {b : Block} (h : b.All (fun _ => True) Expr.Shaped) : b.Shaped := by
  obtain ⟨ss, tail, span⟩ := b
  refine ⟨stmtsShaped_iff.mpr fun s hs => ?_, optionShaped_iff.mpr h.2⟩
  have hs := h.1 s hs
  cases s with
  | bind => exact hs.2
  | ret => exact optionShaped_iff.mpr hs
  | _ => exact hs

/-- All levels give what is shaped. -/
theorem shapes_ofRoom (room : Nat) : (ofRoom room).Shapes := by
  induction room with
  | zero => exact ⟨fun _ _ => nofun, fun _ => .fail _⟩
  | succ room ih =>
    exact ⟨ih.exprBody, fun n =>
      (yields_blockBody (P := fun _ => True) (fun _ _ _ _ => trivial) (ih.yields_expr 0 n)).weaken
        fun _ => shaped_block⟩

end Level

end Parser

/-- A module that is parsed is shaped. -/
theorem shaped_of_parse {src : String} {m : Module} (h : parse src = .ok m) : m.Shaped := by
  have hlevel := Parser.Level.shapes_ofRoom maxNesting
  have hall := parse_yields (Parser.yields_source (P := fun _ => True) (fun _ _ _ _ => trivial)
    (hlevel.yields_expr 0 (tokens src).length) (hlevel.block _)) (Nat.le_refl _) h
  intro item hitem
  have hitem := hall item hitem
  cases item with
  | binding d => exact hitem.2
  | function d => exact hitem.2.2

/-- Functions that are read from the same tokens are the same up to the spans. -/
theorem spanless_eq_of_kinds {src src' : String} {m m' : Module} (hm : parse src = .ok m)
    (hm' : parse src' = .ok m') {f f' : FnDecl} (hf : .function f ∈ m.items)
    (hf' : .function f' ∈ m'.items) (hkinds : f.kinds = f'.kinds)
    (hwritable : ∀ k ∈ f.kinds, k.Writable) (hdepth : f.body.depth ≤ maxNesting)
    (hdepth' : f'.body.depth ≤ maxNesting) : f.spanless = f'.spanless := by
  have hkindsOf (g : FnDecl) : (⟨[.function g], default⟩ : Module).kinds = g.kinds :=
    List.append_nil _
  have hnormal (g : FnDecl) (hg : g.body.Shaped) (hwritable : ∀ k ∈ g.kinds, k.Writable)
      (hdepth : g.body.depth ≤ maxNesting) : (⟨[.function g], default⟩ : Module).Normal :=
    ⟨List.forall_mem_singleton.mpr hg, hkindsOf g ▸ hwritable, List.forall_mem_singleton.mpr hdepth⟩
  -- the modules with nothing else have one source
  obtain ⟨a, ha, hs⟩ := (hnormal f (shaped_of_parse hm _ hf) hwritable hdepth).parse_written
  obtain ⟨b, hb, hs'⟩ :=
    (hnormal f' (shaped_of_parse hm' _ hf') (hkinds ▸ hwritable) hdepth').parse_written
  rw [Module.written, hkindsOf, hkinds, ← hkindsOf, ← Module.written, hb] at ha
  cases ha
  have hitems := congrArg Module.items (hs.symm.trans hs')
  exact Item.function.inj (List.cons.inj hitems).1

/-! ## There and back -/

/-- Reading inverts writing: a normal module is read from its source, up to the spans, and every
module that is read has operands, callees and `else` parts like those of a normal one. -/
theorem parse_inverts_written :
    (∀ m : Module, m.Normal → ∃ a, parse m.written = .ok a ∧ a.spanless = m.spanless) ∧
      ∀ (src : String) (m : Module), parse src = .ok m → m.Shaped :=
  ⟨fun _ h => h.parse_written, fun _ _ h => shaped_of_parse h⟩

/-- The tree of `fn main() { let f = |n: Int| (n + 1) * 2; if f(1) == 4 { -1 } else { 0 } }`, with
its spans left out. -/
def doubledModule : Module :=
  let here : Span := ⟨0, 0⟩
  let var (text : String) : Expr := .var ⟨text, here⟩
  let int (n : Nat) : Expr := .lit (.int n) here
  let sum : Expr := .paren (.binary .add (var "n") (int 1) here) here
  let f : Expr := .closure [⟨⟨"n", here⟩, some (.path ⟨"Int", here⟩), here⟩]
    (.binary .mul sum (int 2) here) here
  let test : Expr := .binary .eq (.call (var "f") [int 1] here) (int 4) here
  let value : Expr := .cond test (.mk [] (some (.unary .neg (int 1) here)) here)
    (some (.block (.mk [] (some (int 0)) here))) here
  ⟨[.function ⟨⟨"main", here⟩, [], [], none,
    .mk [.bind false ⟨"f", here⟩ none f here] (some value) here, here⟩], here⟩

/-- It is normal. -/
theorem doubledModule_normal : doubledModule.Normal where
  shaped := by
    intro item hitem
    obtain rfl := List.mem_singleton.mp hitem
    simp [Item.Shaped, Block.Shaped, stmtsShaped, Stmt.Shaped, optionShaped, Expr.Shaped,
      exprsShaped, Expr.power?, Expr.EndsInClosure, Expr.IsCallee, Expr.IsElse]
  writable := by decide
  depth_le := by decide

/-- The module is read from its source, and what is read is shaped. -/
theorem parse_inverts_written_doubled :
    doubledModule.Normal ∧ ∃ a, parse doubledModule.written = .ok a ∧
      a.spanless = doubledModule.spanless ∧ a.Shaped := by
  obtain ⟨a, hparse, ha⟩ := parse_inverts_written.1 doubledModule doubledModule_normal
  exact ⟨doubledModule_normal, a, hparse, ha, parse_inverts_written.2 _ a hparse⟩

end ClosureEnv.Syntax
