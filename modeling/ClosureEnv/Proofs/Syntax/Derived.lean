import ClosureEnv.Proofs.Syntax.Cutting
import ClosureEnv.Proofs.Syntax.Parsed

/-!
# What is read is written

A module that is parsed is spelled by the tokens of its source, all of them, and every span in it
goes from the first token of its node to the last: `spelled_of_parse`. `Derives` says which tokens
the parser has taken for what it gives, and the rule for one parser after another puts them behind
one another.
-/

namespace ClosureEnv.Syntax

/-! ## From the first token to the last -/

namespace Covers

variable {a b : Span} {us vs : List Token}

/-- The span of a token. -/
theorem token (t : Token) : Covers t.span [t] :=
  ⟨t, rfl, t, rfl, rfl⟩

/-- Some tokens there are. -/
theorem ne_nil (h : Covers a us) : us ≠ [] := by
  obtain ⟨t, ht, -⟩ := h
  rintro rfl
  cases ht

/-- From one stretch of tokens to another. -/
theorem upTo {ts : List Token} (ha : Covers a us) (hb : Covers b vs) (ws : List Token)
    (hts : us ++ (ws ++ vs) = ts) : Covers (a.to b) ts := by
  subst hts
  obtain ⟨first, hfirst, -, -, rfl⟩ := ha
  obtain ⟨-, -, last, hlast, rfl⟩ := hb
  refine ⟨first, ?_, last, ?_, rfl⟩
  · rw [List.head?_append, hfirst]
    rfl
  · rw [← List.append_assoc, List.getLast?_append, hlast]
    rfl

end Covers

namespace Parser

/-- Started at `r`, the parser takes tokens from the front of those that are left, but not the end,
and its result, they and the kind of the token that follows are as `Q` says. -/
def Derives {α : Type} (x : Parser α) (r : Rest) (Q : α → List Token → TokenKind → Prop) : Prop :=
  Gives x r fun a r' => ∃ ts, r.tokens = ts ++ r'.tokens ∧ (∀ t ∈ ts, t.kind ≠ .eof) ∧
    Q a ts (nextKind r'.tokens .eof)

namespace Derives

variable {α β : Type} {x : Parser α} {r : Rest} {Q : α → List Token → TokenKind → Prop}
  {S : β → List Token → TokenKind → Prop}

/-- What is returned at once. -/
theorem pure {a : α} (h : ∀ k, Q a [] k) : Derives (Pure.pure a : Parser α) r Q :=
  Gives.pure ⟨[], rfl, nofun, h _⟩

/-- A refusal gives nothing. -/
theorem fail {fault : SyntaxFault} : Derives (Parser.fail fault : Parser α) r Q :=
  nofun

/-- One parser after another. -/
theorem bind {f : α → Parser β} (hx : Derives x r Q)
    (hf : ∀ a ts r', r.tokens = ts ++ r'.tokens → Q a ts (nextKind r'.tokens .eof) →
      Derives (f a) r' fun b us k => Q a ts (nextKind us k) → S b (ts ++ us) k) :
    Derives (x >>= f) r S := by
  refine Gives.bind hx fun a r' ⟨ts, hts, hend, ha⟩ =>
    (hf a ts r' hts ha).weaken fun b r'' ⟨us, hus, hend', hb⟩ => ?_
  refine ⟨ts ++ us, by rw [hts, hus, List.append_assoc],
    List.forall_mem_append.mpr ⟨hend, hend'⟩, hb ?_⟩
  rwa [hus, nextKind_append] at ha

/-- A result of which another is made. -/
theorem bind_pure {g : α → β} (hx : Derives x r Q) (hg : ∀ a ts k, Q a ts k → S (g a) ts k) :
    Derives (x >>= fun a => Pure.pure (g a)) r S :=
  hx.bind fun a ts _ _ _ => pure fun k ha => by rw [List.append_nil]; exact hg a ts k ha

/-- A result that is wrapped. -/
theorem map {g : α → β} (hx : Derives x r Q) (hg : ∀ a ts k, Q a ts k → S (g a) ts k) :
    Derives (g <$> x) r S := by
  rw [← bind_pure_comp]
  exact hx.bind_pure hg

/-- A weaker property of the results. -/
theorem weaken {R : α → List Token → TokenKind → Prop} (hx : Derives x r Q)
    (h : ∀ a ts k, Q a ts k → R a ts k) : Derives x r R :=
  Gives.weaken hx fun a _ ⟨ts, hts, hend, ha⟩ => ⟨ts, hts, hend, h a ts _ ha⟩

/-- Looking at the next token. -/
theorem peek_bind {f : Token → Parser β} (hf : Derives (f r.head) r S) :
    Derives (peek >>= f) r S :=
  hf

/-- Testing the next token. -/
theorem check_bind {kind : TokenKind} {f : Bool → Parser β}
    (hf : Derives (f (r.head.kind == kind)) r S) : Derives (check kind >>= f) r S :=
  hf

/-- Counting the tokens. -/
theorem remaining_bind {f : Nat → Parser β} (hf : Derives (f r.size) r S) :
    Derives (remaining >>= f) r S :=
  hf

/-- Taking the next token, which is not the end. -/
theorem advance_bind {f : Token → Parser β} (hr : r.head.kind ≠ .eof)
    (hf : r.tokens = r.head :: r.tail.tokens →
      Derives (f r.head) r.tail fun b us k => S b (r.head :: us) k) :
    Derives (advance >>= f) r S := by
  have hcons : r.tokens = r.head :: r.tail.tokens := by
    change (r.tokens.headD default).kind ≠ .eof at hr
    change r.tokens = r.tokens.headD default :: r.tokens.tail
    cases hts : r.tokens with
    | nil => rw [hts] at hr; exact (hr rfl).elim
    | cons t ts => rfl
  exact Gives.weaken (hf hcons) fun b r' ⟨us, hus, hend, hb⟩ =>
    ⟨_, by rw [hcons, hus]; rfl, List.forall_mem_cons.mpr ⟨hr, hend⟩, hb⟩

/-- Taking a token that has to be there. -/
theorem expect_bind {kind : TokenKind} {f : Token → Parser β} (hne : kind ≠ .eof)
    (hf : ∀ t r', t.kind = kind → r.tokens = t :: r'.tokens →
      Derives (f t) r' fun b us k => S b (t :: us) k) : Derives (expect kind >>= f) r S := by
  rw [expect, bind_assoc]
  refine peek_bind ?_
  split
  · exact fail
  split
  · next hkind =>
    rw [beq_iff_eq] at hkind
    exact advance_bind (by rwa [hkind]) fun hcons => hf _ _ hkind hcons
  · exact fail

/-- Taking a token that may be there. -/
theorem eat_bind {kind : TokenKind} {f : Option Token → Parser β} (hne : kind ≠ .eof)
    (hsome : ∀ t r', t.kind = kind → r.tokens = t :: r'.tokens →
      Derives (f (some t)) r' fun b us k => S b (t :: us) k)
    (hnone : Derives (f none) r fun b us k => nextKind us k ≠ kind → S b us k) :
    Derives (eat? kind >>= f) r S := by
  rw [eat?, bind_assoc]
  refine check_bind ?_
  split
  · next hkind =>
    rw [beq_iff_eq] at hkind
    rw [map_eq_pure_bind, bind_assoc]
    refine advance_bind (by rwa [hkind]) fun hcons => ?_
    rw [pure_bind]
    exact hsome _ _ hkind hcons
  · next hkind =>
    rw [pure_bind]
    refine Gives.weaken hnone fun b r' hgives => ?_
    obtain ⟨us, hus, hend, hb⟩ := hgives
    refine ⟨us, hus, hend, hb ?_⟩
    rw [← nextKind_append, ← hus, ← r.kind_head]
    exact mt beq_iff_eq.mpr hkind

end Derives

/-! ## Names, types and lists with commas -/

/-- The parser gives the node of the tokens that it takes. -/
def Faithful {α : Type} (x : Parser α) (f : α → Node) : Prop :=
  ∀ r, Derives x r fun a ts k => (f a).SpelledBy Covers ts k

/-- A name. -/
theorem faithful_ident : Faithful ident .ident := by
  intro r
  refine Derives.peek_bind ?_
  split
  · next hkind =>
    refine Derives.advance_bind (by rw [hkind]; nofun) fun _ => Derives.pure fun k => ?_
    exact .mk rfl (Covers.token _) (.cons_word hkind (.nil k))
  · exact Derives.fail

section Lists

variable {α : Type} {item : Parser α} {f : α → Node}

/-- Items with commas between them. A comma that nothing follows is the last token of all. -/
theorem derives_commaItems (hitem : Faithful item f) {bound : Nat} {r : Rest} (hr : r.size ≤ bound)
    (done : Array α) :
    Derives (commaItems item bound done) r fun bs ts k => k ≠ .eof →
      ∃ a as, bs = done.toList ++ a :: as ∧ Spells Covers (commaParts ((a :: as).map f)) ts k := by
  induction bound generalizing r done with
  | zero =>
    have hnil : r.tokens = [] := List.length_eq_zero_iff.mp (r.size_eq ▸ Nat.le_zero.mp hr)
    exact Gives.pure ⟨[], rfl, nofun, fun hk => (hk (by rw [hnil]; rfl)).elim⟩
  | succ bound ih =>
    refine (hitem r).bind fun a us r₁ hus _ => Derives.eat_bind nofun (fun t r₂ ht hcons => ?_) ?_
    · have hsize : r₂.size ≤ bound := by
        rw [r.size_eq, hus, hcons, List.length_append, List.length_cons] at hr
        rw [r₂.size_eq]
        omega
      refine (ih hsize (done.push a)).weaken fun bs ts k hbs ha hk => ?_
      obtain ⟨b, as, rfl, has⟩ := hbs hk
      refine ⟨a, b :: as, by simp, .cons_node ?_ (.cons_word ht has)⟩
      rwa [nextKind_cons] at ha ⊢
    · refine Derives.pure fun k _ ha _ => ⟨a, [], by simp, ?_⟩
      rw [List.append_nil]
      exact Spells.single_iff.mpr ha

/-- A list with commas that something follows. -/
theorem derives_commaList (close : TokenKind) (hitem : Faithful item f) (r : Rest) :
    Derives (commaList close item) r fun as ts k => k ≠ .eof →
      Spells Covers (commaParts (as.map f)) ts k := by
  refine Derives.check_bind ?_
  split
  · exact Derives.pure fun k _ => .nil k
  · refine Derives.remaining_bind ((derives_commaItems hitem (Nat.le_refl _) #[]).weaken
      fun bs ts k hbs hk => ?_)
    obtain ⟨a, as, rfl, has⟩ := hbs hk
    exact has

end Lists

/-- A type. -/
theorem faithful_typeExprIn (bound : Nat) : Faithful (typeExprIn bound) .type := by
  have hpath (r : Rest) : Derives (TypeExpr.path <$> ident) r fun t ts k =>
      (Node.type t).SpelledBy Covers ts k :=
    (faithful_ident r).map fun name ts k hname => .mk rfl hname.span (Spells.single_iff.mpr hname)
  induction bound with
  | zero => exact hpath
  | succ bound ih =>
    intro r
    refine Derives.eat_bind nofun (fun kw r₁ hkw _ => ?_) ((hpath r).weaken fun _ _ _ h _ => h)
    refine Derives.expect_bind nofun fun opening r₂ hopening _ => ?_
    refine (derives_commaList .rParen ih r₂).bind fun params us r₃ _ _ => ?_
    refine Derives.expect_bind nofun fun close r₄ hclose _ => ?_
    refine Derives.expect_bind nofun fun arrow r₅ harrow _ => ?_
    refine (ih r₅).bind_pure fun ret vs k hret hparams => ?_
    rw [nextKind_cons] at hparams
    exact .mk rfl ((Covers.token kw).upTo hret.span (opening :: (us ++ [close, arrow])) (by simp))
      (.cons_word hkw (.cons_word hopening (.append (hparams (hclose ▸ nofun))
        (.cons_word hclose (.cons_word harrow (Spells.single_iff.mpr hret))))))

/-- A type. -/
theorem faithful_typeExpr : Faithful typeExpr .type :=
  fun r => Derives.remaining_bind (faithful_typeExprIn _ r)

/-- A type that may be stated, behind its mark. -/
theorem derives_statedType (r : Rest) :
    Derives statedType r fun ty ts k => Spells Covers (statedParts .colon ty) ts k := by
  refine Derives.eat_bind nofun (fun t r₁ ht _ => ?_) (Derives.pure fun k _ => .nil k)
  exact (faithful_typeExpr r₁).map fun ty ts k hty => .cons_word ht (Spells.single_iff.mpr hty)

/-- The span of a parameter reaches to the end of its type, if there is one. -/
theorem covers_param {name : Ident} {ty : Option TypeExpr} {us vs : List Token} {k : TokenKind}
    (hname : Covers name.span us) (hty : Spells Covers (statedParts .colon ty) vs k) :
    Covers (name.span.to ((ty.map TypeExpr.span).getD name.span)) (us ++ vs) := by
  cases ty with
  | none =>
    obtain rfl := Spells.nil_iff.mp hty
    rw [List.append_nil]
    exact hname
  | some t =>
    obtain ⟨mark, ws, rfl, -, hty⟩ := Spells.word_iff.mp hty
    exact hname.upTo (Spells.single_iff.mp hty).span [mark] rfl

/-- A parameter. -/
theorem faithful_param : Faithful param .param := by
  intro r
  refine (faithful_ident r).bind fun name us r₁ _ _ => ?_
  refine (derives_statedType r₁).bind_pure fun ty vs k hty hname => ?_
  exact .mk rfl (covers_param hname.span hty) (.cons_node hname hty)

/-! ## Expressions -/

namespace Level

/-- The parsers of a level give the nodes of the tokens that they take. -/
structure Sound (inner : Level) : Prop where
  /-- What they give is shaped. -/
  shapes : inner.Shapes
  /-- An expression. -/
  expr : ∀ least, Faithful (inner.expr least) .expr
  /-- A block. -/
  block : Faithful inner.block .block

namespace Sound

variable {inner : Level}

/-- The arguments behind a callee. -/
theorem call (h : inner.Sound) (callee : Expr) (r : Rest) :
    Derives (call inner callee) r fun e ts k =>
      ∀ us, (Node.expr callee).SpelledBy Covers us (nextKind ts k) →
        (Node.expr e).SpelledBy Covers (us ++ ts) k := by
  refine Derives.expect_bind nofun fun opening r₁ hopening _ => ?_
  refine (derives_commaList .rParen (h.expr 0) r₁).bind fun args vs r₂ _ _ => ?_
  refine Derives.expect_bind nofun fun close r₃ hclose _ =>
    Derives.pure fun k hargs us hcallee => ?_
  rw [nextKind_cons] at hargs
  exact .mk rfl (hcallee.span.upTo (Covers.token close) (opening :: vs) (by simp))
    (.cons_node hcallee (.cons_word hopening
      (.append (hargs (hclose ▸ nofun)) (.cons_word hclose (.nil k)))))

/-- A conditional. -/
theorem condIn (h : inner.Sound) (bound : Nat) : Faithful (condIn inner bound) .expr := by
  induction bound with
  | zero => exact fun r => Derives.peek_bind Derives.fail
  | succ bound ih =>
    intro r
    refine Derives.expect_bind nofun fun kw r₁ hkw _ => ?_
    refine (h.expr 0 r₁).bind fun test us r₂ _ _ => ?_
    refine (h.block r₂).bind fun yes vs r₃ _ _ => ?_
    -- what follows `else` is a node that ends the whole
    have hno (t : Token) (ht : t.kind = .kwElse) (no : Expr) (ws : List Token) (k : TokenKind)
        (hno : (Node.expr no).SpelledBy Covers ws k)
        (hyes : (Node.block yes).SpelledBy Covers vs t.kind)
        (htest : (Node.expr test).SpelledBy Covers us (nextKind (vs ++ t :: ws) k)) :
        (Node.expr (.cond test yes (some no) (kw.span.to no.span))).SpelledBy Covers
          (kw :: (us ++ (vs ++ t :: ws))) k :=
      .mk rfl ((Covers.token kw).upTo hno.span (us ++ (vs ++ [t])) (by simp))
        (.cons_word hkw (.cons_node htest (.cons_node hyes (.cons_word ht
          (Spells.single_iff.mpr hno)))))
    refine Derives.eat_bind nofun (fun t r₄ ht _ => ?_) ?_
    · refine Derives.check_bind ?_
      split
      · exact (ih r₄).bind_pure fun no ws k => hno t ht no ws k
      · have hblock := (h.block r₄).map
          (S := fun e ts k => (Node.expr e).SpelledBy Covers ts k) (g := Expr.block)
          fun b ts k hb => .mk rfl hb.span (Spells.single_iff.mpr hb)
        exact hblock.bind_pure fun no ws k => hno t ht no ws k
    · refine Derives.pure fun k hk hyes htest => ?_
      exact .mk rfl ((Covers.token kw).upTo hyes.span us (by simp))
        (.cons_word hkw (.cons_node htest (.cons_node hyes (.ahead hk (.nil k)))))

/-- A loop. -/
theorem loop (h : inner.Sound) : Faithful (loop inner) .expr := by
  intro r
  refine Derives.expect_bind nofun fun kw r₁ hkw _ => ?_
  refine (h.expr 0 r₁).bind fun test us r₂ _ _ => ?_
  refine (h.block r₂).bind_pure fun body vs k hbody htest => ?_
  exact .mk rfl ((Covers.token kw).upTo hbody.span us rfl)
    (.cons_word hkw (.cons_node htest (Spells.single_iff.mpr hbody)))

/-- The parameters of a closure, the first token of which is the next one. -/
theorem derives_closureParams (r : Rest) :
    Derives closureParams r fun params ts k =>
      (∃ ps ∈ closureForms params, Spells Covers ps ts k) ∧ ∃ us, ts = r.head :: us := by
  refine Derives.eat_bind (by decide) (fun t r₁ ht hr => Derives.pure fun k => ?_) ?_
  · exact ⟨⟨_, mem_closureForms.mpr (.inr ⟨rfl, rfl⟩), .cons_word ht (.nil k)⟩,
      [], by rw [Rest.head, hr]; rfl⟩
  · refine Derives.expect_bind (by decide) fun opening r₁ hopening hr => ?_
    refine (derives_commaList .pipe faithful_param r₁).bind fun params us r₂ _ _ => ?_
    refine Derives.expect_bind (by decide) fun close r₃ hclose _ => Derives.pure fun k hparams _ => ?_
    rw [nextKind_cons] at hparams
    refine ⟨⟨_, mem_closureForms.mpr (.inl rfl), .cons_word hopening
      (.append (hparams (by rw [hclose]; decide)) (.cons_word hclose (.nil k)))⟩, us ++ [close], ?_⟩
    rw [Rest.head, hr]
    rfl

/-- A closure. -/
theorem closure (h : inner.Sound) : Faithful (closure inner) .expr := by
  intro r
  refine Derives.peek_bind ((derives_closureParams r).bind fun params us r₁ _ hparams => ?_)
  obtain ⟨-, vs, rfl⟩ := hparams
  refine (h.expr 0 r₁).bind_pure fun body ws k hbody hparams => ?_
  obtain ⟨⟨ps, hps, hspells⟩, -⟩ := hparams
  exact ⟨_, List.mem_map_of_mem hps, (Covers.token r.head).upTo hbody.span vs (by simp),
    hspells.append (Spells.single_iff.mpr hbody)⟩

/-- The token of a literal. -/
theorem kind_of_literal? {k : TokenKind} {v : Literal} (h : literal? k = some v) : k = v.kind := by
  unfold literal? at h
  split at h <;> cases h <;> rfl

/-- An operand. -/
theorem operand (h : inner.Sound) : Faithful (operand inner) .expr := by
  intro r
  have hunary (op : UnaryOp) (hkind : r.head.kind = op.kind) :
      Derives (do let _ ← advance; let x ← inner.expr prefixPower
                  return Expr.unary op x (r.head.span.to x.span)) r fun e ts k =>
        (Node.expr e).SpelledBy Covers ts k := by
    refine Derives.advance_bind (by rw [hkind]; cases op <;> nofun) fun _ => ?_
    refine (h.expr prefixPower _).bind_pure fun x us k hx => ?_
    exact .mk rfl ((Covers.token r.head).upTo hx.span [] rfl)
      (.cons_word hkind (Spells.single_iff.mpr hx))
  refine Derives.peek_bind ?_
  split
  · next v hv =>
    have hkind := kind_of_literal? hv
    refine Derives.advance_bind (fun he => ?_) fun _ => Derives.pure fun k => ?_
    · rw [he] at hv
      cases hv
    · exact .mk rfl (Covers.token _) (.cons_word hkind (.nil k))
  split
  · next hkind => exact hunary .not hkind
  · next hkind => exact hunary .neg hkind
  · exact (faithful_ident r).map fun name ts k hname => hname.expr_var
  · next hkind =>
    refine Derives.advance_bind (by rw [hkind]; nofun) fun _ => ?_
    refine (h.expr 0 _).bind fun x us r₁ _ _ => ?_
    refine Derives.expect_bind nofun fun close r₂ hclose _ => Derives.pure fun k hx => ?_
    exact .mk rfl ((Covers.token r.head).upTo (Covers.token close) us rfl)
      (.cons_word hkind (.cons_node hx (.cons_word hclose (.nil k))))
  · exact (h.block r).map fun b ts k hb => .mk rfl hb.span (Spells.single_iff.mpr hb)
  · exact Derives.remaining_bind (h.condIn _ r)
  · exact h.loop r
  · exact h.closure r
  · exact h.closure r
  · exact Derives.fail
  · exact Derives.fail

/-- The calls and operators behind an operand. -/
theorem operators (h : inner.Sound) (least bound : Nat) (lhs : Expr) (r : Rest) :
    Derives (operators inner least bound lhs) r fun e ts k =>
      ∀ us, (Node.expr lhs).SpelledBy Covers us (nextKind ts k) →
        (Node.expr e).SpelledBy Covers (us ++ ts) k := by
  induction bound generalizing lhs r with
  | zero => exact Derives.pure fun k us hlhs => by rwa [List.append_nil]
  | succ bound ih =>
    have hstop : Derives (pure lhs) r fun e ts k =>
        ∀ us, (Node.expr lhs).SpelledBy Covers us (nextKind ts k) →
          (Node.expr e).SpelledBy Covers (us ++ ts) k :=
      Derives.pure fun k us hlhs => by rwa [List.append_nil]
    refine Derives.peek_bind ?_
    dsimp only
    split
    · next hparen =>
      refine (h.call lhs r).bind fun e vs r₁ _ _ =>
        (ih e r₁).weaken fun e' ws k he' hcall us hlhs => ?_
      rw [nextKind_append] at hlhs
      rw [← List.append_assoc]
      exact he' _ (hcall us hlhs)
    split
    · exact hstop
    split
    · exact hstop
    next hsome hless =>
    -- the operand so far, the operator and what is read behind it spell an operation
    obtain ⟨hkind, rfl⟩ := infixOp?_eq_some hsome
    refine Derives.advance_bind (fun he => ?_) fun _ => ?_
    · rw [he] at hsome
      cases hsome
    refine (h.expr _ _).bind fun rhs vs r₁ _ _ => (ih _ r₁).weaken fun e ws k he hrhs us hlhs => ?_
    have := he (us ++ r.head :: vs) (.mk rfl (hlhs.span.upTo hrhs.span [r.head] rfl)
      (.cons_node hlhs (.cons_word hkind (Spells.single_iff.mpr hrhs))))
    simpa using this

/-- An expression. -/
theorem exprBody (h : inner.Sound) (least : Nat) : Faithful (exprBody inner least) .expr := by
  intro r
  refine (h.operand r).bind fun lhs us r₁ _ _ => Derives.remaining_bind ?_
  exact (h.operators least _ lhs r₁).weaken fun e vs k he hlhs => he us hlhs

/-! ## Statements and items -/

/-- A binding. -/
theorem letDecl (h : inner.Sound) : Faithful (letDecl inner) .binding := by
  intro r
  refine Derives.expect_bind nofun fun kw r₁ hkw _ => ?_
  -- the binding from its name on
  have hrest (isMut : Bool) (r : Rest) :
      Derives (do
        let name ← ident
        let ty ← statedType
        let _ ← expect .eq
        let value ← inner.expr 0
        let semi ← expect .semicolon
        return (⟨isMut, name, ty, value, kw.span.to semi.span⟩ : LetDecl)) r fun d ts k =>
      ∀ ws, Spells Covers (if isMut then [.word .kwMut] else []) ws (nextKind ts k) →
        (Node.binding d).SpelledBy Covers (kw :: (ws ++ ts)) k := by
    refine (faithful_ident r).bind fun name us r₁ _ _ => ?_
    refine (derives_statedType r₁).bind fun ty vs r₂ _ _ => ?_
    refine Derives.expect_bind nofun fun eq r₃ heq _ => ?_
    refine (h.expr 0 r₃).bind fun value xs r₄ _ _ => ?_
    refine Derives.expect_bind nofun fun semi r₅ hsemi _ => Derives.pure fun k => ?_
    intro hvalue hty hname ws hmut
    exact .mk rfl ((Covers.token kw).upTo (Covers.token semi) (ws ++ (us ++ (vs ++ (eq :: xs))))
      (by simp)) (.cons_word hkw (.append hmut (.cons_node hname (.append hty
        (.cons_word heq (.cons_node hvalue (.cons_word hsemi (.nil k))))))))
  refine Derives.eat_bind nofun (fun t r₂ ht _ => ?_) ?_
  · exact (hrest true r₂).weaken fun d ts k hd => hd [t] (.cons_word ht (.nil _))
  · exact (hrest false r₁).weaken fun d ts k hd _ => hd [] (.nil _)

/-- A return. -/
theorem returnStmt (h : inner.Sound) : Faithful (returnStmt inner) .stmt := by
  intro r
  refine Derives.expect_bind nofun fun kw r₁ hkw _ => ?_
  -- what is returned, if anything
  have hrest (value : Option Expr) (us : List Token) (r : Rest) :
      Derives (do
        let semi ← expect .semicolon
        return Stmt.ret value (kw.span.to semi.span)) r fun s ts k =>
      Spells Covers ((value.map Node.expr).toList.map .node) us (nextKind ts k) →
        (Node.stmt s).SpelledBy Covers (kw :: (us ++ ts)) k := by
    refine Derives.expect_bind nofun fun semi r₁ hsemi _ => Derives.pure fun k hvalue => ?_
    exact .mk rfl ((Covers.token kw).upTo (Covers.token semi) us rfl)
      (.cons_word hkw (.append hvalue (.cons_word hsemi (.nil k))))
  refine Derives.check_bind ?_
  split
  · exact (hrest none [] r₁).weaken fun s ts k hs => hs (.nil _)
  · refine ((h.expr 0 r₁).map (g := some)
      (S := fun value us k => Spells Covers ((value.map Node.expr).toList.map .node) us k)
      fun e us k he => Spells.single_iff.mpr he).bind fun value us r₂ _ _ => hrest value us r₂

/-- An expression, and a token that cannot go on with it. -/
theorem expr_stops (h : inner.Sound) (r : Rest) :
    Derives (inner.expr 0) r fun e ts k => (Node.expr e).SpelledBy Covers ts k ∧ Stops 0 k := by
  intro e r' he
  obtain ⟨ts, hts, hend, hspelled⟩ := h.expr 0 r e r' he
  have hstops := (h.shapes.expr 0 r e r' he).2.stops
  rw [Rest.kind_head] at hstops
  exact ⟨ts, hts, hend, hspelled, hstops⟩

/-- The node of an entry: a statement or the value of the block. -/
def entryNode : Stmt ⊕ Expr → Node
  | .inl s => .stmt s
  | .inr e => .expr e

/-- An entry that starts with an expression. -/
theorem exprEntry (h : inner.Sound) : Faithful (exprEntry inner) entryNode := by
  intro r
  refine (h.expr_stops r).bind fun x us r₁ _ _ => ?_
  refine Derives.eat_bind nofun (fun eq r₂ heq _ => ?_) ?_
  · dsimp only
    split
    · next target =>
      refine (h.expr 0 r₂).bind fun value vs r₃ _ _ => ?_
      refine Derives.expect_bind nofun fun semi r₄ hsemi _ => Derives.pure fun k hvalue hx => ?_
      exact .mk rfl (hx.1.span.upTo (Covers.token semi) (eq :: vs) (by simp))
        (.cons_node (Spells.single_iff.mp (hx.1.of_form rfl)) (.cons_word heq
          (.cons_node hvalue (.cons_word hsemi (.nil k)))))
    · exact Derives.fail
  refine Derives.eat_bind nofun (fun semi r₂ hsemi _ => Derives.pure fun k _ hx => ?_) ?_
  · exact .mk rfl (hx.1.span.upTo (Covers.token semi) [] rfl)
      (.cons_node hx.1 (.cons_word hsemi (.nil k)))
  refine Derives.peek_bind ?_
  dsimp only
  split
  · exact Derives.pure fun k _ _ hx => by rw [List.append_nil]; exact hx.1
  next hbrace =>
  split
  · next hblock =>
    refine Gives.pure ⟨[], rfl, nofun, fun _ _ hx => ?_⟩
    have hne : nextKind r₁.tokens .eof ≠ .rBrace := by
      rw [← Rest.kind_head]
      exact mt beq_iff_eq.mpr hbrace
    exact ⟨_, mem_forms_exprStmt.mpr (.inr ⟨hblock, rfl⟩), by rw [List.append_nil]; exact hx.1.span,
      .cons_node hx.1 (.ahead ⟨hx.2, hne⟩ (.nil _))⟩
  · exact Derives.fail

/-- An entry of a block. -/
theorem entry (h : inner.Sound) : Faithful (entry inner) entryNode := by
  intro r
  refine Derives.peek_bind ?_
  split
  · refine (h.letDecl r).bind_pure fun d ts k hd => ?_
    exact .mk rfl hd.span (hd.of_form rfl)
  · exact (h.returnStmt r).map fun s ts k hs => hs
  · exact h.exprEntry r

/-- The entries of a block, behind those in `done`. -/
theorem entries (h : inner.Sound) (bound : Nat) (done : Array Stmt) (r : Rest) :
    Derives (entries inner bound done) r fun q ts k =>
      ∃ ss, q.1 = done.toList ++ ss ∧ Spells Covers (entryParts ss q.2) ts k := by
  induction bound generalizing done r with
  | zero => exact Derives.pure fun k => ⟨[], (List.append_nil _).symm, .nil k⟩
  | succ bound ih =>
    refine Derives.check_bind ?_
    split
    · exact Derives.pure fun k => ⟨[], (List.append_nil _).symm, .nil k⟩
    refine (h.entry r).bind fun q us r₁ _ _ => ?_
    cases q with
    | inl s =>
      refine (ih (done.push s) r₁).weaken fun q ts k hq hs => ?_
      obtain ⟨ss, hq, hss⟩ := hq
      exact ⟨s :: ss, by simp [hq], .cons_node hs hss⟩
    | inr e => exact Derives.pure fun k he => ⟨[], (List.append_nil _).symm, .cons_node he (.nil k)⟩

/-- A block. -/
theorem blockBody (h : inner.Sound) : Faithful (blockBody inner) .block := by
  intro r
  refine Derives.expect_bind nofun fun opening r₁ hopening _ => Derives.remaining_bind ?_
  refine (h.entries _ #[] r₁).bind fun q us r₂ _ _ => ?_
  refine Derives.expect_bind nofun fun close r₃ hclose _ => Derives.pure fun k hq => ?_
  obtain ⟨ss, hq, hss⟩ := hq
  obtain ⟨stmts, tail⟩ := q
  obtain rfl : stmts = ss := hq
  rw [nextKind_cons, hclose] at hss
  exact .mk rfl ((Covers.token opening).upTo (Covers.token close) us rfl)
    (.cons_word hopening (.append (by rwa [nextKind_cons, hclose]) (.cons_word hclose (.nil k))))

end Sound

/-- All levels give the nodes of the tokens that they take. -/
theorem sound_ofRoom (room : Nat) : (ofRoom room).Sound := by
  induction room with
  | zero => exact ⟨shapes_ofRoom 0, fun _ _ => Derives.fail, fun _ => Derives.fail⟩
  | succ room ih => exact ⟨shapes_ofRoom _, ih.exprBody, ih.blockBody⟩

end Level

/-- Type parameters. -/
theorem derives_generics (r : Rest) :
    Derives generics r fun names ts k => ∃ ps ∈ genericForms names, Spells Covers ps ts k := by
  refine Derives.eat_bind nofun (fun opening r₁ hopening _ => ?_) ?_
  · refine (derives_commaList .gt faithful_ident r₁).bind fun names us r₂ _ _ => ?_
    refine Derives.expect_bind nofun fun close r₃ hclose _ => Derives.pure fun k hnames => ?_
    rw [nextKind_cons] at hnames
    exact ⟨_, mem_genericForms.mpr (.inl rfl), .cons_word hopening
      (.append (hnames (hclose ▸ nofun)) (.cons_word hclose (.nil k)))⟩
  · exact Derives.pure fun k _ => ⟨_, mem_genericForms.mpr (.inr ⟨rfl, rfl⟩), .nil k⟩

/-- A function. -/
theorem faithful_fnDecl : Faithful fnDecl .function := by
  intro r
  refine Derives.expect_bind nofun fun kw r₁ hkw _ => ?_
  refine (faithful_ident r₁).bind fun name us r₂ _ _ => ?_
  refine (derives_generics r₂).bind fun names vs r₃ _ _ => ?_
  refine Derives.expect_bind nofun fun opening r₄ hopening _ => ?_
  refine (derives_commaList .rParen faithful_param r₄).bind fun params ws r₅ _ _ => ?_
  refine Derives.expect_bind nofun fun close r₆ hclose _ => ?_
  -- the block behind the type of the result
  have hrest (retTy : Option TypeExpr) (xs : List Token) (r : Rest) :
      Derives (do
        let body ← outermost.block
        return (⟨name, names, params, retTy, body, kw.span.to body.span⟩ : FnDecl)) r fun d ys k =>
      Spells Covers (statedParts .arrow retTy) xs (nextKind ys k) →
        (nextKind (close :: (xs ++ ys)) k ≠ .eof →
          Spells Covers (commaParts (params.map .param)) ws (nextKind (close :: (xs ++ ys)) k)) →
        (∃ ps ∈ genericForms names,
          Spells Covers ps vs (nextKind (opening :: (ws ++ close :: (xs ++ ys))) k)) →
        (Node.ident name).SpelledBy Covers us
          (nextKind (vs ++ opening :: (ws ++ close :: (xs ++ ys))) k) →
        (Node.function d).SpelledBy Covers
          (kw :: (us ++ (vs ++ opening :: (ws ++ close :: (xs ++ ys))))) k := by
    refine ((Level.sound_ofRoom maxNesting).block r).bind_pure fun body ys k hbody => ?_
    intro hret hparams hnames hname
    obtain ⟨ps, hps, hnames⟩ := hnames
    rw [nextKind_cons] at hparams
    exact ⟨_, List.mem_map_of_mem hps,
      (Covers.token kw).upTo hbody.span (us ++ (vs ++ opening :: (ws ++ close :: xs))) (by simp),
      .cons_word hkw (.cons_node hname (.append hnames (.cons_word hopening (.append
        (hparams (hclose ▸ nofun)) (.cons_word hclose (.append hret
          (Spells.single_iff.mpr hbody)))))))⟩
  refine Derives.eat_bind nofun (fun t r₇ ht _ => ?_) ?_
  · refine ((faithful_typeExpr r₇).map (g := some)
      (S := fun ty ts k => Spells Covers (statedParts .arrow ty) (t :: ts) k)
      fun ty ts k hty => .cons_word ht (Spells.single_iff.mpr hty)).bind fun ty xs r₈ _ _ => ?_
    exact hrest ty (t :: xs) r₈
  · exact (hrest none [] r₆).weaken fun d ys k hd _ => hd (.nil _)

/-- The items of a module, behind those in `done`, up to the end. -/
theorem derives_items {bound : Nat} {r : Rest} (hr : r.size ≤ bound) (done : Array Item) :
    Derives (items bound done) r fun is ts k => k = .eof ∧
      ∃ js, is = done.toList ++ js ∧ Spells Covers ((js.map Item.node).map .node) ts k := by
  induction bound generalizing r done with
  | zero =>
    have hnil : r.tokens = [] := List.length_eq_zero_iff.mp (r.size_eq ▸ Nat.le_zero.mp hr)
    exact Gives.pure ⟨[], rfl, nofun, by rw [hnil]; rfl, [], (List.append_nil _).symm, .nil _⟩
  | succ bound ih =>
    have hitem (item : Item) (us : List Token) (r₁ : Rest) (hus : r.tokens = us ++ r₁.tokens)
        (hne : us ≠ []) :
        Derives (items bound (done.push item)) r₁ fun is ts k =>
          item.node.SpelledBy Covers us (nextKind ts k) → k = .eof ∧ ∃ js,
            is = done.toList ++ js ∧ Spells Covers ((js.map Item.node).map .node) (us ++ ts) k := by
      have hsize : r₁.size ≤ bound := by
        have := List.length_pos_iff.mpr hne
        rw [r.size_eq, hus, List.length_append] at hr
        rw [r₁.size_eq]
        omega
      refine (ih hsize (done.push item)).weaken fun is ts k his hitem => ?_
      obtain ⟨hk, js, his, hjs⟩ := his
      exact ⟨hk, item :: js, by simp [his], .cons_node hitem hjs⟩
    refine Derives.peek_bind ?_
    split
    · next hkind =>
      refine Gives.pure ⟨[], rfl, nofun, ?_, [], (List.append_nil _).symm, .nil _⟩
      rw [← Rest.kind_head, hkind]
    · exact ((Level.sound_ofRoom maxNesting).letDecl r).bind fun d us r₁ hus hd =>
        hitem (.binding d) us r₁ hus hd.span.ne_nil
    · exact (faithful_fnDecl r).bind fun d us r₁ hus hd =>
        hitem (.function d) us r₁ hus hd.span.ne_nil
    · exact Derives.fail

/-- A whole module: its items up to the end, and its span from the next token to the end. -/
theorem derives_source (r : Rest) :
    Gives source r fun m r' => m.span = r.head.span.to r'.head.span ∧
      ∃ ts, r.tokens = ts ++ r'.tokens ∧ (∀ t ∈ ts, t.kind ≠ .eof) ∧
        nextKind r'.tokens .eof = .eof ∧
        Spells Covers ((m.items.map Item.node).map .node) ts .eof := by
  change Gives (items r.size #[] >>= fun is => do
    return (⟨is, r.head.span.to (← peek).span⟩ : Module)) r _
  have hitems := derives_items (Nat.le_refl r.size) #[]
  refine Gives.bind hitems fun is r' ⟨ts, hts, hend, hk, js, his, hjs⟩ => ?_
  obtain rfl : is = js := his
  exact Gives.peek_bind (Gives.pure ⟨rfl, ts, hts, hend, hk, hk ▸ hjs⟩)

end Parser

/-- The end is the last token, so it is the only one from where it stands. -/
theorem eq_singleton_of_append {ts us vs : List Token} {e : Token} (h : ts ++ us = vs ++ [e])
    (hts : ∀ t ∈ ts, t.kind ≠ .eof) (hus : nextKind us .eof = .eof)
    (hvs : ∀ t ∈ vs, t.kind ≠ .eof) (he : e.kind = .eof) : us = [e] := by
  rcases List.append_eq_append_iff.mp h with ⟨ws, rfl, rfl⟩ | ⟨ws, rfl, hws⟩
  · cases ws with
    | nil => rfl
    | cons t ws => exact (hvs t (by simp) hus).elim
  · cases ws with
    | nil => exact hws.symm
    | cons t ws =>
      obtain ⟨rfl, -⟩ := List.cons.inj hws
      exact (hts e (by simp) he).elim

/-- What is parsed is spelled by the tokens of the source, and every span in it goes from the first
token of its node to the last. -/
theorem spelled_of_parse {src : String} {m : Module} (h : parse src = .ok m) :
    (Node.root m).SpelledBy Covers (tokens src) .eof := by
  unfold parse StateT.run at h
  cases hp : Parser.source (.ofTokens (tokens src)) with
  | error e => rw [hp] at h; cases h
  | ok q =>
    rw [hp] at h
    cases h
    obtain ⟨hspan, ts, hts, hend, hk, hitems⟩ := Parser.derives_source _ q.1 q.2 hp
    -- the mark at the end is the only one, so it is all that remains
    obtain ⟨us, hus, hscanned⟩ := exists_tokens src
    have hlast := eq_singleton_of_append (hts.symm.trans hus) hend hk
      (fun t ht => (hscanned t ht).ne_eof) rfl
    change tokens src = ts ++ q.2.tokens at hts
    rw [hlast] at hts
    refine .mk rfl ⟨(Rest.ofTokens (tokens src)).head, ?_, q.2.head, ?_, hspan⟩ ?_
    · rw [Rest.head, Rest.ofTokens, hts]
      cases ts <;> rfl
    · rw [Rest.head, hlast, hts, List.getLast?_concat]
      rfl
    · rw [hts]
      exact hitems.append (.cons_word rfl (.nil _))

end ClosureEnv.Syntax
