import ClosureEnv.Proofs.Syntax.Grammar
import ClosureEnv.Syntax.Parser

/-!
# What a parser takes

`Takes` says of a parser which tokens it takes and what it makes of them, given the kind of the
token that follows. The parsers of names, types and parameters, and of lists of such, take the
tokens that spell them.
-/

namespace ClosureEnv.Syntax

open ClosureEnv.Syntax.Parser

/-! ## What a parser takes -/

/-- The kinds of the tokens that are left. -/
def Rest.kinds (r : Rest) : List TokenKind :=
  r.tokens.map Token.kind

/-- The next token is the first. -/
theorem Rest.kind_head (r : Rest) : r.head.kind = nextKind r.tokens .eof := by
  unfold head
  cases r.tokens <;> rfl

/-- The next token is followed by tokens of those kinds. -/
theorem Rest.kind_head_of_kinds {r : Rest} {ts : List Token} {rest : List TokenKind}
    (h : r.kinds = ts.map Token.kind ++ rest) : r.head.kind = nextKind ts (rest.headD .eof) := by
  have hnext : nextKind r.tokens .eof = r.kinds.headD .eof := rfl
  rw [r.kind_head, hnext, h]
  cases ts <;> rfl

namespace Parser

/-- In front of tokens of the kinds of `ts` and one of kind `k`, the parser takes the former, and
its result satisfies `Q`. -/
def Takes {α : Type} (x : Parser α) (ts : List Token) (k : TokenKind) (Q : α → Prop) : Prop :=
  ∀ r rest, r.kinds = ts.map Token.kind ++ rest → rest.headD TokenKind.eof = k →
    ∃ a r', x r = .ok (a, r') ∧ Q a ∧ r'.kinds = rest

namespace Takes

variable {α β : Type} {x : Parser α} {f : α → Parser β} {ts us : List Token} {k : TokenKind}
  {Q : α → Prop} {S : β → Prop}

/-- What is returned at once. -/
theorem pure {a : α} (h : Q a) : Takes (Pure.pure a : Parser α) [] k Q :=
  fun r _ hr _ => ⟨a, r, rfl, h, hr⟩

/-- One parser after another. The first is followed by what the second takes. -/
theorem bind (hx : Takes x ts (nextKind us k) Q) (hf : ∀ a, Q a → Takes (f a) us k S) :
    Takes (x >>= f) (ts ++ us) k S := by
  intro r rest hr hk
  rw [List.map_append, List.append_assoc] at hr
  have hnext : (us.map Token.kind ++ rest).headD TokenKind.eof = nextKind us k := by
    rw [← hk]
    cases us <;> rfl
  obtain ⟨a, r', hxr, ha, hr'⟩ := hx r _ hr hnext
  obtain ⟨b, r'', hfr, hb, hr''⟩ := hf a ha r' rest hr' hk
  exact ⟨b, r'', by change (x r >>= fun q => f q.1 q.2) = _; rw [hxr]; exact hfr, hb, hr''⟩

/-- A result of which another is made. -/
theorem bind_pure {g : α → β} (hx : Takes x ts k Q) (hg : ∀ a, Q a → S (g a)) :
    Takes (x >>= fun a => Pure.pure (g a)) ts k S := by
  have hpure (a : α) (ha : Q a) : Takes (Pure.pure (g a) : Parser β) [] k S := pure (hg a ha)
  have := Takes.bind hx hpure
  rwa [List.append_nil] at this

/-- A result that is wrapped. -/
theorem map {g : α → β} (hx : Takes x ts k Q) (hg : ∀ a, Q a → S (g a)) :
    Takes (g <$> x) ts k S := by
  rw [← bind_pure_comp]
  exact hx.bind_pure hg

/-- A weaker property of the result. -/
theorem weaken {R : α → Prop} (hx : Takes x ts k Q) (h : ∀ a, Q a → R a) : Takes x ts k R := by
  intro r rest hr hk
  obtain ⟨a, r', hxr, ha, hr'⟩ := hx r rest hr hk
  exact ⟨a, r', hxr, h a ha, hr'⟩

/-- Looking at the next token. -/
theorem peek_bind {f : Token → Parser β}
    (hf : ∀ t, t.kind = nextKind ts k → Takes (f t) ts k S) : Takes (peek >>= f) ts k S := by
  intro r rest hr hk
  exact hf r.head (by rw [Rest.kind_head_of_kinds hr, hk]) r rest hr hk

/-- Counting the tokens, which are no fewer than those to take. -/
theorem remaining_bind {f : Nat → Parser β} (hf : ∀ n, ts.length ≤ n → Takes (f n) ts k S) :
    Takes (remaining >>= f) ts k S := by
  intro r rest hr hk
  refine hf r.size ?_ r rest hr hk
  have hlen : r.size = r.kinds.length := by rw [r.size_eq, Rest.kinds, List.length_map]
  rw [hlen, hr, List.length_append, List.length_map]
  exact Nat.le_add_right ..

/-- Testing the next token. -/
theorem check_bind {kind : TokenKind} {f : Bool → Parser β}
    (hf : Takes (f (nextKind ts k == kind)) ts k S) : Takes (check kind >>= f) ts k S := by
  intro r rest hr hk
  obtain ⟨b, r', hfr, hb, hr'⟩ := hf r rest hr hk
  refine ⟨b, r', ?_, hb, hr'⟩
  change f (r.head.kind == kind) r = _
  rw [Rest.kind_head_of_kinds hr, hk]
  exact hfr

variable {t : Token}

/-- Taking the next token. -/
theorem advance_bind {f : Token → Parser β} (hf : ∀ t', t'.kind = t.kind → Takes (f t') ts k S) :
    Takes (advance >>= f) (t :: ts) k S := by
  intro r rest hr hk
  refine hf r.head (Rest.kind_head_of_kinds hr) r.tail rest ?_ hk
  change r.tokens.tail.map Token.kind = _
  rw [List.map_tail]
  exact congrArg List.tail hr

/-- Taking a token that has to be there. -/
theorem expect_bind {kind : TokenKind} {f : Token → Parser β} (ht : t.kind = kind)
    (herr : ∀ e, kind ≠ .error e) (hf : ∀ t, Takes (f t) ts k S) :
    Takes (expect kind >>= f) (t :: ts) k S := by
  rw [expect, bind_assoc]
  refine peek_bind fun t' ht' => ?_
  rw [nextKind_cons, ht] at ht'
  rw [ht']
  split
  · exact (herr _ rfl).elim
  · rw [if_pos (beq_iff_eq.mpr rfl)]
    exact advance_bind fun t _ => hf t

/-- Taking a token that may be there, and is. -/
theorem eat_bind {kind : TokenKind} {f : Option Token → Parser β} (ht : t.kind = kind)
    (hf : ∀ t, Takes (f (some t)) ts k S) : Takes (eat? kind >>= f) (t :: ts) k S := by
  rw [eat?, bind_assoc]
  refine check_bind ?_
  rw [nextKind_cons, ht, beq_self_eq_true, if_pos rfl, map_eq_pure_bind, bind_assoc]
  exact advance_bind fun t _ => by rw [pure_bind]; exact hf t

/-- Taking no token, since another one follows. -/
theorem no_eat_bind {kind : TokenKind} {f : Option Token → Parser β} (hne : nextKind ts k ≠ kind)
    (hf : Takes (f none) ts k S) : Takes (eat? kind >>= f) ts k S := by
  rw [eat?, bind_assoc]
  refine check_bind ?_
  rw [beq_eq_false_iff_ne.mpr hne, if_neg Bool.false_ne_true, pure_bind]
  exact hf

end Takes

end Parser

variable {At : Span → List Token → Prop} {ts : List Token} {k : TokenKind}

/-! ## Names, types and lists with commas -/

/-- A name is a token. -/
theorem Node.SpelledBy.ident {name : Ident} (h : (Node.ident name).SpelledBy At ts k) :
    ∃ t, ts = [t] ∧ t.kind = .ident name.text := by
  obtain ⟨t, us, rfl, ht, hus⟩ := Spells.word_iff.mp (h.of_form rfl)
  exact ⟨t, by rw [Spells.nil_iff.mp hus], ht⟩

/-- A name is a variable too. -/
theorem Node.SpelledBy.expr_var {name : Ident} (h : (Node.ident name).SpelledBy At ts k) :
    (Node.expr (.var name)).SpelledBy At ts k := by
  obtain ⟨-, -, hat, -⟩ := id h
  exact ⟨_, List.mem_singleton_self _, hat, Spells.single_iff.mpr h⟩

/-- A type starts with a name or a keyword. -/
theorem Node.SpelledBy.type_cons {t : TypeExpr} (h : (Node.type t).SpelledBy At ts k) :
    ∃ u us, ts = u :: us ∧ u.kind ≠ .rParen := by
  cases t with
  | path name =>
    obtain ⟨u, rfl, hu⟩ := (Spells.single_iff.mp (h.of_form rfl)).ident
    exact ⟨u, [], rfl, by rw [hu]; nofun⟩
  | arrow =>
    obtain ⟨u, us, rfl, hu, -⟩ := Spells.word_iff.mp (h.of_form rfl)
    exact ⟨u, us, rfl, by rw [hu]; nofun⟩

/-- A parameter starts with its name. -/
theorem Node.SpelledBy.param_cons {p : Param} (h : (Node.param p).SpelledBy At ts k) :
    ∃ u us, ts = u :: us ∧ u.kind = .ident p.name.text := by
  obtain ⟨us, vs, rfl, hname, -⟩ := Spells.node_iff.mp (h.of_form rfl)
  obtain ⟨u, rfl, hu⟩ := hname.ident
  exact ⟨u, vs, rfl, hu⟩

namespace Parser

/-- A name. -/
theorem takes_ident {name : Ident} (h : (Node.ident name).SpelledBy At ts k) :
    Takes ident ts k fun a => a.spanless = name.spanless := by
  obtain ⟨t, rfl, ht⟩ := h.ident
  refine Takes.peek_bind fun t' ht' => ?_
  rw [nextKind_cons, ht] at ht'
  rw [ht']
  exact Takes.advance_bind fun t _ => .pure rfl

section Lists

variable {α β : Type} {item : Parser α} {f : α → Node} {g : α → β} {close : TokenKind}

/-- Items with commas between them. The bound is enough as each of them takes a token. -/
theorem takes_commaItems {a : α} {as : List α} (hclose : close ≠ .comma)
    (hfirst : ∀ b ∈ a :: as, ∀ us l, (f b).SpelledBy At us l → us ≠ [])
    (hitem : ∀ b ∈ a :: as, ∀ us l, (f b).SpelledBy At us l → us.length ≤ ts.length →
      l = .comma ∨ l = close → Takes item us l fun b' => g b' = g b)
    (h : Spells At (commaParts ((a :: as).map f)) ts close) {bound : Nat}
    (hbound : ts.length ≤ bound) (done : Array α) :
    Takes (commaItems item bound done) ts close
      fun bs => bs.map g = (done.toList ++ a :: as).map g := by
  induction as generalizing a ts bound done with
  | nil =>
    have ha := Spells.single_iff.mp h
    have hpos := List.length_pos_iff.mpr (hfirst a List.mem_cons_self ts close ha)
    obtain ⟨bound, rfl⟩ := Nat.exists_eq_succ_of_ne_zero (show bound ≠ 0 by omega)
    rw [← List.append_nil ts]
    refine (hitem a List.mem_cons_self ts _ ha (Nat.le_refl _) (.inr rfl)).bind fun b hb => ?_
    refine Takes.no_eat_bind hclose (.pure ?_)
    rw [Array.toList_push, List.map_append, List.map_append, List.map_singleton,
      List.map_singleton, hb]
  | cons a' as ih =>
    obtain ⟨us, _, rfl, ha, hrest⟩ := Spells.node_iff.mp h
    obtain ⟨t, vs, rfl, ht, hrest⟩ := Spells.word_iff.mp hrest
    rw [nextKind_cons, ht] at ha
    simp only [List.length_append, List.length_cons] at hbound hitem
    obtain ⟨bound, rfl⟩ := Nat.exists_eq_succ_of_ne_zero (show bound ≠ 0 by omega)
    obtain ⟨hfirst', hfirst⟩ := List.forall_mem_cons.mp hfirst
    obtain ⟨hitem', hitem⟩ := List.forall_mem_cons.mp hitem
    have hone := hitem' us _ ha (by omega) (.inl rfl)
    rw [← ht] at hone
    refine hone.bind fun b hb => Takes.eat_bind ht fun _ => ?_
    refine (ih hfirst (fun c hc ws l hws hlen => hitem c hc ws l hws (by omega)) hrest (by omega)
      (done.push b)).weaken fun bs hbs => ?_
    rw [hbs, Array.toList_push, List.append_assoc, List.singleton_append]
    simp only [List.map_append, List.map_cons, hb]

/-- A list with commas, none of whose parts starts like what closes it. -/
theorem takes_commaList {as : List α} (hclose : close ≠ .comma)
    (hfirst : ∀ a ∈ as, ∀ us l, (f a).SpelledBy At us l → ∃ u vs, us = u :: vs ∧ u.kind ≠ close)
    (hitem : ∀ a ∈ as, ∀ us l, (f a).SpelledBy At us l → us.length ≤ ts.length →
      l = .comma ∨ l = close → Takes item us l fun b => g b = g a)
    (h : Spells At (commaParts (as.map f)) ts close) :
    Takes (commaList close item) ts close fun bs => bs.map g = as.map g := by
  refine Takes.check_bind ?_
  cases as with
  | nil =>
    obtain rfl := Spells.nil_iff.mp h
    rw [nextKind_nil, beq_self_eq_true, if_pos rfl]
    exact .pure rfl
  | cons a as =>
    have hhead : nextKind ts close ≠ close := by
      cases as with
      | nil =>
        obtain ⟨u, vs, rfl, hu⟩ := hfirst a List.mem_cons_self _ _ (Spells.single_iff.mp h)
        exact hu
      | cons a' as =>
        obtain ⟨us, ws, rfl, ha, -⟩ := Spells.node_iff.mp h
        obtain ⟨u, vs, rfl, hu⟩ := hfirst a List.mem_cons_self _ _ ha
        exact hu
    rw [if_neg (mt beq_iff_eq.mp hhead)]
    refine Takes.remaining_bind fun n hn => takes_commaItems hclose ?_ hitem h hn #[]
    rintro b hb us l hus rfl
    obtain ⟨u, vs, hcons, -⟩ := hfirst b hb _ _ hus
    cases hcons

end Lists

/-- Types without spans are each without its spans. -/
theorem typesSpanless_eq (ts : List TypeExpr) :
    typesSpanless ts = ts.map TypeExpr.spanless := by
  induction ts with
  | nil => rfl
  | cons t ts ih => rw [typesSpanless, ih, List.map_cons]

/-- A type. -/
theorem takes_typeExprIn {bound : Nat} {t : TypeExpr} (h : (Node.type t).SpelledBy At ts k)
    (hbound : ts.length ≤ bound) :
    Takes (typeExprIn bound) ts k fun a => a.spanless = t.spanless := by
  induction bound generalizing t ts k with
  | zero =>
    obtain ⟨u, us, rfl, -⟩ := h.type_cons
    cases hbound
  | succ bound ih =>
    cases t with
    | path name =>
      have hname := Spells.single_iff.mp (h.of_form rfl)
      obtain ⟨u, rfl, hu⟩ := hname.ident
      refine Takes.no_eat_bind (by rw [nextKind_cons, hu]; nofun) ?_
      exact (takes_ident hname).bind_pure fun a ha => congrArg TypeExpr.path ha
    | arrow params ret span =>
      obtain ⟨kw, _, rfl, hkw, h⟩ := Spells.word_iff.mp (h.of_form rfl)
      obtain ⟨opening, _, rfl, hopening, h⟩ := Spells.word_iff.mp h
      obtain ⟨us, _, rfl, hparams, h⟩ := Spells.append_iff.mp h
      obtain ⟨close, _, rfl, hclose, h⟩ := Spells.word_iff.mp h
      obtain ⟨arrow, vs, rfl, harrow, h⟩ := Spells.word_iff.mp h
      have hret := Spells.single_iff.mp h
      simp only [List.length_cons, List.length_append] at hbound
      refine Takes.eat_bind hkw fun kw => Takes.expect_bind hopening nofun fun _ => ?_
      have hlist : Takes (commaList .rParen (typeExprIn bound)) us close.kind
          fun bs => bs.map TypeExpr.spanless = params.map TypeExpr.spanless := by
        rw [nextKind_cons, hclose] at hparams
        rw [hclose]
        exact takes_commaList nofun (fun _ _ _ _ hus => hus.type_cons)
          (fun _ _ _ _ hus hlen _ => ih hus (by omega)) hparams
      refine hlist.bind fun ps hps => Takes.expect_bind hclose nofun fun _ => ?_
      refine Takes.expect_bind harrow nofun fun _ => (ih hret (by omega)).bind_pure fun r hr => ?_
      rw [TypeExpr.spanless, TypeExpr.spanless, typesSpanless_eq, typesSpanless_eq, hps, hr]

/-- A type. -/
theorem takes_typeExpr {t : TypeExpr} (h : (Node.type t).SpelledBy At ts k) :
    Takes typeExpr ts k fun a => a.spanless = t.spanless :=
  Takes.remaining_bind fun _ hn => takes_typeExprIn h hn

/-- A type that may be stated. -/
theorem takes_statedType {ty : Option TypeExpr} (h : Spells At (statedParts .colon ty) ts k)
    (hk : k ≠ .colon) :
    Takes statedType ts k fun a => a.map TypeExpr.spanless = ty.map TypeExpr.spanless := by
  cases ty with
  | none =>
    obtain rfl := Spells.nil_iff.mp h
    exact Takes.no_eat_bind hk (.pure rfl)
  | some t =>
    obtain ⟨mark, us, rfl, hmark, h⟩ := Spells.word_iff.mp h
    refine Takes.eat_bind hmark fun _ =>
      (takes_typeExpr (Spells.single_iff.mp h)).map fun a ha => ?_
    rw [Option.map_some, Option.map_some, ha]

/-- A parameter. -/
theorem takes_param {p : Param} (h : (Node.param p).SpelledBy At ts k) (hk : k ≠ .colon) :
    Takes param ts k fun a => a.spanless = p.spanless := by
  obtain ⟨us, vs, rfl, hname, hty⟩ := Spells.node_iff.mp (h.of_form rfl)
  refine (takes_ident hname).bind fun name hname => ?_
  refine (takes_statedType hty hk).bind_pure fun ty hty => ?_
  rw [Param.spanless, Param.spanless, hname, hty]

/-- Parameters. -/
theorem takes_params {close : TokenKind} {ps : List Param}
    (h : Spells At (commaParts (ps.map .param)) ts close) (hcomma : close ≠ .comma)
    (hcolon : close ≠ .colon) (hident : ∀ s, .ident s ≠ close) :
    Takes (commaList close param) ts close
      fun as => as.map Param.spanless = ps.map Param.spanless := by
  refine takes_commaList hcomma (fun p _ us l hus => ?_) (fun p _ us l hus _ hl => ?_) h
  · obtain ⟨u, vs, rfl, hu⟩ := hus.param_cons
    exact ⟨u, vs, rfl, hu ▸ hident _⟩
  · refine takes_param hus ?_
    rcases hl with rfl | rfl
    · nofun
    · exact hcolon

end Parser

end ClosureEnv.Syntax
