import ClosureEnv.Syntax.Parser

/-!
# What a parser yields

`Yields I x Q`: from tokens that satisfy `I`, the parser `x` gives only results that satisfy `Q`,
and leaves tokens that satisfy `I`. The rule for one parser after another carries this through the
grammar. The parsers of names, lists, types and parameters keep every property of the tokens that
are left which taking one of them keeps.
-/

namespace ClosureEnv.Syntax

variable (P : String → Prop) (E : Expr → Prop) (B : Block → Prop)

/-- The name that a statement declares satisfies `P`, and the expressions in it satisfy `E`. -/
def Stmt.All : Stmt → Prop
  | .bind _ name _ value _ => P name.text ∧ E value
  | .assign _ value _ | .expr value _ => E value
  | .ret value _ => ∀ e ∈ value, E e

/-- So do those of a block. -/
def Block.All (b : Block) : Prop :=
  (∀ s ∈ b.stmts, s.All P E) ∧ ∀ e ∈ b.tail, E e

/-- So do those of an item, and its block satisfies `B`. -/
def Item.All : Item → Prop
  | .binding d => P d.name.text ∧ E d.value
  | .function d => P d.name.text ∧ (∀ p ∈ d.params, P p.name.text) ∧ B d.body

namespace Parser

/-- A property of the tokens that are left holds on once the next one is taken. -/
class Steady (I : Rest → Prop) : Prop where
  /-- Without the next token. -/
  tail : ∀ {r}, I r → I r.tail

/-- From tokens that satisfy `I`, the parser gives results that satisfy `Q`, and it leaves such
tokens. -/
def Yields {α : Type} (I : Rest → Prop) (x : Parser α) (Q : α → Prop) : Prop :=
  ∀ r a r', I r → x r = .ok (a, r') → Q a ∧ I r'

variable {α : Type} {I : Rest → Prop}

namespace Yields

variable {Q : α → Prop} {x : Parser α}

/-- What is returned at once. -/
theorem pure {a : α} (h : Q a) : Yields I (Pure.pure a : Parser α) Q := by
  intro r b r' hr hb
  cases hb
  exact ⟨h, hr⟩

/-- A refusal gives nothing. -/
theorem fail (fault : SyntaxFault) : Yields I (Parser.fail fault : Parser α) Q := by
  intro r b r' _ hb
  cases hb

/-- One parser after another. -/
theorem bind {β : Type} {S : β → Prop} {f : α → Parser β} (hx : Yields I x Q)
    (hf : ∀ a, Q a → Yields I (f a) S) : Yields I (x >>= f) S := by
  intro r b r' hr hb
  change (x r >>= fun q => f q.1 q.2) = _ at hb
  cases hxr : x r with
  | error e => rw [hxr] at hb; cases hb
  | ok q =>
    rw [hxr] at hb
    obtain ⟨hq, hrest⟩ := hx r q.1 q.2 hr hxr
    exact hf q.1 hq q.2 b r' hrest hb

/-- A result that is wrapped. -/
theorem map {β : Type} {S : β → Prop} {f : α → β} (hx : Yields I x Q) (hf : ∀ a, Q a → S (f a)) :
    Yields I (f <$> x) S := by
  have := hx.bind fun a ha => pure (Q := S) (hf a ha)
  rwa [bind_pure_comp] at this

/-- A weaker property of the results. -/
theorem weaken {S : α → Prop} (hx : Yields I x Q) (h : ∀ a, Q a → S a) : Yields I x S :=
  fun r a r' hr hxr => ⟨h a (hx r a r' hr hxr).1, (hx r a r' hr hxr).2⟩

end Yields

/-- The next token. -/
theorem yields_peek {Q : Token → Prop} (h : ∀ r, I r → Q r.head) : Yields I peek Q := by
  intro r a r' hr ha
  cases ha
  exact ⟨h r hr, hr⟩

/-- The next token, whatever it is. -/
theorem yields_peek_any : Yields I peek fun _ => True :=
  yields_peek fun _ _ => trivial

/-- The token that is taken. -/
theorem yields_advance [Steady I] : Yields I advance fun _ => True := by
  intro r a r' hr ha
  cases ha
  exact ⟨trivial, Steady.tail hr⟩

/-- Counting takes nothing. -/
theorem yields_remaining : Yields I remaining fun _ => True := by
  intro r a r' hr ha
  cases ha
  exact ⟨trivial, hr⟩

/-- Looking takes nothing. -/
theorem yields_check (kind : TokenKind) : Yields I (check kind) fun _ => True :=
  yields_peek_any.bind fun _ _ => .pure trivial

/-- A token that may be taken. -/
theorem yields_eat? [Steady I] (kind : TokenKind) : Yields I (eat? kind) fun _ => True := by
  refine (yields_check kind).bind fun b _ => ?_
  cases b
  · exact .pure trivial
  · exact yields_advance.map fun _ _ => trivial

/-- A token that has to be taken. -/
theorem yields_expect [Steady I] (kind : TokenKind) : Yields I (expect kind) fun _ => True := by
  refine yields_peek_any.bind fun t _ => ?_
  split
  · exact .fail _
  split
  · exact yields_advance
  · exact .fail _

/-- A name. -/
theorem yields_ident [Steady I] {P : String → Prop}
    (h : ∀ r s, I r → r.head.kind = .ident s → P s) : Yields I ident fun name => P name.text := by
  refine (yields_peek (Q := fun t => ∀ s, t.kind = .ident s → P s) fun r hr s => h r s hr).bind
    fun t ht => ?_
  split
  · next hkind => exact yields_advance.bind fun _ _ => .pure (ht _ hkind)
  · exact .fail _

/-- Items with commas between them, each of the kind that the parser of one gives. -/
theorem yields_commaItems [Steady I] {item : Parser α} {Q : α → Prop} (h : Yields I item Q) :
    ∀ (bound : Nat) (done : Array α), (∀ a ∈ done.toList, Q a) →
      Yields I (commaItems item bound done) fun as => ∀ a ∈ as, Q a := by
  intro bound
  induction bound with
  | zero => exact fun done hdone => .pure hdone
  | succ bound ih =>
    intro done hdone
    refine h.bind fun a ha => (yields_eat? .comma).bind fun found _ => ?_
    have hpush : ∀ b ∈ (done.push a).toList, Q b := by
      intro b hb
      rw [Array.toList_push, List.mem_append, List.mem_singleton] at hb
      rcases hb with hb | rfl
      · exact hdone b hb
      · exact ha
    split
    · exact ih _ hpush
    · exact .pure hpush

/-- A list with commas. -/
theorem yields_commaList [Steady I] {item : Parser α} {Q : α → Prop} (close : TokenKind)
    (h : Yields I item Q) : Yields I (commaList close item) fun as => ∀ a ∈ as, Q a := by
  refine (yields_check close).bind fun b _ => ?_
  split
  · exact .pure (fun _ ha => by cases ha)
  · exact yields_remaining.bind fun n _ => yields_commaItems h n #[] (fun _ ha => by cases ha)

/-- A type. -/
theorem yields_typeExprIn [Steady I] (bound : Nat) :
    Yields I (typeExprIn bound) fun _ => True := by
  have hident : Yields I ident fun _ => True :=
    yields_ident (P := fun _ => True) fun _ _ _ _ => trivial
  induction bound with
  | zero => exact hident.bind fun _ _ => .pure trivial
  | succ bound ih =>
    refine (yields_eat? .kwFn).bind fun found _ => ?_
    split
    · exact hident.bind fun _ _ => .pure trivial
    · exact (yields_expect _).bind fun _ _ => (yields_commaList _ ih).bind fun _ _ =>
        (yields_expect _).bind fun _ _ => (yields_expect _).bind fun _ _ =>
        ih.bind fun _ _ => .pure trivial

/-- A type. -/
theorem yields_typeExpr [Steady I] : Yields I typeExpr fun _ => True :=
  yields_remaining.bind fun n _ => yields_typeExprIn n

/-- A type that may be stated. -/
theorem yields_statedType [Steady I] : Yields I statedType fun _ => True := by
  refine (yields_eat? .colon).bind fun found _ => ?_
  split
  · exact yields_typeExpr.map fun _ _ => trivial
  · exact .pure trivial

section Names

variable [Steady I] {P : String → Prop} (h : ∀ r s, I r → r.head.kind = .ident s → P s)

include h

/-- A parameter. -/
theorem yields_param : Yields I param fun p => P p.name.text :=
  (yields_ident h).bind fun _ hname => yields_statedType.bind fun _ _ => .pure hname

/-- The parameters of a closure. -/
theorem yields_closureParams : Yields I Level.closureParams fun ps => ∀ p ∈ ps, P p.name.text := by
  refine (yields_eat? _).bind fun found _ => ?_
  split
  · exact .pure (fun _ hp => by cases hp)
  · exact (yields_expect _).bind fun _ _ => (yields_commaList _ (yields_param h)).bind fun _ hps =>
      (yields_expect _).bind fun _ _ => .pure hps

/-- The type parameters of a function. -/
theorem yields_generics : Yields I generics fun names => ∀ name ∈ names, P name.text := by
  refine (yields_eat? _).bind fun found _ => ?_
  split
  · exact .pure (fun _ hname => by cases hname)
  · exact (yields_commaList _ (yields_ident h)).bind fun _ hnames =>
      (yields_expect _).bind fun _ _ => .pure hnames

end Names

/-! ## Statements and items -/

section Statements

variable [Steady I] {P : String → Prop} {E : Expr → Prop} {inner : Level}
  (hname : ∀ r s, I r → r.head.kind = .ident s → P s) (hexpr : Yields I (inner.expr 0) E)

include hexpr

/-- A return. -/
theorem yields_returnStmt : Yields I (Level.returnStmt inner) (Stmt.All P E) := by
  refine (yields_expect _).bind fun _ _ => (yields_check _).bind fun b _ => ?_
  split
  · have hnone : Yields I (pure none) fun value => ∀ e ∈ value, E e := .pure nofun
    exact hnone.bind fun _ hv => (yields_expect _).bind fun _ _ => .pure hv
  · have hsome := hexpr.map (f := some) (S := fun value => ∀ e ∈ value, E e)
      fun a ha e he => Option.some.inj he ▸ ha
    exact hsome.bind fun _ hv => (yields_expect _).bind fun _ _ => .pure hv

/-- An entry that starts with an expression. -/
theorem yields_exprEntry : Yields I (Level.exprEntry inner) (Sum.elim (Stmt.All P E) E) := by
  refine hexpr.bind fun x hx => (yields_eat? _).bind fun found _ => ?_
  split
  · split
    · exact hexpr.bind fun _ hv => (yields_expect _).bind fun _ _ => .pure hv
    · exact .fail _
  refine (yields_eat? _).bind fun semi _ => ?_
  split
  · exact .pure hx
  refine yields_peek_any.bind fun tok _ => ?_
  dsimp only
  split
  · exact .pure hx
  split
  · exact .pure hx
  · exact .fail _

include hname

/-- A binding. -/
theorem yields_letDecl : Yields I (Level.letDecl inner) fun d => P d.name.text ∧ E d.value :=
  (yields_expect _).bind fun _ _ => (yields_eat? _).bind fun _ _ =>
    (yields_ident hname).bind fun _ hn => yields_statedType.bind fun _ _ =>
    (yields_expect _).bind fun _ _ => hexpr.bind fun _ hv => (yields_expect _).bind fun _ _ =>
    .pure ⟨hn, hv⟩

/-- An entry of a block. -/
theorem yields_entry : Yields I (Level.entry inner) (Sum.elim (Stmt.All P E) E) := by
  refine yields_peek_any.bind fun tok _ => ?_
  split
  · exact (yields_letDecl hname hexpr).bind fun _ hd => .pure hd
  · exact (yields_returnStmt hexpr).map fun _ hs => hs
  · exact yields_exprEntry hexpr

/-- The entries of a block. -/
theorem yields_entries (bound : Nat) (done : Array Stmt) (hdone : ∀ s ∈ done.toList, s.All P E) :
    Yields I (Level.entries inner bound done) fun q =>
      (∀ s ∈ q.1, s.All P E) ∧ ∀ e ∈ q.2, E e := by
  induction bound generalizing done with
  | zero => exact .pure ⟨hdone, nofun⟩
  | succ bound ih =>
    refine (yields_check _).bind fun b _ => ?_
    split
    · exact .pure ⟨hdone, nofun⟩
    refine (yields_entry hname hexpr).bind fun e he => ?_
    split
    · refine ih _ fun s hs => ?_
      rw [Array.toList_push, List.mem_append, List.mem_singleton] at hs
      rcases hs with hs | rfl
      · exact hdone s hs
      · exact he
    · refine .pure ⟨hdone, fun e' he' => ?_⟩
      cases he'
      exact he

/-- A block. -/
theorem yields_blockBody : Yields I (Level.blockBody inner) (Block.All P E) :=
  (yields_expect _).bind fun _ _ => yields_remaining.bind fun n _ =>
    (yields_entries hname hexpr n #[] (fun _ hs => by cases hs)).bind fun _ hq =>
    (yields_expect _).bind fun _ _ => .pure hq

end Statements

section Items

variable [Steady I] {P : String → Prop} {E : Expr → Prop} {B : Block → Prop}
  (hname : ∀ r s, I r → r.head.kind = .ident s → P s) (hexpr : Yields I (outermost.expr 0) E)
  (hblock : Yields I outermost.block B)

include hname hblock

/-- A function. -/
theorem yields_fnDecl : Yields I fnDecl fun d => (Item.function d).All P E B := by
  refine (yields_expect _).bind fun _ _ => (yields_ident hname).bind fun name hn =>
    (yields_generics hname).bind fun _ _ => (yields_expect _).bind fun _ _ =>
    (yields_commaList _ (yields_param hname)).bind fun params hparams =>
    (yields_expect _).bind fun _ _ => (yields_eat? _).bind fun found _ => ?_
  split
  · exact (yields_typeExpr.map (S := fun _ => True) fun _ _ => trivial).bind fun _ _ =>
      hblock.bind fun _ hb => .pure ⟨hn, hparams, hb⟩
  · exact (Yields.pure (I := I) (Q := fun _ => True) trivial).bind fun _ _ =>
      hblock.bind fun _ hb => .pure ⟨hn, hparams, hb⟩

include hexpr

/-- The items of a module. -/
theorem yields_items (bound : Nat) (done : Array Item)
    (hdone : ∀ item ∈ done.toList, item.All P E B) :
    Yields I (items bound done) fun is => ∀ item ∈ is, item.All P E B := by
  induction bound generalizing done with
  | zero => exact .pure hdone
  | succ bound ih =>
    have hpush (item : Item) (h : item.All P E B) : ∀ i ∈ (done.push item).toList, i.All P E B := by
      intro i hi
      rw [Array.toList_push, List.mem_append, List.mem_singleton] at hi
      rcases hi with hi | rfl
      · exact hdone i hi
      · exact h
    refine yields_peek_any.bind fun tok _ => ?_
    split
    · exact .pure hdone
    · exact (yields_letDecl hname hexpr).bind fun d hd => ih _ (hpush (.binding d) hd)
    · exact (yields_fnDecl hname hblock).bind fun d hd => ih _ (hpush (.function d) hd)
    · exact .fail _

/-- A whole module. -/
theorem yields_source : Yields I source fun m => ∀ item ∈ m.items, item.All P E B :=
  yields_peek_any.bind fun _ _ => yields_remaining.bind fun n _ =>
    (yields_items hname hexpr hblock n #[] (fun _ hi => by cases hi)).bind fun _ hitems =>
    yields_peek_any.bind fun _ _ => .pure hitems

end Items

end Parser

/-- What a parser yields of the tokens of a source, the source yields. -/
theorem parse_yields {I : Rest → Prop} {Q : Module → Prop} (h : Parser.Yields I Parser.source Q)
    {src : String} (hI : I (.ofTokens (tokens src))) {m : Module} (hm : parse src = .ok m) :
    Q m := by
  unfold parse StateT.run at hm
  cases hp : Parser.source (.ofTokens (tokens src)) with
  | error e => rw [hp] at hm; cases hm
  | ok q =>
    rw [hp] at hm
    cases hm
    exact (h _ q.1 q.2 hI hp).1

end ClosureEnv.Syntax
