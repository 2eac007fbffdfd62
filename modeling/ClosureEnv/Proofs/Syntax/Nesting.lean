import ClosureEnv.Proofs.Syntax.Cutting
import ClosureEnv.Proofs.Syntax.Parsed

/-!
# How deep the parser calls itself

The levels of an item are no more than may nest (`depth_le_of_parse`), and they bound how often
the parser calls itself on the way down to a node, but for the types of functions and for
conditionals behind an `else`, which it reads without counting a level (`nested_le_of_parse`).
Those have no bound at all: `exists_parse_arrows` and `exists_parse_elseIfs`.
-/

namespace ClosureEnv.Syntax

namespace Parser.Level

/-! ## Levels -/

/-- What the parsers give is no deeper than there is room. -/
structure Within (I : Rest → Prop) (inner : Level) (room : Nat) : Prop where
  /-- An expression. -/
  expr : ∀ least, Yields I (inner.expr least) fun e => e.within < room
  /-- A block. -/
  block : Yields I inner.block fun b => b.depth ≤ room

namespace Within

variable {I : Rest → Prop} [Steady I] {inner : Level} {room : Nat}

/-- The arguments behind a callee. -/
theorem call (h : Within I inner room) {callee : Expr} (hcallee : callee.within ≤ room) :
    Yields I (call inner callee) fun e => e.within ≤ room :=
  (yields_expect _).bind fun _ _ => (yields_commaList _ (h.expr 0)).bind fun _ hargs =>
    (yields_expect _).bind fun _ _ => .pure (Nat.max_le.mpr ⟨hcallee, exprsDepth_le_iff.mpr hargs⟩)

/-- A conditional. -/
theorem condIn (h : Within I inner room) (bound : Nat) :
    Yields I (condIn inner bound) fun e => e.within ≤ room := by
  induction bound with
  | zero => exact yields_peek_any.bind fun _ _ => .fail _
  | succ bound ih =>
    refine (yields_expect _).bind fun _ _ => (h.expr 0).bind fun test htest =>
      h.block.bind fun yes hyes => (yields_eat? _).bind fun found _ => ?_
    split
    · exact .pure (Nat.max_le.mpr ⟨htest, Nat.max_le.mpr ⟨hyes, Nat.zero_le _⟩⟩)
    refine (yields_check _).bind fun b _ => ?_
    split
    · exact ih.bind fun no hno => .pure (Nat.max_le.mpr ⟨htest, Nat.max_le.mpr ⟨hyes, hno⟩⟩)
    · have hblock : Yields I (Expr.block <$> inner.block) fun e => e.within ≤ room :=
        h.block.map fun _ hb => hb
      exact hblock.bind fun no hno => .pure (Nat.max_le.mpr ⟨htest, Nat.max_le.mpr ⟨hyes, hno⟩⟩)

/-- An operand. -/
theorem operand (h : Within I inner room) : Yields I (operand inner) fun e => e.within ≤ room := by
  have hany : Yields I ident fun _ => True :=
    yields_ident (P := fun _ => True) fun _ _ _ _ => trivial
  have hparams : Yields I closureParams fun ps => ∀ p ∈ ps, True :=
    yields_closureParams (P := fun _ => True) fun _ _ _ _ => trivial
  have hclosure : Yields I (closure inner) fun e => e.within ≤ room :=
    yields_peek_any.bind fun _ _ => hparams.bind fun _ _ => (h.expr 0).bind fun _ hb => .pure hb
  refine yields_peek_any.bind fun tok _ => ?_
  split
  · exact yields_advance.bind fun _ _ => .pure (Nat.zero_le _)
  split
  · exact yields_advance.bind fun _ _ => (h.expr _).bind fun _ hx => .pure hx
  · exact yields_advance.bind fun _ _ => (h.expr _).bind fun _ hx => .pure hx
  · exact hany.map fun _ _ => Nat.zero_le _
  · exact yields_advance.bind fun _ _ => (h.expr 0).bind fun _ hx =>
      (yields_expect _).bind fun _ _ => .pure hx
  · exact h.block.map fun _ hb => hb
  · exact yields_remaining.bind fun n _ => h.condIn n
  · exact (yields_expect _).bind fun _ _ => (h.expr 0).bind fun _ htest =>
      h.block.bind fun _ hbody => .pure (Nat.max_le.mpr ⟨htest, hbody⟩)
  · exact hclosure
  · exact hclosure
  · exact .fail _
  · exact .fail _

/-- The calls and operators behind an operand. -/
theorem operators (h : Within I inner room) (least bound : Nat) {lhs : Expr}
    (hlhs : lhs.within ≤ room) :
    Yields I (operators inner least bound lhs) fun e => e.within ≤ room := by
  induction bound generalizing lhs with
  | zero => exact .pure hlhs
  | succ bound ih =>
    refine yields_peek_any.bind fun tok _ => ?_
    dsimp only
    split
    · exact (h.call hlhs).bind fun _ hx => ih hx
    split
    · exact .pure hlhs
    split
    · exact .pure hlhs
    · exact yields_advance.bind fun _ _ => (h.expr _).bind fun _ hr =>
        ih (Nat.max_le.mpr ⟨hlhs, hr⟩)

/-- An expression. -/
theorem exprBody (h : Within I inner room) (least : Nat) :
    Yields I (exprBody inner least) fun e => e.within < room + 1 :=
  h.operand.bind fun _ hl => yields_remaining.bind fun n _ =>
    (h.operators least n hl).weaken fun _ he => Nat.lt_succ_of_le he

end Within

/-- A block, from its statements and its value. -/
theorem depth_le_of_all {b : Block} {room : Nat}
    (h : b.All (fun _ => True) fun e => e.within < room) : b.depth ≤ room + 1 := by
  obtain ⟨ss, tail, span⟩ := b
  refine Nat.succ_le_succ (Nat.max_le.mpr
    ⟨stmtsDepth_le_iff.mpr fun s hs => ?_, optionDepth_le_iff.mpr h.2⟩)
  have hs := h.1 s hs
  cases s with
  | bind => exact hs.2
  | ret => exact optionDepth_le_iff.mpr hs
  | _ => exact hs

/-- All levels have the room that they are given. -/
theorem within_ofRoom {I : Rest → Prop} [Steady I] (room : Nat) : Within I (ofRoom room) room := by
  induction room with
  | zero => exact ⟨fun _ => .fail _, .fail _⟩
  | succ room ih =>
    exact ⟨ih.exprBody, (yields_blockBody (P := fun _ => True) (fun _ _ _ _ => trivial)
      (ih.expr 0)).weaken fun _ => depth_le_of_all⟩

end Parser.Level

/-- No item of a source is deeper than may nest. -/
theorem depth_le_of_parse {src : String} {m : Module} (h : parse src = .ok m) :
    ∀ item ∈ m.items, item.depth ≤ maxNesting := by
  have hlevel := Parser.Level.within_ofRoom (I := Parser.AtMost (tokens src).length) maxNesting
  have hall := parse_yields (Parser.yields_source (P := fun _ => True) (fun _ _ _ _ => trivial)
    (hlevel.expr 0) hlevel.block) (Nat.le_refl _) h
  intro item hitem
  have hitem := hall item hitem
  cases item with
  | binding d => exact hitem.2
  | function d => exact hitem.2.2

/-! ## Paths -/

namespace Node

/-- Whether the parser calls itself for such a node, wherever it stands. -/
def IsNested : Node → Prop
  | block _ | expr (.cond ..) | expr (.loop ..) | expr (.closure ..) | expr (.paren ..)
  | type (.arrow ..) => True
  | _ => False

/-- Whether the parser calls itself for a child because of where it stands: as the operand of an
operator of one operand, as a right operand, or as an argument. -/
def IsOperand : Node → Node → Prop
  | expr (.unary _ operand _), c => c = expr operand
  | expr (.binary _ _ rhs _), c => c = expr rhs
  | expr (.call _ args _), c => c ∈ args.map expr
  | _, _ => False

/-- Whether the parser calls itself for a child. -/
def Enters (n c : Node) : Prop :=
  c.IsNested ∨ n.IsOperand c

/-- Whether a child is a type of functions. -/
def EntersArrow : Node → Node → Prop
  | _, type (.arrow ..) => True
  | _, _ => False

/-- Whether a child is a conditional behind the `else` of one. -/
def EntersElseIf : Node → Node → Prop
  | expr (.cond _ _ (some (.cond test yes no span)) _), c => c = expr (.cond test yes no span)
  | _, _ => False

/-- Whether the parser counts a level on the way to a child for which it calls itself. -/
def EntersCounted (n c : Node) : Prop :=
  n.Enters c ∧ ¬ n.EntersArrow c ∧ ¬ n.EntersElseIf c

/-- Whether the parser calls itself for a child without counting a level. -/
def EntersUncounted (n c : Node) : Prop :=
  n.EntersArrow c ∨ n.EntersElseIf c

/-- A path down from one node to another, with `k` steps on it that satisfy `P`. -/
inductive Path (P : Node → Node → Prop) : Node → Node → Nat → Prop
  | nil (n : Node) : Path P n n 0
  | step {n c d : Node} {k : Nat} : c ∈ n.children → P n c → Path P c d k → Path P n d (k + 1)
  | pass {n c d : Node} {k : Nat} : c ∈ n.children → ¬ P n c → Path P c d k → Path P n d k

/-- Every operand below a node stands where the grammar reads it as such, and the items of a module
are no deeper than may nest. -/
def Fits : Node → Prop
  | ident _ | type _ | param _ => True
  | expr e => e.Shaped
  | block b => b.Shaped
  | stmt s => s.Shaped
  | binding d => d.value.Shaped
  | function d => d.body.Shaped
  | root m => m.Shaped ∧ ∀ item ∈ m.items, item.depth ≤ maxNesting

/-- How many steps that count there may be below a node. A left operand or a callee is at the level
of the expression that it starts, so one that is made by an operator or a call is one step from the
node at its left edge. -/
def room : Node → Nat
  | ident _ | type _ | param _ => 0
  | expr (.binary op lhs rhs span) => 2 * (Expr.binary op lhs rhs span).within + 1
  | expr (.call callee args span) => 2 * (Expr.call callee args span).within + 1
  | expr e => 2 * e.within
  | block b => 2 * b.depth - 1
  | stmt s => 2 * s.depth
  | binding d => 2 * (d.value.within + 1)
  | function d => 2 * d.body.depth
  | root _ => 2 * maxNesting

/-- The room below an expression. -/
theorem room_expr_le (e : Expr) : (expr e).room ≤ 2 * e.within + 1 := by
  cases e <;> simp [room]

/-- The room below an expression that the parser calls itself for. -/
theorem room_of_isNested {e : Expr} (h : (expr e).IsNested) : (expr e).room ≤ 2 * e.within := by
  cases e <;> first | exact Nat.le_refl _ | exact h.elim

/-- A child leaves the room that there is, and takes one if it counts. -/
def Shrinks (n c : Node) : Prop :=
  c.Fits ∧ c.room ≤ n.room ∧ (n.EntersCounted c → c.room + 1 ≤ n.room)

namespace Shrinks

variable {n : Node}

/-- An operand is an expression. -/
theorem exists_of_isOperand {c : Node} (h : n.IsOperand c) : ∃ e, c = expr e := by
  unfold IsOperand at h
  split at h
  · exact ⟨_, h⟩
  · exact ⟨_, h⟩
  · obtain ⟨e, -, rfl⟩ := List.mem_map.mp h
    exact ⟨e, rfl⟩
  · exact h.elim

/-- A name. -/
theorem ident (name : Ident) : n.Shrinks (.ident name) := by
  refine ⟨trivial, Nat.zero_le _, fun h => ?_⟩
  rcases h.1 with h | h
  · exact h.elim
  · obtain ⟨e, he⟩ := exists_of_isOperand h
    cases he

/-- A parameter. -/
theorem param (p : Param) : n.Shrinks (.param p) := by
  refine ⟨trivial, Nat.zero_le _, fun h => ?_⟩
  rcases h.1 with h | h
  · exact h.elim
  · obtain ⟨e, he⟩ := exists_of_isOperand h
    cases he

/-- A type. -/
theorem type (t : TypeExpr) : n.Shrinks (.type t) := by
  refine ⟨trivial, Nat.zero_le _, fun h => ?_⟩
  rcases h.1 with hnested | h
  · cases t with
    | path => exact hnested.elim
    | arrow => exact (h.2.1 trivial).elim
  · obtain ⟨e, he⟩ := exists_of_isOperand h
    cases he

/-- An expression one level further in. -/
theorem expr {e : Expr} (hshaped : e.Shaped) (h : 2 * (e.within + 1) ≤ n.room) :
    n.Shrinks (.expr e) := by
  have hle := room_expr_le e
  exact ⟨hshaped, by omega, fun _ => by omega⟩

/-- A block. -/
theorem block {b : Block} (hshaped : b.Shaped) (h : 2 * b.depth ≤ n.room) :
    n.Shrinks (.block b) := by
  have hpos : 0 < b.depth := by
    cases b
    exact Nat.succ_pos _
  have hroom : (Node.block b).room = 2 * b.depth - 1 := rfl
  exact ⟨hshaped, by omega, fun _ => by omega⟩

/-- A left operand or a callee. -/
theorem left {e : Expr} (hshaped : e.Shaped) (h : 2 * e.within + 1 ≤ n.room)
    (hoperand : n.IsOperand (.expr e) → 2 * (e.within + 1) ≤ n.room) : n.Shrinks (.expr e) := by
  have hle := room_expr_le e
  refine ⟨hshaped, Nat.le_trans hle h, fun hcounted => ?_⟩
  rcases hcounted.1 with hnested | hright
  · exact Nat.le_trans (Nat.succ_le_succ (room_of_isNested hnested)) h
  · have := hoperand hright
    omega

/-- What stands behind an `else`. -/
theorem no {test : Expr} {yes : Block} {e : Expr} {span : Span} (hshaped : e.Shaped)
    (helse : e.IsElse) (h : 2 * e.within ≤ (Node.expr (.cond test yes (some e) span)).room) :
    (Node.expr (.cond test yes (some e) span)).Shrinks (.expr e) := by
  refine ⟨hshaped, ?_, fun hcounted => ?_⟩
  · cases e with
    | block | cond => exact h
    | _ => exact helse.elim
  · cases e with
    | block => exact (hcounted.1.elim id id).elim
    | cond => exact (hcounted.2.2 rfl).elim
    | _ => exact helse.elim

end Shrinks

/-- What is right below an expression. -/
theorem shrinks_expr {e : Expr} (h : e.Shaped) {c : Node} (hc : c ∈ (expr e).children) :
    (expr e).Shrinks c := by
  cases e with
  | lit => cases hc
  | var name =>
    obtain rfl := List.mem_singleton.mp hc
    exact .ident name
  | unary op operand span =>
    obtain rfl := List.mem_singleton.mp hc
    exact .expr h.2 (Nat.le_refl _)
  | call callee args span =>
    have hroom : (expr (.call callee args span)).room =
      2 * max callee.within (exprsDepth args) + 1 := rfl
    rcases List.mem_cons.mp hc with rfl | hc
    · refine .left h.2.1 (by omega) fun hmem => ?_
      obtain ⟨e, he, heq⟩ := List.mem_map.mp hmem
      cases heq
      have := exprsDepth_le_iff.mp (Nat.le_refl _) _ he
      omega
    · obtain ⟨e, he, rfl⟩ := List.mem_map.mp hc
      have := exprsDepth_le_iff.mp (Nat.le_refl _) e he
      exact .expr (exprsShaped_iff.mp h.2.2 e he) (by omega)
  | binary op lhs rhs span =>
    have hroom : (expr (.binary op lhs rhs span)).room =
      2 * max lhs.within (rhs.within + 1) + 1 := rfl
    rcases List.mem_cons.mp hc with rfl | hc
    · refine .left h.1.2.2 (by omega) fun hrhs => ?_
      cases hrhs
      omega
    · obtain rfl := List.mem_singleton.mp hc
      exact .expr h.2.2 (by omega)
  | paren inner span =>
    obtain rfl := List.mem_singleton.mp hc
    exact .expr h (Nat.le_refl _)
  | block body =>
    obtain rfl := List.mem_singleton.mp hc
    exact .block h (Nat.le_refl _)
  | cond test yes no span =>
    have hroom : (expr (.cond test yes no span)).room =
      2 * max (test.within + 1) (max yes.depth (optionWithin no)) := rfl
    rcases List.mem_cons.mp hc with rfl | hc
    · exact .expr h.1 (by omega)
    rcases List.mem_cons.mp hc with rfl | hc
    · exact .block h.2.1 (by omega)
    · cases no with
      | none => cases hc
      | some e =>
        obtain rfl := List.mem_singleton.mp hc
        have hwithin : optionWithin (some e) = e.within := rfl
        exact .no h.2.2.2 (h.2.2.1 e rfl) (by omega)
  | loop test body span =>
    have hroom : (expr (.loop test body span)).room = 2 * max (test.within + 1) body.depth := rfl
    rcases List.mem_cons.mp hc with rfl | hc
    · exact .expr h.1 (by omega)
    · obtain rfl := List.mem_singleton.mp hc
      exact .block h.2 (by omega)
  | closure params body span =>
    rcases List.mem_append.mp hc with hc | hc
    · obtain ⟨p, -, rfl⟩ := List.mem_map.mp hc
      exact .param p
    · obtain rfl := List.mem_singleton.mp hc
      exact .expr h (Nat.le_refl _)

/-- A binding's name, type and value. -/
theorem shrinks_binding {n : Node} {name : Ident} {ty : Option TypeExpr} {value : Expr}
    (h : value.Shaped) (hroom : 2 * (value.within + 1) ≤ n.room) {c : Node}
    (hc : c ∈ .ident name :: (ty.map type).toList ++ [.expr value]) : n.Shrinks c := by
  rcases List.mem_append.mp hc with hc | hc
  · rcases List.mem_cons.mp hc with rfl | hc
    · exact .ident name
    · obtain ⟨t, -, rfl⟩ := Option.map_eq_some_iff.mp (Option.mem_toList.mp hc)
      exact .type t
  · obtain rfl := List.mem_singleton.mp hc
    exact .expr h hroom

/-- What is right below a statement. -/
theorem shrinks_stmt {s : Stmt} (h : s.Shaped) {c : Node} (hc : c ∈ (stmt s).children) :
    (stmt s).Shrinks c := by
  cases s with
  | bind isMut name ty value span => exact shrinks_binding h (Nat.le_refl _) hc
  | assign target value span =>
    rcases List.mem_cons.mp hc with rfl | hc
    · exact .ident target
    · obtain rfl := List.mem_singleton.mp hc
      exact .expr h (Nat.le_refl _)
  | expr value span =>
    obtain rfl := List.mem_singleton.mp hc
    exact .expr h (Nat.le_refl _)
  | ret value span =>
    cases value with
    | none => cases hc
    | some e =>
      obtain rfl := List.mem_singleton.mp hc
      exact .expr h (Nat.le_refl _)

/-- What is right below a block. -/
theorem shrinks_block {b : Block} (h : b.Shaped) {c : Node} (hc : c ∈ (block b).children) :
    (block b).Shrinks c := by
  obtain ⟨ss, tail, span⟩ := b
  have hroom : (block (.mk ss tail span)).room =
    2 * (max (stmtsDepth ss) (optionDepth tail) + 1) - 1 := rfl
  rcases List.mem_append.mp hc with hc | hc
  · obtain ⟨s, hs, rfl⟩ := List.mem_map.mp hc
    have hle := stmtsDepth_le_iff.mp (Nat.le_refl _) s hs
    have hstmt : (stmt s).room = 2 * s.depth := rfl
    refine ⟨stmtsShaped_iff.mp h.1 s hs, by omega,
      fun hcounted => (hcounted.1.elim id fun hmem => ?_).elim⟩
    exact hmem
  · cases tail with
    | none => cases hc
    | some e =>
      obtain rfl := List.mem_singleton.mp hc
      have hdepth : optionDepth (some e) = e.within + 1 := rfl
      exact .expr h.2 (by omega)

/-- What is right below a node. -/
theorem shrinks_of_mem {n c : Node} (h : n.Fits) (hc : c ∈ n.children) : n.Shrinks c := by
  cases n with
  | ident => cases hc
  | type t =>
    cases t with
    | path name =>
      obtain rfl := List.mem_singleton.mp hc
      exact .ident name
    | arrow params ret span =>
      rcases List.mem_append.mp hc with hc | hc
      · obtain ⟨t, -, rfl⟩ := List.mem_map.mp hc
        exact .type t
      · obtain rfl := List.mem_singleton.mp hc
        exact .type ret
  | param p =>
    rcases List.mem_cons.mp hc with rfl | hc
    · exact .ident p.name
    · obtain ⟨t, -, rfl⟩ := Option.map_eq_some_iff.mp (Option.mem_toList.mp hc)
      exact .type t
  | expr e => exact shrinks_expr h hc
  | block b => exact shrinks_block h hc
  | stmt s => exact shrinks_stmt h hc
  | binding d => exact shrinks_binding h (Nat.le_refl _) hc
  | function d =>
    simp only [children, List.cons_append, List.append_assoc, List.mem_cons, List.mem_append,
      List.mem_map, List.not_mem_nil, or_false] at hc
    rcases hc with rfl | ⟨name, -, rfl⟩ | ⟨p, -, rfl⟩ | hc | rfl
    · exact .ident d.name
    · exact .ident name
    · exact .param p
    · obtain ⟨t, -, rfl⟩ := Option.map_eq_some_iff.mp (Option.mem_toList.mp hc)
      exact .type t
    · exact .block h (Nat.le_refl _)
  | root m =>
    -- only here does the limit of the parser come in
    obtain ⟨item, hitem, rfl⟩ := List.mem_map.mp hc
    have hle := h.2 item hitem
    refine ⟨?_, ?_, fun hcounted => (?_ : False).elim⟩
    · cases item <;> exact h.1 _ hitem
    · have hroom : (root m).room = 2 * maxNesting := rfl
      cases item with
      | binding d => exact Nat.mul_le_mul_left 2 hle
      | function d => exact Nat.mul_le_mul_left 2 hle
    · cases item <;> exact hcounted.1.elim id id

/-- On no path are there more steps that count than there is room. -/
theorem Path.le_room {n d : Node} {k : Nat} (hpath : Path EntersCounted n d k) (h : n.Fits) :
    k ≤ n.room := by
  -- a step that counts takes one of the room, and no step gives any
  induction hpath with
  | nil => exact Nat.zero_le _
  | step hc hcounted _ ih =>
    obtain ⟨hfits, -, hroom⟩ := shrinks_of_mem h hc
    exact Nat.le_trans (Nat.succ_le_succ (ih hfits)) (hroom hcounted)
  | pass hc _ _ ih =>
    obtain ⟨hfits, hroom, -⟩ := shrinks_of_mem h hc
    exact Nat.le_trans (ih hfits) hroom

/-- The parser calls itself where it counts a level and where it counts none. -/
theorem enters_iff {n c : Node} : n.Enters c ↔ n.EntersCounted c ∨ n.EntersUncounted c := by
  constructor
  · intro h
    by_cases huncounted : n.EntersUncounted c
    · exact .inr huncounted
    · exact .inl ⟨h, not_or.mp huncounted⟩
  · rintro (h | h | h)
    · exact h.1
    · unfold EntersArrow at h
      split at h
      · exact .inl trivial
      · exact h.elim
    · unfold EntersElseIf at h
      split at h
      · rw [h]
        exact .inl trivial
      · exact h.elim

/-- The steps at which the parser calls itself are those that count and those that do not. -/
theorem Path.split {n d : Node} {k : Nat} (hpath : Path Enters n d k) :
    ∃ counted uncounted, counted + uncounted = k ∧ Path EntersCounted n d counted ∧
      Path EntersUncounted n d uncounted := by
  induction hpath with
  | nil n => exact ⟨0, 0, rfl, .nil n, .nil n⟩
  | @step n c d k hc henters _ ih =>
    obtain ⟨i, j, rfl, hcounted, huncounted⟩ := ih
    by_cases h : n.EntersUncounted c
    · exact ⟨i, j + 1, rfl, .pass hc (fun hnot => hnot.2.elim fun harrow helse =>
        h.elim harrow helse) hcounted, .step hc h huncounted⟩
    · exact ⟨i + 1, j, Nat.succ_add_eq_add_succ i j, .step hc
        ((enters_iff.mp henters).resolve_right h) hcounted, .pass hc h huncounted⟩
  | pass hc henters _ ih =>
    obtain ⟨i, j, rfl, hcounted, huncounted⟩ := ih
    obtain ⟨hno, hno'⟩ := not_or.mp (mt enters_iff.mpr henters)
    exact ⟨i, j, rfl, .pass hc hno hcounted, .pass hc hno' huncounted⟩

end Node

/-- On a path down the tree of a source the parser calls itself no more than twice for each level
that may nest, types of functions and conditionals behind an `else` apart. -/
theorem nested_le_of_parse {src : String} {m : Module} (h : parse src = .ok m) {d : Node} {k : Nat}
    (hpath : (Node.root m).Path Node.EntersCounted d k) : k ≤ 2 * maxNesting :=
  hpath.le_room ⟨shaped_of_parse h, depth_le_of_parse h⟩

/-! ## What has no bound -/

/-- The type of functions without parameters to such functions, `n` deep. -/
def arrows : Nat → TypeExpr
  | 0 => .path ⟨"Int", default⟩
  | n + 1 => .arrow [] (arrows n) default

/-- `n` conditionals, each behind the `else` of the one before. -/
def elseIfs : Nat → Expr
  | 0 => .block (.mk [] none default)
  | n + 1 => .cond (.lit (.bool true) default) (.mk [] none default) (some (elseIfs n)) default

/-- A module with one binding. -/
def bindingModule (ty : Option TypeExpr) (value : Expr) : Module :=
  ⟨[.binding ⟨false, ⟨"x", default⟩, ty, value, default⟩], default⟩

/-- It is read from its source. -/
theorem exists_parse_bindingModule (ty : Option TypeExpr) {value : Expr} (hshaped : value.Shaped)
    (hty : ∀ k ∈ statedKinds .colon ty, k.Writable) (hvalue : ∀ k ∈ value.kinds, k.Writable)
    (hdepth : value.within + 1 ≤ maxNesting) :
    ∃ src m d, parse src = .ok m ∧ m.items = [.binding d] ∧
      d.ty.map TypeExpr.spanless = ty.map TypeExpr.spanless ∧
      d.value.spanless = value.spanless := by
  have hnormal : (bindingModule ty value).Normal := by
    refine ⟨List.forall_mem_singleton.mpr hshaped, fun k hk => ?_,
      List.forall_mem_singleton.mpr hdepth⟩
    simp only [bindingModule, Module.kinds, List.flatMap_cons, List.flatMap_nil, Item.kinds,
      LetDecl.kinds, Bool.false_eq_true, if_false, List.append_nil, List.cons_append,
      List.nil_append, List.append_assoc, List.mem_cons, List.mem_append, List.not_mem_nil,
      or_false] at hk
    rcases hk with rfl | rfl | hk | rfl | hk | rfl
    · trivial
    · decide
    · exact hty k hk
    · trivial
    · exact hvalue k hk
    · trivial
  obtain ⟨m, hm, hspanless⟩ := hnormal.parse_written
  have hitems : m.items.map Item.spanless = [.binding ⟨false, Ident.spanless ⟨"x", default⟩,
    ty.map TypeExpr.spanless, value.spanless, default⟩] := congrArg Module.items hspanless
  obtain ⟨item, hitem, hbinding⟩ := List.map_eq_singleton_iff.mp hitems
  cases item with
  | function => cases hbinding
  | binding d =>
    simp only [Item.spanless, LetDecl.spanless, Item.binding.injEq, LetDecl.mk.injEq] at hbinding
    exact ⟨_, m, d, hm, hitem, hbinding.2.2.1, hbinding.2.2.2.1⟩

/-- The tokens of nested types of functions can be written. -/
theorem writable_arrows (n : Nat) : ∀ k ∈ (arrows n).kinds, k.Writable := by
  induction n with
  | zero => decide
  | succ n ih =>
    intro k hk
    have hkinds :
        (arrows (n + 1)).kinds = .kwFn :: .lParen :: .rParen :: .arrow :: (arrows n).kinds := rfl
    rw [hkinds] at hk
    simp only [List.mem_cons] at hk
    rcases hk with rfl | rfl | rfl | rfl | hk
    · trivial
    · trivial
    · trivial
    · trivial
    · exact ih k hk

/-- Down nested types of functions, every step is to one. -/
theorem exists_path_arrows {n : Nat} {p : Node} {t : TypeExpr}
    (ht : t.spanless = (arrows n).spanless) (hp : .type t ∈ p.children) :
    ∃ d, p.Path Node.EntersArrow d n := by
  induction n generalizing p t with
  | zero => exact ⟨p, .nil p⟩
  | succ n ih =>
    cases t with
    | path => cases ht
    | arrow params ret span =>
      have hret : ret.spanless = (arrows n).spanless := (TypeExpr.arrow.inj ht).2.1
      have hchild : .type ret ∈ (Node.type (.arrow params ret span)).children :=
        List.mem_append_right _ (List.mem_singleton_self _)
      obtain ⟨d, hpath⟩ := ih hret hchild
      exact ⟨d, .step hp trivial hpath⟩

/-- For every number there is a source with as many types of functions inside of each other. -/
theorem exists_parse_arrows (n : Nat) :
    ∃ src m d, parse src = .ok m ∧ (Node.root m).Path Node.EntersArrow d n := by
  have hone : (Expr.lit (.int 1) default).Shaped ∧
      (∀ k ∈ (Expr.lit (.int 1) default).kinds, k.Writable) ∧
      (Expr.lit (.int 1) default).within + 1 ≤ maxNesting :=
    ⟨trivial, by decide, by decide⟩
  obtain ⟨src, m, d, hm, hitems, hty, -⟩ := exists_parse_bindingModule (some (arrows n)) hone.1
    (List.forall_mem_cons.mpr ⟨trivial, writable_arrows n⟩) hone.2.1 hone.2.2
  obtain ⟨t, ht, hspanless⟩ := Option.map_eq_some_iff.mp hty
  have hchild : .type t ∈ (Node.binding d).children := by
    simp [Node.children, ht]
  obtain ⟨e, hpath⟩ := exists_path_arrows hspanless hchild
  have hitem : .binding d ∈ (Node.root m).children := by
    simp [Node.children, hitems, Item.node]
  exact ⟨src, m, e, hm, .pass hitem id hpath⟩

/-- Conditionals behind one another can be written and read. -/
theorem normal_elseIfs (n : Nat) :
    (elseIfs n).Shaped ∧ (∀ k ∈ (elseIfs n).kinds, k.Writable) ∧ (elseIfs n).within = 1 ∧
      (elseIfs n).IsElse := by
  induction n with
  | zero => exact ⟨⟨trivial, trivial⟩, by decide, rfl, trivial⟩
  | succ n ih =>
    obtain ⟨hshaped, hwritable, hwithin, helse⟩ := ih
    refine ⟨⟨trivial, ⟨trivial, trivial⟩, ?_, hshaped⟩, fun k hk => ?_, ?_, trivial⟩
    · rintro _ ⟨⟩
      exact helse
    · have hkinds : (elseIfs (n + 1)).kinds =
        .kwIf :: .kwTrue :: .lBrace :: .rBrace :: .kwElse :: (elseIfs n).kinds := rfl
      rw [hkinds] at hk
      simp only [List.mem_cons] at hk
      rcases hk with rfl | rfl | rfl | rfl | rfl | hk
      · trivial
      · trivial
      · trivial
      · trivial
      · trivial
      · exact hwritable k hk
    · have hmax : (elseIfs (n + 1)).within = max 1 (max 1 (elseIfs n).within) := rfl
      omega

/-- Down conditionals behind one another, every step is to one. -/
theorem exists_path_elseIfs {n : Nat} {e : Expr} (he : e.spanless = (elseIfs (n + 1)).spanless) :
    ∃ d, (Node.expr e).Path Node.EntersElseIf d n := by
  induction n generalizing e with
  | zero => exact ⟨_, .nil _⟩
  | succ n ih =>
    cases e with
    | cond test yes no span =>
      have hno : optionSpanless no = some (elseIfs (n + 1)).spanless := (Expr.cond.inj he).2.2.1
      cases no with
      | none => cases hno
      | some e =>
        have he := Option.some.inj hno
        obtain ⟨d, hpath⟩ := ih he
        refine ⟨d, .step (c := .expr e) (by simp [Node.children]) ?_ hpath⟩
        cases e with
        | cond => rfl
        | _ => cases he
    | _ => cases he

/-- For every number there is a source with as many conditionals behind the `else` of others. -/
theorem exists_parse_elseIfs (n : Nat) :
    ∃ src m d, parse src = .ok m ∧ (Node.root m).Path Node.EntersElseIf d n := by
  obtain ⟨hshaped, hwritable, hwithin, -⟩ := normal_elseIfs (n + 1)
  obtain ⟨src, m, d, hm, hitems, -, hvalue⟩ := exists_parse_bindingModule none hshaped nofun
    hwritable (by rw [hwithin]; decide)
  obtain ⟨e, hpath⟩ := exists_path_elseIfs hvalue
  have hchild : .expr d.value ∈ (Node.binding d).children := by
    simp [Node.children]
  have hitem : .binding d ∈ (Node.root m).children := by
    simp [Node.children, hitems, Item.node]
  exact ⟨src, m, e, hm, .pass hitem id (.pass hchild id hpath)⟩

/-! ## The bound, and what it leaves out -/

/-- On a path down the tree of a source the parser calls itself no more than twice for each level
that may nest, and as often as there are types of functions and conditionals behind the `else` of
another, for which it counts none. -/
theorem parse_nesting {src : String} {m : Module} (h : parse src = .ok m) {d : Node} {k : Nat}
    (hpath : (Node.root m).Path Node.Enters d k) :
    ∃ counted uncounted, counted + uncounted = k ∧ counted ≤ 2 * maxNesting ∧
      (Node.root m).Path Node.EntersCounted d counted ∧
      (Node.root m).Path Node.EntersUncounted d uncounted := by
  obtain ⟨counted, uncounted, hk, hcounted, huncounted⟩ := hpath.split
  exact ⟨counted, uncounted, hk, nested_le_of_parse h hcounted, hcounted, huncounted⟩

/-- The tree of `let f = |a| (a);`. -/
def parensModule : Module :=
  ⟨[.binding ⟨false, ⟨"f", ⟨4, 5⟩⟩, none, .closure [⟨⟨"a", ⟨9, 10⟩⟩, none, ⟨9, 10⟩⟩]
    (.paren (.var ⟨"a", ⟨13, 14⟩⟩) ⟨12, 15⟩) ⟨8, 15⟩, ⟨0, 16⟩⟩], ⟨0, 16⟩⟩

/-- The text is read as that tree. -/
theorem parse_parens : parse "let f = |a| (a);" = .ok parensModule := by
  rw [parse_eq_within (show "let f = |a| (a);".toList.length < 32 by decide)]
  rfl

/-- The parser calls itself for the closure and for the parentheses. -/
theorem parse_nesting_parens : parse "let f = |a| (a);" = .ok parensModule ∧
    ∃ d, (Node.root parensModule).Path Node.Enters d 2 ∧
      ∃ counted uncounted, counted + uncounted = 2 ∧ counted ≤ 2 * maxNesting ∧
        (Node.root parensModule).Path Node.EntersCounted d counted ∧
        (Node.root parensModule).Path Node.EntersUncounted d uncounted := by
  have hpath : (Node.root parensModule).Path Node.Enters
      (.expr (.paren (.var ⟨"a", ⟨13, 14⟩⟩) ⟨12, 15⟩)) 2 := by
    refine .pass (List.mem_singleton_self _) (fun h => h.elim id id) ?_
    refine .step (.tail _ (List.mem_singleton_self _)) (.inl trivial) ?_
    exact .step (.tail _ (List.mem_singleton_self _)) (.inl trivial) (.nil _)
  exact ⟨parse_parens, _, hpath, parse_nesting parse_parens hpath⟩

/-- A path with steps of one kind has as many of a wider one. -/
theorem Node.Path.exists_ge {P Q : Node → Node → Prop} (h : ∀ n c, P n c → Q n c) {n d : Node}
    {k : Nat} (hpath : Path P n d k) : ∃ l, k ≤ l ∧ Path Q n d l := by
  induction hpath with
  | nil n => exact ⟨0, Nat.le_refl _, .nil n⟩
  | step hc hp _ ih =>
    obtain ⟨l, hl, hpath⟩ := ih
    exact ⟨l + 1, Nat.succ_le_succ hl, .step hc (h _ _ hp) hpath⟩
  | @pass n c _ _ hc _ _ ih =>
    obtain ⟨l, hl, hpath⟩ := ih
    by_cases hq : Q n c
    · exact ⟨l + 1, Nat.le_succ_of_le hl, .step hc hq hpath⟩
    · exact ⟨l, hl, .pass hc hq hpath⟩

/-- No number bounds how often the parser calls itself on a path down the tree of a source. It does
so as often as one likes for types of functions, and also for conditionals behind an `else`. -/
theorem not_exists_nesting_bound :
    (¬ ∃ bound, ∀ src m, parse src = .ok m →
      ∀ d k, (Node.root m).Path Node.Enters d k → k ≤ bound) ∧
      (∀ n, ∃ src m d, parse src = .ok m ∧ (Node.root m).Path Node.EntersArrow d n) ∧
      ∀ n, ∃ src m d, parse src = .ok m ∧ (Node.root m).Path Node.EntersElseIf d n := by
  refine ⟨?_, exists_parse_arrows, exists_parse_elseIfs⟩
  rintro ⟨bound, hbound⟩
  obtain ⟨src, m, d, hm, hpath⟩ := exists_parse_arrows (bound + 1)
  obtain ⟨l, hl, hpath⟩ := hpath.exists_ge fun n c h => Node.enters_iff.mpr (.inr (.inl h))
  exact Nat.not_succ_le_self _ (Nat.le_trans hl (hbound src m hm d l hpath))

end ClosureEnv.Syntax
