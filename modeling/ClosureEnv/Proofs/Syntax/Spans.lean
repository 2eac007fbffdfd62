import ClosureEnv.Proofs.Syntax.Derived

/-!
# Spans

Every node of a tree that is parsed has tokens of its own, which follow one another in the source,
and its span goes from the first of them to the last (`parse_spans`). Tokens stand in order, so the
spans of children lie inside of that of their parent and next to one another. That the tokens of a
node may be replaced with others that spell it (`Spells.exists_part`) is for use elsewhere.
-/

namespace ClosureEnv.Syntax

variable {At : Span → List Token → Prop} {ps : List Part} {ts : List Token} {k : TokenKind}

/-! ## Tokens of a node -/

/-- What spells some parts spells them wherever their spans are. -/
theorem Spells.anywhere (h : Spells At ps ts k) : Spells anywhere ps ts k := by
  induction h with
  | nil k => exact .nil k
  | word _ ih => exact .word ih
  | ahead htest _ ih => exact .ahead htest ih
  | node hform _ _ _ ihn ih => exact .node hform trivial ihn ih

/-- So does what spells a node. -/
theorem Node.SpelledBy.anywhere {n : Node} (h : n.SpelledBy At ts k) :
    n.SpelledBy Syntax.anywhere ts k := by
  obtain ⟨ps, hps, -, hspells⟩ := h
  exact ⟨ps, hps, trivial, hspells.anywhere⟩

/-- A node of some parts has consecutive tokens, and others that spell it and start alike can stand
in their place. -/
theorem Spells.exists_part (h : Spells At ps ts k) {n : Node} (hn : n ∈ partNodes ps) :
    ∃ us own vs, ts = us ++ (own ++ vs) ∧ n.SpelledBy At own (nextKind vs k) ∧
      ∀ ws, n.SpelledBy Syntax.anywhere ws (nextKind vs k) →
        nextKind ws (nextKind vs k) = nextKind own (nextKind vs k) →
        Spells Syntax.anywhere ps (us ++ (ws ++ vs)) k := by
  induction h with
  | nil => cases hn
  | @word ps t ts k h ih =>
    obtain ⟨us, own, vs, rfl, hspelled, hother⟩ := ih hn
    exact ⟨t :: us, own, vs, rfl, hspelled, fun ws hws hnext => .word (hother ws hws hnext)⟩
  | ahead htest _ ih =>
    obtain ⟨us, own, vs, rfl, hspelled, hother⟩ := ih hn
    refine ⟨us, own, vs, rfl, hspelled, fun ws hws hnext => .ahead ?_ (hother ws hws hnext)⟩
    simpa only [nextKind_append, hnext] using htest
  | @node m qs ps zs ts k hform hat hm h _ ih =>
    rcases List.mem_cons.mp hn with rfl | hn
    · refine ⟨[], zs, ts, rfl, ⟨qs, hform, hat, hm⟩, fun ws hws _ => ?_⟩
      rw [List.nil_append]
      exact .cons_node hws h.anywhere
    · obtain ⟨us, own, vs, rfl, hspelled, hother⟩ := ih hn
      refine ⟨zs ++ us, own, vs, (List.append_assoc ..).symm, hspelled, fun ws hws hnext => ?_⟩
      rw [List.append_assoc]
      refine .node hform trivial ?_ (hother ws hws hnext)
      simpa only [nextKind_append, hnext] using hm.anywhere

/-- A node that another one holds has consecutive tokens among the tokens of that one, and others
that spell it and start alike can stand in their place. -/
theorem Node.SpelledBy.exists_held {n d : Node} (h : n.SpelledBy At ts k) (hd : n.Holds d) :
    ∃ us own vs, ts = us ++ (own ++ vs) ∧ d.SpelledBy At own (nextKind vs k) ∧
      ∀ ws, d.SpelledBy Syntax.anywhere ws (nextKind vs k) →
        nextKind ws (nextKind vs k) = nextKind own (nextKind vs k) →
        n.SpelledBy Syntax.anywhere (us ++ (ws ++ vs)) k := by
  -- from the top down: the tokens of a child are among those of its parent
  induction hd using Relation.ReflTransGen.head_induction_on generalizing ts k with
  | refl =>
    exact ⟨[], ts, [], by simp, h, fun ws hws _ => by simpa using hws⟩
  | @head n c hc _ ih =>
    obtain ⟨ps, hps, -, hspells⟩ := h
    rw [← Node.partNodes_of_mem_forms hps] at hc
    obtain ⟨us, zs, vs, rfl, hspelled, hother⟩ := hspells.exists_part hc
    obtain ⟨us', own, vs', rfl, hown, hreplace⟩ := ih hspelled
    refine ⟨us ++ us', own, vs' ++ vs, by simp, by rwa [nextKind_append], fun ws hws hnext => ?_⟩
    rw [nextKind_append] at hws hnext
    have := hother _ (hreplace ws hws hnext) (by simp [hnext])
    exact ⟨ps, hps, trivial, by simpa using this⟩

/-! ## Spans in order -/

/-- Tokens stand in order: none ends before it starts, and none starts before those in front of it
have ended. -/
structure InOrder (ts : List Token) : Prop where
  /-- No token ends before it starts. -/
  start_le : ∀ t ∈ ts, t.span.start ≤ t.span.stop
  /-- Tokens follow one another. -/
  pairwise : ts.Pairwise fun t u => t.span.stop ≤ u.span.start

/-- The tokens of a source stand in order. -/
theorem inOrder_tokens (src : String) : InOrder (tokens src) :=
  ⟨fun _ ht => (boundary_tokens ht).2.2, pairwise_tokens src⟩

namespace InOrder

variable {us vs ws : List Token} {a b : Span}

/-- So do those of a part. -/
theorem of_append (h : InOrder (us ++ (vs ++ ws))) : InOrder vs := by
  obtain ⟨hle, hpair⟩ := h
  refine ⟨fun t ht => hle t (by simp [ht]), ?_⟩
  exact (List.pairwise_append.mp (List.pairwise_append.mp hpair).2.1).1

/-- The span of a part lies inside of the span of the whole. -/
theorem inside (h : InOrder (us ++ (vs ++ ws))) (ha : Covers a (us ++ (vs ++ ws)))
    (hb : Covers b vs) : a.start ≤ b.start ∧ b.stop ≤ a.stop := by
  obtain ⟨first, hfirst, last, hlast, rfl⟩ := ha
  obtain ⟨t, ht, u, hu, rfl⟩ := hb
  have htmem := List.mem_of_mem_head? ht
  have humem := List.mem_of_mem_getLast? hu
  constructor
  · change first.span.start ≤ t.span.start
    cases us with
    | nil =>
      rw [List.nil_append, List.head?_append, ht] at hfirst
      cases hfirst
      exact Nat.le_refl _
    | cons s us =>
      obtain rfl : s = first := Option.some.inj hfirst
      exact Nat.le_trans (h.start_le s List.mem_cons_self)
        ((List.pairwise_cons.mp h.pairwise).1 t (by simp [htmem]))
  · change u.span.stop ≤ last.span.stop
    rw [← List.append_assoc, List.getLast?_append] at hlast
    cases hws : ws.getLast? with
    | none =>
      rw [hws, List.getLast?_append, hu] at hlast
      cases hlast
      exact Nat.le_refl _
    | some s =>
      rw [hws] at hlast
      obtain rfl : s = last := Option.some.inj hlast
      have hs := List.mem_of_mem_getLast? hws
      have hpair := (List.pairwise_append.mp (List.pairwise_append.mp h.pairwise).2.1).2.2
      exact Nat.le_trans (hpair u humem s hs) (h.start_le s (by simp [hs]))

end InOrder

/-- The nodes of some parts follow one another. -/
theorem Spells.pairwise_span (h : Spells Covers ps ts k) (hts : InOrder ts) :
    (partNodes ps).Pairwise fun a b => a.span.stop ≤ b.span.start := by
  induction h with
  | nil => exact .nil
  | word _ ih => exact ih ⟨fun t ht => hts.start_le t (.tail _ ht), hts.pairwise.of_cons⟩
  | ahead _ _ ih => exact ih hts
  | @node n qs ps us ts k hform hat hn h _ ih =>
    obtain ⟨hus, hvs, hpair⟩ := List.pairwise_append.mp hts.pairwise
    refine List.pairwise_cons.mpr ⟨fun c hc => ?_,
      ih ⟨fun t ht => hts.start_le t (by simp [ht]), hvs⟩⟩
    obtain ⟨xs, own, ys, rfl, hspelled, -⟩ := h.exists_part hc
    obtain ⟨_, _, last, hlast, hspan⟩ := hat
    obtain ⟨first, hfirst, _, _, hspan'⟩ := hspelled.span
    rw [hspan, hspan']
    exact hpair last (List.mem_of_mem_getLast? hlast) first
      (by simp [List.mem_of_mem_head? hfirst])

/-! ## The spans of a source -/

/-- A node stands where its tokens stand in a source. -/
structure Node.Placed (src : String) (n : Node) : Prop where
  /-- It has consecutive tokens, and its span goes from the first of them to the last. -/
  tokens : ∃ us own vs, tokens src = us ++ (own ++ vs) ∧ n.SpelledBy Covers own (nextKind vs .eof)
  /-- Its span starts between two characters. -/
  start_valid : (⟨n.span.start⟩ : String.Pos.Raw).IsValid src
  /-- Its span ends between two characters. -/
  stop_valid : (⟨n.span.stop⟩ : String.Pos.Raw).IsValid src
  /-- The spans of its children lie inside of its own. -/
  inside : ∀ c ∈ n.children, n.span.start ≤ c.span.start ∧ c.span.stop ≤ n.span.stop
  /-- The spans of its children follow one another. -/
  pairwise : n.children.Pairwise fun a b => a.span.stop ≤ b.span.start

/-- Every node of a tree that is parsed stands where its tokens stand, and the span of the whole
goes from the first token to the end of the source. -/
theorem parse_spans {src : String} {m : Module} (h : parse src = .ok m) :
    (∀ n, (Node.root m).Holds n → n.Placed src) ∧
      (∃ t ∈ (tokens src).head?, m.span = ⟨t.span.start, src.utf8ByteSize⟩) := by
  have hroot := spelled_of_parse h
  refine ⟨fun n hn => ?_, ?_⟩
  · obtain ⟨us, own, vs, hts, hown, -⟩ := hroot.exists_held hn
    have horder := inOrder_tokens src
    rw [hts] at horder
    have hmem (t : Token) (ht : t ∈ own) : t ∈ tokens src := by simp [hts, ht]
    obtain ⟨first, hfirst, last, hlast, hspan⟩ := hown.span
    obtain ⟨ps, hps, hat, hspells⟩ := id hown
    refine ⟨⟨us, own, vs, hts, hown⟩, ?_, ?_, fun c hc => ?_, ?_⟩
    · rw [hspan]
      exact (boundary_tokens (hmem first (List.mem_of_mem_head? hfirst))).1
    · rw [hspan]
      exact (boundary_tokens (hmem last (List.mem_of_mem_getLast? hlast))).2.1
    · rw [← Node.partNodes_of_mem_forms hps] at hc
      obtain ⟨xs, zs, ys, rfl, hc, -⟩ := hspells.exists_part hc
      exact horder.of_append.inside hat hc.span
    · rw [← Node.partNodes_of_mem_forms hps]
      exact hspells.pairwise_span horder.of_append
  · obtain ⟨first, hfirst, last, hlast, hspan⟩ := hroot.span
    obtain ⟨us, hus, -⟩ := exists_tokens src
    rw [hus, List.getLast?_concat] at hlast
    cases hlast
    exact ⟨first, hfirst, hspan⟩

/-- The text of a function with a statement and a value. -/
def entriesText : String :=
  "fn f() \x7b x; y \x7d"

/-- The block of that function. -/
def entriesBlock : Block :=
  .mk [.expr (.var ⟨"x", ⟨9, 10⟩⟩) ⟨9, 11⟩] (some (.var ⟨"y", ⟨12, 13⟩⟩)) ⟨7, 15⟩

/-- The text is read as that function. -/
theorem parse_entriesText : parse entriesText =
    .ok ⟨[.function ⟨⟨"f", ⟨3, 4⟩⟩, [], [], none, entriesBlock, ⟨0, 15⟩⟩], ⟨0, 15⟩⟩ := by
  rw [parse_eq_within (show entriesText.toList.length < 32 by decide)]
  rfl

/-- The block stands where its tokens stand. -/
theorem parse_spans_entries : (Node.block entriesBlock).Placed entriesText := by
  refine (parse_spans parse_entriesText).1 _ ?_
  exact .of_child (List.mem_singleton_self _) (.child (.tail _ (List.mem_singleton_self _)))

end ClosureEnv.Syntax
