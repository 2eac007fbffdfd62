import ClosureEnv.Proofs.Bound.Scoped
import ClosureEnv.Proofs.Syntax.Named
import ClosureEnv.Proofs.Syntax.Spans
import Mathlib.Data.List.Chain

/-!
# The tokens cover the source

All that a source has besides its tokens is blanks and comments (`Gap`), and each token is read off
its own text, without what stands around it (`Cut.alone`), wherever that text stands (`scan_add`).
The parser goes over all tokens, and takes none of them that is malformed, since no form of a node
has a word for it (`Node.wellWorded_of_mem_forms`).

Every identifier of a tree that is parsed is one of the source, so it is a word (`wordy_of_parse`)
and has none of the characters that made names are told by. The names that a source declares are
plain.
-/

namespace ClosureEnv.Syntax

/-! ## Where a text stands -/

/-- A place that is further on by some bytes. -/
def Place.add (p : Place) (m : Nat) : Place :=
  ⟨p.rest, p.offset + m⟩

/-- A quoted text is the same wherever it stands. -/
theorem Place.takeText_add (done cs : List Char) (n m : Nat) :
    takeText done cs (n + m) = (takeText done cs n).map id (Place.add · m) := by
  have hone (n k : Nat) : n + m + k = n + k + m := Nat.add_right_comm n m k
  fun_induction takeText done cs n with
  | case1 done n => rfl
  | case2 done n => simp [takeText, Place.add, hone]
  | case3 done cs n => simp [takeText, Place.add, hone]
  | case4 done c cs n x ih => simp only [takeText, hone, ih, x]
  | case5 done c cs n hend hquote hescape ih =>
    rw [takeText, hone, ih]
    · exact hend
    · exact hquote
    · exact hescape

/-- A token is the same wherever it stands. -/
theorem scan_add (c : Char) (cs : List Char) (n m : Nat) :
    scan c cs (n + m) = (scan c cs n).map id (Place.add · m) := by
  have hone (cs : List Char) (n : Nat) : scan.scanOne c ⟨cs, n + m⟩ =
      (scan.scanOne c ⟨cs, n⟩).map id (Place.add · m) := by
    unfold scan.scanOne
    dsimp only
    split
    · rfl
    split
    · exact Place.takeText_add [] cs n m
    split
    · simp [Place.takeWhile_eq, Place.add, Nat.add_right_comm]
    split
    · simp [Place.takeWhile_eq, Place.add, Nat.add_right_comm]
    · rfl
  unfold scan
  dsimp only
  rw [Nat.add_right_comm n m]
  split
  · split
    · simp [Place.add, Nat.add_right_comm]
    · exact hone _ _
  · exact hone _ _

/-- What is skipped is the same wherever it stands. -/
theorem Place.skipTrivia_add (inComment : Bool) (cs : List Char) (n m : Nat) :
    skipTrivia inComment cs (n + m) = (skipTrivia inComment cs n).add m := by
  induction cs generalizing inComment n with
  | nil => rfl
  | cons c cs ih =>
    simp only [skipTrivia, Nat.add_right_comm n m, ih, apply_ite (Place.add · m)]
    rfl

/-- A token that stands further on by some bytes. -/
def Token.add (t : Token) (m : Nat) : Token :=
  ⟨t.kind, ⟨t.span.start + m, t.span.stop + m⟩⟩

/-- The tokens are the same wherever they stand. -/
theorem tokensFrom_add (cs : List Char) (n m : Nat) :
    tokensFrom [] cs (n + m) = (tokensFrom [] cs n).map (·.add m) := by
  -- on the number of characters, of which every token takes one at least
  induction hlen : cs.length using Nat.strongRecOn generalizing cs n with
  | _ len ih =>
    subst hlen
    have hskip := Place.skipTrivia_add false cs n m
    have hle := Place.length_skipTrivia_le false cs n
    cases hplace : Place.skipTrivia false cs n with
    | mk rest k =>
      rw [hplace] at hskip hle
      cases rest with
      | nil =>
        rw [tokensFrom_of_end hskip, tokensFrom_of_end hplace]
        rfl
      | cons c ds =>
        have hlt := Nat.lt_of_lt_of_le (Nat.lt_succ_of_le (length_scan_le c ds k)) hle
        rw [tokensFrom_of_scan hskip (scan_add c ds k m), tokensFrom_of_scan hplace rfl,
          tokensFrom_eq_append, tokensFrom_eq_append [_], List.map_append]
        exact congrArg _ (ih _ hlt _ _ rfl)

/-- A token that is cut off is the only one of its own text. -/
theorem Cut.alone {trivia text rest : List Char} {k : TokenKind} {n : Nat}
    (h : Cut trivia text k rest n) : tokensFrom [] text 0 =
      [⟨k, ⟨0, bytes text⟩⟩, ⟨.eof, ⟨bytes text, bytes text⟩⟩] := by
  have hend (m : Nat) : tokensFrom [] [] m = [⟨.eof, ⟨m, m⟩⟩] := tokensFrom_of_end rfl []
  -- nothing may follow it, where it stands
  have hhere : tokensFrom [] (trivia ++ (text ++ [])) n =
      ⟨k, ⟨n + bytes trivia, n + bytes trivia + bytes text⟩⟩ ::
        tokensFrom [] [] (n + bytes trivia + bytes text) := by
    by_cases hrest : rest = []
    · exact hrest ▸ h.tokens_eq
    · exact h.follows hrest [] nofun
  rw [h.skipped.tokensFrom_append, List.append_nil, hend, ← Nat.zero_add (n + bytes trivia),
    tokensFrom_add] at hhere
  have hinj : Function.Injective (Token.add · (n + bytes trivia)) := by
    rintro ⟨k, a, b⟩ ⟨k', a', b'⟩ heq
    simpa [Token.add] using heq
  refine List.map_injective_iff.mpr hinj (hhere.trans ?_)
  simp [Token.add, Nat.add_comm, Nat.add_left_comm, Nat.add_assoc]

/-! ## What is between tokens -/

/-- Only blanks and comments are from where one span of a source stops to where another one starts;
the last comment may do without a line feed, if it ends the source. -/
def Gap (src : List Char) (a b : Span) : Prop :=
  ∃ front trivia back, src = front ++ (trivia ++ back) ∧ a.stop = bytes front ∧
    b.start = bytes front + bytes trivia ∧ Trivia back.isEmpty trivia

/-- Between the tokens of a source, in front of the first of them and behind the last, there are
only blanks and comments. -/
theorem isChain_gap (cs : List Char) (n : Nat) : ∀ front a, bytes front = n → a.stop = n →
    (a :: (tokensFrom [] cs n).map Token.span).IsChain (Gap (front ++ cs)) := by
  induction cs, n using tokensFrom_induction with
  | eof cs n htrivia =>
    rintro front a rfl ha
    refine .cons_cons ⟨front, cs, [], by rw [List.append_nil], ha, rfl, htrivia⟩ (.singleton _)
  | @token trivia text k rest n hcut ih =>
    rintro front a rfl ha
    have hrest := ih (front ++ (trivia ++ text))
      ⟨bytes front + bytes trivia, bytes front + bytes trivia + bytes text⟩
      (by simp [Nat.add_assoc]) rfl
    have hne : (text ++ rest).isEmpty = false := by
      rw [List.isEmpty_eq_false_iff]
      exact List.append_ne_nil_of_left_ne_nil hcut.text_ne rest
    rw [List.append_assoc, List.append_assoc] at hrest
    exact .cons_cons ⟨front, trivia, text ++ rest, rfl, ha, rfl, hne ▸ hcut.skipped⟩ hrest

/-! ## The tokens in front of the end -/

/-- A token stands for a text of a source, and is read off this text alone. -/
structure Token.ReadOff (src : List Char) (t : Token) : Prop where
  /-- It is none that stands for the end. -/
  ne_eof : t.kind ≠ .eof
  /-- It is not empty. -/
  start_lt : t.span.start < t.span.stop
  /-- Its text has no other token. -/
  alone : ∃ front text back, src = front ++ (text ++ back) ∧
    t.span = ⟨bytes front, bytes front + bytes text⟩ ∧
    tokens (String.ofList text) = [⟨t.kind, ⟨0, bytes text⟩⟩, ⟨.eof, ⟨bytes text, bytes text⟩⟩]

/-- Some characters have some bytes. -/
theorem bytes_pos {cs : List Char} (h : cs ≠ []) : 0 < bytes cs := by
  obtain ⟨c, cs, rfl⟩ := List.exists_cons_of_ne_nil h
  rw [bytes_cons]
  exact Nat.add_pos_left (Char.utf8Size_pos c) _

/-- Every token in front of the end is read off its own text, and takes one character at least. -/
theorem exists_readOff (cs : List Char) (n : Nat) : ∀ front, bytes front = n →
    ∃ ts, tokensFrom [] cs n = ts ++ [⟨.eof, ⟨n + bytes cs, n + bytes cs⟩⟩] ∧
      ts.length ≤ cs.length ∧ ∀ t ∈ ts, t.ReadOff (front ++ cs) := by
  induction cs, n using tokensFrom_induction with
  | eof cs n _ => exact fun _ _ => ⟨[], rfl, Nat.zero_le _, nofun⟩
  | @token trivia text k rest n hcut ih =>
    rintro front rfl
    obtain ⟨ts, hts, hlen, hread⟩ := ih (front ++ (trivia ++ text)) (by simp [Nat.add_assoc])
    rw [List.append_assoc, List.append_assoc] at hread
    have hpos := List.length_pos_iff.mpr hcut.text_ne
    have hfirst : Token.ReadOff (front ++ (trivia ++ (text ++ rest)))
        ⟨k, ⟨bytes front + bytes trivia, bytes front + bytes trivia + bytes text⟩⟩ := by
      refine ⟨hcut.scanned.ne_eof, Nat.lt_add_of_pos_right (bytes_pos hcut.text_ne),
        front ++ trivia, text, rest, by simp, by simp, ?_⟩
      rw [tokens, String.toList_ofList]
      exact hcut.alone
    refine ⟨_ :: ts, ?_, ?_, List.forall_mem_cons.mpr ⟨hfirst, hread⟩⟩
    · rw [hts]
      simp [Nat.add_assoc]
    · simp only [List.length_cons, List.length_append]
      omega

/-! ## Malformed tokens -/

/-- A kind of token that is not malformed. -/
def TokenKind.WellFormed (k : TokenKind) : Prop :=
  ∀ e, k ≠ .error e

/-- The token of a literal is not malformed. -/
theorem Literal.wellFormed_kind (v : Literal) : v.kind.WellFormed := by
  rcases v with _ | _ | (_ | _) | _ <;> nofun

/-- The token of an operator with one operand is not malformed. -/
theorem UnaryOp.wellFormed_kind (op : UnaryOp) : op.kind.WellFormed := by
  cases op <;> nofun

/-- The token of an operator with two operands is not malformed. -/
theorem BinaryOp.wellFormed_kind (op : BinaryOp) : op.kind.WellFormed := by
  cases op <;> nofun

/-- No word of some parts is malformed. -/
def WellWorded : List Part → Prop
  | [] => True
  | .word k :: ps => k.WellFormed ∧ WellWorded ps
  | _ :: ps => WellWorded ps

@[simp] theorem wellWorded_append {ps qs : List Part} :
    WellWorded (ps ++ qs) ↔ WellWorded ps ∧ WellWorded qs := by
  fun_induction WellWorded ps <;> simp_all [WellWorded, and_assoc]

@[simp] theorem wellWorded_map (ns : List Node) : WellWorded (ns.map .node) := by
  induction ns <;> simp_all [WellWorded]

@[simp] theorem wellWorded_commaParts (ns : List Node) : WellWorded (commaParts ns) := by
  fun_induction commaParts ns <;> simp_all [WellWorded, TokenKind.WellFormed]

/-- A stated type adds the token in front of it. -/
theorem wellWorded_statedParts {mark : TokenKind} (hmark : mark.WellFormed)
    (ty : Option TypeExpr) : WellWorded (statedParts mark ty) := by
  cases ty <;> simp [statedParts, WellWorded, hmark]

/-- No word of a binding is malformed. -/
theorem wellWorded_bindingParts (isMut : Bool) (name : Ident) (ty : Option TypeExpr)
    (value : Expr) : WellWorded (bindingParts isMut name ty value) := by
  have hty : WellWorded (statedParts .colon ty) :=
    wellWorded_statedParts (by simp [TokenKind.WellFormed]) ty
  cases isMut <;> simp [bindingParts, WellWorded, TokenKind.WellFormed, hty]

/-- No form of a node has a word that is malformed. -/
theorem Node.wellWorded_of_mem_forms : ∀ {n : Node} {ps : List Part},
    ps ∈ n.forms → WellWorded ps
  | .expr (.closure ..), _, h => by
    obtain ⟨qs, hqs, rfl⟩ := List.mem_map.mp h
    rcases mem_closureForms.mp hqs with rfl | ⟨-, rfl⟩ <;>
      simp [WellWorded, TokenKind.WellFormed]
  | .stmt (.expr ..), _, h => by
    rcases mem_forms_exprStmt.mp h with rfl | ⟨-, rfl⟩ <;>
      simp [WellWorded, TokenKind.WellFormed]
  | .function d, _, h => by
    obtain ⟨qs, hqs, rfl⟩ := List.mem_map.mp h
    have hret : WellWorded (statedParts .arrow d.retTy) :=
      wellWorded_statedParts (by simp [TokenKind.WellFormed]) d.retTy
    rcases mem_genericForms.mp hqs with rfl | ⟨-, rfl⟩ <;>
      simp [WellWorded, TokenKind.WellFormed, hret]
  | .expr (.lit v _), _, h => by
    obtain rfl := List.mem_singleton.mp h
    simp [WellWorded, v.wellFormed_kind]
  | .expr (.unary op ..), _, h => by
    obtain rfl := List.mem_singleton.mp h
    simp [WellWorded, op.wellFormed_kind]
  | .expr (.binary op ..), _, h => by
    obtain rfl := List.mem_singleton.mp h
    simp [WellWorded, op.wellFormed_kind]
  | .expr (.cond _ _ no _), _, h => by
    obtain rfl := List.mem_singleton.mp h
    cases no <;> simp [WellWorded, TokenKind.WellFormed, elseParts]
  | .param p, _, h => by
    obtain rfl := List.mem_singleton.mp h
    exact wellWorded_statedParts (by simp [TokenKind.WellFormed]) p.ty
  | .stmt (.bind isMut name ty value _), _, h => by
    obtain rfl := List.mem_singleton.mp h
    exact wellWorded_bindingParts isMut name ty value
  | .binding d, _, h => by
    obtain rfl := List.mem_singleton.mp h
    exact wellWorded_bindingParts d.isMut d.name d.ty d.value
  | .ident _, _, h | .type (.path _), _, h | .type (.arrow ..), _, h | .expr (.var _), _, h
  | .expr (.call ..), _, h | .expr (.paren ..), _, h | .expr (.block _), _, h
  | .expr (.loop ..), _, h | .block (.mk ..), _, h | .stmt (.assign ..), _, h
  | .stmt (.ret ..), _, h | .root _, _, h => by
    obtain rfl := List.mem_singleton.mp h
    simp [WellWorded, TokenKind.WellFormed, entryParts, -List.map_map]

/-- What is spelled by parts without malformed words has no malformed tokens. -/
theorem Spells.wellFormed {At : Span → List Token → Prop} {ps : List Part} {ts : List Token}
    {k : TokenKind} (h : Spells At ps ts k) (hps : WellWorded ps) :
    ∀ t ∈ ts, t.kind.WellFormed := by
  induction h with
  | nil => exact nofun
  | word _ ih => exact List.forall_mem_cons.mpr ⟨hps.1, ih hps.2⟩
  | ahead _ _ ih => exact ih hps
  | node hform _ _ _ ihn ih =>
    exact List.forall_mem_append.mpr ⟨ihn (Node.wellWorded_of_mem_forms hform), ih hps⟩

/-- What is parsed has no malformed tokens. -/
theorem wellFormed_of_parse {src : String} {m : Module} (h : parse src = .ok m) :
    ∀ t ∈ tokens src, t.kind.WellFormed := by
  obtain ⟨ps, hps, -, hspells⟩ := spelled_of_parse h
  exact hspells.wellFormed (Node.wellWorded_of_mem_forms hps)

/-! ## A source -/

/-- Some tokens, and the one for the end, cover a source. -/
structure Covered (src : String) (ts : List Token) : Prop where
  /-- They are all the tokens there are. -/
  tokens_eq : tokens src = ts ++ [⟨.eof, ⟨src.utf8ByteSize, src.utf8ByteSize⟩⟩]
  /-- There are no more of them than characters. -/
  length_le : ts.length ≤ src.toList.length
  /-- Each of them is read off its own text. -/
  readOff : ∀ t ∈ ts, t.ReadOff src.toList
  /-- Every token starts and stops between two characters. -/
  valid : ∀ t ∈ tokens src, (⟨t.span.start⟩ : String.Pos.Raw).IsValid src ∧
    (⟨t.span.stop⟩ : String.Pos.Raw).IsValid src
  /-- No token is behind the end. -/
  stop_le : ∀ t ∈ tokens src, t.span.stop ≤ src.utf8ByteSize
  /-- Tokens follow one another. -/
  pairwise : (tokens src).Pairwise fun t u => t.span.stop ≤ u.span.start
  /-- All around them there are only blanks and comments. -/
  gaps : (⟨0, 0⟩ :: (tokens src).map Token.span).IsChain (Gap src.toList)

/-- The tokens of a source cover it, and none of them is malformed if the source is accepted. -/
theorem tokens_cover (src : String) : (∃ ts, Covered src ts) ∧
    ∀ m, parse src = .ok m → ∀ t ∈ tokens src, ∀ e, t.kind ≠ .error e := by
  refine ⟨?_, fun m h => wellFormed_of_parse h⟩
  obtain ⟨ts, hts, hlen, hread⟩ := exists_readOff src.toList 0 [] rfl
  rw [Nat.zero_add, bytes, String.ofList_toList] at hts
  refine ⟨ts, hts, hlen, hread, fun t ht => ?_, fun t ht => ?_, pairwise_tokens src,
    isChain_gap src.toList 0 [] ⟨0, 0⟩ rfl rfl⟩
  · obtain ⟨hstart, hstop, -⟩ := boundary_tokens ht
    exact ⟨hstart, hstop⟩
  · exact (boundary_tokens ht).2.1.le_rawEndPos

/-- The tokens of a function with a statement and a value cover it, and none is malformed. -/
theorem tokens_cover_entries : (∃ ts, Covered entriesText ts) ∧
    ∀ t ∈ tokens entriesText, ∀ e, t.kind ≠ .error e :=
  ⟨(tokens_cover entriesText).1, (tokens_cover entriesText).2 _ parse_entriesText⟩

/-! ## Names -/

/-- A part of a source whose names are words. -/
def Node.Wordy (n : Node) : Prop :=
  n.AllNames fun text => isName text = true

/-- The names in a source are words. -/
theorem wordy_of_parse {src : String} {m : Module} (h : parse src = .ok m) :
    (Node.root m).Wordy := by
  intro name hname
  obtain ⟨us, own, vs, hts, hown, -⟩ := (spelled_of_parse h).exists_held hname
  obtain ⟨t, _, rfl, ht, -⟩ := Spells.word_iff.mp (hown.of_form rfl)
  -- the lexer makes an identifier of a word only
  obtain ⟨ts, htokens, hscanned⟩ := exists_tokens src
  have hmem : t ∈ ts ++ [⟨.eof, ⟨src.utf8ByteSize, src.utf8ByteSize⟩⟩] := by
    rw [← htokens, hts]
    simp
  rcases List.mem_append.mp hmem with hmem | hmem
  · rcases hscanned t hmem with hwritable | ⟨e, he⟩
    · rwa [ht] at hwritable
    · cases ht.symm.trans he
  · obtain rfl := List.mem_singleton.mp hmem
    cases ht

/-- The characters of words are none that made names are told by. -/
theorem plain_of_isName {s : String} (h : isName s = true) : Plain s := by
  intro c hc
  have := (isWordChar_of_isName h).2 c hc
  refine ⟨?_, ?_, ?_⟩ <;> rintro rfl <;> revert this <;> decide

/-- The names that a source declares are plain. -/
theorem parse_named {src : String} {m : Module} (h : parse src = .ok m) :
    m.Named ClosureEnv.Plain :=
  Module.named fun name hname => plain_of_isName (wordy_of_parse h name hname)

end ClosureEnv.Syntax
