import ClosureEnv.Proofs.Text.Digits
import ClosureEnv.Syntax.Lexer

/-!
# Written tokens

Tokens that are written one after the other, with a blank between them, are read back as they are:
`kinds_tokens_written`. `Cuts` says of one token that it is cut off where its text ends. Where the
text can be made longer, as that of a word, it takes the blank behind it to end there; a slash
needs the blank too, since two of them begin a comment.
-/

namespace ClosureEnv.Syntax

/-! ## How tokens are written -/

/-- Whether a text is a word. -/
def isWord (s : String) : Bool :=
  match s.toList with
  | [] => false
  | c :: cs => isWordStart c && cs.all isWordChar

/-- Whether a text is a word and no keyword. -/
def isName (s : String) : Bool :=
  isWord s && (TokenKind.keyword? s).isNone

/-- A character in a quoted text. -/
def escapeChar (c : Char) : List Char :=
  if c = '"' ∨ c = '\\' then ['\\', c] else [c]

/-- How a token is written. -/
def TokenKind.text : TokenKind → String
  | ident s => s
  | int n => toString n
  | str s => String.ofList ('"' :: s.toList.flatMap escapeChar ++ ['"'])
  | kwFn => "fn"
  | kwLet => "let"
  | kwMut => "mut"
  | kwIf => "if"
  | kwElse => "else"
  | kwWhile => "while"
  | kwReturn => "return"
  | kwTrue => "true"
  | kwFalse => "false"
  | kwNil => "nil"
  | lParen => "("
  | rParen => ")"
  | lBrace => "\x7b"
  | rBrace => "\x7d"
  | comma => ","
  | colon => ":"
  | semicolon => ";"
  | arrow => "->"
  | pipe => "|"
  | orOr => "||"
  | andAnd => "&&"
  | bang => "!"
  | eq => "="
  | eqEq => "=="
  | bangEq => "!="
  | lt => "<"
  | le => "<="
  | gt => ">"
  | ge => ">="
  | plus => "+"
  | minus => "-"
  | star => "*"
  | slash => "/"
  | error _ | eof => ""

/-- A token that has a text of its own. -/
def TokenKind.Writable : TokenKind → Prop
  | ident s => isName s = true
  | int n => n ≤ maxLiteral
  | error _ | eof => False
  | _ => True

instance : DecidablePred TokenKind.Writable
  | .ident s => inferInstanceAs (Decidable (isName s = true))
  | .int n => inferInstanceAs (Decidable (n ≤ maxLiteral))
  | .error _ | .eof => inferInstanceAs (Decidable False)
  | .str _ | .kwFn | .kwLet | .kwMut | .kwIf | .kwElse | .kwWhile | .kwReturn | .kwTrue | .kwFalse
  | .kwNil | .lParen | .rParen | .lBrace | .rBrace | .comma | .colon | .semicolon | .arrow | .pipe
  | .orOr | .andAnd | .bang | .eq | .eqEq | .bangEq | .lt | .le | .gt | .ge | .plus | .minus | .star
  | .slash => inferInstanceAs (Decidable True)

/-- The source of some tokens. -/
def written (ks : List TokenKind) : String :=
  " ".intercalate (ks.map TokenKind.text)

/-! ## One token -/

/-- A token of kind `k` is cut off from the front of some characters and leaves `rest`. -/
def Cuts (k : TokenKind) (cs rest : List Char) : Prop :=
  ∃ c ds, cs = c :: ds ∧ Text.isBlank c = false ∧
    (c == '/' && ds.head? == some '/') = false ∧ ∀ n, ∃ m, scan c ds n = (k, ⟨rest, m⟩)

/-- Nothing follows, or a blank. -/
def Apart : List Char → Prop
  | [] => True
  | c :: _ => c = ' '

/-- How many bytes some characters take. -/
def bytes (cs : List Char) : Nat :=
  (String.ofList cs).utf8ByteSize

@[simp] theorem bytes_nil : bytes [] = 0 := rfl

@[simp] theorem bytes_cons (c : Char) (cs : List Char) :
    bytes (c :: cs) = c.utf8Size + bytes cs := by
  rw [bytes, String.ofList_cons, String.utf8ByteSize_append, String.utf8ByteSize_singleton, bytes]

@[simp] theorem bytes_append (cs ds : List Char) : bytes (cs ++ ds) = bytes cs + bytes ds := by
  rw [bytes, String.ofList_append, String.utf8ByteSize_append, bytes, bytes]

/-- What is taken is what passes the test. -/
theorem Place.takeWhile_eq (p : Char → Bool) (done cs : List Char) (n : Nat) :
    Place.takeWhile p done cs n = (String.ofList (done.reverse ++ cs.takeWhile p),
      ⟨cs.dropWhile p, n + bytes (cs.takeWhile p)⟩) := by
  induction cs generalizing done n with
  | nil => simp [takeWhile]
  | cons c cs ih =>
    rw [takeWhile]
    split
    · next hc => simp [ih, hc, Nat.add_assoc]
    · next hc => simp [hc]

/-- What is taken ends where the test fails. -/
theorem Place.takeWhile_append {p : Char → Bool} {cs rest : List Char} (hcs : cs.all p = true)
    (hrest : ∀ c ∈ rest.head?, p c = false) (done : List Char) (n : Nat) :
    Place.takeWhile p done (cs ++ rest) n =
      (String.ofList (done.reverse ++ cs), ⟨rest, n + bytes cs⟩) := by
  rw [List.all_eq_true] at hcs
  have hnone : rest.takeWhile p = [] ∧ rest.dropWhile p = rest := by
    cases rest with
    | nil => exact ⟨rfl, rfl⟩
    | cons c rest => simp [hrest c rfl]
  rw [takeWhile_eq, List.takeWhile_append_of_pos hcs, List.dropWhile_append_of_pos hcs, hnone.1,
    hnone.2, List.append_nil]

/-- A quoted text is read up to its closing quote. -/
theorem Place.takeText_escaped (cs rest done : List Char) (n : Nat) :
    ∃ m, Place.takeText done (cs.flatMap escapeChar ++ '"' :: rest) n =
      (.str (String.ofList (done.reverse ++ cs)), ⟨rest, m⟩) := by
  induction cs generalizing done n with
  | nil => exact ⟨n + 1, by simp [takeText]⟩
  | cons c cs ih =>
    by_cases hc : c = '"' ∨ c = '\\'
    · obtain ⟨m, hm⟩ := ih (c :: done) (n + 1 + c.utf8Size)
      have hx :
          (if (c == 'n') = true then '\n' else if (c == 't') = true then '\t' else c) = c := by
        rcases hc with rfl | rfl <;> rfl
      refine ⟨m, ?_⟩
      simp only [List.flatMap_cons, escapeChar, hc, if_true, List.cons_append, List.nil_append]
      rw [takeText]
      · rw [hx, hm, List.reverse_cons, List.append_assoc, List.singleton_append]
    · obtain ⟨m, hm⟩ := ih (c :: done) (n + c.utf8Size)
      obtain ⟨hquote, hback⟩ := not_or.mp hc
      refine ⟨m, ?_⟩
      simp only [List.flatMap_cons, escapeChar, hc, if_false, List.cons_append, List.nil_append]
      rw [takeText]
      · rw [hm, List.reverse_cons, List.append_assoc, List.singleton_append]
      all_goals simp_all

/-- No symbol has a word character in front. -/
theorem ofChar?_of_isWordChar {c : Char} (h : isWordChar c = true) :
    TokenKind.ofChar? c = none := by
  unfold TokenKind.ofChar?
  split <;> first | rfl | exact absurd h (by decide)

/-- No symbol of two characters has a word character in front. -/
theorem ofPair?_of_isWordChar {c : Char} (h : isWordChar c = true) (d : Char) :
    TokenKind.ofPair? c d = none := by
  unfold TokenKind.ofPair?
  split <;> first | rfl | exact absurd h (by decide)

/-- A word character is not blank. -/
theorem isBlank_of_isWordChar {c : Char} (h : isWordChar c = true) : Text.isBlank c = false := by
  have hbounds : 48 ≤ c.toNat ∧ c.toNat ≤ 122 := by
    delta isWordChar Char.isAlphanum Char.isAlpha Char.isUpper Char.isLower Char.isDigit at h
    simp only [Bool.or_eq_true, Bool.and_eq_true, decide_eq_true_eq, beq_iff_eq, ge_iff_le,
      UInt32.le_iff_toNat_le] at h
    rcases h with ((⟨h₁, h₂⟩ | ⟨h₁, h₂⟩) | ⟨h₁, h₂⟩) | rfl
    · exact ⟨Nat.le_trans (by decide) h₁, Nat.le_trans h₂ (by decide)⟩
    · exact ⟨Nat.le_trans (by decide) h₁, Nat.le_trans h₂ (by decide)⟩
    · exact ⟨Nat.le_trans (by decide) h₁, Nat.le_trans h₂ (by decide)⟩
    · decide
  simp only [Text.isBlank, Bool.or_eq_false_iff, Bool.and_eq_false_iff, decide_eq_false_iff_not,
    beq_eq_false_iff_ne]
  omega

/-- What starts a word continues one. -/
theorem isWordChar_of_isWordStart {c : Char} (h : isWordStart c = true) : isWordChar c = true := by
  simp only [isWordStart, isWordChar, Char.isAlphanum, Bool.or_eq_true] at h ⊢
  exact h.imp .inl id

/-- The characters of a name are those of words, and there is one. -/
theorem isWordChar_of_isName {s : String} (h : isName s = true) :
    s.toList ≠ [] ∧ ∀ c ∈ s.toList, isWordChar c = true := by
  have hword := (Bool.and_eq_true_iff.mp h).1
  unfold isWord at hword
  split at hword
  · cases hword
  · next c cs heq =>
    obtain ⟨hc, hcs⟩ := Bool.and_eq_true_iff.mp hword
    rw [heq]
    exact ⟨List.cons_ne_nil _ _, List.forall_mem_cons.mpr
      ⟨isWordChar_of_isWordStart hc, List.all_eq_true.mp hcs⟩⟩

/-- No word starts with a digit. -/
theorem isDigit_of_isWordStart {c : Char} (h : isWordStart c = true) : c.isDigit = false := by
  delta isWordStart Char.isAlpha Char.isUpper Char.isLower at h
  simp only [Char.isDigit, Bool.or_eq_true, Bool.and_eq_true, decide_eq_true_eq, beq_iff_eq,
    ge_iff_le, UInt32.le_iff_toNat_le, Bool.and_eq_false_iff, decide_eq_false_iff_not] at h ⊢
  rcases h with (⟨h, -⟩ | ⟨h, -⟩) | rfl
  · exact .inr (Nat.not_le.mpr (Nat.lt_of_lt_of_le (by decide) h))
  · exact .inr (Nat.not_le.mpr (Nat.lt_of_lt_of_le (by decide) h))
  · decide

/-- A token that starts with a word character is one of more than symbols. -/
theorem scan_of_isWordChar {c : Char} (h : isWordChar c = true) (cs : List Char) (n : Nat) :
    scan c cs n = scan.scanOne c ⟨cs, n + c.utf8Size⟩ := by
  unfold scan
  cases cs with
  | nil => rfl
  | cons d ds => simp only [ofPair?_of_isWordChar h]

/-- Apart, no word continues. -/
theorem Apart.not_word {rest : List Char} (h : Apart rest) :
    ∀ c ∈ rest.head?, isWordChar c = false := by
  cases rest with
  | nil => exact nofun
  | cons c cs =>
    rintro _ ⟨⟩
    cases h
    decide

/-- Apart, no number continues. -/
theorem Apart.not_digit {rest : List Char} (h : Apart rest) :
    ∀ c ∈ rest.head?, c.isDigit = false := by
  cases rest with
  | nil => exact nofun
  | cons c cs =>
    rintro _ ⟨⟩
    cases h
    decide

/-- A token that starts with a word character is cut off if it is scanned. -/
theorem cuts_of_isWordChar {k : TokenKind} {c : Char} {cs rest : List Char}
    (hc : isWordChar c = true) (h : ∀ n, ∃ m, scan.scanOne c ⟨cs, n⟩ = (k, ⟨rest, m⟩)) :
    Cuts k (c :: cs) rest := by
  refine ⟨c, cs, rfl, isBlank_of_isWordChar hc, ?_, fun n => ?_⟩
  · rw [Bool.and_eq_false_iff, beq_eq_false_iff_ne]
    exact .inl fun he => absurd hc (by rw [he]; decide)
  · rw [scan_of_isWordChar hc]
    exact h _

/-- A word is cut off. -/
theorem cuts_word {s : String} {k : TokenKind} (hs : isWord s = true)
    (hk : TokenKind.ofWord s = k) {rest : List Char} (hrest : Apart rest) :
    Cuts k (s.toList ++ rest) rest := by
  subst hk
  unfold isWord at hs
  cases hcs : s.toList with
  | nil => rw [hcs] at hs; cases hs
  | cons c cs =>
    rw [hcs] at hs
    obtain ⟨hc, hcs'⟩ := Bool.and_eq_true_iff.mp hs
    have hword := isWordChar_of_isWordStart hc
    rw [List.cons_append]
    refine cuts_of_isWordChar hword fun n => ?_
    have hm := Place.takeWhile_append hcs' hrest.not_word [c] n
    have hquote : (c == '"') = false :=
      beq_eq_false_iff_ne.mpr fun he => absurd hword (by rw [he]; decide)
    refine ⟨n + bytes cs, ?_⟩
    simp only [scan.scanOne, ofChar?_of_isWordChar hword, hquote, isDigit_of_isWordStart hc, hc,
      Bool.false_eq_true, if_false, if_true, hm]
    rw [List.reverse_singleton, List.singleton_append, ← hcs, String.ofList_toList]

/-- A number is cut off. -/
theorem cuts_int {n : Nat} (hn : n ≤ maxLiteral) {rest : List Char} (hrest : Apart rest) :
    Cuts (.int n) ((toString n).toList ++ rest) rest := by
  cases hcs : (toString n).toList with
  | nil => exact absurd hcs (Text.toString_ne_nil n)
  | cons c cs =>
    have hdigits (d : Char) (hd : d ∈ c :: cs) : d.isDigit = true :=
      Text.isDigit_of_mem_toString (hcs ▸ hd)
    have hc := hdigits c List.mem_cons_self
    have hword : isWordChar c = true := by simp [isWordChar, Char.isAlphanum, hc]
    have hall : cs.all Char.isDigit = true :=
      List.all_eq_true.mpr fun d hd => hdigits d (List.mem_cons_of_mem _ hd)
    rw [List.cons_append]
    refine cuts_of_isWordChar hword fun k => ?_
    have hm := Place.takeWhile_append hall hrest.not_digit [c] k
    have hquote : (c == '"') = false :=
      beq_eq_false_iff_ne.mpr fun he => absurd hword (by rw [he]; decide)
    have hvalue : decimalValue (toString n) = n := by
      rw [decimalValue, String.foldl_eq_foldl_toList, Text.foldl_toString]
    refine ⟨k + bytes cs, ?_⟩
    simp only [scan.scanOne, ofChar?_of_isWordChar hword, hquote, hc, Bool.false_eq_true, if_false,
      if_true, hm]
    rw [List.reverse_singleton, List.singleton_append, ← hcs, String.ofList_toList, intLiteral,
      hvalue, if_pos hn]

/-- A quoted text is cut off. -/
theorem cuts_str (s : String) (rest : List Char) :
    Cuts (.str s) ((TokenKind.str s).text.toList ++ rest) rest := by
  rw [TokenKind.text, String.toList_ofList, List.cons_append, List.cons_append, List.append_assoc]
  refine ⟨_, _, rfl, by decide, by simp, fun n => ?_⟩
  obtain ⟨m, hm⟩ := Place.takeText_escaped s.toList rest [] (n + '"'.utf8Size)
  have hscan : scan '"' (s.toList.flatMap escapeChar ++ '"' :: rest) n =
      Place.takeText [] (s.toList.flatMap escapeChar ++ '"' :: rest) (n + '"'.utf8Size) := by
    unfold scan
    split
    · split
      · next h => cases h
      · rfl
    · rfl
  exact ⟨m, by rw [List.singleton_append, hscan, hm, List.reverse_nil, List.nil_append,
    String.ofList_toList]⟩

/-- Every token is cut off, if nothing follows it or a blank. -/
theorem cuts_text {k : TokenKind} (hk : k.Writable) {rest : List Char} (hrest : Apart rest) :
    Cuts k (k.text.toList ++ rest) rest := by
  cases k with
  | ident s =>
    obtain ⟨hword, hnot⟩ := Bool.and_eq_true_iff.mp hk
    refine cuts_word hword ?_ hrest
    rw [TokenKind.ofWord, Option.isNone_iff_eq_none.mp hnot, Option.getD_none]
  | int n => exact cuts_int hk hrest
  | str s => exact cuts_str s rest
  | error | eof => exact hk.elim
  | kwFn | kwLet | kwMut | kwIf | kwElse | kwWhile | kwReturn | kwTrue | kwFalse | kwNil =>
    exact cuts_word (by decide) (by decide) hrest
  | _ =>
    cases rest with
    | nil => exact ⟨_, _, rfl, rfl, rfl, fun n => ⟨_, rfl⟩⟩
    | cons c cs =>
      cases hrest
      exact ⟨_, _, rfl, rfl, rfl, fun n => ⟨_, rfl⟩⟩

/-! ## All tokens -/

/-- At the end there is the one token `eof`. -/
theorem tokensFrom_of_end {cs : List Char} {n m : Nat}
    (h : Place.skipTrivia false cs n = ⟨[], m⟩) (done : List Token) :
    tokensFrom done cs n = (⟨.eof, ⟨m, m⟩⟩ :: done).reverse := by
  rw [tokensFrom]
  dsimp only
  split <;> simp_all

/-- One token and then the others. -/
theorem tokensFrom_of_scan {cs ds rest : List Char} {c : Char} {n m stop : Nat} {k : TokenKind}
    (h : Place.skipTrivia false cs n = ⟨c :: ds, m⟩) (hscan : scan c ds m = (k, ⟨rest, stop⟩))
    (done : List Token) :
    tokensFrom done cs n = tokensFrom (⟨k, ⟨m, stop⟩⟩ :: done) rest stop := by
  rw [tokensFrom]
  dsimp only
  split <;> simp_all

/-- Cutting a token off. -/
theorem tokensFrom_of_cuts {k : TokenKind} {cs rest : List Char} (h : Cuts k cs rest)
    (done : List Token) (n : Nat) :
    ∃ t m, t.kind = k ∧ tokensFrom done cs n = tokensFrom (t :: done) rest m := by
  obtain ⟨c, cs, rfl, hblank, hcomment, hscan⟩ := h
  obtain ⟨m, hm⟩ := hscan n
  have hskip : Place.skipTrivia false (c :: cs) n = ⟨c :: cs, n⟩ := by
    simp [Place.skipTrivia, hblank, hcomment]
  exact ⟨⟨k, ⟨n, m⟩⟩, m, rfl, tokensFrom_of_scan hskip hm done⟩

/-- What is skipped is the same for the same tokens. -/
theorem tokensFrom_congr {cs ds : List Char} {n m : Nat}
    (h : Place.skipTrivia false cs n = Place.skipTrivia false ds m) (done : List Token) :
    tokensFrom done cs n = tokensFrom done ds m := by
  cases hplace : Place.skipTrivia false ds m with
  | mk rest offset =>
    rw [hplace] at h
    cases rest with
    | nil => rw [tokensFrom_of_end h, tokensFrom_of_end hplace]
    | cons c rest => rw [tokensFrom_of_scan h rfl, tokensFrom_of_scan hplace rfl]

/-- A blank in front makes no token. -/
theorem tokensFrom_blank (done : List Token) (cs : List Char) (n : Nat) :
    tokensFrom done (' ' :: cs) n = tokensFrom done cs (n + 1) := by
  have hskip : Place.skipTrivia false (' ' :: cs) n = Place.skipTrivia false cs (n + 1) := rfl
  exact tokensFrom_congr hskip done

/-- The tokens of some written ones, after those in `done`. -/
theorem kinds_tokensFrom {ks : List TokenKind} (h : ∀ k ∈ ks, k.Writable) (done : List Token)
    (n : Nat) :
    (tokensFrom done ([' '].intercalate (ks.map fun k => k.text.toList)) n).map Token.kind =
      (done.map Token.kind).reverse ++ ks ++ [TokenKind.eof] := by
  induction ks generalizing done n with
  | nil =>
    have hskip : Place.skipTrivia false [] n = ⟨[], n⟩ := rfl
    simp [tokensFrom_of_end hskip]
  | cons k ks ih =>
    obtain ⟨hk, hks⟩ := List.forall_mem_cons.mp h
    cases ks with
    | nil =>
      have hcut : Cuts k (k.text.toList ++ []) [] := cuts_text hk trivial
      obtain ⟨t, m, rfl, ht⟩ := tokensFrom_of_cuts hcut done n
      have := ih hks (t :: done) m
      simp_all
    | cons l ls =>
      have hapart : Apart (' ' :: [' '].intercalate ((l :: ls).map fun k => k.text.toList)) := rfl
      have hcut := cuts_text hk hapart
      obtain ⟨t, m, rfl, ht⟩ := tokensFrom_of_cuts hcut done n
      have := ih hks (t :: done) (m + 1)
      simp_all [tokensFrom_blank]

/-- Tokens are read back from their source. -/
theorem kinds_tokens_written {ks : List TokenKind} (h : ∀ k ∈ ks, k.Writable) :
    (tokens (written ks)).map Token.kind = ks ++ [TokenKind.eof] := by
  have := kinds_tokensFrom h [] 0
  rw [tokens, written, String.toList_intercalate, List.map_map]
  exact this

example : written [.ident "f", .lParen, .str "a\"", .rParen] = "f ( \"a\\\"\" )" := by decide

end ClosureEnv.Syntax
