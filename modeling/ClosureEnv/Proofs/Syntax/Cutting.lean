import ClosureEnv.Proofs.Syntax.Writing
import ClosureEnv.Syntax.Parser

/-!
# How a source is cut

A source is cut into tokens one after the other (`tokensFrom_induction`): what is skipped in front
of a token, its text and what is left behind it are the characters of the source in their order
(`Cut`). So the tokens stand in order and on the boundaries of characters, with the end last. A
token depends on what is behind it by the first character at most, and never takes a blank, so a
semicolon can be blotted out.
-/

namespace ClosureEnv.Syntax

/-- What is behind a token starts with the same character or with a blank. -/
def Follows (rest y : List Char) : Prop :=
  ∀ c ∈ y.head?, c = ' ' ∨ c ∈ rest.head?

/-- A word, a number, a symbol, a text or a malformed stretch. -/
def TokenKind.Scanned (k : TokenKind) : Prop :=
  k.Writable ∨ ∃ e, k = .error e

/-! ## What is skipped -/

/-- Some characters start a token. -/
def AtToken (cs : List Char) : Prop :=
  ∃ c ds, cs = c :: ds ∧ Text.isBlank c = false ∧ (c == '/' && ds.head? == some '/') = false

/-- Nothing is skipped in front of a token. -/
theorem AtToken.skipTrivia_eq {cs : List Char} (h : AtToken cs) (n : Nat) :
    Place.skipTrivia false cs n = ⟨cs, n⟩ := by
  obtain ⟨c, ds, rfl, hblank, hcomment⟩ := h
  simp [Place.skipTrivia, hblank, hcomment]

/-- Blanks and comments. Every comment ends in a line feed, but the one that ends a source, for
which `last` stands, may do without. -/
inductive Trivia : (last : Bool) → List Char → Prop
  | nil {last : Bool} : Trivia last []
  | blank {last : Bool} {c : Char} {cs : List Char} :
    Text.isBlank c = true → Trivia last cs → Trivia last (c :: cs)
  | comment {last : Bool} {body cs : List Char} :
    '\n' ∉ body → Trivia last cs → Trivia last ('/' :: '/' :: (body ++ '\n' :: cs))
  | openComment {body : List Char} : '\n' ∉ body → Trivia true ('/' :: '/' :: body)

/-- A comment goes on up to its line feed. -/
theorem Place.skipTrivia_body {body : List Char} (h : '\n' ∉ body) (cs : List Char) (n : Nat) :
    skipTrivia true (body ++ cs) n = skipTrivia true cs (n + bytes body) := by
  induction body generalizing n with
  | nil => rfl
  | cons c body ih =>
    obtain ⟨hc, hbody⟩ := not_or.mp (mt List.mem_cons.mpr h)
    have hne : (c != '\n') = true := bne_iff_ne.mpr (Ne.symm hc)
    rw [List.cons_append, skipTrivia, if_pos rfl, hne, ih hbody, bytes_cons, Nat.add_assoc]

/-- Blanks and comments are skipped, whatever follows; behind an open comment nothing can. -/
theorem Trivia.skipTrivia_append {last : Bool} {cs y : List Char} (h : Trivia last cs)
    (hy : last = true → y = []) (n : Nat) :
    Place.skipTrivia false (cs ++ y) n = Place.skipTrivia false y (n + bytes cs) := by
  induction h generalizing n with
  | nil => rfl
  | @blank _ c cs hblank _ ih =>
    rw [List.cons_append, Place.skipTrivia, if_neg Bool.false_ne_true, if_pos hblank, ih hy,
      bytes_cons, Nat.add_assoc]
  | @comment _ body cs hbody _ ih =>
    have hbegin (zs : List Char) : Place.skipTrivia false ('/' :: '/' :: zs) n =
        Place.skipTrivia true zs (n + bytes ['/', '/']) := rfl
    have hend (zs : List Char) (m : Nat) : Place.skipTrivia true ('\n' :: zs) m =
        Place.skipTrivia false zs (m + bytes ['\n']) := rfl
    rw [List.cons_append, List.cons_append, List.append_assoc, List.cons_append, hbegin,
      Place.skipTrivia_body hbody, hend, ih hy]
    congr 1
    simp [Nat.add_assoc]
  | @openComment body hbody =>
    obtain rfl := hy rfl
    have hbegin : Place.skipTrivia false ('/' :: '/' :: (body ++ [])) n =
        Place.skipTrivia true (body ++ []) (n + bytes ['/', '/']) := rfl
    rw [List.cons_append, List.cons_append, hbegin, Place.skipTrivia_body hbody]
    simp [Place.skipTrivia, Nat.add_assoc]

/-- In front of a token, or of the end, there are blanks and comments. -/
theorem exists_trivia (cs : List Char) : ∃ trivia rest, cs = trivia ++ rest ∧
    Trivia rest.isEmpty trivia ∧ (rest ≠ [] → AtToken rest) := by
  -- on the number of characters, since a comment is skipped as a whole
  induction hlen : cs.length using Nat.strongRecOn generalizing cs with
  | _ len ih =>
    subst hlen
    cases cs with
    | nil => exact ⟨[], [], rfl, .nil, fun h => (h rfl).elim⟩
    | cons c cs =>
      by_cases hblank : Text.isBlank c = true
      · obtain ⟨trivia, rest, rfl, htrivia, hrest⟩ := ih cs.length (Nat.lt_succ_self _) cs rfl
        exact ⟨c :: trivia, rest, rfl, .blank hblank htrivia, hrest⟩
      by_cases hslash : (c == '/' && cs.head? == some '/') = true
      · rw [Bool.and_eq_true, beq_iff_eq, beq_iff_eq] at hslash
        obtain ⟨rfl, hhead⟩ := hslash
        obtain ⟨ds, rfl⟩ : ∃ ds, cs = '/' :: ds := List.head?_eq_some_iff.mp hhead
        by_cases hline : '\n' ∈ ds
        · obtain ⟨body, es, rfl, hbody⟩ := List.eq_append_cons_of_mem hline
          obtain ⟨trivia, rest, rfl, htrivia, hrest⟩ := ih es.length
            (by simp only [List.length_cons, List.length_append]; omega) es rfl
          exact ⟨'/' :: '/' :: (body ++ '\n' :: trivia), rest, by simp,
            .comment hbody htrivia, hrest⟩
        · exact ⟨'/' :: '/' :: ds, [], by simp, .openComment hline, fun h => (h rfl).elim⟩
      · exact ⟨[], c :: cs, rfl, .nil, fun _ =>
          ⟨c, cs, rfl, Bool.not_eq_true _ ▸ hblank, Bool.not_eq_true _ ▸ hslash⟩⟩

/-! ## One token -/

/-- A text is read up to its closing quote, whatever follows. -/
theorem Place.exists_takeText (done cs : List Char) (n : Nat) :
    ∃ ds rest, cs = ds ++ rest ∧ (takeText done cs n).2 = ⟨rest, n + bytes ds⟩ ∧
      (takeText done cs n).1.Scanned ∧ (takeText done cs n).1 ≠ .semicolon ∧
      (rest ≠ [] → ∀ y, takeText done (ds ++ y) n =
        ((takeText done cs n).1, ⟨y, n + bytes ds⟩)) := by
  fun_induction takeText done cs n with
  | case1 done n => exact ⟨[], [], rfl, rfl, .inr ⟨_, rfl⟩, by simp, fun h => (h rfl).elim⟩
  | case2 done n => exact ⟨['\\'], [], rfl, rfl, .inr ⟨_, rfl⟩, by simp, fun h => (h rfl).elim⟩
  | case3 done cs n =>
    exact ⟨['"'], cs, rfl, rfl, .inl trivial, by simp, fun _ y => by simp [takeText]; rfl⟩
  | case4 done c cs n x ih =>
    obtain ⟨ds, rest, rfl, hplace, hscanned, hne, hy⟩ := ih
    refine ⟨'\\' :: c :: ds, rest, rfl, ?_, hscanned, hne, fun hrest y => ?_⟩
    · rw [hplace]
      simp [Nat.add_assoc]
      rfl
    · rw [List.cons_append, List.cons_append, takeText, hy hrest]
      simp [Nat.add_assoc]
      rfl
  | case5 done c cs n hend hquote hescape ih =>
    have hback : c ≠ '\\' := by
      rintro rfl
      cases cs with
      | nil => exact hend rfl rfl
      | cons d ds => exact hescape d ds rfl rfl
    obtain ⟨ds, rest, rfl, hplace, hscanned, hne, hy⟩ := ih
    refine ⟨c :: ds, rest, rfl, ?_, hscanned, hne, fun hrest y => ?_⟩
    · rw [hplace, bytes_cons, Nat.add_assoc]
    · rw [List.cons_append, takeText, hy hrest, bytes_cons, Nat.add_assoc]
      · exact fun he _ => hback he
      · exact hquote
      · exact fun _ _ he _ => hback he

/-- A symbol of one character. -/
theorem TokenKind.writable_ofChar? {c : Char} {k : TokenKind} (h : ofChar? c = some k) :
    k.Writable ∧ (k = .semicolon → c = ';') := by
  unfold ofChar? at h
  split at h <;> cases h <;> exact ⟨trivial, by simp⟩

/-- A symbol of two characters. -/
theorem TokenKind.writable_ofPair? {c d : Char} {k : TokenKind} (h : ofPair? c d = some k) :
    k.Writable ∧ k ≠ .semicolon := by
  unfold ofPair? at h
  split at h <;> cases h <;> exact ⟨trivial, nofun⟩

/-- No symbol of two characters ends in a blank. -/
theorem TokenKind.ofPair?_blank (c : Char) : ofPair? c ' ' = none := by
  unfold ofPair?
  split <;> simp_all

/-- A word is a keyword or a name. -/
theorem TokenKind.writable_ofWord {word : String} (h : isWord word = true) :
    (ofWord word).Writable ∧ ofWord word ≠ .semicolon := by
  unfold ofWord
  cases hk : keyword? word with
  | none => exact ⟨by simp [Writable, isName, h, hk], nofun⟩
  | some k =>
    unfold keyword? at hk
    split at hk <;> cases hk <;> exact ⟨trivial, nofun⟩

/-- The rest of a word or a number does not depend on what follows. -/
theorem Place.takeWhile_follows {p : Char → Bool} (hblank : p ' ' = false) (done cs : List Char)
    (n : Nat) {y : List Char} (hy : Follows (cs.dropWhile p) y) :
    takeWhile p done (cs.takeWhile p ++ y) n =
      ((takeWhile p done cs n).1, ⟨y, n + bytes (cs.takeWhile p)⟩) := by
  rw [takeWhile_append, takeWhile_eq]
  · exact List.all_takeWhile
  · intro c hc
    rcases hy c hc with rfl | hc
    · exact hblank
    · have hnot := List.head?_dropWhile_not p cs
      rwa [hc] at hnot

/-- What a token takes from behind its first character, whatever follows. -/
theorem exists_scanOne (c : Char) (cs : List Char) (n : Nat) :
    ∃ ds rest, cs = ds ++ rest ∧ (scan.scanOne c ⟨cs, n⟩).2 = ⟨rest, n + bytes ds⟩ ∧
      (scan.scanOne c ⟨cs, n⟩).1.Scanned ∧
      ((scan.scanOne c ⟨cs, n⟩).1 = .semicolon → c = ';' ∧ ds = []) ∧
      (rest ≠ [] → ∀ y, Follows rest y →
        scan.scanOne c ⟨ds ++ y, n⟩ = ((scan.scanOne c ⟨cs, n⟩).1, ⟨y, n + bytes ds⟩)) := by
  unfold scan.scanOne
  dsimp only
  -- a symbol, a quoted text, a number, a word, or a character that is no token
  split
  · next k hk =>
    obtain ⟨hwritable, hsemi⟩ := TokenKind.writable_ofChar? hk
    exact ⟨[], cs, rfl, rfl, .inl hwritable, fun he => ⟨hsemi he, rfl⟩, fun _ y _ => rfl⟩
  split
  · obtain ⟨ds, rest, hcs, hplace, hscanned, hne, hy⟩ := Place.exists_takeText [] cs n
    exact ⟨ds, rest, hcs, hplace, hscanned, fun he => (hne he).elim, fun hrest y _ => hy hrest y⟩
  split
  · refine ⟨cs.takeWhile Char.isDigit, cs.dropWhile Char.isDigit,
      List.takeWhile_append_dropWhile.symm, ?_, ?_, ?_, fun _ y hy => ?_⟩
    · rw [Place.takeWhile_eq]
    · unfold intLiteral
      dsimp only
      split
      · next hle => exact .inl hle
      · exact .inr ⟨_, rfl⟩
    · unfold intLiteral
      dsimp only
      split <;> exact nofun
    · rw [Place.takeWhile_follows rfl _ _ _ hy]
  split
  · next hstart =>
    have hword : isWord (Place.takeWhile isWordChar [c] cs n).1 = true := by
      rw [Place.takeWhile_eq, isWord, String.toList_ofList]
      simp [hstart]
    obtain ⟨hwritable, hne⟩ := TokenKind.writable_ofWord hword
    refine ⟨cs.takeWhile isWordChar, cs.dropWhile isWordChar,
      List.takeWhile_append_dropWhile.symm, ?_, .inl hwritable, fun he => (hne he).elim,
      fun _ y hy => ?_⟩
    · rw [Place.takeWhile_eq]
    · rw [Place.takeWhile_follows rfl _ _ _ hy]
  · exact ⟨[], cs, rfl, rfl, .inr ⟨_, rfl⟩, nofun, fun _ y _ => rfl⟩

/-- A token that two characters do not make is made from the first. -/
theorem scan_eq_scanOne {c : Char} {cs : List Char}
    (h : ∀ d ∈ cs.head?, TokenKind.ofPair? c d = none) (n : Nat) :
    scan c cs n = scan.scanOne c ⟨cs, n + c.utf8Size⟩ := by
  unfold scan
  cases cs with
  | nil => rfl
  | cons d ds => simp only [h d rfl]

/-- What a token takes from behind its first character, whatever follows. -/
theorem exists_scan (c : Char) (cs : List Char) (n : Nat) :
    ∃ ds rest, cs = ds ++ rest ∧ (scan c cs n).2 = ⟨rest, n + bytes (c :: ds)⟩ ∧
      (scan c cs n).1.Scanned ∧ ((scan c cs n).1 = .semicolon → c = ';' ∧ ds = []) ∧
      (rest ≠ [] → ∀ y, Follows rest y →
        scan c (ds ++ y) n = ((scan c cs n).1, ⟨y, n + bytes (c :: ds)⟩)) := by
  by_cases hpair : ∃ d ds k, cs = d :: ds ∧ TokenKind.ofPair? c d = some k
  · obtain ⟨d, ds, k, rfl, hk⟩ := hpair
    have hscan (zs : List Char) : scan c (d :: zs) n = (k, ⟨zs, n + bytes [c, d]⟩) := by
      simp [scan, hk, Nat.add_assoc]
    obtain ⟨hwritable, hne⟩ := TokenKind.writable_ofPair? hk
    rw [hscan]
    exact ⟨[d], ds, rfl, rfl, .inl hwritable, fun he => (hne he).elim, fun _ y _ => hscan y⟩
  · have hnone : ∀ d ∈ cs.head?, TokenKind.ofPair? c d = none := by
      intro d hd
      cases cs with
      | nil => cases hd
      | cons d ds =>
        cases hd
        exact Option.eq_none_iff_forall_ne_some.mpr fun k hk => hpair ⟨d, ds, k, rfl, hk⟩
    obtain ⟨ds, rest, hcs, hplace, hscanned, hsemi, hy⟩ := exists_scanOne c cs (n + c.utf8Size)
    rw [scan_eq_scanOne hnone]
    rw [Nat.add_assoc, ← bytes_cons] at hplace hy
    refine ⟨ds, rest, hcs, hplace, hscanned, hsemi, fun hrest y hfollows => ?_⟩
    rw [scan_eq_scanOne, hy hrest y hfollows]
    -- what follows the first character makes no token with it either
    intro d hd
    cases ds with
    | cons d' ds => exact hnone d (by rw [hcs]; exact hd)
    | nil =>
      rcases hfollows d hd with rfl | hd
      · exact TokenKind.ofPair?_blank c
      · exact hnone d (by rw [hcs]; exact hd)

/-! ## All tokens -/

/-- The tokens that are there already come first. -/
theorem tokensFrom_eq_append (done : List Token) (cs : List Char) (n : Nat) :
    tokensFrom done cs n = done.reverse ++ tokensFrom [] cs n := by
  -- on the number of characters, of which every token takes one at least
  induction hlen : cs.length using Nat.strongRecOn generalizing done cs n with
  | _ len ih =>
    subst hlen
    have hle := Place.length_skipTrivia_le false cs n
    cases hskip : Place.skipTrivia false cs n with
    | mk rest m =>
      rw [hskip] at hle
      cases rest with
      | nil =>
        rw [tokensFrom_of_end hskip, tokensFrom_of_end hskip, List.reverse_cons,
          List.reverse_singleton]
      | cons c ds =>
        have hlt := Nat.lt_of_lt_of_le (Nat.lt_succ_of_le (length_scan_le c ds m)) hle
        have hscan :
            scan c ds m = ((scan c ds m).1, ⟨(scan c ds m).2.rest, (scan c ds m).2.offset⟩) := rfl
        rw [tokensFrom_of_scan hskip hscan, tokensFrom_of_scan hskip hscan, ih _ hlt _ _ _ rfl,
          ih _ hlt [_] _ _ rfl, List.reverse_cons, List.append_assoc, List.reverse_singleton]

/-- The token that is cut off at offset `n`: what is skipped, its text, its kind, and what is left
behind it. -/
structure Cut (trivia text : List Char) (k : TokenKind) (rest : List Char) (n : Nat) : Prop where
  /-- Blanks and comments are skipped. -/
  skipped : Trivia false trivia
  /-- It is not empty. -/
  text_ne : text ≠ []
  /-- It is none that stands for the end. -/
  scanned : k.Scanned
  /-- The text of a semicolon. -/
  semicolon : k = .semicolon → text = [';']
  /-- The first token, and all others. -/
  tokens_eq : tokensFrom [] (trivia ++ (text ++ rest)) n =
    ⟨k, ⟨n + bytes trivia, n + bytes trivia + bytes text⟩⟩ ::
      tokensFrom [] rest (n + bytes trivia + bytes text)
  /-- The token does not depend on what follows. -/
  follows : rest ≠ [] → ∀ y, Follows rest y → tokensFrom [] (trivia ++ (text ++ y)) n =
    ⟨k, ⟨n + bytes trivia, n + bytes trivia + bytes text⟩⟩ ::
      tokensFrom [] y (n + bytes trivia + bytes text)

/-- What is skipped in front of some tokens does not change them. -/
theorem Trivia.tokensFrom_append {cs y : List Char} (h : Trivia false cs) (n : Nat) :
    tokensFrom [] (cs ++ y) n = tokensFrom [] y (n + bytes cs) :=
  tokensFrom_congr (h.skipTrivia_append nofun n) []

/-- A token is cut off, or only blanks and comments are left. -/
theorem exists_cut (cs : List Char) (n : Nat) :
    (Trivia true cs ∧ tokensFrom [] cs n = [⟨.eof, ⟨n + bytes cs, n + bytes cs⟩⟩]) ∨
      ∃ trivia text k rest, cs = trivia ++ (text ++ rest) ∧ Cut trivia text k rest n := by
  obtain ⟨trivia, rest, rfl, htrivia, hrest⟩ := exists_trivia cs
  by_cases hnil : rest = []
  · subst hnil
    refine .inl ⟨by rwa [List.append_nil], ?_⟩
    rw [tokensFrom_of_end (htrivia.skipTrivia_append (fun _ => rfl) n), List.append_nil]
    rfl
  obtain ⟨c, ds, rfl, hblank, hcomment⟩ := hrest hnil
  change Trivia false trivia at htrivia
  obtain ⟨es, rest, rfl, hplace, hscanned, hsemi, hfollows⟩ := exists_scan c ds (n + bytes trivia)
  -- the first token of some characters that are scanned like this
  have hfirst (zs : List Char) (hat : AtToken (c :: (es ++ zs)))
      (hscan : scan c (es ++ zs) (n + bytes trivia) =
        ((scan c (es ++ rest) (n + bytes trivia)).1, ⟨zs, n + bytes trivia + bytes (c :: es)⟩)) :
      tokensFrom [] (trivia ++ (c :: es ++ zs)) n =
        ⟨(scan c (es ++ rest) (n + bytes trivia)).1,
          ⟨n + bytes trivia, n + bytes trivia + bytes (c :: es)⟩⟩ ::
          tokensFrom [] zs (n + bytes trivia + bytes (c :: es)) := by
    have hskip := (htrivia.skipTrivia_append nofun n).trans (hat.skipTrivia_eq _)
    rw [List.cons_append, tokensFrom_of_scan hskip hscan, tokensFrom_eq_append]
    rfl
  refine .inr ⟨trivia, c :: es, _, rest, rfl, htrivia, nofun, hscanned, ?_, ?_, ?_⟩
  · intro he
    obtain ⟨rfl, rfl⟩ := hsemi he
    rfl
  · exact hfirst rest ⟨c, es ++ rest, rfl, hblank, hcomment⟩ (Prod.ext rfl hplace)
  · intro hne y hyrest
    refine hfirst y ⟨c, es ++ y, rfl, hblank, ?_⟩ (hfollows hne y hyrest)
    rw [Bool.and_eq_false_iff, beq_eq_false_iff_ne, beq_eq_false_iff_ne] at hcomment ⊢
    refine hcomment.imp_right fun hslash hhead => ?_
    cases es with
    | cons d es => exact hslash hhead
    | nil =>
      rcases hyrest _ hhead with he | hrest
      · exact absurd he (by decide)
      · exact hslash hrest

/-- What holds at the end, and in front of every token if it holds behind it, holds everywhere. -/
theorem tokensFrom_induction {motive : List Char → Nat → List Token → Prop}
    (eof : ∀ cs n, Trivia true cs → motive cs n [⟨.eof, ⟨n + bytes cs, n + bytes cs⟩⟩])
    (token : ∀ {trivia text : List Char} {k : TokenKind} {rest : List Char} {n : Nat},
      Cut trivia text k rest n →
      motive rest (n + bytes trivia + bytes text)
        (tokensFrom [] rest (n + bytes trivia + bytes text)) →
      motive (trivia ++ (text ++ rest)) n
        (⟨k, ⟨n + bytes trivia, n + bytes trivia + bytes text⟩⟩ ::
          tokensFrom [] rest (n + bytes trivia + bytes text)))
    (cs : List Char) (n : Nat) : motive cs n (tokensFrom [] cs n) := by
  induction hlen : cs.length using Nat.strongRecOn generalizing cs n with
  | _ len ih =>
    rcases exists_cut cs n with ⟨htrivia, heof⟩ | ⟨trivia, text, k, rest, rfl, hcut⟩
    · rw [heof]
      exact eof cs n htrivia
    · rw [hcut.tokens_eq]
      refine token hcut (ih rest.length ?_ rest _ rfl)
      have := List.length_pos_iff.mpr hcut.text_ne
      simp only [List.length_append] at hlen
      omega

/-! ## Where tokens stand -/

/-- Some bytes are left behind a token. -/
theorem TokenKind.Scanned.ne_eof {k : TokenKind} (h : k.Scanned) : k ≠ .eof := by
  rintro rfl
  rcases h with h | ⟨e, he⟩
  · exact h
  · cases he

/-- The end is the last token, and all others are scanned. -/
theorem exists_tokensFrom (cs : List Char) (n : Nat) :
    ∃ ts, tokensFrom [] cs n = ts ++ [⟨.eof, ⟨n + bytes cs, n + bytes cs⟩⟩] ∧
      ∀ t ∈ ts, t.kind.Scanned := by
  induction cs, n using tokensFrom_induction with
  | eof cs n _ => exact ⟨[], rfl, nofun⟩
  | @token trivia text k rest n hcut ih =>
    obtain ⟨ts, hts, hscanned⟩ := ih
    have hlen : n + bytes trivia + bytes text + bytes rest =
        n + bytes (trivia ++ (text ++ rest)) := by
      simp [Nat.add_assoc]
    rw [hts, hlen, ← List.cons_append]
    exact ⟨_, rfl, List.forall_mem_cons.mpr ⟨hcut.scanned, hscanned⟩⟩

/-- A token stands between characters. -/
theorem boundary_tokensFrom (cs : List Char) (n : Nat) :
    ∀ t ∈ tokensFrom [] cs n, ∃ front text back, cs = front ++ (text ++ back) ∧
      t.span = ⟨n + bytes front, n + bytes front + bytes text⟩ := by
  induction cs, n using tokensFrom_induction with
  | eof cs n _ =>
    intro t ht
    obtain rfl := List.mem_singleton.mp ht
    exact ⟨cs, [], [], by simp, rfl⟩
  | @token trivia text k rest n hcut ih =>
    intro t ht
    rcases List.mem_cons.mp ht with rfl | ht
    · exact ⟨trivia, text, rest, rfl, rfl⟩
    · obtain ⟨front, own, back, rfl, hspan⟩ := ih t ht
      exact ⟨trivia ++ (text ++ front), own, back, by simp, by simp [hspan, Nat.add_assoc]⟩

/-- A token ends where the next one starts or before. -/
theorem pairwise_tokensFrom (cs : List Char) (n : Nat) :
    (tokensFrom [] cs n).Pairwise fun t u => t.span.stop ≤ u.span.start := by
  induction cs, n using tokensFrom_induction with
  | eof cs n _ => exact List.pairwise_singleton ..
  | @token trivia text k rest n hcut ih =>
    refine List.pairwise_cons.mpr ⟨fun u hu => ?_, ih⟩
    obtain ⟨front, own, back, -, hspan⟩ := boundary_tokensFrom _ _ u hu
    rw [hspan]
    exact Nat.le_add_right ..

/-- A semicolon that is blotted out is no token, and the others stay. -/
theorem exists_blot (cs : List Char) (n : Nat) {us vs : List Token} {t : Token}
    (h : tokensFrom [] cs n = us ++ t :: vs) (ht : t.kind = .semicolon) :
    ∃ front back, cs = front ++ ';' :: back ∧
      t.span = ⟨n + bytes front, n + bytes front + 1⟩ ∧
      tokensFrom [] (front ++ ' ' :: back) n = us ++ vs := by
  induction cs, n using tokensFrom_induction generalizing us with
  | eof cs n _ =>
    cases us with
    | nil =>
      cases h
      cases ht
    | cons u us =>
      obtain ⟨-, h⟩ := List.cons.inj h
      cases us <;> cases h
  | @token trivia text k rest n hcut ih =>
    cases us with
    | nil =>
      -- it is the first token, and what is skipped in front of it stays so
      obtain ⟨rfl, rfl⟩ := List.cons.inj h
      obtain rfl := hcut.semicolon ht
      exact ⟨trivia, rest, rfl, rfl,
        (hcut.skipped.tokensFrom_append n).trans (tokensFrom_blank [] rest _)⟩
    | cons u us =>
      obtain ⟨rfl, hrest⟩ := List.cons.inj h
      obtain ⟨front, back, rfl, hspan, hblot⟩ := ih hrest
      refine ⟨trivia ++ (text ++ front), back, by simp, by simp [hspan, Nat.add_assoc], ?_⟩
      -- the first token is followed by the same character, or by the blank
      have hfollows : Follows (front ++ ';' :: back) (front ++ ' ' :: back) := by
        intro c hc
        cases front with
        | nil => exact .inl (Option.some.inj hc).symm
        | cons d front => exact .inr hc
      have := hcut.follows (by simp) _ hfollows
      rw [hblot] at this
      simpa using this

/-! ## Of a source -/

/-- The end of a source is its last token. -/
theorem exists_tokens (src : String) :
    ∃ ts, tokens src = ts ++ [⟨.eof, ⟨src.utf8ByteSize, src.utf8ByteSize⟩⟩] ∧
      ∀ t ∈ ts, t.kind.Scanned := by
  obtain ⟨ts, hts, hscanned⟩ := exists_tokensFrom src.toList 0
  rw [Nat.zero_add, bytes, String.ofList_toList] at hts
  exact ⟨ts, hts, hscanned⟩

/-- Every token of a source starts and ends on a boundary of characters, and starts no later than it
ends. -/
theorem boundary_tokens {src : String} {t : Token} (ht : t ∈ tokens src) :
    (⟨t.span.start⟩ : String.Pos.Raw).IsValid src ∧ (⟨t.span.stop⟩ : String.Pos.Raw).IsValid src ∧
      t.span.start ≤ t.span.stop := by
  obtain ⟨front, text, back, hsrc, hspan⟩ := boundary_tokensFrom _ _ t ht
  rw [hspan, Nat.zero_add]
  -- as many bytes as there are in some characters at the start lead to a boundary
  have hchars (cs ds : List Char) (h : src.toList = cs ++ ds) :
      (⟨bytes cs⟩ : String.Pos.Raw).IsValid src := by
    refine String.Pos.Raw.isValid_iff_exists_append.mpr
      ⟨String.ofList cs, String.ofList ds, ?_, rfl⟩
    rw [← String.ofList_append, ← h, String.ofList_toList]
  refine ⟨hchars _ _ hsrc, ?_, Nat.le_add_right ..⟩
  rw [← bytes_append]
  exact hchars _ back (by rw [hsrc, List.append_assoc])

/-- Every token of a source ends where the next one starts or before. -/
theorem pairwise_tokens (src : String) :
    (tokens src).Pairwise fun t u => t.span.stop ≤ u.span.start :=
  pairwise_tokensFrom _ _

/-- A semicolon of a source that is replaced with a blank is no token any more, and the others
stay. -/
theorem tokens_blot {src : String} {us vs : List Token} {t : Token}
    (h : tokens src = us ++ t :: vs) (ht : t.kind = .semicolon) :
    ∃ front back, src = front ++ ";" ++ back ∧ t.span.start = front.utf8ByteSize ∧
      t.span.stop = (front ++ ";").utf8ByteSize ∧ tokens (front ++ " " ++ back) = us ++ vs := by
  obtain ⟨front, back, hsrc, hspan, hblot⟩ := exists_blot src.toList 0 h ht
  rw [Nat.zero_add] at hspan
  refine ⟨String.ofList front, String.ofList back, ?_, ?_, ?_, ?_⟩
  · rw [← String.ofList_toList (s := src), hsrc]
    rw [String.ofList_append, String.ofList_cons, String.append_assoc]
    rfl
  · rw [hspan]
    rfl
  · rw [hspan, String.utf8ByteSize_append]
    rfl
  · rw [tokens, ← hblot]
    congr 1
    simp

/-! ## A text -/

/-- The tokens from a place on, with a bound on how many there are to come. -/
def tokensWithin : Nat → List Token → List Char → Nat → List Token
  | 0, done, _, _ => done.reverse
  | bound + 1, done, cs, n =>
    let start := Place.skipTrivia false cs n
    match start.rest with
    | [] => (⟨.eof, ⟨start.offset, start.offset⟩⟩ :: done).reverse
    | c :: rest =>
      let next := scan c rest start.offset
      tokensWithin bound (⟨next.1, ⟨start.offset, next.2.offset⟩⟩ :: done) next.2.rest
        next.2.offset

/-- There are no more tokens than characters, and one for the end. -/
theorem tokensFrom_eq {bound : Nat} {done : List Token} {cs : List Char} {n : Nat}
    (h : cs.length < bound) : tokensFrom done cs n = tokensWithin bound done cs n := by
  induction bound generalizing done cs n with
  | zero => cases h
  | succ bound ih =>
    have hskip := Place.length_skipTrivia_le false cs n
    rw [tokensFrom, tokensWithin]
    dsimp only
    split
    · next hrest => rw [hrest]
    · next c rest hrest =>
      rw [hrest] at hskip ⊢
      have hscan := length_scan_le c rest (Place.skipTrivia false cs n).offset
      rw [List.length_cons] at hskip
      exact ih (by omega)

/-- A text with fewer characters than a bound is read from that many tokens at most. -/
theorem parse_eq_within {src : String} {bound : Nat} (h : src.toList.length < bound) : parse src =
    (Parser.source.run (.ofTokens (tokensWithin bound [] src.toList 0))).map Prod.fst := by
  unfold parse tokens
  rw [tokensFrom_eq h]

end ClosureEnv.Syntax
