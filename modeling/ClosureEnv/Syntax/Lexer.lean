import ClosureEnv.Syntax.Token
import ClosureEnv.Text.Lines

/-!
# The tokens of a source

A source is cut into tokens from left to right, blanks and comments skipped between them, each
token as long as its kind allows. `tokens` ends in the one token `eof`.
-/

namespace ClosureEnv.Syntax

/-- A place in a source: the characters that follow it, and its byte offset. -/
structure Place where
  /-- The characters from here on. -/
  rest : List Char
  /-- The offset of the first of them. -/
  offset : Nat

namespace Place

/-- Past the blanks and the comments; `inComment` tells that a comment has begun. -/
def skipTrivia (inComment : Bool) : List Char → Nat → Place
  | [], n => ⟨[], n⟩
  | c :: cs, n =>
    if inComment then skipTrivia (c != '\n') cs (n + c.utf8Size)
    else if Text.isBlank c then skipTrivia false cs (n + c.utf8Size)
    else if c == '/' && cs.head? == some '/' then skipTrivia true cs (n + c.utf8Size)
    else ⟨c :: cs, n⟩

/-- The characters at the front that satisfy `p`, after those in `done` (last first), and the
place after them. -/
def takeWhile (p : Char → Bool) (done : List Char) : List Char → Nat → String × Place
  | [], n => (String.ofList done.reverse, ⟨[], n⟩)
  | c :: cs, n =>
    if p c then takeWhile p (c :: done) cs (n + c.utf8Size)
    else (String.ofList done.reverse, ⟨c :: cs, n⟩)

/-- The text after an opening quote, and the place after it. A backslash makes `n` a line feed
and `t` a tab, and leaves every other character as it is. -/
def takeText (done : List Char) : List Char → Nat → TokenKind × Place
  | [], n => (.error .unterminatedText, ⟨[], n⟩)
  | ['\\'], n => (.error .unterminatedText, ⟨[], n + 1⟩)
  | '"' :: cs, n => (.str (String.ofList done.reverse), ⟨cs, n + 1⟩)
  | '\\' :: c :: cs, n =>
    let x := if c == 'n' then '\n' else if c == 't' then '\t' else c
    takeText (x :: done) cs (n + 1 + c.utf8Size)
  | c :: cs, n => takeText (c :: done) cs (n + c.utf8Size)

end Place

/-- Whether a character may start a word. -/
def isWordStart (c : Char) : Bool :=
  c.isAlpha || c == '_'

/-- Whether a character may continue a word. -/
def isWordChar (c : Char) : Bool :=
  c.isAlphanum || c == '_'

/-- The largest value of an integer literal. -/
def maxLiteral : Nat :=
  0x7FFFFFFFFFFFFFFF

/-- The number that decimal digits write. -/
def decimalValue (digits : String) : Nat :=
  digits.foldl (fun n c => n * 10 + (c.toNat - '0'.toNat)) 0

/-- The integer literal of some digits. -/
def intLiteral (digits : String) : TokenKind :=
  let n := decimalValue digits
  if n ≤ maxLiteral then .int n else .error (.intRange digits)

/-- The token that starts with `c` at offset `n`, where `cs` follows, and the place after it. -/
def scan (c : Char) (cs : List Char) (n : Nat) : TokenKind × Place :=
  let after : Place := ⟨cs, n + c.utf8Size⟩
  match cs with
  | d :: ds =>
    match TokenKind.ofPair? c d with
    | some kind => (kind, ⟨ds, n + c.utf8Size + d.utf8Size⟩)
    | none => scanOne after
  | [] => scanOne after
where
  /-- The token that starts with `c` when no token of two characters does. -/
  scanOne (after : Place) : TokenKind × Place :=
    match TokenKind.ofChar? c with
    | some kind => (kind, after)
    | none =>
      if c == '"' then Place.takeText [] after.rest after.offset
      else if c.isDigit then
        let word := Place.takeWhile Char.isDigit [c] after.rest after.offset
        (intLiteral word.1, word.2)
      else if isWordStart c then
        let word := Place.takeWhile isWordChar [c] after.rest after.offset
        (TokenKind.ofWord word.1, word.2)
      else (.error (.unexpectedChar c), after)

/-- Skipping blanks and comments leaves no more than there was. -/
theorem Place.length_skipTrivia_le (b : Bool) (cs : List Char) (n : Nat) :
    (Place.skipTrivia b cs n).rest.length ≤ cs.length := by
  induction cs generalizing b n with
  | nil => simp [Place.skipTrivia]
  | cons c cs ih =>
    simp only [Place.skipTrivia, List.length_cons]
    split
    · exact Nat.le_succ_of_le (ih ..)
    split
    · exact Nat.le_succ_of_le (ih ..)
    split
    · exact Nat.le_succ_of_le (ih ..)
    · simp

/-- Taking characters leaves no more than there was. -/
theorem Place.length_takeWhile_le (p : Char → Bool) (done cs : List Char) (n : Nat) :
    (Place.takeWhile p done cs n).2.rest.length ≤ cs.length := by
  induction cs generalizing done n with
  | nil => simp [Place.takeWhile]
  | cons c cs ih =>
    simp only [Place.takeWhile]
    split
    · exact Nat.le_succ_of_le (ih ..)
    · simp

/-- Reading a text leaves no more than there was. -/
theorem Place.length_takeText_le (done cs : List Char) (n : Nat) :
    (Place.takeText done cs n).2.rest.length ≤ cs.length := by
  fun_induction Place.takeText done cs n <;> simp_all <;> omega

/-- A token leaves no more than follows its first character. -/
theorem length_scan_le (c : Char) (cs : List Char) (n : Nat) :
    (scan c cs n).2.rest.length ≤ cs.length := by
  have one (after : Place) : (scan.scanOne c after).2.rest.length ≤ after.rest.length := by
    unfold scan.scanOne
    repeat' split
    · simp
    · exact Place.length_takeText_le ..
    · exact Place.length_takeWhile_le ..
    · exact Place.length_takeWhile_le ..
    · simp
  unfold scan
  split
  · split
    · simp
    · exact one _
  · exact one _

/-- The tokens from a place on, after those in `done` (last first). -/
def tokensFrom (done : List Token) (cs : List Char) (n : Nat) : List Token :=
  let start := Place.skipTrivia false cs n
  match _h : start.rest with
  | [] => (⟨.eof, ⟨start.offset, start.offset⟩⟩ :: done).reverse
  | c :: rest =>
    let next := scan c rest start.offset
    tokensFrom (⟨next.1, ⟨start.offset, next.2.offset⟩⟩ :: done) next.2.rest next.2.offset
termination_by cs.length
decreasing_by
  have h₁ := Place.length_skipTrivia_le false cs n
  have h₂ := length_scan_le c rest (Place.skipTrivia false cs n).offset
  have h₃ : (Place.skipTrivia false cs n).rest.length = rest.length + 1 := by
    rw [show (Place.skipTrivia false cs n).rest = c :: rest from _h]; rfl
  omega

/-- The tokens of a source. -/
def tokens (source : String) : List Token :=
  tokensFrom [] source.toList 0

end ClosureEnv.Syntax
