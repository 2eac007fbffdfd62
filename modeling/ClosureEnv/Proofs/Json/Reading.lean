import ClosureEnv.Json.Reader
import ClosureEnv.Json.Writer
import ClosureEnv.Proofs.Text.Digits

/-!
# Reading what was written

The document of a value is read back as that value (`read_pretty`), as long as it is one that can be
written: no half of a character, and no number with a fraction or an exponent. Reading goes along
the text: `readText_quoted`, `readNumber_written` and `readValue_indented` say what is read at the
front of a text that goes on.
-/

namespace ClosureEnv.Json

/-! ## Texts -/

/-- The characters of a text between quotes. -/
theorem toList_quote (s : String) :
    (quote s).toList = '"' :: (s.toList.flatMap fun c => (escapedChar c).toList) ++ ['"'] := by
  have hfold (cs : List Char) (out : String) :
      (cs.foldl (fun out c => out ++ escapedChar c) out).toList =
        out.toList ++ cs.flatMap fun c => (escapedChar c).toList := by
    induction cs generalizing out with
    | nil => simp
    | cons c cs ih => rw [List.foldl_cons, ih, String.toList_append]; simp
  rw [quote, String.toList_append, String.toList_append, String.foldl_eq_foldl_toList, hfold]
  rfl

/-- A number in an escape has hexadecimal digits. -/
theorem readText_malformed {done : Option (List Char)} {a b c d : Char} {cs : List Char}
    (h : hex4? a b c d = none) : readText done ('\\' :: 'u' :: a :: b :: c :: d :: cs) = none := by
  rw [readText.eq_def]
  split <;> grind

/-- An escape that names a whole character stands for it, also in front of another escape. -/
theorem readText_unicode {done : Option (List Char)} {a b c d : Char} {n : Nat} {cs : List Char}
    {r : Option String × List Char} (hn : hex4? a b c d = some n) (hlt : n < 0xD800)
    (h : readText (done.map (Char.ofNat n :: ·)) cs = some r) :
    readText done ('\\' :: 'u' :: a :: b :: c :: d :: cs) = some r := by
  by_cases hpair : ∃ e f g k cs', cs = '\\' :: 'u' :: e :: f :: g :: k :: cs'
  · obtain ⟨e, f, g, k, cs', rfl⟩ := hpair
    rw [readText, hn]
    cases hlow : hex4? e f g k with
    | none =>
      rw [readText_malformed hlow] at h
      cases h
    | some low =>
      dsimp only
      rw [if_neg (by omega), if_neg (by omega)]
      exact h
  · rw [readText, hn]
    · dsimp only
      rw [if_neg (by omega)]
      exact h
    · rintro e f g k cs' rfl
      exact hpair ⟨e, f, g, k, cs', rfl⟩

/-- The escape of a control has its number in two digits, after two zeros. -/
theorem toList_control : ∀ n < 0x20,
    ((if n < 0x10 then "\\u000" else "\\u00") ++ Text.hex n).toList =
      ['\\', 'u', '0', '0', Nat.digitChar (n / 16), Nat.digitChar (n % 16)] ∧
      hex4? '0' '0' (Nat.digitChar (n / 16)) (Nat.digitChar (n % 16)) = some n := by
  decide

/-- A written character is read as that character. -/
theorem readText_escapedChar (c : Char) {done cs : List Char} {r : Option String × List Char}
    (h : readText (some (c :: done)) cs = some r) :
    readText (some done) ((escapedChar c).toList ++ cs) = some r := by
  unfold escapedChar
  split
  case h_8 hquote hslash _ _ _ _ _ =>
    split
    · next hlt =>
      obtain ⟨htext, hhex⟩ := toList_control _ hlt
      rw [htext]
      refine readText_unicode hhex (by omega) ?_
      rw [Char.ofNat_toNat]
      exact h
    · next hge =>
      have hchar : c.toString.toList = [c] := String.toList_singleton c
      rw [hchar, List.singleton_append, readText, if_neg hge]
      · exact h
      · exact hquote
      all_goals
        intros
        exact hslash ‹_›
  all_goals exact h

/-- A written text is read as that text. -/
theorem readText_quoted (s : String) (rest : List Char) :
    ∃ cs, (quote s).toList ++ rest = '"' :: cs ∧
      readText (some []) cs = some (some s, rest) := by
  have hread (cs done : List Char) :
      readText (some done) (cs.flatMap (fun c => (escapedChar c).toList) ++ '"' :: rest) =
        some (some (String.ofList (done.reverse ++ cs)), rest) := by
    induction cs generalizing done with
    | nil => simp [readText]
    | cons c cs ih =>
      rw [List.flatMap_cons, List.append_assoc]
      refine readText_escapedChar c ?_
      rw [ih]
      simp
  refine ⟨s.toList.flatMap (fun c => (escapedChar c).toList) ++ '"' :: rest, ?_, ?_⟩
  · rw [toList_quote]
    simp
  · rw [hread, List.reverse_nil, List.nil_append, String.ofList_toList]

/-! ## Numbers -/

/-- What follows a number does not go on with it. -/
def EndsNumber (rest : List Char) : Prop :=
  ∀ c, rest.head? = some c → c.isDigit = false ∧ c ≠ '.' ∧ c ≠ 'e' ∧ c ≠ 'E'

/-- Digits are read up to what is none. -/
theorem readDigits_append {ds rest : List Char} (hd : ∀ c ∈ ds, c.isDigit = true)
    (hrest : ∀ c, rest.head? = some c → c.isDigit = false) (done : List Char) :
    readDigits done (ds ++ rest) = (done.reverse ++ ds, rest) := by
  induction ds generalizing done with
  | nil =>
    cases rest with
    | nil => simp [readDigits]
    | cons c rest => simp [readDigits, hrest c rfl]
  | cons d ds ih =>
    rw [List.cons_append, readDigits, if_pos (hd d List.mem_cons_self),
      ih (fun c hc => hd c (List.mem_cons_of_mem _ hc))]
    simp

/-- A whole number is read up to where it ends. -/
theorem readNumber_written (negative : Bool) (n : Nat) {rest : List Char} (hrest : EndsNumber rest) :
    readNumber negative ((toString n).toList ++ rest) = some (number ⟨negative, n, ""⟩, rest) := by
  -- A zero at the front is followed by other digits in no number that is written.
  have hzero : ((toString n).toList.head? == some '0' && (toString n).toList.length != 1) = false := by
    by_cases hn : n = 0
    · subst hn
      rfl
    · rw [beq_eq_false_iff_ne.mpr (Text.head_toString_ne hn), Bool.false_and]
  have hfraction : readFraction rest = some ([], rest) := by
    cases rest with
    | nil => rfl
    | cons c cs =>
      unfold readFraction
      split
      · next heq =>
        cases heq
        exact absurd rfl (hrest _ rfl).2.1
      · rfl
  have hexponent : readExponent rest = some ([], rest) := by
    cases rest with
    | nil => rfl
    | cons c cs =>
      obtain ⟨-, -, he, hE⟩ := hrest c rfl
      simp [readExponent, he, hE]
  have hempty : (toString n).toList.isEmpty = false := by
    rw [List.isEmpty_eq_false_iff]
    exact Text.toString_ne_nil n
  have hdigits : readDigits [] ((toString n).toList ++ rest) = ((toString n).toList, rest) :=
    readDigits_append (fun _ => Text.isDigit_of_mem_toString) (fun c hc => (hrest c hc).1) []
  unfold readNumber
  rw [hdigits]
  dsimp only
  rw [hempty, hzero, hfraction]
  dsimp only [Option.bind_eq_bind, Option.bind_some]
  rw [hexponent]
  dsimp only [Option.bind_eq_bind, Option.bind_some]
  rw [digitsValue, Text.foldl_toString]
  rfl

/-! ## Values -/

mutual

/-- A value that a document can show: numbers are whole, and no text holds half of a character. -/
def IsWritable : Json → Prop
  | number n => n.rest = ""
  | unpaired => False
  | list items => AreWritable items
  | object fields => HaveWritable fields
  | null | bool _ | text _ => True

/-- All items can be shown. -/
def AreWritable : List Json → Prop
  | [] => True
  | x :: xs => IsWritable x ∧ AreWritable xs

/-- The values of all fields can be shown. -/
def HaveWritable : List (String × Json) → Prop
  | [] => True
  | (_, x) :: xs => IsWritable x ∧ HaveWritable xs

end

/-- What does not start with a blank. -/
def StartsAt (c : Char) (cs : List Char) : Prop :=
  cs.head? = some c ∧ (c == ' ' || c == '\n' || c == '\t' || c == '\r') = false

/-- There are no blanks to skip. -/
theorem StartsAt.skipBlanks_eq {c : Char} {cs : List Char} (h : StartsAt c cs) :
    skipBlanks cs = cs := by
  obtain ⟨hhead, hblank⟩ := h
  cases cs with
  | nil => rfl
  | cons d ds =>
    obtain rfl := Option.some.inj hhead
    rw [skipBlanks, hblank, if_neg Bool.false_ne_true]

/-- What starts with something starts with it whatever follows. -/
theorem StartsAt.append {c : Char} {cs : List Char} (h : StartsAt c cs) (ds : List Char) :
    StartsAt c (cs ++ ds) := by
  refine ⟨?_, h.2⟩
  rw [List.head?_append, h.1]
  rfl

/-- Margins are blank. -/
theorem skipBlanks_margin (level : Nat) (cs : List Char) :
    skipBlanks ((margin level).toList ++ cs) = skipBlanks cs := by
  rw [margin, String.toList_ofList]
  induction 2 * level with
  | zero => rfl
  | succ n ih =>
    rw [List.replicate_succ, List.cons_append, skipBlanks]
    exact ih

/-- Blanks in front of a value are skipped. -/
theorem readValue_of_skipBlanks (fuel : Nat) {cs ds : List Char} (h : skipBlanks cs = skipBlanks ds) :
    readValue fuel cs = readValue fuel ds := by
  cases fuel with
  | zero => rw [readValue, readValue]
  | succ fuel => rw [readValue, readValue, h]

/-- No digit is one of the other characters that tell how to read on. -/
theorem ne_of_isDigit {c d : Char} (h : c.isDigit = true) (hd : d.isDigit = false) : c ≠ d := by
  rintro rfl
  rw [h] at hd
  cases hd

/-- How a number starts. -/
theorem exists_startsAt_toString (n : Nat) :
    ∃ c, StartsAt c (toString n).toList ∧ c.isDigit = true := by
  cases hn : (toString n).toList with
  | nil => exact absurd hn (Text.toString_ne_nil n)
  | cons c cs =>
    have hc : c.isDigit = true := Text.isDigit_of_mem_toString (hn ▸ List.mem_cons_self)
    refine ⟨c, ⟨rfl, ?_⟩, hc⟩
    simp [ne_of_isDigit hc (show ' '.isDigit = false from rfl),
      ne_of_isDigit hc (show '\n'.isDigit = false from rfl),
      ne_of_isDigit hc (show '\t'.isDigit = false from rfl),
      ne_of_isDigit hc (show '\r'.isDigit = false from rfl)]

/-- A whole number as it is written. -/
theorem toList_numberText {n : Number} (hn : n.rest = "") : (numberText n).toList =
    (if n.negative then ['-'] else []) ++ (toString n.whole).toList := by
  unfold numberText
  rw [hn, String.append_empty, String.toList_append]
  split <;> rfl

/-- How a value starts: not as the end of an array. -/
theorem exists_startsAt (v : Json) (hv : v.IsWritable) (level : Nat) :
    ∃ c, StartsAt c (indented level v).toList ∧ c ≠ ']' := by
  cases v with
  | null =>
    rw [indented]
    exact ⟨'n', ⟨rfl, rfl⟩, by decide⟩
  | bool b =>
    rw [indented]
    cases b
    · exact ⟨'f', ⟨rfl, rfl⟩, by decide⟩
    · exact ⟨'t', ⟨rfl, rfl⟩, by decide⟩
  | number n =>
    rw [indented, toList_numberText hv]
    split
    · exact ⟨'-', ⟨rfl, rfl⟩, by decide⟩
    · obtain ⟨c, hc, hdigit⟩ := exists_startsAt_toString n.whole
      exact ⟨c, hc, ne_of_isDigit hdigit rfl⟩
  | text s =>
    rw [indented, toList_quote]
    exact ⟨'"', ⟨rfl, rfl⟩, by decide⟩
  | unpaired => exact hv.elim
  | list items =>
    refine ⟨'[', ⟨?_, rfl⟩, by decide⟩
    cases items <;> simp [indented]
  | object fields =>
    refine ⟨'\x7b', ⟨?_, rfl⟩, by decide⟩
    cases fields <;> simp [indented]

/-- The lines of some items. -/
def itemLines (level : Nat) (items : List Json) : List Char :=
  (",\n".intercalate (indentedItems level items)).toList

/-- The lines of some fields. -/
def fieldLines (level : Nat) (fields : List (String × Json)) : List Char :=
  (",\n".intercalate (indentedFields level fields)).toList

/-- How an array or an object is closed. -/
def closing (level : Nat) (c : Char) (rest : List Char) : List Char :=
  '\n' :: (margin level).toList ++ c :: rest

/-- The blanks in front of a closing bracket are skipped. -/
theorem skipBlanks_closing {level : Nat} {c : Char} {rest : List Char}
    (hc : StartsAt c (c :: rest)) : skipBlanks (closing level c rest) = c :: rest := by
  rw [closing, List.cons_append, skipBlanks]
  exact (skipBlanks_margin level _).trans hc.skipBlanks_eq

/-- The lines of one item. -/
theorem itemLines_singleton (level : Nat) (x : Json) :
    itemLines level [x] = (margin level).toList ++ (indented level x).toList := by
  simp [itemLines, indentedItems]

/-- The lines of an item and others. -/
theorem itemLines_cons_cons (level : Nat) (x y : Json) (ys : List Json) :
    itemLines level (x :: y :: ys) = (margin level).toList ++ (indented level x).toList ++
      ',' :: '\n' :: itemLines level (y :: ys) := by
  simp [itemLines, indentedItems, String.intercalate_cons_cons]

/-- The lines of one field. -/
theorem fieldLines_singleton (level : Nat) (key : String) (x : Json) :
    fieldLines level [(key, x)] = (margin level).toList ++ (quote key).toList ++
      ':' :: ' ' :: (indented level x).toList := by
  simp [fieldLines, indentedFields]

/-- The lines of a field and others. -/
theorem fieldLines_cons_cons (level : Nat) (key : String) (x : Json) (f : String × Json)
    (fs : List (String × Json)) : fieldLines level ((key, x) :: f :: fs) =
      (margin level).toList ++ (quote key).toList ++ ':' :: ' ' :: (indented level x).toList ++
        ',' :: '\n' :: fieldLines level (f :: fs) := by
  obtain ⟨k, y⟩ := f
  simp [fieldLines, indentedFields, String.intercalate_cons_cons]

/-- An array with items: the opening bracket, the lines, and the closing bracket. -/
theorem indented_list (level : Nat) (x : Json) (xs : List Json) (rest : List Char) :
    (indented level (list (x :: xs))).toList ++ rest =
      '[' :: '\n' :: itemLines (level + 1) (x :: xs) ++ closing level ']' rest := by
  simp [indented, itemLines, closing]

/-- An object with fields: the opening brace, the lines, and the closing brace. -/
theorem indented_object (level : Nat) (f : String × Json) (fs : List (String × Json))
    (rest : List Char) : (indented level (object (f :: fs))).toList ++ rest =
      '\x7b' :: '\n' :: fieldLines (level + 1) (f :: fs) ++ closing level '\x7d' rest := by
  simp [indented, fieldLines, closing]

/-- A closing bracket on a line of its own ends a number. -/
theorem endsNumber_closing (level : Nat) (c : Char) (rest : List Char) :
    EndsNumber (closing level c rest) := by
  intro d hd
  obtain rfl : '\n' = d := by simpa [closing] using hd
  decide

/-- A comma ends a number. -/
theorem endsNumber_comma (rest : List Char) : EndsNumber (',' :: rest) := by
  intro d hd
  obtain rfl : ',' = d := by simpa using hd
  decide

/-- Blanks in front of an item are skipped. -/
theorem readItems_of_skipBlanks (fuel : Nat) (done : List Json) {cs ds : List Char}
    (h : skipBlanks cs = skipBlanks ds) : readItems fuel done cs = readItems fuel done ds := by
  cases fuel with
  | zero => rw [readItems, readItems]
  | succ fuel => rw [readItems, readItems, readValue_of_skipBlanks fuel h]

/-- Blanks in front of a field are skipped. -/
theorem readFields_of_skipBlanks (fuel : Nat) (done : Option (List (String × Json)))
    {cs ds : List Char} (h : skipBlanks cs = skipBlanks ds) :
    readFields fuel done cs = readFields fuel done ds := by
  cases fuel with
  | zero => rw [readFields, readFields]
  | succ fuel => rw [readFields, readFields, h]

/-- A written number is read as that number. -/
theorem readValue_numberText {n : Number} (hn : n.rest = "") {rest : List Char}
    (hrest : EndsNumber rest) (fuel : Nat) :
    readValue (fuel + 1) ((numberText n).toList ++ rest) = some (number n, rest) := by
  obtain ⟨negative, whole, after⟩ := n
  obtain rfl : after = "" := hn
  have hread := readNumber_written negative whole hrest
  rw [toList_numberText rfl]
  cases negative with
  | true =>
    rw [if_pos rfl, List.append_assoc, List.singleton_append, readValue]
    simpa [skipBlanks] using hread
  | false =>
    obtain ⟨c, hc, hdigit⟩ := exists_startsAt_toString whole
    have hblanks := (hc.append rest).skipBlanks_eq
    rw [if_neg Bool.false_ne_true, List.nil_append, readValue, hblanks]
    cases htext : (toString whole).toList with
    | nil => exact absurd htext (Text.toString_ne_nil whole)
    | cons d ds =>
      rw [htext] at hread hc
      -- The first character is a digit, so it starts no other kind of value.
      obtain rfl : d = c := Option.some.inj hc.1
      split
      case h_1 heq => cases heq
      case h_9 => exact hread
      all_goals
        next heq =>
          obtain ⟨rfl, -⟩ := List.cons.inj heq
          exact absurd hdigit Bool.false_ne_true

/-- A newline is blank. -/
theorem skipBlanks_newline (cs : List Char) : skipBlanks ('\n' :: cs) = skipBlanks cs := rfl

/-- A space is blank. -/
theorem skipBlanks_space (cs : List Char) : skipBlanks (' ' :: cs) = skipBlanks cs := rfl

/-- An array that is not empty is read as its items. -/
theorem readValue_list (fuel : Nat) {c : Char} {cs : List Char} (hc : StartsAt c (skipBlanks cs))
    (hne : c ≠ ']') : readValue (fuel + 1) ('[' :: cs) =
      (readItems fuel [] cs).map fun (items, rest) => (list items, rest) := by
  have hskip : readItems fuel [] (skipBlanks cs) = readItems fuel [] cs :=
    readItems_of_skipBlanks fuel [] hc.skipBlanks_eq
  cases hcs : skipBlanks cs with
  | nil => simp [hcs, StartsAt] at hc
  | cons d ds =>
    have hd : d ≠ ']' := by
      rw [hcs] at hc
      obtain rfl : d = c := Option.some.inj hc.1
      exact hne
    simp [readValue, skipBlanks, hcs, hd, ← hskip]

/-- An object that is not empty is read as its fields. -/
theorem readValue_object (fuel : Nat) {cs : List Char} (hc : StartsAt '"' (skipBlanks cs)) :
    readValue (fuel + 1) ('\x7b' :: cs) =
      (readFields fuel (some []) cs).map fun (fields, rest) =>
        ((fields.map object).getD unpaired, rest) := by
  have hskip : readFields fuel (some []) (skipBlanks cs) = readFields fuel (some []) cs :=
    readFields_of_skipBlanks fuel (some []) hc.skipBlanks_eq
  cases hcs : skipBlanks cs with
  | nil => simp [hcs, StartsAt] at hc
  | cons d ds =>
    have hd : d ≠ '\x7d' := by
      rw [hcs] at hc
      obtain rfl : d = '"' := Option.some.inj hc.1
      decide
    simp [readValue, skipBlanks, hcs, hd, ← hskip]

section

variable {fuel : Nat} {v : Json} {cs rest after : List Char}

/-- Items are read past a comma. -/
theorem readItems_comma {done : List Json} (hv : readValue fuel cs = some (v, rest))
    (hrest : skipBlanks rest = ',' :: after) :
    readItems (fuel + 1) done cs = readItems fuel (v :: done) after := by
  simp [readItems, hv, hrest]

/-- Items are read up to the closing bracket. -/
theorem readItems_last {done : List Json} (hv : readValue fuel cs = some (v, rest))
    (hrest : skipBlanks rest = ']' :: after) :
    readItems (fuel + 1) done cs = some (done.reverse ++ [v], after) := by
  simp [readItems, hv, hrest]

variable {done : List (String × Json)} (key : String)

/-- Fields are read past a comma. -/
theorem readFields_comma (hv : readValue fuel cs = some (v, rest))
    (hrest : skipBlanks rest = ',' :: after) :
    readFields (fuel + 1) (some done) ((quote key).toList ++ ':' :: cs) =
      readFields fuel (some ((key, v) :: done)) after := by
  obtain ⟨ds, htext, hread⟩ := readText_quoted key (':' :: cs)
  rw [htext]
  simp [readFields, skipBlanks, hread, hv, hrest]

/-- Fields are read up to the closing brace. -/
theorem readFields_last (hv : readValue fuel cs = some (v, rest))
    (hrest : skipBlanks rest = '\x7d' :: after) :
    readFields (fuel + 1) (some done) ((quote key).toList ++ ':' :: cs) =
      some (some (done.reverse ++ [(key, v)]), after) := by
  obtain ⟨ds, htext, hread⟩ := readText_quoted key (':' :: cs)
  rw [htext]
  simp [readFields, skipBlanks, hread, hv, hrest]

end

/-- How the lines of some items start. -/
theorem exists_startsAt_itemLines (level : Nat) (x : Json) (xs : List Json) (hx : x.IsWritable) :
    ∃ c, (∀ rest, StartsAt c (skipBlanks ('\n' :: itemLines level (x :: xs) ++ rest))) ∧
      c ≠ ']' := by
  obtain ⟨c, hc, hne⟩ := exists_startsAt x hx level
  refine ⟨c, fun rest => ?_, hne⟩
  rw [List.cons_append, skipBlanks_newline]
  cases xs with
  | nil =>
    rw [itemLines_singleton, List.append_assoc, skipBlanks_margin, (hc.append _).skipBlanks_eq]
    exact hc.append _
  | cons y ys =>
    rw [itemLines_cons_cons, List.append_assoc, List.append_assoc, skipBlanks_margin,
      (hc.append _).skipBlanks_eq]
    exact hc.append _

/-- The lines of some fields start with a quote. -/
theorem startsAt_fieldLines (level : Nat) (key : String) (x : Json) (fs : List (String × Json))
    (rest : List Char) :
    StartsAt '"' (skipBlanks ('\n' :: fieldLines level ((key, x) :: fs) ++ rest)) := by
  have hquote (cs : List Char) : StartsAt '"' ((quote key).toList ++ cs) := by
    rw [toList_quote]
    exact ⟨rfl, rfl⟩
  rw [List.cons_append, skipBlanks_newline]
  cases fs with
  | nil =>
    rw [fieldLines_singleton, List.append_assoc, List.append_assoc, skipBlanks_margin,
      (hquote _).skipBlanks_eq]
    exact hquote _
  | cons f fs =>
    rw [fieldLines_cons_cons, List.append_assoc, List.append_assoc, List.append_assoc,
      skipBlanks_margin, (hquote _).skipBlanks_eq]
    exact hquote _

mutual

/-- A written value is read as that value. -/
theorem readValue_indented : ∀ (v : Json) (_ : v.IsWritable) (level fuel : Nat)
    (rest : List Char), (indented level v).toList.length < fuel → EndsNumber rest →
    readValue fuel ((indented level v).toList ++ rest) = some (v, rest)
  | .null, _, level, fuel + 1, rest, _, _ => by
    simp [indented, readValue, skipBlanks, dropWord]
  | .bool true, _, level, fuel + 1, rest, _, _ => by
    simp [indented, readValue, skipBlanks, dropWord]
  | .bool false, _, level, fuel + 1, rest, _, _ => by
    simp [indented, readValue, skipBlanks, dropWord]
  | .number n, hn, level, fuel + 1, rest, _, hrest => by
    rw [indented]
    exact readValue_numberText hn hrest fuel
  | .text s, _, level, fuel + 1, rest, _, _ => by
    obtain ⟨cs, htext, hread⟩ := readText_quoted s rest
    rw [indented, htext, readValue]
    simp [skipBlanks, hread]
  | .list [], _, level, fuel + 1, rest, _, _ => by
    simp [indented, readValue, skipBlanks]
  | .list (x :: xs), hv, level, fuel + 1, rest, hfuel, _ => by
    -- The two brackets pay for the steps that the items take.
    have hlength : (itemLines (level + 1) (x :: xs)).length + 1 < fuel := by
      have h := congrArg List.length (indented_list level x xs [])
      simp only [List.append_nil, List.cons_append, List.length_cons, List.length_append,
        closing, List.length_nil] at h
      omega
    have hitems := readItems_itemLines x xs hv (level + 1) level [] fuel rest hlength
    obtain ⟨c, hc, hne⟩ := exists_startsAt_itemLines (level + 1) x xs hv.1
    rw [indented_list, List.cons_append, readValue_list fuel (hc _) hne, List.cons_append,
      readItems_of_skipBlanks fuel [] (skipBlanks_newline _), hitems]
    rfl
  | .object [], _, level, fuel + 1, rest, _, _ => by
    simp [indented, readValue, skipBlanks]
  | .object ((key, x) :: fs), hv, level, fuel + 1, rest, hfuel, _ => by
    have hlength : (fieldLines (level + 1) ((key, x) :: fs)).length + 1 < fuel := by
      have h := congrArg List.length (indented_object level (key, x) fs [])
      simp only [List.append_nil, List.cons_append, List.length_cons, List.length_append,
        closing, List.length_nil] at h
      omega
    have hfields := readFields_fieldLines key x fs hv (level + 1) level [] fuel rest hlength
    rw [indented_object, List.cons_append,
      readValue_object fuel (startsAt_fieldLines (level + 1) key x fs _), List.cons_append,
      readFields_of_skipBlanks fuel (some []) (skipBlanks_newline _), hfields]
    rfl
termination_by v => sizeOf v

/-- Written items are read as those items. -/
theorem readItems_itemLines : ∀ (x : Json) (xs : List Json) (_ : AreWritable (x :: xs))
    (level outer : Nat) (done : List Json) (fuel : Nat) (rest : List Char),
    (itemLines level (x :: xs)).length + 1 < fuel →
    readItems fuel done (itemLines level (x :: xs) ++ closing outer ']' rest) =
      some (done.reverse ++ x :: xs, rest)
  | x, [], hx, level, outer, done, fuel + 1, rest, hfuel => by
    rw [itemLines_singleton, List.length_append] at hfuel
    have hread := readValue_indented x hx.1 level fuel _ (by omega)
      (endsNumber_closing outer ']' rest)
    rw [itemLines_singleton, List.append_assoc, readItems_of_skipBlanks _ _ (skipBlanks_margin _ _)]
    exact readItems_last hread (skipBlanks_closing ⟨rfl, rfl⟩)
  | x, y :: ys, hx, level, outer, done, fuel + 1, rest, hfuel => by
    rw [itemLines_cons_cons, List.length_append, List.length_append, List.length_cons,
      List.length_cons] at hfuel
    have hread := readValue_indented x hx.1 level fuel _ (by omega)
      (endsNumber_comma ('\n' :: itemLines level (y :: ys) ++ closing outer ']' rest))
    have hrest := readItems_itemLines y ys hx.2 level outer (x :: done) fuel rest (by omega)
    rw [itemLines_cons_cons, List.append_assoc, List.append_assoc,
      readItems_of_skipBlanks _ _ (skipBlanks_margin _ _), List.cons_append,
      readItems_comma hread rfl, List.cons_append,
      readItems_of_skipBlanks fuel (x :: done) (skipBlanks_newline _), hrest]
    simp
termination_by x xs => sizeOf (x :: xs)

/-- Written fields are read as those fields. -/
theorem readFields_fieldLines : ∀ (key : String) (x : Json) (fs : List (String × Json))
    (_ : HaveWritable ((key, x) :: fs)) (level outer : Nat) (done : List (String × Json))
    (fuel : Nat) (rest : List Char), (fieldLines level ((key, x) :: fs)).length + 1 < fuel →
    readFields fuel (some done) (fieldLines level ((key, x) :: fs) ++ closing outer '\x7d' rest) =
      some (some (done.reverse ++ (key, x) :: fs), rest)
  | key, x, [], hx, level, outer, done, fuel + 1, rest, hfuel => by
    rw [fieldLines_singleton, List.length_append, List.length_append, List.length_cons,
      List.length_cons] at hfuel
    have hread := readValue_indented x hx.1 level fuel _ (by omega)
      (endsNumber_closing outer '\x7d' rest)
    rw [← readValue_of_skipBlanks fuel (skipBlanks_space _)] at hread
    rw [fieldLines_singleton, List.append_assoc, List.append_assoc,
      readFields_of_skipBlanks _ _ (skipBlanks_margin _ _)]
    exact readFields_last key hread (skipBlanks_closing ⟨rfl, rfl⟩)
  | key, x, (k, y) :: ys, hx, level, outer, done, fuel + 1, rest, hfuel => by
    rw [fieldLines_cons_cons, List.length_append, List.length_append, List.length_append,
      List.length_cons, List.length_cons, List.length_cons, List.length_cons] at hfuel
    have hread := readValue_indented x hx.1 level fuel _ (by omega)
      (endsNumber_comma ('\n' :: fieldLines level ((k, y) :: ys) ++ closing outer '\x7d' rest))
    rw [← readValue_of_skipBlanks fuel (skipBlanks_space _)] at hread
    have hrest := readFields_fieldLines k y ys hx.2 level outer ((key, x) :: done) fuel rest
      (by omega)
    rw [fieldLines_cons_cons, List.append_assoc, List.append_assoc, List.append_assoc,
      readFields_of_skipBlanks _ _ (skipBlanks_margin _ _)]
    simp only [List.cons_append] at hread ⊢
    rw [readFields_comma key hread rfl, readFields_of_skipBlanks fuel _ (skipBlanks_newline _),
      hrest]
    simp
termination_by key x fs => sizeOf ((key, x) :: fs)

end

/-- A written document is read as the value it shows. -/
theorem read_pretty {v : Json} (hv : v.IsWritable) : read v.pretty = some v := by
  have hread := readValue_indented v hv 0 _ [] (Nat.lt_succ_self _) (by simp [EndsNumber])
  rw [List.append_nil] at hread
  simp [read, pretty, hread, skipBlanks]

end ClosureEnv.Json
