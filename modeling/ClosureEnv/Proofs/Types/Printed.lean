import ClosureEnv.Proofs.Syntax.Writing
import ClosureEnv.Proofs.Text.Digits
import ClosureEnv.Ty

/-!
# Printed types

The printed form of a type tells what the source says, but not whether a name is that of a type
parameter, nor whether `_` stands for nothing or is a name. That is left out of `plain`, and the
rest can be read off what is printed, whatever follows it (`describe_append_inj`). The types are
those that a source can state or show: their names are words, and no type that the language knows
has such a name.
-/

namespace ClosureEnv.Ty

open Syntax (isWordStart isWordChar isName isWordChar_of_isName)

/-- The type that a word stands for where there are no type parameters. -/
def ofWord (word : String) : Ty :=
  ofTypeExpr [] (.path ⟨word, default⟩)

/-- A word that stands for no type that the language knows. -/
structure Free (word : String) : Prop where
  name : isName word = true
  ofWord : ofWord word = named word

mutual

/-- A type that a source can state or show. -/
def Worded : Ty → Prop
  | int | bool | str | unit | unknown => True
  | param name | named name => Free name
  | fn params ret => AllWorded params ∧ Worded ret
  | env _ | object => False

/-- Types that a source can state or show. -/
def AllWorded : List Ty → Prop
  | [] => True
  | t :: ts => Worded t ∧ AllWorded ts

end

mutual

/-- A type without what its printed form leaves out. -/
def plain : Ty → Ty
  | param name => named name
  | unknown => named "_"
  | fn params ret => fn (plains params) (plain ret)
  | int => int
  | bool => bool
  | str => str
  | unit => unit
  | named name => named name
  | env name => env name
  | object => object

/-- Types without what their printed forms leave out. -/
def plains : List Ty → List Ty
  | [] => []
  | t :: ts => plain t :: plains ts

end

/-- Some types can be stated or shown if each can be. -/
theorem allWorded_iff {ts : List Ty} : AllWorded ts ↔ ∀ t ∈ ts, t.Worded := by
  induction ts with
  | nil => simp [AllWorded]
  | cons t ts ih => simp [AllWorded, ih]

/-! ## Words -/

/-- A type of functions, or one that is printed as a word and told by it. -/
theorem Worded.cases {t : Ty} (h : t.Worded) :
    (∃ params ret, t = fn params ret) ∨ isName t.describe = true ∧ t.plain = ofWord t.describe := by
  cases t with
  | int | bool | str | unit | unknown => exact .inr ⟨by decide, rfl⟩
  | param name | named name => exact .inr ⟨h.name, h.ofWord.symm⟩
  | fn params ret => exact .inl ⟨params, ret, rfl⟩
  | env _ | object => cases h

/-- A word ends in front of some characters. -/
def EndsWord (rest : List Char) : Prop :=
  ∀ c, rest.head? = some c → isWordChar c = false

/-- The characters of a type of functions. -/
theorem toList_describe_fn (params : List Ty) (ret : Ty) : (describe (fn params ret)).toList =
    "fn".toList ++ ('(' :: ((", ".intercalate (describes params)).toList ++
      ')' :: (" -> ".toList ++ ret.describe.toList))) := by
  simp [describe, String.toList_append]

/-- What is printed of a type does not start with the end of a list. -/
theorem Worded.ne_rParen {t : Ty} (h : t.Worded) (cs ds : List Char) :
    t.describe.toList ++ cs ≠ ')' :: ds := by
  intro heq
  rcases h.cases with ⟨params, ret, rfl⟩ | ⟨hname, -⟩
  · rw [toList_describe_fn] at heq
    cases heq
  · obtain ⟨hne, hchars⟩ := isWordChar_of_isName hname
    obtain ⟨e, es, htext⟩ := List.exists_cons_of_ne_nil hne
    rw [htext] at heq hchars
    cases heq
    exact absurd (hchars ')' List.mem_cons_self) (by decide)

/-- A type that is printed as a word is told by it, whatever follows. -/
theorem Worded.word_append_inj {a b : Ty} (ha : a.Worded) (hword : ∀ params ret, a ≠ fn params ret)
    (hb : b.Worded) {r s : List Char} (hr : EndsWord r) (hs : EndsWord s)
    (h : a.describe.toList ++ r = b.describe.toList ++ s) : a.plain = b.plain ∧ r = s := by
  obtain ⟨params, ret, rfl⟩ | ⟨hname, hplain⟩ := ha.cases
  · exact absurd rfl (hword params ret)
  rcases hb.cases with ⟨params, ret, rfl⟩ | ⟨hname', hplain'⟩
  · -- the word would be the keyword in front of the parameters
    rw [toList_describe_fn, List.append_assoc] at h
    obtain ⟨hfn, -⟩ := Text.run_append_inj (isWordChar_of_isName hname).2
      (List.all_eq_true.mp (by decide)) hr
      (by rintro c ⟨⟩; decide) h
    rw [String.toList_inj.mp hfn] at hname
    exact absurd hname (by decide)
  · obtain ⟨heq, hrest⟩ := Text.run_append_inj (isWordChar_of_isName hname).2
      (isWordChar_of_isName hname').2 hr hs h
    exact ⟨by rw [hplain, hplain', String.toList_inj.mp heq], hrest⟩

/-! ## All types -/

/-- The characters of further parameters, each with a comma in front. -/
def furtherChars (ts : List Ty) : List Char :=
  ts.flatMap fun t => ',' :: ' ' :: t.describe.toList

/-- The characters of some parameters. -/
theorem toList_describes_cons (t : Ty) (ts : List Ty) :
    (", ".intercalate (describes (t :: ts))).toList = t.describe.toList ++ furtherChars ts := by
  have hmap : describes ts = ts.map describe := by
    induction ts with
    | nil => rfl
    | cons t ts ih => rw [describes, ih, List.map_cons]
  rw [describes, Text.toList_intercalate_cons, hmap, List.flatMap_map]
  rfl

/-- A word ends in front of further parameters and the end of the list. -/
theorem endsWord_furtherChars (ts : List Ty) (r : List Char) :
    EndsWord (furtherChars ts ++ ')' :: r) := by
  cases ts <;> rintro c ⟨⟩ <;> decide

mutual

/-- A type is told by what is printed of it, whatever follows. -/
theorem describe_append_inj : ∀ (a : Ty) {b : Ty} {r s : List Char}, a.Worded → b.Worded →
    EndsWord r → EndsWord s → a.describe.toList ++ r = b.describe.toList ++ s →
    a.plain = b.plain ∧ r = s
  | .fn params ret, b, r, s, ha, hb, hr, hs, h => by
    -- where one of the two is printed as a word, the other is the same word
    by_cases hfn : ∃ params' ret', b = fn params' ret'
    · obtain ⟨params', ret', rfl⟩ := hfn
      simp only [toList_describe_fn, List.append_assoc, List.cons_append] at h
      obtain ⟨hparams, hrest⟩ := describes_append_inj params ha.1 hb.1
        (List.cons.inj (List.append_cancel_left h)).2
      obtain ⟨hret, hrest⟩ := describe_append_inj ret ha.2 hb.2 hr hs
        (List.append_cancel_left hrest)
      exact ⟨by rw [plain, plain, hparams, hret], hrest⟩
    · obtain ⟨heq, hrest⟩ := hb.word_append_inj (fun ps q heq => hfn ⟨ps, q, heq⟩) ha hs hr h.symm
      exact ⟨heq.symm, hrest.symm⟩
  | .int, _, _, _, ha, hb, hr, hs, h | .bool, _, _, _, ha, hb, hr, hs, h
  | .str, _, _, _, ha, hb, hr, hs, h | .unit, _, _, _, ha, hb, hr, hs, h
  | .param _, _, _, _, ha, hb, hr, hs, h | .named _, _, _, _, ha, hb, hr, hs, h
  | .env _, _, _, _, ha, hb, hr, hs, h | .object, _, _, _, ha, hb, hr, hs, h
  | .unknown, _, _, _, ha, hb, hr, hs, h => ha.word_append_inj nofun hb hr hs h

/-- Some parameters are told by what is printed of them, up to the end of the list. -/
theorem describes_append_inj : ∀ (as : List Ty) {bs : List Ty} {r s : List Char}, AllWorded as →
    AllWorded bs → (", ".intercalate (describes as)).toList ++ ')' :: r =
      (", ".intercalate (describes bs)).toList ++ ')' :: s → plains as = plains bs ∧ r = s
  | [], [], r, s, _, _, h => ⟨rfl, (List.cons.inj h).2⟩
  | [], b :: bs, r, s, _, hb, h => by
    rw [toList_describes_cons, List.append_assoc] at h
    exact absurd h.symm (hb.1.ne_rParen _ _)
  | a :: as, [], r, s, ha, _, h => by
    rw [toList_describes_cons, List.append_assoc] at h
    exact absurd h (ha.1.ne_rParen _ _)
  | a :: as, b :: bs, r, s, ha, hb, h => by
    rw [toList_describes_cons, toList_describes_cons, List.append_assoc, List.append_assoc] at h
    obtain ⟨hfirst, hrest⟩ := describe_append_inj a ha.1 hb.1 (endsWord_furtherChars as r)
      (endsWord_furtherChars bs s) h
    obtain ⟨hmore, hrest⟩ := further_append_inj as ha.2 hb.2 hrest
    exact ⟨by rw [plains, plains, hfirst, hmore], hrest⟩

/-- So are further parameters. -/
theorem further_append_inj : ∀ (as : List Ty) {bs : List Ty} {r s : List Char}, AllWorded as →
    AllWorded bs → furtherChars as ++ ')' :: r = furtherChars bs ++ ')' :: s →
    plains as = plains bs ∧ r = s
  | [], [], r, s, _, _, h => ⟨rfl, (List.cons.inj h).2⟩
  | [], b :: bs, r, s, _, hb, h => nomatch (List.cons.inj h).1
  | a :: as, [], r, s, ha, _, h => nomatch (List.cons.inj h).1
  | a :: as, b :: bs, r, s, ha, hb, h => by
    simp only [furtherChars, List.flatMap_cons, List.cons_append, List.append_assoc] at h
    obtain ⟨hfirst, hrest⟩ := describe_append_inj a ha.1 hb.1 (endsWord_furtherChars as r)
      (endsWord_furtherChars bs s) (List.cons.inj (List.cons.inj h).2).2
    obtain ⟨hmore, hrest⟩ := further_append_inj as ha.2 hb.2 hrest
    exact ⟨by rw [plains, plains, hfirst, hmore], hrest⟩

end

mutual

/-- What is left out is not printed. -/
theorem describe_plain : ∀ t : Ty, t.plain.describe = t.describe
  | .fn params ret => by rw [plain, describe, describe, describes_plains params, describe_plain ret]
  | .int | .bool | .str | .unit | .param _ | .named _ | .env _ | .object | .unknown => rfl

/-- So it is with some types. -/
theorem describes_plains : ∀ ts : List Ty, describes (plains ts) = describes ts
  | [] => rfl
  | t :: ts => by rw [plains, describes, describes, describe_plain t, describes_plains ts]

end

/-- The printed form tells all of a type but what it leaves out. -/
theorem describe_eq_iff {a b : Ty} (ha : a.Worded) (hb : b.Worded) :
    a.describe = b.describe ↔ a.plain = b.plain := by
  constructor
  · intro h
    exact (describe_append_inj a (r := []) (s := []) ha hb nofun nofun (by rw [h])).1
  · intro h
    rw [← describe_plain a, h, describe_plain b]

/-- The characters of printed types. -/
def isTyChar (c : Char) : Bool :=
  isWordChar c || "(), ->".toList.contains c

/-- Names have no other characters. -/
theorem isTyChar_of_isName {s : String} (h : isName s = true) : ∀ c ∈ s.toList, isTyChar c = true :=
  fun c hc => by rw [isTyChar, (isWordChar_of_isName h).2 c hc, Bool.true_or]

mutual

/-- Printed types have no other characters. -/
theorem Worded.isTyChar : ∀ {t : Ty}, t.Worded → ∀ c ∈ t.describe.toList, isTyChar c = true
  | .fn params ret, h, c, hc => by
    have hfront : ∀ c ∈ "fn".toList, Ty.isTyChar c = true := List.all_eq_true.mp (by decide)
    have harrow : ∀ c ∈ " -> ".toList, Ty.isTyChar c = true := List.all_eq_true.mp (by decide)
    rw [toList_describe_fn] at hc
    simp only [List.mem_append, List.mem_cons] at hc
    rcases hc with hc | rfl | hc | rfl | hc | hc
    · exact hfront c hc
    · decide
    · exact isTyChar_describes h.1 c hc
    · decide
    · exact harrow c hc
    · exact h.2.isTyChar c hc
  | .param _, h, c, hc | .named _, h, c, hc => isTyChar_of_isName h.name c hc
  | .int, _, c, hc | .bool, _, c, hc | .str, _, c, hc | .unit, _, c, hc | .unknown, _, c, hc =>
    isTyChar_of_isName (by decide) c hc

/-- So have some of them. -/
theorem isTyChar_describes : ∀ {ts : List Ty}, AllWorded ts →
    ∀ c ∈ (", ".intercalate (describes ts)).toList, isTyChar c = true
  | [], _, c, hc => nomatch hc
  | t :: ts, h, c, hc => by
    rw [toList_describes_cons] at hc
    exact (List.mem_append.mp hc).elim (h.1.isTyChar c) (isTyChar_further h.2 c)

/-- So have further ones. -/
theorem isTyChar_further : ∀ {ts : List Ty}, AllWorded ts →
    ∀ c ∈ furtherChars ts, isTyChar c = true
  | [], _, c, hc => nomatch hc
  | t :: ts, h, c, hc => by
    simp only [furtherChars, List.flatMap_cons, List.cons_append, List.mem_cons,
      List.mem_append] at hc
    rcases hc with rfl | rfl | hc | hc
    · decide
    · decide
    · exact h.1.isTyChar c hc
    · exact isTyChar_further h.2 c hc

end

end ClosureEnv.Ty
