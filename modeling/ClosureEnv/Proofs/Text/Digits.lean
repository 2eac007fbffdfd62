/-!
# Digits and separators

A number is written in digits, and its digits tell it apart from others, also after a separator that
does not end in a digit. Texts that are joined by a separator are told by the whole if none has it.
-/

namespace ClosureEnv.Text

/-- The characters of a number are those of its digits. -/
theorem toList_toString (n : Nat) : (toString n).toList = Nat.toDigits 10 n :=
  Nat.toList_repr

/-- Every character of a number is a digit. -/
theorem isDigit_of_mem_toString {n : Nat} {c : Char} (h : c ∈ (toString n).toList) :
    c.isDigit = true :=
  Nat.isDigit_of_mem_toDigits (by decide) (by decide) (toList_toString n ▸ h)

/-- Numbers that are written alike are equal. -/
theorem toString_injective {m n : Nat} (h : toString m = toString n) : m = n := by
  have hdigits : Nat.toDigits 10 m = Nat.toDigits 10 n := by
    rw [← toList_toString, ← toList_toString, h]
  rw [← Nat.ofDigitChars_ten_toDigits (n := m), hdigits, Nat.ofDigitChars_ten_toDigits]

/-- Two lists that end alike after the last occurrence of a separator are alike. -/
theorem append_sep_inj {α : Type} {c : α} {xs ys ds es : List α} (hd : c ∉ ds) (he : c ∉ es)
    (h : xs ++ c :: ds = ys ++ c :: es) : xs = ys ∧ ds = es := by
  rcases List.append_eq_append_iff.mp h with ⟨zs, rfl, hz⟩ | ⟨zs, rfl, hz⟩
  · cases zs with
    | nil => simpa using hz
    | cons z zs =>
      simp only [List.cons_append, List.cons.injEq] at hz
      exact absurd (hz.2 ▸ List.mem_append_right zs List.mem_cons_self) hd
  · cases zs with
    | nil => simpa using hz.symm
    | cons z zs =>
      simp only [List.cons_append, List.cons.injEq] at hz
      exact absurd (hz.2 ▸ List.mem_append_right zs List.mem_cons_self) he

/-- What stands before a separator and a number is told by the whole, and so is the number. -/
theorem append_toString_inj (front : String) {s t : String} {c : Char} (hc : c.isDigit = false)
    {m n : Nat} (h : s ++ (front.push c) ++ toString m = t ++ (front.push c) ++ toString n) :
    s = t ∧ m = n := by
  have hno (n : Nat) : c ∉ (toString n).toList := fun hmem => by
    simp [isDigit_of_mem_toString hmem] at hc
  have hl := congrArg String.toList h
  simp only [String.toList_append, String.toList_push, List.append_assoc,
    List.singleton_append] at hl
  rw [← List.append_assoc, ← List.append_assoc] at hl
  obtain ⟨hs, hn⟩ := append_sep_inj (hno m) (hno n) hl
  exact ⟨String.toList_inj.mp (List.append_cancel_right hs),
    toString_injective (String.toList_inj.mp hn)⟩

/-- A number is not empty. -/
theorem toString_ne_nil (n : Nat) : (toString n).toList ≠ [] := by
  intro h
  rw [toList_toString] at h
  exact Nat.toDigits_ne_nil h

/-- The digits of a number have its value. -/
theorem foldl_toString (n : Nat) :
    (toString n).toList.foldl (fun m c => m * 10 + (c.toNat - '0'.toNat)) 0 = n := by
  have hcomm : (fun (m : Nat) (c : Char) => m * 10 + (c.toNat - '0'.toNat)) =
      fun m c => 10 * m + (c.toNat - '0'.toNat) := by
    funext m c
    rw [Nat.mul_comm]
  rw [toList_toString, hcomm, ← Nat.ofDigitChars_eq_foldl, Nat.ofDigitChars_ten_toDigits]

/-- Only zero is written with a zero in front. -/
theorem head_toString_ne {n : Nat} (hn : n ≠ 0) : (toString n).toList.head? ≠ some '0' := by
  rw [toList_toString]
  induction n using Nat.strongRecOn with
  | ind n ih =>
    by_cases hlt : n < 10
    · have hdigits : ∀ d < 10, d ≠ 0 → some d.digitChar ≠ some '0' := by decide
      rw [Nat.toDigits_of_lt_base hlt, List.head?_cons]
      exact hdigits n hlt hn
    · rw [Nat.toDigits_of_base_le (by decide) (Nat.not_lt.mp hlt), List.head?_append,
        Option.or_of_isSome (List.isSome_head?.mpr Nat.toDigits_ne_nil)]
      exact ih (n / 10) (by omega) (by omega)

/-- A run of elements that pass a test is told by what it stands in front of, as long as that does
not start with one that passes. -/
theorem run_append_inj {α : Type} {p : α → Bool} {ds es xs ys : List α} (hd : ∀ c ∈ ds, p c = true)
    (he : ∀ c ∈ es, p c = true) (hx : ∀ c, xs.head? = some c → p c = false)
    (hy : ∀ c, ys.head? = some c → p c = false) (h : ds ++ xs = es ++ ys) :
    ds = es ∧ xs = ys := by
  induction ds generalizing es with
  | nil =>
    cases es with
    | nil => exact ⟨rfl, h⟩
    | cons e es =>
      rw [List.nil_append, List.cons_append] at h
      have := hx e (by rw [h]; rfl)
      rw [he e List.mem_cons_self] at this
      cases this
  | cons d ds ih =>
    cases es with
    | nil =>
      rw [List.nil_append, List.cons_append] at h
      have := hy d (by rw [← h]; rfl)
      rw [hd d List.mem_cons_self] at this
      cases this
    | cons e es =>
      rw [List.cons_append, List.cons_append, List.cons.injEq] at h
      obtain ⟨hds, hxs⟩ := ih (fun c hc => hd c (List.mem_cons_of_mem _ hc))
        (fun c hc => he c (List.mem_cons_of_mem _ hc)) h.2
      exact ⟨by rw [h.1, hds], hxs⟩

/-- A number is told by what it stands in front of, as long as that does not start with a digit. -/
theorem toString_append_inj {m n : Nat} {xs ys : List Char}
    (hx : ∀ c, xs.head? = some c → c.isDigit = false)
    (hy : ∀ c, ys.head? = some c → c.isDigit = false)
    (h : (toString m).toList ++ xs = (toString n).toList ++ ys) : m = n ∧ xs = ys := by
  obtain ⟨hd, hxs⟩ := run_append_inj (fun _ => isDigit_of_mem_toString)
    (fun _ => isDigit_of_mem_toString) hx hy h
  exact ⟨toString_injective (String.toList_inj.mp hd), hxs⟩

/-- The characters of joined texts: those of the first, and then each of the others behind a
separator. -/
theorem toList_intercalate_cons (sep s : String) (ss : List String) :
    (sep.intercalate (s :: ss)).toList =
      s.toList ++ ss.flatMap fun t => sep.toList ++ t.toList := by
  induction ss generalizing s with
  | nil => simp
  | cons t ss ih =>
    rw [String.intercalate_cons_cons, String.toList_append, String.toList_append, ih]
    simp

/-- Joined texts that do not have the separator in them are told by the whole. -/
theorem intercalate_inj {c : Char} {sep : String} (hsep : sep.toList = [c]) {ss ts : List String}
    (hs : ∀ s ∈ ss, c ∉ s.toList) (ht : ∀ t ∈ ts, c ∉ t.toList) (hss : ss ≠ []) (hts : ts ≠ [])
    (h : sep.intercalate ss = sep.intercalate ts) : ss = ts := by
  have hsplit {us : List String} (hu : ∀ u ∈ us, c ∉ u.toList) (hne : us ≠ []) :
      (sep.intercalate us).toList.splitOn c = us.map String.toList := by
    rw [String.toList_intercalate, hsep]
    exact List.splitOn_intercalate c (by simpa using hu) (by simpa using hne)
  have hmap := hsplit hs hss
  rw [h, hsplit ht hts] at hmap
  exact ((List.map_inj_right fun _ _ => String.toList_inj.mp).mp hmap).symm

end ClosureEnv.Text
