import ClosureEnv.Order.SortedMap
import ClosureEnv.Order.SortedSet
import Mathlib.Data.List.Forall2

/-!
# Reading sorted maps and sets

What writing and removing do to reading, and that a map whose keys are in order holds exactly the
pairs that reading finds. Sets of numbers are strictly increasing, however they are made.
-/

namespace ClosureEnv.SortedMap

variable {κ β : Type} [Ord κ]

/-- The keys of a map are in order. -/
def Sorted (m : SortedMap κ β) : Prop :=
  m.Pairwise fun a b => compare a.1 b.1 = .lt

variable [Std.LawfulEqOrd κ]

/-- The key that was written holds what was written. -/
@[simp] theorem find?_insert_self (k : κ) (v : β) (m : SortedMap κ β) :
    find? k (insert k v m) = some v := by
  simp [find?_insert]

/-- Other keys hold what they held. -/
theorem find?_insert_of_ne {k l : κ} (h : l ≠ k) (v : β) (m : SortedMap κ β) :
    find? l (insert k v m) = find? l m := by
  rw [find?_insert, if_neg]
  simpa [Std.LawfulEqOrd.compare_eq_iff_eq] using h

/-- Removing a key removes what it holds, and no other. -/
theorem find?_erase (k l : κ) (m : SortedMap κ β) :
    find? l (erase k m) = if compare l k == .eq then none else find? l m := by
  induction m with
  | nil => simp [erase, find?]
  | cons e m ih =>
    unfold erase at ih ⊢
    simp only [List.filter_cons]
    by_cases hk : compare k e.1 = .eq
    · have hke : k = e.1 := Std.LawfulEqOrd.eq_of_compare hk
      rw [if_neg (by simp [hk]), ih]
      split
      · rfl
      · next h => simp [find?, ← hke, h]
    · rw [if_pos (by simpa using hk)]
      simp only [find?, ih]
      by_cases hl : compare l e.1 = .eq
      · have hle : l = e.1 := Std.LawfulEqOrd.eq_of_compare hl
        have : compare l k ≠ .eq := by
          intro h
          have hlk : l = k := Std.LawfulEqOrd.eq_of_compare h
          exact hk (by rw [← hlk, hle]; exact Std.ReflCmp.compare_self)
        simp [hl, this]
      · simp [hl]

/-- The key that was removed holds nothing. -/
@[simp] theorem find?_erase_self (k : κ) (m : SortedMap κ β) : find? k (erase k m) = none := by
  simp [find?_erase]

/-- Other keys hold what they held. -/
theorem find?_erase_of_ne {k l : κ} (h : l ≠ k) (m : SortedMap κ β) :
    find? l (erase k m) = find? l m := by
  rw [find?_erase, if_neg]
  simpa [Std.LawfulEqOrd.compare_eq_iff_eq] using h

/-- What reading finds is in the map. -/
theorem mem_of_find? {k : κ} {v : β} {m : SortedMap κ β} (h : find? k m = some v) :
    (k, v) ∈ m := by
  induction m with
  | nil => simp [find?] at h
  | cons e m ih =>
    simp only [find?] at h
    split at h
    · next hk =>
      have : k = e.1 := Std.LawfulEqOrd.eq_of_compare (by simpa using hk)
      rw [Option.some.injEq] at h
      subst this h
      exact List.mem_cons_self
    · exact List.mem_cons_of_mem _ (ih h)

/-- A key of the map holds something. -/
theorem contains_of_mem {k : κ} {v : β} {m : SortedMap κ β} (h : (k, v) ∈ m) :
    contains k m = true := by
  unfold contains
  induction m with
  | nil => cases h
  | cons e m ih =>
    simp only [find?]
    split
    · rfl
    · next hk =>
      rcases List.mem_cons.mp h with rfl | h
      · exact absurd (by simp) hk
      · exact ih h

/-- What was written first, or was there already, is what writing some pairs leaves, unless a later
pair is for the same key. -/
theorem find?_foldl_insert (entries : List (κ × β)) :
    ∀ m : SortedMap κ β, ∀ k : κ, (∀ e ∈ entries, e.1 ≠ k) →
      find? k (entries.foldl (fun m e => m.insert e.1 e.2) m) = find? k m := by
  induction entries with
  | nil => exact fun _ _ _ => rfl
  | cons e entries ih =>
    intro m k h
    rw [List.foldl_cons, ih _ k fun e' he' => h e' (List.mem_cons_of_mem _ he')]
    exact find?_insert_of_ne (h e List.mem_cons_self).symm _ _

/-- Pairs with different keys can all be read back. -/
theorem find?_foldl_insert_of_mem {entries : List (κ × β)} (hn : (entries.map Prod.fst).Nodup)
    {k : κ} {v : β} (h : (k, v) ∈ entries) (m : SortedMap κ β) :
    find? k (entries.foldl (fun m e => m.insert e.1 e.2) m) = some v := by
  induction entries generalizing m with
  | nil => cases h
  | cons e entries ih =>
    rw [List.map_cons, List.nodup_cons] at hn
    rw [List.foldl_cons]
    rcases List.mem_cons.mp h with rfl | h
    · rw [find?_foldl_insert entries _ k fun e' he' heq => hn.1 ?_]
      · exact find?_insert_self _ _ _
      · exact List.mem_map.mpr ⟨e', he', heq⟩
    · exact ih hn.2 h _

/-- A map of pairs with different keys gives them back. -/
theorem find?_ofList_of_mem {entries : List (κ × β)} (hn : (entries.map Prod.fst).Nodup)
    {k : κ} {v : β} (h : (k, v) ∈ entries) : find? k (ofList entries) = some v :=
  find?_foldl_insert_of_mem hn h []

/-- What is read after writing some pairs is one of them, or was there already. -/
theorem mem_of_find?_foldl_insert {entries : List (κ × β)} {k : κ} {v : β} :
    ∀ m : SortedMap κ β, find? k (entries.foldl (fun m e => m.insert e.1 e.2) m) = some v →
      (k, v) ∈ entries ∨ find? k m = some v := by
  induction entries with
  | nil => exact fun m h => .inr h
  | cons e entries ih =>
    intro m h
    rcases ih _ h with hm | hm
    · exact .inl (List.mem_cons_of_mem _ hm)
    · by_cases hk : k = e.1
      · subst hk
        rw [find?_insert_self, Option.some.injEq] at hm
        subst hm
        exact .inl List.mem_cons_self
      · rw [find?_insert_of_ne hk] at hm
        exact .inr hm

/-- What is read from the map of some pairs is one of them. -/
theorem mem_of_find?_ofList {entries : List (κ × β)} {k : κ} {v : β}
    (h : find? k (ofList entries) = some v) : (k, v) ∈ entries := by
  rcases mem_of_find?_foldl_insert [] h with h | h
  · exact h
  · simp [find?] at h

/-- What a key holds in pairs that agree on it. -/
theorem find?_eq {m : SortedMap κ β} {k : κ} {o : Option β} (h : ∀ w, (k, w) ∈ m ↔ o = some w) :
    find? k m = o := by
  cases hf : find? k m with
  | some w => exact ((h w).mp (mem_of_find? hf)).symm
  | none =>
    cases o with
    | none => rfl
    | some w =>
      have hc := contains_of_mem ((h w).mpr rfl)
      rw [contains, hf] at hc
      cases hc

/-- A key that is written holds something. -/
theorem isSome_find?_foldl_insert {entries : List (κ × β)} {k : κ} :
    ∀ m : SortedMap κ β, (∃ w, (k, w) ∈ entries) ∨ (find? k m).isSome = true →
      (find? k (entries.foldl (fun m e => m.insert e.1 e.2) m)).isSome = true := by
  induction entries with
  | nil => exact fun m h => h.resolve_left fun ⟨w, hw⟩ => (by cases hw)
  | cons e entries ih =>
    intro m h
    refine ih _ ?_
    by_cases hk : k = e.1
    · subst hk
      exact .inr (by rw [find?_insert_self]; rfl)
    · rw [find?_insert_of_ne hk]
      refine h.imp_left fun ⟨w, hw⟩ => ⟨w, (List.mem_cons.mp hw).resolve_left ?_⟩
      rintro rfl
      exact hk rfl

/-- What a key holds in the map of some pairs that agree on it. -/
theorem find?_ofList_eq {entries : List (κ × β)} {k : κ} {o : Option β}
    (h : ∀ w, (k, w) ∈ entries ↔ o = some w) : find? k (ofList entries) = o := by
  cases hf : find? k (ofList entries) with
  | some w => exact ((h w).mp (mem_of_find?_ofList hf)).symm
  | none =>
    cases o with
    | none => rfl
    | some w =>
      have hs : (find? k (ofList entries)).isSome = true :=
        isSome_find?_foldl_insert [] (.inl ⟨w, (h w).mpr rfl⟩)
      rw [hf] at hs
      cases hs

/-- Writing related values under the same keys keeps maps related. -/
theorem rel_foldl_insert {γ : Type} {R : β → γ → Prop} {es : List (κ × β)} {fs : List (κ × γ)}
    (h : List.Forall₂ (fun e f => e.1 = f.1 ∧ R e.2 f.2) es fs) (k : κ) :
    ∀ (m : SortedMap κ β) (m' : SortedMap κ γ), Option.Rel R (m.find? k) (m'.find? k) →
      Option.Rel R (find? k (es.foldl (fun m e => m.insert e.1 e.2) m))
        (find? k (fs.foldl (fun m e => m.insert e.1 e.2) m')) := by
  induction h with
  | nil => exact fun m m' hm => hm
  | @cons e f es fs hef _ ih =>
    intro m m' hm
    obtain ⟨hkey, hvalue⟩ := hef
    refine ih _ _ ?_
    rw [find?_insert, find?_insert, hkey]
    split
    · exact .some hvalue
    · exact hm

omit [Std.LawfulEqOrd κ] in
/-- Maps that are related at a key both have it or both lack it. -/
theorem contains_eq_of_rel {γ : Type} {R : β → γ → Prop} {k : κ} {m : SortedMap κ β}
    {m' : SortedMap κ γ} (h : Option.Rel R (m.find? k) (m'.find? k)) :
    m.contains k = m'.contains k := by
  unfold contains
  generalize m.find? k = a at h
  generalize m'.find? k = b at h
  cases h <;> rfl

/-- Writing one value under some keys. -/
theorem find?_foldl_insert_const [DecidableEq κ] (xs : List κ) (v : β) (k : κ)
    (m : SortedMap κ β) :
    find? k (xs.foldl (fun m x => m.insert x v) m) = if k ∈ xs then some v else find? k m := by
  induction xs generalizing m with
  | nil => simp
  | cons x xs ih =>
    rw [List.foldl_cons, ih]
    by_cases hk : k ∈ xs
    · simp [hk]
    · by_cases hkx : k = x
      · subst hkx
        simp [hk]
      · simp [hk, hkx, find?_insert_of_ne hkx]

omit [Std.LawfulEqOrd κ] in
/-- Writing a key adds no other. -/
theorem mem_insert_imp {k : κ} {v : β} {m : SortedMap κ β} {e : κ × β} (h : e ∈ insert k v m) :
    e = (k, v) ∨ e ∈ m := by
  induction m with
  | nil => exact .inl (by simpa [insert] using h)
  | cons e' m ih =>
    simp only [insert] at h
    split at h
    · exact (List.mem_cons.mp h).imp id id
    · exact (List.mem_cons.mp h).imp id (List.mem_cons_of_mem _)
    · rcases List.mem_cons.mp h with rfl | h
      · exact .inr List.mem_cons_self
      · exact (ih h).imp id (List.mem_cons_of_mem _)

/-- Writing a key keeps the order. -/
theorem Sorted.insert [Std.TransOrd κ] {m : SortedMap κ β} (h : m.Sorted) (k : κ) (v : β) :
    (m.insert k v).Sorted := by
  induction m with
  | nil => simp [SortedMap.insert, Sorted]
  | cons e m ih =>
    unfold Sorted at h ih ⊢
    rw [List.pairwise_cons] at h
    simp only [SortedMap.insert]
    split
    · next hlt =>
      refine List.pairwise_cons.mpr ⟨fun e' he' => ?_, List.pairwise_cons.mpr h⟩
      rcases List.mem_cons.mp he' with rfl | he'
      · exact hlt
      · exact Std.TransCmp.lt_trans hlt (h.1 e' he')
    · next heq =>
      have : k = e.1 := Std.LawfulEqOrd.eq_of_compare heq
      subst this
      exact List.pairwise_cons.mpr h
    · next hgt =>
      refine List.pairwise_cons.mpr ⟨fun e' he' => ?_, ih h.2⟩
      rcases mem_insert_imp he' with rfl | he'
      · exact Std.OrientedCmp.gt_iff_lt.mp hgt
      · exact h.1 e' he'

omit [Std.LawfulEqOrd κ] in
/-- Removing a key keeps the order. -/
theorem Sorted.erase {m : SortedMap κ β} (h : m.Sorted) (k : κ) : (m.erase k).Sorted :=
  List.Pairwise.filter _ h

/-- The map of some pairs is in order. -/
theorem sorted_ofList [Std.TransOrd κ] (entries : List (κ × β)) : (ofList entries).Sorted := by
  have h (m : SortedMap κ β) (hm : m.Sorted) :
      Sorted (entries.foldl (fun m e => m.insert e.1 e.2) m) := by
    induction entries generalizing m with
    | nil => exact hm
    | cons e entries ih => exact ih _ (hm.insert _ _)
  exact h [] List.Pairwise.nil

/-- A map in order holds the pairs that reading finds. -/
theorem Sorted.mem_iff {m : SortedMap κ β} (h : m.Sorted) {k : κ} {v : β} :
    (k, v) ∈ m ↔ find? k m = some v := by
  refine ⟨fun hm => ?_, mem_of_find?⟩
  induction m with
  | nil => cases hm
  | cons e m ih =>
    unfold Sorted at h ih
    rw [List.pairwise_cons] at h
    simp only [find?]
    rcases List.mem_cons.mp hm with rfl | hm
    · simp
    · have hlt := h.1 _ hm
      have : compare k e.1 ≠ .eq := by
        intro hk
        have hke : k = e.1 := Std.LawfulEqOrd.eq_of_compare hk
        rw [← hke] at hlt
        simp at hlt
      simpa [this] using ih h.2 hm

/-- The map of pairs with different keys holds those pairs. -/
theorem mem_ofList_iff [Std.TransOrd κ] {entries : List (κ × β)}
    (hn : (entries.map Prod.fst).Nodup) {e : κ × β} : e ∈ ofList entries ↔ e ∈ entries := by
  obtain ⟨k, v⟩ := e
  rw [(sorted_ofList entries).mem_iff]
  exact ⟨mem_of_find?_ofList, find?_ofList_of_mem hn⟩

/-- The keys of a map in order are all different. -/
theorem Sorted.nodup_keys {m : SortedMap κ β} (h : m.Sorted) : (m.map Prod.fst).Nodup := by
  unfold List.Nodup
  rw [List.pairwise_map]
  refine List.Pairwise.imp ?_ h
  intro a b hlt heq
  rw [heq] at hlt
  simp at hlt

/-- Maps in order with the same pairs are the same. -/
theorem Sorted.eq_of_mem_iff [Std.TransOrd κ] {m m' : SortedMap κ β} (h : m.Sorted)
    (h' : m'.Sorted) (hmem : ∀ e, e ∈ m ↔ e ∈ m') : m = m' := by
  have hnodup {m : SortedMap κ β} (h : m.Sorted) : m.Nodup :=
    List.Pairwise.of_map Prod.fst (fun _ _ hne heq => hne (congrArg Prod.fst heq)) h.nodup_keys
  have hperm : m.Perm m' := (List.perm_ext_iff_of_nodup (hnodup h) (hnodup h')).mpr hmem
  refine List.Perm.eq_of_pairwise (fun a b _ _ hab hba => ?_) h h' hperm
  rw [Std.OrientedCmp.gt_of_lt hab] at hba
  cases hba

/-- A map in order is the map of its own pairs. -/
theorem Sorted.ofList_eq [Std.TransOrd κ] {m : SortedMap κ β} (h : m.Sorted) : ofList m = m :=
  (sorted_ofList m).eq_of_mem_iff h fun _ => mem_ofList_iff h.nodup_keys

end ClosureEnv.SortedMap

namespace ClosureEnv.SortedSet

/-- The order of numbers is that of comparing them. -/
theorem pairwise_lt_iff {xs : List Nat} :
    xs.Pairwise (fun a b => compare a b = .lt) ↔ xs.Pairwise (· < ·) := by
  simp only [Nat.compare_eq_lt]

/-- Adding a number keeps the order. -/
theorem pairwise_insert_lt (x : Nat) {xs : List Nat} (h : xs.Pairwise (· < ·)) :
    (insert x xs).Pairwise (· < ·) :=
  pairwise_lt_iff.mp (pairwise_insert (pairwise_lt_iff.mpr h))

/-- The numbers of two sets are in order. -/
theorem pairwise_union_lt (xs ys : List Nat) (h : xs.Pairwise (· < ·)) :
    (union xs ys).Pairwise (· < ·) := by
  unfold union
  induction ys generalizing xs with
  | nil => exact h
  | cons y ys ih => exact ih _ (pairwise_insert_lt y h)

/-- The set of some numbers is in order. -/
theorem pairwise_ofList_lt (xs : List Nat) : (ofList xs).Pairwise (· < ·) :=
  pairwise_union_lt [] xs List.Pairwise.nil

end ClosureEnv.SortedSet
