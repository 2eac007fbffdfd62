import ClosureEnv.Layout.Name
import ClosureEnv.Proofs.Bound.Scoped
import ClosureEnv.Proofs.Text.Digits

/-!
# Made names

Made names tell what they were made for. `Minted g` are the names that environments get in
generation `g`, but for the shared empty one, whose name is fixed; they differ from one generation
to another, and from the names of lambdas and of the source.
-/

namespace ClosureEnv.Name

open Text

/-- A name that environments get in a generation. -/
inductive Minted (g : Nat) : String → Prop where
  | scope (s c : Nat) : Minted g (scopeEnv s c g)
  | static (f : Nat) : Minted g (staticGenericEnv f g)

/-- What a name ends in does not start with a digit. -/
theorem head?_generationSuffix (g : Nat) (c : Char)
    (h : (generationSuffix g).toList.head? = some c) : c.isDigit = false := by
  unfold generationSuffix at h
  split at h
  · simp at h
  · rw [String.toList_append] at h
    cases h
    rfl

/-- What a name ends in tells the generation. -/
theorem generationSuffix_inj {g g' : Nat} (h : generationSuffix g = generationSuffix g') :
    g = g' := by
  have hne (n : Nat) : "#" ++ toString n ≠ "" := by
    intro h
    have := congrArg String.toList h
    simp at this
  unfold generationSuffix at h
  split at h <;> split at h
  · next h₁ h₂ => rw [beq_iff_eq] at h₁ h₂; rw [h₁, h₂]
  · exact absurd h.symm (hne _)
  · exact absurd h (hne _)
  · have := congrArg String.toList h
    rw [String.toList_append, String.toList_append] at this
    exact toString_injective (String.toList_inj.mp (List.append_cancel_left this))

/-- The characters of the name of the environment of a scope. -/
theorem toList_scopeEnv (s c g : Nat) : (scopeEnv s c g).toList = "<>Env".toList ++
    ((toString s).toList ++ '_' :: ((toString c).toList ++ (generationSuffix g).toList)) := by
  simp [scopeEnv, String.toList_append]

/-- The characters of the name of the empty environment of a function. -/
theorem toList_staticGenericEnv (f g : Nat) : (staticGenericEnv f g).toList = "<>Env".toList ++
    ((toString f).toList ++ '_' :: ('_' :: ("static".toList ++ (generationSuffix g).toList))) := by
  simp [staticGenericEnv, String.toList_append]

/-- The name of the environment of a scope tells the count and the generation. -/
theorem scopeEnv_inj {s c g s' c' g' : Nat} (h : scopeEnv s c g = scopeEnv s' c' g') :
    c = c' ∧ g = g' := by
  have hl := congrArg String.toList h
  rw [toList_scopeEnv, toList_scopeEnv] at hl
  have hsep (xs : List Char) : ∀ d, ('_' :: xs).head? = some d → d.isDigit = false := by
    rintro d ⟨⟩
    rfl
  obtain ⟨-, hrest⟩ := toString_append_inj (hsep _) (hsep _) (List.append_cancel_left hl)
  obtain ⟨hc, hg⟩ := toString_append_inj (head?_generationSuffix g) (head?_generationSuffix g')
    (List.cons.inj hrest).2
  exact ⟨hc, generationSuffix_inj (String.toList_inj.mp hg)⟩

/-- The name of the empty environment of a function tells the function and the generation. -/
theorem staticGenericEnv_inj {f g f' g' : Nat} (h : staticGenericEnv f g = staticGenericEnv f' g') :
    f = f' ∧ g = g' := by
  have hl := congrArg String.toList h
  rw [toList_staticGenericEnv, toList_staticGenericEnv] at hl
  have hsep (xs : List Char) : ∀ d, ('_' :: xs).head? = some d → d.isDigit = false := by
    rintro d ⟨⟩
    rfl
  obtain ⟨hf, hrest⟩ := toString_append_inj (hsep _) (hsep _) (List.append_cancel_left hl)
  have hg := List.append_cancel_left (List.cons.inj (List.cons.inj hrest).2).2
  exact ⟨hf, generationSuffix_inj (String.toList_inj.mp hg)⟩

/-- Environments of scopes and of functions have different names. -/
theorem scopeEnv_ne_staticGenericEnv (s c g f g' : Nat) :
    scopeEnv s c g ≠ staticGenericEnv f g' := by
  intro h
  have hl := congrArg String.toList h
  rw [toList_scopeEnv, toList_staticGenericEnv] at hl
  have hsep (xs : List Char) : ∀ d, ('_' :: xs).head? = some d → d.isDigit = false := by
    rintro d ⟨⟩
    rfl
  obtain ⟨-, hrest⟩ := toString_append_inj (hsep _) (hsep _) (List.append_cancel_left hl)
  have hdigits := run_append_inj (fun _ => isDigit_of_mem_toString)
    (show ∀ d ∈ ([] : List Char), d.isDigit = true from fun _ hd => by cases hd)
    (head?_generationSuffix g) (hsep _) (List.cons.inj hrest).2
  exact toString_ne_nil c hdigits.1

/-- Names of different generations differ. -/
theorem Minted.generation {g g' : Nat} {n : String} (h : Minted g n) (h' : Minted g' n) :
    g = g' := by
  cases h with
  | scope s c =>
    generalize hn : scopeEnv s c g = n at h'
    cases h' with
    | scope s' c' => exact (scopeEnv_inj hn).2
    | static f => exact absurd hn (scopeEnv_ne_staticGenericEnv _ _ _ _ _)
  | static f =>
    generalize hn : staticGenericEnv f g = n at h'
    cases h' with
    | scope s' c' => exact absurd hn.symm (scopeEnv_ne_staticGenericEnv _ _ _ _ _)
    | static f' => exact (staticGenericEnv_inj hn).2

/-- The name of the shared environment is none of these. -/
theorem Minted.ne_shared {g : Nat} {n : String} (h : Minted g n) : n ≠ sharedStaticEnv := by
  intro heq
  have hl := congrArg String.toList heq
  rw [show sharedStaticEnv.toList = "<>Env".toList ++ [] from rfl] at hl
  cases h with
  | scope s c =>
    rw [toList_scopeEnv] at hl
    simp at hl
  | static f =>
    rw [toList_staticGenericEnv] at hl
    simp at hl

/-- A name that an environment may get. -/
def OfEnv (n : String) : Prop :=
  n = sharedStaticEnv ∨ ∃ g, Minted g n

/-- The characters of the names of environments. -/
def isEnvChar (c : Char) : Bool :=
  c.isDigit || "<>Env_#static".toList.contains c

/-- Names of environments have no other characters. -/
theorem OfEnv.isEnvChar {n : String} (h : OfEnv n) {c : Char} (hc : c ∈ n.toList) :
    isEnvChar c = true := by
  -- Names of environments are put together from a fixed front, digits and a suffix.
  have hdigits (k : Nat) (hk : c ∈ (toString k).toList) : Name.isEnvChar c = true := by
    simp [Name.isEnvChar, isDigit_of_mem_toString hk]
  have hsuffix (g : Nat) (hg : c ∈ (generationSuffix g).toList) : Name.isEnvChar c = true := by
    unfold generationSuffix at hg
    split at hg
    · simp at hg
    · rw [String.toList_append, List.mem_append] at hg
      rcases hg with hg | hg
      · cases List.mem_singleton.mp hg
        decide
      · exact hdigits g hg
  have hfront (hf : c ∈ "<>Env".toList) : Name.isEnvChar c = true := by
    revert hf
    simp only [String.reduceToList, List.mem_cons, List.not_mem_nil, or_false]
    rintro (rfl | rfl | rfl | rfl | rfl) <;> decide
  rcases h with rfl | ⟨g, h⟩
  · exact hfront hc
  cases h with
  | scope s k =>
    rw [toList_scopeEnv] at hc
    simp only [List.mem_append, List.mem_cons] at hc
    rcases hc with hc | hc | rfl | hc | hc
    · exact hfront hc
    · exact hdigits s hc
    · decide
    · exact hdigits k hc
    · exact hsuffix g hc
  | static f =>
    rw [toList_staticGenericEnv] at hc
    simp only [List.mem_append, List.mem_cons] at hc
    rcases hc with hc | hc | rfl | rfl | hc | hc
    · exact hfront hc
    · exact hdigits f hc
    · decide
    · decide
    · revert hc
      simp only [String.reduceToList, List.mem_cons, List.not_mem_nil, or_false]
      rintro (rfl | rfl | rfl | rfl | rfl | rfl) <;> decide
    · exact hsuffix g hc

/-- Names of environments have a bracket. -/
theorem OfEnv.bracket_mem {n : String} (h : OfEnv n) : '<' ∈ n.toList := by
  rcases h with rfl | ⟨g, h⟩
  · decide
  cases h with
  | scope s k => rw [toList_scopeEnv]; simp
  | static f => rw [toList_staticGenericEnv]; simp

/-- Names of environments are no names of the source. -/
theorem OfEnv.not_plain {n : String} (h : OfEnv n) : ¬ Plain n :=
  fun hp => (hp '<' h.bracket_mem).1 rfl

/-- Names of environments are not that of the function that holds the globals. -/
theorem OfEnv.ne_moduleFn {n : String} (h : OfEnv n) : n ≠ moduleFn := by
  rintro rfl
  have := h.isEnvChar (c := 'm') (by decide)
  revert this
  decide

/-- The name of a lambda tells its function and its position. -/
theorem lambda_inj {f g : String} {m n : Nat} (h : lambda f m = lambda g n) : f = g ∧ m = n := by
  have h' : "<" ++ f ++ (">b_".push '_') ++ toString m =
      "<" ++ g ++ (">b_".push '_') ++ toString n := h
  obtain ⟨hfg, hmn⟩ := append_toString_inj ">b_" (by decide) h'
  have hl := congrArg String.toList hfg
  rw [String.toList_append, String.toList_append] at hl
  exact ⟨String.toList_inj.mp (List.append_cancel_left hl), hmn⟩

/-- The characters that tell lambdas apart from other names. -/
theorem mem_lambda (f : String) (n : Nat) :
    'b' ∈ (lambda f n).toList ∧ '<' ∈ (lambda f n).toList := by
  simp [lambda, String.toList_append]

/-- The local of a body that holds an environment tells its plan. -/
theorem envLocal_inj {p q : Nat} (h : envLocal p = envLocal q) : p = q := by
  have hl := congrArg String.toList h
  unfold envLocal at hl
  rw [String.toList_append, String.toList_append, List.append_cancel_left_eq] at hl
  exact toString_injective (String.toList_inj.mp hl)

/-- Lambdas and environments have different names. -/
theorem OfEnv.ne_lambda {n : String} (h : OfEnv n) (f : String) (k : Nat) : n ≠ lambda f k := by
  rintro rfl
  have := h.isEnvChar (mem_lambda f k).1
  revert this
  decide

/-- The names of lambdas are no names of the source. -/
theorem not_plain_lambda (f : String) (n : Nat) : ¬ Plain (lambda f n) :=
  fun hp => (hp '<' (mem_lambda f n).2).1 rfl

/-- The names of lambdas are not that of the function that holds the globals. -/
theorem lambda_ne_moduleFn (f : String) (n : Nat) : lambda f n ≠ moduleFn := by
  intro h
  have := (mem_lambda f n).1
  rw [h] at this
  revert this
  decide

end ClosureEnv.Name
