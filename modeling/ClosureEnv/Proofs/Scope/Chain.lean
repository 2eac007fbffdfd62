import ClosureEnv.Scope.Tree
import Mathlib.Data.Nat.Find

/-!
# Chains and subtrees of scopes

In an array of scopes in preorder every scope follows its parent, so the chain of the scopes around
one ends before the bound that `ancestorsIn` gives it. `ancestorsIn_eq` is the equation without the
bound; from it come the laws of the order that `isStrictAncestorIn` decides: it is irreflexive and
transitive, and any two scopes around a third are comparable.

If the parent of every scope is at or around the scope before it, the scopes below any scope follow
it without a gap (`exists_around_iff`): a numbering in preorder is told by neighbours. Children are
in the order of their numbers, so that a new scope is the last child of its parent
(`childrenIn_push`).
-/

namespace ClosureEnv

/-- Scopes in preorder: every scope follows its parent. -/
def Preorder (scopes : Array Scope) : Prop :=
  ∀ s p : Nat, parentIn? scopes s = some p → p < s

/-- `outer` encloses `s` in an array of scopes and differs from it. -/
def Around (scopes : Array Scope) (outer s : Nat) : Prop :=
  outer ∈ ancestorsIn scopes s

/-- `outer` is `s` or encloses it in an array of scopes. -/
def AroundEq (scopes : Array Scope) (outer s : Nat) : Prop :=
  outer = s ∨ Around scopes outer s

variable {scopes : Array Scope}

/-- The Boolean test decides the order. -/
theorem isStrictAncestorIn_iff {outer s : Nat} :
    isStrictAncestorIn scopes outer s = true ↔ Around scopes outer s := by
  simp [isStrictAncestorIn, Around]

/-- The Boolean test decides the reflexive order. -/
theorem encloses_iff {t : ScopeTree} {outer s : Nat} :
    t.encloses outer s = true ↔ AroundEq t.scopes outer s := by
  simp [ScopeTree.encloses, ScopeTree.isStrictAncestor, AroundEq, isStrictAncestorIn_iff]

/-- A scope that has a parent exists. -/
theorem lt_size_of_parentIn? {s p : Nat} (h : parentIn? scopes s = some p) :
    s < scopes.size := by
  unfold parentIn? at h
  rcases hs : scopes[s]? with _ | x
  · simp [hs] at h
  · exact (Array.getElem?_eq_some_iff.mp hs).1

/-- The parent of a scope that is there. -/
theorem parentIn?_of_scope {s : Nat} {x : Scope} (h : scopes[s]? = some x) :
    parentIn? scopes s = x.parent := by
  simp [parentIn?, h]

/-- Scopes added at the end leave the parents of the others alone. -/
theorem parentIn?_congr {more : Array Scope}
    (hext : ∀ (i : Nat) x, scopes[i]? = some x → more[i]? = some x) {s : Nat}
    (hs : s < scopes.size) : parentIn? more s = parentIn? scopes s := by
  have hx : scopes[s]? = some scopes[s] := Array.getElem?_eq_getElem hs
  rw [parentIn?_of_scope hx, parentIn?_of_scope (hext s _ hx)]

/-- Beyond the position of a scope, the bound on its chain does not matter. -/
theorem ancestorsUpTo_eq (hp : Preorder scopes) (s : Nat) :
    ∀ m n : Nat, s < m → s < n → ancestorsUpTo scopes m s = ancestorsUpTo scopes n s := by
  induction s using Nat.strongRecOn with
  | ind s ih =>
    intro m n hm hn
    obtain ⟨m, rfl⟩ : ∃ k, m = k + 1 := ⟨m - 1, by omega⟩
    obtain ⟨n, rfl⟩ : ∃ k, n = k + 1 := ⟨n - 1, by omega⟩
    rcases hpar : parentIn? scopes s with _ | p
    · simp [ancestorsUpTo, hpar]
    · have hlt := hp s p hpar
      simp only [ancestorsUpTo, hpar]
      rw [ih p hlt m n (by omega) (by omega)]

/-- The chain of a scope is its parent and the chain of that. -/
theorem ancestorsIn_eq (hp : Preorder scopes) (s : Nat) :
    ancestorsIn scopes s = match parentIn? scopes s with
      | none => []
      | some p => p :: ancestorsIn scopes p := by
  rcases hpar : parentIn? scopes s with _ | p
  · simp [ancestorsIn, ancestorsUpTo, hpar]
  · have hlt := hp s p hpar
    have hs := lt_size_of_parentIn? hpar
    unfold ancestorsIn
    rw [ancestorsUpTo, hpar]
    simp only
    rw [ancestorsUpTo_eq hp p scopes.size (scopes.size + 1) (by omega) (by omega)]

/-- What is around a scope is its parent or around that. -/
theorem around_iff (hp : Preorder scopes) {outer s : Nat} :
    Around scopes outer s ↔ ∃ p, parentIn? scopes s = some p ∧ AroundEq scopes outer p := by
  unfold AroundEq Around
  rw [ancestorsIn_eq hp s]
  rcases parentIn? scopes s with _ | p <;> simp

/-- A parent is around its child. -/
theorem around_parent (hp : Preorder scopes) {s p : Nat} (h : parentIn? scopes s = some p) :
    Around scopes p s :=
  (around_iff hp).mpr ⟨p, h, .inl rfl⟩

/-- What is around the parent is around the child. -/
theorem around_of_parent (hp : Preorder scopes) {outer s p : Nat}
    (h : parentIn? scopes s = some p) (ho : AroundEq scopes outer p) : Around scopes outer s :=
  (around_iff hp).mpr ⟨p, h, ho⟩

/-- What is around the child is the parent or around it. -/
theorem aroundEq_parent (hp : Preorder scopes) {outer s p : Nat}
    (h : parentIn? scopes s = some p) (ho : Around scopes outer s) : AroundEq scopes outer p := by
  obtain ⟨q, hq, hoq⟩ := (around_iff hp).mp ho
  cases h.symm.trans hq
  exact hoq

/-- What is around a scope comes before it. -/
theorem Around.lt (hp : Preorder scopes) {outer s : Nat} (h : Around scopes outer s) :
    outer < s := by
  induction s using Nat.strongRecOn with
  | ind s ih =>
    obtain ⟨p, hpar, rfl | ho⟩ := (around_iff hp).mp h
    · exact hp s _ hpar
    · have := hp s p hpar
      have := ih p this ho
      omega

/-- What is a scope or around it does not follow it. -/
theorem AroundEq.le (hp : Preorder scopes) {outer s : Nat} (h : AroundEq scopes outer s) :
    outer ≤ s := by
  rcases h with rfl | h
  · exact Nat.le_refl _
  · exact Nat.le_of_lt (h.lt hp)

/-- No scope is around itself. -/
theorem Around.irrefl (hp : Preorder scopes) {s : Nat} : ¬ Around scopes s s :=
  fun h => Nat.lt_irrefl _ (h.lt hp)

/-- A scope that something is around exists. -/
theorem Around.lt_size (hp : Preorder scopes) {outer s : Nat} (h : Around scopes outer s) :
    s < scopes.size := by
  obtain ⟨p, hpar, -⟩ := (around_iff hp).mp h
  exact lt_size_of_parentIn? hpar

/-- The order is transitive. -/
theorem Around.trans (hp : Preorder scopes) {a b c : Nat} (hab : Around scopes a b)
    (hbc : Around scopes b c) : Around scopes a c := by
  induction c using Nat.strongRecOn with
  | ind c ih =>
    obtain ⟨p, hpar, rfl | hbp⟩ := (around_iff hp).mp hbc
    · exact around_of_parent hp hpar (.inr hab)
    · exact around_of_parent hp hpar (.inr (ih p (hp c p hpar) hbp))

/-- Around a scope around or at another. -/
theorem Around.trans_eq (hp : Preorder scopes) {a b c : Nat} (hab : Around scopes a b)
    (hbc : AroundEq scopes b c) : Around scopes a c := by
  rcases hbc with rfl | hbc
  · exact hab
  · exact hab.trans hp hbc

/-- At or around a scope around another. -/
theorem AroundEq.trans_around (hp : Preorder scopes) {a b c : Nat} (hab : AroundEq scopes a b)
    (hbc : Around scopes b c) : Around scopes a c := by
  rcases hab with rfl | hab
  · exact hbc
  · exact hab.trans hp hbc

/-- The reflexive order is transitive. -/
theorem AroundEq.trans (hp : Preorder scopes) {a b c : Nat} (hab : AroundEq scopes a b)
    (hbc : AroundEq scopes b c) : AroundEq scopes a c := by
  rcases hab with rfl | hab
  · exact hbc
  · exact .inr (hab.trans_eq hp hbc)

/-- The reflexive order is antisymmetric. -/
theorem AroundEq.antisymm (hp : Preorder scopes) {a b : Nat} (hab : AroundEq scopes a b)
    (hba : AroundEq scopes b a) : a = b :=
  Nat.le_antisymm (hab.le hp) (hba.le hp)

/-- Any two scopes at or around a third are comparable. -/
theorem AroundEq.total (hp : Preorder scopes) {a b s : Nat} (ha : AroundEq scopes a s)
    (hb : AroundEq scopes b s) : AroundEq scopes a b ∨ Around scopes b a := by
  induction s using Nat.strongRecOn with
  | ind s ih =>
    rcases ha with rfl | ha
    · rcases hb with rfl | hb
      · exact .inl (.inl rfl)
      · exact .inr hb
    · rcases hb with rfl | hb
      · exact .inl (.inr ha)
      · obtain ⟨p, hpar, hap⟩ := (around_iff hp).mp ha
        exact ih p (hp s p hpar) hap (aroundEq_parent hp hpar hb)

/-- Scopes added at the end leave the chains of the others alone. -/
theorem around_congr {more : Array Scope} (hp : Preorder scopes) (hm : Preorder more)
    (hext : ∀ (i : Nat) x, scopes[i]? = some x → more[i]? = some x) {outer s : Nat}
    (hs : s < scopes.size) : Around more outer s ↔ Around scopes outer s := by
  induction s using Nat.strongRecOn with
  | ind s ih =>
    rw [around_iff hm, around_iff hp, parentIn?_congr hext hs]
    refine exists_congr fun p => and_congr_right fun h => ?_
    have hlt := hp s p h
    unfold AroundEq
    rw [ih p hlt (by omega)]

/-- A scope at the end leaves the parents of the others alone. -/
theorem parentIn?_push (s : Scope) (i : Nat) :
    parentIn? (scopes.push s) i = if i = scopes.size then s.parent else parentIn? scopes i := by
  unfold parentIn?
  rw [Array.getElem?_push]
  split <;> simp

/-- A scope at the end, below one that exists, keeps the order. -/
theorem Preorder.push (hp : Preorder scopes) (s : Scope)
    (hs : ∀ p : Nat, s.parent = some p → p < scopes.size) : Preorder (scopes.push s) := by
  intro i p h
  rw [parentIn?_push] at h
  split at h
  · next hi => exact hi ▸ hs p h
  · exact hp i p h

/-- A scope at the end leaves the chains of the others alone. -/
theorem around_push (hp : Preorder scopes) (s : Scope)
    (hs : ∀ p : Nat, s.parent = some p → p < scopes.size) {outer i : Nat} (hi : i < scopes.size) :
    Around (scopes.push s) outer i ↔ Around scopes outer i := by
  refine around_congr hp (Preorder.push hp s hs) ?_ hi
  intro j x hx
  have := (Array.getElem?_eq_some_iff.mp hx).1
  rw [Array.getElem?_push, if_neg (by omega)]
  exact hx

/-! ## Subtrees and children -/

/-- The parent of every scope but the first is at or around the scope before. -/
def Adjoining (scopes : Array Scope) : Prop :=
  ∀ i p : Nat, parentIn? scopes (i + 1) = some p → AroundEq scopes p i

/-- What is around a scope is at or around the one before. -/
theorem Adjoining.aroundEq (ha : Adjoining scopes) (hp : Preorder scopes) {s i : Nat}
    (h : Around scopes s (i + 1)) : AroundEq scopes s i := by
  obtain ⟨p, hpar, hsp⟩ := (around_iff hp).mp h
  exact hsp.trans hp (ha i p hpar)

/-- What is around a scope is around all scopes in between. -/
theorem Adjoining.around_of_le (ha : Adjoining scopes) (hp : Preorder scopes) {s i j : Nat}
    (h : Around scopes s j) (hs : s < i) (hij : i ≤ j) : Around scopes s i := by
  induction j, hij using Nat.le_induction with
  | base => exact h
  | succ j hij ih => exact ih ((ha.aroundEq hp h).resolve_left (by omega))

/-- The scopes below a scope are those that follow it up to some number. -/
theorem Adjoining.exists_around_iff (ha : Adjoining scopes) (hp : Preorder scopes) {s : Nat}
    (hs : s < scopes.size) : ∃ n, s < n ∧ n ≤ scopes.size ∧
      ∀ i, Around scopes s i ↔ s < i ∧ i < n := by
  have hend : ∃ n, s < n ∧ ¬ Around scopes s n :=
    ⟨scopes.size, hs, fun h => Nat.lt_irrefl _ (h.lt_size hp)⟩
  classical
  obtain ⟨hn, hno⟩ := Nat.find_spec hend
  refine ⟨Nat.find hend, hn, Nat.find_min' hend ⟨hs, fun h => Nat.lt_irrefl _ (h.lt_size hp)⟩,
    fun i => ⟨fun h => ⟨h.lt hp, ?_⟩, fun ⟨hsi, hi⟩ => ?_⟩⟩
  · by_contra hle
    exact hno (ha.around_of_le hp h hn (Nat.le_of_not_lt hle))
  · by_contra hnot
    exact Nat.find_min hend hi ⟨hsi, hnot⟩

/-- A new scope whose parent is at or around the last one. -/
theorem Adjoining.push (ha : Adjoining scopes) (hp : Preorder scopes) (s : Scope)
    (hs : ∀ p : Nat, s.parent = some p → p < scopes.size ∧ AroundEq scopes p (scopes.size - 1)) :
    Adjoining (scopes.push s) := by
  intro i p hpar
  have hlt {j : Nat} (hj : j < scopes.size) : AroundEq (scopes.push s) p j ↔ AroundEq scopes p j :=
    or_congr_right (around_push hp s (fun q hq => (hs q hq).1) hj)
  rw [parentIn?_push] at hpar
  split at hpar
  · next hi =>
    obtain ⟨-, haround⟩ := hs p hpar
    rw [← hi, Nat.add_sub_cancel] at haround
    exact (hlt (by omega)).mpr haround
  · have := lt_size_of_parentIn? hpar
    exact (hlt (by omega)).mpr (ha i p hpar)

/-- What is around a scope comes from the inside out, each once. -/
theorem nodup_ancestorsIn (hp : Preorder scopes) (s : Nat) : (ancestorsIn scopes s).Nodup := by
  induction s using Nat.strongRecOn with
  | ind s ih =>
    rw [ancestorsIn_eq hp]
    split
    · exact .nil
    · next p hpar =>
      exact List.nodup_cons.mpr ⟨fun h => Around.irrefl hp h, ih p (hp s p hpar)⟩

/-- The children of a scope, in the order of their numbers. -/
def childrenIn (scopes : Array Scope) (p : ScopeId) : List ScopeId :=
  (List.range scopes.size).filter fun i => parentIn? scopes i == some p

/-- A new scope is the last child of its parent. -/
theorem childrenIn_push (s : Scope) (p : ScopeId) : childrenIn (scopes.push s) p =
    childrenIn scopes p ++ if s.parent = some p then [scopes.size] else [] := by
  have hold : (List.range scopes.size).filter (fun i => parentIn? (scopes.push s) i == some p) =
      childrenIn scopes p := by
    refine List.filter_congr fun i hi => ?_
    rw [parentIn?_push, if_neg (Nat.ne_of_lt (List.mem_range.mp hi))]
  rw [childrenIn, Array.size_push, List.range_succ, List.filter_append, hold, List.filter_cons,
    List.filter_nil, parentIn?_push, if_pos rfl]
  simp only [beq_iff_eq]

/-- A scope that does not exist has no children. -/
theorem childrenIn_eq_nil (hp : Preorder scopes) {p : ScopeId} (h : scopes.size ≤ p) :
    childrenIn scopes p = [] := by
  refine List.filter_eq_nil_iff.mpr fun i hi hpar => ?_
  have := hp i p (beq_iff_eq.mp hpar)
  have := List.mem_range.mp hi
  omega

end ClosureEnv
