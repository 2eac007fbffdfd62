import ClosureEnv.Proofs.Binding.Invariant
import ClosureEnv.Proofs.Text.Digits

/-!
# Adding to the tree

What a new scope, a new closure and a new variable do to the parts of the invariant. A new scope
goes right below the innermost open one, under a key that no sibling has; a scope of a closure comes
with its closure.
-/

namespace ClosureEnv.Binding

variable {P : String → Prop} {scopes : Array Scope} {closures : Array Closure}
  {vars : Array Variable} {fns : Array Function} {current : Current} {n m : Nat} {s : Scope}

/-- What a new scope has to be. -/
structure NewScope (scopes : Array Scope) (fnCount : Nat) (s : Scope) : Prop where
  id : s.id = scopes.size
  parent_lt : ∀ p : Nat, s.parent = some p → p < scopes.size
  root_iff : s.parent = none ↔ s.kind = .function
  depth : ∀ (p : Nat) q, s.parent = some p → scopes[p]? = some q → s.depth = q.depth + 1
  owner : s.owner < fnCount

/-- What was there is still there. -/
theorem getElem?_push_of_some {α : Type} {xs : Array α} {i : Nat} {x : α} (h : xs[i]? = some x)
    (y : α) : (xs.push y)[i]? = some x := by
  have := (Array.getElem?_eq_some_iff.mp h).1
  rw [Array.getElem?_push, if_neg (by omega)]
  exact h

/-- A new scope keeps the forest. -/
theorem ForestInv.push (h : ForestInv scopes n) (hm : n ≤ m) (hs : NewScope scopes m s) :
    ForestInv (scopes.push s) m := by
  obtain ⟨preorder, scope_id, root_iff, depth, scope_owner⟩ := h
  obtain ⟨sid, parent_lt, sroot, sdepth, sowner⟩ := hs
  refine ⟨Preorder.push preorder s parent_lt, ?_, ?_, ?_, ?_⟩
  · grind
  · grind
  · intro i p x q hx hp hq
    have hlt : p < scopes.size := by
      rw [Array.getElem?_push] at hx
      split at hx
      · cases hx; exact parent_lt p hp
      · have hpar : parentIn? scopes i = some p := (parentIn?_of_scope hx).trans hp
        have := preorder i p hpar
        have := lt_size_of_parentIn? hpar
        omega
    rw [Array.getElem?_push, if_neg (by omega)] at hq
    grind
  · grind

/-- A new scope that is not one of a closure keeps the pairs. -/
theorem PairInv.push_scope (h : PairInv scopes closures n) (hm : n ≤ m) (hk : s.kind ≠ .closure)
    (hc : s.closure = none) : PairInv (scopes.push s) closures m := by
  obtain ⟨closure_iff, closure_of_scope, closure_id, closure_scope, closure_owner⟩ := h
  refine ⟨?_, ?_, closure_id, ?_, ?_⟩
  · grind
  · grind
  · intro c k hk
    obtain ⟨x, hx, hxc, hxp⟩ := closure_scope c k hk
    exact ⟨x, getElem?_push_of_some hx s, hxc, hxp⟩
  · intro c k hk
    exact Nat.lt_of_lt_of_le (closure_owner c k hk) hm

/-- A new scope of a closure together with its closure keeps the pairs. -/
theorem PairInv.push_closure (h : PairInv scopes closures n) {k : Closure}
    (hk : s.kind = .closure) (hc : s.closure = some closures.size) (hid : k.id = closures.size)
    (hscope : k.scope = scopes.size) (hdecl : s.parent = some k.declaredIn) (howner : k.owner < n) :
    PairInv (scopes.push s) (closures.push k) n := by
  obtain ⟨closure_iff, closure_of_scope, closure_id, closure_scope, closure_owner⟩ := h
  refine ⟨?_, ?_, ?_, ?_, ?_⟩
  · grind
  · intro i x c hx hxc
    rw [Array.getElem?_push] at hx
    split at hx
    · next hi =>
      cases hx
      cases hc.symm.trans hxc
      exact ⟨k, by rw [Array.getElem?_push, if_pos rfl], by rw [hscope, hi]⟩
    · obtain ⟨l, hl, hli⟩ := closure_of_scope i x c hx hxc
      exact ⟨l, getElem?_push_of_some hl k, hli⟩
  · grind
  · intro c l hl
    rw [Array.getElem?_push] at hl
    split at hl
    · next hi =>
      cases hl
      exact ⟨s, by rw [hscope, Array.getElem?_push, if_pos rfl], hi ▸ hc, hdecl⟩
    · obtain ⟨x, hx, hxc, hxp⟩ := closure_scope c l hl
      exact ⟨x, getElem?_push_of_some hx s, hxc, hxp⟩
  · grind

/-- What is at a position afterwards was there before, at the same place. -/
theorem samePlace_of_modify {c : Nat} {f : Closure → Closure}
    (hf : ∀ k, State.SamePlace k (f k)) {d : Nat} {l : Closure}
    (hl : (closures.modify c f)[d]? = some l) :
    ∃ k, closures[d]? = some k ∧ State.SamePlace k l := by
  rw [Array.getElem?_modify] at hl
  split at hl
  · obtain ⟨k, hk, rfl⟩ := Option.map_eq_some_iff.mp hl
    exact ⟨k, hk, hf k⟩
  · exact ⟨l, hl, ⟨rfl, rfl, rfl, rfl, rfl⟩⟩

/-- Closures that keep their places keep the pairs. -/
theorem PairInv.modify (h : PairInv scopes closures n) (c : Nat) {f : Closure → Closure}
    (hf : ∀ k, State.SamePlace k (f k)) : PairInv scopes (closures.modify c f) n := by
  obtain ⟨closure_iff, closure_of_scope, closure_id, closure_scope, closure_owner⟩ := h
  refine ⟨closure_iff, ?_, ?_, ?_, ?_⟩
  · intro i x d hx hxd
    obtain ⟨k, hk, hki⟩ := closure_of_scope i x d hx hxd
    rw [Array.getElem?_modify]
    split
    · exact ⟨f k, by simp [hk], (hf k).scope.trans hki⟩
    · exact ⟨k, hk, hki⟩
  · intro d l hl
    obtain ⟨k, hk, hkl⟩ := samePlace_of_modify hf hl
    exact hkl.id.trans (closure_id d k hk)
  · intro d l hl
    obtain ⟨k, hk, hkl⟩ := samePlace_of_modify hf hl
    rw [hkl.scope, hkl.declaredIn]
    exact closure_scope d k hk
  · intro d l hl
    obtain ⟨k, hk, hkl⟩ := samePlace_of_modify hf hl
    rw [hkl.owner]
    exact closure_owner d k hk

/-- The key under the next position below a scope is not that of a scope that is there: an older one
got a smaller position. -/
theorem KeyInv.key_ne {counts : Array Nat} (h : KeyInv scopes counts) {i p : Nat} {x q : Scope}
    {count : Nat} (hx : scopes[i]? = some x) (hxp : x.parent = some p) (hq : scopes[p]? = some q)
    (hcount : counts[p]? = some count) : x.key ≠ q.key ++ "/" ++ toString count := by
  obtain ⟨n, m, hm, hn, hxk⟩ := h.child i p x q hx hxp hq
  cases hcount.symm.trans hm
  rw [hxk]
  intro heq
  have := Text.toString_injective (String.append_right_inj _ |>.mp heq)
  omega

/-- A new scope below another, under the next position there, keeps the keys. -/
theorem KeyInv.push_child {counts : Array Nat} (h : KeyInv scopes counts) (hp : Preorder scopes)
    {p : Nat} {q : Scope} {count : Nat} (hs : s.parent = some p) (hq : scopes[p]? = some q)
    (hcount : counts[p]? = some count) (hkey : s.key = q.key ++ "/" ++ toString count) :
    KeyInv (scopes.push s) ((counts.modify p (· + 1)).push 0) := by
  have hsize := h.size
  have hlt := (Array.getElem?_eq_some_iff.mp hq).1
  have hne (i : Nat) (x : Scope) (hx : scopes[i]? = some x) (hxp : x.parent = some p) :
      x.key ≠ s.key := hkey ▸ h.key_ne hx hxp hq hcount
  -- The counts only grow, so that a number that was given out stays below its count.
  have hcounts (r : Nat) (m : Nat) (hm : counts[r]? = some m) :
      ∃ m', ((counts.modify p (· + 1)).push 0)[r]? = some m' ∧ m ≤ m' := by
    refine ⟨if p = r then m + 1 else m, getElem?_push_of_some ?_ 0, by split <;> omega⟩
    rw [Array.getElem?_modify]
    split <;> simp [hm]
  refine ⟨by simp [hsize], ?_, ?_⟩
  · intro i r x y hx hxr hy
    rw [Array.getElem?_push] at hx
    split at hx
    · cases hx
      cases hs.symm.trans hxr
      rw [Array.getElem?_push, if_neg (by omega), hq] at hy
      cases hy
      refine ⟨count, count + 1, getElem?_push_of_some ?_ 0, by omega, hkey⟩
      rw [Array.getElem?_modify, if_pos rfl, hcount]
      rfl
    · have hrlt : r < scopes.size := by
        have hpar : parentIn? scopes i = some r := (parentIn?_of_scope hx).trans hxr
        have := hp i r hpar
        have := lt_size_of_parentIn? hpar
        omega
      rw [Array.getElem?_push, if_neg (by omega)] at hy
      obtain ⟨n, m, hm, hn, hxk⟩ := h.child i r x y hx hxr hy
      obtain ⟨m', hm', hle⟩ := hcounts r m hm
      exact ⟨n, m', hm', by omega, hxk⟩
  · intro i j r x y hx hy hij hxr hyr
    rw [Array.getElem?_push] at hx hy
    -- Two children of one parent: a new one has a key that no older one has.
    split at hx
    · cases hx
      cases hs.symm.trans hxr
      rw [if_neg (by omega)] at hy
      exact (hne j y hy hyr).symm
    · split at hy
      · cases hy
        cases hs.symm.trans hyr
        exact hne i x hx hxr
      · exact h.sibling i j r x y hx hy hij hxr hyr

/-- A new scope without a parent keeps the keys. -/
theorem KeyInv.push_root {counts : Array Nat} (h : KeyInv scopes counts) (hp : Preorder scopes)
    (hs : s.parent = none) : KeyInv (scopes.push s) (counts.push 0) := by
  have hold (i r : Nat) (x : Scope) (hx : (scopes.push s)[i]? = some x) (hxr : x.parent = some r) :
      scopes[i]? = some x ∧ r < scopes.size := by
    rw [Array.getElem?_push] at hx
    split at hx
    · cases hx
      cases hs.symm.trans hxr
    · have hpar : parentIn? scopes i = some r := (parentIn?_of_scope hx).trans hxr
      have := hp i r hpar
      have := lt_size_of_parentIn? hpar
      exact ⟨hx, by omega⟩
  refine ⟨by simp [h.size], ?_, ?_⟩
  · intro i r x y hx hxr hy
    obtain ⟨hx, hr⟩ := hold i r x hx hxr
    rw [Array.getElem?_push, if_neg (by omega)] at hy
    obtain ⟨n, m, hm, hn, hxk⟩ := h.child i r x y hx hxr hy
    exact ⟨n, m, getElem?_push_of_some hm 0, hn, hxk⟩
  · intro i j r x y hx hy hij hxr hyr
    exact h.sibling i j r x y (hold i r x hx hxr).1 (hold j r y hy hyr).1 hij hxr hyr

/-- A new scope below another keeps the roots. -/
theorem RootInv.push_child {name : String} (h : RootInv scopes fns name)
    (hs : s.parent ≠ none) : RootInv (scopes.push s) fns name := by
  have hold (i : Nat) (x : Scope) (hx : (scopes.push s)[i]? = some x) (hxr : x.parent = none) :
      scopes[i]? = some x := by
    grind
  exact ⟨fun i x hx hxr => h.bound i x (hold i x hx hxr) hxr,
    fun i j x y hx hy hxr hyr => h.unique i j x y (hold i x hx hxr) (hold j y hy hyr) hxr hyr⟩

/-- A new scope without a parent is that of the current function, which has none yet. -/
theorem RootInv.push_root {name name' : String} (h : RootInv scopes fns name)
    (howner : ∀ (i : Nat) x, scopes[i]? = some x → x.owner < fns.size) (hs : s.owner = fns.size)
    (hkey : s.key = name') : RootInv (scopes.push s) fns name' := by
  refine ⟨?_, ?_⟩
  · intro i x hx hxr
    rw [Array.getElem?_push] at hx
    split at hx
    · cases hx
      exact .inr ⟨hs, hkey⟩
    · refine (h.bound i x hx hxr).imp id fun hnew => ?_
      exact absurd hnew.1 (Nat.ne_of_lt (howner i x hx))
  · intro i j x y hx hy _ _ hxo hyo
    have hlast (i : Nat) (x : Scope) (hx : (scopes.push s)[i]? = some x)
        (hxo : x.owner = fns.size) : i = scopes.size := by
      rw [Array.getElem?_push] at hx
      split at hx
      · assumption
      · exact absurd hxo (Nat.ne_of_lt (howner i x hx))
    rw [hlast i x hx hxo, hlast j y hy hyo]

/-- The end of the current function keeps the roots; the next one has none yet. -/
theorem RootInv.push_fn {name name' : String} (h : RootInv scopes fns name)
    (howner : ∀ (i : Nat) x, scopes[i]? = some x → x.owner < fns.size + 1) {f : Function}
    (hf : ∃ x, scopes[f.scope]? = some x ∧ x.parent = none ∧ x.owner = fns.size)
    (hname : f.name = name) : RootInv scopes (fns.push f) name' := by
  obtain ⟨r, hr, hrp, hro⟩ := hf
  refine ⟨?_, ?_⟩
  · intro i x hx hxr
    refine .inl ?_
    rcases h.bound i x hx hxr with ⟨g, hg, hgi, hgn⟩ | ⟨hxo, hxk⟩
    · exact ⟨g, getElem?_push_of_some hg f, hgi, hgn⟩
    · refine ⟨f, by rw [hxo, Array.getElem?_push, if_pos rfl], ?_, hname.trans hxk.symm⟩
      exact h.unique f.scope i r x hr hx hrp hxr hro hxo
  · intro i j x y hx _ _ _ hxo
    have hlt := howner i x hx
    simp only [hxo, Array.size_push] at hlt
    exact absurd hlt (Nat.lt_irrefl _)

/-- A new closure of the current function gets the next ordinal. -/
theorem OrdinalInv.push {count : Nat} (h : OrdinalInv closures n count) {k : Closure}
    (ho : k.owner = n) (hk : k.ordinal = count) :
    OrdinalInv (closures.push k) n (count + 1) := by
  obtain ⟨lt, ne⟩ := h
  refine ⟨?_, ?_⟩
  · intro c l hl hlo
    rw [Array.getElem?_push] at hl
    split at hl
    · cases hl
      omega
    · exact Nat.lt_succ_of_lt (lt c l hl hlo)
  · intro c d l l' hl hl' hcd hll
    rw [Array.getElem?_push] at hl hl'
    split at hl
    · cases hl
      rw [if_neg (by omega)] at hl'
      have := lt d l' hl' (hll.symm.trans ho)
      omega
    · split at hl'
      · cases hl'
        have := lt c l hl (hll.trans ho)
        omega
      · exact ne c d l l' hl hl' hcd hll

/-- The next function has no closures yet. -/
theorem OrdinalInv.next {count : Nat} (h : OrdinalInv closures n count)
    (howner : ∀ (c : Nat) k, closures[c]? = some k → k.owner < m) : OrdinalInv closures m 0 :=
  ⟨fun c k hk hko => absurd hko (Nat.ne_of_lt (howner c k hk)), h.ne⟩

/-- Closures that keep their places keep the ordinals. -/
theorem OrdinalInv.modify {count : Nat} (h : OrdinalInv closures n count) (c : Nat)
    {f : Closure → Closure} (hf : ∀ k, State.SamePlace k (f k)) :
    OrdinalInv (closures.modify c f) n count := by
  refine ⟨?_, ?_⟩
  · intro d l hl hlo
    obtain ⟨k, hk, hkl⟩ := samePlace_of_modify hf hl
    rw [hkl.ordinal]
    exact h.lt d k hk (hkl.owner.symm.trans hlo)
  · intro d e l l' hl hl' hde hll
    obtain ⟨k, hk, hkl⟩ := samePlace_of_modify hf hl
    obtain ⟨k', hk', hkl'⟩ := samePlace_of_modify hf hl'
    rw [hkl.ordinal, hkl'.ordinal]
    exact h.ne d e k k' hk hk' hde (by rw [← hkl.owner, ← hkl'.owner, hll])

end ClosureEnv.Binding
