import ClosureEnv.Proofs.Binding.Least
import ClosureEnv.Proofs.Plan.Captures

/-!
# The analysis of captures is exact

What the analysis says of a tree is told here by the scopes and by the free variables of closures
alone (`Captures.Exact`), with no mention of the ways that it walks. For the tree of a module it
succeeds, and what it says that a closure needs is what binding took the closure to need when it
looked for those that escape (`analyze_exact`): there two scopes are compared at a time, here every
scope is visited on the way up.
-/

namespace ClosureEnv

variable {t : ScopeTree} {holds : VarId → ClosureId → Prop}

/-- The captures of a tree. -/
structure Captures.Exact (t : ScopeTree) (a : Captures) : Prop where
  /-- A closure needs the variables declared around it that are free in it or in a closure nested in
  it. -/
  needs : ∀ c v, v ∈ a.needs c ↔ ∃ outer inner x, t.closures[c]? = some outer ∧
    inner ∈ t.closures ∧ AroundEq t.scopes outer.scope inner.scope ∧ v ∈ inner.freeVars ∧
    t.vars[v]? = some x ∧ Around t.scopes x.scope outer.scope
  /-- The users of a variable are the closures that need it. -/
  users : ∀ v c, c ∈ a.users v ↔ v ∈ a.needs c
  /-- A variable is captured if some closure needs it. -/
  captured : ∀ v, v ∈ a.captured ↔ ∃ c, v ∈ a.needs c
  /-- It escapes if some user does. -/
  escapes : ∀ v, a.escapes v = true ↔ ∃ k ∈ t.closures, k.escapes = true ∧ k.id ∈ a.users v
  /-- A scope forwards the variables that are free in a closure on whose way to them it lies. -/
  forwardedVars : ∀ s v, v ∈ a.forwardedVars s ↔
    ∃ k ∈ t.closures, v ∈ k.freeVars ∧ t.OnWay k v s
  /-- The scopes that forward are those that forward some variable. -/
  forwarding : ∀ s, s ∈ a.forwarding ↔ ∃ v, v ∈ a.forwardedVars s
  /-- A scope forwards to an escaping closure if it lies on the way from one to something that it
  needs. -/
  forwardsEscaping : ∀ s, a.forwardsEscaping s = true ↔
    ∃ k ∈ t.closures, k.escapes = true ∧ ∃ v ∈ a.needs k.id, t.OnWay k v s
  /-- Such a scope is among those that forward. -/
  forwarding_of_escaping : ∀ s, a.forwardsEscaping s = true → s ∈ a.forwarding
  /-- Each variable that a closure needs is listed with the closure; it is direct if the closure
  itself mentions it. -/
  mem_captures : ∀ x, x ∈ a.captures t ↔ ∃ k y, t.closures[x.closure]? = some k ∧
    t.vars[x.var]? = some y ∧ x.var ∈ a.needs x.closure ∧ x.declaredIn = y.scope ∧
    (x.isDirect = true ↔ x.var ∈ k.freeVars) ∧ x.escapes = a.escapes x.var
  /-- They are listed by closure and then by variable, each once. -/
  sorted : (a.captures t).Pairwise fun x y =>
    x.closure < y.closure ∨ x.closure = y.closure ∧ x.var < y.var

namespace Captures.Traced

variable {a : Captures} (ha : a.Traced t)

include ha

/-- The users of a variable. -/
theorem mem_users_iff (h : t.WellBound holds) (v : VarId) (c : ClosureId) :
    c ∈ a.users v ↔ t.Needs c v := by
  rw [h.needs_iff_step]
  simp only [Captures.users, SortedSet.mem_ofList, List.mem_filterMap, ha.mem_steps]
  refine exists_congr fun s => and_congr_right fun _ => ?_
  by_cases hv : s.var = v <;> simp [hv]

/-- The variables that a scope forwards. -/
theorem mem_forwardedVars_iff (s : ScopeId) (v : VarId) : v ∈ a.forwardedVars s ↔
    ∃ k ∈ t.closures, v ∈ k.freeVars ∧ t.OnWay k v s := by
  simp only [Captures.forwardedVars, SortedSet.mem_ofList, List.mem_filterMap, ha.mem_steps]
  constructor
  · rintro ⟨x, ⟨k, hk, hv, hway, -⟩, hx⟩
    obtain ⟨rfl, rfl⟩ : x.scope = s ∧ x.var = v := by simpa using hx
    exact ⟨k, hk, hv, hway⟩
  · rintro ⟨k, hk, hv, hway⟩
    exact ⟨⟨v, s, t.scopes[s]?.bind Scope.closure⟩, ⟨k, hk, hv, hway, rfl⟩, by simp⟩

omit ha in
/-- The scopes that forward. -/
theorem mem_forwarding_iff (s : ScopeId) : s ∈ a.forwarding ↔ ∃ v, v ∈ a.forwardedVars s := by
  simp only [Captures.forwarding, Captures.forwardedVars, SortedSet.mem_ofList, List.mem_map,
    List.mem_filterMap]
  constructor
  · rintro ⟨x, hx, rfl⟩
    exact ⟨x.var, x, hx, by simp⟩
  · rintro ⟨v, x, hx, hv⟩
    obtain ⟨rfl, -⟩ : x.scope = s ∧ x.var = v := by simpa using hv
    exact ⟨x, hx, rfl⟩

/-- A scope that forwards to an escaping closure forwards. -/
theorem mem_forwarding_of_forwardsEscaping (h : t.WellBound holds) {s : ScopeId}
    (hs : a.forwardsEscaping s = true) : s ∈ a.forwarding := by
  rw [Captures.forwardsEscaping, List.contains_iff_mem, ha.mem_escapingScopes] at hs
  obtain ⟨k, hk, -, v, hn, x, hx, hsk, hxs⟩ := hs
  obtain ⟨c, hc⟩ := Array.mem_iff_getElem?.mp hk
  obtain ⟨outer, inner, -, ho, hi, -, hv, hoi, -⟩ := h.needs_iff.mp hn
  rw [h.closure_id c k hc] at ho
  cases hc.symm.trans ho
  exact (mem_forwarding_iff s).mpr ⟨v, (ha.mem_forwardedVars_iff s v).mpr
    ⟨inner, hi, hv, x, hx, hsk.trans h.preorder hoi, hxs⟩⟩

/-- The captures that are listed. -/
theorem mem_captures_iff (h : t.WellBound holds) (x : Capture) :
    x ∈ a.captures t ↔ ∃ k y, t.closures[x.closure]? = some k ∧ t.vars[x.var]? = some y ∧
      x.var ∈ a.needs x.closure ∧ x.declaredIn = y.scope ∧
      (x.isDirect = true ↔ x.var ∈ k.freeVars) ∧ x.escapes = a.escapes x.var := by
  have hsound := ha.sound h
  simp only [Captures.captures, List.mem_flatMap, List.mem_map, Array.mem_toList_iff]
  constructor
  · rintro ⟨k, hk, v, hv, rfl⟩
    obtain ⟨c, hc⟩ := Array.mem_iff_getElem?.mp hk
    cases h.closure_id c k hc
    obtain ⟨-, y, -, hy⟩ := h.exists_of_needs ((hsound.needs _ v).mp hv)
    exact ⟨k, y, hc, hy, hv, by simp [hy], by simp, rfl⟩
  · rintro ⟨k, y, hk, hy, hv, hin, hdirect, hesc⟩
    refine ⟨k, Array.mem_of_getElem? hk, x.var, by rwa [h.closure_id _ k hk], ?_⟩
    have hd : x.isDirect = k.freeVars.contains x.var := by
      rw [Bool.eq_iff_iff, hdirect, List.contains_iff_mem]
    rw [hy, h.closure_id _ k hk, Option.getD_some, ← hin, ← hd, ← hesc]

omit ha in
/-- They are listed in order. -/
theorem captures_sorted (h : t.WellBound holds) : (a.captures t).Pairwise fun x y =>
    x.closure < y.closure ∨ x.closure = y.closure ∧ x.var < y.var := by
  rw [Captures.captures, List.pairwise_flatMap]
  constructor
  · intro k _
    rw [List.pairwise_map]
    exact (SortedSet.pairwise_ofList (α := VarId) _).imp fun hlt =>
      .inr ⟨rfl, Nat.compare_eq_lt.mp hlt⟩
  · rw [List.pairwise_iff_getElem]
    intro i j hi hj hij x hx y hy
    obtain ⟨v, -, rfl⟩ := List.mem_map.mp hx
    obtain ⟨w, -, rfl⟩ := List.mem_map.mp hy
    left
    have hid {n : Nat} (hn : n < t.closures.toList.length) : t.closures.toList[n].id = n :=
      h.closure_id n _ (by simp)
    simpa only [hid] using hij

/-- What the analysis says of a well-bound tree is exact. -/
theorem exact (h : t.WellBound holds) : a.Exact t := by
  have hsound := ha.sound h
  exact
    { needs := fun c v => by
        rw [hsound.needs, h.needs_iff]
        constructor
        · rintro ⟨outer, inner, x, ho, hi, hx, hv, hoi, hxo⟩
          exact ⟨outer, inner, x, ho, hi, hoi, hv, hx, hxo⟩
        · rintro ⟨outer, inner, x, ho, hi, hoi, hv, hx, hxo⟩
          exact ⟨outer, inner, x, ho, hi, hx, hv, hoi, hxo⟩
      users := fun v c => by rw [ha.mem_users_iff h, hsound.needs]
      captured := fun v => by simp only [hsound.captured, hsound.needs]
      escapes := fun v => by
        rw [Captures.escapes, List.contains_iff_mem, ha.mem_escapingVars]
        simp only [ha.mem_users_iff h]
      forwardedVars := ha.mem_forwardedVars_iff
      forwarding := mem_forwarding_iff
      forwardsEscaping := fun s => by
        rw [Captures.forwardsEscaping, List.contains_iff_mem, ha.mem_escapingScopes]
        simp only [hsound.needs]
      forwarding_of_escaping := fun s => ha.mem_forwarding_of_forwardsEscaping h
      mem_captures := ha.mem_captures_iff h
      sorted := captures_sorted h }

end Captures.Traced

/-- The analysis of the tree of a module succeeds and is exact, and closures need what binding took
them to need. -/
theorem analyze_exact {unit : String} {m : Syntax.Module} {t : ScopeTree}
    (ht : bindModule m unit = .ok t) : ∃ a b, Captures.analyze t = .ok a ∧ a.Exact t ∧
      Binding.bindState m = .ok b ∧ t = b.finish unit ∧ ∀ c v, v ∈ a.needs c ↔ v ∈ b.needs c := by
  obtain ⟨holds, h⟩ := wellBound_of_bindModule ht
  obtain ⟨a, ha, htraced⟩ := Captures.analyze_traced h
  unfold bindModule at ht
  cases hb : Binding.bindState m with
  | error e => rw [hb] at ht; cases ht
  | ok b =>
    rw [hb] at ht
    cases ht
    have hinv := (Binding.bindState_spec (u := unit) m.named_true hb).inv
    exact ⟨a, b, ha, htraced.exact h, rfl, rfl, fun c v =>
      ((htraced.sound h).needs c v).trans hinv.mem_needs.symm⟩

/-- So it is for a source with a closure. -/
theorem analyze_exact_captureSource : ∃ t a b, bindModule Syntax.captureSource "u" = .ok t ∧
    Captures.analyze t = .ok a ∧ a.Exact t ∧ Binding.bindState Syntax.captureSource = .ok b ∧
      t = b.finish "u" ∧ ∀ c v, v ∈ a.needs c ↔ v ∈ b.needs c := by
  obtain ⟨t, ht⟩ := exists_captureTree
  obtain ⟨a, b, h⟩ := analyze_exact ht
  exact ⟨t, a, b, ht, h⟩

end ClosureEnv
