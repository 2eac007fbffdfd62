import ClosureEnv.Proofs.Bound.Scoped
import ClosureEnv.Proofs.Fault.Lower
import ClosureEnv.Scope.Validation

/-!
# Looking around in a tree

What the searches in a well-bound tree find: the body that a scope belongs to (`bodyOf_spec`), the
closures on the way from one scope to another (`closuresBetween_spec`), and nothing to complain
about (`validate_ok`).
-/

namespace ClosureEnv.ScopeTree

/-- A scope that starts a body, and the scopes that belong to that body. -/
structure BodyAt (t : ScopeTree) (b s : ScopeId) : Prop where
  /-- The body is at or around the scope. -/
  aroundEq : AroundEq t.scopes b s
  /-- It is a body. -/
  isBody : ∃ x, t.scopes[b]? = some x ∧ x.isBody = true
  /-- No other body starts in between. -/
  innermost : ∀ z x, Around t.scopes b z → AroundEq t.scopes z s → t.scopes[z]? = some x →
    x.isBody = false

variable {t : ScopeTree} {holds : VarId → ClosureId → Prop}

/-- A scope that is there. -/
theorem scope_eq_ok {s : ScopeId} {x : Scope} : t.scope s = .ok x ↔ t.scopes[s]? = some x :=
  Lower.orInconsistent_eq_ok

/-- A variable that is there. -/
theorem var_eq_ok {v : VarId} {x : Variable} : t.var v = .ok x ↔ t.vars[v]? = some x :=
  Lower.orInconsistent_eq_ok

/-- A closure that is there. -/
theorem closure_eq_ok {c : ClosureId} {k : Closure} :
    t.closure c = .ok k ↔ t.closures[c]? = some k :=
  Lower.orInconsistent_eq_ok

/-- A function that is there. -/
theorem function_eq_ok {f : FnId} {x : Function} : t.function f = .ok x ↔ t.fns[f]? = some x :=
  Lower.orInconsistent_eq_ok

/-- The function that is found under a name is one of the source. -/
theorem source_of_find? {name : String} {f : Function}
    (h : t.fns.find? (fun f => f.name == name && !f.isSynthetic) = some f) :
    f ∈ t.fns ∧ f.isSynthetic = false := by
  have hf := Array.find?_some h
  rw [Bool.and_eq_true, Bool.not_eq_true'] at hf
  exact ⟨Array.mem_of_find?_eq_some h, hf.2⟩

/-- What holds of the two bodies of a scope: they are one. -/
theorem BodyAt.unique (hp : Preorder t.scopes) {a b s : Nat} (ha : t.BodyAt a s)
    (hb : t.BodyAt b s) : a = b := by
  obtain ⟨x, hx, hxb⟩ := ha.isBody
  obtain ⟨y, hy, hyb⟩ := hb.isBody
  rcases AroundEq.total hp ha.aroundEq hb.aroundEq with (h | h) | h
  · exact h
  · rw [ha.innermost b y h hb.aroundEq hy] at hyb
    cases hyb
  · rw [hb.innermost a x h ha.aroundEq hx] at hxb
    cases hxb

/-- A scope that is no body belongs to the body of its parent. -/
theorem BodyAt.of_parent (hp : Preorder t.scopes) {b s p : Nat} {x : Scope}
    (hx : t.scopes[s]? = some x) (hpar : x.parent = some p) (hno : x.isBody = false)
    (h : t.BodyAt b p) : t.BodyAt b s where
  aroundEq := .inr (around_of_parent hp ((parentIn?_of_scope hx).trans hpar) h.aroundEq)
  isBody := h.isBody
  innermost := by
    rintro z y hz (rfl | hzs) hy
    · cases hx.symm.trans hy
      exact hno
    · exact h.innermost z y hz (aroundEq_parent hp ((parentIn?_of_scope hx).trans hpar) hzs) hy

/-- A scope in a body around which there are only scopes of that body. -/
theorem BodyAt.of_aroundEq (hp : Preorder t.scopes) {b s z : Nat} (h : t.BodyAt b s)
    (hb : AroundEq t.scopes b z) (hz : AroundEq t.scopes z s) : t.BodyAt b z :=
  ⟨hb, h.isBody, fun y x hy hyz hx => h.innermost y x hy (hyz.trans hp hz) hx⟩

namespace WellBound

variable (h : t.WellBound holds)

include h

/-- The parent of a scope exists. -/
theorem parent_lt {s p : Nat} {x : Scope} (hx : t.scopes[s]? = some x) (hp : x.parent = some p) :
    p < s ∧ p < t.scopes.size := by
  have hlt := h.preorder s p ((parentIn?_of_scope hx).trans hp)
  exact ⟨hlt, Nat.lt_trans hlt (Array.getElem?_eq_some_iff.mp hx).1⟩

/-- The scope of a closure lies right below the one that the closure is declared in. -/
theorem parentIn?_closure {c : Nat} {k : Closure} (hk : t.closures[c]? = some k) :
    parentIn? t.scopes k.scope = some k.declaredIn := by
  obtain ⟨x, hx, -, hpar⟩ := h.closure_scope c k hk
  exact (parentIn?_of_scope hx).trans hpar

/-- Only closures have bodies with something around them. -/
theorem isBody_of_parent {s p : Nat} {x : Scope} (hx : t.scopes[s]? = some x)
    (hp : x.parent = some p) : x.isBody = true ↔ ∃ c, x.closure = some c := by
  have hnf : x.kind ≠ .function := by
    intro hk
    rw [(h.root_iff s x hx).mpr hk] at hp
    cases hp
  rw [← h.closure_iff s x hx]
  simp [Scope.isBody, hnf]

/-- A scope without a parent starts a body. -/
theorem isBody_of_root {s : Nat} {x : Scope} (hx : t.scopes[s]? = some x) (hp : x.parent = none) :
    x.isBody = true := by
  simp [Scope.isBody, (h.root_iff s x hx).mp hp]

/-- Nothing is around a function. -/
theorem not_around_function {f : Function} (hf : f ∈ t.fns) (o : ScopeId) :
    ¬ Around t.scopes o f.scope := by
  obtain ⟨n, hn⟩ := Array.mem_iff_getElem?.mp hf
  obtain ⟨-, -, x, hx, hkind⟩ := h.fn_scope n f hn
  intro ho
  obtain ⟨q, hq, -⟩ := (around_iff h.preorder).mp ho
  rw [parentIn?_of_scope hx, (h.root_iff _ x hx).mpr hkind] at hq
  cases hq

/-- Every scope belongs to a body. -/
theorem bodyOf_spec {s : Nat} (hs : s < t.scopes.size) : ∃ b, t.bodyOf s = .ok b ∧ t.BodyAt b s := by
  suffices key : ∀ (start s bound : Nat), s < bound → s < t.scopes.size →
      ∃ b, t.bodyFrom start bound s = .ok b ∧ t.BodyAt b s from
    key s s (t.scopes.size + 1) (Nat.lt_succ_of_lt hs) hs
  intro start s
  induction s using Nat.strongRecOn with
  | ind s ih =>
    intro bound hb hs
    obtain ⟨bound, rfl⟩ : ∃ k, bound = k + 1 := ⟨bound - 1, by omega⟩
    have hx : t.scopes[s]? = some t.scopes[s] := Array.getElem?_eq_getElem hs
    rw [bodyFrom, scope_eq_ok.mpr hx, Lower.ok_bind]
    by_cases hbody : t.scopes[s].isBody = true
    · rw [if_pos hbody]
      refine ⟨s, rfl, .inl rfl, ⟨_, hx, hbody⟩, fun z x hz hzs _ => ?_⟩
      exact absurd (hz.trans_eq h.preorder hzs) (Around.irrefl h.preorder)
    · rw [if_neg hbody]
      cases hpar : t.scopes[s].parent with
      | none => exact absurd (h.isBody_of_root hx hpar) hbody
      | some p =>
        obtain ⟨hlt, hsize⟩ := h.parent_lt hx hpar
        obtain ⟨b, hb, hat⟩ := ih p hlt bound (by omega) hsize
        exact ⟨b, hb, hat.of_parent h.preorder hx hpar (by simpa using hbody)⟩

/-- Past a scope, the closures on the way are that of the scope, if it has one, and those further
out. -/
theorem closure_between_iff {s p outer : Nat} {x : Scope} (hx : t.scopes[s]? = some x)
    (hpar : x.parent = some p) (hos : Around t.scopes outer s) (c : ClosureId) :
    (∃ k, t.closures[c]? = some k ∧ AroundEq t.scopes k.scope s ∧ Around t.scopes outer k.scope) ↔
      x.closure = some c ∨ ∃ k, t.closures[c]? = some k ∧ AroundEq t.scopes k.scope p ∧
        Around t.scopes outer k.scope := by
  have hpi := (parentIn?_of_scope hx).trans hpar
  constructor
  · rintro ⟨k, hk, hks | hks, hok⟩
    · obtain ⟨x', hx', hc, -⟩ := h.closure_scope c k hk
      rw [hks, hx] at hx'
      cases hx'
      exact .inl hc
    · exact .inr ⟨k, hk, aroundEq_parent h.preorder hpi hks, hok⟩
  · rintro (hc | ⟨k, hk, hkp, hok⟩)
    · obtain ⟨k, hk, hks⟩ := h.closure_of_scope s x c hx hc
      exact ⟨k, hk, .inl hks, hks ▸ hos⟩
    · exact ⟨k, hk, .inr (around_of_parent h.preorder hpi hkp), hok⟩

/-- The closures on the way from a scope to one at or around it. -/
theorem closuresBetween_spec {inner outer : Nat} (hi : inner < t.scopes.size)
    (ho : AroundEq t.scopes outer inner) :
    ∃ cs, t.closuresBetween inner outer = .ok cs ∧ ∀ c, c ∈ cs ↔
      ∃ k, t.closures[c]? = some k ∧ AroundEq t.scopes k.scope inner ∧
        Around t.scopes outer k.scope := by
  -- The walk upward, for any closures that were collected on the way so far.
  suffices key : ∀ (start s bound : Nat) (done : List ClosureId), s < bound → s < t.scopes.size →
      AroundEq t.scopes outer s →
      ∃ cs, t.closuresFrom start outer done bound s = .ok cs ∧ ∀ c, c ∈ cs ↔ c ∈ done ∨
        ∃ k, t.closures[c]? = some k ∧ AroundEq t.scopes k.scope s ∧
          Around t.scopes outer k.scope by
    simpa [closuresBetween] using key inner inner (t.scopes.size + 2) [] (by omega) hi ho
  intro start s
  induction s using Nat.strongRecOn with
  | ind s ih =>
    intro bound done hb hs ho
    obtain ⟨bound, rfl⟩ : ∃ k, bound = k + 1 := ⟨bound - 1, by omega⟩
    have hx : t.scopes[s]? = some t.scopes[s] := Array.getElem?_eq_getElem hs
    rw [closuresFrom]
    by_cases heq : s = outer
    · rw [if_pos (by simpa using heq)]
      refine ⟨done, rfl, fun c => ⟨.inl, ?_⟩⟩
      rintro (hc | ⟨k, hk, hks, hok⟩)
      · exact hc
      · subst heq
        exact absurd (hok.trans_eq h.preorder hks) (Around.irrefl h.preorder)
    · rw [if_neg (by simpa using heq), scope_eq_ok.mpr hx, Lower.ok_bind]
      have hos : Around t.scopes outer s := ho.resolve_left (Ne.symm heq)
      obtain ⟨p, hpar, hop⟩ := (around_iff h.preorder).mp hos
      rw [parentIn?_of_scope hx] at hpar
      simp only [hpar]
      obtain ⟨hlt, hsize⟩ := h.parent_lt hx hpar
      refine (ih p hlt bound _ (by omega) hsize hop).imp fun cs hcs =>
        ⟨hcs.1, fun c => (hcs.2 c).trans ?_⟩
      -- One step up adds the closure of the scope, if it has one.
      rw [h.closure_between_iff hx hpar hos]
      cases t.scopes[s].closure with
      | none => simp
      | some d => simp [or_assoc, eq_comm]

/-- A closure needs its free variables. -/
theorem needs_of_freeVars {c : ClosureId} {k : Closure} {v : VarId} (hk : t.closures[c]? = some k)
    (hv : v ∈ k.freeVars) : t.Needs c v := by
  obtain ⟨x, hx, hxk⟩ := h.free_var c k v hk hv
  exact ⟨k, k, x, hk, Array.mem_of_getElem? hk, hx, .inl rfl, hv,
    fun hkx => Around.irrefl h.preorder (hkx.trans_around h.preorder hxk)⟩

/-- The scopes of a well-bound tree pass their check. -/
theorem checkScope_ok {i : Nat} {s : Scope} (hs : t.scopes[i]? = some s) :
    t.checkScope i s = .ok () := by
  have hid := h.scope_id i s hs
  have hparent : t.checkParent s = .ok () := by
    unfold checkParent
    cases hpar : s.parent with
    | none => simp [require, (h.root_iff i s hs).mp hpar]
    | some p =>
      obtain ⟨hlt, hsize⟩ := h.parent_lt hs hpar
      have hq : t.scopes[p]? = some t.scopes[p] := Array.getElem?_eq_getElem hsize
      simp [require, hid, hlt, scope_eq_ok.mpr hq, h.depth i p s _ hs hpar hq, bind, Except.bind]
  have hclosure : t.checkClosureScope s = .ok () := by
    unfold checkClosureScope
    by_cases hk : s.kind = .closure
    · obtain ⟨c, hc⟩ := (h.closure_iff i s hs).mp hk
      obtain ⟨k, hkc, hks⟩ := h.closure_of_scope i s c hs hc
      rw [if_pos (by simpa using hk), hc]
      simp [orInconsistent, closure_eq_ok.mpr hkc, hks, hid, require, bind, Except.bind]
    · rw [if_neg (by simpa using hk)]
      rfl
  simp [checkScope, require, hid, hparent, hclosure, bind, Except.bind]

/-- Its closures pass theirs. -/
theorem checkClosure_ok {c : Nat} {k : Closure} (hk : t.closures[c]? = some k) :
    t.checkClosure k = .ok () := by
  obtain ⟨s, hs, -, hpar⟩ := h.closure_scope c k hk
  have hfree : k.freeVars.forM (t.checkFreeVar k) = .ok () := by
    refine Lower.forM_ok fun v hv => ?_
    obtain ⟨x, hx, hax⟩ := h.free_var c k v hk hv
    simp [checkFreeVar, var_eq_ok.mpr hx, isStrictAncestor, isStrictAncestorIn_iff.mpr hax,
      require, bind, Except.bind]
  simp [checkClosure, scope_eq_ok.mpr hs, hpar, hfree, require, bind, Except.bind]

/-- Its functions pass theirs. -/
theorem checkFunction_ok {n : Nat} {f : Function} (hf : t.fns[n]? = some f) :
    t.checkFunction f = .ok () := by
  obtain ⟨-, -, s, hs, hk⟩ := h.fn_scope n f hf
  simp [checkFunction, scope_eq_ok.mpr hs, hk, require, bind, Except.bind]

/-- A well-bound tree is valid. -/
theorem validate_ok : t.validate = .ok () := by
  have hscopes : t.scopes.toList.zipIdx.forM (fun x => t.checkScope x.2 x.1) = .ok () :=
    Lower.forM_ok fun x hx => h.checkScope_ok (by simpa [List.mem_zipIdx_iff_getElem?] using hx)
  have hvars : t.vars.toList.forM (fun v => discard (t.scope v.scope)) = .ok () := by
    refine Lower.forM_ok fun x hx => ?_
    obtain ⟨v, hv⟩ := List.mem_iff_getElem?.mp hx
    have hscope := (h.var_scope v x (by simpa using hv)).2
    rw [scope_eq_ok.mpr (Array.getElem?_eq_getElem hscope)]
    rfl
  have hclosures : t.closures.toList.forM t.checkClosure = .ok () := by
    refine Lower.forM_ok fun k hk => ?_
    obtain ⟨c, hc⟩ := List.mem_iff_getElem?.mp hk
    exact h.checkClosure_ok (by rwa [Array.getElem?_toList] at hc)
  have hfns : t.fns.toList.forM t.checkFunction = .ok () := by
    refine Lower.forM_ok fun f hf => ?_
    obtain ⟨i, hi⟩ := List.mem_iff_getElem?.mp hf
    exact h.checkFunction_ok (by rwa [Array.getElem?_toList] at hi)
  refine Lower.bind_eq_ok.mpr ⟨(), hscopes, ?_⟩
  rw [hvars, hclosures, hfns]
  rfl

end WellBound

end ClosureEnv.ScopeTree
