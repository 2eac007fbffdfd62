import ClosureEnv.Proofs.Binding.Growth
import Mathlib.Data.List.Basic

/-!
# Open scopes, variables and flow

What opening and closing a scope, declaring a variable and noting a use or a flow do to the parts of
the invariant that speak of variables, of open scopes and of what flows where.
-/

namespace ClosureEnv.Binding

variable {P : String → Prop} {scopes : Array Scope} {closures : Array Closure}
  {vars : Array Variable} {frames : List Frame} {stack : List ClosureId} {s : Scope}

/-- A new scope keeps what is known of the variables. -/
theorem VarInv.push_scope (h : VarInv P scopes vars closures) (hp : Preorder scopes)
    (hs : ∀ p : Nat, s.parent = some p → p < scopes.size)
    (hc : ∀ (c : Nat) k, closures[c]? = some k → k.scope < scopes.size) :
    VarInv P (scopes.push s) vars closures := by
  refine ⟨?_, h.var_name, ?_⟩
  · intro v x hx
    obtain ⟨hid, hlt⟩ := h.var_scope v x hx
    exact ⟨hid, by rw [Array.size_push]; exact Nat.lt_succ_of_lt hlt⟩
  · intro c k v hk hv
    obtain ⟨x, hx, hxk⟩ := h.free_var c k v hk hv
    exact ⟨x, hx, (around_push hp s hs (hc c k hk)).mpr hxk⟩

/-- A new closure mentions nothing yet. -/
theorem VarInv.push_closure (h : VarInv P scopes vars closures) {k : Closure}
    (hk : k.freeVars = []) : VarInv P scopes vars (closures.push k) := by
  refine ⟨h.var_scope, h.var_name, ?_⟩
  intro c l v hl hv
  rw [Array.getElem?_push] at hl
  split at hl
  · cases hl
    simp [hk] at hv
  · exact h.free_var c l v hl hv

/-- A new variable belongs to a scope that exists. -/
theorem VarInv.push_var (h : VarInv P scopes vars closures) {x : Variable} (hid : x.id = vars.size)
    (hx : x.scope < scopes.size) (hname : P x.name) : VarInv P scopes (vars.push x) closures := by
  refine ⟨?_, ?_, ?_⟩
  · intro v y hy
    rw [Array.getElem?_push] at hy
    split at hy
    · next hv =>
      cases hy
      exact ⟨hid.trans hv.symm, hx⟩
    · exact h.var_scope v y hy
  · intro v y hy
    rw [Array.getElem?_push] at hy
    split at hy
    · cases hy
      exact hname
    · exact h.var_name v y hy
  · intro c k v hk hv
    obtain ⟨y, hy, hyk⟩ := h.free_var c k v hk hv
    exact ⟨y, getElem?_push_of_some hy x, hyk⟩

/-- A closure may get free variables from around it. -/
theorem VarInv.modify (h : VarInv P scopes vars closures) (c : Nat) {f : Closure → Closure}
    (hf : ∀ k, closures[c]? = some k → (f k).scope = k.scope ∧ ∀ v ∈ (f k).freeVars,
      v ∈ k.freeVars ∨ ∃ x, vars[v]? = some x ∧ Around scopes x.scope k.scope) :
    VarInv P scopes vars (closures.modify c f) := by
  refine ⟨h.var_scope, h.var_name, ?_⟩
  intro d l v hl hv
  rw [Array.getElem?_modify] at hl
  split at hl
  · next hcd =>
    subst hcd
    obtain ⟨k, hk, rfl⟩ := Option.map_eq_some_iff.mp hl
    obtain ⟨hscope, hfree⟩ := hf k hk
    rw [hscope]
    exact (hfree v hv).elim (h.free_var c k v hk) id
  · exact h.free_var d l v hl hv

/-- A new scope leaves a chain alone. -/
theorem FrameChain.push {ids : List ScopeId} (h : FrameChain scopes ids) (s : Scope) :
    FrameChain (scopes.push s) ids := by
  fun_induction FrameChain scopes ids with
  | case1 => trivial
  | case2 i =>
    refine ⟨?_, ?_⟩
    · rw [parentIn?_push, if_neg (Nat.ne_of_lt h.2)]
      exact h.1
    · rw [Array.size_push]
      exact Nat.lt_succ_of_lt h.2
  | case3 i r rs ih =>
    refine ⟨?_, ih h.2⟩
    rw [parentIn?_push, if_neg (Nat.ne_of_lt (lt_size_of_parentIn? h.1))]
    exact h.1

/-- A chain without its innermost scope is one. -/
theorem FrameChain.tail {i : ScopeId} {ids : List ScopeId} (h : FrameChain scopes (i :: ids)) :
    FrameChain scopes ids := by
  cases ids with
  | nil => trivial
  | cons r rs => exact h.2

/-- The scopes of a chain exist. -/
theorem FrameChain.lt_size {ids : List ScopeId} (h : FrameChain scopes ids) :
    ∀ i ∈ ids, i < scopes.size := by
  fun_induction FrameChain scopes ids with
  | case1 => simp
  | case2 i => simpa using h.2
  | case3 i r rs ih =>
    intro j hj
    rcases List.mem_cons.mp hj with rfl | hj
    · exact lt_size_of_parentIn? h.1
    · exact ih h.2 j hj

/-- The scopes of a chain are the innermost one and those around it. -/
theorem FrameChain.mem_iff (hp : Preorder scopes) {i : ScopeId} {ids : List ScopeId}
    (h : FrameChain scopes (i :: ids)) {j : ScopeId} : j ∈ i :: ids ↔ AroundEq scopes j i := by
  induction ids generalizing i with
  | nil =>
    simp only [List.mem_singleton, AroundEq]
    refine ⟨.inl, fun hj => hj.elim id fun hj => ?_⟩
    obtain ⟨p, hpar, -⟩ := (around_iff hp).mp hj
    cases h.1.symm.trans hpar
  | cons r rs ih =>
    rw [List.mem_cons, ih h.2]
    refine or_congr_right ⟨around_of_parent hp h.1, aroundEq_parent hp h.1⟩

/-- Opening a scope below the innermost one. -/
theorem FrameInv.push (h : FrameInv scopes vars frames stack)
    (hs : s.parent = frames.head?.map Frame.scope) :
    FrameInv (scopes.push s) vars (⟨scopes.size, []⟩ :: frames) (s.closure.toList ++ stack) := by
  have hchain := h.chain.push s
  have hlt := h.chain.lt_size
  refine ⟨?_, ?_, ?_⟩
  · cases frames with
    | nil =>
      refine ⟨?_, by simp⟩
      rw [parentIn?_push, if_pos rfl, hs]
      rfl
    | cons f fs =>
      refine ⟨?_, hchain⟩
      rw [parentIn?_push, if_pos rfl, hs]
      rfl
  · intro f hf n v hv
    rcases List.mem_cons.mp hf with rfl | hf
    · simp at hv
    · exact h.names f hf n v hv
  · -- The scopes of the other frames are as they were, so that only the new one adds to the stack.
    have hrest : frames.filterMap (fun f => (scopes.push s)[f.scope]?.bind Scope.closure) =
        frames.filterMap fun f => scopes[f.scope]?.bind Scope.closure := by
      refine List.filterMap_congr fun f hf => ?_
      rw [Array.getElem?_push, if_neg (Nat.ne_of_lt (hlt _ (List.mem_map_of_mem hf)))]
    have hnew : (scopes.push s)[scopes.size]?.bind Scope.closure = s.closure := by simp
    rw [List.filterMap_cons, hnew, hrest, ← h.stack]
    cases s.closure <;> rfl

/-- Closing the innermost scope. -/
theorem FrameInv.pop {f : Frame} (h : FrameInv scopes vars (f :: frames) stack) :
    FrameInv scopes vars frames (stack.drop (scopes[f.scope]?.bind Scope.closure).toList.length) := by
  refine ⟨h.chain.tail, fun g hg => h.names g (List.mem_cons_of_mem f hg), ?_⟩
  rw [h.stack, List.filterMap_cons]
  cases scopes[f.scope]?.bind Scope.closure <;> simp

/-- Declaring a variable in the innermost scope. -/
theorem FrameInv.push_var {f : Frame} (h : FrameInv scopes vars (f :: frames) stack) {x : Variable}
    (hx : x.scope = f.scope) (name : String) :
    FrameInv scopes (vars.push x) ({ f with names := (name, vars.size) :: f.names } :: frames)
      stack := by
  refine ⟨h.chain, ?_, h.stack⟩
  have hold (g : Frame) (hg : g ∈ f :: frames) (n : String) (v : VarId) (hv : (n, v) ∈ g.names) :
      ∃ y, (vars.push x)[v]? = some y ∧ y.scope = g.scope := by
    obtain ⟨y, hy, hyg⟩ := h.names g hg n v hv
    exact ⟨y, getElem?_push_of_some hy x, hyg⟩
  intro g hg n v hv
  rcases List.mem_cons.mp hg with rfl | hg
  · rcases List.mem_cons.mp hv with heq | hv
    · cases heq
      exact ⟨x, by rw [Array.getElem?_push, if_pos rfl], hx⟩
    · exact hold f List.mem_cons_self n v hv
  · exact hold g (List.mem_cons_of_mem f hg) n v hv

/-- A source that exists still does when there is more. -/
theorem Source.InRange.mono {m n m' n' : Nat} (hm : m ≤ m') (hn : n ≤ n') {x : Source}
    (h : x.InRange m n) : x.InRange m' n' := by
  cases x with
  | closure c => exact Nat.lt_of_lt_of_le h hn
  | var v => exact Nat.lt_of_lt_of_le h hm

variable {varSources : Array (List Source)} {sinks : List Sink} {m n : Nat}

/-- A new closure keeps what is noted about flow. -/
theorem FlowInv.mono_closures (h : FlowInv m n varSources sinks) {n' : Nat} (hn : n ≤ n') :
    FlowInv m n' varSources sinks :=
  ⟨h.size, fun v xs hxs x hx => (h.stored v xs hxs x hx).mono (Nat.le_refl m) hn,
    fun sink hs x hx => (h.drained sink hs x hx).mono (Nat.le_refl m) hn⟩

/-- Nothing is stored into a new variable yet. -/
theorem FlowInv.push_var (h : FlowInv m n varSources sinks) :
    FlowInv (m + 1) n (varSources.push []) sinks := by
  refine ⟨by rw [Array.size_push, h.size], ?_, ?_⟩
  · intro v xs hxs x hx
    rw [Array.getElem?_push] at hxs
    split at hxs
    · cases hxs
      simp at hx
    · exact (h.stored v xs hxs x hx).mono (Nat.le_succ m) (Nat.le_refl n)
  · exact fun sink hs x hx => (h.drained sink hs x hx).mono (Nat.le_succ m) (Nat.le_refl n)

/-- Storing into a variable. -/
theorem FlowInv.store (h : FlowInv m n varSources sinks) (v : Nat) {sources : List Source}
    (hs : ∀ x ∈ sources, x.InRange m n) :
    FlowInv m n (varSources.modify v (· ++ sources)) sinks := by
  refine ⟨by rw [Array.size_modify, h.size], ?_, h.drained⟩
  intro w xs hxs x hx
  rw [Array.getElem?_modify] at hxs
  split at hxs
  · obtain ⟨ys, hys, rfl⟩ := Option.map_eq_some_iff.mp hxs
    rcases List.mem_append.mp hx with hx | hx
    · exact h.stored w ys hys x hx
    · exact hs x hx
  · exact h.stored w xs hxs x hx

/-- Noting a sink. -/
theorem FlowInv.drain (h : FlowInv m n varSources sinks) {sink : Sink}
    (hs : ∀ x ∈ sink.sources, x.InRange m n) : FlowInv m n varSources (sink :: sinks) := by
  refine ⟨h.size, h.stored, fun k hk => ?_⟩
  rcases List.mem_cons.mp hk with rfl | hk
  · exact hs
  · exact h.drained k hk

end ClosureEnv.Binding
