import ClosureEnv.Proofs.Binding.Enclosed
import ClosureEnv.Proofs.Graph.Closed

/-!
# What escapes

At the end of binding the flow between variables is closed: whatever some sources may stand for is
found from them (`mem_reach`), whatever reaches a sink escapes from the scope that the sink is
about, and escaping is closed under what escaping closures need (`escape_needs`).
-/

namespace ClosureEnv.Binding

open State ClosureEnv.Bound

variable {P : String → Prop} {u : String} {b F : State} {sources : List Source}

/-- The closures among some sources. -/
theorem mem_closures {c : ClosureId} : c ∈ Source.closures sources ↔ .closure c ∈ sources := by
  simp only [Source.closures, List.mem_filterMap]
  refine ⟨?_, fun h => ⟨_, h, rfl⟩⟩
  rintro ⟨x, hx, hxc⟩
  cases x <;> simp_all

/-- The variables among some sources. -/
theorem mem_vars {v : VarId} : v ∈ Source.vars sources ↔ .var v ∈ sources := by
  simp only [Source.vars, List.mem_filterMap]
  refine ⟨?_, fun h => ⟨_, h, rfl⟩⟩
  rintro ⟨x, hx, hxc⟩
  cases x <;> simp_all

/-- What is stored into a variable is in range. -/
theorem State.Inv.sourcesOf_inRange (h : b.Inv P) {v : Nat} {x : Source} (hx : x ∈ b.sourcesOf v) :
    x.InRange b.vars.size b.closures.size := by
  rcases hv : b.varSources[v]? with _ | xs
  · simp [sourcesOf, hv] at hx
  · exact h.flow.stored v xs hv x (by simpa [sourcesOf, hv] using hx)

/-- Sources stand for what the closures among them are and what the variables among them hold. -/
theorem State.Inv.mem_reach (h : b.Inv P) (hs : ∀ x ∈ sources, x.InRange b.vars.size b.closures.size)
    {c : ClosureId} (hc : Reaches b.Holds sources c) : c ∈ b.reach sources := by
  have hnext : ∀ x < b.vars.size, ∀ y ∈ Source.vars (b.sourcesOf x), y < b.vars.size :=
    fun x _ y hy => h.sourcesOf_inRange (mem_vars.mp hy)
  have hroots : ∀ x ∈ Source.vars sources, x < b.vars.size := fun x hx => hs _ (mem_vars.mp hx)
  simp only [reach, List.mem_append, List.mem_flatMap, mem_closures]
  rcases hc with hc | ⟨v, hv, hc⟩
  · exact .inl hc
  · have hvr : v ∈ Graph.reachable (fun v => Source.vars (b.sourcesOf v)) b.vars.size
        (Source.vars sources) := Graph.mem_reachable_of_mem (mem_vars.mpr hv)
    simp only [Holds, holds, reach, List.mem_append, List.mem_flatMap, mem_closures] at hc
    rcases hc with hc | ⟨w, hw, hc⟩
    · exact .inr ⟨v, hvr, hc⟩
    · refine .inr ⟨w, ?_, hc⟩
      refine Graph.of_mem_reachable (S := fun w => w ∈ Graph.reachable
        (fun v => Source.vars (b.sourcesOf v)) b.vars.size (Source.vars sources)) ?_ ?_ hw
      · exact fun x hx => Graph.mem_reachable_of_mem_next hroots hnext hvr hx
      · exact fun x hx y hy => Graph.mem_reachable_of_mem_next hroots hnext hx hy

/-- What sources stand for are closures. -/
theorem State.Inv.lt_of_mem_reach (h : b.Inv P)
    (hs : ∀ x ∈ sources, x.InRange b.vars.size b.closures.size) {c : ClosureId}
    (hc : c ∈ b.reach sources) : c < b.closures.size := by
  simp only [reach, List.mem_append, List.mem_flatMap, mem_closures] at hc
  rcases hc with hc | ⟨w, -, hc⟩
  · exact hs _ hc
  · exact h.sourcesOf_inRange hc

/-- What is stored into a variable is among what it may hold. -/
theorem State.Inv.mayHold (h : b.Inv P) {v : Nat} (hs : ∀ x ∈ sources, x ∈ b.sourcesOf v) :
    MayHold b.Holds v sources := by
  intro c hc
  refine h.mem_reach (fun x => h.sourcesOf_inRange) ?_
  rcases hc with hc | ⟨w, hw, hc⟩
  · exact .inl (hs _ hc)
  · exact .inr ⟨w, hs _ hw, hc⟩

/-- What a closure needs, as the search for escaping closures has it. -/
theorem State.Inv.mem_needs (h : b.Inv P) {c : Nat} {v : VarId} :
    v ∈ b.needs c ↔ (b.finish u).Needs c v := by
  rw [needs_finish_iff]
  unfold needs
  rcases hc : b.closures[c]? with _ | outer
  · simp
  · simp only [List.mem_filter, List.mem_flatMap, Array.mem_toList_iff, Option.some.injEq,
      exists_and_left, Bool.not_eq_true', Bool.or_eq_false_iff, Bool.or_eq_true, beq_iff_eq,
      isStrictAncestorIn_iff, AroundEq, exists_eq_left']
    constructor
    · rintro ⟨⟨inner, ⟨hi, hin⟩, hv⟩, hne, hout⟩
      obtain ⟨d, hd⟩ := Array.mem_iff_getElem?.mp hi
      obtain ⟨x, hx, -⟩ := h.vars.free_var d inner v hd hv
      refine ⟨inner, hi, x, hx, hin.imp Eq.symm id, hv, ?_⟩
      simp only [hx, Option.getD_some] at hne hout
      -- The two tests on the variable's scope are the two ways of being around or in the closure.
      rintro (heq | har)
      · simp [heq] at hne
      · rw [isStrictAncestorIn_iff.mpr har] at hout
        simp at hout
    · rintro ⟨inner, hi, x, hx, hin, hv, hout⟩
      refine ⟨⟨inner, ⟨hi, hin.imp Eq.symm id⟩, hv⟩, ?_⟩
      simp only [hx, Option.getD_some]
      refine ⟨?_, ?_⟩
      · simpa using fun heq => hout (.inl heq.symm)
      · rw [← Bool.not_eq_true, isStrictAncestorIn_iff]
        exact fun har => hout (.inr har)

/-- Only variables that exist hold something. -/
theorem State.Inv.lt_of_holds (h : b.Inv P) {v : Nat} {c : ClosureId} (hc : c ∈ b.holds v) :
    c < b.closures.size :=
  h.lt_of_mem_reach (fun _ => h.sourcesOf_inRange) hc

/-- What a sink lets escape are closures. -/
theorem State.Inv.lt_of_drained (h : b.Inv P) {sink : Sink} (hs : sink ∈ b.sinks) {c : ClosureId}
    (hc : c ∈ b.drained sink) : c < b.closures.size := by
  have hrange := h.flow.drained sink hs
  cases sink with
  | escape sources => exact h.lt_of_mem_reach hrange hc
  | within s sources => exact h.lt_of_mem_reach hrange (List.mem_filter.mp hc).1
  | below s sources => exact h.lt_of_mem_reach hrange (List.mem_filter.mp hc).1

/-- The search for escaping closures marks them. -/
theorem State.Inv.escaping_iff (h : b.Inv P) {c : Nat} (hc : c < b.closures.size) :
    (b.finish u).Escaping c ↔ c ∈ b.escaping := by
  have hk := Array.getElem?_eq_getElem hc
  have hid := h.pairs.closure_id c _ hk
  simp only [ScopeTree.Escaping, closure_finish hk, Option.some.injEq, exists_eq_left']
  rw [List.contains_iff_mem, hid]

/-- An escaping closure is one of those that were bound. -/
theorem State.lt_of_escaping {c : Nat} (hc : (b.finish u).Escaping c) : c < b.closures.size := by
  obtain ⟨k, hk, -⟩ := hc
  obtain ⟨l, hl, -⟩ := closure_finish_iff.mp hk
  exact (Array.getElem?_eq_some_iff.mp hl).1

/-- What a sink lets escape does. -/
theorem State.Inv.escaping_of_drained (h : b.Inv P) {sink : Sink} (hs : sink ∈ b.sinks)
    {c : ClosureId} (hc : c ∈ b.drained sink) : (b.finish u).Escaping c := by
  refine (h.escaping_iff (h.lt_of_drained hs hc)).mpr ?_
  exact Graph.mem_reachable_of_mem (List.mem_flatMap.mpr ⟨sink, hs, hc⟩)

/-- What a variable may hold escapes if an escaping closure needs the variable. -/
theorem State.Inv.escape_needs (h : b.Inv P) {c : Nat} {v : VarId} {d : ClosureId}
    (hc : (b.finish u).Escaping c) (hv : (b.finish u).Needs c v) (hd : b.Holds v d) :
    (b.finish u).Escaping d := by
  rw [h.escaping_iff (lt_of_escaping hc)] at hc
  refine (h.escaping_iff (h.lt_of_holds hd)).mpr ?_
  refine Graph.mem_reachable_of_mem_next ?_ ?_ hc
    (List.mem_flatMap.mpr ⟨v, h.mem_needs.mpr hv, hd⟩)
  · intro x hx
    obtain ⟨sink, hs, hx⟩ := List.mem_flatMap.mp hx
    exact h.lt_of_drained hs hx
  · intro x _ y hy
    obtain ⟨w, -, hy⟩ := List.mem_flatMap.mp hy
    exact h.lt_of_holds hy

/-- Whatever is drained escapes. -/
theorem State.Inv.allEscape (h : b.Inv P) (hs : .escape sources ∈ b.sinks) :
    AllEscape (b.finish u) b.Holds sources :=
  fun _ hc => h.escaping_of_drained hs (h.mem_reach (h.flow.drained _ hs) hc)

/-- Whatever leaves a scope from inside it escapes. -/
theorem State.Inv.mayLeave (h : b.Inv P) {s : Nat} (hs : .within s sources ∈ b.sinks) :
    MayLeave (b.finish u) b.Holds s sources := by
  intro c k hc hk har
  refine h.escaping_of_drained hs (List.mem_filter.mpr ⟨h.mem_reach (h.flow.drained _ hs) hc, ?_⟩)
  have hdecl : b.declaredIn c = k.declaredIn := by
    obtain ⟨l, hl, rfl⟩ := closure_finish_iff.mp hk
    simp [declaredIn, hl]
  rw [hdecl, Bool.or_eq_true, beq_iff_eq, isStrictAncestorIn_iff]
  exact har.imp Eq.symm id

/-- Whatever is stored into a variable from below its scope escapes. -/
theorem State.Inv.mayRise (h : b.Inv P) {v : Nat} {x : Variable} (hx : b.vars[v]? = some x)
    (hs : .below x.scope sources ∈ b.sinks) : MayRise (b.finish u) b.Holds v sources := by
  intro c k y hc hk hy har
  cases (show b.vars[v]? = some y from hy).symm.trans hx
  refine h.escaping_of_drained hs (List.mem_filter.mpr ⟨h.mem_reach (h.flow.drained _ hs) hc, ?_⟩)
  have hdecl : b.declaredIn c = k.declaredIn := by
    obtain ⟨l, hl, rfl⟩ := closure_finish_iff.mp hk
    simp [declaredIn, hl]
  rw [hdecl, isStrictAncestorIn_iff]
  exact har

end ClosureEnv.Binding
