import ClosureEnv.Proofs.Binding.Source
import ClosureEnv.Proofs.Fault.Lower
import Mathlib.Order.Bounds.Basic

/-!
# Escape hints are the least solution

What variables hold and which closures escape is given by rules that speak of the sources and the
sinks that binding notes (`State.HoldRules`, `State.EscapeRules`). The searches at the end of
binding find what the rules demand and nothing else: `finish_leastEscapes` says that they end in the
least solution of the one and then of the other.
-/

namespace ClosureEnv.Binding

open ClosureEnv.Bound

namespace State

variable (b : State)

/-- The rules for what variables hold. -/
structure HoldRules (holds : VarId → ClosureId → Prop) : Prop where
  /-- A variable holds the closures among its sources. -/
  closure : ∀ v c, .closure c ∈ b.sourcesOf v → holds v c
  /-- It holds what the variables among its sources hold. -/
  var : ∀ v w c, .var w ∈ b.sourcesOf v → holds w c → holds v c

/-- A closure needs a variable that it or a closure nested in it mentions and that is declared
around it. -/
def NeedsVar (c : ClosureId) (v : VarId) : Prop :=
  ∃ outer inner x, b.closures[c]? = some outer ∧ inner ∈ b.closures ∧ b.vars[v]? = some x ∧
    AroundEq b.scopes outer.scope inner.scope ∧ v ∈ inner.freeVars ∧
    Around b.scopes x.scope outer.scope

/-- The rules for which closures escape, given what variables hold. -/
structure EscapeRules (holds : VarId → ClosureId → Prop) (escapes : ClosureId → Prop) : Prop where
  /-- Whatever reaches some sinks escapes. -/
  escape : ∀ sources c, .escape sources ∈ b.sinks → Reaches holds sources c → escapes c
  /-- What reaches others escapes if it is declared in their scope or below. -/
  within : ∀ s sources c k, .within s sources ∈ b.sinks → Reaches holds sources c →
    b.closures[c]? = some k → AroundEq b.scopes s k.declaredIn → escapes c
  /-- What reaches the rest escapes if it is declared strictly below their scope. -/
  below : ∀ s sources c k, .below s sources ∈ b.sinks → Reaches holds sources c →
    b.closures[c]? = some k → Around b.scopes s k.declaredIn → escapes c
  /-- What is held by a variable that an escaping closure needs escapes. -/
  need : ∀ c v d, escapes c → b.NeedsVar c v → holds v d → escapes d

variable {b} {P : String → Prop} {u : String} {sources : List Source} {c : ClosureId}

namespace Inv

variable (h : b.Inv P)

include h

/-- The rules agree with the search on what a closure needs. -/
theorem needsVar_iff {v : VarId} : b.NeedsVar c v ↔ v ∈ b.needs c := by
  have hp := h.forest.preorder
  rw [h.mem_needs (u := ""), needs_finish_iff]
  constructor
  · rintro ⟨outer, inner, x, ho, hi, hx, hoi, hv, hxo⟩
    exact ⟨outer, inner, x, ho, hi, hx, hoi, hv,
      fun hox => Around.irrefl hp (hxo.trans_eq hp hox)⟩
  · rintro ⟨outer, inner, x, ho, hi, hx, hoi, hv, hno⟩
    obtain ⟨d, hd⟩ := Array.mem_iff_getElem?.mp hi
    obtain ⟨y, hy, hyi⟩ := h.vars.free_var d inner v hd hv
    cases hx.symm.trans hy
    exact ⟨outer, inner, x, ho, hi, hx, hoi, hv, (AroundEq.total hp hoi (.inr hyi)).resolve_left hno⟩

omit h in
/-- Only what follows from the rules is found from some sources. -/
theorem reaches_of_mem_reach {holds : VarId → ClosureId → Prop} (hr : b.HoldRules holds)
    (hc : c ∈ b.reach sources) : Reaches holds sources c := by
  simp only [State.reach, List.mem_append, List.mem_flatMap, mem_closures] at hc
  rcases hc with hc | ⟨w, hw, hc⟩
  · exact .inl hc
  -- whatever a variable holds that the search comes to, a variable among the sources holds
  have hcome : ∀ d, holds w d → ∃ v, .var v ∈ sources ∧ holds v d := by
    refine Graph.of_mem_reachable (S := fun w => ∀ d, holds w d → ∃ v, .var v ∈ sources ∧ holds v d)
      (fun v hv d hd => ⟨v, mem_vars.mp hv, hd⟩) (fun x hx y hy d hd => ?_) hw
    exact hx d (hr.var x y d (mem_vars.mp hy) hd)
  exact .inr (hcome c (hr.closure w c hc))

omit h in
/-- Only what follows from the rules is found in a variable. -/
theorem holds_of_rules {holds : VarId → ClosureId → Prop} (hr : b.HoldRules holds) {v : VarId}
    (hc : b.Holds v c) : holds v c := by
  rcases reaches_of_mem_reach hr hc with hc | ⟨w, hw, hc⟩
  · exact hr.closure v c hc
  · exact hr.var v w c hw hc

/-- What variables are found to hold is the least that the rules allow. -/
theorem isLeast_holds : IsLeast {holds | b.HoldRules holds} b.Holds := by
  refine ⟨⟨fun v c hc => ?_, fun v w c hw hc => ?_⟩, fun holds hr v c => holds_of_rules hr⟩
  · exact h.mem_reach (fun _ => h.sourcesOf_inRange) (.inl hc)
  · exact h.mem_reach (fun _ => h.sourcesOf_inRange) (.inr ⟨w, hw, hc⟩)

omit h in
/-- What a sink lets escape follows from the rules. -/
theorem escapes_of_drained {escapes : ClosureId → Prop} (hr : b.HoldRules b.Holds)
    (he : b.EscapeRules b.Holds escapes) {sink : Sink} (hs : sink ∈ b.sinks)
    (hlt : c < b.closures.size) (hc : c ∈ b.drained sink) : escapes c := by
  have hk := Array.getElem?_eq_getElem hlt
  have hdecl : b.declaredIn c = b.closures[c].declaredIn := by
    rw [State.declaredIn, hk, Option.getD_some]
  cases sink with
  | escape sources => exact he.escape sources c hs (reaches_of_mem_reach hr hc)
  | within s sources =>
    obtain ⟨hc, hin⟩ := List.mem_filter.mp hc
    rw [hdecl, Bool.or_eq_true, beq_iff_eq, isStrictAncestorIn_iff] at hin
    exact he.within s sources c _ hs (reaches_of_mem_reach hr hc) hk (hin.imp Eq.symm id)
  | below s sources =>
    obtain ⟨hc, hin⟩ := List.mem_filter.mp hc
    rw [hdecl, isStrictAncestorIn_iff] at hin
    exact he.below s sources c _ hs (reaches_of_mem_reach hr hc) hk hin

/-- A closure that reaches a sink which lets it through is marked. -/
theorem escaping_of_reaches (sink : Sink) (hs : sink ∈ b.sinks)
    (hc : Reaches b.Holds sink.sources c) (hin : c ∈ b.reach sink.sources → c ∈ b.drained sink) :
    (b.finish u).Escaping c :=
  h.escaping_of_drained hs (hin (h.mem_reach (h.flow.drained sink hs) hc))

/-- The closures that are marked are the fewest that the rules allow. -/
theorem isLeast_escaping :
    IsLeast {escapes | b.EscapeRules b.Holds escapes} (b.finish u).Escaping := by
  have hdecl {c : ClosureId} {k : Closure} (hk : b.closures[c]? = some k) :
      b.declaredIn c = k.declaredIn := by rw [State.declaredIn, hk, Option.getD_some]
  refine ⟨⟨fun ss c hs hc => ?_, fun s ss c k hs hc hk hin => ?_, fun s ss c k hs hc hk hin => ?_,
    fun c v d hc hv hd => ?_⟩, fun escapes he c hc => ?_⟩
  · exact h.escaping_of_reaches (.escape ss) hs hc id
  · refine h.escaping_of_reaches (.within s ss) hs hc fun hc => List.mem_filter.mpr ⟨hc, ?_⟩
    rw [hdecl hk, Bool.or_eq_true, beq_iff_eq, isStrictAncestorIn_iff]
    exact hin.imp Eq.symm id
  · refine h.escaping_of_reaches (.below s ss) hs hc fun hc => List.mem_filter.mpr ⟨hc, ?_⟩
    rw [hdecl hk, isStrictAncestorIn_iff]
    exact hin
  · exact h.escape_needs hc (h.mem_needs.mp (h.needsVar_iff.mp hv)) hd
  · rw [h.escaping_iff (lt_of_escaping hc)] at hc
    refine Graph.of_mem_reachable (S := escapes) (fun d hd => ?_) (fun d hd e hde => ?_) hc
    · obtain ⟨sink, hs, hd⟩ := List.mem_flatMap.mp hd
      exact escapes_of_drained h.isLeast_holds.1 he hs (h.lt_of_drained hs hd) hd
    · obtain ⟨v, hv, hde⟩ := List.mem_flatMap.mp hde
      exact he.need d v e hd (h.needsVar_iff.mpr hv) hde

end Inv

end State

end ClosureEnv.Binding
