import ClosureEnv.Proofs.Binding.Least
import ClosureEnv.Proofs.Local.Pairing

/-!
# Counterparts escape alike

What variables hold and which closures escape are the least solutions of rules about sources and
sinks. When sources and sinks of a part of one binding have counterparts in the other
(`Pairing.Flows`), what the other one finds satisfies the rules of the first, as far as the
counterparts go. So a closure that escapes has a counterpart that does (`Flows.escaping`).
-/

namespace ClosureEnv

namespace Pairing

open Binding

/-- Sources that stand for each other. -/
def source (m : Pairing) : Source → Source → Prop
  | .closure c, .closure d => m.closure c d
  | .var v, .var w => m.var v w
  | _, _ => False

/-- Sinks of one kind, whose scopes stand for each other if they have anything inside of them that
has a counterpart. -/
def sink (m : Pairing) : Sink → Sink → Prop
  | .escape _, .escape _ => True
  | .within s _, .within s' _ | .below s _, .below s' _ =>
    ∀ o o', m.scope o o' → s ≤ o → m.scope s s'
  | _, _ => False

/-- What flows from sources with counterparts flows to counterparts, and from the counterparts. -/
structure Flows (m : Pairing) (F F' : State) : Prop where
  stored : ∀ (v : Nat) s s', s ∈ F.sourcesOf v → m.source s s' →
    ∃ w, m.var v w ∧ s' ∈ F'.sourcesOf w
  drained : ∀ k ∈ F.sinks, ∀ s ∈ k.sources, ∀ s', m.source s s' →
    ∃ k' ∈ F'.sinks, m.sink k k' ∧ s' ∈ k'.sources

namespace Flows

variable {m : Pairing} {F F' : State} {P : String → Prop} {u u' : String}
  {holds holds' : VarId → ClosureId → Prop} {c d : ClosureId} {v : VarId}

/-- A variable that holds a closure with a counterpart has a counterpart, which holds that. -/
theorem exists_holder (h : m.Flows F F') (hF : F.Inv P) (hF' : F'.Inv P) (hcd : m.closure c d)
    (hc : F.Holds v c) : ∃ w, m.var v w ∧ F'.Holds w d := by
  have hrules : F'.HoldRules F'.Holds := hF'.isLeast_holds.1
  have hleast (H : VarId → ClosureId → Prop) (hH : F.HoldRules H) : ∀ v c, F.Holds v c → H v c :=
    hF.isLeast_holds.2 hH
  refine hleast (fun v c => ∀ d, m.closure c d → ∃ w, m.var v w ∧ F'.Holds w d)
    ⟨fun v c hs d hcd => ?_, fun v x c hs hx d hcd => ?_⟩ v c hc d hcd
  · obtain ⟨w, hvw, hs'⟩ := h.stored v _ (.closure d) hs hcd
    exact ⟨w, hvw, hrules.closure w d hs'⟩
  · obtain ⟨y, hxy, hy⟩ := hx d hcd
    obtain ⟨w, hvw, hs'⟩ := h.stored v _ (.var y) hs hxy
    exact ⟨w, hvw, hrules.var w y d hs' hy⟩

/-- A closure that reaches a sink has a counterpart that reaches the counterpart of the sink. -/
theorem exists_sink (h : m.Flows F F') (hF : F.Inv P) (hF' : F'.Inv P) (hcd : m.closure c d)
    {k : Sink} (hk : k ∈ F.sinks) (hc : Reaches F.Holds k.sources c) :
    ∃ k' ∈ F'.sinks, m.sink k k' ∧ Reaches F'.Holds k'.sources d := by
  rcases hc with hs | ⟨v, hs, hc⟩
  · obtain ⟨k', hk', hkk, hs'⟩ := h.drained k hk _ hs (.closure d) hcd
    exact ⟨k', hk', hkk, .inl hs'⟩
  · obtain ⟨w, hvw, hd⟩ := h.exists_holder hF hF' hcd hc
    obtain ⟨k', hk', hkk, hs'⟩ := h.drained k hk _ hs (.var w) hvw
    exact ⟨k', hk', hkk, .inr ⟨w, hs', hd⟩⟩

/-- Closures that stand for each other are declared in scopes that do. -/
theorem declaredIn (h : m.Mirrors (F.finish u) (F'.finish u') holds holds') (hF : F.Inv P)
    (hF' : F'.Inv P) (hcd : m.closure c d) {k : Closure} (hk : F.closures[c]? = some k) :
    ∃ l, F'.closures[d]? = some l ∧ m.scope k.declaredIn l.declaredIn := by
  obtain ⟨l', hl', hkl, -⟩ := h.there.closure c d _ hcd (State.closure_finish hk)
  obtain ⟨l, hl, rfl⟩ := State.closure_finish_iff.mp hl'
  obtain ⟨s, hs, -, hpar⟩ := hF.pairs.closure_scope c k hk
  obtain ⟨s', hs', -, hpar'⟩ := hF'.pairs.closure_scope d l hl
  have hk' : parentIn? (F.finish u).scopes k.scope = _ := (parentIn?_of_scope hs).trans hpar
  have hl' : parentIn? (F'.finish u').scopes l.scope = _ := (parentIn?_of_scope hs').trans hpar'
  have hrel := h.there.parents.parent _ _ hkl
  rw [hk', hl'] at hrel
  cases hrel with
  | some hrel => exact ⟨l, hl, hrel⟩

/-- A closure that escapes has a counterpart that escapes. -/
theorem escaping (h : m.Flows F F') (hm : m.Mirrors (F.finish u) (F'.finish u') holds holds')
    (hF : F.Inv P) (hF' : F'.Inv P) (hcd : m.closure c d) (hc : (F.finish u).Escaping c) :
    (F'.finish u').Escaping d := by
  have hrules : F'.EscapeRules F'.Holds (F'.finish u').Escaping := hF'.isLeast_escaping.1
  have hpre : Preorder (F.finish u).scopes := hF.forest.preorder
  have hneeds {c : ClosureId} {v : VarId} : F.NeedsVar c v ↔ (F.finish u).Needs c v :=
    hF.needsVar_iff.trans hF.mem_needs
  have hneeds' {d : ClosureId} {w : VarId} : F'.NeedsVar d w ↔ (F'.finish u').Needs d w :=
    hF'.needsVar_iff.trans hF'.mem_needs
  -- What escapes is the least that the rules let escape, so it is enough that counterparts obey
  -- them.
  have hleast (E : ClosureId → Prop) (hE : F.EscapeRules F.Holds E) :
      ∀ c, (F.finish u).Escaping c → E c :=
    hF.isLeast_escaping.2 hE
  refine hleast (fun c => ∀ d, m.closure c d → (F'.finish u').Escaping d)
    ⟨fun ss c hk hc d hcd => ?_, fun s ss c k hk hc hkc hin d hcd => ?_,
      fun s ss c k hk hc hkc hin d hcd => ?_, fun c v e hc hv he d hed => ?_⟩ c hc d hcd
  · obtain ⟨k', hk', hkk, hd⟩ := h.exists_sink hF hF' hcd hk hc
    cases k' with
    | escape ts => exact hrules.escape ts d hk' hd
    | within s' ts => exact hkk.elim
    | below s' ts => exact hkk.elim
  · obtain ⟨k', hk', hkk, hd⟩ := h.exists_sink hF hF' hcd hk hc
    obtain ⟨l, hl, hdecl⟩ := declaredIn hm hF hF' hcd hkc
    cases k' with
    | escape ts => exact hkk.elim
    | within s' ts =>
      have hss := hkk _ _ hdecl (hin.le hpre)
      exact hrules.within s' ts d l hk' hd hl (hm.aroundEq hdecl hss hin)
    | below s' ts => exact hkk.elim
  · obtain ⟨k', hk', hkk, hd⟩ := h.exists_sink hF hF' hcd hk hc
    obtain ⟨l, hl, hdecl⟩ := declaredIn hm hF hF' hcd hkc
    cases k' with
    | escape ts => exact hkk.elim
    | within s' ts => exact hkk.elim
    | below s' ts =>
      have hss := hkk _ _ hdecl (Nat.le_of_lt (hin.lt hpre))
      exact hrules.below s' ts d l hk' hd hl (hm.around hdecl hss hin)
  · -- An escaping closure needs the variable in one run, and its counterpart needs the counterpart.
    obtain ⟨w, hvw, hd⟩ := h.exists_holder hF hF' hed he
    obtain ⟨c', hcc⟩ := hm.exists_closure_of_needs hvw (hneeds.mp hv)
    exact hrules.need c' w d (hc c' hcc) (hneeds'.mpr (hm.needs hcc hvw (hneeds.mp hv))) hd

end Flows

end Pairing

end ClosureEnv
