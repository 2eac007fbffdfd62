import ClosureEnv.Proofs.Fault.Lower
import Mathlib.Logic.Relation

/-!
# Loops that end

The searches of lowering have bounds, so that they are over whatever they are given; a loop has
none. `EndsIn` says that a loop without a bound is over, in which turn, and with what. A loop is
over if something gets smaller in each turn that goes on (`EndsIn.of_measure`), and a search with a
bound finds what the loop finds, if the bound is not below the number of turns (`EndsIn.eq_of_le`).
-/

namespace ClosureEnv

variable {σ ρ : Type} {turn : σ → Lower (σ ⊕ ρ)}

/-- A loop is over in its `n`-th turn. A turn goes on in another state, or it is the last one, with
a result or with an error. -/
inductive EndsIn (turn : σ → Lower (σ ⊕ ρ)) : Nat → σ → Lower ρ → Prop
  | result {s : σ} {r : ρ} : turn s = .ok (.inr r) → EndsIn turn 1 s (.ok r)
  | fault {s : σ} {e : LowerError} : turn s = .error e → EndsIn turn 1 s (.error e)
  | next {s s' : σ} {n : Nat} {r : Lower ρ} :
    turn s = .ok (.inl s') → EndsIn turn n s' r → EndsIn turn (n + 1) s r

namespace EndsIn

/-- A loop that goes on has one turn less to go. -/
theorem of_next {n : Nat} {s s' : σ} {r : Lower ρ} (h : EndsIn turn n s r)
    (hs : turn s = .ok (.inl s')) : ∃ k, n = k + 1 ∧ EndsIn turn k s' r := by
  cases h with
  | result hr =>
    rw [hs] at hr
    cases hr
  | fault he =>
    rw [hs] at he
    cases he
  | next hs' hrest =>
    cases hs.symm.trans hs'
    exact ⟨_, rfl, hrest⟩

/-- A loop is over in one turn only, with one result. -/
theorem unique {n n' : Nat} {s : σ} {r r' : Lower ρ} (h : EndsIn turn n s r)
    (h' : EndsIn turn n' s r') : n = n' ∧ r = r' := by
  induction h generalizing n' with
  | result hr =>
    cases h' with
    | result hr' =>
      cases hr.symm.trans hr'
      exact ⟨rfl, rfl⟩
    | fault he => cases hr.symm.trans he
    | next hs _ => cases hr.symm.trans hs
  | fault he =>
    cases h' with
    | result hr => cases he.symm.trans hr
    | fault he' =>
      cases he.symm.trans he'
      exact ⟨rfl, rfl⟩
    | next hs _ => cases he.symm.trans hs
  | next hs _ ih =>
    obtain ⟨k, rfl, hrest⟩ := h'.of_next hs
    obtain ⟨rfl, rfl⟩ := ih hrest
    exact ⟨rfl, rfl⟩

/-- In a later state a loop has fewer turns to go. -/
theorem exists_lt_of_transGen {n : Nat} {s s' : σ} {r : Lower ρ} (h : EndsIn turn n s r)
    (hs : Relation.TransGen (fun s s' => turn s = .ok (.inl s')) s s') :
    ∃ k < n, EndsIn turn k s' r := by
  induction hs with
  | single hs =>
    obtain ⟨k, rfl, hrest⟩ := h.of_next hs
    exact ⟨k, Nat.lt_succ_self k, hrest⟩
  | tail _ hs ih =>
    obtain ⟨k, hk, hmid⟩ := ih
    obtain ⟨l, rfl, hrest⟩ := hmid.of_next hs
    exact ⟨l, Nat.lt_of_succ_lt hk, hrest⟩

/-- A loop that comes back to its state is never over. -/
theorem not_of_cycle {n : Nat} {s : σ} {r : Lower ρ}
    (hs : Relation.TransGen (fun s s' => turn s = .ok (.inl s')) s s) : ¬ EndsIn turn n s r := by
  intro h
  obtain ⟨k, hk, hrest⟩ := h.exists_lt_of_transGen hs
  exact Nat.ne_of_gt hk (h.unique hrest).1

variable (I : σ → Prop)

/-- What each turn keeps is true when the last one is taken. -/
theorem exists_last {n : Nat} {s : σ} {r : Lower ρ} (h : EndsIn turn n s r)
    (hI : ∀ s s', I s → turn s = .ok (.inl s') → I s') (hs : I s) :
    ∃ s', I s' ∧ turn s' = r.map .inr := by
  induction h with
  | result hr => exact ⟨_, hs, hr⟩
  | fault he => exact ⟨_, hs, he⟩
  | next ht _ ih => exact ih (hI _ _ hs ht)

/-- A loop is over if something gets smaller in each turn that goes on. -/
theorem exists_of_measure (μ : σ → Nat)
    (hμ : ∀ s s', I s → turn s = .ok (.inl s') → I s' ∧ μ s' < μ s) (s : σ) (hs : I s) :
    ∃ n ≤ μ s + 1, ∃ r, EndsIn turn n s r := by
  induction hm : μ s using Nat.strongRecOn generalizing s with
  | ind m ih =>
    cases ht : turn s with
    | error e => exact ⟨1, by omega, _, .fault ht⟩
    | ok next =>
      cases next with
      | inr r => exact ⟨1, by omega, _, .result ht⟩
      | inl s' =>
        obtain ⟨hs', hlt⟩ := hμ s s' hs ht
        obtain ⟨n, hn, r, hr⟩ := ih (μ s') (by omega) s' hs' rfl
        exact ⟨n + 1, by omega, r, .next ht hr⟩

/-- A search that takes the turns of a loop one by one finds what the loop finds, if the bound on
its turns is not too low. -/
theorem eq_of_le {f : Nat → σ → Lower ρ}
    (hf : ∀ b s, I s → f (b + 1) s = turn s >>= Sum.elim (f b) .ok)
    (hI : ∀ s s', I s → turn s = .ok (.inl s') → I s') {n b : Nat} {s : σ} {r : Lower ρ}
    (h : EndsIn turn n s r) (hs : I s) (hb : n ≤ b) : f b s = r := by
  induction h generalizing b with
  | result hr =>
    obtain ⟨b, rfl⟩ : ∃ k, b = k + 1 := ⟨b - 1, by omega⟩
    rw [hf b _ hs, hr]
    rfl
  | fault he =>
    obtain ⟨b, rfl⟩ : ∃ k, b = k + 1 := ⟨b - 1, by omega⟩
    rw [hf b _ hs, he]
    rfl
  | next ht _ ih =>
    obtain ⟨b, rfl⟩ : ∃ k, b = k + 1 := ⟨b - 1, by omega⟩
    rw [hf b _ hs, ht]
    exact ih (hI _ _ hs ht) (by omega)

variable (turn) in
/-- A loop in which something gets smaller is over, with what a search finds that has a bound above
it. -/
theorem of_measure (μ : σ → Nat) {f : Nat → σ → Lower ρ}
    (hf : ∀ b s, I s → f (b + 1) s = turn s >>= Sum.elim (f b) .ok)
    (hμ : ∀ s s', I s → turn s = .ok (.inl s') → I s' ∧ μ s' < μ s) {b : Nat} {s : σ} (hs : I s)
    (hb : μ s < b) : ∃ n ≤ μ s + 1, EndsIn turn n s (f b s) := by
  obtain ⟨n, hn, r, hr⟩ := exists_of_measure I μ hμ s hs
  rw [eq_of_le I hf (fun s s' hs ht => (hμ s s' hs ht).1) hr hs (by omega)]
  exact ⟨n, hn, hr⟩

end EndsIn

end ClosureEnv
