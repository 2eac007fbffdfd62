import ClosureEnv.Graph.Rounds
import Mathlib.Data.Finset.Card

/-!
# Reachable nodes are closed under successors

Every round of `Graph.spread` but the last adds a node, so a search with as many rounds as there are
nodes ends in a set that contains its roots (`mem_reachable_of_mem`) and the successors of its
members (`mem_reachable_of_mem_next`).
-/

namespace ClosureEnv.Graph

variable {next : Nat → List Nat} {size : Nat}

/-- Nothing is left twice. -/
theorem nodup_eraseDups (xs : List Nat) : xs.eraseDups.Nodup := by
  induction hn : xs.length using Nat.strongRecOn generalizing xs with
  | ind n ih =>
    cases xs with
    | nil => simp
    | cons x xs =>
      have hlen := List.length_filter_le (fun y => !y == x) xs
      rw [List.eraseDups_cons, List.nodup_cons]
      refine ⟨by simp [List.mem_eraseDups], ih _ ?_ _ rfl⟩
      simp only [List.length_cons] at hn
      omega

/-- A list without repetition that has as many nodes as the graph has all of them. -/
theorem mem_of_length_ge {seen : List Nat} (hn : seen.Nodup) (hlt : ∀ x ∈ seen, x < size)
    (hlen : size ≤ seen.length) {y : Nat} (hy : y < size) : y ∈ seen := by
  have hsub : seen.toFinset ⊆ Finset.range size := by
    intro x hx
    simpa using hlt x (by simpa using hx)
  have hcard : (Finset.range size).card ≤ seen.toFinset.card := by
    rw [Finset.card_range, List.toFinset_card_of_nodup hn]
    exact hlen
  have heq := Finset.eq_of_subset_of_card_le hsub hcard
  have : y ∈ seen.toFinset := by rw [heq]; simpa using hy
  simpa using this

/-- With enough rounds left, a search ends in a set that is closed under successors. -/
theorem spread_closed (hnext : ∀ x < size, ∀ y ∈ next x, y < size) :
    ∀ (bound : Nat) (seen : List Nat), seen.Nodup → (∀ x ∈ seen, x < size) →
      size ≤ seen.length + bound →
      ∀ x ∈ spread next bound seen, ∀ y ∈ next x, y ∈ spread next bound seen
  | 0, seen, hn, hlt, hlen, x, hx, y, hy => by
    simp only [spread] at hx ⊢
    exact mem_of_length_ge hn hlt hlen (hnext x (hlt x hx) y hy)
  | bound + 1, seen, hn, hlt, hlen, x, hx, y, hy => by
    simp only [spread] at hx ⊢
    generalize hnew : ((seen.flatMap next).filter fun x => !seen.contains x).eraseDups = new at *
    have hmem : ∀ z, z ∈ new ↔ (∃ w ∈ seen, z ∈ next w) ∧ z ∉ seen := by
      intro z
      rw [← hnew]
      simp [List.mem_eraseDups]
    split at hx
    · -- A round that adds nothing has seen all that is next.
      next hempty =>
      rw [if_pos hempty]
      by_contra hy'
      have : y ∈ new := (hmem y).mpr ⟨⟨x, hx, hy⟩, hy'⟩
      rw [List.isEmpty_iff.mp hempty] at this
      simp at this
    · next hempty =>
      rw [if_neg hempty]
      have hn' : (seen ++ new).Nodup := by
        refine List.nodup_append.mpr ⟨hn, ?_, ?_⟩
        · rw [← hnew]
          exact nodup_eraseDups _
        · rintro a ha b hb rfl
          exact ((hmem a).mp hb).2 ha
      have hlt' : ∀ z ∈ seen ++ new, z < size := by
        intro z hz
        rcases List.mem_append.mp hz with hz | hz
        · exact hlt z hz
        · obtain ⟨⟨w, hw, hzw⟩, -⟩ := (hmem z).mp hz
          exact hnext w (hlt w hw) z hzw
      -- A round that adds something has a smaller bound to go, and more that is seen in return.
      have hpos : 0 < new.length := by
        rw [List.length_pos_iff]
        exact fun h => hempty (by simp [h])
      exact spread_closed hnext bound (seen ++ new) hn' hlt' (by simp; omega) x hx y hy

/-- Roots are reachable. -/
theorem mem_reachable_of_mem {roots : List Nat} {x : Nat} (h : x ∈ roots) :
    x ∈ reachable next size roots :=
  subset_spread next size _ (List.mem_eraseDups.mpr h)

/-- Successors of reachable nodes are reachable. -/
theorem mem_reachable_of_mem_next {roots : List Nat} (hroots : ∀ x ∈ roots, x < size)
    (hnext : ∀ x < size, ∀ y ∈ next x, y < size) {x y : Nat}
    (hx : x ∈ reachable next size roots) (hy : y ∈ next x) : y ∈ reachable next size roots :=
  spread_closed hnext size _ (nodup_eraseDups _)
    (fun z hz => hroots z (List.mem_eraseDups.mp hz)) (by omega) x hx y hy

/-- What holds of the roots and passes on to successors holds of reachable nodes. -/
theorem of_mem_reachable {S : Nat → Prop} {roots : List Nat} (hroots : ∀ x ∈ roots, S x)
    (hnext : ∀ x, S x → ∀ y ∈ next x, S y) {x : Nat} (hx : x ∈ reachable next size roots) :
    S x := by
  have h (bound : Nat) : ∀ seen : List Nat, (∀ x ∈ seen, S x) →
      ∀ x ∈ spread next bound seen, S x := by
    induction bound with
    | zero => exact fun seen hs x hx => hs x hx
    | succ n ih =>
      intro seen hs x hx
      simp only [spread] at hx
      split at hx
      · exact hs x hx
      · refine ih _ ?_ x hx
        intro z hz
        rcases List.mem_append.mp hz with hz | hz
        · exact hs z hz
        · simp only [List.mem_eraseDups, List.mem_filter, List.mem_flatMap] at hz
          obtain ⟨⟨w, hw, hzw⟩, -⟩ := hz
          exact hnext w (hs w hw) z hzw
  exact h size _ (fun z hz => hroots z (List.mem_eraseDups.mp hz)) x hx

end ClosureEnv.Graph
