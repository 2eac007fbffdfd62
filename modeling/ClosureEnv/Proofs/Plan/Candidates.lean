import ClosureEnv.Plan.Candidate
import ClosureEnv.Proofs.Order.Sorted
import ClosureEnv.Proofs.Plan.Captures

/-!
# Candidates

Every captured variable is in the candidate of one scope at or around its own, with nothing but
blocks on the way and no other candidate there. This holds of the candidates of single scopes
(`ofCaptures_spec`), and merging keeps it (`mergeContained_spec`).
-/

namespace ClosureEnv.Candidates

/-- From scope `s` down to `x` there are only blocks, and none of them has a candidate. -/
def Clear (t : ScopeTree) (cs : Candidates) (s x : ScopeId) : Prop :=
  AroundEq t.scopes s x ∧ ∀ y, Around t.scopes s y → AroundEq t.scopes y x →
    (∃ sc, t.scopes[y]? = some sc ∧ sc.kind = .block) ∧ SortedMap.find? y cs = none

/-- Candidates for some captured variables. -/
structure Sound (t : ScopeTree) (captured : VarId → Prop) (cs : Candidates) : Prop where
  /-- The scopes are in order. -/
  sorted : SortedMap.Sorted cs
  /-- The scopes of a candidate exist, and the way to those merged into it is clear. -/
  clear : ∀ s c x, SortedMap.find? s cs = some c → x ∈ s :: c.merged →
    x < t.scopes.size ∧ Clear t cs s x
  /-- A slot is for a captured variable of a scope of the candidate. -/
  slot : ∀ s c v, SortedMap.find? s cs = some c → v ∈ c.slots →
    captured v ∧ ∃ x, t.vars[v]? = some x ∧ x.scope ∈ s :: c.merged
  /-- Every captured variable has a slot. -/
  covered : ∀ v, captured v → ∃ s c, SortedMap.find? s cs = some c ∧ v ∈ c.slots
  /-- The slots are in order. -/
  slots : ∀ s c, SortedMap.find? s cs = some c → c.slots.Pairwise (· < ·)
  /-- A candidate has a slot for a variable of its own scope. -/
  own : ∀ s c, SortedMap.find? s cs = some c →
    ∃ v ∈ c.slots, ∃ x, t.vars[v]? = some x ∧ x.scope = s

variable {t : ScopeTree} {holds : VarId → ClosureId → Prop} {a : Captures}

/-- The way from a scope to itself is clear. -/
theorem Clear.refl (hp : Preorder t.scopes) (cs : Candidates) (s : ScopeId) : Clear t cs s s :=
  ⟨.inl rfl, fun _ hy hys => absurd (hy.trans_eq hp hys) (Around.irrefl hp)⟩

/-- Without candidates nothing is captured. -/
theorem sound_nil (t : ScopeTree) : Sound t (fun v => v ∈ ([] : List VarId)) [] where
  sorted := List.Pairwise.nil
  clear := fun s c x h => by cases h
  slot := fun s c v h => by cases h
  covered := fun v h => by cases h
  slots := fun s c h => by cases h
  own := fun s c h => by cases h

/-- The candidate that a variable of a scope is added to: that of the scope, or else an empty
one. -/
structure Host (cs : Candidates) (scope : ScopeId) (c : Candidate) : Prop where
  /-- It is the candidate of the scope if there is one. -/
  eq_of_find? : ∀ c', SortedMap.find? scope cs = some c' → c = c'
  /-- It is there already, or it is empty. -/
  old_or_empty : SortedMap.find? scope cs = some c ∨ c = ⟨[], [], .value⟩

/-- Adding a variable changes the candidate of its scope only. -/
theorem exists_host (cs : Candidates) (scope : ScopeId) (v : VarId) (escapes : Bool) :
    ∃ c₀, Host cs scope c₀ ∧ ∀ s c, SortedMap.find? s (addVar cs scope v escapes) = some c ↔
      (s = scope ∧ c = { c₀ with
        slots := c₀.slots ++ [v], repr := if escapes then .reference else c₀.repr }) ∨
      (s ≠ scope ∧ SortedMap.find? s cs = some c) := by
  refine ⟨(SortedMap.find? scope cs).getD ⟨[], [], .value⟩, ⟨fun c' hc' => ?_, ?_⟩, fun s c => ?_⟩
  · rw [hc', Option.getD_some]
  · cases SortedMap.find? scope cs with
    | none => exact .inr rfl
    | some c => exact .inl rfl
  · unfold Candidates.addVar
    by_cases hs : s = scope
    · subst hs
      simp [eq_comm]
    · simp [SortedMap.find?_insert_of_ne hs, hs]

/-- A captured variable goes to the candidate of its scope. -/
theorem Sound.addVar (hp : Preorder t.scopes) {cs : Candidates} {done : List VarId} {v : VarId}
    {x : Variable} (h : Sound t (· ∈ done) cs)
    (hm : ∀ s c, SortedMap.find? s cs = some c → c.merged = []) (hx : t.vars[v]? = some x)
    (hs : x.scope < t.scopes.size) (hlt : ∀ w ∈ done, w < v) (escapes : Bool) :
    Sound t (· ∈ done ++ [v]) (addVar cs x.scope v escapes) ∧
      ∀ s c, SortedMap.find? s (addVar cs x.scope v escapes) = some c → c.merged = [] := by
  obtain ⟨c₀, hhost, hfind⟩ := exists_host cs x.scope v escapes
  have hmerged : c₀.merged = [] := by
    rcases hhost.old_or_empty with hold | rfl
    · exact hm _ _ hold
    · rfl
  have hslots : c₀.slots.Pairwise (· < ·) ∧ ∀ w ∈ c₀.slots, w ∈ done ∧
      ∃ y, t.vars[w]? = some y ∧ y.scope ∈ [x.scope] := by
    rcases hhost.old_or_empty with hold | rfl
    · refine ⟨h.slots _ _ hold, fun w hw => ?_⟩
      have := h.slot _ _ w hold hw
      rwa [hmerged] at this
    · exact ⟨List.Pairwise.nil, fun w hw => by cases hw⟩
  -- no candidate is merged into another one yet
  have hmerged' (s : ScopeId) (c : Candidate)
      (hf : SortedMap.find? s (Candidates.addVar cs x.scope v escapes) = some c) :
      c.merged = [] := by
    rcases (hfind s c).mp hf with ⟨-, rfl⟩ | ⟨-, hf⟩
    · exact hmerged
    · exact hm s c hf
  refine ⟨⟨h.sorted.insert _ _, ?_, ?_, ?_, ?_, ?_⟩, hmerged'⟩
  · intro s c y hf hy
    rw [hmerged' s c hf, List.mem_singleton] at hy
    subst hy
    refine ⟨?_, Clear.refl hp _ _⟩
    rcases (hfind y c).mp hf with ⟨rfl, -⟩ | ⟨-, hf⟩
    · exact hs
    · exact (h.clear y c y hf List.mem_cons_self).1
  · intro s c w hf hw
    rw [hmerged' s c hf]
    rcases (hfind s c).mp hf with ⟨rfl, rfl⟩ | ⟨-, hf⟩
    · rcases List.mem_append.mp hw with hw | hw
      · exact ⟨List.mem_append_left _ (hslots.2 w hw).1, (hslots.2 w hw).2⟩
      · obtain rfl := List.mem_singleton.mp hw
        exact ⟨List.mem_append_right _ hw, x, hx, List.mem_singleton.mpr rfl⟩
    · obtain ⟨hd, y, hy, hys⟩ := h.slot s c w hf hw
      rw [hm s c hf] at hys
      exact ⟨List.mem_append_left _ hd, y, hy, hys⟩
  · intro w hw
    rcases List.mem_append.mp hw with hw | hw
    · obtain ⟨s, c, hf, hwc⟩ := h.covered w hw
      by_cases hsx : s = x.scope
      · subst hsx
        refine ⟨_, _, (hfind _ _).mpr (.inl ⟨rfl, rfl⟩), List.mem_append_left _ ?_⟩
        exact (hhost.eq_of_find? c hf).symm ▸ hwc
      · exact ⟨s, c, (hfind s c).mpr (.inr ⟨hsx, hf⟩), hwc⟩
    · obtain rfl := List.mem_singleton.mp hw
      exact ⟨_, _, (hfind _ _).mpr (.inl ⟨rfl, rfl⟩), List.mem_append_right _ hw⟩
  · intro s c hf
    rcases (hfind s c).mp hf with ⟨-, rfl⟩ | ⟨-, hf⟩
    · refine List.pairwise_append.mpr ⟨hslots.1, List.pairwise_singleton _ _, fun w hw u hu => ?_⟩
      obtain rfl := List.mem_singleton.mp hu
      exact hlt w (hslots.2 w hw).1
    · exact h.slots s c hf
  · intro s c hf
    rcases (hfind s c).mp hf with ⟨rfl, rfl⟩ | ⟨-, hf⟩
    · exact ⟨v, List.mem_append_right _ (List.mem_singleton.mpr rfl), x, hx, rfl⟩
    · exact h.own s c hf

/-- The candidates of single scopes are sound. -/
theorem ofCaptures_spec (h : t.WellBound holds) (ha : a.Sound t) :
    ∃ cs, ofCaptures t a = .ok cs ∧ Sound t (· ∈ a.captured) cs ∧
      ∀ s c, SortedMap.find? s cs = some c → c.merged = [] := by
  unfold ofCaptures
  refine Lower.foldlM_ok (fun done cs => Sound t (· ∈ done) cs ∧
    ∀ s c, SortedMap.find? s cs = some c → c.merged = []) ⟨sound_nil t, fun s c hf => by cases hf⟩ ?_
  rintro done v left cs hcs ⟨hsound, hm⟩
  have hv : v ∈ a.captured := hcs ▸ List.mem_append_right _ List.mem_cons_self
  obtain ⟨c, hn⟩ := (ha.captured v).mp hv
  obtain ⟨-, x, -, hx⟩ := h.exists_of_needs hn
  have hlt : ∀ w ∈ done, w < v := by
    intro w hw
    have hs := ha.sorted
    rw [hcs] at hs
    exact (List.pairwise_append.mp hs).2.2 w hw v List.mem_cons_self
  refine ⟨addVar cs x.scope v (a.escapes v), ?_, hsound.addVar h.preorder hm hx
    (h.var_scope v x hx).2 hlt _⟩
  rw [ScopeTree.var_eq_ok.mpr hx]
  rfl

/-- The search for a candidate around a block finds the nearest one, with a clear way to it. -/
theorem targetFrom_spec (h : t.WellBound holds) (cs : Candidates) (bound : Nat) :
    ∀ p < t.scopes.size, ∃ r, targetFrom t cs bound (some p) = .ok r ∧
      (∀ outer, r = some outer → Clear t cs outer p ∧ ∃ c, SortedMap.find? outer cs = some c) ∧
      (r = none → p < bound → ∀ outer, Clear t cs outer p → SortedMap.find? outer cs = none) := by
  induction bound with
  | zero => exact fun p _ => ⟨none, rfl, (by simp), fun _ hp => absurd hp (Nat.not_lt_zero p)⟩
  | succ bound ih =>
    intro p hps
    rw [targetFrom]
    by_cases hc : SortedMap.contains p cs = true
    · rw [if_pos hc]
      refine ⟨some p, rfl, fun outer ho => ?_, fun hr => by cases hr⟩
      cases ho
      exact ⟨Clear.refl h.preorder cs p, Option.isSome_iff_exists.mp hc⟩
    have hnone : SortedMap.find? p cs = none := by
      simpa [SortedMap.contains] using hc
    have hx : t.scopes[p]? = some t.scopes[p] := Array.getElem?_eq_getElem hps
    rw [if_neg hc, ScopeTree.scope_eq_ok.mpr hx, Lower.ok_bind]
    by_cases hk : t.scopes[p].kind = .block
    · rw [if_pos (by simpa using hk)]
      cases hpar : t.scopes[p].parent with
      | none =>
        refine ⟨none, by cases bound <;> rfl, (by simp), fun _ _ outer ho => ?_⟩
        rcases ho.1 with rfl | ho
        · exact hnone
        · obtain ⟨q, hq, -⟩ := (around_iff h.preorder).mp ho
          rw [parentIn?_of_scope hx, hpar] at hq
          cases hq
      | some q =>
        obtain ⟨hlt, hq⟩ := h.parent_lt hx hpar
        have hpi := (parentIn?_of_scope hx).trans hpar
        obtain ⟨r, hr, hspec, hlast⟩ := ih q hq
        refine ⟨r, hr, fun outer ho => ?_, fun hr hp outer ho => ?_⟩
        · obtain ⟨hclear, hcand⟩ := hspec outer ho
          refine ⟨⟨.inr (around_of_parent h.preorder hpi hclear.1), ?_⟩, hcand⟩
          rintro y hoy (rfl | hyp)
          · exact ⟨⟨_, hx, hk⟩, hnone⟩
          · exact hclear.2 y hoy (aroundEq_parent h.preorder hpi hyp)
        · rcases ho with ⟨rfl | hop, hbelow⟩
          · exact hnone
          · refine hlast hr (Nat.lt_of_lt_of_le hlt (Nat.le_of_lt_succ hp)) outer
              ⟨aroundEq_parent h.preorder hpi hop, fun y hoy hyq => hbelow y hoy ?_⟩
            exact .inr (around_of_parent h.preorder hpi hyq)
    · rw [if_neg (by simpa using hk)]
      refine ⟨none, rfl, (by simp), fun _ _ outer ho => ?_⟩
      rcases ho with ⟨rfl | hop, hbelow⟩
      · exact hnone
      · obtain ⟨⟨x, hx', hblock⟩, -⟩ := hbelow p hop (.inl rfl)
        cases hx.symm.trans hx'
        exact absurd hblock hk

/-- The candidate around a block that it may be merged into: the nearest one, if only blocks are in
between. -/
structure IsTarget (t : ScopeTree) (cs : Candidates) (s outer : ScopeId) : Prop where
  block : ∃ x, t.scopes[s]? = some x ∧ x.kind = .block
  around : Around t.scopes outer s
  between : ∀ y, Around t.scopes outer y → Around t.scopes y s →
    (∃ x, t.scopes[y]? = some x ∧ x.kind = .block) ∧ SortedMap.find? y cs = none
  candidate : ∃ c, SortedMap.find? outer cs = some c

/-- There is only one such candidate. -/
theorem IsTarget.unique (hp : Preorder t.scopes) {cs : Candidates} {s o o' : ScopeId}
    (h : IsTarget t cs s o) (h' : IsTarget t cs s o') : o = o' := by
  obtain ⟨c, hc⟩ := h.candidate
  obtain ⟨c', hc'⟩ := h'.candidate
  rcases AroundEq.total hp (.inr h.around) (.inr h'.around) with (heq | ho) | ho
  · exact heq
  · rw [(h.between o' ho h'.around).2] at hc'
    cases hc'
  · rw [(h'.between o ho h.around).2] at hc
    cases hc

/-- The candidate around a block is found if there is one. -/
theorem target?_spec (h : t.WellBound holds) (cs : Candidates) {s : Nat} {x : Scope}
    (hx : t.scopes[s]? = some x) :
    ∃ r, target? t cs x = .ok r ∧ ∀ outer, r = some outer ↔ IsTarget t cs s outer := by
  unfold target?
  by_cases hk : x.kind = .block
  · rw [if_pos (by simpa using hk)]
    cases hpar : x.parent with
    | none =>
      refine ⟨none, rfl, fun outer => ⟨(by simp), fun ho => ?_⟩⟩
      obtain ⟨q, hq, -⟩ := (around_iff h.preorder).mp ho.around
      rw [parentIn?_of_scope hx, hpar] at hq
      cases hq
    | some p =>
      obtain ⟨-, hp⟩ := h.parent_lt hx hpar
      have hpi := (parentIn?_of_scope hx).trans hpar
      obtain ⟨r, hr, hspec, hlast⟩ := targetFrom_spec h cs (t.scopes.size + 1) p hp
      have hsome (outer : ScopeId) (ho : r = some outer) : IsTarget t cs s outer := by
        obtain ⟨hclear, hcand⟩ := hspec outer ho
        exact ⟨⟨x, hx, hk⟩, around_of_parent h.preorder hpi hclear.1, fun y hoy hys =>
          hclear.2 y hoy (aroundEq_parent h.preorder hpi hys), hcand⟩
      refine ⟨r, hr, fun outer => ⟨hsome outer, fun ho => ?_⟩⟩
      cases r with
      | some outer' => rw [(hsome outer' rfl).unique h.preorder ho]
      | none =>
        obtain ⟨c, hc⟩ := ho.candidate
        rw [hlast rfl (Nat.lt_succ_of_lt hp) outer ⟨aroundEq_parent h.preorder hpi ho.around,
          fun y hoy hyp => ho.between y hoy (around_of_parent h.preorder hpi hyp)⟩] at hc
        cases hc
  · rw [if_neg (by simpa using hk)]
    refine ⟨none, rfl, fun outer => ⟨(by simp), fun ho => ?_⟩⟩
    obtain ⟨x', hx', hblock⟩ := ho.block
    cases hx.symm.trans hx'
    exact absurd hblock hk

/-- The candidates once one was merged into another. -/
theorem find?_absorb_iff (cs : Candidates) (s outer : ScopeId) (x y : Candidate) (i : ScopeId)
    (c : Candidate) :
    SortedMap.find? i (SortedMap.insert outer (absorb s x y) (SortedMap.erase s cs)) = some c ↔
      (i = outer ∧ c = absorb s x y) ∨ (i ≠ outer ∧ i ≠ s ∧ SortedMap.find? i cs = some c) := by
  by_cases hio : i = outer
  · subst hio
    simp [eq_comm]
  · rw [SortedMap.find?_insert_of_ne hio]
    by_cases his : i = s
    · subst his
      simp [hio]
    · simp [SortedMap.find?_erase_of_ne his, hio, his]

/-- Where there was no candidate, or where one was merged away, there is none. -/
theorem find?_absorb_eq_none {cs : Candidates} {s outer i : ScopeId} (x y : Candidate)
    (hi : SortedMap.find? i cs = none ∨ i = s) (hio : i ≠ outer) :
    SortedMap.find? i (SortedMap.insert outer (absorb s x y) (SortedMap.erase s cs)) = none := by
  rw [SortedMap.find?_insert_of_ne hio]
  rcases hi with hi | rfl
  · rw [SortedMap.find?_erase, hi, ite_self]
  · exact SortedMap.find?_erase_self _ _

/-- A way that was clear still is: the only new candidate was one before. -/
theorem Clear.absorb {cs : Candidates} {i z : ScopeId} (h : Clear t cs i z) {s outer : ScopeId}
    (x : Candidate) {y : Candidate} (hy : SortedMap.find? outer cs = some y) :
    Clear t (SortedMap.insert outer (absorb s x y) (SortedMap.erase s cs)) i z := by
  refine ⟨h.1, fun w hiw hwz => ⟨(h.2 w hiw hwz).1,
    find?_absorb_eq_none x y (.inl (h.2 w hiw hwz).2) ?_⟩⟩
  rintro rfl
  rw [(h.2 w hiw hwz).2] at hy
  cases hy

/-- The ways from the candidate that is merged go on from the other one. -/
theorem IsTarget.clear (hp : Preorder t.scopes) {cs : Candidates} {s outer z : ScopeId}
    (ht : IsTarget t cs s outer) (h : Clear t cs s z) (x y : Candidate) :
    Clear t (SortedMap.insert outer (absorb s x y) (SortedMap.erase s cs)) outer z := by
  refine ⟨.inr (ht.around.trans_eq hp h.1), fun w how hwz => ?_⟩
  have hwo : w ≠ outer := fun heq => Around.irrefl hp (heq ▸ how)
  rcases AroundEq.total hp hwz h.1 with (rfl | hws) | hsw
  · exact ⟨ht.block, find?_absorb_eq_none x y (.inr rfl) hwo⟩
  · exact ⟨(ht.between w how hws).1, find?_absorb_eq_none x y (.inl (ht.between w how hws).2) hwo⟩
  · exact ⟨(h.2 w hsw hwz).1, find?_absorb_eq_none x y (.inl (h.2 w hsw hwz).2) hwo⟩

/-- A candidate may go into the nearest one around it. -/
theorem Sound.merge (h : t.WellBound holds) {cs : Candidates} {captured : VarId → Prop}
    (hcs : Sound t captured cs) {s outer : ScopeId} {x y : Candidate} (ht : IsTarget t cs s outer)
    (hx : SortedMap.find? s cs = some x) (hy : SortedMap.find? outer cs = some y) :
    Sound t captured (SortedMap.insert outer (absorb s x y) (SortedMap.erase s cs)) := by
  have hfind := find?_absorb_iff cs s outer x y
  refine ⟨(hcs.sorted.erase _).insert _ _, ?_, ?_, ?_, ?_, ?_⟩
  · intro i c z hf hz
    rcases (hfind i c).mp hf with ⟨rfl, rfl⟩ | ⟨-, -, hf⟩
    · have hz' : z ∈ i :: y.merged ∨ z ∈ s :: x.merged := by
        simpa [absorb, or_assoc] using hz
      rcases hz' with hz | hz
      · obtain ⟨hsize, hclear⟩ := hcs.clear i y z hy hz
        exact ⟨hsize, hclear.absorb x hy⟩
      · obtain ⟨hsize, hclear⟩ := hcs.clear s x z hx hz
        exact ⟨hsize, ht.clear h.preorder hclear x y⟩
    · obtain ⟨hsize, hclear⟩ := hcs.clear i c z hf hz
      exact ⟨hsize, hclear.absorb x hy⟩
  · intro i c v hf hv
    rcases (hfind i c).mp hf with ⟨rfl, rfl⟩ | ⟨-, -, hf⟩
    · rcases SortedSet.mem_union.mp (show v ∈ SortedSet.union y.slots x.slots from hv) with hv | hv
      · obtain ⟨hc, z, hz, hzs⟩ := hcs.slot i y v hy hv
        refine ⟨hc, z, hz, ?_⟩
        rcases List.mem_cons.mp hzs with hzs | hzs
        · exact hzs ▸ List.mem_cons_self
        · exact List.mem_cons_of_mem _ (List.mem_append_left _ hzs)
      · obtain ⟨hc, z, hz, hzs⟩ := hcs.slot s x v hx hv
        exact ⟨hc, z, hz, List.mem_cons_of_mem _ (List.mem_append_right _ hzs)⟩
    · exact hcs.slot i c v hf hv
  · intro v hv
    obtain ⟨i, c, hf, hvc⟩ := hcs.covered v hv
    by_cases hio : i = outer
    · subst hio
      cases hy.symm.trans hf
      exact ⟨i, _, (hfind i _).mpr (.inl ⟨rfl, rfl⟩), SortedSet.mem_union.mpr (.inl hvc)⟩
    by_cases his : i = s
    · subst his
      cases hx.symm.trans hf
      exact ⟨outer, _, (hfind outer _).mpr (.inl ⟨rfl, rfl⟩), SortedSet.mem_union.mpr (.inr hvc)⟩
    · exact ⟨i, c, (hfind i c).mpr (.inr ⟨hio, his, hf⟩), hvc⟩
  · intro i c hf
    rcases (hfind i c).mp hf with ⟨rfl, rfl⟩ | ⟨-, -, hf⟩
    · exact SortedSet.pairwise_union_lt _ x.slots (hcs.slots i y hy)
    · exact hcs.slots i c hf
  · intro i c hf
    rcases (hfind i c).mp hf with ⟨rfl, rfl⟩ | ⟨-, -, hf⟩
    · obtain ⟨v, hv, hvx⟩ := hcs.own i y hy
      exact ⟨v, SortedSet.mem_union.mpr (.inl hv), hvx⟩
    · exact hcs.own i c hf

/-- A candidate may be merged into another one around it. -/
structure Joins (t : ScopeTree) (a : Captures) (cs : Candidates) (s outer : ScopeId)
    (x y : Candidate) : Prop where
  target : IsTarget t cs s outer
  inner : SortedMap.find? s cs = some x
  outer : SortedMap.find? outer cs = some y
  may : mayMerge a x y = true

/-- A candidate is merged where it may be, and nothing changes where it may not. -/
theorem mergeOne_cases (h : t.WellBound holds) (a : Captures) (cs : Candidates) {s : Nat}
    (hs : s < t.scopes.size) : ∃ cs', mergeOne t a cs s = .ok cs' ∧
      ((cs' = cs ∧ ∀ outer x y, ¬ Joins t a cs s outer x y) ∨ ∃ outer x y, Joins t a cs s outer x y ∧
        cs' = SortedMap.insert outer (absorb s x y) (SortedMap.erase s cs)) := by
  have hx : t.scopes[s]? = some t.scopes[s] := Array.getElem?_eq_getElem hs
  obtain ⟨r, hr, hspec⟩ := target?_spec h cs hx
  unfold mergeOne
  rw [ScopeTree.scope_eq_ok.mpr hx, Lower.ok_bind, hr, Lower.ok_bind]
  cases r with
  | none =>
    refine ⟨cs, rfl, .inl ⟨rfl, fun outer x y hj => ?_⟩⟩
    cases (hspec outer).mpr hj.target
  | some outer =>
    have htarget := (hspec outer).mp rfl
    have hne : outer ≠ s := fun heq => Around.irrefl h.preorder (heq ▸ htarget.around)
    -- another target would be the same one
    have hsame (outer' : ScopeId) (x y : Candidate) (hj : Joins t a cs s outer' x y) :
        outer' = outer := hj.target.unique h.preorder htarget
    dsimp only
    split
    · next x y hfx hfy =>
      split
      · next hmay =>
        have hc : SortedMap.contains outer (SortedMap.erase s cs) = true := by
          rw [SortedMap.contains, SortedMap.find?_erase_of_ne hne, hfy]
          rfl
        rw [if_pos hc]
        exact ⟨_, rfl, .inr ⟨outer, x, y, ⟨htarget, hfx, hfy, hmay⟩, rfl⟩⟩
      · next hmay =>
        refine ⟨cs, rfl, .inl ⟨rfl, fun outer' x' y' hj => hmay ?_⟩⟩
        obtain rfl := hsame outer' x' y' hj
        cases hfx.symm.trans hj.inner
        cases hfy.symm.trans hj.outer
        exact hj.may
    · next hno =>
      refine ⟨cs, rfl, .inl ⟨rfl, fun outer' x y hj => ?_⟩⟩
      obtain rfl := hsame outer' x y hj
      exact hno x y hj.inner hj.outer

/-- Merging one candidate keeps the candidates sound. -/
theorem mergeOne_spec (h : t.WellBound holds) {cs : Candidates} {captured : VarId → Prop}
    (hcs : Sound t captured cs) {s : Nat} (hs : s < t.scopes.size) :
    ∃ cs', mergeOne t a cs s = .ok cs' ∧ Sound t captured cs' := by
  obtain ⟨cs', hrun, ⟨rfl, -⟩ | ⟨outer, x, y, hj, rfl⟩⟩ := mergeOne_cases h a cs hs
  · exact ⟨cs', hrun, hcs⟩
  · exact ⟨_, hrun, hcs.merge h hj.target hj.inner hj.outer⟩

/-- A candidate has a scope that exists. -/
theorem Sound.lt_size {cs : Candidates} {captured : VarId → Prop} (hcs : Sound t captured cs)
    {s : ScopeId} {c : Candidate} (hc : SortedMap.find? s cs = some c) : s < t.scopes.size :=
  (hcs.clear s c s hc List.mem_cons_self).1

/-- Candidates are merged one after another, none before one that is deeper. -/
theorem deepestFirst_spec {cs : Candidates} {captured : VarId → Prop} (hcs : Sound t captured cs) :
    ∃ ss, deepestFirst t cs = .ok ss ∧ (∀ s, s ∈ ss ↔ ∃ c, SortedMap.find? s cs = some c) ∧
      ss.Nodup ∧ ss.Pairwise fun i j => ∀ x y, t.scopes[i]? = some x → t.scopes[j]? = some y →
        y.depth ≤ x.depth := by
  have hkeys (s : ScopeId) : s ∈ SortedMap.keys cs ↔ ∃ c, SortedMap.find? s cs = some c := by
    constructor
    · intro hs
      obtain ⟨⟨s', c⟩, hmem, rfl⟩ := List.mem_map.mp hs
      exact ⟨c, hcs.sorted.mem_iff.mp hmem⟩
    · rintro ⟨c, hc⟩
      exact List.mem_map.mpr ⟨(s, c), hcs.sorted.mem_iff.mpr hc, rfl⟩
  let place (s : Nat) : Nat × Nat := ((t.scopes[s]?.getD default).depth, s)
  have hkeyed : (SortedMap.keys cs).mapM (fun s => do return ((← t.scope s).depth, s)) =
      .ok ((SortedMap.keys cs).map place) := by
    refine Lower.mapM_ok fun s hs => ?_
    obtain ⟨c, hc⟩ := (hkeys s).mp hs
    have hx := Array.getElem?_eq_getElem (hcs.lt_size hc)
    rw [ScopeTree.scope_eq_ok.mpr hx]
    simp only [place, hx]
    rfl
  refine ⟨_, Lower.bind_eq_ok.mpr ⟨_, hkeyed, rfl⟩, ?_⟩
  generalize hle : (fun x y : Nat × Nat =>
    decide (y.1 < x.1) || (x.1 == y.1 && decide (y.2 ≤ x.2))) = le
  have hperm := (List.mergeSort_perm ((SortedMap.keys cs).map place) le).map Prod.snd
  rw [List.map_map, show Prod.snd ∘ place = id from rfl, List.map_id] at hperm
  refine ⟨fun s => hperm.mem_iff.trans (hkeys s),
    hperm.nodup_iff.mpr hcs.sorted.nodup_keys, ?_⟩
  have hsorted : (((SortedMap.keys cs).map place).mergeSort le).Pairwise fun x y => le x y = true := by
    refine List.pairwise_mergeSort (fun x y z => ?_) (fun x y => ?_) _
    · subst hle
      simp only [Bool.or_eq_true, decide_eq_true_eq, Bool.and_eq_true, beq_iff_eq]
      omega
    · subst hle
      simp only [Bool.or_eq_true, decide_eq_true_eq, Bool.and_eq_true, beq_iff_eq]
      omega
  rw [List.pairwise_map]
  refine hsorted.imp_of_mem fun hx hy hxy x' y' hx' hy' => ?_
  obtain ⟨i, -, rfl⟩ := List.mem_map.mp (List.mem_mergeSort.mp hx)
  obtain ⟨j, -, rfl⟩ := List.mem_map.mp (List.mem_mergeSort.mp hy)
  subst hle
  simp only [place, Bool.or_eq_true, decide_eq_true_eq, Bool.and_eq_true, beq_iff_eq] at hxy hx' hy'
  rw [hx', hy', Option.getD_some, Option.getD_some] at hxy
  omega

/-- Merging keeps the candidates sound. -/
theorem mergeContained_spec (h : t.WellBound holds) {cs : Candidates} {captured : VarId → Prop}
    (hcs : Sound t captured cs) :
    ∃ cs', mergeContained t a cs = .ok cs' ∧ Sound t captured cs' := by
  obtain ⟨ss, hss, hmem, -⟩ := deepestFirst_spec hcs
  unfold mergeContained
  rw [hss, Lower.ok_bind]
  refine Lower.foldlM_ok (fun _ cs => Sound t captured cs) hcs ?_
  intro done s left cs' hsplit hcs'
  obtain ⟨c, hc⟩ := (hmem s).mp (hsplit ▸ List.mem_append_right _ List.mem_cons_self)
  exact mergeOne_spec h hcs' (hcs.lt_size hc)

end ClosureEnv.Candidates
