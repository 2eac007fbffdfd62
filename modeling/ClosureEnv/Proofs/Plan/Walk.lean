import ClosureEnv.Proofs.Loops.Ends
import ClosureEnv.Proofs.Plan.Sound

/-!
# Walks along parents

`Walk ps a way b` says that the parents of `a` are the plans in `way`, up to `b`. In a linked table
parents come before their children, so a walk is shorter than the table is long, and `hops` finds
exactly the walks there are (`Linking.hops_eq_ok`). A walk does not leave out any plan whose scope
lies between its ends (`Linking.walk_through`).

Without links parents may lead back to where they come from, or to plans that are not there.
`checkForest` and `hops` count the parents they go up to, and give up when they have met more of
them than there are plans. That is exact (`walksDecided`): what is reached at all is reached without
coming by a plan twice (`Walk.exists_simple`), and plans that are there and all different are not
more than there are in the table (`Walk.length_le`).
-/

namespace ClosureEnv.PlanTable

variable {t : ScopeTree} {holds : VarId → ClosureId → Prop} {captured : VarId → Prop}
  {ps : PlanTable}

/-- The parents on the way from one plan to another, the last being the goal. -/
inductive Walk (ps : PlanTable) : Nat → List PlanId → Nat → Prop where
  /-- The goal is reached. -/
  | here (a : Nat) : Walk ps a [] a
  /-- One more parent. -/
  | up {a p b : Nat} {way : List PlanId} (hp : ps.parent? a = some p) (hw : Walk ps p way b) :
    Walk ps a (p :: way) b

/-- The parent of a plan that has one. -/
theorem parent?_eq_some {p q : PlanId} :
    ps.parent? p = some q ↔ ∃ x, ps.plans[p]? = some x ∧ x.parent = some q :=
  Option.bind_eq_some_iff

namespace Walk

variable {a b c : Nat} {way : List PlanId}

/-- What parents lead to can be walked to. -/
theorem exists_of_chain (h : Relation.ReflTransGen (fun a b => ps.parent? a = some b) a b) :
    ∃ way, Walk ps a way b := by
  induction h using Relation.ReflTransGen.head_induction_on with
  | refl => exact ⟨[], .here _⟩
  | head hp _ ih =>
    obtain ⟨way, hw⟩ := ih
    exact ⟨_, .up hp hw⟩

/-- A walk goes along parents. -/
theorem chain (h : Walk ps a way b) :
    Relation.ReflTransGen (fun p q => ps.parent? p = some q) a b := by
  induction h with
  | here a => exact .refl
  | up hp _ ih => exact .head hp ih

/-- The plans of a walk have what its start has and parents keep. -/
theorem forall_mem {P : PlanId → Prop} (h : Walk ps a way b) (ha : P a)
    (hp : ∀ p q, P p → ps.parent? p = some q → P q) : ∀ p ∈ a :: way, P p := by
  induction h with
  | here => exact fun p hmem => List.mem_singleton.mp hmem ▸ ha
  | up hpar _ ih =>
    intro p hmem
    rcases List.mem_cons.mp hmem with rfl | hmem
    · exact ha
    · exact ih (hp _ _ ha hpar) p hmem

/-- A walk ends in its goal. -/
theorem exists_eq_append (h : Walk ps a way b) : ∃ init, a :: way = init ++ [b] := by
  induction h with
  | here a => exact ⟨[], rfl⟩
  | @up a _ _ _ _ _ ih =>
    obtain ⟨init, hinit⟩ := ih
    exact ⟨a :: init, by rw [hinit, List.cons_append]⟩

/-- A walk comes by its goal. -/
theorem goal_mem (h : Walk ps a way b) : b ∈ a :: way := by
  obtain ⟨init, hinit⟩ := h.exists_eq_append
  rw [hinit]
  exact List.mem_append_right init (List.mem_singleton_self b)

/-- From each of its plans a walk goes on to the goal. -/
theorem exists_from (h : Walk ps a way b) (hc : c ∈ a :: way) :
    ∃ back, Walk ps c back b ∧ (c :: back) <:+ (a :: way) := by
  induction h with
  | here a =>
    obtain rfl := List.mem_singleton.mp hc
    exact ⟨[], .here c, List.suffix_rfl⟩
  | @up a p b way hp hw ih =>
    rcases List.mem_cons.mp hc with rfl | hc
    · exact ⟨p :: way, .up hp hw, List.suffix_rfl⟩
    · obtain ⟨back, hback, hsuffix⟩ := ih hc
      exact ⟨back, hback, hsuffix.trans (List.suffix_cons a _)⟩

/-- What is reached is reached without coming by a plan twice. -/
theorem exists_simple (h : Walk ps a way b) :
    ∃ way, Walk ps a way b ∧ (a :: way).Nodup := by
  induction h with
  | here a => exact ⟨[], .here a, List.nodup_singleton a⟩
  | @up a p b _ hp _ ih =>
    obtain ⟨way, hway, hnodup⟩ := ih
    by_cases hmem : a ∈ p :: way
    · obtain ⟨back, hback, hsuffix⟩ := hway.exists_from hmem
      exact ⟨back, hback, hnodup.sublist hsuffix.sublist⟩
    · exact ⟨p :: way, .up hp hway, List.nodup_cons.mpr ⟨hmem, hnodup⟩⟩

/-- So it is where parents lead to it. -/
theorem exists_simple_of_chain (h : Relation.ReflTransGen (fun a b => ps.parent? a = some b) a b) :
    ∃ way, Walk ps a way b ∧ (a :: way).Nodup := by
  obtain ⟨way, hway⟩ := exists_of_chain h
  exact hway.exists_simple

/-- The plans that a walk goes on from are there. -/
theorem lt_size_of_mem (h : Walk ps a way b) : ∀ p ∈ (a :: way).dropLast, p < ps.plans.size := by
  induction h with
  | here a => exact fun p hp => absurd hp (List.not_mem_nil)
  | up hp _ ih =>
    intro p hmem
    rw [List.dropLast_cons_of_ne_nil (List.cons_ne_nil _ _)] at hmem
    rcases List.mem_cons.mp hmem with rfl | hmem
    · obtain ⟨x, hx, -⟩ := parent?_eq_some.mp hp
      exact (Array.getElem?_eq_some_iff.mp hx).1
    · exact ih p hmem

/-- Different plans that are there are not more than there are plans. -/
theorem length_le (h : Walk ps a way b) (hnodup : (a :: way).Nodup) :
    way.length ≤ ps.plans.size := by
  have hsub : (a :: way).dropLast ⊆ List.range ps.plans.size :=
    fun p hp => List.mem_range.mpr (h.lt_size_of_mem p hp)
  have hle := ((hnodup.sublist (List.dropLast_sublist _)).subperm hsub).length_le
  simpa using hle

/-- A walk to a plan that is there meets fewer parents than there are plans. -/
theorem length_lt (h : Walk ps a way b) (hnodup : (a :: way).Nodup) (hb : b < ps.plans.size) :
    way.length < ps.plans.size := by
  have hsub : a :: way ⊆ List.range ps.plans.size := by
    intro p hp
    obtain ⟨init, hinit⟩ := h.exists_eq_append
    have hfront : p ∈ init → p < ps.plans.size := fun hp => h.lt_size_of_mem p (by
      rw [hinit, List.dropLast_concat]
      exact hp)
    rw [hinit, List.mem_append, List.mem_singleton] at hp
    exact List.mem_range.mpr (hp.elim hfront fun heq => heq ▸ hb)
  have hle := (hnodup.subperm hsub).length_le
  rw [List.length_range] at hle
  exact hle

end Walk

/-- What is found on the way is a walk. -/
theorem walk_of_hopsFrom {start b : PlanId} {bound : Nat} {a : PlanId} {way : List PlanId}
    (h : ps.hopsFrom start b bound a = .ok way) : Walk ps a way b := by
  induction bound generalizing a way with
  | zero =>
    unfold hopsFrom at h
    split at h
    · next heq =>
      cases h
      exact beq_iff_eq.mp heq ▸ .here a
    · obtain ⟨x, -, h⟩ := Lower.bind_eq_ok.mp h
      split at h <;> cases h
  | succ bound ih =>
    unfold hopsFrom at h
    split at h
    · next heq =>
      cases h
      exact beq_iff_eq.mp heq ▸ .here a
    · obtain ⟨x, hx, h⟩ := Lower.bind_eq_ok.mp h
      split at h
      · cases h
      · next p hp =>
        obtain ⟨rest, hrest, h⟩ := Lower.bind_eq_ok.mp h
        cases h
        exact .up (parent?_eq_some.mpr ⟨x, plan_eq_ok.mp hx, hp⟩) (ih hrest)

/-- A walk that does not come by a plan twice is found within as many steps as it has parents. -/
theorem hopsFrom_of_walk (start : PlanId) {a b : Nat} {way : List PlanId} (h : Walk ps a way b)
    (hnodup : (a :: way).Nodup) {bound : Nat} (hb : way.length ≤ bound) :
    ps.hopsFrom start b bound a = .ok way := by
  induction h generalizing bound with
  | here a =>
    unfold hopsFrom
    rw [if_pos (beq_self_eq_true a)]
    rfl
  | @up a p b way hp hw ih =>
    obtain ⟨bound, rfl⟩ : ∃ n, bound = n + 1 :=
      ⟨bound - 1, by simp only [List.length_cons] at hb; omega⟩
    obtain ⟨hmem, hrest⟩ := List.nodup_cons.mp hnodup
    have hne : a ≠ b := fun heq => hmem (heq ▸ hw.goal_mem)
    obtain ⟨x, hx, hxp⟩ := parent?_eq_some.mp hp
    unfold hopsFrom
    rw [if_neg (by simpa using hne), plan_eq_ok.mpr hx, Lower.ok_bind]
    simp only [hxp]
    rw [ih hrest (Nat.le_of_succ_le_succ hb)]
    rfl

/-! ## In a linked table -/

namespace Linking

variable (hl : Linking t captured ps) (hpre : Preorder t.scopes)

include hl hpre

/-- A walk goes down by one plan at least with every parent. -/
theorem add_length_le {a b : Nat} {way : List PlanId} (h : Walk ps a way b) :
    b + way.length ≤ a := by
  induction h with
  | here => exact Nat.le_refl _
  | up hp _ ih =>
    have hlt := hl.parent_lt hpre hp
    simp only [List.length_cons]
    omega

/-- A walk does not come by a plan twice. -/
theorem nodup_of_walk {a b : Nat} {way : List PlanId} (h : Walk ps a way b) :
    (a :: way).Nodup := by
  induction h with
  | here a => exact List.nodup_singleton a
  | @up a p b way hp hw ih =>
    refine List.nodup_cons.mpr ⟨fun hmem => ?_, ih⟩
    have hlt := hl.parent_lt hpre hp
    have hle : ∀ q ∈ p :: way, q ≤ p := hw.forall_mem (Nat.le_refl p)
      fun q r hq hr => Nat.le_trans (Nat.le_of_lt (hl.parent_lt hpre hr)) hq
    exact Nat.lt_irrefl a (Nat.lt_of_le_of_lt (hle a hmem) hlt)

/-- The way from one plan to another is the walk between them. -/
theorem hops_eq_ok {a b : Nat} (ha : a < ps.plans.size) {way : List PlanId} :
    ps.hops a b = .ok way ↔ Walk ps a way b := by
  refine ⟨walk_of_hopsFrom, fun h => hopsFrom_of_walk a h (hl.nodup_of_walk hpre h) ?_⟩
  have := hl.add_length_le hpre h
  omega

/-- A walk outwards comes by every plan from between its ends. -/
theorem walk_through {a b p : Nat} {way : List PlanId} {x y z : ScopeId} (h : Walk ps a way b)
    (hx : ps.From a x) (hy : ps.From b y) (hz : ps.From p z) (hyz : AroundEq t.scopes y z)
    (hzx : AroundEq t.scopes z x) : ∃ front back, way = front ++ back ∧ Walk ps a front p ∧
      Walk ps p back b := by
  induction h generalizing x with
  | here a =>
    cases hx.unique hy
    cases AroundEq.antisymm hpre hyz hzx
    obtain rfl := hl.placed.from_inj hx hz
    exact ⟨[], [], rfl, .here a, .here a⟩
  | @up a q b way hq hw ih =>
    rcases hzx with rfl | hzx
    · obtain rfl := hl.placed.from_inj hx hz
      exact ⟨[], q :: way, rfl, .here a, .up hq hw⟩
    · obtain ⟨s, o, hs, ho, -, hin⟩ := hl.parent a q hq
      cases hx.unique hs
      obtain ⟨front, back, rfl, hfront, hback⟩ := ih ho hy (hin p z hz hzx)
      exact ⟨q :: front, back, rfl, .up hq hfront, hback⟩

end Linking

/-- The parent of a plan that is there. -/
theorem parent?_of_plan {p : PlanId} {x : Plan} (hx : ps.plans[p]? = some x) :
    ps.parent? p = x.parent := by
  rw [parent?, hx, Option.bind_some]

/-! ## The way from one plan to another -/

/-- What is reached is found, along different plans. -/
theorem exists_hops_eq_ok {a b : Nat}
    (h : Relation.ReflTransGen (fun p q => ps.parent? p = some q) a b) :
    ∃ way, ps.hops a b = .ok way ∧ Walk ps a way b ∧ (a :: way).Nodup := by
  obtain ⟨way, hway, hnodup⟩ := Walk.exists_simple_of_chain h
  exact ⟨way, hopsFrom_of_walk a hway hnodup (hway.length_le hnodup), hway, hnodup⟩

/-- What is found is the walk that comes by no plan twice. -/
theorem hops_eq_ok_iff {a b : Nat} {way : List PlanId} :
    ps.hops a b = .ok way ↔ Walk ps a way b ∧ (a :: way).Nodup := by
  constructor
  · intro h
    obtain ⟨way', h', hway, hnodup⟩ := exists_hops_eq_ok (walk_of_hopsFrom h).chain
    cases h.symm.trans h'
    exact ⟨hway, hnodup⟩
  · rintro ⟨hway, hnodup⟩
    exact hopsFrom_of_walk a hway hnodup (hway.length_le hnodup)

/-! ## Whether the chains of parents end -/

/-- The parents of a plan end, with a plan that is there and has none. -/
def Rooted (ps : PlanTable) (p : PlanId) : Prop :=
  ∃ r x, Relation.ReflTransGen (fun p q => ps.parent? p = some q) p r ∧
    ps.plans[r]? = some x ∧ x.parent = none

/-- The parents of a plan end exactly if it has none or those of its parent do. -/
theorem rooted_iff {p : PlanId} {x : Plan} (hx : ps.plans[p]? = some x) :
    ps.Rooted p ↔ ∀ q, x.parent = some q → ps.Rooted q := by
  constructor
  · rintro ⟨r, y, hchain, hy, hnone⟩ q hq
    rcases hchain.cases_head with rfl | ⟨q', hq', hrest⟩
    · cases hx.symm.trans hy
      cases hq.symm.trans hnone
    · obtain rfl : q' = q := Option.some.inj (hq'.symm.trans ((parent?_of_plan hx).trans hq))
      exact ⟨r, y, hrest, hy, hnone⟩
  · intro h
    cases hq : x.parent with
    | none => exact ⟨p, x, .refl, hx, hq⟩
    | some q =>
      obtain ⟨r, y, hchain, hy, hnone⟩ := h q hq
      exact ⟨r, y, .head ((parent?_of_plan hx).trans hq) hchain, hy, hnone⟩

/-- A chain that is followed to its end has one. -/
theorem rooted_of_checkChain {start : PlanId} {bound : Nat} {p : PlanId}
    (h : ps.checkChain start bound (some p) = .ok ()) : ps.Rooted p := by
  induction bound generalizing p with
  | zero => cases h
  | succ bound ih =>
    obtain ⟨x, hx, h⟩ := Lower.bind_eq_ok.mp h
    exact (rooted_iff (plan_eq_ok.mp hx)).mpr fun q hq => ih (hq ▸ h)

/-- A chain is followed to its end within as many steps as it has plans. -/
theorem checkChain_of_walk (start : PlanId) {p r : Nat} {way : List PlanId} (h : Walk ps p way r)
    {x : Plan} (hr : ps.plans[r]? = some x) (hx : x.parent = none) {bound : Nat}
    (hb : way.length < bound) : ps.checkChain start bound (some p) = .ok () := by
  induction h generalizing bound with
  | here r =>
    obtain ⟨bound, rfl⟩ : ∃ n, bound = n + 1 := ⟨bound - 1, by omega⟩
    rw [checkChain, plan_eq_ok.mpr hr, Lower.ok_bind, hx]
    cases bound <;> rfl
  | @up p q r way hp hw ih =>
    obtain ⟨bound, rfl⟩ : ∃ n, bound = n + 1 := ⟨bound - 1, by omega⟩
    obtain ⟨y, hy, hyp⟩ := parent?_eq_some.mp hp
    rw [checkChain, plan_eq_ok.mpr hy, Lower.ok_bind, hyp]
    exact ih hr (by simpa using hb)

/-- A chain is followed to its end exactly if it has one. -/
theorem checkChain_eq_ok_iff (start p : PlanId) :
    ps.checkChain start ps.plans.size (some p) = .ok () ↔ ps.Rooted p := by
  refine ⟨rooted_of_checkChain, ?_⟩
  rintro ⟨r, x, hchain, hr, hx⟩
  obtain ⟨way, hway, hnodup⟩ := Walk.exists_simple_of_chain hchain
  exact checkChain_of_walk start hway hr hx
    (hway.length_lt hnodup (Array.getElem?_eq_some_iff.mp hr).1)

/-- The table passes exactly if the parents of every plan end. -/
theorem checkForest_eq_ok_iff :
    ps.checkForest = .ok () ↔ ∀ p < ps.plans.size, ps.Rooted p := by
  constructor
  · intro h p hp
    have hx : ps.plans[p]? = some ps.plans[p] := Array.getElem?_eq_getElem hp
    have hchain := Lower.of_forM_ok h (Array.getElem_mem_toList hp)
    exact (rooted_iff hx).mpr fun q hq => rooted_of_checkChain (hq ▸ hchain)
  · intro h
    refine Lower.forM_ok fun x hmem => ?_
    obtain ⟨p, hp, rfl⟩ := List.getElem_of_mem hmem
    rw [Array.length_toList] at hp
    have hx : ps.plans[p]? = some ps.plans[p] := Array.getElem?_eq_getElem hp
    cases hq : ps.plans[p].parent with
    | none =>
      rw [Array.getElem_toList, hq]
      cases ps.plans.size <;> rfl
    | some q =>
      rw [Array.getElem_toList, hq]
      exact (checkChain_eq_ok_iff _ q).mpr ((rooted_iff hx).mp (h p hp) q hq)

/-! ## The loops -/

/-- A turn of the loop that goes up from `start` to `goal`; it gives up when it has met more parents
than there are plans. -/
def hopsTurn (ps : PlanTable) (start goal : PlanId) :
    PlanId × List PlanId → Lower (PlanId × List PlanId ⊕ List PlanId)
  | (cur, out) =>
    if cur == goal then return .inr out
    else do
      match (← ps.plan cur).parent with
      | none => inconsistent (.planUnreachable goal start)
      | some p =>
        if ps.plans.size < (out ++ [p]).length then inconsistent .cyclicHops
        else return .inl (p, out ++ [p])

/-- A turn of the loop that follows a chain of parents and counts them; it gives up when it has
counted more of them than there are plans. -/
def forestTurn (ps : PlanTable) (start : PlanId) :
    Nat × Option PlanId → Lower (Nat × Option PlanId ⊕ Unit)
  | (_, none) => return .inr ()
  | (seen, some p) =>
    if ps.plans.size < seen + 1 then inconsistent (.cyclicForest start)
    else do return .inl (seen + 1, (← ps.plan p).parent)

/-- A turn that goes on meets one more parent, and not too many. -/
theorem hopsTurn_eq_inl {a b cur : PlanId} {out : List PlanId} {s : PlanId × List PlanId}
    (h : ps.hopsTurn a b (cur, out) = .ok (.inl s)) :
    s.2.length = out.length + 1 ∧ s.2.length ≤ ps.plans.size := by
  rw [hopsTurn] at h
  split at h
  · cases h
  · obtain ⟨x, -, h⟩ := Lower.bind_eq_ok.mp h
    split at h
    · cases h
    · split at h
      · cases h
      · next hle =>
        cases h
        exact ⟨List.length_append, Nat.le_of_not_lt hle⟩

/-- The search goes on as the loop does. -/
theorem hopsFrom_eq_turn (a b cur : PlanId) {out : List PlanId} (hout : out.length ≤ ps.plans.size) :
    (out ++ ·) <$> ps.hopsFrom a b (ps.plans.size - out.length) cur =
      ps.hopsTurn a b (cur, out) >>= Sum.elim
        (fun s => (s.2 ++ ·) <$> ps.hopsFrom a b (ps.plans.size - s.2.length) s.1) .ok := by
  rw [hopsFrom, hopsTurn]
  by_cases heq : cur == b
  · rw [if_pos heq, if_pos heq]
    exact congrArg Except.ok (List.append_nil out)
  · rw [if_neg heq, if_neg heq]
    cases ps.plan cur with
    | error e => rfl
    | ok x =>
      rw [Lower.ok_bind, Lower.ok_bind]
      cases x.parent with
      | none => rfl
      | some p =>
        have hlen : (out ++ [p]).length = out.length + 1 := List.length_append
        cases hb : ps.plans.size - out.length with
        | zero =>
          simp only [hlen]
          rw [if_pos (by omega)]
          rfl
        | succ bound =>
          have hbound : ps.plans.size - (out ++ [p]).length = bound := by omega
          simp only [hlen]
          rw [if_neg (by omega)]
          simp only [pure, Except.pure, Lower.ok_bind, Sum.elim_inl, hbound]
          cases ps.hopsFrom a b bound p with
          | error e => rfl
          | ok rest => exact congrArg Except.ok (List.append_assoc out [p] rest).symm

/-- The loop that goes up to a plan is over. -/
theorem hops_end (a b : PlanId) :
    ∃ n ≤ ps.plans.size + 1, EndsIn (ps.hopsTurn a b) n (a, []) (ps.hops a b) := by
  obtain ⟨n, hn, hends⟩ := EndsIn.of_measure (ps.hopsTurn a b)
    (fun s => s.2.length ≤ ps.plans.size) (fun s => ps.plans.size - s.2.length)
    (f := fun _ s => (s.2 ++ ·) <$> ps.hopsFrom a b (ps.plans.size - s.2.length) s.1)
    (b := ps.plans.size + 1) (s := (a, []))
    (fun _ s hs => hopsFrom_eq_turn a b s.1 hs)
    (fun s s' _ ht => by
      obtain ⟨hlen, hle⟩ := hopsTurn_eq_inl ht
      exact ⟨hle, by omega⟩)
    (Nat.zero_le _) (Nat.lt_succ_self _)
  refine ⟨n, hn, ?_⟩
  have hhops : (([] : List PlanId) ++ ·) <$> ps.hopsFrom a b ps.plans.size a = ps.hops a b :=
    id_map (ps.hopsFrom a b ps.plans.size a)
  exact hhops ▸ hends

/-- The check goes on as the loop does. -/
theorem checkChain_eq_turn (start : PlanId) (cur : Option PlanId) {seen : Nat}
    (hseen : seen ≤ ps.plans.size) :
    ps.checkChain start (ps.plans.size - seen) cur =
      ps.forestTurn start (seen, cur) >>= Sum.elim
        (fun s => ps.checkChain start (ps.plans.size - s.1) s.2) .ok := by
  cases cur with
  | none => cases ps.plans.size - seen <;> rfl
  | some p =>
    rw [forestTurn]
    cases hb : ps.plans.size - seen with
    | zero =>
      rw [if_pos (by omega)]
      rfl
    | succ bound =>
      have hbound : ps.plans.size - (seen + 1) = bound := by omega
      rw [if_neg (by omega), checkChain]
      cases ps.plan p with
      | error e => rfl
      | ok x =>
        simp only [Lower.ok_bind, pure, Except.pure, Sum.elim_inl, hbound]

/-- The loop that follows a chain of parents is over. -/
theorem checkChain_end (start : PlanId) (cur : Option PlanId) :
    ∃ n ≤ ps.plans.size + 1, EndsIn (ps.forestTurn start) n (0, cur)
      (ps.checkChain start ps.plans.size cur) :=
  EndsIn.of_measure (ps.forestTurn start) (fun s => s.1 ≤ ps.plans.size)
    (fun s => ps.plans.size - s.1) (f := fun _ s => ps.checkChain start (ps.plans.size - s.1) s.2)
    (b := ps.plans.size + 1) (s := (0, cur))
    (fun _ s hs => checkChain_eq_turn start s.2 hs)
    (fun s s' _ ht => by
      obtain ⟨seen, cur⟩ := s
      cases cur with
      | none => cases ht
      | some p =>
        rw [forestTurn] at ht
        split at ht
        · cases ht
        · next hle =>
          obtain ⟨x, -, ht⟩ := Lower.bind_eq_ok.mp ht
          cases ht
          exact ⟨Nat.le_of_not_lt hle, by omega⟩)
    (Nat.zero_le _) (Nat.lt_succ_self _)

/-! ## Both are exact -/

/-- What the searches along parents tell of a table. -/
structure WalksDecided (ps : PlanTable) : Prop where
  /-- Every chain is followed in a loop that is over. -/
  chains : ∀ start cur, ∃ n ≤ ps.plans.size + 1,
    EndsIn (ps.forestTurn start) n (0, cur) (ps.checkChain start ps.plans.size cur)
  /-- The table passes exactly if the parents of every plan end. -/
  forest : ps.checkForest = .ok () ↔ ∀ p < ps.plans.size, ps.Rooted p
  /-- Every way is looked for in a loop that is over. -/
  ways : ∀ a b, ∃ n ≤ ps.plans.size + 1, EndsIn (ps.hopsTurn a b) n (a, []) (ps.hops a b)
  /-- A way is found exactly to the plans that are reached along parents. -/
  reached : ∀ a b, (∃ way, ps.hops a b = .ok way) ↔
    Relation.ReflTransGen (fun p q => ps.parent? p = some q) a b
  /-- It is the walk that comes by no plan twice. -/
  walk : ∀ a b way, ps.hops a b = .ok way ↔ Walk ps a way b ∧ (a :: way).Nodup
  /-- No plan is on the way from a plan to itself. -/
  self : ∀ a, ps.hops a a = .ok []
  /-- Where nothing leads there is an error. -/
  unreached : ∀ a b, ¬ Relation.ReflTransGen (fun p q => ps.parent? p = some q) a b →
    ∃ e, ps.hops a b = .error e

/-- The check of the parents and the search along them are exact, whatever the parents are. -/
theorem walksDecided (ps : PlanTable) : WalksDecided ps where
  chains := checkChain_end
  forest := checkForest_eq_ok_iff
  ways := hops_end
  reached a b := by
    refine ⟨fun ⟨way, h⟩ => (walk_of_hopsFrom h).chain, fun h => ?_⟩
    obtain ⟨way, hway, -⟩ := exists_hops_eq_ok h
    exact ⟨way, hway⟩
  walk a b way := hops_eq_ok_iff
  self a := hops_eq_ok_iff.mpr ⟨.here a, List.nodup_singleton a⟩
  unreached a b hnot := by
    cases h : ps.hops a b with
    | error e => exact ⟨e, rfl⟩
    | ok way => exact absurd (walk_of_hopsFrom h).chain hnot

/-- Three plans, of which the first leads into a cycle of the others. -/
private def tailedTable : PlanTable :=
  let plan (p : PlanId) (parent : PlanId) : Plan :=
    ⟨p, .static, none, [], none, .value, [], some parent, false⟩
  ⟨#[plan 0 1, plan 1 2, plan 2 1], [], [], [], []⟩

example : tailedTable.hops 0 2 = .ok [1, 2] ∧
    tailedTable.hops 0 3 = inconsistent .cyclicHops ∧
    tailedTable.checkForest = inconsistent (.cyclicForest 0) := by
  decide +kernel

end ClosureEnv.PlanTable
