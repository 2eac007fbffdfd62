import ClosureEnv.Proofs.Plan.Placed
import Mathlib.Logic.Relation

/-!
# The plans around a plan

What the searches among well-placed plans find: the innermost of some plans around a scope
(`innermost_spec`), the nearest plan around another (`nearestEnclosing_spec`), and the chain from
one plan outwards to others (`chainFrom_spec`).
-/

namespace ClosureEnv.PlanTable

variable {t : ScopeTree} {holds : VarId → ClosureId → Prop} {captured : VarId → Prop}
  {ps : PlanTable}

/-- `q` is the innermost of the plans from around the scope of `p`. -/
def Nearest (t : ScopeTree) (ps : PlanTable) (p q : PlanId) : Prop :=
  ∃ s o, ps.From p s ∧ ps.From q o ∧ Around t.scopes o s ∧
    ∀ r z, ps.From r z → Around t.scopes z s → AroundEq t.scopes z o

/-- A plan that is there. -/
theorem plan_eq_ok {p : PlanId} {x : Plan} : ps.plan p = .ok x ↔ ps.plans[p]? = some x :=
  Lower.orInconsistent_eq_ok

/-- A plan comes from one scope. -/
theorem From.unique {p : PlanId} {s s' : ScopeId} (h : ps.From p s) (h' : ps.From p s') :
    s = s' := by
  obtain ⟨x, hx, ho⟩ := h
  obtain ⟨x', hx', ho'⟩ := h'
  cases hx.symm.trans hx'
  exact Option.some.inj (ho.symm.trans ho')

/-- The scope of a plan is known. -/
theorem From.origin? {p : PlanId} {s : ScopeId} (h : ps.From p s) : ps.origin? p = some s := by
  obtain ⟨x, hx, hs⟩ := h
  simp [PlanTable.origin?, hx, hs]

namespace Placed

variable (hps : Placed t captured ps)

include hps

/-- One plan at most comes from a scope. -/
theorem from_inj {p q s : Nat} (hp : ps.From p s) (hq : ps.From q s) : p = q := by
  rcases Nat.lt_trichotomy p q with hlt | heq | hlt
  · exact absurd (hps.order p q s s hp hq hlt) (Nat.lt_irrefl _)
  · exact heq
  · exact absurd (hps.order q p s s hq hp hlt) (Nat.lt_irrefl _)

/-- Plans from further out come first. -/
theorem lt_of_around (hpre : Preorder t.scopes) {p q s o : Nat} (hp : ps.From p s)
    (hq : ps.From q o) (ha : Around t.scopes o s) : q < p := by
  have hlt := ha.lt hpre
  rcases Nat.lt_trichotomy p q with hpq | heq | hqp
  · exact absurd (hps.order p q s o hp hq hpq) (Nat.not_lt.mpr (Nat.le_of_lt hlt))
  · subst heq
    exact absurd (hp.unique hq) (Nat.ne_of_gt hlt)
  · exact hqp

/-- The scope of a plan exists. -/
theorem exists_scope {p s : Nat} (hp : ps.From p s) : ∃ sc, t.scopes[s]? = some sc := by
  obtain ⟨x, hx, ho⟩ := hp
  obtain ⟨-, sc, hsc, -⟩ := hps.origin p x s hx ho
  exact ⟨sc, hsc⟩

end Placed

/-- A plan that comes from a scope exists. -/
theorem From.lt_size {p : Nat} {s : ScopeId} (h : ps.From p s) : p < ps.plans.size := by
  obtain ⟨x, hx, -⟩ := h
  exact (Array.getElem?_eq_some_iff.mp hx).1

/-- There is one nearest plan. -/
theorem Nearest.unique (hps : Placed t captured ps) (hpre : Preorder t.scopes) {p q q' : PlanId}
    (h : Nearest t ps p q) (h' : Nearest t ps p q') : q = q' := by
  obtain ⟨s, o, hp, hq, ha, hin⟩ := h
  obtain ⟨s', o', hp', hq', ha', hin'⟩ := h'
  cases hp.unique hp'
  cases AroundEq.antisymm hpre (hin' q o hq ha) (hin q' o' hq' ha')
  exact hps.from_inj hq hq'

/-- What is around a scope is not as deep. -/
theorem depth_lt (h : t.WellBound holds) {a b : Nat} {x y : Scope} (hab : Around t.scopes a b)
    (hx : t.scopes[a]? = some x) (hy : t.scopes[b]? = some y) : x.depth < y.depth := by
  induction b using Nat.strongRecOn generalizing y with
  | ind b ih =>
    obtain ⟨p, hp, hap⟩ := (around_iff h.preorder).mp hab
    rw [parentIn?_of_scope hy] at hp
    obtain ⟨hlt, hsize⟩ := h.parent_lt hy hp
    have hz : t.scopes[p]? = some t.scopes[p] := Array.getElem?_eq_getElem hsize
    have hd := h.depth b p y _ hy hp hz
    rcases hap with rfl | hap
    · cases hx.symm.trans hz
      omega
    · have := ih p hlt hap hz
      omega

/-- The order of keys: by depth, then by number. -/
theorem keyLt_iff {a b : Nat × Nat} :
    keyLt a b = true ↔ a.1 < b.1 ∨ (a.1 = b.1 ∧ @LT.lt Nat _ a.2 b.2) := by
  simp [keyLt]

/-- No key comes before what one that comes before none comes before. -/
theorem keyLt_false_trans {a b c : Nat × ScopeId} (hab : keyLt a b = false)
    (hbc : keyLt b c = false) : keyLt a c = false := by
  rw [← Bool.not_eq_true, keyLt_iff] at *
  omega

/-- Of two keys one does not come before the other. -/
theorem keyLt_asymm {a b : Nat × ScopeId} (hab : keyLt a b = true) : keyLt b a = false := by
  rw [← Bool.not_eq_true, keyLt_iff]
  rw [keyLt_iff] at hab
  omega

/-- The better of two keyed plans, the first unless the second has a greater key. -/
def better (best : Option ((Nat × ScopeId) × PlanId)) (x : (Nat × ScopeId) × PlanId) :
    Option ((Nat × ScopeId) × PlanId) :=
  match best with
  | none => some x
  | some b => if keyLt b.1 x.1 then some x else best

/-- The best of some keyed plans, given one to begin with. -/
theorem foldl_better (keyed : List ((Nat × ScopeId) × PlanId)) (b : (Nat × ScopeId) × PlanId) :
    ∃ r, keyed.foldl better (some b) = some r ∧ r ∈ b :: keyed ∧
      ∀ x ∈ b :: keyed, keyLt r.1 x.1 = false := by
  induction keyed generalizing b with
  | nil =>
    refine ⟨b, rfl, List.mem_cons_self, fun x hx => ?_⟩
    obtain rfl := List.mem_singleton.mp hx
    simp [keyLt]
  | cons y keyed ih =>
    rw [List.foldl_cons]
    by_cases hby : keyLt b.1 y.1 = true
    · obtain ⟨r, hr, hmem, hmax⟩ := ih y
      refine ⟨r, by rw [better, if_pos hby, hr], List.mem_cons_of_mem _ hmem, fun x hx => ?_⟩
      rcases List.mem_cons.mp hx with rfl | hx
      · exact keyLt_false_trans (hmax y List.mem_cons_self) (keyLt_asymm hby)
      · exact hmax x hx
    · obtain ⟨r, hr, hmem, hmax⟩ := ih b
      refine ⟨r, by rw [better, if_neg hby, hr], ?_, fun x hx => ?_⟩
      · rcases List.mem_cons.mp hmem with rfl | hmem
        · exact List.mem_cons_self
        · exact List.mem_cons_of_mem _ (List.mem_cons_of_mem _ hmem)
      · rcases List.mem_cons.mp hx with rfl | hx
        · exact hmax x List.mem_cons_self
        rcases List.mem_cons.mp hx with rfl | hx
        · exact keyLt_false_trans (hmax b List.mem_cons_self) (by simpa using hby)
        · exact hmax x (List.mem_cons_of_mem _ hx)

/-- The innermost of some plans. -/
def IsInnermost (t : ScopeTree) (ps : PlanTable) (plans : List PlanId) (d : PlanId) : Prop :=
  d ∈ plans ∧ ∃ s, ps.From d s ∧ ∀ p o, p ∈ plans → ps.From p o → AroundEq t.scopes o s

/-- Some plans from around a scope have an innermost one. -/
theorem Placed.innermost_spec (hps : Placed t captured ps) (h : t.WellBound holds) {i : Nat}
    {l : List PlanId} (hp : ∀ p ∈ l, ∃ s, ps.From p s ∧ Around t.scopes s i) :
    ∃ r, ps.innermost t l = .ok r ∧ (r = none → l = []) ∧
      ∀ d, r = some d → IsInnermost t ps l d := by
  obtain ⟨keyed, hk, hmem, hkey⟩ := Lower.mapM_spec
    (f := fun p => do return (← ps.originKey t p, p)) (l := l)
    (P := fun p q => q.2 = p ∧ ∃ sc, t.scopes[q.1.2]? = some sc ∧ q.1.1 = sc.depth ∧
      ps.From p q.1.2 ∧ Around t.scopes q.1.2 i) fun p hpp => by
    obtain ⟨s, ⟨x, hx, ho⟩, ha⟩ := hp p hpp
    obtain ⟨sc, hsc⟩ := hps.exists_scope ⟨x, hx, ho⟩
    refine ⟨((sc.depth, s), p), ?_, rfl, sc, hsc, rfl, ⟨x, hx, ho⟩, ha⟩
    simp [originKey, plan_eq_ok.mpr hx, ho, ScopeTree.scope_eq_ok.mpr hsc, bind, Except.bind,
      pure, Except.pure]
  refine ⟨_, Lower.bind_eq_ok.mpr ⟨keyed, hk, rfl⟩, ?_, ?_⟩
  · intro hnone
    rw [Option.map_eq_none_iff] at hnone
    cases keyed with
    | nil => exact List.forall₂_nil_right_iff.mp (Lower.mapM_eq_ok.mp hk)
    | cons q keyed =>
      obtain ⟨r, hr, -⟩ := foldl_better keyed q
      exact absurd (hnone.symm.trans hr) (by simp)
  · intro d hd
    obtain ⟨q, hq, rfl⟩ := Option.map_eq_some_iff.mp hd
    cases keyed with
    | nil => cases hq
    | cons b keyed =>
      obtain ⟨r, hr, hrmem, hmax⟩ := foldl_better keyed b
      cases hq.symm.trans hr
      obtain ⟨_, hqp, rfl, sc, hsc, hdepth, hfrom, ha⟩ := hmem q hrmem
      refine ⟨hqp, q.1.2, hfrom, fun p o hpp ho => ?_⟩
      obtain ⟨y, hy, -, sc', hsc', hdepth', hfrom', ha'⟩ := hkey p hpp
      cases ho.unique hfrom'
      rcases AroundEq.total h.preorder (.inr ha') (.inr ha) with hle | hlt
      · exact hle
      · have hd := depth_lt h hlt hsc hsc'
        have hno := hmax _ hy
        rw [← Bool.not_eq_true, keyLt_iff] at hno
        exact absurd (.inl (by rw [hdepth, hdepth']; exact hd)) hno

/-- The search for a plan around another finds the nearest one. -/
theorem Placed.enclosingFrom_spec (hps : Placed t captured ps) (h : t.WellBound holds) {p s : Nat}
    (hp : ps.From p s) (z : Nat) : ∀ bound, z < bound → Around t.scopes z s →
      (∀ r y, ps.From r y → Around t.scopes y s → AroundEq t.scopes y z) →
      ∃ r, ps.enclosingFrom t p bound (some z) = .ok r ∧
        (r = none → ∀ q o, ps.From q o → ¬ Around t.scopes o s) ∧
        ∀ q, r = some q → Nearest t ps p q := by
  induction z using Nat.strongRecOn with
  | ind z ih =>
    intro bound hb hzs hall
    obtain ⟨bound, rfl⟩ : ∃ k, bound = k + 1 := ⟨bound - 1, by omega⟩
    have hz := Nat.lt_trans (hzs.lt h.preorder) (hzs.lt_size h.preorder)
    have hx : t.scopes[z]? = some t.scopes[z] := Array.getElem?_eq_getElem hz
    rw [enclosingFrom]
    cases hf : ps.scopePlan.find? z with
    | some q =>
      obtain ⟨o, hq, hoz, hclear⟩ := hps.scope_plan z q hf
      have hos := hoz.trans_around h.preorder hzs
      have hqp : q ≠ p := by
        rintro rfl
        cases hp.unique hq
        exact Around.irrefl h.preorder hos
      dsimp only
      rw [if_pos (by simpa using hqp)]
      refine ⟨some q, rfl, fun hr => (by cases hr), ?_⟩
      rintro q' ⟨⟩
      refine ⟨s, o, hp, hq, hos, fun r y hr hys => ?_⟩
      rcases AroundEq.total h.preorder (hall r y hr hys) hoz with hle | hoy
      · exact hle
      · exact absurd hr ((hclear y hoy (hall r y hr hys)).2 r)
    | none =>
      dsimp only
      rw [ScopeTree.scope_eq_ok.mpr hx, Lower.ok_bind]
      have hstrict (r y : Nat) (hr : ps.From r y) (hys : Around t.scopes y s) :
          Around t.scopes y z := by
        rcases hall r y hr hys with rfl | hyz
        · rw [hps.scope_known r y hr] at hf
          cases hf
        · exact hyz
      cases hpar : t.scopes[z].parent with
      | none =>
        refine ⟨none, by cases bound <;> rfl, fun _ q o hq hos => ?_, fun q hr => (by cases hr)⟩
        obtain ⟨w, hw, -⟩ := (around_iff h.preorder).mp (hstrict q o hq hos)
        rw [parentIn?_of_scope hx, hpar] at hw
        cases hw
      | some w =>
        obtain ⟨hlt, -⟩ := h.parent_lt hx hpar
        have hpi := (parentIn?_of_scope hx).trans hpar
        exact ih w hlt bound (by omega) ((around_parent h.preorder hpi).trans h.preorder hzs)
          fun r y hr hys => aroundEq_parent h.preorder hpi (hstrict r y hr hys)

/-- The nearest plan around another is found. -/
theorem Placed.nearestEnclosing_spec (hps : Placed t captured ps) (h : t.WellBound holds)
    {p s : Nat} (hp : ps.From p s) : ∃ r, ps.nearestEnclosing t p = .ok r ∧
      (r = none → ∀ q o, ps.From q o → ¬ Around t.scopes o s) ∧
      ∀ q, r = some q → Nearest t ps p q := by
  obtain ⟨sc, hsc⟩ := hps.exists_scope hp
  obtain ⟨x, hx, ho⟩ := id hp
  have hunfold : ps.nearestEnclosing t p = ps.enclosingFrom t p (t.scopes.size + 1) sc.parent := by
    simp [nearestEnclosing, plan_eq_ok.mpr hx, ho, ScopeTree.scope_eq_ok.mpr hsc, bind, Except.bind]
  rw [hunfold]
  cases hpar : sc.parent with
  | none =>
    refine ⟨none, rfl, fun _ q o _ hos => ?_, fun q hr => (by cases hr)⟩
    obtain ⟨w, hw, -⟩ := (around_iff h.preorder).mp hos
    rw [parentIn?_of_scope hsc, hpar] at hw
    cases hw
  | some z =>
    obtain ⟨-, hz⟩ := h.parent_lt hsc hpar
    have hpi := (parentIn?_of_scope hsc).trans hpar
    exact hps.enclosingFrom_spec h hp z _ (by omega) (around_parent h.preorder hpi)
      fun r y _ hys => aroundEq_parent h.preorder hpi hys

/-- A link from at or around scope `s` that does not lead beyond all of some plans. -/
def Toward (t : ScopeTree) (ps : PlanTable) (s : ScopeId) (goals : List PlanId)
    (l : PlanId × PlanId) : Prop :=
  ∃ x y p o, ps.From l.1 x ∧ AroundEq t.scopes x s ∧ ps.From l.2 y ∧ p ∈ goals ∧ ps.From p o ∧
    AroundEq t.scopes o y

/-- The chain from a plan outwards to some plans around it. -/
theorem Placed.chainFrom_spec (hps : Placed t captured ps) (h : t.WellBound holds) (c : ClosureId)
    (s : Nat) : ∀ (bound : Nat) (cur : PlanId) (left : List PlanId), s < bound → ps.From cur s →
      (∀ p ∈ left, ∃ o, ps.From p o ∧ Around t.scopes o s) →
      ∃ ls, ps.chainFrom t c bound cur left = .ok ls ∧
        (∀ l ∈ ls, Nearest t ps l.1 l.2 ∧ Toward t ps s left l) ∧
        ∀ p ∈ left, Relation.ReflTransGen (fun a b => (a, b) ∈ ls) cur p := by
  induction s using Nat.strongRecOn with
  | ind s ih =>
    intro bound cur left hb hcur hleft
    obtain ⟨bound, rfl⟩ : ∃ k, bound = k + 1 := ⟨bound - 1, by omega⟩
    cases left with
    | nil => exact ⟨[], by rw [chainFrom]; rfl, fun l hl => (by cases hl), fun p hp => (by cases hp)⟩
    | cons q left =>
      obtain ⟨r, hr, hnone, hsome⟩ := hps.nearestEnclosing_spec h hcur
      rw [chainFrom, hr, Lower.ok_bind]
      · cases r with
        | none =>
          obtain ⟨o, ho, hos⟩ := hleft q List.mem_cons_self
          exact absurd hos (hnone rfl q o ho)
        | some n =>
          obtain ⟨s', o, hs', hn, hos, hin⟩ := id (hsome n rfl)
          cases hcur.unique hs'
          have hrest : ∀ p ∈ (q :: left).filter (· != n), ∃ z, ps.From p z ∧
              Around t.scopes z o := by
            intro p hp
            obtain ⟨hp, hpn⟩ := List.mem_filter.mp hp
            obtain ⟨z, hz, hzs⟩ := hleft p hp
            refine ⟨z, hz, (hin p z hz hzs).resolve_left ?_⟩
            rintro rfl
            simp [hps.from_inj hz hn] at hpn
          obtain ⟨ls, hls, hnear, hpath⟩ := ih o (hos.lt h.preorder) bound n _
            (by have := hos.lt h.preorder; omega) hn hrest
          refine ⟨(cur, n) :: ls, ?_, ?_, ?_⟩
          · dsimp only
            rw [hls]
            rfl
          · rintro l (_ | ⟨_, hl⟩)
            · obtain ⟨z, hz, hzs⟩ := hleft q List.mem_cons_self
              exact ⟨hsome n rfl, s, o, q, z, hcur, .inl rfl, hn, List.mem_cons_self, hz,
                hin q z hz hzs⟩
            · obtain ⟨hnl, x, y, p, z, hx, hxo, hy, hp, hz, hzy⟩ := hnear l hl
              exact ⟨hnl, x, y, p, z, hx, .inr (hxo.trans_around h.preorder hos), hy,
                (List.mem_filter.mp hp).1, hz, hzy⟩
          · intro p hp
            refine .head List.mem_cons_self ?_
            by_cases hpn : p = n
            · subst hpn
              exact .refl
            · refine Relation.ReflTransGen.mono ?_ _ _
                (hpath p (List.mem_filter.mpr ⟨hp, by simpa using hpn⟩))
              exact fun _ _ hl => List.mem_cons_of_mem _ hl
      · simp

end ClosureEnv.PlanTable
