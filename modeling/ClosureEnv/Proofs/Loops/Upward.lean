import ClosureEnv.Plan.Links
import ClosureEnv.Proofs.Loops.Ends
import ClosureEnv.Proofs.Plan.Captures
import ClosureEnv.Plan.Candidate
import ClosureEnv.Scope.Validation

/-!
# Ways up

Validation, the analysis of captures, merging and linking go up from a scope, from parent to parent.
The loops that do so are given here without the bounds that the searches have. In a tree in which
every scope follows its parent they are over, and find what the searches find
(`ScopeTree.walksEnd`); where parents lead back to a scope they need not be
(`ScopeTree.not_endsIn_ancestorTurn`).
Validation checks the scopes before it goes up anywhere (`ScopeTree.validate_scopes_first`).
-/

namespace ClosureEnv

namespace ScopeTree

variable (t : ScopeTree)

/-! ## The loops -/

/-- A turn of the loop that looks for `outer` among the scopes from one upwards. -/
def ancestorTurn (outer : ScopeId) : Option ScopeId → Lower (Option ScopeId ⊕ Bool)
  | none => return .inr false
  | some s => return if s = outer then .inr true else .inl (parentIn? t.scopes s)

/-- A turn of the loop that goes up to a scope that starts a body. -/
def bodyTurn (start cur : ScopeId) : Lower (ScopeId ⊕ ScopeId) := do
  let s ← t.scope cur
  if s.isBody then return .inr cur
  else
    match s.parent with
    | some p => return .inl p
    | none => inconsistent (.noEnclosingBody start)

/-- A turn of the loop that goes up to `outer` and gathers the closures on the way. -/
def betweenTurn (inner outer : ScopeId) :
    ScopeId × List ClosureId → Lower (ScopeId × List ClosureId ⊕ List ClosureId)
  | (cur, done) =>
    if cur == outer then return .inr done
    else do
      let s ← t.scope cur
      let done := match s.closure with
        | some c => done ++ [c]
        | none => done
      match s.parent with
      | some p => return .inl (p, done)
      | none => inconsistent (.notEnclosing outer inner)

/-- A turn of the loop that goes up to `stop`, or to a root, and gathers the scopes on the way. -/
def wayTurn (stop : ScopeId) : ScopeId × List ScopeId → Lower (ScopeId × List ScopeId ⊕ List ScopeId)
  | (cur, done) =>
    if cur == stop then return .inr done
    else do
      let s ← t.scope cur
      match s.parent with
      | some p => return .inl (p, done ++ [cur])
      | none => return .inr (done ++ [cur])

end ScopeTree

/-- A turn of the loop that goes up through blocks to a candidate. -/
def Candidates.targetTurn (t : ScopeTree) (cs : Candidates) :
    Option ScopeId → Lower (Option ScopeId ⊕ Option ScopeId)
  | none => return .inr none
  | some p =>
    if SortedMap.contains p cs then return .inr (some p)
    else do
      let s ← t.scope p
      if s.kind == .block then return .inl s.parent else return .inr none

/-- A turn of the loop that goes up to a scope with a plan other than `p`. -/
def PlanTable.enclosingTurn (t : ScopeTree) (ps : PlanTable) (p : PlanId) :
    Option ScopeId → Lower (Option ScopeId ⊕ Option PlanId)
  | none => return .inr none
  | some s =>
    match ps.scopePlan.find? s with
    | some q => if q != p then return .inr (some q) else return .inl (← t.scope s).parent
    | none => return .inl (← t.scope s).parent

namespace ScopeTree

variable {t : ScopeTree}

/-! ## What gets smaller -/

/-- How far up a way can lead from a scope. -/
def height (t : ScopeTree) (s : ScopeId) : Nat :=
  min s t.scopes.size

/-- How far up a way can lead from a scope that may not be there. -/
def height? (t : ScopeTree) (s : Option ScopeId) : Nat :=
  s.elim 0 fun s => t.height s + 1

/-- No way is longer than there are scopes. -/
theorem height_le (s : ScopeId) : t.height s ≤ t.scopes.size :=
  Nat.min_le_right _ _

/-- From a parent it is not as far. -/
theorem height_parent_lt (hp : Preorder t.scopes) {s p : ScopeId} {x : Scope}
    (hx : t.scope s = .ok x) (hpar : x.parent = some p) : t.height p < t.height s := by
  have hpi := (parentIn?_of_scope (scope_eq_ok.mp hx)).trans hpar
  have hlt := hp s p hpi
  have hsize := lt_size_of_parentIn? hpi
  unfold height
  omega

/-- From a parent, if there is one, it is not as far. -/
theorem height?_parent_le (hp : Preorder t.scopes) {s : ScopeId} {x : Scope}
    (hx : t.scope s = .ok x) : t.height? x.parent ≤ t.height s := by
  cases hpar : x.parent with
  | none => exact Nat.zero_le _
  | some p => exact height_parent_lt hp hx hpar

/-- From the parent of a scope that may not be there it is not as far. -/
theorem height?_parentIn?_le (hp : Preorder t.scopes) (s : ScopeId) :
    t.height? (parentIn? t.scopes s) ≤ t.height s := by
  cases hx : t.scopes[s]? with
  | none => simp [parentIn?, hx, height?]
  | some x =>
    rw [parentIn?_of_scope hx]
    exact height?_parent_le hp (scope_eq_ok.mpr hx)

/-! ## They end -/

/-- A scope is around another if it is the parent of that one or around the parent. -/
theorem isStrictAncestor_eq (hp : Preorder t.scopes) (outer s : ScopeId) :
    t.isStrictAncestor outer s = (parentIn? t.scopes s).any (t.encloses outer) := by
  rw [isStrictAncestor, isStrictAncestorIn, ancestorsIn_eq hp]
  cases parentIn? t.scopes s with
  | none => rfl
  | some p =>
    rw [Option.any_some, encloses, isStrictAncestor, isStrictAncestorIn, List.contains_cons]

/-- The loop that looks for a scope around another is over. -/
theorem ancestors_end (hp : Preorder t.scopes) (outer s : ScopeId) :
    ∃ n ≤ t.scopes.size + 1, EndsIn (t.ancestorTurn outer) n (parentIn? t.scopes s)
      (.ok (t.isStrictAncestor outer s)) := by
  have hle := height?_parentIn?_le hp s
  have hsize := t.height_le s
  -- What is left to climb is the height of the scope that the search is at.
  obtain ⟨n, hn, hends⟩ := EndsIn.of_measure (t.ancestorTurn outer) (fun _ => True) t.height?
    (f := fun _ cur => .ok (cur.any (t.encloses outer)))
    (b := t.height? (parentIn? t.scopes s) + 1) (s := parentIn? t.scopes s)
    (fun _ cur _ => by
      cases cur with
      | none => rfl
      | some p =>
        rw [Option.any_some, encloses, isStrictAncestor_eq hp, ancestorTurn]
        by_cases heq : p = outer
        · simp [heq, pure, Except.pure, bind, Except.bind]
        · simp [heq, Ne.symm heq, pure, Except.pure, bind, Except.bind])
    (fun cur next _ ht => by
      cases cur with
      | none => cases ht
      | some p =>
        rw [ancestorTurn] at ht
        split at ht
        · cases ht
        · cases ht
          exact ⟨trivial, Nat.lt_succ_of_le (height?_parentIn?_le hp p)⟩)
    trivial (Nat.lt_succ_self _)
  rw [isStrictAncestor_eq hp]
  exact ⟨n, by omega, hends⟩

/-- A loop that goes from a scope to its parent in each turn that goes on is over. -/
theorem endsIn_of_climb (hp : Preorder t.scopes) {σ ρ : Type} {turn : σ → Lower (σ ⊕ ρ)}
    {f : Nat → σ → Lower ρ} (hf : ∀ b s, f (b + 1) s = turn s >>= Sum.elim (f b) .ok)
    (place : σ → ScopeId) (hclimb : ∀ s s', turn s = .ok (.inl s') →
      ∃ x, t.scope (place s) = .ok x ∧ x.parent = some (place s'))
    {b : Nat} (hb : t.scopes.size < b) (s : σ) :
    ∃ n ≤ t.scopes.size + 1, EndsIn turn n s (f b s) := by
  have hsize := t.height_le (place s)
  obtain ⟨n, hn, hends⟩ := EndsIn.of_measure turn (fun _ => True)
    (fun s => t.height (place s)) (b := b) (s := s) (fun b s _ => hf b s)
    (fun s s' _ ht => by
      obtain ⟨x, hx, hpar⟩ := hclimb s s' ht
      exact ⟨trivial, height_parent_lt hp hx hpar⟩)
    trivial (Nat.lt_of_le_of_lt hsize hb)
  exact ⟨n, Nat.le_trans hn (Nat.succ_le_succ hsize), hends⟩

/-- A loop that goes from a scope to its parent, if there is one, in each turn that goes on is over
when it begins at the parent of a scope. -/
theorem endsIn_of_step (hp : Preorder t.scopes) {ρ : Type}
    {turn : Option ScopeId → Lower (Option ScopeId ⊕ ρ)} {f : Nat → Option ScopeId → Lower ρ}
    (hf : ∀ b cur, f (b + 1) cur = turn cur >>= Sum.elim (f b) .ok)
    (hstep : ∀ cur next, turn cur = .ok (.inl next) →
      ∃ s x, cur = some s ∧ t.scope s = .ok x ∧ next = x.parent)
    {s : ScopeId} {x : Scope} (hx : t.scope s = .ok x) :
    ∃ n ≤ t.scopes.size + 1, EndsIn turn n x.parent (f (t.scopes.size + 1) x.parent) := by
  have hsize := Nat.le_trans (height?_parent_le hp hx) (t.height_le s)
  obtain ⟨n, hn, hends⟩ := EndsIn.of_measure turn (fun _ => True) t.height?
    (fun b cur _ => hf b cur)
    (fun cur next _ ht => by
      obtain ⟨s, x, rfl, hx, rfl⟩ := hstep cur next ht
      exact ⟨trivial, Nat.lt_succ_of_le (height?_parent_le hp hx)⟩)
    trivial (Nat.lt_succ_of_le hsize)
  exact ⟨n, Nat.le_trans hn (Nat.succ_le_succ hsize), hends⟩

/-- The loop that goes up to a body is over. -/
theorem body_ends (hp : Preorder t.scopes) (s : ScopeId) :
    ∃ n ≤ t.scopes.size + 1, EndsIn (t.bodyTurn s) n s (t.bodyOf s) := by
  refine endsIn_of_climb hp (f := t.bodyFrom s) (fun b cur => ?_) id (fun cur next ht => ?_)
    (Nat.lt_succ_self _) s
  · rw [bodyFrom, bodyTurn, bind_assoc]
    refine congrArg _ (funext fun x => ?_)
    split
    · rfl
    · cases x.parent <;> rfl
  · obtain ⟨x, hx, ht⟩ := Lower.bind_eq_ok.mp ht
    split at ht
    · cases ht
    · split at ht
      · next p hpar =>
        cases ht
        exact ⟨x, hx, hpar⟩
      · cases ht

/-- The loop that gathers the closures up to a scope is over. -/
theorem between_ends (hp : Preorder t.scopes) (inner outer : ScopeId) :
    ∃ n ≤ t.scopes.size + 1,
      EndsIn (t.betweenTurn inner outer) n (inner, []) (t.closuresBetween inner outer) := by
  refine endsIn_of_climb hp (f := fun b st => t.closuresFrom inner outer st.2 b st.1) ?_ Prod.fst ?_
    (show t.scopes.size < t.scopes.size + 2 by omega) (inner, [])
  · rintro b ⟨cur, done⟩
    rw [closuresFrom, betweenTurn]
    split
    · rfl
    · rw [bind_assoc]
      refine congrArg _ (funext fun x => ?_)
      dsimp only
      cases x.parent <;> rfl
  · rintro ⟨cur, done⟩ next ht
    rw [betweenTurn] at ht
    split at ht
    · cases ht
    · obtain ⟨x, hx, ht⟩ := Lower.bind_eq_ok.mp ht
      dsimp only at ht
      split at ht
      · next p hpar =>
        cases ht
        exact ⟨x, hx, hpar⟩
      · cases ht

/-- The loop that gathers the scopes up to another is over. -/
theorem way_ends (hp : Preorder t.scopes) (s stop : ScopeId) :
    ∃ n ≤ t.scopes.size + 1, EndsIn (t.wayTurn stop) n (s, []) (t.way s stop) := by
  have hway : (([] : List ScopeId) ++ ·) <$> t.wayFrom stop (t.scopes.size + 1) s = t.way s stop := by
    simp [way]
  rw [← hway]
  refine endsIn_of_climb hp (f := fun b st => (st.2 ++ ·) <$> t.wayFrom stop b st.1) ?_ Prod.fst ?_
    (Nat.lt_succ_self _) (s, [])
  · rintro b ⟨cur, done⟩
    rw [wayFrom, wayTurn]
    split
    · simp only [map_pure, List.append_nil]
      rfl
    · rw [map_bind, bind_assoc]
      refine congrArg _ (funext fun x => ?_)
      cases x.parent with
      | none => simp only [map_pure]; rfl
      | some p =>
        simp only [map_bind, map_pure]
        rw [pure_bind, Sum.elim_inl, ← bind_pure_comp]
        simp
  · rintro ⟨cur, done⟩ next ht
    rw [wayTurn] at ht
    split at ht
    · cases ht
    · obtain ⟨x, hx, ht⟩ := Lower.bind_eq_ok.mp ht
      split at ht
      · next p hpar =>
        cases ht
        exact ⟨x, hx, hpar⟩
      · cases ht

/-- The loop that goes up through blocks to a candidate is over. -/
theorem target_ends (hp : Preorder t.scopes) (cs : Candidates) {s : ScopeId} {x : Scope}
    (hx : t.scope s = .ok x) : ∃ n ≤ t.scopes.size + 1, EndsIn (Candidates.targetTurn t cs) n
      x.parent (Candidates.targetFrom t cs (t.scopes.size + 1) x.parent) := by
  refine endsIn_of_step hp (f := Candidates.targetFrom t cs) (fun b cur => ?_) (fun cur next ht => ?_)
    hx
  · cases cur with
    | none => rfl
    | some p =>
      rw [Candidates.targetFrom, Candidates.targetTurn]
      split
      · rfl
      · rw [bind_assoc]
        refine congrArg _ (funext fun x => ?_)
        split <;> rfl
  · cases cur with
    | none => cases ht
    | some p =>
      rw [Candidates.targetTurn] at ht
      split at ht
      · cases ht
      · obtain ⟨x, hx, ht⟩ := Lower.bind_eq_ok.mp ht
        split at ht <;> cases ht
        exact ⟨p, x, rfl, hx, rfl⟩

/-- The loop that goes up to a scope with another plan is over. -/
theorem enclosing_ends (hp : Preorder t.scopes) (ps : PlanTable) (p : PlanId) {s : ScopeId}
    {x : Scope} (hx : t.scope s = .ok x) :
    ∃ n ≤ t.scopes.size + 1, EndsIn (PlanTable.enclosingTurn t ps p) n x.parent
      (ps.enclosingFrom t p (t.scopes.size + 1) x.parent) := by
  refine endsIn_of_step hp (f := ps.enclosingFrom t p) (fun b cur => ?_) (fun cur next ht => ?_) hx
  · cases cur with
    | none => rfl
    | some s =>
      rw [PlanTable.enclosingFrom, PlanTable.enclosingTurn]
      cases ps.scopePlan.find? s with
      | none => cases t.scope s <;> rfl
      | some q =>
        dsimp only
        split
        · rfl
        · cases t.scope s <;> rfl
  · cases cur with
    | none => cases ht
    | some s =>
      rw [PlanTable.enclosingTurn] at ht
      split at ht
      · split at ht
        · cases ht
        · obtain ⟨x, hx, ht⟩ := Lower.bind_eq_ok.mp ht
          cases ht
          exact ⟨s, x, rfl, hx, rfl⟩
      · obtain ⟨x, hx, ht⟩ := Lower.bind_eq_ok.mp ht
        cases ht
        exact ⟨s, x, rfl, hx, rfl⟩

/-- All ways up end, and the searches find what the loops find. -/
structure WalksEnd (t : ScopeTree) : Prop where
  /-- In validation and in the analysis of captures. -/
  ancestors : ∀ outer s, ∃ n ≤ t.scopes.size + 1, EndsIn (t.ancestorTurn outer) n
    (parentIn? t.scopes s) (.ok (t.isStrictAncestor outer s))
  /-- In the analysis of captures. -/
  way : ∀ s stop, ∃ n ≤ t.scopes.size + 1, EndsIn (t.wayTurn stop) n (s, []) (t.way s stop)
  /-- In merging, whatever the candidates are. -/
  target : ∀ cs s x, t.scope s = .ok x → ∃ n ≤ t.scopes.size + 1,
    EndsIn (Candidates.targetTurn t cs) n x.parent
      (Candidates.targetFrom t cs (t.scopes.size + 1) x.parent)
  /-- In linking, whatever the plans are. -/
  enclosing : ∀ (ps : PlanTable) p s x, t.scope s = .ok x → ∃ n ≤ t.scopes.size + 1,
    EndsIn (PlanTable.enclosingTurn t ps p) n x.parent
      (ps.enclosingFrom t p (t.scopes.size + 1) x.parent)
  /-- In linking. -/
  between : ∀ inner outer, ∃ n ≤ t.scopes.size + 1,
    EndsIn (t.betweenTurn inner outer) n (inner, []) (t.closuresBetween inner outer)
  /-- In what comes after planning. -/
  body : ∀ s, ∃ n ≤ t.scopes.size + 1, EndsIn (t.bodyTurn s) n s (t.bodyOf s)

/-- Where every scope follows its parent, all ways up end. -/
theorem walksEnd (hp : Preorder t.scopes) : t.WalksEnd where
  ancestors := ancestors_end hp
  way := way_ends hp
  target cs _ _ hx := target_ends hp cs hx
  enclosing ps p _ _ hx := enclosing_ends hp ps p hx
  between := between_ends hp
  body := body_ends hp

/-- No parents lead back where every scope follows its parent. -/
theorem not_cycle (hp : Preorder t.scopes) (s : ScopeId) :
    ¬ Relation.TransGen (fun s p => parentIn? t.scopes s = some p) s s := by
  have hlt {s p : ScopeId} (h : Relation.TransGen (fun s p => parentIn? t.scopes s = some p) s p) :
      p < s := by
    induction h with
    | single h => exact hp _ _ h
    | tail _ h ih => exact Nat.lt_trans (hp _ _ h) ih
  exact fun h => Nat.lt_irrefl s (hlt h)

/-- Where parents lead back to a scope, the way up from it never ends, unless it is left at
`outer`. -/
theorem not_endsIn_ancestorTurn {s outer : ScopeId}
    (hs : Relation.TransGen (fun s p => parentIn? t.scopes s = some p) s s)
    (hno : ∀ p, Relation.ReflTransGen (fun s p => parentIn? t.scopes s = some p) s p → p ≠ outer)
    (n : Nat) (r : Lower Bool) : ¬ EndsIn (t.ancestorTurn outer) n (some s) r := by
  have hturn {q p : ScopeId} (hq : q ≠ outer) (hqp : parentIn? t.scopes q = some p) :
      t.ancestorTurn outer (some q) = .ok (.inl (some p)) := by
    rw [ancestorTurn, if_neg hq, hqp]
    rfl
  have hway {p : ScopeId} (h : Relation.TransGen (fun s p => parentIn? t.scopes s = some p) s p) :
      Relation.TransGen (fun s s' => t.ancestorTurn outer s = .ok (.inl s')) (some s) (some p) := by
    induction h with
    | single h => exact .single (hturn (hno s .refl) h)
    | tail hb h ih => exact ih.tail (hturn (hno _ hb.to_reflTransGen) h)
  exact EndsIn.not_of_cycle (hway hs)

/-! ## Validation -/

/-- The checks of the scopes, which go up nowhere. -/
def checkScopes (t : ScopeTree) : Lower Unit :=
  t.scopes.toList.zipIdx.forM fun (s, i) => t.checkScope i s

/-- A condition that is required holds. -/
theorem of_require {condition : Bool} {cause : Inconsistency}
    (h : require condition cause = .ok ()) : condition = true := by
  unfold require at h
  split at h
  · assumption
  · cases h

/-- Checked scopes follow their parents. -/
theorem preorder_of_checkScopes (h : t.checkScopes = .ok ()) : Preorder t.scopes := by
  intro i p hpar
  have hi := lt_size_of_parentIn? hpar
  have hx : t.scopes[i]? = some t.scopes[i] := Array.getElem?_eq_getElem hi
  rw [parentIn?_of_scope hx] at hpar
  have hmem : (t.scopes[i], i) ∈ t.scopes.toList.zipIdx := by
    rw [List.mem_zipIdx_iff_getElem?, Array.getElem?_toList]
    exact hx
  obtain ⟨⟨⟩, hid, hrest⟩ := Lower.bind_eq_ok.mp (Lower.of_forM_ok h hmem)
  obtain ⟨⟨⟩, hparent, -⟩ := Lower.bind_eq_ok.mp hrest
  rw [checkParent, hpar] at hparent
  obtain ⟨⟨⟩, hlt, -⟩ := Lower.bind_eq_ok.mp hparent
  have hid' := of_require hid
  have hlt' := of_require hlt
  rw [beq_iff_eq] at hid'
  rw [decide_eq_true_eq, hid'] at hlt'
  exact hlt'

/-- Validation begins with the checks of the scopes. If one of them fails, nothing else is done. -/
theorem validate_scopes_first (t : ScopeTree) :
    (∃ e, t.checkScopes = .error e ∧ t.validate = .error e) ∨
      t.checkScopes = .ok () ∧ Preorder t.scopes := by
  cases h : t.checkScopes with
  | error e =>
    refine .inl ⟨e, rfl, ?_⟩
    unfold checkScopes at h
    rw [validate, h]
    rfl
  | ok u => exact .inr ⟨rfl, preorder_of_checkScopes h⟩

/-- In a valid tree every scope follows its parent, and variables have scopes. -/
theorem of_validate (h : t.validate = .ok ()) : Preorder t.scopes ∧
    ∀ (v : Nat) x, t.vars[v]? = some x → x.scope < t.scopes.size := by
  obtain ⟨⟨⟩, hscopes, hrest⟩ := Lower.bind_eq_ok.mp h
  obtain ⟨⟨⟩, hvars, -⟩ := Lower.bind_eq_ok.mp hrest
  refine ⟨preorder_of_checkScopes hscopes, fun v x hx => ?_⟩
  have hmem : x ∈ t.vars.toList := Array.mem_toList_iff.mpr (Array.mem_of_getElem? hx)
  obtain ⟨s, hs, -⟩ := Lower.bind_eq_ok.mp (Lower.of_forM_ok hvars hmem)
  exact (Array.getElem?_eq_some_iff.mp (scope_eq_ok.mp hs)).1

end ScopeTree

end ClosureEnv
