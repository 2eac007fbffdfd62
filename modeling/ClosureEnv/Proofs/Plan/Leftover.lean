import ClosureEnv.Proofs.Plan.Merged
import Mathlib.Order.WellFounded

/-!
# What one pass of merging leaves

Every candidate has one turn, and the deepest have theirs first. One that may not go into the next
candidate around it stays where it is, even if that one goes further out later on, and it may go
there then. So a second pass can change what the first one left (`exists_leftover`). It does so only
for this reason (`mergeContained_leaves`): what may still be merged is separated from where it may
go by a scope that went there, and that some closure does not use.
-/

namespace ClosureEnv

namespace Candidates

variable {t : ScopeTree} {holds : VarId → ClosureId → Prop} {a : Captures} {cs cs' : Candidates}

/-! ## A second pass -/

/-- A candidate that is gone does not come back. -/
theorem Joins.find?_eq_none {s o k : ScopeId} {x y : Candidate} (hj : Joins t a cs s o x y)
    (hk : SortedMap.find? k cs = none) :
    SortedMap.find? k (SortedMap.insert o (absorb s x y) (SortedMap.erase s cs)) = none := by
  refine Option.eq_none_iff_forall_not_mem.mpr fun c hc => ?_
  rcases (find?_absorb_iff cs s o x y k c).mp hc with ⟨rfl, -⟩ | ⟨-, -, hc⟩
  · rw [hj.outer] at hk
    cases hk
  · rw [hc] at hk
    cases hk

/-- Merging changes nothing if there is nothing that may be merged, and only then. -/
theorem mergeContained_eq_self_iff (h : t.WellBound holds) {captured : VarId → Prop}
    (hcs : Sound t captured cs) :
    mergeContained t a cs = .ok cs ↔ ∀ s o x y, ¬ Joins t a cs s o x y := by
  obtain ⟨ss, hss, hmem, -⟩ := deepestFirst_spec hcs
  -- so far nothing was merged, or a candidate is gone
  obtain ⟨last, hlast, hend⟩ := Lower.foldlM_ok (f := mergeOne t a) (l := ss) (b := cs)
    (fun done last => (last = cs ∧ ∀ s ∈ done, ∀ o x y, ¬ Joins t a cs s o x y) ∨
      (∃ s o x y, Joins t a cs s o x y) ∧
        ∃ k c, SortedMap.find? k cs = some c ∧ SortedMap.find? k last = none)
    (.inl ⟨rfl, fun s hs => absurd hs List.not_mem_nil⟩) (by
      intro done s left mid hsplit hmid
      obtain ⟨c, hc⟩ := (hmem s).mp (hsplit ▸ List.mem_append_right _ List.mem_cons_self)
      obtain ⟨next, hnext, hcases⟩ := mergeOne_cases h a mid (hcs.lt_size hc)
      refine ⟨next, hnext, ?_⟩
      rcases hmid with ⟨rfl, hdone⟩ | ⟨hjoins, k, c', hk, hgone⟩
      · rcases hcases with ⟨rfl, hno⟩ | ⟨o, x, y, hj, rfl⟩
        · refine .inl ⟨rfl, fun s' hs' => ?_⟩
          rcases List.mem_append.mp hs' with hs' | hs'
          · exact hdone s' hs'
          · exact List.mem_singleton.mp hs' ▸ hno
        · have hso : s ≠ o := fun heq => Around.irrefl h.preorder (heq ▸ hj.target.around)
          refine .inr ⟨⟨s, o, x, y, hj⟩, s, x, hj.inner, ?_⟩
          rw [SortedMap.find?_insert_of_ne hso, SortedMap.find?_erase_self]
      · rcases hcases with ⟨rfl, -⟩ | ⟨o, x, y, hj, rfl⟩
        · exact .inr ⟨hjoins, k, c', hk, hgone⟩
        · exact .inr ⟨hjoins, k, c', hk, hj.find?_eq_none hgone⟩)
  have hrun : mergeContained t a cs = .ok last := by
    rw [mergeContained, hss, Lower.ok_bind, hlast]
  rw [hrun, Except.ok.injEq]
  rcases hend with ⟨rfl, hdone⟩ | ⟨⟨s, o, x, y, hj⟩, k, c, hk, hgone⟩
  · refine iff_of_true rfl fun s o x y hj => hdone s ((hmem s).mpr ⟨x, hj.inner⟩) o x y hj
  · refine iff_of_false (fun heq => ?_) fun hno => hno s o x y hj
    rw [heq, hk] at hgone
    cases hgone

/-! ## What is left -/

/-- The users of a candidate are those of its scope. -/
theorem Homed.mem_users_iff {merge : MergePolicy} (hcs : cs.Homed t merge) (h : t.WellBound holds)
    (ha : a.Traced t) {o : ScopeId} {c : Candidate} (hown : Sound t t.Captured cs)
    (hc : SortedMap.find? o cs = some c) (d : ClosureId) : d ∈ users a c ↔ t.UsesScope d o := by
  have hslot (v : VarId) : v ∈ c.slots ↔ t.HeldAt merge v o := by
    rw [← hcs.slot]
    refine ⟨fun hv => ⟨c, hc, hv⟩, fun ⟨c', hc', hv⟩ => ?_⟩
    cases hc.symm.trans hc'
    exact hv
  have hhome : t.Home merge o o := by
    obtain ⟨v, hv, -⟩ := hown.own o c hc
    exact ((hslot v).mp hv).home
  rw [users, List.mem_flatMap]
  constructor
  · rintro ⟨v, hv, hd⟩
    obtain ⟨-, x, hx, hxo⟩ := (hslot v).mp hv
    have huse : t.UsesScope d x.scope := ⟨v, x, (ha.mem_users_iff h v d).mp hd, hx, rfl⟩
    cases merge with
    | never => exact (show x.scope = o from hxo) ▸ huse
    | contained => exact huse.merge hxo.1
  · rintro ⟨v, x, hn, hx, rfl⟩
    exact ⟨v, (hslot v).mpr ⟨⟨d, hn⟩, x, hx, hhome⟩, (ha.mem_users_iff h v d).mpr hn⟩

/-- Of the scopes between two others that closures use, there is an innermost one. -/
theorem exists_last_used (hp : Preorder t.scopes) {o s z : ScopeId} (ho : Around t.scopes o z)
    (hz : Around t.scopes z s) (huse : ∃ c, t.UsesScope c z) :
    ∃ m, Around t.scopes o m ∧ Around t.scopes m s ∧ (∃ c, t.UsesScope c m) ∧
      ∀ y, Around t.scopes m y → Around t.scopes y s → ∀ c, ¬ t.UsesScope c y := by
  obtain ⟨m, ⟨hom, hms, hm⟩, hmin⟩ := (measure fun z : Nat => s - z).wf.has_min
    {z | Around t.scopes o z ∧ Around t.scopes z s ∧ ∃ c, t.UsesScope c z} ⟨z, ho, hz, huse⟩
  refine ⟨m, hom, hms, hm, fun y hmy hys c hc => hmin y ⟨hom.trans hp hmy, hys, c, hc⟩ ?_⟩
  exact Nat.sub_lt_sub_left (hms.lt hp) (hmy.lt hp)

/-- A candidate of a captured variable has a user. -/
theorem Sound.exists_usesScope (hsound : Sound t t.Captured cs) {i : ScopeId} {c : Candidate}
    (hc : SortedMap.find? i cs = some c) : ∃ d, t.UsesScope d i := by
  obtain ⟨v, hv, z, hz, hzi⟩ := hsound.own i c hc
  obtain ⟨⟨d, hn⟩, -⟩ := hsound.slot i c v hc hv
  exact ⟨d, v, z, hn, hz, hzi⟩

/-- What lies between a candidate and the one around it that it may go into is part of the latter,
as far as closures use it. -/
theorem IsTarget.mem_merged (hp : Preorder t.scopes) (hsound : Sound t t.Captured cs)
    {s o : ScopeId} (ht : IsTarget t cs s o) {y : Candidate} (hy : SortedMap.find? o cs = some y)
    {v : VarId} {w : Variable} (hcap : t.Captured v) (hw : t.vars[v]? = some w)
    (hom : Around t.scopes o w.scope) (hms : Around t.scopes w.scope s) :
    v ∈ y.slots ∧ w.scope ∈ y.merged := by
  obtain ⟨i, c, hc, hv⟩ := hsound.covered v hcap
  obtain ⟨-, w', hw', hmem⟩ := hsound.slot i c v hc hv
  cases hw.symm.trans hw'
  obtain ⟨-, hiw, hclear⟩ := hsound.clear i c w.scope hc hmem
  have hio : i = o := by
    rcases AroundEq.total hp hiw (.inr hom) with (heq | hin) | hout
    · exact heq
    · rw [(hclear o hin (.inr hom)).2] at hy
      cases hy
    · rw [(ht.between i hout (hiw.trans_around hp hms)).2] at hc
      cases hc
  subst hio
  cases hc.symm.trans hy
  exact ⟨hv, (List.mem_cons.mp hmem).resolve_left fun heq => Around.irrefl hp (heq ▸ hom)⟩

/-- What may still be merged is separated from where it may go by a scope that went there, and that
one of its users does not use. -/
theorem Homed.exists_between (hcs : cs.Homed t .contained) (h : t.WellBound holds) (ha : a.Traced t)
    (hsound : Sound t t.Captured cs) {s o : ScopeId} {x y : Candidate} (hj : Joins t a cs s o x y) :
    ∃ m ∈ y.merged, Around t.scopes o m ∧ Around t.scopes m s ∧
      ∃ c ∈ users a x, ¬ t.UsesScope c m := by
  obtain ⟨htarget, hx, hy, hmay⟩ := hj
  have husers {i : ScopeId} {c : Candidate} (hc : SortedMap.find? i cs = some c) (d : ClosureId) :
      d ∈ users a c ↔ t.UsesScope d i := hcs.mem_users_iff h ha hsound hc d
  have hend (o' : ScopeId) : ¬ t.MergesInto s o' := by
    obtain ⟨v, hv, -⟩ := hsound.own s x hx
    exact ((hcs.slot v s).mp ⟨x, hx, hv⟩).home.2 o'
  obtain ⟨hrepr, hsub⟩ : (t.Outlives s ↔ t.Outlives o) ∧
      ∀ c, t.UsesScope c s → t.UsesScope c o := by
    simp only [mayMerge, Bool.and_eq_true, beq_iff_eq, List.all_eq_true, List.contains_iff_mem,
      husers hx, husers hy] at hmay
    exact ⟨by rw [← hcs.repr s x hx, ← hcs.repr o y hy, hmay.1], hmay.2⟩
  -- the scope goes nowhere, so there is one in between that closures use
  obtain ⟨z, hoz, hzs, hz⟩ : ∃ z, Around t.scopes o z ∧ Around t.scopes z s ∧
      ∃ c, t.UsesScope c z := by
    by_contra hno
    refine hend o ⟨htarget.block, hsound.exists_usesScope hx, hsound.exists_usesScope hy,
      htarget.around, fun z hoz hzs => ?_, hrepr, hsub⟩
    exact ⟨(htarget.between z hoz hzs).1, fun c hc => hno ⟨z, hoz, hzs, c, hc⟩⟩
  obtain ⟨m, hom, hms, ⟨d, v, w, hn, hw, rfl⟩, hlast⟩ := exists_last_used h.preorder hoz hzs hz
  obtain ⟨hv, hmerged⟩ := htarget.mem_merged h.preorder hsound hy ⟨d, hn⟩ hw hom hms
  obtain ⟨-, w', hw', hhome⟩ := (hcs.slot v o).mp ⟨y, hy, hv⟩
  cases hw.symm.trans hw'
  refine ⟨w.scope, hmerged, hom, hms, ?_⟩
  by_contra hno
  refine hend w.scope ⟨htarget.block, hsound.exists_usesScope hx, ⟨d, v, w, hn, hw, rfl⟩, hms,
    fun z hz hzs => ?_, hrepr.trans (ScopeTree.outlives_iff_of_merge hhome.1).symm, fun e he => ?_⟩
  · exact ⟨(htarget.between z (hom.trans h.preorder hz) hzs).1, hlast z hz hzs⟩
  · by_contra hne
    exact hno ⟨e, (husers hx e).mpr he, hne⟩

end Candidates

/-- Merging the candidates of a bound module again changes nothing exactly if none of them may still
be merged. One that may is separated from where it may go by a scope that went there and that one
of its users does not use. -/
theorem mergeContained_leaves {unit : String} {m : Syntax.Module} {t : ScopeTree}
    (ht : bindModule m unit = .ok t) : ∃ a single cs, Captures.analyze t = .ok a ∧
      Candidates.ofCaptures t a = .ok single ∧ single.mergeContained t a = .ok cs ∧
      (cs.mergeContained t a = .ok cs ↔ ∀ s o x y, ¬ Candidates.Joins t a cs s o x y) ∧
      ∀ s o x y, Candidates.Joins t a cs s o x y → ∃ m ∈ y.merged, Around t.scopes o m ∧
        Around t.scopes m s ∧ ∃ c ∈ Candidates.users a x, ¬ a.UsesScope t c m := by
  obtain ⟨holds, h⟩ := wellBound_of_bindModule ht
  obtain ⟨a, ha, htraced⟩ := Captures.analyze_traced h
  have hsound := htraced.sound h
  obtain ⟨ps, -, single, cs, start, linked, hp⟩ := exists_planning h hsound ⟨.contained, true⟩
  refine ⟨a, single, cs, ha, hp.ofCaptures, hp.contained rfl,
    Candidates.mergeContained_eq_self_iff h hp.sound, fun s o x y hj => ?_⟩
  obtain ⟨m, hm, hom, hms, c, hc, hno⟩ :=
    (hp.candidates_homed h htraced).exists_between h htraced hp.sound hj
  exact ⟨m, hm, hom, hms, c, hc, fun huse => hno (hsound.usesScope_iff.mp huse)⟩

/-- The candidates of `overlapSource` after one pass. -/
theorem exists_overlapCandidates : ∃ t a single cs, bindModule Syntax.overlapSource "u" = .ok t ∧
    Captures.analyze t = .ok a ∧ Candidates.ofCaptures t a = .ok single ∧
      single.mergeContained t a = .ok cs ∧ cs.mergeContained t a ≠ .ok cs := by
  have hsome : ((bindModule Syntax.overlapSource "u").toOption.bind fun t =>
      (Captures.analyze t).toOption.bind fun a =>
        (Candidates.ofCaptures t a).toOption.bind fun single =>
          (single.mergeContained t a).toOption.map fun cs =>
            decide ((cs.mergeContained t a).toOption ≠ some cs)) = some true := by
    simp only [Candidates.mergeContained, Candidates.deepestFirst_eq]
    decide +kernel
  obtain ⟨t, ht, hsome⟩ := Option.bind_eq_some_iff.mp hsome
  obtain ⟨a, ha, hsome⟩ := Option.bind_eq_some_iff.mp hsome
  obtain ⟨single, hsingle, hsome⟩ := Option.bind_eq_some_iff.mp hsome
  obtain ⟨cs, hcs, hsome⟩ := Option.map_eq_some_iff.mp hsome
  rw [Lower.toOption_eq_some] at ht ha hsingle hcs
  refine ⟨t, a, single, cs, ht, ha, hsingle, hcs, fun hagain => ?_⟩
  exact of_decide_eq_true hsome (Lower.toOption_eq_some.mpr hagain)

/-- So it is for a source in which something is left. -/
theorem mergeContained_leaves_overlapSource : ∃ t a single cs,
    bindModule Syntax.overlapSource "u" = .ok t ∧ Captures.analyze t = .ok a ∧
      Candidates.ofCaptures t a = .ok single ∧ single.mergeContained t a = .ok cs ∧
      ∃ s o x y, Candidates.Joins t a cs s o x y ∧ ∃ m ∈ y.merged, Around t.scopes o m ∧
        Around t.scopes m s ∧ ∃ c ∈ Candidates.users a x, ¬ a.UsesScope t c m := by
  obtain ⟨t, a, single, cs, ht, ha, hsingle, hcs, hagain⟩ := exists_overlapCandidates
  obtain ⟨a', single', cs', ha', hsingle', hcs', hiff, hleft⟩ := mergeContained_leaves ht
  cases ha.symm.trans ha'
  cases hsingle.symm.trans hsingle'
  cases hcs.symm.trans hcs'
  obtain ⟨s, o, x, y, hj⟩ : ∃ s o x y, Candidates.Joins t a cs s o x y := by
    by_contra hno
    exact hagain (hiff.mpr fun s o x y hj => hno ⟨s, o, x, y, hj⟩)
  exact ⟨t, a, single, cs, ht, ha, hsingle, hcs, s, o, x, y, hj, hleft s o x y hj⟩

/-- One pass may leave what may still be merged: a second one merges it. In `overlapSource` nobody
but `f` uses the middle scope, so the innermost one stays when the middle one goes into the
outermost, which both closures use. -/
theorem exists_leftover : ∃ t a single cs, bindModule Syntax.overlapSource "u" = .ok t ∧
    Captures.analyze t = .ok a ∧ Candidates.ofCaptures t a = .ok single ∧
      single.mergeContained t a = .ok cs ∧ (∃ s o x y, Candidates.Joins t a cs s o x y) ∧
      cs.mergeContained t a ≠ .ok cs := by
  obtain ⟨t, a, single, cs, ht, ha, hsingle, hcs, hagain⟩ := exists_overlapCandidates
  refine ⟨t, a, single, cs, ht, ha, hsingle, hcs, ?_, hagain⟩
  obtain ⟨holds, h⟩ := wellBound_of_bindModule ht
  obtain ⟨a', ha', htraced⟩ := Captures.analyze_traced h
  cases ha.symm.trans ha'
  obtain ⟨ps, -, single', cs', start, linked, hp⟩ :=
    exists_planning h (htraced.sound h) ⟨.contained, true⟩
  cases hsingle.symm.trans hp.ofCaptures
  cases hcs.symm.trans (hp.contained rfl)
  by_contra hno
  exact hagain ((Candidates.mergeContained_eq_self_iff h hp.sound).mpr
    fun s o x y hj => hno ⟨s, o, x, y, hj⟩)

end ClosureEnv
