import ClosureEnv.Proofs.Plan.Analysis
import ClosureEnv.Proofs.Plan.Candidates
import ClosureEnv.Proofs.Plan.Nearest

/-!
# The homes of captured variables

Candidates are merged one after another, but which scope a captured variable ends up in can be told
from the tree: a scope with captured variables stays, or it goes into the next such scope around it
(`ScopeTree.MergesInto`), and a variable ends up where that comes to an end (`ScopeTree.HeldAt`).
Who uses the variables of a scope, and whether one of them does so for longer than the scope is
there, is the same before and after other scopes go into it, so that the turns do not matter.
-/

namespace ClosureEnv

open Relation (ReflTransGen)

namespace ScopeTree

variable (t : ScopeTree)

/-- Some closure needs the variable. -/
def Captured (v : VarId) : Prop :=
  ∃ c, t.Needs c v

/-- A closure needs a variable of the scope. -/
def UsesScope (c : ClosureId) (s : ScopeId) : Prop :=
  ∃ v x, t.Needs c v ∧ t.vars[v]? = some x ∧ x.scope = s

/-- An escaping closure needs a variable of the scope. -/
def Outlives (s : ScopeId) : Prop :=
  ∃ c, t.Escaping c ∧ t.UsesScope c s

/-- A block with captured variables goes into the next scope around it that has some, where only
blocks are in between, both are kept in the same way, and whoever uses the one uses the other. -/
structure MergesInto (s o : ScopeId) : Prop where
  block : ∃ x, t.scopes[s]? = some x ∧ x.kind = .block
  inner : ∃ c, t.UsesScope c s
  outer : ∃ c, t.UsesScope c o
  around : Around t.scopes o s
  between : ∀ y, Around t.scopes o y → Around t.scopes y s →
    (∃ x, t.scopes[y]? = some x ∧ x.kind = .block) ∧ ∀ c, ¬ t.UsesScope c y
  kept : t.Outlives s ↔ t.Outlives o
  users : ∀ c, t.UsesScope c s → t.UsesScope c o

/-- The scope whose environment has the captured variables of scope `s`. -/
def Home (merge : MergePolicy) (s o : ScopeId) : Prop :=
  match merge with
  | .never => s = o
  | .contained => ReflTransGen t.MergesInto s o ∧ ∀ o', ¬ t.MergesInto o o'

/-- The environment of scope `o` has the captured variable `v`. -/
def HeldAt (merge : MergePolicy) (v : VarId) (o : ScopeId) : Prop :=
  t.Captured v ∧ ∃ x, t.vars[v]? = some x ∧ t.Home merge x.scope o

variable {t}

/-- Whoever uses a scope uses the one that it ends up in. -/
theorem UsesScope.merge {c : ClosureId} {s o : ScopeId} (hc : t.UsesScope c s)
    (h : ReflTransGen t.MergesInto s o) : t.UsesScope c o := by
  induction h with
  | refl => exact hc
  | tail _ hm ih => exact hm.users c ih

/-- A scope goes into one other only. -/
theorem MergesInto.unique (hp : Preorder t.scopes) {s o o' : ScopeId} (h : t.MergesInto s o)
    (h' : t.MergesInto s o') : o = o' := by
  obtain ⟨c, hc⟩ := h.outer
  obtain ⟨c', hc'⟩ := h'.outer
  rcases AroundEq.total hp (.inr h.around) (.inr h'.around) with (heq | ho) | ho
  · exact heq
  · exact absurd hc' ((h.between o' ho h'.around).2 c')
  · exact absurd hc ((h'.between o ho h.around).2 c)

/-- A scope is kept in the same way as the one that it ends up in. -/
theorem outlives_iff_of_merge {s o : ScopeId} (h : ReflTransGen t.MergesInto s o) :
    t.Outlives s ↔ t.Outlives o := by
  induction h with
  | refl => rfl
  | tail _ hm ih => exact ih.trans hm.kept

/-- A scope whose environment has some variable is at home in it. -/
theorem HeldAt.home {merge : MergePolicy} {v : VarId} {o : ScopeId} (h : t.HeldAt merge v o) :
    t.Home merge o o := by
  obtain ⟨-, x, -, hhome⟩ := h
  cases merge with
  | never => exact (rfl : o = o)
  | contained => exact ⟨.refl, hhome.2⟩

/-- A variable that an escaping closure needs outlives the scope whose environment has it. -/
theorem HeldAt.outlives {merge : MergePolicy} {v : VarId} {o : ScopeId} (h : t.HeldAt merge v o)
    {c : ClosureId} (hesc : t.Escaping c) (hn : t.Needs c v) : t.Outlives o := by
  obtain ⟨-, x, hx, hhome⟩ := h
  have hout : t.Outlives x.scope := ⟨c, hesc, v, x, hn, hx, rfl⟩
  cases merge with
  | never => exact (show x.scope = o from hhome) ▸ hout
  | contained => exact (outlives_iff_of_merge hhome.1).mp hout

end ScopeTree

namespace Candidates

variable {t : ScopeTree} {holds : VarId → ClosureId → Prop} {a : Captures}

/-- The candidates have the captured variables of a tree where they are at home. -/
structure Homed (t : ScopeTree) (merge : MergePolicy) (cs : Candidates) : Prop where
  slot : ∀ v o, (∃ c, SortedMap.find? o cs = some c ∧ v ∈ c.slots) ↔ t.HeldAt merge v o
  repr : ∀ o c, SortedMap.find? o cs = some c → (c.repr = .reference ↔ t.Outlives o)

/-! ## Candidates of single scopes -/

/-- A variable escapes if an escaping closure needs it. -/
theorem escapes_iff (h : t.WellBound holds) (ha : a.Traced t) (v : VarId) :
    a.escapes v = true ↔ ∃ c, t.Escaping c ∧ t.Needs c v := by
  rw [Captures.escapes, List.contains_iff_mem, ha.mem_escapingVars]
  constructor
  · rintro ⟨k, hk, he, hn⟩
    obtain ⟨c, hc⟩ := Array.mem_iff_getElem?.mp hk
    exact ⟨k.id, ⟨k, h.closure_id c k hc ▸ hc, he⟩, hn⟩
  · rintro ⟨c, ⟨k, hk, he⟩, hn⟩
    exact ⟨k, Array.mem_of_getElem? hk, he, (h.closure_id c k hk).symm ▸ hn⟩

/-- A candidate is kept on the heap once one of its variables escapes. -/
theorem repr_addVar {cs : Candidates} {escapes : VarId → Bool}
    (hcs : ∀ s c, SortedMap.find? s cs = some c →
      (c.repr = .reference ↔ ∃ v ∈ c.slots, escapes v = true)) (scope : ScopeId) (v : VarId) :
    ∀ s c, SortedMap.find? s (addVar cs scope v (escapes v)) = some c →
      (c.repr = .reference ↔ ∃ v ∈ c.slots, escapes v = true) := by
  obtain ⟨c₀, hhost, hfind⟩ := exists_host cs scope v (escapes v)
  have hold : c₀.repr = .reference ↔ ∃ w ∈ c₀.slots, escapes w = true := by
    rcases hhost.old_or_empty with hold | rfl
    · exact hcs _ _ hold
    · simp
  intro s c hc
  rcases (hfind s c).mp hc with ⟨-, rfl⟩ | ⟨-, hc⟩
  · cases he : escapes v <;> simp [hold, he]
  · exact hcs s c hc

/-- The candidates of single scopes have the variables of their scopes. -/
theorem ofCaptures_homed (h : t.WellBound holds) (ha : a.Traced t) {cs : Candidates}
    (hcs : ofCaptures t a = .ok cs) (hsound : Sound t t.Captured cs)
    (hmerged : ∀ s c, SortedMap.find? s cs = some c → c.merged = []) : cs.Homed t .never := by
  have hslot (o : ScopeId) (c : Candidate) (v : VarId) (hc : SortedMap.find? o cs = some c) :
      v ∈ c.slots ↔ t.HeldAt .never v o := by
    constructor
    · intro hv
      obtain ⟨hcap, x, hx, hxo⟩ := hsound.slot o c v hc hv
      rw [hmerged o c hc, List.mem_singleton] at hxo
      exact ⟨hcap, x, hx, hxo⟩
    · rintro ⟨hcap, x, hx, rfl⟩
      obtain ⟨o', c', hc', hv⟩ := hsound.covered v hcap
      obtain ⟨-, x', hx', hxo⟩ := hsound.slot o' c' v hc' hv
      rw [hmerged o' c' hc', List.mem_singleton] at hxo
      cases hx.symm.trans hx'
      obtain rfl := hxo
      cases hc.symm.trans hc'
      exact hv
  refine ⟨fun v o => ⟨fun ⟨c, hc, hv⟩ => (hslot o c v hc).mp hv, fun hv => ?_⟩, ?_⟩
  · obtain ⟨o', c, hc, hvc⟩ := hsound.covered v hv.1
    obtain ⟨-, x, hx, hxo⟩ := (hslot o' c v hc).mp hvc
    obtain ⟨-, x', hx', hxo'⟩ := id hv
    cases hx.symm.trans hx'
    obtain rfl : o' = o := hxo.symm.trans hxo'
    exact ⟨c, hc, hvc⟩
  · obtain ⟨cs', hcs', hrepr⟩ := Lower.foldlM_ok
      (f := fun cs v => do return addVar cs (← t.var v).scope v (a.escapes v)) (b := [])
      (l := a.captured)
      (fun _ cs => ∀ s c, SortedMap.find? s cs = some c →
        (c.repr = .reference ↔ ∃ v ∈ c.slots, a.escapes v = true))
      (fun s c hc => by cases hc) (by
        intro done v left cs' hsplit hcs'
        obtain ⟨c, hn⟩ := ((ha.sound h).captured v).mp
          (hsplit ▸ List.mem_append_right _ List.mem_cons_self)
        obtain ⟨-, x, -, hx⟩ := h.exists_of_needs hn
        exact ⟨_, by rw [ScopeTree.var_eq_ok.mpr hx]; rfl, repr_addVar hcs' x.scope v⟩)
    cases hcs.symm.trans hcs'
    intro o c hc
    rw [hrepr o c hc]
    constructor
    · rintro ⟨v, hv, he⟩
      obtain ⟨d, hd, hn⟩ := (escapes_iff h ha v).mp he
      obtain ⟨-, x, hx, hxo⟩ := (hslot o c v hc).mp hv
      exact ⟨d, hd, v, x, hn, hx, hxo⟩
    · rintro ⟨d, hd, v, x, hn, hx, hxo⟩
      exact ⟨v, (hslot o c v hc).mpr ⟨⟨d, hn⟩, x, hx, hxo⟩, (escapes_iff h ha v).mpr ⟨d, hd, hn⟩⟩

/-! ## Merging -/

/-- A scope went into another one, and its turn is over. -/
def Merged (t : ScopeTree) (done : List ScopeId) (s o : ScopeId) : Prop :=
  s ∈ done ∧ t.MergesInto s o

/-- What the candidates are when it was the turn of some scopes. -/
structure Partway (t : ScopeTree) (done : List ScopeId) (cs : Candidates) : Prop where
  sound : Sound t t.Captured cs
  /-- The candidates are the scopes with captured variables that went nowhere. -/
  place : ∀ o, (∃ c, SortedMap.find? o cs = some c) ↔
    (∃ c, t.UsesScope c o) ∧ ∀ o', ¬ Merged t done o o'
  /-- They have the variables of the scopes that went into them. -/
  slot : ∀ o c v, SortedMap.find? o cs = some c →
    (v ∈ c.slots ↔ t.Captured v ∧ ∃ x, t.vars[v]? = some x ∧ ReflTransGen (Merged t done) x.scope o)
  repr : ∀ o c, SortedMap.find? o cs = some c → (c.repr = .reference ↔ t.Outlives o)

/-- Before anything is merged, candidates are of single scopes. -/
theorem Homed.partway {cs : Candidates} (h : cs.Homed t .never) (hs : Sound t t.Captured cs) :
    Partway t [] cs := by
  have hnone (s o : ScopeId) : ¬ Merged t [] s o := fun hm => List.not_mem_nil hm.1
  have hrefl (s o : ScopeId) : ReflTransGen (Merged t []) s o ↔ s = o := by
    refine ⟨fun hm => ?_, fun heq => heq ▸ .refl⟩
    cases hm with
    | refl => rfl
    | tail _ hm => exact absurd hm (hnone _ _)
  have hslot (o : ScopeId) (c : Candidate) (v : VarId) (hc : SortedMap.find? o cs = some c) :
      v ∈ c.slots ↔ t.HeldAt .never v o := by
    refine ⟨fun hv => (h.slot v o).mp ⟨c, hc, hv⟩, fun hv => ?_⟩
    obtain ⟨c', hc', hv'⟩ := (h.slot v o).mpr hv
    cases hc.symm.trans hc'
    exact hv'
  refine ⟨hs, fun o => ⟨?_, ?_⟩, fun o c v hc => ?_, h.repr⟩
  · rintro ⟨c, hc⟩
    obtain ⟨v, hv, x, hx, hxo⟩ := hs.own o c hc
    obtain ⟨⟨d, hn⟩, -⟩ := (hslot o c v hc).mp hv
    exact ⟨⟨d, v, x, hn, hx, hxo⟩, hnone o⟩
  · rintro ⟨⟨d, v, x, hn, hx, hxo⟩, -⟩
    obtain ⟨c, hc, -⟩ := (h.slot v o).mpr ⟨⟨d, hn⟩, x, hx, hxo⟩
    exact ⟨c, hc⟩
  · simp only [hslot o c v hc, ScopeTree.HeldAt, ScopeTree.Home, hrefl]

namespace Partway

variable {done : List ScopeId} {cs : Candidates} (hp : Partway t done cs)
include hp

/-- The users of a candidate are those of its scope. -/
theorem mem_users_iff (h : t.WellBound holds) (ha : a.Traced t) {o : ScopeId} {c : Candidate}
    (hc : SortedMap.find? o cs = some c) (d : ClosureId) : d ∈ users a c ↔ t.UsesScope d o := by
  rw [users, List.mem_flatMap]
  constructor
  · rintro ⟨v, hv, hd⟩
    obtain ⟨-, x, hx, hm⟩ := (hp.slot o c v hc).mp hv
    exact ScopeTree.UsesScope.merge ⟨v, x, (ha.mem_users_iff h v d).mp hd, hx, rfl⟩
      (ReflTransGen.mono (fun _ _ hm => hm.2) _ _ hm)
  · rintro ⟨v, x, hn, hx, rfl⟩
    exact ⟨v, (hp.slot x.scope c v hc).mpr ⟨⟨d, hn⟩, x, hx, .refl⟩, (ha.mem_users_iff h v d).mpr hn⟩

/-- One candidate may be merged into another if their scopes say so. -/
theorem mayMerge_iff (h : t.WellBound holds) (ha : a.Traced t) {s o : ScopeId} {x y : Candidate}
    (hx : SortedMap.find? s cs = some x) (hy : SortedMap.find? o cs = some y) :
    mayMerge a x y = true ↔
      (t.Outlives s ↔ t.Outlives o) ∧ ∀ c, t.UsesScope c s → t.UsesScope c o := by
  have hrepr : x.repr = y.repr ↔ (t.Outlives s ↔ t.Outlives o) := by
    rw [← hp.repr s x hx, ← hp.repr o y hy]
    cases x.repr <;> cases y.repr <;> simp
  simp only [mayMerge, Bool.and_eq_true, beq_iff_eq, List.all_eq_true, List.contains_iff_mem,
    hrepr, hp.mem_users_iff h ha hx, hp.mem_users_iff h ha hy]

variable {s : ScopeId} (hnew : s ∉ done) (hturn : ∀ z, Around t.scopes z s → z ∉ done)
include hnew hturn

/-- Around a scope whose turn it is, the candidates are the scopes with captured variables. -/
theorem candidate_iff {o : ScopeId} (ho : AroundEq t.scopes o s) :
    (∃ c, SortedMap.find? o cs = some c) ↔ ∃ c, t.UsesScope c o := by
  rw [hp.place]
  refine and_iff_left fun o' hm => ?_
  rcases ho with rfl | ho
  · exact hnew hm.1
  · exact hturn o ho hm.1

/-- A candidate is merged where its scope goes into another. -/
theorem joins_iff (h : t.WellBound holds) (ha : a.Traced t) (o : ScopeId) :
    (∃ x y, Joins t a cs s o x y) ↔ t.MergesInto s o := by
  have hnone {y : ScopeId} (hy : AroundEq t.scopes y s) :
      SortedMap.find? y cs = none ↔ ∀ c, ¬ t.UsesScope c y := by
    rw [← not_exists, ← hp.candidate_iff hnew hturn hy]
    exact Option.eq_none_iff_forall_not_mem.trans not_exists.symm
  constructor
  · rintro ⟨x, y, ⟨hblock, haround, hbetween, -⟩, hx, hy, hmay⟩
    obtain ⟨hkept, husers⟩ := (hp.mayMerge_iff h ha hx hy).mp hmay
    refine ⟨hblock, (hp.candidate_iff hnew hturn (.inl rfl)).mp ⟨x, hx⟩,
      (hp.candidate_iff hnew hturn (.inr haround)).mp ⟨y, hy⟩, haround, fun z hoz hzs => ?_, hkept,
      husers⟩
    obtain ⟨hz, hzc⟩ := hbetween z hoz hzs
    exact ⟨hz, (hnone (.inr hzs)).mp hzc⟩
  · rintro ⟨hblock, hinner, houter, haround, hbetween, hkept, husers⟩
    obtain ⟨x, hx⟩ := (hp.candidate_iff hnew hturn (.inl rfl)).mpr hinner
    obtain ⟨y, hy⟩ := (hp.candidate_iff hnew hturn (.inr haround)).mpr houter
    refine ⟨x, y, ⟨hblock, haround, fun z hoz hzs => ?_, y, hy⟩, hx, hy,
      (hp.mayMerge_iff h ha hx hy).mpr ⟨hkept, husers⟩⟩
    obtain ⟨hz, hzc⟩ := hbetween z hoz hzs
    exact ⟨hz, (hnone (.inr hzs)).mpr hzc⟩

end Partway

/-- What went into others when it was the turn of one more scope. -/
theorem merged_append_iff {done : List ScopeId} {s x y : ScopeId} :
    Merged t (done ++ [s]) x y ↔ Merged t done x y ∨ x = s ∧ t.MergesInto s y := by
  rw [Merged, Merged, List.mem_append, List.mem_singleton, or_and_right]
  refine or_congr Iff.rfl ⟨?_, ?_⟩ <;>
  · rintro ⟨rfl, hm⟩
    exact ⟨rfl, hm⟩

/-- After the turn of a scope that goes nowhere, nothing is different. -/
theorem Partway.stay {done : List ScopeId} {cs : Candidates} {s : ScopeId}
    (hp : Partway t done cs) (hs : ∀ o, ¬ t.MergesInto s o) : Partway t (done ++ [s]) cs := by
  have heq : Merged t (done ++ [s]) = Merged t done := by
    funext x y
    rw [merged_append_iff, or_iff_left fun hm => hs y hm.2]
  exact ⟨hp.sound, heq ▸ hp.place, heq ▸ hp.slot, hp.repr⟩

section append

variable {done : List ScopeId} {s o : ScopeId}

/-- The scope that another goes into at its turn has not had its own turn. -/
theorem not_merged_append (hp : Preorder t.scopes) (hturn : ∀ z, Around t.scopes z s → z ∉ done)
    (hm : t.MergesInto s o) (o' : ScopeId) : ¬ Merged t (done ++ [s]) o o' := by
  rw [merged_append_iff]
  rintro (hm' | ⟨rfl, -⟩)
  · exact hturn o hm.around hm'.1
  · exact Around.irrefl hp hm.around

/-- A way that is new ends in the scope that another one goes into at its turn. -/
theorem reflTransGen_merged_append_iff (hp : Preorder t.scopes)
    (hturn : ∀ z, Around t.scopes z s → z ∉ done) (hm : t.MergesInto s o) {z w : ScopeId} :
    ReflTransGen (Merged t (done ++ [s])) z w ↔
      ReflTransGen (Merged t done) z w ∨ w = o ∧ ReflTransGen (Merged t done) z s := by
  have hold {z w : ScopeId} : ReflTransGen (Merged t done) z w →
      ReflTransGen (Merged t (done ++ [s])) z w :=
    ReflTransGen.mono (fun _ _ hm => merged_append_iff.mpr (.inl hm)) z w
  constructor
  · intro hzw
    induction hzw with
    | refl => exact .inl .refl
    | tail _ hlast ih =>
      rcases ih with ih | ⟨rfl, -⟩
      · rcases merged_append_iff.mp hlast with hlast | ⟨rfl, hlast⟩
        · exact .inl (ih.tail hlast)
        · exact .inr ⟨hlast.unique hp hm, ih⟩
      · exact absurd hlast (not_merged_append hp hturn hm _)
  · rintro (hzw | ⟨rfl, hzs⟩)
    · exact hold hzw
    · exact (hold hzs).tail (merged_append_iff.mpr (.inr ⟨rfl, hm⟩))

end append

/-- After the turn of a scope that goes into another, that one has its variables too. -/
theorem Partway.merge (h : t.WellBound holds) {done : List ScopeId} {cs : Candidates}
    {s o : ScopeId} {x y : Candidate} (hp : Partway t done cs)
    (hturn : ∀ z, Around t.scopes z s → z ∉ done) (hj : Joins t a cs s o x y)
    (hm : t.MergesInto s o) :
    Partway t (done ++ [s]) (SortedMap.insert o (absorb s x y) (SortedMap.erase s cs)) := by
  have hfind := find?_absorb_iff cs s o x y
  have hway {z w : ScopeId} := reflTransGen_merged_append_iff h.preorder hturn hm (z := z) (w := w)
  refine ⟨hp.sound.merge h hj.target hj.inner hj.outer, fun i => ?_, fun i c v hc => ?_,
    fun i c hc => ?_⟩
  · simp only [hfind]
    constructor
    · rintro ⟨c, ⟨rfl, rfl⟩ | ⟨-, his, hc⟩⟩
      · exact ⟨hm.outer, not_merged_append h.preorder hturn hm⟩
      · obtain ⟨huse, hno⟩ := (hp.place i).mp ⟨c, hc⟩
        refine ⟨huse, fun o' hm' => ?_⟩
        rcases merged_append_iff.mp hm' with hm' | ⟨rfl, -⟩
        · exact hno o' hm'
        · exact his rfl
    · rintro ⟨huse, hno⟩
      by_cases hio : i = o
      · exact ⟨_, .inl ⟨hio, rfl⟩⟩
      · have his : i ≠ s := by
          rintro rfl
          exact hno o (merged_append_iff.mpr (.inr ⟨rfl, hm⟩))
        obtain ⟨c, hc⟩ := (hp.place i).mpr
          ⟨huse, fun o' hm' => hno o' (merged_append_iff.mpr (.inl hm'))⟩
        exact ⟨c, .inr ⟨hio, his, hc⟩⟩
  · rcases (hfind i c).mp hc with ⟨rfl, rfl⟩ | ⟨hio, -, hc⟩
    · simp only [absorb, SortedSet.mem_union, hp.slot i y v hj.outer, hp.slot s x v hj.inner, hway,
        true_and, and_or_left, exists_or]
    · simp only [hp.slot i c v hc, hway, hio, false_and, or_false]
  · rcases (hfind i c).mp hc with ⟨rfl, rfl⟩ | ⟨-, -, hc⟩
    · exact hp.repr i y hj.outer
    · exact hp.repr i c hc

/-- When it was the turn of all scopes, the candidates have the variables that are at home there. -/
theorem Partway.homed {done : List ScopeId} {cs : Candidates} (hp : Partway t done cs)
    (hdone : ∀ s c, t.UsesScope c s → s ∈ done) : cs.Homed t .contained := by
  have heq : Merged t done = t.MergesInto := by
    funext s o
    refine propext (and_iff_right_of_imp fun hm => ?_)
    obtain ⟨c, hc⟩ := hm.inner
    exact hdone s c hc
  refine ⟨fun v o => ⟨?_, ?_⟩, hp.repr⟩
  · rintro ⟨c, hc, hv⟩
    obtain ⟨hcap, x, hx, hxo⟩ := (hp.slot o c v hc).mp hv
    obtain ⟨-, hend⟩ := (hp.place o).mp ⟨c, hc⟩
    rw [heq] at hxo hend
    exact ⟨hcap, x, hx, hxo, hend⟩
  · rintro ⟨hcap, x, hx, hxo, hend⟩
    obtain ⟨d, hn⟩ := id hcap
    obtain ⟨c, hc⟩ := (hp.place o).mpr
      ⟨⟨d, ScopeTree.UsesScope.merge ⟨v, x, hn, hx, rfl⟩ hxo⟩, heq ▸ hend⟩
    exact ⟨c, hc, (hp.slot o c v hc).mpr ⟨hcap, x, hx, heq ▸ hxo⟩⟩

/-- Merged candidates have the captured variables where they are at home. -/
theorem mergeContained_homed (h : t.WellBound holds) (ha : a.Traced t) {cs cs' : Candidates}
    (hcs : cs.Homed t .never) (hsound : Sound t t.Captured cs)
    (hrun : mergeContained t a cs = .ok cs') : cs'.Homed t .contained := by
  obtain ⟨ss, hss, hmem, hnodup, hdeepest⟩ := deepestFirst_spec hsound
  unfold mergeContained at hrun
  rw [hss, Lower.ok_bind] at hrun
  have hstart := hcs.partway hsound
  obtain ⟨cs'', hcs'', hp⟩ := Lower.foldlM_ok (Partway t) hstart (f := mergeOne t a) (l := ss) (by
    intro done s left cs₁ hsplit hp
    obtain ⟨c, hc⟩ := (hmem s).mp (hsplit ▸ List.mem_append_right _ List.mem_cons_self)
    have hsize := hsound.lt_size hc
    rw [hsplit] at hnodup hdeepest
    have hnew : s ∉ done := fun hd =>
      (List.nodup_append.mp hnodup).2.2 s hd s List.mem_cons_self rfl
    have hturn (z : ScopeId) (hz : Around t.scopes z s) : z ∉ done := by
      intro hd
      have hzx := Array.getElem?_eq_getElem (Nat.lt_trans (hz.lt h.preorder) hsize)
      have hsx := Array.getElem?_eq_getElem hsize
      have hlt := PlanTable.depth_lt h hz hzx hsx
      have hle := (List.pairwise_append.mp hdeepest).2.2 z hd s List.mem_cons_self _ _ hzx hsx
      omega
    obtain ⟨cs₂, hrun, ⟨rfl, hno⟩ | ⟨o, x, y, hj, rfl⟩⟩ := mergeOne_cases h a cs₁ hsize
    · refine ⟨cs₂, hrun, hp.stay fun o hm => ?_⟩
      obtain ⟨x, y, hj⟩ := (hp.joins_iff hnew hturn h ha o).mpr hm
      exact hno o x y hj
    · exact ⟨_, hrun, hp.merge h hturn hj ((hp.joins_iff hnew hturn h ha o).mp ⟨x, y, hj⟩)⟩)
  cases hrun.symm.trans hcs''
  refine hp.homed fun s c hc => (hmem s).mpr ((hstart.place s).mpr ⟨⟨c, hc⟩, fun o hm => ?_⟩)
  exact List.not_mem_nil hm.1

end Candidates

end ClosureEnv
