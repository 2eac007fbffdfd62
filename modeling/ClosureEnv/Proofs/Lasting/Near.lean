import ClosureEnv.Proofs.Lasting.Eval
import ClosureEnv.Proofs.Plan.Reach

/-!
# Closures near their scope

A closure that does not escape stays near the scope that it is declared in: at a scope in or around
which no escaping closure comes in between, and where the environments that it keeps are the ones in
sight (`Near`). The lemmas say that nearness survives all that may happen to a value that is not
marked as escaping: being written to a variable, being read from one, and being the value of a
block.
-/

namespace ClosureEnv

/-- No closure whose body starts below scope `d`, at or around scope `s`, escapes. -/
def ScopeTree.NoneEscape (t : ScopeTree) (d s : ScopeId) : Prop :=
  ∀ c k, t.closures[c]? = some k → Around t.scopes d k.scope → AroundEq t.scopes k.scope s →
    ¬ t.Escaping c

variable {t : ScopeTree} {holds : VarId → ClosureId → Prop} {ps : PlanTable}

namespace ScopeTree.NoneEscape

/-- No closure starts between a scope and itself. -/
theorem refl (hp : Preorder t.scopes) (s : ScopeId) : t.NoneEscape s s :=
  fun _ _ _ hd hs => absurd (hd.trans_eq hp hs) (Around.irrefl hp)

/-- Less far out, and less far in. -/
theorem mono (hp : Preorder t.scopes) {d d' s s' : ScopeId} (h : t.NoneEscape d s)
    (hd : AroundEq t.scopes d d') (hs : AroundEq t.scopes s' s) : t.NoneEscape d' s' :=
  fun c k hk hdk hks => h c k hk (hd.trans_around hp hdk) (hks.trans hp hs)

/-- From one scope to another and further in. -/
theorem trans (hp : Preorder t.scopes) {a b c : ScopeId} (hab : t.NoneEscape a b)
    (hbc : t.NoneEscape b c) (hb : AroundEq t.scopes b c) : t.NoneEscape a c := by
  intro e k hk hak hkc
  rcases AroundEq.total hp hkc hb with hkb | hbk
  · exact hab e k hk hak hkb
  · exact hbc e k hk hbk hkc

end ScopeTree.NoneEscape

namespace PlanTable

/-- What is on the way out from the heap is on the heap. -/
theorem Sound.onHeap_of_chain (hps : ps.Sound t) {d p : PlanId} (hd : ps.OnHeap d)
    (h : Relation.ReflTransGen (fun a b => ps.parent? a = some b) d p) : ps.OnHeap p := by
  induction h with
  | refl => exact hd
  | tail _ hq ih => exact hps.heap_parent _ _ ih hq

/-- No escaping closure comes between an environment that is kept as a value and a closure that is
made with it. -/
theorem Sound.noneEscape_of_direct (h : t.WellBound holds) (hps : ps.Sound t) {c : ClosureId}
    {k : Closure} {d : PlanId} {o : ScopeId} (hk : t.closures[c]? = some k)
    (hb : ps.bindings.find? c = some (.direct d)) (ho : ps.From d o) (hd : ¬ ps.OnHeap d) :
    t.NoneEscape o k.scope := by
  intro e l hl hol hlk hesc
  have hdn : d ∈ ps.neededBy c := (hps.isInnermost_of_direct hb).1
  -- the closure is the one itself, or one around it that needs the environment too
  rcases hlk with heq | hlk
  · have hec : e = c := by
      obtain ⟨s, hs, hse, -⟩ := h.closure_scope e l hl
      obtain ⟨s', hs', hsc, -⟩ := h.closure_scope c k hk
      rw [heq] at hs
      cases hs.symm.trans hs'
      exact Option.some.inj (hse.symm.trans hsc)
    subst hec
    exact hd (hps.heap_escaping e d hesc hb)
  · have hbetween : Between t e k.declaredIn o :=
      ⟨l, hl, aroundEq_parent h.preorder (h.parentIn?_closure hk) hlk, hol⟩
    have hde := hps.closed.closures e c k d o hk hdn ho hbetween
    have hlt := (Array.getElem?_eq_some_iff.mp hl).1
    obtain ⟨b, hb'⟩ := hps.bound e hlt
    rcases hps.binding e b hb' with ⟨d', rfl, hin⟩ | ⟨hnone, -⟩
    · exact hd (hps.onHeap_of_chain (hps.heap_escaping e d' hesc hb')
        (hps.closed.chain e d' d hlt hin hde))
    · rw [hnone] at hde
      cases hde

end PlanTable

namespace Run.Lasting

/-- The environments of the scopes at and around `s` are the same in two sights. -/
def SameSight (t : ScopeTree) (ps : PlanTable) (s : ScopeId) (σ η : Sight) : Prop :=
  ∀ p o, ps.From p o → AroundEq t.scopes o s → η.find? p = σ.find? p

/-- A closure is near the scope `s`, where `σ` is in sight. -/
def Near (t : ScopeTree) (ps : PlanTable) (s : ScopeId) (σ : Sight) (held : Held) : Prop :=
  ∃ k, t.closures[held.closure]? = some k ∧ AroundEq t.scopes k.declaredIn s ∧
    t.NoneEscape k.declaredIn s ∧ SameSight t ps k.declaredIn σ held.sight

/-- A closure that is marked as escaping, or that may come from some sources and is near. -/
def Kept (t : ScopeTree) (ps : PlanTable) (src : ClosureId → Prop) (s : ScopeId) (σ : Sight)
    (held : Held) : Prop :=
  t.Escaping held.closure ∨ src held.closure ∧ Near t ps s σ held

variable {s : ScopeId} {σ η : Sight} {held : Held} {src : ClosureId → Prop}

namespace SameSight

/-- A sight is the same as itself. -/
theorem refl : SameSight t ps s σ σ :=
  fun _ _ _ _ => rfl

/-- Two sights that are the same as a third. -/
theorem trans {σ' : Sight} (h : SameSight t ps s σ η) (h' : SameSight t ps s η σ') :
    SameSight t ps s σ σ' :=
  fun p o ho hos => (h' p o ho hos).trans (h p o ho hos)

/-- The other way round. -/
theorem symm (h : SameSight t ps s σ η) : SameSight t ps s η σ :=
  fun p o ho hos => (h p o ho hos).symm

/-- Fewer scopes. -/
theorem mono (hp : Preorder t.scopes) {s' : ScopeId} (h : SameSight t ps s σ η)
    (hs : AroundEq t.scopes s' s) : SameSight t ps s' σ η :=
  fun p o ho hos => h p o ho (hos.trans hp hs)

/-- No environment comes from the scopes of a clear way. -/
theorem of_clear (hp : Preorder t.scopes) {o d x : ScopeId} (h : SameSight t ps o σ η)
    (hc : PlanTable.Clear t ps o x) (hd : AroundEq t.scopes d x) : SameSight t ps d σ η := by
  intro p z hz hzd
  rcases AroundEq.total hp (hzd.trans hp hd) hc.1 with hzo | hoz
  · exact h p z hz hzo
  · exact absurd hz ((hc.2 z hoz (hzd.trans hp hd)).2 p)

/-- A new environment of a scope further in. -/
theorem insert (hp : Preorder t.scopes) {q : PlanId} {i : ScopeId} (hq : ps.From q i)
    (hs : Around t.scopes s i) (a : Addr) : SameSight t ps s σ (σ.insert q a) := by
  intro p o ho hos
  refine SortedMap.find?_insert_of_ne ?_ a σ
  rintro rfl
  exact Around.irrefl hp (ho.unique hq ▸ hos.trans_around hp hs)

end SameSight

namespace Near

/-- A closure is near where it is made. -/
theorem made (hp : Preorder t.scopes) {c : ClosureId} {k : Closure}
    (hk : t.closures[c]? = some k) : Near t ps k.declaredIn σ ⟨c, σ⟩ :=
  ⟨k, hk, .inl rfl, .refl hp _, .refl⟩

/-- Only the environments around a closure matter. -/
theorem congr (hp : Preorder t.scopes) (h : Near t ps s σ held) (hσ : SameSight t ps s σ η) :
    Near t ps s η held := by
  obtain ⟨k, hk, hd, hne, hs⟩ := h
  exact ⟨k, hk, hd, hne, (hσ.mono hp hd).symm.trans hs⟩

/-- The value of a variable is near where the variable is read, unless it escapes. -/
theorem read (h : t.WellBound holds) {vis : VarId → Prop} (hr : t.Reach s vis) {v : VarId}
    (hv : vis v) {x : Variable} (hx : t.vars[v]? = some x) (hh : holds v held.closure)
    (hesc : ¬ t.Escaping held.closure) (hn : Near t ps x.scope σ held) : Near t ps s σ held := by
  obtain ⟨y, hy, hys, hneeds⟩ := hr v hv
  cases hx.symm.trans hy
  obtain ⟨k, hk, hd, hne, hs⟩ := hn
  refine ⟨k, hk, hd.trans h.preorder hys, hne.trans h.preorder ?_ hys, hs⟩
  exact fun e l hl hxl hls he => hesc (h.escape_needs e v _ he (hneeds e l hl hxl hls) hh)

/-- A value that is declared no further in than a variable is near the variable. -/
theorem write (hp : Preorder t.scopes) {x d : ScopeId} (hn : Near t ps s σ held)
    (hxs : AroundEq t.scopes x s) (hk : ∀ k, t.closures[held.closure]? = some k → d = k.declaredIn)
    (hd : AroundEq t.scopes d x) : Near t ps x σ held := by
  obtain ⟨k, hkc, -, hne, hs⟩ := hn
  cases hk k hkc
  exact ⟨k, hkc, hd, hne.mono hp (.inl rfl) hxs, hs⟩

end Near

namespace Kept

/-- What comes from fewer sources. -/
theorem imp {src' : ClosureId → Prop} (h : Kept t ps src s σ held)
    (hsrc : ∀ c, src c → src' c) : Kept t ps src' s σ held :=
  h.imp_right (And.imp_left (hsrc _))

/-- What may come from sources that all escape escapes. -/
theorem escaping (h : Kept t ps src s σ held) (hsrc : ∀ c, src c → t.Escaping c) :
    t.Escaping held.closure :=
  h.elim id fun h => hsrc _ h.1

/-- Only the environments around a closure matter. -/
theorem congr (hp : Preorder t.scopes) (h : Kept t ps src s σ held) (hσ : SameSight t ps s σ η) :
    Kept t ps src s η held :=
  h.imp_right (And.imp_right fun hn => hn.congr hp hσ)

/-- The value of a variable where it is read. -/
theorem read (h : t.WellBound holds) {vis : VarId → Prop} (hr : t.Reach s vis) {v : VarId}
    (hv : vis v) {x : Variable} (hx : t.vars[v]? = some x)
    (hk : Kept t ps (holds v) x.scope σ held) : Kept t ps (holds v) s σ held := by
  by_cases hesc : t.Escaping held.closure
  · exact .inl hesc
  · obtain ⟨hh, hn⟩ := hk.resolve_left hesc
    exact .inr ⟨hh, hn.read h hr hv hx hh hesc⟩

/-- A value that is written to a variable at or around the scope. -/
theorem write (hp : Preorder t.scopes) {v : VarId} {x : Variable}
    (hk : Kept t ps src s σ held) (hxs : AroundEq t.scopes x.scope s)
    (hold : ∀ c, src c → holds v c)
    (hrise : ∀ c k, src c → t.closures[c]? = some k → Around t.scopes x.scope k.declaredIn →
      t.Escaping c) : Kept t ps (holds v) x.scope σ held := by
  rcases hk with hesc | ⟨hsrc, hn⟩
  · exact .inl hesc
  by_cases hesc : t.Escaping held.closure
  · exact .inl hesc
  obtain ⟨k, hkc, hd, -⟩ := id hn
  refine .inr ⟨hold _ hsrc, hn.write hp hxs (d := k.declaredIn) (fun l hl => ?_) ?_⟩
  · cases hkc.symm.trans hl
    rfl
  · rcases AroundEq.total hp hd hxs with hdx | hxd
    · exact hdx
    · exact absurd (hrise _ k hsrc hkc hxd) hesc

/-- The value of a block, seen from around it. -/
theorem leave (hp : Preorder t.scopes) {i : ScopeId} (hpar : parentIn? t.scopes i = some s)
    (hk : Kept t ps src i η held) (hσ : SameSight t ps s σ η)
    (hleave : ∀ c k, src c → t.closures[c]? = some k → AroundEq t.scopes i k.declaredIn →
      t.Escaping c) : Kept t ps src s σ held := by
  rcases hk with hesc | ⟨hsrc, k, hkc, hd, hne, hs⟩
  · exact .inl hesc
  by_cases hesc : t.Escaping held.closure
  · exact .inl hesc
  have hds : AroundEq t.scopes k.declaredIn s := by
    refine aroundEq_parent hp hpar (hd.resolve_left fun heq => ?_)
    exact hesc (hleave _ k hsrc hkc (.inl heq.symm))
  exact .inr ⟨hsrc, k, hkc, hds, hne.mono hp (.inl rfl) (.inr (around_parent hp hpar)),
    (hσ.mono hp hds).trans hs⟩

end Kept

end Run.Lasting

end ClosureEnv
