import ClosureEnv.Proofs.Binding.Moves
import ClosureEnv.Proofs.Bound.Resolved

/-!
# What a name stands for while binding

The names of an open scope are those of its variables so far, latest first (`State.Named`), which
every primitive step keeps. So the search through the open scopes finds what a name stands for in
the tree that binding ends in: the latest variable of the innermost scope that offers one.
-/

namespace ClosureEnv.Binding

open State ClosureEnv.Bound

/-- The names of the variables of a scope, latest first. -/
def namesIn (vars : Array Variable) (s : ScopeId) : List (String × VarId) :=
  ((vars.toList.filter fun x => x.scope == s).map fun x => (x.name, x.id)).reverse

/-- Open scopes name the variables that they have declared. -/
def State.Named (b : State) : Prop :=
  ∀ f ∈ b.frames, f.names = namesIn b.vars f.scope

variable {vars : Array Variable} {s : ScopeId} {b b' F : State}

/-- A new variable is the first to be found in its scope. -/
theorem namesIn_push (x : Variable) : namesIn (vars.push x) s =
    if x.scope = s then (x.name, x.id) :: namesIn vars s else namesIn vars s := by
  rw [namesIn, Array.toList_push, List.filter_append, List.map_append, List.reverse_append,
    List.filter_cons, List.filter_nil]
  simp only [beq_iff_eq]
  split <;> rfl

/-- A scope that has no variables has no names. -/
theorem namesIn_eq_nil (h : ∀ (v : Nat) x, vars[v]? = some x → x.scope ≠ s) : namesIn vars s = [] := by
  rw [namesIn, List.reverse_eq_nil_iff, List.map_eq_nil_iff, List.filter_eq_nil_iff]
  intro x hx
  obtain ⟨v, hv⟩ := List.mem_iff_getElem?.mp hx
  rw [Array.getElem?_toList] at hv
  simpa using h v x hv

section

variable (hid : ∀ (v : Nat) x, vars[v]? = some x → x.id = v)
include hid

/-- The names of a scope are those of its variables. -/
theorem mem_namesIn {name : String} {v : VarId} :
    (name, v) ∈ namesIn vars s ↔ ∃ x, vars[v]? = some x ∧ x.name = name ∧ x.scope = s := by
  simp only [namesIn, List.mem_reverse, List.mem_map, List.mem_filter, beq_iff_eq, Prod.mk.injEq]
  constructor
  · rintro ⟨x, ⟨hx, hs⟩, hn, rfl⟩
    obtain ⟨v, hv⟩ := List.mem_iff_getElem?.mp hx
    rw [Array.getElem?_toList] at hv
    exact ⟨x, (hid v x hv).symm ▸ hv, hn, hs⟩
  · rintro ⟨x, hx, hn, hs⟩
    exact ⟨x, ⟨Array.mem_toList_iff.mpr (Array.mem_of_getElem? hx), hs⟩, hn, hid v x hx⟩

/-- Later variables come first. -/
theorem pairwise_namesIn : (namesIn vars s).Pairwise fun p q => q.2 < p.2 := by
  have hvars : vars.toList.Pairwise fun x y => x.id < y.id := by
    refine List.pairwise_iff_getElem.mpr fun i j hi hj hij => ?_
    have hx (k : Nat) (hk : k < vars.toList.length) : vars.toList[k].id = k := by
      refine hid k _ ?_
      rw [← Array.getElem?_toList]
      exact List.getElem?_eq_getElem hk
    rw [hx i hi, hx j hj]
    exact hij
  rw [namesIn, List.pairwise_reverse, List.pairwise_map]
  exact hvars.filter _

/-- What is found under a name in a scope is its latest variable of that name. -/
theorem lookup_namesIn {name : String} {v : VarId} (h : (namesIn vars s).lookup name = some v) :
    (∃ x, vars[v]? = some x ∧ x.name = name ∧ x.scope = s) ∧
      ∀ (w : Nat) y, vars[w]? = some y → y.name = name → y.scope = s → w ≤ v := by
  obtain ⟨before, rest, hsplit, hbefore⟩ := List.lookup_eq_some_iff.mp h
  refine ⟨(mem_namesIn hid).mp (by simp [hsplit]), fun w y hy hn hs => ?_⟩
  have hmem : (name, w) ∈ namesIn vars s := (mem_namesIn hid).mpr ⟨y, hy, hn, hs⟩
  have hsorted := pairwise_namesIn (s := s) hid
  rw [hsplit] at hmem hsorted
  rcases List.mem_append.mp hmem with hmem | hmem
  · exact absurd (hbefore _ hmem) (by simp)
  · rcases List.mem_cons.mp hmem with heq | hmem
    · exact Nat.le_of_eq (Prod.mk.inj heq).2
    · have hlater := List.rel_of_pairwise_cons (List.pairwise_append.mp hsorted).2.1 hmem
      exact Nat.le_of_lt hlater

/-- If nothing is found, the scope has no variable of that name. -/
theorem scope_ne_of_lookup {name : String} (h : (namesIn vars s).lookup name = none) {w : Nat}
    {y : Variable} (hy : vars[w]? = some y) (hn : y.name = name) : y.scope ≠ s := by
  intro hs
  have := List.lookup_eq_none_iff.mp h _ ((mem_namesIn hid).mpr ⟨y, hy, hn, hs⟩)
  simp at this

end

/-! ## Primitive steps -/

/-- A new scope has no names yet. -/
theorem State.Named.push (h : b.Named) (hb : b.Regular) : ∀ f ∈ (⟨b.scopes.size, []⟩ :: b.frames),
    f.names = namesIn b.vars f.scope := by
  intro f hf
  rcases List.mem_cons.mp hf with rfl | hf
  · exact (namesIn_eq_nil fun v x hx => Nat.ne_of_lt (hb.vars.var_scope v x hx).2).symm
  · exact h f hf

/-- Declaring a variable names it in the current scope only. -/
theorem State.Named.declared (h : b.Named) (hb : b.Regular) (hf : b.frames ≠ []) (name : String)
    (ty : Ty) (isMut isParam : Bool) (span : Syntax.Span) :
    (b.declared name ty isMut isParam span).Named := by
  obtain ⟨f, fs, hfs⟩ := List.exists_cons_of_ne_nil hf
  have hp := hb.forest.preorder
  have hchain := hb.frames.chain
  rw [hfs, List.map_cons] at hchain
  intro g hg
  simp only [State.declared, hfs] at hg
  simp only [State.declared]
  rw [namesIn_push]
  rcases List.mem_cons.mp hg with rfl | hg
  · rw [if_pos (currentScope_eq hfs), h f (hfs ▸ List.mem_cons_self)]
  · rw [if_neg, h g (hfs ▸ List.mem_cons_of_mem f hg)]
    -- an open scope further out is not the current one
    rw [currentScope_eq hfs]
    intro heq
    have hmem : g.scope ∈ fs.map Frame.scope := List.mem_map_of_mem hg
    cases fs with
    | nil => cases hg
    | cons r rs =>
      have haround := (hchain.tail.mem_iff hp).mp hmem
      exact Around.irrefl hp (heq ▸ around_of_parent hp hchain.1 haround)

/-- A primitive step keeps the names of open scopes. -/
theorem Move.named (h : Move b b') (hb : b.Regular) (hn : b.Named) : b'.Named := by
  cases h with
  | opened hf hk hk' span => exact hn.push hb
  | closed hf hc => exact fun f hf => hn f (List.mem_of_mem_tail hf)
  | declared hf name ty isMut isParam span => exact hn.declared hb hf name ty isMut isParam span
  | @used v hv =>
    unfold State.used
    split
    · exact hn
    · split <;> exact hn
  | stored v hs => exact hn
  | drainedBy sink hs => exact hn
  | openedClosure hf span => exact hn.push hb
  | finished hf hc params body hs => exact fun f hf => hn f (List.mem_of_mem_tail hf)
  | started hf name generics span isSynthetic => exact hn.push hb
  | ended hf hc params ret body => exact fun f hf => hn f (List.mem_of_mem_tail hf)
  | learnt fnTypes globalTypes globals => exact hn

/-! ## Looking up a name -/

/-- A chain without its inner scopes is one. -/
theorem FrameChain.of_append {scopes : Array Scope} {inner outer : List ScopeId}
    (h : FrameChain scopes (inner ++ outer)) : FrameChain scopes outer := by
  induction inner with
  | nil => exact h
  | cons i is ih => exact ih h.tail

section

variable (hb : b.Regular) (hn : b.Named) (hf : b.frames ≠ [])
include hb hn hf

/-- What is found under a name is a variable of an open scope, the innermost that has one of that
name, and the latest there. -/
theorem State.lookup_spec {name : String} {v : VarId} (h : b.lookup? name = some v) :
    ∃ x, b.vars[v]? = some x ∧ x.name = name ∧ AroundEq b.scopes x.scope b.currentScope ∧
      ∀ (w : Nat) y, b.vars[w]? = some y → y.name = name →
        AroundEq b.scopes y.scope b.currentScope →
        AroundEq b.scopes y.scope x.scope ∧ (y.scope = x.scope → w ≤ v) := by
  have hid (v : Nat) (x : Variable) (hx : b.vars[v]? = some x) := (hb.vars.var_scope v x hx).1
  have hp := hb.forest.preorder
  obtain ⟨inner, f, outer, hsplit, hfound, hnone⟩ := List.findSome?_eq_some_iff.mp h
  have hmem : f ∈ b.frames := by simp [hsplit]
  rw [hn f hmem] at hfound
  obtain ⟨⟨x, hx, hxn, hxs⟩, hlatest⟩ := lookup_namesIn hid hfound
  refine ⟨x, hx, hxn, hxs ▸ (hb.mem_frames_iff hf).mp (List.mem_map_of_mem hmem),
    fun w y hy hyn hys => ⟨?_, fun heq => hlatest w y hy hyn (heq.trans hxs)⟩⟩
  obtain ⟨g, hg, hgs⟩ := List.mem_map.mp ((hb.mem_frames_iff hf).mpr hys)
  rw [hsplit] at hg
  rcases List.mem_append.mp hg with hg | hg
  · -- further in, no scope has the name
    have hgn := hnone g hg
    rw [hn g (by simp [hsplit, hg])] at hgn
    exact absurd hgs.symm (scope_ne_of_lookup hid hgn hy hyn)
  · have hchain := hb.frames.chain
    rw [hsplit, List.map_append, List.map_cons] at hchain
    replace hchain := hchain.of_append
    rw [hxs, ← hgs]
    exact (hchain.mem_iff hp).mp (by simpa using List.mem_map_of_mem (f := Frame.scope) hg)

/-- If nothing is found, no open scope has a variable of that name. -/
theorem State.lookup_eq_none {name : String} (h : b.lookup? name = none) {w : Nat} {y : Variable}
    (hy : b.vars[w]? = some y) (hyn : y.name = name) :
    ¬ AroundEq b.scopes y.scope b.currentScope := by
  have hid (v : Nat) (x : Variable) (hx : b.vars[v]? = some x) := (hb.vars.var_scope v x hx).1
  intro hys
  obtain ⟨g, hg, hgs⟩ := List.mem_map.mp ((hb.mem_frames_iff hf).mpr hys)
  have hgn := List.findSome?_eq_none_iff.mp h g hg
  rw [hn g hg] at hgn
  exact scope_ne_of_lookup hid hgn hy hyn hgs.symm

variable (hF : F.Regular) (hg : b.Grows F) {u : String}
include hF hg

omit hn in
/-- What the tree at the end offers of the variables so far is what there is so far. -/
theorem State.offers_finish_iff {name : String} {v : VarId} {x : Variable} :
    (F.finish u).Offers b.vars.size b.currentScope name v x ↔
      b.vars[v]? = some x ∧ x.name = name ∧ AroundEq b.scopes x.scope b.currentScope := by
  have haround := hg.aroundEq_later_iff hb hF (o := x.scope) (hb.currentScope_lt hf)
  constructor
  · rintro ⟨hlt, hx, hxn, hxs⟩
    have hx' := Array.getElem?_eq_getElem hlt
    cases hx.symm.trans (hg.vars v _ hx')
    exact ⟨hx', hxn, haround.mp hxs⟩
  · rintro ⟨hx, hxn, hxs⟩
    exact ⟨(Array.getElem?_eq_some_iff.mp hx).1, hg.vars v x hx, hxn, haround.mpr hxs⟩

/-- What is found under a name is what it stands for in the tree. -/
theorem State.resolves_of_lookup {name : String} {v : VarId} (h : b.lookup? name = some v) :
    (F.finish u).Resolves b.vars.size b.currentScope name v := by
  obtain ⟨x, hx, hxn, hxs, hbest⟩ := State.lookup_spec hb hn hf h
  refine ⟨x, (State.offers_finish_iff hb hf hF hg).mpr ⟨hx, hxn, hxs⟩, fun w y hw => ?_⟩
  obtain ⟨hy, hyn, hys⟩ := (State.offers_finish_iff hb hf hF hg).mp hw
  obtain ⟨hyx, hlatest⟩ := hbest w y hy hyn hys
  exact ⟨(hg.aroundEq_later_iff hb hF (hb.vars.var_scope v x hx).2).mpr hyx, hlatest⟩

/-- If nothing is found under a name, it stands for no variable of the tree. -/
theorem State.unresolved_of_lookup {name : String} (h : b.lookup? name = none) :
    (F.finish u).Unresolved b.vars.size b.currentScope name := by
  intro w y hw
  obtain ⟨hy, hyn, hys⟩ := (State.offers_finish_iff hb hf hF hg).mp hw
  exact State.lookup_eq_none hb hn hf h hy hyn hys

end

end ClosureEnv.Binding
