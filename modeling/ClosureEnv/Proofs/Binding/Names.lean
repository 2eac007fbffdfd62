import ClosureEnv.Proofs.Binding.Module
import Mathlib.Data.List.Nodup

/-!
# Bound modules are well-named

The key of a scope below another ends in `/` and a number, and the part before is the key of its
parent, so keys that are equal are made alike all the way up to the name of a function.
-/

namespace ClosureEnv.Binding

open State

variable {u : String} {F : State} {m : Syntax.Module} {scopes : Array Scope} {counts : Array Nat}

/-- Keys of scopes below others tell the keys of the parents. -/
theorem key_append_inj {s t : String} {m n : Nat}
    (h : s ++ "/" ++ toString m = t ++ "/" ++ toString n) : s = t :=
  (Text.append_toString_inj "" (c := '/') (by decide) h).1

/-- Keys tell scopes apart if they tell those of functions apart. -/
theorem KeyInv.key_injective (h : KeyInv scopes counts) (hp : Preorder scopes)
    (hplain : ∀ (i : Nat) s, scopes[i]? = some s → s.parent = none → '/' ∉ s.key.toList)
    (hroot : ∀ (i j : Nat) s s', scopes[i]? = some s → scopes[j]? = some s' → s.parent = none →
      s'.parent = none → s.key = s'.key → i = j) (i : Nat) :
    ∀ (j : Nat) s s', scopes[i]? = some s → scopes[j]? = some s' → s.key = s'.key → i = j := by
  have hparent (i p : Nat) (s : Scope) (hs : scopes[i]? = some s) (hsp : s.parent = some p) :
      p < i ∧ ∃ q, scopes[p]? = some q ∧ ∃ n : Nat, s.key = q.key ++ "/" ++ toString n := by
    have hpar : parentIn? scopes i = some p := (parentIn?_of_scope hs).trans hsp
    have hlt := hp i p hpar
    have hq := Array.getElem?_eq_getElem (Nat.lt_trans hlt (lt_size_of_parentIn? hpar))
    obtain ⟨n, -, -, -, hkey⟩ := h.child i p s _ hs hsp hq
    exact ⟨hlt, _, hq, n, hkey⟩
  induction i using Nat.strongRecOn with
  | ind i ih =>
    intro j s s' hs hs' hkey
    -- Either key is that of a root or has the number of a child at its end, after a slash that no
    -- root has.
    rcases hsp : s.parent with _ | p <;> rcases hsp' : s'.parent with _ | p'
    · exact hroot i j s s' hs hs' hsp hsp' hkey
    · obtain ⟨-, q, -, n, hk⟩ := hparent j p' s' hs' hsp'
      refine absurd ?_ (hplain i s hs hsp)
      simp [hkey, hk]
    · obtain ⟨-, q, -, n, hk⟩ := hparent i p s hs hsp
      refine absurd ?_ (hplain j s' hs' hsp')
      simp [← hkey, hk]
    · -- Keys that end alike have parents with one key, and siblings are told apart by their
      -- numbers.
      obtain ⟨hlt, q, hq, n, hk⟩ := hparent i p s hs hsp
      obtain ⟨-, q', hq', n', hk'⟩ := hparent j p' s' hs' hsp'
      cases ih p hlt p' q q' hq hq' (key_append_inj (by rw [← hk, ← hk', hkey]))
      by_contra hij
      exact h.sibling i j p s s' hs hs' hij hsp hsp' hkey

/-- The name of the function that holds the globals is not one of the source. -/
theorem not_plain_moduleFn : ¬ Plain moduleFn := by
  intro h
  exact (h '<' (by decide)).1 rfl

namespace State.OfModule

/-- A scope without a parent is that of a function, whose name is its key. -/
theorem exists_fn_of_root {P : String → Prop} (h : F.OfModule P u m) {i : Nat} {s : Scope}
    (hs : F.scopes[i]? = some s) (hp : s.parent = none) :
    ∃ f, F.fns[s.owner]? = some f ∧ f.scope = i ∧ f.name = s.key := by
  rcases h.inv.roots.bound i s hs hp with hf | ⟨ho, -⟩
  · exact hf
  · have hlt := begun_eq_of_nil h.closed ▸ h.inv.forest.scope_owner i s hs
    exact absurd ho (Nat.ne_of_lt hlt)

variable (h : F.OfModule Plain u m)
include h

/-- Functions have names of the source, but for the one that holds the globals. -/
theorem fn_name (hm : m.Named Plain) {f : Function} (hf : f ∈ F.fns) :
    if f.isSynthetic then f.name = moduleFn else Plain f.name := by
  obtain ⟨fs, gs, hfs, hfn, hsyn, hgs⟩ := h.fns
  rw [← Array.mem_toList_iff, hfs, List.mem_append] at hf
  rcases hf with hf | hf
  · have hmem : f.name ∈ fs.map Function.name := List.mem_map_of_mem hf
    rw [hfn] at hmem
    obtain ⟨d, hd, hdn⟩ := List.mem_map.mp hmem
    simpa [hsyn f hf] using hdn ▸ (named_functions hm d hd).1
  · rcases hgs with ⟨rfl, -⟩ | ⟨g, rfl, hg, hgn, -⟩
    · cases hf
    · cases List.mem_singleton.mp hf
      simp [hg, hgn]

/-- The key of a scope without a parent has no slash in it. -/
theorem slash_of_root (hm : m.Named Plain) {i : Nat} {s : Scope} (hs : F.scopes[i]? = some s)
    (hp : s.parent = none) : '/' ∉ s.key.toList := by
  intro hmem
  obtain ⟨f, hf, -, hkey⟩ := h.exists_fn_of_root hs hp
  have hname := h.fn_name hm (Array.mem_of_getElem? hf)
  rw [← hkey] at hmem
  split at hname
  · rw [hname] at hmem
    revert hmem
    decide
  · exact (hname '/' hmem).2.2 rfl

end State.OfModule

/-- The tree of a module is well-named. -/
theorem State.OfModule.wellNamed (h : F.OfModule Plain u m) (hm : m.Named Plain) :
    (F.finish u).WellNamed := by
  have hinv := h.inv
  obtain ⟨fs, gs, hfs, hfn, hsyn, hgs⟩ := h.fns
  have hglobals (g : Global) (hg : g ∈ F.globals) : Plain g.name := by
    have hmem : g.name ∈ F.globals.toList.map Global.name :=
      List.mem_map_of_mem (Array.mem_toList_iff.mpr hg)
    rw [h.globals] at hmem
    obtain ⟨d, hd, hdn⟩ := List.mem_map.mp hmem
    exact hdn ▸ (named_globals hm d hd).1
  have hitems : ((functions m.items).map (·.name.text) ++
      F.globals.toList.map Global.name).Nodup := by
    rw [h.globals]
    exact (perm_items m.items).nodup_iff.mpr h.items
  have hnodup : (F.fns.toList.map Function.name ++ F.globals.toList.map Global.name).Nodup := by
    rw [hfs, List.map_append, hfn]
    rcases hgs with ⟨rfl, -⟩ | ⟨g, rfl, -, hgn, -⟩
    · simpa using hitems
    · -- The function for the globals has a name that no program can spell.
      rw [List.append_assoc, List.map_singleton, List.singleton_append, hgn]
      refine List.perm_middle.nodup_iff.mpr (List.nodup_cons.mpr ⟨fun hmem => ?_, hitems⟩)
      rcases List.mem_append.mp hmem with hmem | hmem
      · obtain ⟨d, hd, hdn⟩ := List.mem_map.mp hmem
        exact not_plain_moduleFn (hdn ▸ (named_functions hm d hd).1)
      · obtain ⟨g, hg, hgm⟩ := List.mem_map.mp hmem
        exact not_plain_moduleFn (hgm ▸ hglobals g (Array.mem_toList_iff.mp hg))
  refine ⟨fun x hx => ?_, fun f hf => h.fn_name hm hf, hglobals, hnodup, ?_, ?_⟩
  · obtain ⟨v, hv⟩ := Array.mem_iff_getElem?.mp hx
    exact hinv.vars.var_name v x hv
  · intro i
    refine hinv.keys.key_injective hinv.forest.preorder
      (fun i s hs hp => h.slash_of_root hm hs hp) ?_ i
    -- The roots are the scopes of functions, whose keys are the functions' names.
    intro i j s s' hs hs' hp hp' hkey
    obtain ⟨f, hf, rfl, hfk⟩ := h.exists_fn_of_root hs hp
    obtain ⟨g, hg, rfl, hgk⟩ := h.exists_fn_of_root hs' hp'
    have hmem (n : Nat) (f : Function) (hf : F.fns[n]? = some f) : f ∈ F.fns.toList :=
      Array.mem_toList_iff.mpr (Array.mem_of_getElem? hf)
    cases List.inj_on_of_nodup_map hnodup.of_append_left (hmem _ f hf) (hmem _ g hg)
      (by rw [hfk, hgk, hkey])
    rfl
  · intro c d k l hk hl ho hkl
    by_contra hcd
    obtain ⟨k', hk', rfl⟩ := State.closure_finish_iff.mp hk
    obtain ⟨l', hl', rfl⟩ := State.closure_finish_iff.mp hl
    exact hinv.ordinals.ne c d k' l' hk' hl' hcd ho hkl

end ClosureEnv.Binding
