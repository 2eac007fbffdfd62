import ClosureEnv.Proofs.Binding.Source
import ClosureEnv.Proofs.Bound.Tree

/-!
# Keys tell what is around a scope

The key of a scope begins with the keys of the scopes around it, each up to a slash. So a scope with
some key is inside of one with each such beginning, in this tree and in that of any other source
that has the key (`ScopeTree.Keyed.exists_outer`).
-/

namespace ClosureEnv

namespace ScopeTree

/-- The key of a scope is that of its parent with a slash and a number, and only scopes with a
parent have a slash in their keys. -/
structure Keyed (t : ScopeTree) : Prop where
  child : ∀ (i p : Nat) s q, t.scopes[i]? = some s → s.parent = some p → t.scopes[p]? = some q →
    ∃ n : Nat, s.key = q.key ++ "/" ++ toString n
  root : ∀ (i : Nat) s, t.scopes[i]? = some s → s.parent = none → '/' ∉ s.key.toList

/-- A key is that of a function, or goes on from it after a slash. -/
def KeyOf (fn key : String) : Prop :=
  key = fn ∨ ∃ rest, key = fn ++ "/" ++ rest

/-- The key of a function is what comes before the first slash. -/
theorem KeyOf.takeWhile {fn key : String} (h : KeyOf fn key) (hfn : '/' ∉ fn.toList) :
    key.toList.takeWhile (· != '/') = fn.toList := by
  have hall : ∀ c ∈ fn.toList, (c != '/') = true := fun c hc =>
    bne_iff_ne.mpr fun heq => hfn (heq ▸ hc)
  have hfirst (cs : List Char) (hcs : cs.takeWhile (· != '/') = []) :
      (fn.toList ++ cs).takeWhile (· != '/') = fn.toList := by
    rw [List.takeWhile_append_of_pos hall, hcs, List.append_nil]
  rcases h with rfl | ⟨rest, rfl⟩
  · rw [← List.append_nil key.toList, hfirst [] rfl, List.append_nil]
  · rw [String.toList_append, String.toList_append, List.append_assoc]
    exact hfirst _ rfl

namespace Keyed

variable {t : ScopeTree} (hk : t.Keyed)
include hk

/-- The parent of a scope comes before it, and the key of the scope goes on from its key. -/
theorem exists_parent (hp : Preorder t.scopes) {i p : Nat} {s : Scope} (hs : t.scopes[i]? = some s)
    (hpar : s.parent = some p) : p < i ∧ ∃ q, t.scopes[p]? = some q ∧
      ∃ n : Nat, s.key = q.key ++ "/" ++ toString n := by
  have hlt := hp i p ((parentIn?_of_scope hs).trans hpar)
  have hsize := Nat.lt_trans hlt (Array.getElem?_eq_some_iff.mp hs).1
  have hq := Array.getElem?_eq_getElem hsize
  exact ⟨hlt, _, hq, hk.child i p s _ hs hpar hq⟩

/-- The key of a scope begins with that of a scope around it. -/
theorem exists_rest (hp : Preorder t.scopes) {o : ScopeId} {outer : Scope}
    (ho : t.scopes[o]? = some outer) (i : Nat) : ∀ {s : Scope}, t.scopes[i]? = some s →
      Around t.scopes o i → ∃ rest : String, s.key = outer.key ++ "/" ++ rest := by
  induction i using Nat.strongRecOn with
  | ind i ih =>
    intro s hs haround
    obtain ⟨p, hpar, hop⟩ := (around_iff hp).mp haround
    rw [parentIn?_of_scope hs] at hpar
    obtain ⟨hlt, q, hq, n, hn⟩ := hk.exists_parent hp hs hpar
    rcases hop with rfl | hop
    · cases ho.symm.trans hq
      exact ⟨toString n, hn⟩
    · obtain ⟨rest, hrest⟩ := ih p hlt hq hop
      exact ⟨rest ++ "/" ++ toString n, by simp [hn, hrest, String.append_assoc]⟩

/-- A beginning of the key of a scope, up to a slash, is the key of a scope as well. -/
theorem exists_outer (hp : Preorder t.scopes) {outer : String} (i : Nat) : ∀ {s : Scope}
    {rest : List Char}, t.scopes[i]? = some s → s.key.toList = outer.toList ++ '/' :: rest →
      ∃ (o : Nat) (s' : Scope), t.scopes[o]? = some s' ∧ s'.key = outer := by
  induction i using Nat.strongRecOn with
  | ind i ih =>
    intro s rest hs hkey
    cases hpar : s.parent with
    | none => exact absurd (by simp [hkey]) (hk.root i s hs hpar)
    | some p =>
      obtain ⟨hlt, q, hq, n, hn⟩ := hk.exists_parent hp hs hpar
      have hsplit : outer.toList ++ '/' :: rest = q.key.toList ++ '/' :: (toString n).toList := by
        rw [← hkey, hn]
        simp [String.toList_append]
      -- the last slash of the key is that before the number, which has none
      rcases List.append_eq_append_iff.mp hsplit with ⟨more, hmore, htail⟩ | ⟨more, hmore, htail⟩
      · cases more with
        | nil => exact ⟨p, _, hq, by simpa [String.toList_inj] using hmore⟩
        | cons c more =>
          obtain ⟨rfl, -⟩ := List.cons.inj htail
          exact ih p hlt hq hmore
      · cases more with
        | nil => exact ⟨p, _, hq, by simpa [String.toList_inj] using hmore.symm⟩
        | cons c more =>
          obtain ⟨rfl, hdigits⟩ := List.cons.inj htail
          have hslash : '/' ∈ (toString n).toList :=
            hdigits ▸ List.mem_append_right _ List.mem_cons_self
          exact absurd (Text.isDigit_of_mem_toString hslash) (by decide)

/-- A scope is inside of one without a parent, or is one. -/
theorem exists_root (hp : Preorder t.scopes) (i : Nat) : ∀ {s : Scope}, t.scopes[i]? = some s →
    ∃ (r : Nat) (x : Scope), t.scopes[r]? = some x ∧ x.parent = none ∧ AroundEq t.scopes r i := by
  induction i using Nat.strongRecOn with
  | ind i ih =>
    intro s hs
    cases hpar : s.parent with
    | none => exact ⟨i, s, hs, hpar, .inl rfl⟩
    | some p =>
      obtain ⟨hlt, q, hq, -⟩ := hk.exists_parent hp hs hpar
      obtain ⟨r, x, hx, hroot, hrp⟩ := ih p hlt hq
      exact ⟨r, x, hx, hroot, .inr (around_of_parent hp ((parentIn?_of_scope hs).trans hpar) hrp)⟩

/-- A scope whose key is that of a function, or goes on from it, is inside of the scope of the
function. -/
theorem exists_root_of_key (hp : Preorder t.scopes) {fn : String} (hfn : '/' ∉ fn.toList) {i : Nat}
    {s : Scope} (hs : t.scopes[i]? = some s) (hkey : KeyOf fn s.key) :
    ∃ (r : Nat) (x : Scope), t.scopes[r]? = some x ∧ x.parent = none ∧ x.key = fn ∧
      AroundEq t.scopes r i := by
  obtain ⟨r, x, hx, hroot, hr⟩ := hk.exists_root hp i hs
  refine ⟨r, x, hx, hroot, ?_, hr⟩
  have hkey' : KeyOf x.key s.key := by
    rcases hr with rfl | hr
    · cases hx.symm.trans hs
      exact .inl rfl
    · exact .inr (hk.exists_rest hp hx i hs hr)
  rw [← String.toList_inj, ← hkey'.takeWhile (hk.root r x hx hroot), hkey.takeWhile hfn]

end Keyed

end ScopeTree

/-- The tree of a module with names of a source has such keys. -/
theorem keyed_of_bindModule {unit : String} {m : Syntax.Module} {t : ScopeTree}
    (hm : m.Named Plain) (ht : bindModule m unit = .ok t) : t.Keyed := by
  obtain ⟨F, h, rfl⟩ := exists_ofModule hm ht
  refine ⟨fun i p s q hs hp hq => ?_, fun i s hs hp => h.slash_of_root hm hs hp⟩
  obtain ⟨n, -, -, -, hkey⟩ := h.inv.keys.child i p s q hs hp hq
  exact ⟨n, hkey⟩

end ClosureEnv
