import ClosureEnv.Proofs.Binding.Numbering
import ClosureEnv.Proofs.Bound.Mentions
import ClosureEnv.Proofs.Fault.Lower
import ClosureEnv.Proofs.Plan.Captures

/-!
# The shape of bound trees

What lowering and planning take for granted of the tree of a source: `ScopeTree.Shaped` says how its
scopes, closures and functions are numbered, named and owned, and that variables are mentioned only
where they are in scope. The tree of every source that binds is shaped (`shaped_of_source`).
-/

namespace ClosureEnv

namespace ScopeTree

/-- The positions of the children of a scope, in order. -/
abbrev children (t : ScopeTree) (p : ScopeId) : List ScopeId :=
  childrenIn t.scopes p

/-- The ordinals of the closures of a function, in the order of the closures. -/
abbrev ordinals (t : ScopeTree) (f : FnId) : List Nat :=
  Binding.ordinalsIn t.closures f

/-- Numbers are positions. -/
structure Positioned (t : ScopeTree) : Prop where
  scope : ∀ (i : Nat) s, t.scopes[i]? = some s → s.id = i
  var : ∀ (v : Nat) x, t.vars[v]? = some x → x.id = v
  closure : ∀ (c : Nat) k, t.closures[c]? = some k → k.id = c
  fn : ∀ (n : Nat) f, t.fns[n]? = some f → f.id = n ∧ f.ordinal = n

/-- The shape of a scope tree. -/
structure Shaped (t : ScopeTree) : Prop where
  /-- There is nothing to complain about. -/
  valid : t.validate = .ok ()
  /-- Numbers are positions. -/
  positioned : t.Positioned
  /-- Scopes are numbered in preorder: those below a scope follow it, without a gap. -/
  preorder : ∀ s < t.scopes.size, ∃ n, s < n ∧ n ≤ t.scopes.size ∧
    ∀ i, Around t.scopes s i ↔ s < i ∧ i < n
  /-- The scopes around a scope are listed once each, -/
  ancestors_nodup : ∀ i, (t.ancestors i).Nodup
  /-- and the depth of the scope is their number. -/
  depth : ∀ (i : Nat) s, t.scopes[i]? = some s → s.depth = (t.ancestors i).length
  /-- Keys tell scopes apart. -/
  key_injective : ∀ (i j : Nat) s s', t.scopes[i]? = some s → t.scopes[j]? = some s' →
    s.key = s'.key → i = j
  /-- A key is that of the parent with the position among its children. -/
  key : ∀ (i p : Nat) s q, t.scopes[i]? = some s → s.parent = some p → t.scopes[p]? = some q →
    ∃ n : Nat, (t.children p)[n]? = some i ∧ s.key = q.key ++ "/" ++ toString n
  /-- A scope names a closure if it is the scope of that closure, and only then. -/
  closure_iff : ∀ (i : Nat) s c, t.scopes[i]? = some s →
    (s.closure = some c ↔ ∃ k, t.closures[c]? = some k ∧ k.scope = i)
  /-- The parent of the scope of a closure is where the closure is declared. -/
  closure_parent : ∀ (c : Nat) k, t.closures[c]? = some k →
    parentIn? t.scopes k.scope = some k.declaredIn
  /-- All scopes of a function belong to it. -/
  owner : ∀ (n : Nat) f, t.fns[n]? = some f → ∀ (i : Nat) s, AroundEq t.scopes f.scope i →
    t.scopes[i]? = some s → s.owner = n
  /-- A closure belongs to the function that its scope belongs to. -/
  closure_owner : ∀ (c : Nat) k s, t.closures[c]? = some k → t.scopes[k.scope]? = some s →
    k.owner = s.owner
  /-- The closures of a function are counted from zero. -/
  ordinals : ∀ n, t.ordinals n = List.range (t.ordinals n).length
  /-- The body of a closure mentions what is in scope. -/
  closure_mentions : ∀ k ∈ t.closures, ∀ m ∈ k.body.mentions k.scope, t.InScope m.1 m.2
  /-- So does the body of a function, -/
  fn_mentions : ∀ f ∈ t.fns, ∀ m ∈ f.body.mentions f.scope, t.InScope m.1 m.2
  /-- and the initial value of a global, in the scope of the function that holds the globals. -/
  global_mentions : ∀ g ∈ t.globals, ∃ f, t.fns.find? Function.isSynthetic = some f ∧
    ∀ m ∈ g.init.mentions f.scope, t.InScope m.1 m.2

namespace WellBound

variable {t : ScopeTree} {holds : VarId → ClosureId → Prop} (h : t.WellBound holds)

include h

/-- What the body of a closure mentions is in the scope of the mention. -/
theorem closure_inScope {c : Nat} {k : Closure} (hk : t.closures[c]? = some k) :
    ∀ m ∈ k.body.mentions k.scope, t.InScope m.1 m.2 := by
  obtain ⟨hbody, -, hparams⟩ := h.closure_body c k hk
  refine hbody.inScope h.preorder fun v hv => ?_
  rcases hv with hv | hv
  · obtain ⟨-, x, -, hx⟩ := h.exists_of_needs hv
    exact ⟨x, hx, .inr (h.around_of_needs hv hk hx)⟩
  · obtain ⟨x, hx, hxs⟩ := hparams.scope v hv
    exact ⟨x, hx, .inl hxs⟩

/-- What the body of a function of the source mentions is in the scope of the mention. -/
theorem fn_inScope {f : Function} (hf : f ∈ t.fns) (hsyn : f.isSynthetic = false) :
    ∀ m ∈ f.body.mentions f.scope, t.InScope m.1 m.2 := by
  obtain ⟨hbody, hscope, -, hparams⟩ := h.fn_body f hf hsyn
  refine Bound.Block.Scoped.inScope h.preorder f.body (fun v hv => ?_) hbody
  obtain ⟨x, hx, hxs⟩ := hparams.scope v hv
  rw [hscope]
  exact ⟨x, hx, .inl hxs⟩

/-- The depth of a scope is the number of the scopes around it, given the depth of roots. -/
theorem depth_eq_length (hroot : ∀ (i : Nat) s, t.scopes[i]? = some s → s.parent = none →
    s.depth = 0) (i : Nat) : ∀ s, t.scopes[i]? = some s → s.depth = (t.ancestors i).length := by
  induction i using Nat.strongRecOn with
  | ind i ih =>
    intro s hs
    rw [ancestors, ancestorsIn_eq h.preorder, parentIn?_of_scope hs]
    cases hpar : s.parent with
    | none => exact hroot i s hs hpar
    | some p =>
      obtain ⟨hlt, hsize⟩ := h.parent_lt hs hpar
      have hq := Array.getElem?_eq_getElem hsize
      rw [h.depth i p s _ hs hpar hq, ih p hlt _ hq]
      rfl

/-- What is below a scope has its owner, if owners are handed down. -/
theorem owner_eq (hparent : ∀ (i p : Nat) s q, t.scopes[i]? = some s → s.parent = some p →
    t.scopes[p]? = some q → s.owner = q.owner) {o : Nat} {outer : Scope}
    (ho : t.scopes[o]? = some outer) (i : Nat) : ∀ s, AroundEq t.scopes o i →
      t.scopes[i]? = some s → s.owner = outer.owner := by
  induction i using Nat.strongRecOn with
  | ind i ih =>
    rintro s (rfl | hoi) hs
    · cases ho.symm.trans hs
      rfl
    · obtain ⟨p, hpar, hop⟩ := (around_iff h.preorder).mp hoi
      rw [parentIn?_of_scope hs] at hpar
      obtain ⟨hlt, hsize⟩ := h.parent_lt hs hpar
      have hq := Array.getElem?_eq_getElem hsize
      rw [hparent i p s _ hs hpar hq, ih p hlt _ hop hq]

end WellBound

end ScopeTree

/-- The function that holds the globals has nothing else in it. -/
theorem Binding.body_of_synthetic {m : Syntax.Module} {F : State} (hF : bindState m = .ok F) :
    ∀ f ∈ F.fns, f.isSynthetic = true → f.body = .mk none [] none := by
  obtain ⟨b₀, b₁, h₀, h₁, hglobals⟩ := bindState_run hF
  obtain ⟨⟨ft, gt, rfl⟩, -⟩ := declareItems_spec m.items h₀
  obtain ⟨hb, -, hgl, fs, hfs, -, hsyn⟩ := bindFns_spec (P := fun _ => True) (u := "")
    (functions m.items) (fun d _ => ⟨fun _ _ => trivial, d.body.named_true⟩)
    (State.between_empty ft gt) h₁
  have hsource (f : Function) (hf : f ∈ b₁.fns) : f.isSynthetic = false := by
    rw [← Array.mem_toList_iff, hfs] at hf
    exact hsyn f (by simpa [State.empty] using hf)
  rcases hglobals with ⟨-, rfl⟩ | ⟨-, b₃, h₃, rfl⟩
  · intro f hf hs
    rw [hsource f hf] at hs
    cases hs
  · obtain ⟨-, -, hfns, -⟩ := bindGlobals_spec (globals m.items)
      (fun d _ => d.value.named_true) (hb.inGlobals hgl m.span) h₃
    intro f hf hs
    rcases Array.mem_push.mp hf with hf | rfl
    · rw [hfns] at hf
      rw [hsource f hf] at hs
      cases hs
    · rfl

/-- The ordinals of closures do not depend on what escapes. -/
theorem Binding.ordinals_finish (F : State) (unit : String) (n : FnId) :
    (F.finish unit).ordinals n = ordinalsIn F.closures n := by
  simp only [ScopeTree.ordinals, ordinalsIn, State.finish, Array.toList_map, List.filter_map,
    List.map_map]
  rfl

/-- The tree of a module with names of a source is shaped. -/
theorem shaped_of_bindModule {unit : String} {m : Syntax.Module} {t : ScopeTree}
    (hm : m.Named Plain) (ht : bindModule m unit = .ok t) : t.Shaped := by
  obtain ⟨holds, h⟩ := wellBound_of_bindModule ht
  have hnamed := (sound_of_bindModule hm ht).wellNamed
  obtain ⟨F, hF, rfl⟩ := Binding.exists_of_bindModule ht
  have hn := Binding.numbered_of_bindState hF
  exact {
    valid := h.validate_ok
    positioned := ⟨h.scope_id, fun v x hx => (h.var_scope v x hx).1, h.closure_id,
      fun n f hf => ⟨(h.fn_scope n f hf).1, (h.fn_scope n f hf).2.1⟩⟩
    preorder := fun s hs => hn.nest.adjoining.exists_around_iff h.preorder hs
    ancestors_nodup := nodup_ancestorsIn h.preorder
    depth := h.depth_eq_length hn.nest.root_depth
    key_injective := hnamed.key
    key := hn.children.key
    closure_iff := fun i s c hs => by
      refine ⟨h.closure_of_scope i s c hs, ?_⟩
      rintro ⟨k, hk, rfl⟩
      obtain ⟨x, hx, hxc, -⟩ := h.closure_scope c k hk
      cases hs.symm.trans hx
      exact hxc
    closure_parent := fun c k hk => h.parentIn?_closure hk
    owner := fun n f hf i s hfi hs => by
      obtain ⟨x, hx, ho⟩ := hn.owners.fn n f hf
      rw [h.owner_eq hn.owners.parent hx i s hfi hs, ho]
    closure_owner := fun c k s hk hs => by
      obtain ⟨l, hl, rfl⟩ := Binding.State.closure_finish_iff.mp hk
      obtain ⟨x, hx, hxo⟩ := hn.owners.closure c l hl
      cases hs.symm.trans hx
      exact hxo.symm
    ordinals := fun n => by
      rw [Binding.ordinals_finish]
      exact hn.ordinals.range n
    closure_mentions := fun k hk => by
      obtain ⟨c, hc⟩ := Array.mem_iff_getElem?.mp hk
      exact h.closure_inScope hc
    fn_mentions := fun f hf => by
      by_cases hsyn : f.isSynthetic = true
      · rw [Binding.body_of_synthetic hF f hf hsyn]
        exact fun m hmem => absurd hmem List.not_mem_nil
      · exact h.fn_inScope hf (by simpa using hsyn)
    global_mentions := fun g hg => by
      obtain ⟨f, hf, hinit, -⟩ := h.global_init g hg
      exact ⟨f, hf, Bound.Expr.Scoped.inScope h.preorder (fun _ hv => hv.elim) _ hinit⟩ }

/-- The tree of every source that binds is shaped. -/
theorem shaped_of_source {src unit : String} {m : Syntax.Module} {t : ScopeTree}
    (hm : Syntax.parse src = .ok m) (ht : bindModule m unit = .ok t) : t.Shaped :=
  shaped_of_bindModule (Syntax.parse_named hm) ht

/-- So is that of a source with a closure. -/
theorem shaped_of_captureText : ∃ m t, Syntax.parse Syntax.captureText = .ok m ∧
    bindModule m "u" = .ok t ∧ t.Shaped := by
  have hsome : ((Syntax.parse Syntax.captureText).toOption.bind fun m =>
      (bindModule m "u").toOption).isSome = true := by
    rw [Syntax.parse_captureText]
    decide +kernel
  obtain ⟨t, ht⟩ := Option.isSome_iff_exists.mp hsome
  obtain ⟨m, hm, ht⟩ := Option.bind_eq_some_iff.mp ht
  rw [Lower.toOption_eq_some] at hm ht
  exact ⟨m, t, hm, ht, shaped_of_source hm ht⟩

end ClosureEnv
