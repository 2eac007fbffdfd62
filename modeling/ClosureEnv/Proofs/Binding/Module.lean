import ClosureEnv.Proofs.Binding.Items
import ClosureEnv.Proofs.Bound.Scoped

/-!
# Bound modules are well-scoped and well-named

Binding a module ends in a final state, so that what was promised of each body holds of the tree
that is made of it.
-/

namespace ClosureEnv.Binding

open State ClosureEnv.Bound

variable {P : String → Prop} {u : String} {b b' F : State}

/-- Items whose names are none of some names and of another one. -/
theorem notMem_of_seen {items : List Syntax.Item} {name : String} {seen : List String}
    (h : ∀ i ∈ items, (itemName i).text ∉ name :: seen) :
    name ∉ items.map (fun i => (itemName i).text) ∧ ∀ i ∈ items, (itemName i).text ∉ seen := by
  refine ⟨fun hmem => ?_, fun i hi hmem => h i hi (List.mem_cons_of_mem _ hmem)⟩
  obtain ⟨i, hi, hin⟩ := List.mem_map.mp hmem
  exact h i hi (hin ▸ List.mem_cons_self)

/-- Making items known changes what is known of them only. Their names differ. -/
theorem declareItems_spec : ∀ (items : List Syntax.Item) {seen : List String} {b b' : State}
    {r : Unit}, (declareItems seen items).run b = .ok (r, b') →
    (∃ ft gt, b' = { b with fnTypes := ft, globalTypes := gt }) ∧
      (∀ name, (b'.fnTypes.lookup name).isSome → (b.fnTypes.lookup name).isSome ∨
        ∃ d ∈ functions items, d.name.text = name) ∧
      (items.map fun i => (itemName i).text).Nodup ∧
      ∀ i ∈ items, (itemName i).text ∉ seen
  | [], seen, b, b', r, hrun => by
    rw [declareItems, run_pure_eq_ok] at hrun
    cases hrun
    exact ⟨⟨_, _, rfl⟩, fun _ => .inl, .nil, nofun⟩
  | item :: items, seen, b, b', r, hrun => by
    rw [declareItems] at hrun
    split at hrun
    · obtain ⟨_, _, hthrow, -⟩ := run_bind_eq_ok.mp hrun
      exact absurd hthrow run_throw_ne_ok
    · next hseen =>
      rw [List.contains_iff_mem] at hseen
      cases item with
      | function d =>
        -- The name of a function is entered before the other items are read.
        obtain ⟨_, b₁, h₁, hrun⟩ := run_bind_eq_ok.mp hrun
        cases h₁
        obtain ⟨⟨ft, gt, rfl⟩, hfns, hn, hns⟩ := declareItems_spec items hrun
        refine ⟨⟨ft, gt, rfl⟩, fun name hname => ?_, ?_, ?_⟩
        · rcases hfns name hname with hname | ⟨e, he, hen⟩
          · rw [List.lookup_cons] at hname
            split at hname
            · next heq => exact .inr ⟨d, List.mem_cons_self, (beq_iff_eq.mp heq).symm⟩
            · exact .inl hname
          · exact .inr ⟨e, List.mem_cons_of_mem _ he, hen⟩
        · exact List.nodup_cons.mpr ⟨fun hmem => (notMem_of_seen hns).1 hmem, hn⟩
        · exact List.forall_mem_cons.mpr ⟨hseen, (notMem_of_seen hns).2⟩
      | binding d =>
        obtain ⟨_, b₁, h₁, hrun⟩ := run_bind_eq_ok.mp hrun
        cases h₁
        obtain ⟨⟨ft, gt, rfl⟩, hfns, hn, hns⟩ := declareItems_spec items hrun
        refine ⟨⟨ft, gt, rfl⟩, fun name hname => (hfns name hname).imp id id, ?_, ?_⟩
        · exact List.nodup_cons.mpr ⟨fun hmem => (notMem_of_seen hns).1 hmem, hn⟩
        · exact List.forall_mem_cons.mpr ⟨hseen, (notMem_of_seen hns).2⟩

/-- Functions and globals are all items. -/
theorem perm_items (items : List Syntax.Item) :
    ((functions items).map (·.name.text) ++ (globals items).map (·.name.text)).Perm
      (items.map fun i => (itemName i).text) := by
  induction items with
  | nil => exact .refl _
  | cons item items ih =>
    cases item with
    | function d => exact ih.cons d.name.text
    | binding d => exact List.perm_middle.trans (ih.cons d.name.text)

/-- Nothing is known before any item. -/
theorem State.between_empty (ft : List (String × Ty)) (gt : List (String × Bool × Ty)) :
    State.Between P u { State.empty with fnTypes := ft, globalTypes := gt } := by
  refine ⟨⟨⟨⟨fun i p h => ?_, ?_, ?_, ?_, ?_⟩, ⟨?_, ?_, ?_, ?_, ?_⟩, ⟨rfl, ?_, ?_⟩, ⟨?_, ?_⟩,
    ⟨?_, ?_⟩, ⟨?_, ?_, ?_⟩, ⟨trivial, nofun, rfl⟩, ⟨rfl, ?_, nofun⟩, ?_⟩, ?_, ?_, ?_⟩, rfl⟩
  · simp [State.empty, parentIn?] at h
  all_goals simp [State.empty]

/-- What the items of a module give. -/
structure State.OfModule (P : String → Prop) (u : String) (m : Syntax.Module) (F : State) : Prop
    extends Between P u F where
  fns : ∃ fs gs : List Function, F.fns.toList = fs ++ gs ∧
    fs.map Function.name = (Binding.functions m.items).map (·.name.text) ∧
    (∀ f ∈ fs, f.isSynthetic = false) ∧
    (gs = [] ∧ F.globals = #[] ∨ ∃ f, gs = [f] ∧ f.isSynthetic = true ∧ f.name = moduleFn ∧
      (∀ (v : Nat) x, F.vars[v]? = some x → x.scope ≠ f.scope) ∧
      ∀ F', F'.Final P → F.Grows F' → ∀ g ∈ F.globals, F'.GlobalDone u f.scope g)
  globals : F.globals.toList.map Global.name = (Binding.globals m.items).map (·.name.text)
  items : (m.items.map fun i => (itemName i).text).Nodup
  fnTypes : ∀ name, (F.fnTypes.lookup name).isSome →
    ∃ d ∈ Binding.functions m.items, d.name.text = name

/-- The functions among some items. -/
theorem mem_functions {items : List Syntax.Item} {d : Syntax.FnDecl} :
    d ∈ functions items ↔ .function d ∈ items := by
  refine List.mem_filterMap.trans ⟨fun ⟨i, hi, hd⟩ => ?_, fun hd => ⟨_, hd, rfl⟩⟩
  cases i with
  | function e =>
    cases hd
    exact hi
  | binding e => cases hd

/-- The globals among some items. -/
theorem mem_globals {items : List Syntax.Item} {d : Syntax.LetDecl} :
    d ∈ globals items ↔ .binding d ∈ items := by
  refine List.mem_filterMap.trans ⟨fun ⟨i, hi, hd⟩ => ?_, fun hd => ⟨_, hd, rfl⟩⟩
  cases i with
  | function e => cases hd
  | binding e =>
    cases hd
    exact hi

/-- The functions of a module whose names satisfy `P`. -/
theorem named_functions {m : Syntax.Module} (hm : m.Named P) :
    ∀ d ∈ functions m.items, P d.name.text ∧ (∀ p ∈ d.params, P p.name.text) ∧ d.body.Named P :=
  fun _ hd => hm _ (mem_functions.mp hd)

/-- The globals of a module whose names satisfy `P`. -/
theorem named_globals {m : Syntax.Module} (hm : m.Named P) :
    ∀ d ∈ globals m.items, P d.name.text ∧ d.value.Named P :=
  fun _ hd => hm _ (mem_globals.mp hd)

/-- Starting the function of the globals. -/
theorem State.Between.inGlobals (h : b.Between P u) (hg : b.globals = #[]) (span : Syntax.Span) :
    (b.started moduleFn [] span true).InGlobals P u b.scopes.size where
  toDone := h.started moduleFn [] span true
  opened := by simp [State.started, State.opened, h.closed]
  scope := rfl
  root := by
    obtain ⟨s, hs, -, hsc⟩ := started_scope b moduleFn [] span true
    rw [hs]
    exact hsc
  vars v x hx := Nat.ne_of_lt (h.inv.vars.var_scope v x hx).2
  globals F _ _ g hgm := by simp [State.started, State.opened, hg] at hgm

/-- Binding a module. -/
theorem bindState_spec {m : Syntax.Module} (hm : m.Named P) (hrun : bindState m = .ok F) :
    F.OfModule P u m := by
  obtain ⟨b₀, b₁, h₀, h₁, hglobals⟩ := bindState_run hrun
  obtain ⟨⟨ft, gt, rfl⟩, hft, hitems, -⟩ := declareItems_spec m.items h₀
  obtain ⟨hb, hg, hgl, fs, hfs, hfn, hsyn⟩ := bindFns_spec (u := u) (functions m.items)
    (fun d hd => (named_functions hm d hd).2) (between_empty ft gt) h₁
  have hfs' : b₁.fns.toList = fs := by simpa [State.empty] using hfs
  have hft' (name : String) (hname : (ft.lookup name).isSome) :
      ∃ d ∈ functions m.items, d.name.text = name :=
    (hft name hname).elim (fun h => by simp [State.empty] at h) id
  rcases hglobals with ⟨hnone, rfl⟩ | ⟨-, b₃, h₃, rfl⟩
  · refine ⟨hb, ⟨fs, [], by simpa using hfs', hfn, hsyn, .inl ⟨rfl, hgl⟩⟩, ?_, hitems, ?_⟩
    · rw [hgl, hnone]
      rfl
    · rw [hg.fnTypes]
      exact hft'
  · -- The globals are bound as the body of a function of their own, which comes last.
    have hstart := hb.inGlobals hgl m.span
    obtain ⟨hin, hg₃, hf₃, ⟨n, hn⟩, hgl₃⟩ := bindGlobals_spec (globals m.items)
      (fun d hd => (named_globals hm d hd).2) hstart h₃
    have hsynth : b₃.current.isSynthetic = true := by rw [hn]; rfl
    have hname : b₃.current.name = moduleFn := by rw [hn]; rfl
    have hgrow := grows_ended b₃ [] .unit (.mk none [] none)
    have hend := hin.toDone.ended hin.opened
      (by
        rw [hin.scope]
        obtain ⟨s, hs, hsk, hsc⟩ := started_scope b₁ moduleFn [] m.span true
        exact ⟨s, hg₃.scopes _ _ hs, hsk, hsc⟩)
      hin.scope.symm [] .unit (.mk none [] none) (by simp [hsynth])
    refine ⟨hend, ⟨fs, [b₃.currentFn [] .unit (.mk none [] none)], ?_, hfn, hsyn,
      .inr ⟨_, rfl, hsynth, hname, ?_, ?_⟩⟩, ?_, hitems, ?_⟩
    · simp only [State.ended, Array.toList_push, hf₃]
      exact congrArg (· ++ _) hfs'
    · intro v x hx
      have := hin.vars v x hx
      rwa [← hin.scope] at this
    · intro F' hF' hg' g hgm
      have := hin.globals F' hF' (hgrow.trans hg') g hgm
      rwa [← hin.scope] at this
    · simp only [State.ended, hgl₃]
      simp [State.started, State.opened, hgl, State.empty]
    · rw [hgrow.fnTypes, hg₃.fnTypes, show (b₁.started moduleFn [] m.span true).fnTypes =
        b₁.fnTypes from rfl, hg.fnTypes]
      exact hft'

namespace State.OfModule

variable {m : Syntax.Module} (h : F.OfModule P u m)

include h

/-- Every declared function is there. -/
theorem final : F.Final P := by
  refine ⟨h.inv, fun name hname => ?_⟩
  obtain ⟨d, hd, hdn⟩ := h.fnTypes name hname
  obtain ⟨fs, gs, hfs, hfn, hsyn, -⟩ := h.fns
  have hmem : name ∈ fs.map Function.name := by
    rw [hfn]
    exact List.mem_map.mpr ⟨d, hd, hdn⟩
  obtain ⟨f, hf, hn⟩ := List.mem_map.mp hmem
  refine ⟨f, ?_, hn, hsyn f hf⟩
  rw [← Array.mem_toList_iff, hfs]
  exact List.mem_append_left _ hf

/-- The initial value of a global is well-scoped in the function that holds the globals. -/
theorem global_done {g : Global} (hg : g ∈ F.globals) :
    ∃ f, F.fns.find? Function.isSynthetic = some f ∧ F.GlobalDone u f.scope g := by
  obtain ⟨fs, gs, hfs, -, hsyn, hgs⟩ := h.fns
  rcases hgs with ⟨-, hnone⟩ | ⟨f, rfl, hf, -, -, hdone⟩
  · simp [hnone] at hg
  · refine ⟨f, ?_, hdone F h.final (.refl F) g hg⟩
    rw [← Array.find?_toList, hfs, List.find?_append, List.find?_eq_none.mpr fun f hf => by
      simp [hsyn f hf]]
    simp [hf]

/-- No variable belongs to the scope of the function that holds the globals. -/
theorem global_scope {f : Function} (hf : F.fns.find? Function.isSynthetic = some f) {v : Nat}
    {x : Variable} (hx : F.vars[v]? = some x) : x.scope ≠ f.scope := by
  obtain ⟨fs, gs, hfs, -, hsyn, hgs⟩ := h.fns
  have hmem : f ∈ fs ++ gs := hfs ▸ Array.mem_toList_iff.mpr (Array.mem_of_find?_eq_some hf)
  have hsynth := Array.find?_some hf
  rcases List.mem_append.mp hmem with hmem | hmem
  · rw [hsyn f hmem] at hsynth
    cases hsynth
  · rcases hgs with ⟨rfl, -⟩ | ⟨g, rfl, -, -, hvars, -⟩
    · cases hmem
    · obtain rfl := List.mem_singleton.mp hmem
      exact hvars v x hx

/-- The tree of a module is well-scoped. -/
theorem wellBound : (F.finish u).WellBound F.Holds := by
  have hF := h.final
  have hbegun := begun_eq_of_nil h.closed
  exact {
    preorder := hF.inv.forest.preorder
    scope_id := hF.inv.forest.scope_id
    root_iff := hF.inv.forest.root_iff
    depth := hF.inv.forest.depth
    scope_owner := hbegun ▸ hF.inv.forest.scope_owner
    closure_iff := hF.inv.pairs.closure_iff
    closure_of_scope := fun i s c hs hc => by
      obtain ⟨k, hk, hki⟩ := hF.inv.pairs.closure_of_scope i s c hs hc
      exact ⟨_, closure_finish hk, hki⟩
    closure_id := fun c k hk => by
      obtain ⟨l, hl, rfl⟩ := closure_finish_iff.mp hk
      exact hF.inv.pairs.closure_id c l hl
    closure_scope := fun c k hk => by
      obtain ⟨l, hl, rfl⟩ := closure_finish_iff.mp hk
      exact hF.inv.pairs.closure_scope c l hl
    closure_owner := fun c k hk => by
      obtain ⟨l, hl, rfl⟩ := closure_finish_iff.mp hk
      exact hbegun ▸ hF.inv.pairs.closure_owner c l hl
    var_scope := hF.inv.vars.var_scope
    free_var := fun c k v hk hv => by
      obtain ⟨l, hl, rfl⟩ := closure_finish_iff.mp hk
      exact hF.inv.vars.free_var c l v hl hv
    closure_body := fun c k hk => by
      obtain ⟨l, hl, -⟩ := closure_finish_iff.mp hk
      exact h.bodies F hF (.refl F) c (Array.getElem?_eq_some_iff.mp hl).1 k hk
    fn_scope := h.fn_scope
    fn_body := fun f hf hsyn => h.fn_body F hF (.refl F) f hf hsyn
    global_init := fun g hg => h.global_done hg
    global_scope := fun f v x hf hx => h.global_scope hf hx
    escape_needs := fun c v d => hF.inv.escape_needs }

end State.OfModule

end ClosureEnv.Binding
