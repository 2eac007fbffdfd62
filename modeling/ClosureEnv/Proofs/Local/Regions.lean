import ClosureEnv.Proofs.Binding.Keys
import ClosureEnv.Proofs.Local.Escapes
import ClosureEnv.Proofs.Local.Functions
import ClosureEnv.Proofs.Local.Plans

/-!
# The parts of a function in two modules

A function that is bound in two modules has its parts between the state before and the state after
in each. They stand for each other by how far they come after the first one (`State.pairing`).
Nothing that is bound later is inside of them, or flows from or into them, so they are carried over
both ways (`BoundAt.carries`, `BoundAt.flows`), and escape alike (`BoundAt.matches_of`).
-/

namespace ClosureEnv

namespace Binding

open Syntax

variable {names : String → Prop} {m m' : Module} {d d' : FnDecl} {β b F γ c F' : State}
  {u u' : String}

/-! ## Which parts there are -/

/-- Numbers that come as far after others, the other way round. -/
theorem Apart.flip {m n i j : Nat} (h : Apart m n i j) : Apart n m j i := by
  obtain ⟨k, rfl, rfl⟩ := h
  exact ⟨k, rfl, rfl⟩

/-- The numbers that have a counterpart, where both come before others, are those from `m` on. -/
theorem Apart.exists_iff {m n p q i : Nat} (h : Apart m n p q) :
    (∃ j, Apart m n i j ∧ i < p ∧ j < q) ↔ m ≤ i ∧ i < p := by
  obtain ⟨k, rfl, rfl⟩ := h
  constructor
  · rintro ⟨j, hij, hlt, -⟩
    exact ⟨hij.le.1, hlt⟩
  · rintro ⟨hle, hlt⟩
    exact ⟨n + (i - m), ⟨i - m, by omega, rfl⟩, hlt, by omega⟩

/-- It is the same on the other side. -/
theorem Apart.exists_iff' {m n p q j : Nat} (h : Apart m n p q) :
    (∃ i, Apart m n i j ∧ i < p ∧ j < q) ↔ n ≤ j ∧ j < q := by
  rw [← h.flip.exists_iff]
  refine exists_congr fun i => ?_
  rw [and_comm (a := i < p)]
  exact and_congr_left' ⟨Apart.flip, Apart.flip⟩

/-- Related options are related by what holds of their values. -/
theorem rel_imp {α β : Type} {r s : α → β → Prop} {a : Option α} {b : Option β}
    (h : Option.Rel r a b) (hrs : ∀ x y, a = some x → b = some y → r x y → s x y) :
    Option.Rel s a b := by
  cases h with
  | some h => exact .some (hrs _ _ rfl rfl h)
  | none => exact .none

/-- The parts from `β` to `b` stand for those from `γ` to `c`, in their order. -/
def State.pairing (β b γ c : State) : Pairing where
  scope i j := ScopeTwin β γ i j ∧ i < b.scopes.size ∧ j < c.scopes.size
  var v w := VarTwin β γ v w ∧ v < b.vars.size ∧ w < c.vars.size
  closure k l := ClosureTwin β γ k l ∧ k < b.closures.size ∧ l < c.closures.size

/-- The states may change places. -/
theorem State.pairing_flip (β b γ c : State) :
    (State.pairing β b γ c).flip = State.pairing γ c β b := by
  have hflip {m n p q i j : Nat} : Apart m n j i ∧ j < p ∧ i < q ↔ Apart n m i j ∧ i < q ∧ j < p :=
    ⟨fun h => ⟨h.1.flip, h.2.2, h.2.1⟩, fun h => ⟨h.1.flip, h.2.2, h.2.1⟩⟩
  simp only [Pairing.flip, State.pairing, hflip]

namespace BoundAlike

variable (h : BoundAlike names β γ b c)

include h

/-- The function has as many scopes in both runs. -/
theorem scopes_apart : ScopeTwin β γ b.scopes.size c.scopes.size := by
  obtain ⟨b₁, c₁, vs, ws, ret, ret', x, y, ht, rfl, rfl⟩ := h
  exact ht.scope_next

/-- It has as many variables. -/
theorem vars_apart : VarTwin β γ b.vars.size c.vars.size := by
  obtain ⟨b₁, c₁, vs, ws, ret, ret', x, y, ht, rfl, rfl⟩ := h
  exact ht.var_next

/-- It has as many closures. -/
theorem closures_apart : ClosureTwin β γ b.closures.size c.closures.size := by
  obtain ⟨b₁, c₁, vs, ws, ret, ret', x, y, ht, rfl, rfl⟩ := h
  exact ht.closure_next

end BoundAlike

namespace BoundAt

variable (h : BoundAt m d β b F)

include h

/-- The function comes after what was bound before it. -/
theorem before : β.Beyond b :=
  (bindFn_beyond h.outside h.run).2.1

/-- Its scopes stay what they are. -/
theorem scope_eq {i : Nat} (hi : i < b.scopes.size) : F.scopes[i]? = b.scopes[i]? := by
  have hs := Array.getElem?_eq_getElem hi
  exact (h.beyond.grows.scopes i _ hs).trans hs.symm

/-- Its variables stay what they are. -/
theorem var_eq {v : Nat} (hv : v < b.vars.size) : F.vars[v]? = b.vars[v]? := by
  have hx := Array.getElem?_eq_getElem hv
  exact (h.beyond.grows.vars v _ hx).trans hx.symm

/-- Its closures stay what they are. -/
theorem closure_eq {k : Nat} (hk : k < b.closures.size) : F.closures[k]? = b.closures[k]? := by
  have hx := Array.getElem?_eq_getElem hk
  refine (h.beyond.grows.closed k _ hx ?_).trans hx.symm
  rw [h.after.inv.stack_eq_nil h.after.closed]
  exact List.not_mem_nil

/-- A variable of the function is in a scope that is bound by then. -/
theorem var_scope_lt {v : Nat} {x : Variable} (hv : v < b.vars.size) (hx : F.vars[v]? = some x) :
    x.scope < b.scopes.size :=
  (h.after.inv.vars.var_scope v x ((h.var_eq hv).symm.trans hx)).2

/-- So is a closure of the function. -/
theorem scope_lt {k : Nat} {x : Closure} (hk : k < b.closures.size)
    (hx : F.closures[k]? = some x) : x.scope < b.scopes.size := by
  obtain ⟨s, hs, -⟩ := h.after.inv.pairs.closure_scope k x ((h.closure_eq hk).symm.trans hx)
  exact (Array.getElem?_eq_some_iff.mp hs).1

/-- Its free variables are bound by then. -/
theorem free_lt {k : Nat} {x : Closure} (hk : k < b.closures.size) (hx : F.closures[k]? = some x) :
    ∀ v ∈ x.freeVars, v < b.vars.size := by
  intro v hv
  obtain ⟨y, hy, -⟩ := h.after.inv.vars.free_var k x v ((h.closure_eq hk).symm.trans hx) hv
  exact (Array.getElem?_eq_some_iff.mp hy).1

/-- What is inside of a scope of the function is a scope of the function. -/
theorem lt_of_around {i : Nat} (hi : i < b.scopes.size) {o : Nat} (ho : Around F.scopes i o) :
    o < b.scopes.size := by
  have hpre : Preorder F.scopes := h.final.inv.forest.preorder
  induction o using Nat.strongRecOn with
  | ind o ih =>
    obtain ⟨p, hp, hip⟩ := (around_iff hpre).mp ho
    by_contra hlt
    rcases h.beyond.grows.new_parent o p (Nat.le_of_not_lt hlt) hp with hframe | hle
    · rw [h.after.closed] at hframe
      cases hframe
    · rcases hip with rfl | hip
      · exact Nat.not_lt_of_le hle hi
      · exact Nat.not_lt_of_le hle (ih p (hpre o p hp) hip)

/-- A variable in a scope of the function is a variable of the function. -/
theorem var_within {v : Nat} {x : Variable} (hx : F.vars[v]? = some x)
    (hβ : β.scopes.size ≤ x.scope) (hb : x.scope < b.scopes.size) :
    β.vars.size ≤ v ∧ v < b.vars.size := by
  constructor
  · by_contra hv
    have hy := Array.getElem?_eq_getElem (Nat.lt_of_not_le hv)
    cases hx.symm.trans (h.beyond.grows.vars v _ (h.before.grows.vars v _ hy))
    exact Nat.not_lt_of_le hβ (h.outside.inv.vars.var_scope v _ hy).2
  · by_contra hv
    exact Nat.not_lt_of_le (h.beyond.var_scope v x (Nat.le_of_not_lt hv) hx) hb

/-- A closure in a scope of the function is a closure of the function. -/
theorem closure_within {k : Nat} {x : Closure} (hx : F.closures[k]? = some x)
    (hβ : β.scopes.size ≤ x.scope) (hb : x.scope < b.scopes.size) :
    β.closures.size ≤ k ∧ k < b.closures.size := by
  constructor
  · by_contra hk
    have hy := Array.getElem?_eq_getElem (Nat.lt_of_not_le hk)
    obtain ⟨y, hy', hle⟩ := (h.before.grows.trans h.beyond.grows).closures k _ hy
    cases hx.symm.trans hy'
    obtain ⟨s, hs, -⟩ := h.outside.inv.pairs.closure_scope k _ hy
    rw [hle.scope] at hβ
    exact Nat.not_lt_of_le hβ (Array.getElem?_eq_some_iff.mp hs).1
  · by_contra hk
    exact Nat.not_lt_of_le (h.beyond.closure_scope k x (Nat.le_of_not_lt hk) hx) hb

/-- The closures that the function owns are those of the function. -/
theorem owned_within {k : Nat} {x : Closure} (hx : F.closures[k]? = some x)
    (hown : x.owner = β.fns.size) : β.closures.size ≤ k ∧ k < b.closures.size := by
  obtain ⟨-, -, -, f, hfns, -⟩ := bindFn_spec (fun _ _ => trivial) d.body.named_true h.outside h.run
  constructor
  · by_contra hk
    have hy := Array.getElem?_eq_getElem (Nat.lt_of_not_le hk)
    obtain ⟨y, hy', hle⟩ := (h.before.grows.trans h.beyond.grows).closures k _ hy
    cases hx.symm.trans hy'
    have hlt := h.outside.inv.pairs.closure_owner k _ hy
    rw [State.begun_eq_of_nil h.outside.closed, ← hle.owner, hown] at hlt
    exact Nat.lt_irrefl _ hlt
  · by_contra hk
    have hle := h.beyond.closure_owner k x (Nat.le_of_not_lt hk) hx
    rw [hown, hfns, Array.size_push] at hle
    exact Nat.not_succ_le_self _ hle

/-- The scopes with keys of the function are scopes of the function. -/
theorem keyed_within (hn : (F.finish u).WellNamed) (hk : (F.finish u).Keyed) {i : Nat} {x : Scope}
    (hx : F.scopes[i]? = some x) (hkey : ScopeTree.KeyOf d.name.text x.key) :
    β.scopes.size ≤ i ∧ i < b.scopes.size := by
  have hpre : Preorder F.scopes := h.final.inv.forest.preorder
  obtain ⟨-, -, -, f, hfns, hname, hsynthetic⟩ :=
    bindFn_spec (fun _ _ => trivial) d.body.named_true h.outside h.run
  have hf : b.fns[β.fns.size]? = some f := by rw [hfns, Array.getElem?_push_size]
  have hfF : (F.finish u).fns[β.fns.size]? = some f := h.beyond.grows.fns _ f hf
  have hslash : '/' ∉ d.name.text.toList := by
    have hplain := hn.fn_name f (Array.mem_of_getElem? hfF)
    rw [if_neg (by rw [hsynthetic]; exact Bool.false_ne_true), hname] at hplain
    exact fun hmem => (hplain '/' hmem).2.2 rfl
  obtain ⟨r, y, hy, hroot, hkey, hr⟩ := hk.exists_root_of_key hpre hslash hx hkey
  obtain ⟨g, hg, hgr, hgk⟩ := h.final.exists_fn_of_root hy hroot
  have hown := PlanTable.fn_name_inj hn hg hfF (hgk.trans (hkey.trans hname.symm))
  rw [hown] at hg
  cases hg.symm.trans hfF
  -- A root that was there before belongs to a function that was there before.
  have hlow : β.scopes.size ≤ r := by
    by_contra hlt
    have hz := Array.getElem?_eq_getElem (Nat.lt_of_not_le hlt)
    cases hy.symm.trans (h.beyond.grows.scopes r _ (h.before.grows.scopes r _ hz))
    have hlt := h.outside.inv.forest.scope_owner r _ hz
    rw [State.begun_eq_of_nil h.outside.closed, hown] at hlt
    exact Nat.lt_irrefl _ hlt
  have hhigh : r < b.scopes.size := by
    obtain ⟨-, -, z, hz, -⟩ := h.after.fn_scope _ f hf
    rw [hgr] at hz
    exact (Array.getElem?_eq_some_iff.mp hz).1
  rcases hr with rfl | hr
  · exact ⟨hlow, hhigh⟩
  · exact ⟨Nat.le_trans hlow (Nat.le_of_lt (hr.lt hpre)), h.lt_of_around hhigh hr⟩

/-! ## Counterparts -/

variable (h' : BoundAt m' d' γ c F') (ht : BoundAlike names β γ b c)

include h' ht

/-- The scopes of the function are alike. -/
theorem exists_scopes {i j : Nat} (hij : (State.pairing β b γ c).scope i j) :
    ∃ x y, F.scopes[i]? = some x ∧ F'.scopes[j]? = some y ∧ ScopeAlike β γ x y := by
  rw [h.scope_eq hij.2.1, h'.scope_eq hij.2.2]
  obtain ⟨b₁, c₁, vs, ws, ret, ret', x, y, ht, rfl, rfl⟩ := ht
  have hx := Array.getElem?_eq_getElem hij.2.1
  obtain ⟨y, hy, hxy⟩ := ht.scopes.exists_of_some hij.1 hx
  exact ⟨_, y, hx, hy, hxy⟩

/-- The variables of the function are alike. -/
theorem exists_vars {v w : Nat} (hvw : (State.pairing β b γ c).var v w) :
    ∃ x y, F.vars[v]? = some x ∧ F'.vars[w]? = some y ∧ VarAlike β γ x y := by
  rw [h.var_eq hvw.2.1, h'.var_eq hvw.2.2]
  obtain ⟨b₁, c₁, vs, ws, ret, ret', x, y, ht, rfl, rfl⟩ := ht
  have hx := Array.getElem?_eq_getElem hvw.2.1
  obtain ⟨y, hy, hxy⟩ := ht.vars.exists_of_some hvw.1 hx
  exact ⟨_, y, hx, hy, hxy⟩

/-- The closures of the function are alike. -/
theorem exists_closures {k l : Nat} (hkl : (State.pairing β b γ c).closure k l) :
    ∃ x y, F.closures[k]? = some x ∧ F'.closures[l]? = some y ∧ ClosureAlike names β γ k x y := by
  rw [h.closure_eq hkl.2.1, h'.closure_eq hkl.2.2]
  obtain ⟨b₁, c₁, vs, ws, ret, ret', x, y, ht, rfl, rfl⟩ := ht
  have hx := Array.getElem?_eq_getElem hkl.2.1
  obtain ⟨y, hy, hxy⟩ := ht.closures.exists_of_some hkl.1 hx
  exact ⟨_, y, hx, hy, hxy⟩

/-- The parts of the function are carried over. -/
theorem carries : (State.pairing β b γ c).Carries (F.finish u) (F'.finish u') where
  parents := by
    refine ⟨fun i j i' j' hij hij' => Apart.inOrder _ _ i j i' j' hij.1 hij'.1, fun i j hij => ?_⟩
    obtain ⟨x, y, hx, hy, hxy⟩ := h.exists_scopes h' ht hij
    have hpx : parentIn? (F.finish u).scopes i = x.parent := parentIn?_of_scope hx
    have hpy : parentIn? (F'.finish u').scopes j = y.parent := parentIn?_of_scope hy
    rw [hpx, hpy]
    refine rel_imp hxy.parent fun p q hp hq hpq => ⟨hpq, ?_, ?_⟩
    · exact Nat.lt_trans (h.final.inv.forest.preorder i p (hpx.trans hp)) hij.2.1
    · exact Nat.lt_trans (h'.final.inv.forest.preorder j q (hpy.trans hq)) hij.2.2
  vars_inOrder v w v' w' hvw hvw' := Apart.inOrder _ _ v w v' w' hvw.1 hvw'.1
  scope i j x hij hx := by
    obtain ⟨x', y, hx', hy, hxy⟩ := h.exists_scopes h' ht hij
    cases hx.symm.trans hx'
    exact ⟨y, hy, hxy.key.symm, hxy.kind.symm⟩
  var v w x hvw hx := by
    obtain ⟨x', y, hx', hy, hxy⟩ := h.exists_vars h' ht hvw
    cases hx.symm.trans hx'
    exact ⟨y, hy, hxy.name.symm, hxy.ty.symm, hxy.scope, h.var_scope_lt hvw.2.1 hx,
      h'.var_scope_lt hvw.2.2 hy⟩
  closure k l x hkl hx := by
    rw [State.closure_finish_iff] at hx
    obtain ⟨x, hx, rfl⟩ := hx
    obtain ⟨x', y, hx', hy, hxy⟩ := h.exists_closures h' ht hkl
    cases hx.symm.trans hx'
    have hlt := h.scope_lt hkl.2.1 hx
    have hlt' := h'.scope_lt hkl.2.2 hy
    refine ⟨_, State.closure_finish hy, ⟨hxy.scope, hlt, hlt'⟩, fun v hv => ?_⟩
    obtain ⟨w, hw, hvw⟩ := exists_of_forall₂ hxy.freeVars hv
    exact ⟨w, hw, hvw, h.free_lt hkl.2.1 hx v hv, h'.free_lt hkl.2.2 hy w hw⟩
  inside i o j hij ho := by
    have hle := Nat.le_trans hij.1.le.1 (Nat.le_of_lt (ho.lt h.final.inv.forest.preorder))
    exact ht.scopes_apart.exists_iff.mpr ⟨hle, h.lt_of_around hij.2.1 ho⟩
  exists_var v x j hx hij :=
    ht.vars_apart.exists_iff.mpr (h.var_within hx hij.1.le.1 hij.2.1)
  exists_closure k x j hx hij := by
    rw [State.closure_finish_iff] at hx
    obtain ⟨x, hx, rfl⟩ := hx
    exact ht.closures_apart.exists_iff.mpr (h.closure_within hx hij.1.le.1 hij.2.1)

omit h' ht in
/-- The function owns its closures and no others. -/
theorem owner_iff {k : Nat} {x : Closure} (hx : F.closures[k]? = some x) :
    x.owner = β.fns.size ↔ β.closures.size ≤ k ∧ k < b.closures.size := by
  refine ⟨h.owned_within hx, fun hk => ?_⟩
  have ht : BoundAlike (fun _ => True) β β b b :=
    bindFn_twin rfl (fun _ _ => trivial) h.outside h.outside (.refl _ β) h.run h.run
  obtain ⟨l, hkl⟩ := ht.closures_apart.exists_iff.mpr hk
  obtain ⟨x', y, hx', -, hxy⟩ := h.exists_closures h ht hkl
  cases hx.symm.trans hx'
  exact hxy.owner.1

/-- The function is there in both modules, with its scopes and its closures and no others. -/
theorem sameFunction (hs : d.spanless = d'.spanless)
    (hn : (F.finish u).WellNamed) (hn' : (F'.finish u').WellNamed) (hk : (F.finish u).Keyed)
    (hk' : (F'.finish u').Keyed) :
    (State.pairing β b γ c).SameFunction (F.finish u) (F'.finish u') β.fns.size γ.fns.size
      d.name.text := by
  have hname : d.name.text = d'.name.text := by
    simp only [FnDecl.spanless, FnDecl.mk.injEq] at hs
    exact (congrArg Ident.text hs.1 :)
  refine ⟨?_, fun k x hx => ?_, fun l y hy => ?_, fun i x hx hkey => ?_, fun j y hy hkey => ?_⟩
  · obtain ⟨-, -, -, f, hf, hfn, -⟩ :=
      bindFn_spec (fun _ _ => trivial) d.body.named_true h.outside h.run
    obtain ⟨-, -, -, f', hf', hfn', -⟩ :=
      bindFn_spec (fun _ _ => trivial) d'.body.named_true h'.outside h'.run
    refine ⟨f, f', h.beyond.grows.fns _ f (by rw [hf, Array.getElem?_push_size]),
      h'.beyond.grows.fns _ f' (by rw [hf', Array.getElem?_push_size]), hfn,
      hfn'.trans hname.symm, ?_⟩
    obtain ⟨b₁, c₁, vs, ws, ret, ret', x, y, ht, rfl, rfl⟩ := ht
    obtain ⟨rfl, -⟩ := Array.push_eq_push.mp hf
    obtain ⟨rfl, -⟩ := Array.push_eq_push.mp hf'
    exact ht.generics.symm
  · rw [State.closure_finish_iff] at hx
    obtain ⟨x, hx, rfl⟩ := hx
    exact (h.owner_iff hx).trans ht.closures_apart.exists_iff.symm
  · rw [State.closure_finish_iff] at hy
    obtain ⟨y, hy, rfl⟩ := hy
    exact (h'.owner_iff hy).trans ht.closures_apart.exists_iff'.symm
  · exact ht.scopes_apart.exists_iff.mpr (h.keyed_within hn hk hx hkey)
  · exact ht.scopes_apart.exists_iff'.mpr (h'.keyed_within hn' hk' hy (hname ▸ hkey))

/-! ## What flows in the function -/

omit h h' ht in
/-- A source that has a counterpart is a part of the function. -/
theorem source_iff {x y : Source} : (State.pairing β b γ c).source x y ↔ SourceTwin β γ x y ∧
    x.InRange b.vars.size b.closures.size ∧ y.InRange c.vars.size c.closures.size := by
  cases x <;> cases y <;> first | exact Iff.rfl | exact ⟨False.elim, fun h => h.1⟩

omit h h' ht in
/-- A source that is there is no part from then on. -/
theorem not_since {x : Source} (hx : x.InRange b.vars.size b.closures.size) : ¬ x.Since b := by
  cases x <;> exact Nat.not_le_of_lt hx

omit h h' ht in
/-- A source has one counterpart. -/
theorem source_unique {x y z : Source} (hy : SourceTwin β γ x y) (hz : SourceTwin β γ x z) :
    y = z := by
  cases x <;> cases y <;> first | exact hy.elim | skip
  all_goals
    cases z <;> first
      | exact hz.elim
      | exact congrArg _ (((Apart.inOrder _ _).eq_iff hy hz).mp rfl)

omit h h' ht in
/-- Sinks that stand for each other have sources that do. -/
theorem exists_sunk {x y : Sink} (hxy : SinkTwin β γ x y) {s : Source} (hs : s ∈ x.sources) :
    (State.pairing β b γ c).sink x y ∧ ∃ s' ∈ y.sources, SourceTwin β γ s s' := by
  have hscope {i j : ScopeId} (hij : ScopeTwin β γ i j) (o o' : ScopeId)
      (ho : (State.pairing β b γ c).scope o o') (hle : i ≤ o) :
      (State.pairing β b γ c).scope i j := by
    obtain ⟨⟨k, rfl, rfl⟩, hlt, hlt'⟩ := ho
    obtain ⟨l, rfl, rfl⟩ := hij
    have hle' := Nat.add_le_add_left (Nat.le_of_add_le_add_left hle) γ.scopes.size
    exact ⟨⟨l, rfl, rfl⟩, Nat.lt_of_le_of_lt hle hlt, Nat.lt_of_le_of_lt hle' hlt'⟩
  cases x <;> cases y <;> first | exact hxy.elim | skip
  · exact ⟨trivial, exists_of_forall₂ hxy hs⟩
  · exact ⟨hscope hxy.1, exists_of_forall₂ hxy.2 hs⟩
  · exact ⟨hscope hxy.1, exists_of_forall₂ hxy.2 hs⟩

/-- What flows in the function flows in both modules. -/
theorem flows : (State.pairing β b γ c).Flows F F' where
  stored v s s' hs hss := by
    obtain ⟨htwin, hin, -⟩ := source_iff.mp hss
    rw [State.sourcesOf] at hs
    cases hv : F.varSources[v]? with
    | none =>
      rw [hv] at hs
      cases hs
    | some xs =>
      rw [hv, Option.getD_some] at hs
      -- A source in the function is stored while the function is bound: not later, when sources are
      -- since then, and not earlier, when it was not there yet.
      have hlt : v < b.vars.size := by
        by_contra hge
        exact not_since hin (h.beyond.since v xs (Nat.le_of_not_lt hge) hv s hs)
      rw [h.beyond.stored v hlt] at hv
      have hle : β.vars.size ≤ v := by
        by_contra hge
        rw [h.before.stored v (Nat.lt_of_not_le hge)] at hv
        exact not_since (h.outside.inv.flow.stored v xs hv s hs) htwin.since
      obtain ⟨w, hvw⟩ := ht.vars_apart.exists_iff.mpr ⟨hle, hlt⟩
      refine ⟨w, hvw, ?_⟩
      rw [State.sourcesOf, h'.beyond.stored w hvw.2.2]
      obtain ⟨b₁, c₁, vs, ws, ret, ret', x, y, ht, rfl, rfl⟩ := ht
      obtain ⟨ys, hys, hxy⟩ := ht.stored.exists_of_some hvw.1 hv
      obtain ⟨s'', hs'', hss''⟩ := exists_of_forall₂ hxy hs
      have hended : (c₁.ended ws ret' y).varSources = c₁.varSources := rfl
      rw [hended, hys, source_unique htwin hss'']
      exact hs''
  drained k hk s hs s' hss := by
    obtain ⟨htwin, hin, -⟩ := source_iff.mp hss
    obtain ⟨more, hmore, hsince⟩ := h.beyond.sinks
    rw [hmore] at hk
    have hk : k ∈ b.sinks :=
      (List.mem_append.mp hk).resolve_left fun hk => not_since hin (hsince k hk s hs)
    obtain ⟨b₁, c₁, vs, ws, ret, ret', x, y, ht, rfl, rfl⟩ := ht
    obtain ⟨xs, ys, hxs, hys, hxy⟩ := ht.sinks
    have hk : k ∈ xs ++ β.sinks := hxs ▸ hk
    have hk : k ∈ xs := (List.mem_append.mp hk).resolve_right fun hk =>
      not_since (h.outside.inv.flow.drained k hk s hs) htwin.since
    obtain ⟨k', hk', hkk⟩ := exists_of_forall₂ hxy hk
    have hmem : k' ∈ c₁.sinks := hys ▸ List.mem_append_left _ hk'
    obtain ⟨hpair, s'', hs'', hss''⟩ := exists_sunk hkk hs
    exact ⟨k', h'.beyond.grows.sinks hmem, hpair, source_unique htwin hss'' ▸ hs''⟩

omit ht in
/-- The parts of the function match. -/
theorem matches_of (hs : d.spanless = d'.spanless) (hknown : AlikeFor (· ∈ d.outer) β γ)
    {holds holds' : VarId → ClosureId → Prop} (hb : (F.finish u).WellBound holds)
    (hb' : (F'.finish u').WellBound holds') :
    (State.pairing β b γ c).Matches (F.finish u) (F'.finish u') holds holds' := by
  have ht : BoundAlike (· ∈ d.outer) β γ b c :=
    bindFn_twin hs (fun _ hn => hn) h.outside h'.outside hknown h.run h'.run
  have ht' : BoundAlike (· ∈ d.outer) γ β c b :=
    bindFn_twin hs.symm (fun _ hn => FnDecl.outer_eq hs ▸ hn) h'.outside h.outside hknown.symm
      h'.run h.run
  have hm : (State.pairing β b γ c).Mirrors (F.finish u) (F'.finish u') holds holds' :=
    ⟨hb, hb', h.carries h' ht, State.pairing_flip β b γ c ▸ h'.carries h ht'⟩
  refine ⟨hm, fun k l hkl => ⟨(h.flows h' ht).escaping hm h.final.inv h'.final.inv hkl, ?_⟩⟩
  have hback : (State.pairing β b γ c).flip.Flows F' F :=
    State.pairing_flip β b γ c ▸ h'.flows h ht'
  exact hback.escaping hm.flip h'.final.inv h.final.inv hkl

end BoundAt

end Binding

/-- The parts of a function in the trees of two modules that have it stand for each other, if the
items that it refers to show the same in both. -/
theorem exists_pairing {unit unit' : String} {m m' : Syntax.Module} {t t' : ScopeTree}
    {d d' : Syntax.FnDecl} (hm : m.Named Plain) (hm' : m'.Named Plain)
    (ht : bindModule m unit = .ok t) (ht' : bindModule m' unit' = .ok t')
    (hd : .function d ∈ m.items) (hd' : .function d' ∈ m'.items) (hs : d.spanless = d'.spanless)
    (hsame : ∀ x ∈ d.outer, m.signature? x = m'.signature? x) :
    ∃ (p : Pairing) (i i' : FnId) (holds holds' : VarId → ClosureId → Prop),
      p.Matches t t' holds holds' ∧ p.SameFunction t t' i i' d.name.text := by
  obtain ⟨⟨holds, hw⟩, hn⟩ := sound_of_bindModule hm ht
  obtain ⟨⟨holds', hw'⟩, hn'⟩ := sound_of_bindModule hm' ht'
  have hk := keyed_of_bindModule hm ht
  have hk' := keyed_of_bindModule hm' ht'
  obtain ⟨F, hF, rfl⟩ := Binding.exists_of_bindModule ht
  obtain ⟨F', hF', rfl⟩ := Binding.exists_of_bindModule ht'
  obtain ⟨β, b, h⟩ := Binding.exists_boundAt hd hF
  obtain ⟨γ, c, h'⟩ := Binding.exists_boundAt hd' hF'
  have hknown := h.alikeFor h' hsame
  have halike := Binding.bindFn_twin hs (fun _ hx => hx) h.outside h'.outside hknown h.run h'.run
  exact ⟨_, _, _, holds, holds', h.matches_of h' hs hknown hw hw',
    h.sameFunction h' halike hs hn hn' hk hk'⟩

end ClosureEnv
