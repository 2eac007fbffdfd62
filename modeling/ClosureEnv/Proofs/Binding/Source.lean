import ClosureEnv.Proofs.Binding.Names
import ClosureEnv.Proofs.Syntax.Cutting
import ClosureEnv.Proofs.Syntax.Covering

/-!
# Trees of sources

The tree of a module that binds is well-bound, and well-named if the names in the module are those
of a source; what follows is proved of such trees.
-/

namespace ClosureEnv

/-- A tree that lowering can rely on. -/
structure ScopeTree.Sound (t : ScopeTree) : Prop where
  /-- Its bodies are well-scoped. -/
  wellBound : ∃ holds, t.WellBound holds
  /-- Its names tell its parts apart. -/
  wellNamed : t.WellNamed

/-- The tree of a module is that of a final state. -/
theorem exists_ofModule {P : String → Prop} {unit : String} {m : Syntax.Module} {t : ScopeTree}
    (hm : m.Named P) (ht : bindModule m unit = .ok t) :
    ∃ F : Binding.State, F.OfModule P unit m ∧ t = F.finish unit := by
  obtain ⟨F, hF, rfl⟩ := Binding.exists_of_bindModule ht
  exact ⟨F, Binding.bindState_spec hm hF, rfl⟩

/-- The tree of a module is well-bound, whatever the names in it. -/
theorem wellBound_of_bindModule {unit : String} {m : Syntax.Module} {t : ScopeTree}
    (ht : bindModule m unit = .ok t) : ∃ holds, t.WellBound holds := by
  obtain ⟨F, h, rfl⟩ := exists_ofModule m.named_true ht
  exact ⟨F.Holds, h.wellBound⟩

/-- The tree of a module with names of a source is sound. -/
theorem sound_of_bindModule {unit : String} {m : Syntax.Module} {t : ScopeTree}
    (hm : m.Named Plain) (ht : bindModule m unit = .ok t) : t.Sound := by
  obtain ⟨F, h, rfl⟩ := exists_ofModule hm ht
  exact ⟨⟨F.Holds, h.wellBound⟩, h.wellNamed hm⟩

/-- The tree of a source is sound. -/
theorem sound_of_source {src unit : String} {m : Syntax.Module} {t : ScopeTree}
    (hm : Syntax.parse src = .ok m) (ht : bindModule m unit = .ok t) : t.Sound :=
  sound_of_bindModule (Syntax.parse_named hm) ht

/-- The tree of a module is of the unit that it is bound as. -/
theorem unit_of_bindModule {unit : String} {m : Syntax.Module} {t : ScopeTree}
    (ht : bindModule m unit = .ok t) : t.unit = unit := by
  obtain ⟨F, -, rfl⟩ := exists_ofModule m.named_true ht
  rfl

/-- No variable belongs to the scope of a function that holds globals. -/
theorem scope_ne_of_synthetic {unit : String} {m : Syntax.Module} {t : ScopeTree}
    (ht : bindModule m unit = .ok t) {f : Function} (hf : f ∈ t.fns) (hsyn : f.isSynthetic = true)
    {v : Nat} {x : Variable} (hx : t.vars[v]? = some x) : x.scope ≠ f.scope := by
  obtain ⟨F, h, rfl⟩ := exists_ofModule m.named_true ht
  obtain ⟨fs, gs, hfs, -, hplain, hgs⟩ := h.fns
  have hmem : f ∈ fs ++ gs := hfs ▸ Array.mem_toList_iff.mpr hf
  rcases List.mem_append.mp hmem with hmem | hmem
  · rw [hplain f hmem] at hsyn
    cases hsyn
  · rcases hgs with ⟨rfl, -⟩ | ⟨g, rfl, -, -, hvars, -⟩
    · cases hmem
    · obtain rfl := List.mem_singleton.mp hmem
      exact hvars v x hx

/-! ## A source -/

namespace Syntax

/-- The source `fn main() { let x = 0; let f = || x; f() }`, with its spans left out. -/
def captureSource : Module :=
  let here : Span := ⟨0, 0⟩
  let name (text : String) : Ident := ⟨text, here⟩
  let x := Stmt.bind false (name "x") none (.lit (.int 0) here) here
  let f := Stmt.bind false (name "f") none (.closure [] (.var (name "x")) here) here
  ⟨[.function ⟨name "main", [], [], none,
    .mk [x, f] (some (.call (.var (name "f")) [] here)) here, here⟩], here⟩

/-- A name is plain if its characters are. -/
theorem plain_of_all {n : String}
    (h : n.toList.all (fun c => c != '<' && (c != '$' && c != '/')) = true) : Plain n :=
  fun c hc => by simpa only [Bool.and_eq_true, bne_iff_ne] using List.all_eq_true.mp h c hc

/-- Its names are those of a source. -/
theorem captureSource_named : captureSource.Named Plain := by
  rintro item hitem
  obtain rfl := List.mem_singleton.mp hitem
  have hx : (Stmt.bind false ⟨"x", ⟨0, 0⟩⟩ none (.lit (.int 0) ⟨0, 0⟩) ⟨0, 0⟩).Named Plain :=
    ⟨plain_of_all (by decide), trivial⟩
  have hf : (Stmt.bind false ⟨"f", ⟨0, 0⟩⟩ none (.closure [] (.var ⟨"x", ⟨0, 0⟩⟩) ⟨0, 0⟩)
      ⟨0, 0⟩).Named Plain :=
    ⟨plain_of_all (by decide), nofun, trivial⟩
  exact ⟨plain_of_all (by decide), nofun, ⟨hx, hf, trivial⟩, trivial, trivial⟩

/-- The source `fn main() { let a = 1; let f = |p| body; value }`, with its spans left out. -/
def nestedSource (body value : Expr) : Module :=
  let here : Span := ⟨0, 0⟩
  let name (text : String) : Ident := ⟨text, here⟩
  let a := Stmt.bind false (name "a") none (.lit (.int 1) here) here
  let f := Stmt.bind false (name "f") none (.closure [⟨name "p", none, here⟩] body here) here
  ⟨[.function ⟨name "main", [], [], none, .mk [a, f] (some value) here, here⟩], here⟩

/-- The expression `{ let g = || a + p; g() }`: in `nestedSource` the environment of `f` is chained
below that of `main`. -/
def nestedBody : Expr :=
  let here : Span := ⟨0, 0⟩
  let var (text : String) : Expr := .var ⟨text, here⟩
  let sum : Expr := .binary .add (var "a") (var "p") here
  .block (.mk [.bind false ⟨"g", here⟩ none (.closure [] sum here) here]
    (some (.call (var "g") [] here)) here)

/-- The expression `a`: in `nestedSource` the scope of `f` has no environment then. -/
def outerBody : Expr :=
  .var ⟨"a", ⟨0, 0⟩⟩

/-- The expression `f(1)`: the closure stays in `main`. -/
def calledValue : Expr :=
  .call (.var ⟨"f", ⟨0, 0⟩⟩) [.lit (.int 1) ⟨0, 0⟩] ⟨0, 0⟩

/-- The expression `f`: the closure outlives `main`. -/
def escapingValue : Expr :=
  .var ⟨"f", ⟨0, 0⟩⟩

/-- The names of a nested source are those of a source if those in its parts are. -/
theorem nestedSource_named {body value : Expr} (hbody : body.Named Plain)
    (hvalue : value.Named Plain) : (nestedSource body value).Named Plain := by
  rintro item hitem
  obtain rfl := List.mem_singleton.mp hitem
  have ha : (Stmt.bind false ⟨"a", ⟨0, 0⟩⟩ none (.lit (.int 1) ⟨0, 0⟩) ⟨0, 0⟩).Named Plain :=
    ⟨plain_of_all (by decide), trivial⟩
  have hf : (Stmt.bind false ⟨"f", ⟨0, 0⟩⟩ none (.closure [⟨⟨"p", ⟨0, 0⟩⟩, none, ⟨0, 0⟩⟩] body
      ⟨0, 0⟩) ⟨0, 0⟩).Named Plain :=
    ⟨plain_of_all (by decide), List.forall_mem_singleton.mpr (plain_of_all (by decide)), hbody⟩
  have hmain : Plain "main" := plain_of_all (by decide)
  exact ⟨hmain, nofun, ⟨ha, hf, trivial⟩, hvalue⟩

/-- The names in `nestedBody` are those of a source. -/
theorem nestedBody_named : nestedBody.Named Plain :=
  ⟨⟨⟨plain_of_all (by decide), nofun, trivial, trivial⟩, trivial⟩, trivial, trivial⟩

end Syntax

/-- The module binds. -/
theorem exists_captureTree : ∃ t, bindModule Syntax.captureSource "u" = .ok t := by
  have hsome : (bindModule Syntax.captureSource "u").toOption.isSome = true := by decide +kernel
  cases hb : bindModule Syntax.captureSource "u" with
  | error e => rw [hb] at hsome; cases hsome
  | ok t => exact ⟨t, rfl⟩

/-! ## A text -/

namespace Syntax

/-- The source of `captureSource`, but for the value of `x`. -/
def captureText : String :=
  "fn main() \x7b let x = true; let f = || x; f() \x7d"

/-- The text can be read. -/
theorem parse_captureText : parse captureText =
    (Parser.source.run (.ofTokens (tokensWithin 64 [] captureText.toList 0))).map Prod.fst :=
  parse_eq_within (by decide)

end Syntax

end ClosureEnv
