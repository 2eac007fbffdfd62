import ClosureEnv.Layout.Codec
import ClosureEnv.Proofs.Json.Reading
import ClosureEnv.Proofs.Layout.Chain

/-!
# Baselines read back

The document of a baseline is read back as that baseline exactly if it has no more arrays and
objects open at once than a reader allows (`Baseline.read?_write`). Types are what can go deeper
than that: a type of functions opens three of them around its parameters. All that lowering leaves
is a baseline of the kind that this is about (`LoweredUnit.proper_nextBaseline`).
-/

namespace ClosureEnv

namespace Json

mutual

/-- How many arrays and objects are open at once where most are. -/
def depth : Json → Nat
  | list items => depths items + 1
  | object fields => fieldDepths fields + 1
  | null | bool _ | number _ | text _ | unpaired => 0

/-- The depth of the deepest of some values. -/
def depths : List Json → Nat
  | [] => 0
  | x :: xs => max (depth x) (depths xs)

/-- The depth of the deepest of some fields. -/
def fieldDepths : List (String × Json) → Nat
  | [] => 0
  | (_, x) :: xs => max (depth x) (fieldDepths xs)

end

/-- Reading what was written of `x` gives `x` back, exactly where there is room for it. -/
def ReadsBack {α : Type} (read : Nat → Json → Option α) (write : α → Json) (x : α) : Prop :=
  ∀ room, read room (write x) = if (write x).depth ≤ room then some x else none

section

variable {α β : Type} {read : Nat → Json → Option α} {write : α → Json}

/-- Reading some written values one by one gives them back, exactly where there is room for all. -/
theorem mapM_write {xs : List α} (h : ∀ x ∈ xs, ReadsBack read write x) (room : Nat) :
    (xs.map write).mapM (read room) =
      if depths (xs.map write) ≤ room then some xs else none := by
  induction xs with
  | nil => rfl
  | cons x xs ih =>
    rw [List.map_cons, List.mapM_cons, h x List.mem_cons_self room,
      ih fun y hy => h y (List.mem_cons_of_mem x hy), depths]
    by_cases hx : (write x).depth ≤ room <;> by_cases hxs : depths (xs.map write) ≤ room <;>
      simp [hx, hxs]

/-- Reading some written fields one by one gives them back, exactly where there is room for all. -/
theorem mapM_write_fields {es : List (String × α)} (h : ∀ e ∈ es, ReadsBack read write e.2)
    (room : Nat) :
    ((es.map fun e => (e.1, write e.2)).mapM fun f => do return (f.1, ← read room f.2)) =
      if fieldDepths (es.map fun e => (e.1, write e.2)) ≤ room then some es else none := by
  induction es with
  | nil => rfl
  | cons e es ih =>
    rw [List.map_cons, List.mapM_cons, h e List.mem_cons_self room,
      ih fun x hx => h x (List.mem_cons_of_mem e hx), fieldDepths]
    by_cases he : (write e.2).depth ≤ room <;>
      by_cases hes : fieldDepths (es.map fun e => (e.1, write e.2)) ≤ room <;>
      simp [he, hes]

/-- Items can be shown if each can. -/
theorem areWritable_map {xs : List α} (h : ∀ x ∈ xs, (write x).IsWritable) :
    AreWritable (xs.map write) := by
  induction xs with
  | nil => trivial
  | cons x xs ih =>
    exact ⟨h x List.mem_cons_self, ih fun y hy => h y (List.mem_cons_of_mem x hy)⟩

/-- Fields can be shown if the value of each can. -/
theorem haveWritable_map {es : List (String × α)} (h : ∀ e ∈ es, (write e.2).IsWritable) :
    HaveWritable (es.map fun e => (e.1, write e.2)) := by
  induction es with
  | nil => trivial
  | cons e es ih =>
    exact ⟨h e List.mem_cons_self, ih fun x hx => h x (List.mem_cons_of_mem e hx)⟩

/-- Written items are read back. -/
theorem ReadsBack.items {xs : List α} (h : ∀ x ∈ xs, ReadsBack read write x) :
    ReadsBack (items? read) (fun xs => .list (xs.map write)) xs := by
  intro room
  cases room with
  | zero => simp [items?, depth]
  | succ room => simp [items?, depth, mapM_write h]

end

end Json

open Json (ReadsBack)

mutual

/-- A written type is read back. -/
theorem Ty.readsBack : ∀ t : Ty, ReadsBack Ty.ofJson? Ty.toJson t
  | .int, room | .bool, room | .str, room | .unit, room | .object, room | .unknown, room => by
    simp [toJson, ofJson?, ofName?, Json.depth]
  | .param name, room | .named name, room | .env name, room => by
    cases room <;> simp [toJson, ofJson?, ofText?, Json.depth, Json.fieldDepths, Json.tagged]
  | .fn params ret, room => by
    have hdepth : (fn params ret).toJson.depth =
        max (Json.depths (toJsons params) + 1) ret.toJson.depth + 2 := by
      simp [toJson, Json.tagged, Json.depth, Json.fieldDepths]
    match room with
    | 0 | 1 | 2 =>
      rw [if_neg (by omega)]
      simp [toJson, Json.tagged, ofJson?]
    | room + 3 =>
      have hparts : (Json.object [("params", .list (toJsons params)), ("ret", toJson ret)]).parts?
          ["params", "ret"] = some [some (.list (toJsons params)), some ret.toJson] := rfl
      have hread : ofJson? (room + 3) (fn params ret).toJson = (do
          return fn (← (toJsons params).mapM (ofJson? room)) (← ofJson? (room + 1) ret.toJson)) := by
        simp [toJson, Json.tagged, ofJson?, hparts]
      rw [hread, mapM_toJsons params room, readsBack ret (room + 1), hdepth]
      by_cases hp : Json.depths (toJsons params) ≤ room <;>
        by_cases hr : ret.toJson.depth ≤ room + 1 <;> simp [hp, hr]

/-- Some written types are read back. -/
theorem Ty.mapM_toJsons : ∀ (ts : List Ty) (room : Nat), (toJsons ts).mapM (Ty.ofJson? room) =
    if Json.depths (toJsons ts) ≤ room then some ts else none
  | [], room => rfl
  | t :: ts, room => by
    rw [toJsons, List.mapM_cons, readsBack t room, mapM_toJsons ts room, Json.depths]
    by_cases ht : t.toJson.depth ≤ room <;> by_cases hts : Json.depths (toJsons ts) ≤ room <;>
      simp [ht, hts]

end

mutual

/-- A written type can be shown. -/
theorem Ty.isWritable_toJson : ∀ t : Ty, t.toJson.IsWritable
  | .int | .bool | .str | .unit | .object | .unknown => by
    simp [toJson, Json.IsWritable]
  | .param _ | .named _ | .env _ => by
    simp [toJson, Json.tagged, Json.IsWritable, Json.HaveWritable]
  | .fn params ret => by
    simp [toJson, Json.tagged, Json.IsWritable, Json.HaveWritable, areWritable_toJsons params,
      isWritable_toJson ret]

/-- Some written types can be shown. -/
theorem Ty.areWritable_toJsons : ∀ ts : List Ty, Json.AreWritable (toJsons ts)
  | [] => trivial
  | t :: ts => ⟨isWritable_toJson t, areWritable_toJsons ts⟩

end

/-- A written field is read back. -/
theorem LayoutField.readsBack (f : LayoutField) :
    ReadsBack LayoutField.ofJson? LayoutField.toJson f := by
  intro room
  have hdepth : f.toJson.depth = f.ty.toJson.depth + 1 := by
    simp [toJson, Json.depth, Json.fieldDepths]
  cases room with
  | zero =>
    rw [ofJson?, if_neg (by omega)]
  | succ room =>
    have hparts : f.toJson.parts? ["name", "ty"] = some [some (.text f.name), some f.ty.toJson] :=
      rfl
    simp only [ofJson?, hparts, Json.toText?, Ty.readsBack f.ty room, hdepth,
      Nat.add_le_add_iff_right, Option.bind_eq_bind, Option.bind_some, Option.pure_def]
    split <;> rfl

/-- A written layout is read back. -/
theorem Layout.readsBack {l : Layout} (hl : l.mintedIn < generationCount) :
    ReadsBack Layout.ofJson? Layout.toJson l := by
  intro room
  -- A layout is one level deeper than its fields, so there is room for it if there is for them.
  have hdepth : l.toJson.depth = (Json.list (l.fields.map LayoutField.toJson)).depth + 1 := by
    cases hparent : l.parent <;>
      simp [toJson, Json.depth, Json.fieldDepths, Json.ofOption, hparent, Json.nat]
  cases room with
  | zero =>
    rw [ofJson?, if_neg (by omega)]
  | succ room =>
    have hparts : l.toJson.parts? partNames = some [some (.text l.name), some (.text l.kind.name),
        some (.list (l.fields.map LayoutField.toJson)), some (.ofOption .text l.parent),
        some (.bool l.isSingleton), some (.bool l.isExpandable), some (.nat l.mintedIn),
        some (.text l.state.name), some (.text l.digest)] := rfl
    have hfields : Json.items? LayoutField.ofJson? room (.list (l.fields.map LayoutField.toJson)) =
        if (Json.list (l.fields.map LayoutField.toJson)).depth ≤ room then some l.fields else none :=
      ReadsBack.items (fun f _ => f.readsBack) room
    have hkind : Representation.ofJson? room (.text l.kind.name) = some l.kind := by
      cases l.kind <;> rfl
    have hstate : LayoutState.ofJson? room (.text l.state.name) = some l.state := by
      cases l.state <;> rfl
    have hparent : (Json.ofOption .text l.parent).optionText? = some l.parent := by
      cases l.parent <;> rfl
    have hminted : (Json.nat l.mintedIn).word32? = some l.mintedIn := by
      simpa [Json.word32?, generationCount] using hl
    simp only [ofJson?, hparts, Json.toText?, hkind, hfields, Option.getD_some, hparent,
      Json.toBool?, hminted, hstate, hdepth, Nat.add_le_add_iff_right, Option.bind_eq_bind,
      Option.bind_some, Option.pure_def]
    split <;> rfl

/-- A written layout can be shown. -/
theorem Layout.isWritable_toJson (l : Layout) : l.toJson.IsWritable := by
  have hfields : Json.AreWritable (l.fields.map LayoutField.toJson) :=
    Json.areWritable_map fun f _ => by
      simp [LayoutField.toJson, Json.IsWritable, Json.HaveWritable, f.ty.isWritable_toJson]
  cases hparent : l.parent <;>
    simp [toJson, Json.IsWritable, Json.HaveWritable, hfields, hparent, Json.ofOption, Json.nat]

/-- A written layout is read back under its identity. -/
theorem NamedLayout.readsBack {e : NamedLayout} (he : e.2.mintedIn < generationCount) :
    ReadsBack (Json.pair? (fun _ x => x.toText?) Layout.ofJson?) NamedLayout.toJson e := by
  intro room
  have hdepth : (NamedLayout.toJson e).depth = e.2.toJson.depth + 1 := by
    simp [toJson, Json.depth, Json.depths]
  cases room with
  | zero =>
    rw [if_neg (by omega)]
    rfl
  | succ room =>
    rw [hdepth]
    simp only [toJson, Json.pair?, Json.toText?, Layout.readsBack he room,
      Nat.add_le_add_iff_right, Option.bind_eq_bind, Option.bind_some, Option.pure_def]
    split <;> rfl

namespace Baseline

/-- What every baseline is that a program can hold: its generations are numbers of 32 bits, and its
live layouts are in the order of their identities. -/
structure Proper (b : Baseline) : Prop where
  generation : b.generation < generationCount
  minted : ∀ e ∈ b.envs ++ b.history, e.2.mintedIn < generationCount
  sorted : b.envs.Sorted

/-- The written live layouts are read back. -/
theorem envs_readsBack {b : Baseline} (hb : b.Proper) :
    ReadsBack envsOfJson? (fun m => .object (m.map fun e => (e.1, e.2.toJson))) b.envs := by
  intro room
  cases room with
  | zero => simp [envsOfJson?, Json.depth]
  | succ room =>
    have hlayouts : ∀ e ∈ b.envs, ReadsBack Layout.ofJson? Layout.toJson e.2 := fun e he =>
      Layout.readsBack (hb.minted e (List.mem_append_left _ he))
    rw [envsOfJson?, Json.mapM_write_fields hlayouts room, Json.depth]
    simp only [Nat.add_le_add_iff_right]
    split
    · simp [hb.sorted.ofList_eq]
    · rfl

/-- A written baseline is read back. -/
theorem readsBack {b : Baseline} (hb : b.Proper) : ReadsBack ofJson? toJson b := by
  intro room
  -- A baseline is one level deeper than the deeper of its two tables.
  have hdepth : b.toJson.depth =
      max (Json.object (b.envs.map fun e => (e.1, e.2.toJson))).depth
        (Json.list (b.history.map NamedLayout.toJson)).depth + 1 := by
    simp [toJson, Json.depth, Json.fieldDepths, Json.nat]
  cases room with
  | zero =>
    rw [ofJson?, if_neg (by omega)]
  | succ room =>
    have hparts : b.toJson.parts? ["unit", "generation", "envs", "history"] =
        some [some (.text b.unit), some (.nat b.generation),
          some (.object (b.envs.map fun e => (e.1, e.2.toJson))),
          some (.list (b.history.map NamedLayout.toJson))] := rfl
    have hunit : (Json.text b.unit).toText? = some b.unit := rfl
    have hgeneration : (Json.nat b.generation).word32? = some b.generation := by
      simpa [Json.word32?, generationCount] using hb.generation
    have henvs := envs_readsBack hb room
    have hhistory := ReadsBack.items (fun e he =>
      NamedLayout.readsBack (hb.minted e (List.mem_append_right _ he))) room
    rw [hdepth]
    simp only [ofJson?, hparts, hunit, hgeneration, henvs, hhistory, Nat.add_le_add_iff_right,
      Nat.max_le, Option.bind_eq_bind, Option.bind_some, Option.pure_def]
    generalize (Json.object (b.envs.map fun e => (e.1, e.2.toJson))).depth = m
    generalize (Json.list (b.history.map NamedLayout.toJson)).depth = n
    by_cases hm : m ≤ room <;> by_cases hn : n ≤ room <;> simp [hm, hn]

/-- The document of a baseline shows all of it. -/
theorem isWritable_toJson (b : Baseline) : b.toJson.IsWritable := by
  have henvs : Json.HaveWritable (b.envs.map fun e => (e.1, e.2.toJson)) :=
    Json.haveWritable_map fun e _ => e.2.isWritable_toJson
  have hhistory : Json.AreWritable (b.history.map NamedLayout.toJson) :=
    Json.areWritable_map fun e _ => ⟨trivial, e.2.isWritable_toJson, trivial⟩
  simp [toJson, Json.IsWritable, Json.HaveWritable, henvs, hhistory, Json.nat]

end Baseline

/-- What lowering over a baseline that a program can hold leaves is one again. -/
theorem LoweredUnit.proper_nextBaseline {t : ScopeTree} {holds : VarId → ClosureId → Prop}
    (ht : t.WellBound holds) {options : LowerOptions} {baseline : Option Baseline}
    (hb : ∀ b ∈ baseline, b.Proper) {u : LoweredUnit} (hu : lowerUnit t options baseline = .ok u) :
    u.nextBaseline.Proper := by
  obtain ⟨a, ps, s, xs, h⟩ := exists_stages ht hu
  have hnext : nextGeneration baseline < generationCount := by
    cases baseline with
    | none => exact show 0 < generationCount by decide
    | some b => exact Nat.mod_lt _ (by decide)
  have hprior : ∀ e ∈ Synthesis.priorLayouts baseline, e.2.mintedIn < generationCount := by
    cases baseline with
    | none => nofun
    | some b => exact fun e he => (hb b rfl).minted e (List.mem_append_left _ he)
  have hleft : ∀ e ∈ Synthesis.leftOf ps baseline, e.2.mintedIn < generationCount := fun e he =>
    hprior e (List.mem_filter.mp he).1
  -- A layout is of this generation, or it was taken over from the baseline.
  have henv : ∀ x ∈ xs, x.env.generation < generationCount := fun x hx => by
    cases (h.account.settled x hx).outcome with
    | minted _ _ _ _ _ _ hgen | superseded _ _ _ _ _ _ _ _ _ hgen => exact hgen ▸ hnext
    | reused prior _ hprior' _ _ _ _ _ hgen =>
      exact hgen ▸ hprior _ (Synthesis.priorOf_eq_some hprior').1
  have hpast : ∀ e ∈ Synthesis.pastOf baseline, e.2.mintedIn < generationCount := by
    cases baseline with
    | none => nofun
    | some b => exact fun e he => (hb b rfl).minted e (List.mem_append_right _ he)
  have hgeneration : u.nextBaseline.generation = nextGeneration baseline := h.generation
  refine ⟨hgeneration ▸ hnext, fun e he => ?_, SortedMap.sorted_ofList _⟩
  rcases List.mem_append.mp he with he | he
  · rcases h.mem_live.mp (Stages.mem_live_of_nextBaseline he) with ⟨x, hx, rfl⟩ | ⟨hkept, -⟩
    · exact henv x hx
    · exact hprior e hkept
  · have hhistory : u.nextBaseline.history = _ := h.history_eq
    rw [hhistory, List.mem_append, Synthesis.goneOf, List.mem_append, List.mem_filterMap] at he
    rcases he with he | ⟨x, hx, hsuperseded⟩ | he
    · exact hpast e he
    · obtain ⟨l, reason, hl, -, -, rfl⟩ :=
        (h.account.settled x hx).superseded_eq_some hsuperseded
      exact hprior (_, l) (Synthesis.priorOf_eq_some hl).1
    · obtain ⟨f, hf, rfl⟩ := List.mem_map.mp he
      exact hleft f (List.mem_filter.mp hf).1

namespace Baseline

/-- What one generation leaves of a closure that captures `f`, of a type. -/
def capturing (t : Ty) : Baseline where
  unit := "t"
  generation := 0
  envs := [("scope:g", ⟨"<>Env0_0", .reference, [⟨"f", t⟩], none, false, false, 0, .active, ""⟩)]
  history := []

/-- Its only layout is of the first generation. -/
theorem proper_capturing (t : Ty) : (capturing t).Proper where
  generation := show 0 < generationCount by decide
  minted := by simp [capturing, generationCount]
  sorted := List.pairwise_singleton ..

/-- The type of functions of functions, down to whole numbers. -/
def functionsOf : Nat → Ty
  | 0 => .int
  | n + 1 => .fn [functionsOf n] .int

/-- Each function opens three arrays and objects. -/
theorem depth_functionsOf (n : Nat) : (functionsOf n).toJson.depth = 3 * n := by
  induction n with
  | zero => rfl
  | succ n ih =>
    simp [functionsOf, Ty.toJson, Ty.toJsons, Json.tagged, Json.depth, Json.depths,
      Json.fieldDepths, ih]
    omega

/-- The document of a baseline is read as that baseline, exactly if a reader has room for it. -/
theorem read?_write {b : Baseline} (hb : b.Proper) :
    read? b.write = if b.toJson.depth ≤ Json.maxOpen then some b else none := by
  rw [read?, write, Json.read_pretty b.isWritable_toJson]
  exact readsBack hb Json.maxOpen

/-- A baseline with a variable that holds a function is read back. -/
theorem read?_write_function : (capturing (functionsOf 1)).Proper ∧
    read? (capturing (functionsOf 1)).write = some (capturing (functionsOf 1)) :=
  ⟨proper_capturing _, (read?_write (proper_capturing _)).trans (if_pos (by decide))⟩

/-- A baseline with functions of functions is read back up to forty of them. -/
theorem read?_write_capturing (n : Nat) : read? (capturing (functionsOf n)).write =
    if n ≤ 40 then some (capturing (functionsOf n)) else none := by
  have hdepth : (capturing (functionsOf n)).toJson.depth = 3 * n + 5 := by
    simp [capturing, toJson, Layout.toJson, LayoutField.toJson, Json.depth, Json.depths,
      Json.fieldDepths, Json.nat, Json.ofOption, depth_functionsOf]
  rw [read?, write, Json.read_pretty (isWritable_toJson _)]
  refine (readsBack (proper_capturing _) Json.maxOpen).trans ?_
  rw [hdepth, Json.maxOpen]
  exact if_congr (by omega) rfl rfl

/-- Some baseline is written but not read back. -/
theorem exists_unread : ∃ b : Baseline, b.Proper ∧ read? b.write = none :=
  ⟨capturing (functionsOf 41), proper_capturing _, read?_write_capturing 41⟩

end Baseline

end ClosureEnv
