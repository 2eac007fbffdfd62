import ClosureEnv.Proofs.Layout.Age
import ClosureEnv.Proofs.Types.Bound

/-!
# What the digest of a layout tells

The text whose digest stands for an environment has parts with NUL between them: the name, the
representation, the fields, and then what there is of the parent and the marks. Of an environment
that lowering produces none of the parts has a NUL in it, so the text tells them; a field is told
from what follows the fields by its characters, and its name ends at the first colon. That is
because the names of environments are made, and those of fields and types come from the source,
one generation after another (`legible_of_lowerChain`).

So the text tells the layout, but for what printed types leave out (`EnvType.layoutBytes_eq_iff`).
A field of the type of a parameter and one of an unknown type of that name have the same text
(`exists_same_layoutBytes`).
-/

namespace ClosureEnv

open Syntax (isName isWordChar)
open Synthesis

/-! ## Parts -/

/-- The part of the text that stands for a field. -/
def LayoutField.part (f : LayoutField) : String :=
  f.name ++ ":" ++ f.ty.describe

namespace Layout

/-- The parts of the text behind those of the fields. -/
def marks (l : Layout) : List String :=
  (l.parent.map ("parent:" ++ ·)).toList ++
    ((if l.isSingleton then ["singleton"] else []) ++ if l.isExpandable then ["expansion"] else [])

/-- The parts of the text that stands for a layout. -/
def parts (l : Layout) : List String :=
  l.name :: l.kind.describe :: (l.fields.map LayoutField.part ++ l.marks)

end Layout

/-- The text has these parts. -/
theorem EnvType.layoutText_eq (e : EnvType) :
    e.layoutText = "\x00".intercalate e.layout.parts := by
  have hfields (out : String) (fs : List EnvField) :
      (fs.foldl (fun out f => out ++ "\x00" ++ f.name ++ ":" ++ f.ty.describe) out).toList =
        out.toList ++ ((fs.map fun f => ⟨f.name, f.ty⟩).map LayoutField.part).flatMap
          fun t => "\x00".toList ++ t.toList := by
    induction fs generalizing out with
    | nil => simp
    | cons f fs ih =>
      rw [List.foldl_cons, ih]
      simp [LayoutField.part, String.toList_append]
  rw [← String.toList_inj, Layout.parts, Text.toList_intercalate_cons]
  obtain ⟨-, name, -, kind, fields, parent, isSingleton, isExpandable, -⟩ := e
  simp only [layoutText, String.toList_append, hfields, layout, Layout.marks]
  cases parent <;> cases isSingleton <;> cases isExpandable <;> simp [String.toList_append]

/-! ## Parts that can be told apart -/

/-- A field of a variable of a source. -/
structure LayoutField.Legible (f : LayoutField) : Prop where
  /-- It is named after the variable. -/
  name : ∃ s k, isName s = true ∧ f.name = Name.field s k
  /-- A source can state or show its type. -/
  ty : f.ty.Worded

/-- A layout whose text tells its parts apart. -/
structure Layout.Legible (l : Layout) : Prop where
  /-- It has the name of an environment. -/
  name : Name.OfEnv l.name
  /-- So has the parent. -/
  parent : ∀ p ∈ l.parent, Name.OfEnv p
  /-- The fields are those of variables of a source. -/
  fields : ∀ f ∈ l.fields, f.Legible

/-- A field without what the printed form of its type leaves out. -/
def LayoutField.plain (f : LayoutField) : LayoutField :=
  { f with ty := f.ty.plain }

/-- Two layouts that other code sees alike, but for what printed types leave out. -/
structure Layout.Alike (l l' : Layout) : Prop where
  name : l.name = l'.name
  kind : l.kind = l'.kind
  fields : l.fields.map LayoutField.plain = l'.fields.map LayoutField.plain
  parent : l.parent = l'.parent
  isSingleton : l.isSingleton = l'.isSingleton
  isExpandable : l.isExpandable = l'.isExpandable

/-- The characters of the names of fields. -/
def Name.isFieldChar (c : Char) : Bool :=
  isWordChar c || c == '$'

/-- Names of fields have no other characters. -/
theorem Name.isFieldChar_of_mem_field {s : String} (hs : isName s = true) (k : Nat) :
    ∀ c ∈ (Name.field s k).toList, isFieldChar c = true := by
  have hword := (Syntax.isWordChar_of_isName hs).2
  unfold Name.field
  split
  · intro c hc
    simp [isFieldChar, hword c hc]
  · intro c hc
    simp only [String.toList_append, List.mem_append] at hc
    rcases hc with (hc | hc) | hc
    · simp [isFieldChar, hword c hc]
    · obtain rfl := List.mem_singleton.mp hc
      rfl
    · simp [isFieldChar, isWordChar, Char.isAlphanum, Text.isDigit_of_mem_toString hc]

/-- Whether a part of the text has the characters of a field. -/
def isFieldPart (s : String) : Bool :=
  s.toList.contains ':' && !s.toList.contains '<'

namespace LayoutField.Legible

variable {f g : LayoutField}

/-- The characters of a part that stands for a field. -/
theorem mem_part (h : f.Legible) {c : Char} (hc : c ∈ f.part.toList) :
    c ∈ f.name.toList ∧ Name.isFieldChar c = true ∨ c = ':' ∨ Ty.isTyChar c = true := by
  obtain ⟨s, k, hs, hname⟩ := h.name
  simp only [part, String.toList_append, List.mem_append] at hc
  rcases hc with (hc | hc) | hc
  · exact .inl ⟨hc, Name.isFieldChar_of_mem_field hs k c (hname ▸ hc)⟩
  · exact .inr (.inl (List.mem_singleton.mp hc))
  · exact .inr (.inr (h.ty.isTyChar c hc))

/-- A part that stands for a field has the characters of one. -/
theorem isFieldPart_part (h : f.Legible) : isFieldPart f.part = true := by
  have hcolon : ':' ∈ f.part.toList := by simp [part, String.toList_append]
  have hless : '<' ∉ f.part.toList := fun hmem => by
    rcases h.mem_part hmem with ⟨-, hc⟩ | hc | hc <;> revert hc <;> decide
  simp [isFieldPart, hcolon, hless]

/-- No part that stands for a field has a NUL. -/
theorem nul_notMem_part (h : f.Legible) : '\x00' ∉ f.part.toList := fun hmem => by
  rcases h.mem_part hmem with ⟨-, hc⟩ | hc | hc <;> revert hc <;> decide

/-- A part that stands for a field tells it, but for what its printed type leaves out. -/
theorem part_inj (hf : f.Legible) (hg : g.Legible) (h : f.part = g.part) : f.plain = g.plain := by
  have hno {f : LayoutField} (hf : f.Legible) : ∀ c ∈ f.name.toList, (c != ':') = true := by
    obtain ⟨s, k, hs, hname⟩ := hf.name
    intro c hc
    rw [hname] at hc
    have := Name.isFieldChar_of_mem_field hs k c hc
    rw [bne_iff_ne]
    rintro rfl
    revert this
    decide
  -- the name is the run of characters up to the first colon
  have hl := congrArg String.toList h
  simp only [part, String.toList_append, List.append_assoc] at hl
  obtain ⟨hname, hty⟩ := Text.run_append_inj (hno hf) (hno hg) (by rintro c ⟨⟩; rfl)
    (by rintro c ⟨⟩; rfl) hl
  have hty := (Ty.describe_eq_iff hf.ty hg.ty).mp
    (String.toList_inj.mp (List.append_cancel_left hty))
  rw [plain, plain, String.toList_inj.mp hname, hty]

end LayoutField.Legible

namespace Layout

variable {l l' : Layout}

/-- No text that starts with another character is that of a parent. -/
theorem parentPart_ne {s : String} (hs : s.toList.head? ≠ some 'p') (p : String) :
    "parent:" ++ p ≠ s := by
  rintro rfl
  exact hs (by simp [String.toList_append])

/-- A part behind those of the fields is that of the parent or a mark. -/
theorem mem_marks {s : String} : s ∈ l.marks ↔ (∃ p, l.parent = some p ∧ "parent:" ++ p = s) ∨
    l.isSingleton = true ∧ s = "singleton" ∨ l.isExpandable = true ∧ s = "expansion" := by
  simp [marks]

/-- The parts behind those of the fields tell what they stand for. -/
theorem marks_inj (h : l.marks = l'.marks) : l.parent = l'.parent ∧
    l.isSingleton = l'.isSingleton ∧ l.isExpandable = l'.isExpandable := by
  have hs := parentPart_ne (s := "singleton") (by decide)
  have he := parentPart_ne (s := "expansion") (by decide)
  -- each is told by what is among the parts, in whatever order
  have hparent (l : Layout) (p : String) : "parent:" ++ p ∈ l.marks ↔ l.parent = some p := by
    simp [mem_marks, hs, he]
  have hsingleton (l : Layout) : "singleton" ∈ l.marks ↔ l.isSingleton = true := by
    simp [mem_marks, hs]
  have hexpansion (l : Layout) : "expansion" ∈ l.marks ↔ l.isExpandable = true := by
    simp [mem_marks, he]
  refine ⟨Option.ext fun p => ?_, Bool.eq_iff_iff.mpr ?_, Bool.eq_iff_iff.mpr ?_⟩
  · rw [← hparent, ← hparent, h]
  · rw [← hsingleton, ← hsingleton, h]
  · rw [← hexpansion, ← hexpansion, h]

/-- Fields with the same parts are the same, but for what printed types leave out. -/
theorem fields_inj : ∀ {fs gs : List LayoutField}, (∀ f ∈ fs, f.Legible) → (∀ g ∈ gs, g.Legible) →
    fs.map LayoutField.part = gs.map LayoutField.part →
    fs.map LayoutField.plain = gs.map LayoutField.plain
  | [], [], _, _, _ => rfl
  | [], _ :: _, _, _, h | _ :: _, [], _, _, h => by cases h
  | f :: fs, g :: gs, hf, hg, h => by
    obtain ⟨hf, hfs⟩ := List.forall_mem_cons.mp hf
    obtain ⟨hg, hgs⟩ := List.forall_mem_cons.mp hg
    obtain ⟨hpart, hparts⟩ := List.cons.inj h
    rw [List.map_cons, List.map_cons, hf.part_inj hg hpart, fields_inj hfs hgs hparts]

namespace Legible

/-- No part has a NUL. -/
theorem nul_notMem_parts (h : l.Legible) : ∀ s ∈ l.parts, '\x00' ∉ s.toList := by
  have henv {n : String} (hn : Name.OfEnv n) : '\x00' ∉ n.toList := fun hmem =>
    absurd (hn.isEnvChar hmem) (by decide)
  intro s hs
  rcases List.mem_cons.mp hs with rfl | hs
  · exact henv h.name
  rcases List.mem_cons.mp hs with rfl | hs
  · cases l.kind <;> decide
  rcases List.mem_append.mp hs with hs | hs
  · obtain ⟨f, hf, rfl⟩ := List.mem_map.mp hs
    exact (h.fields f hf).nul_notMem_part
  rcases mem_marks.mp hs with ⟨p, hp, rfl⟩ | ⟨-, rfl⟩ | ⟨-, rfl⟩
  · rw [String.toList_append, List.mem_append, not_or]
    exact ⟨by decide, henv (h.parent p hp)⟩
  · decide
  · decide

/-- A part behind those of the fields does not have the characters of a field. -/
theorem isFieldPart_marks (h : l.Legible) : ∀ s ∈ l.marks, isFieldPart s = false := by
  intro s hs
  rcases mem_marks.mp hs with ⟨p, hp, rfl⟩ | ⟨-, rfl⟩ | ⟨-, rfl⟩
  · have hmem : '<' ∈ ("parent:" ++ p).toList := by
      rw [String.toList_append]
      exact List.mem_append_right _ (h.parent p hp).bracket_mem
    simp only [isFieldPart, List.contains_iff_mem.mpr hmem, Bool.not_true, Bool.and_false]
  · decide
  · decide

/-- The parts of the text tell a layout, but for what printed types leave out. -/
theorem parts_inj (h : l.Legible) (h' : l'.Legible) (hparts : l.parts = l'.parts) :
    l.Alike l' := by
  obtain ⟨hname, hparts⟩ := List.cons.inj hparts
  obtain ⟨hkind, hparts⟩ := List.cons.inj hparts
  -- the fields are the run of parts up to the first that does not look like one
  have hpart {l : Layout} (h : l.Legible) : ∀ s ∈ l.fields.map LayoutField.part,
      isFieldPart s = true := List.forall_mem_map.mpr fun f hf => (h.fields f hf).isFieldPart_part
  obtain ⟨hfields, hmarks⟩ := Text.run_append_inj (hpart h) (hpart h')
    (fun s hs => h.isFieldPart_marks s (List.mem_of_mem_head? hs))
    (fun s hs => h'.isFieldPart_marks s (List.mem_of_mem_head? hs)) hparts
  obtain ⟨hparent, hsingleton, hexpandable⟩ := marks_inj hmarks
  refine ⟨hname, ?_, fields_inj h.fields h'.fields hfields, hparent, hsingleton, hexpandable⟩
  revert hkind
  cases l.kind <;> cases l'.kind <;> decide

end Legible

/-- What printed types leave out is in no part of the text. -/
theorem Alike.parts_eq (h : l.Alike l') : l.parts = l'.parts := by
  have hpart (fs : List LayoutField) :
      fs.map LayoutField.part = (fs.map LayoutField.plain).map LayoutField.part := by
    rw [List.map_map]
    refine List.map_congr_left fun f _ => ?_
    simp [LayoutField.part, LayoutField.plain, Ty.describe_plain]
  rw [parts, parts, marks, marks, hpart l.fields, hpart l'.fields, h.name, h.kind, h.fields,
    h.parent, h.isSingleton, h.isExpandable]

end Layout

/-! ## Bytes -/

/-- The bytes of an array are those behind a position and those that were taken before. -/
theorem toList_loop (bs : ByteArray) (i : Nat) (taken : List UInt8) :
    ByteArray.toList.loop bs i taken = taken.reverse ++ bs.data.toList.drop i := by
  fun_induction ByteArray.toList.loop bs i taken with
  | case1 i taken h ih =>
    have hi : i < bs.data.size := h
    have hdrop : bs.data.toList.drop i = bs.data[i] :: bs.data.toList.drop (i + 1) :=
      List.drop_eq_getElem_cons (by simpa using hi)
    have hget : bs.get! i = bs.data[i] := getElem!_pos bs.data i hi
    rw [ih, List.reverse_cons, List.append_assoc, List.singleton_append, hdrop, hget]
  | case2 i taken h =>
    have hi : bs.data.size ≤ i := Nat.not_lt.mp h
    rw [List.drop_eq_nil_of_le (by simpa using hi), List.append_nil]

/-- A text is told by its bytes. -/
theorem toUTF8_toList_inj {s t : String} (h : s.toUTF8.toList = t.toUTF8.toList) : s = t := by
  have hdata (bs : ByteArray) : bs.toList = bs.data.toList := toList_loop bs 0 []
  rw [hdata, hdata, Array.toList_inj, ← ByteArray.ext_iff] at h
  exact String.toByteArray_inj.mp h

/-- The bytes whose digest stands for an environment tell its layout, but for what printed types
leave out. -/
theorem EnvType.layoutBytes_eq {e e' : EnvType} (h : e.layout.Legible) (h' : e'.layout.Legible) :
    e.layoutBytes = e'.layoutBytes ↔ e.layout.Alike e'.layout := by
  constructor
  · intro hbytes
    have htext := toUTF8_toList_inj hbytes
    rw [layoutText_eq, layoutText_eq] at htext
    exact h.parts_inj h' (Text.intercalate_inj rfl h.nul_notMem_parts h'.nul_notMem_parts
      (List.cons_ne_nil _ _) (List.cons_ne_nil _ _) htext)
  · intro halike
    rw [layoutBytes, layoutBytes, layoutText_eq, layoutText_eq, halike.parts_eq]

/-! ## Environments that lowering produces -/

namespace Synthesis

variable {t : ScopeTree} {ps : PlanTable} {options : LowerOptions} {baseline : Option Baseline}
  {generation : Nat} {s : Synthesis} {xs : List Settlement}

/-- The fields that are wanted of a plan are those of variables of a source. -/
theorem legible_of_desiredFields (ht : t.Worded) {p : Plan} {fields : List LayoutField}
    (hf : desiredFields t p = .ok fields) : ∀ f ∈ fields, f.Legible := by
  obtain ⟨vars, hvars, hfields⟩ := Lower.bind_eq_ok.mp hf
  cases hfields
  have hworded (x : Variable) (hx : x ∈ vars) : isName x.name = true ∧ x.ty.Worded := by
    obtain ⟨v, -, hv⟩ := Lower.mem_of_mapM hvars hx
    exact ht x (Array.mem_of_getElem? (Lower.orInconsistent_eq_ok.mp hv))
  intro f hf
  rw [← List.map_uncurry_zip_eq_zipWith] at hf
  obtain ⟨⟨name, x⟩, hmem, rfl⟩ := List.mem_map.mp hf
  obtain ⟨hname, hx⟩ := List.of_mem_zip hmem
  -- the name of a field is made from that of a variable, which need not be the one with the type
  obtain ⟨n, hn, k, hk, -⟩ := Name.mem_fieldsFrom hname
  obtain ⟨y, hy, rfl⟩ := List.mem_map.mp hn
  exact ⟨⟨y.name, k, (hworded y hy).1, hk⟩, (hworded x hx).2⟩

/-- What is settled on has the name of an environment. -/
theorem Settled.ofEnv {x : Settlement} (h : Settled t options baseline generation x)
    (hprior : ∀ e ∈ priorLayouts baseline, e.2.Legible) : Name.OfEnv x.env.name := by
  cases h.outcome with
  | minted _ _ _ _ hname | superseded _ _ _ _ _ _ _ hname => exact hname.ofEnv
  | reused prior _ hprior' _ _ _ hname => exact hname ▸ (hprior _ (priorOf_eq_some hprior').1).name

/-- Its fields are those of variables of a source. -/
theorem Settled.legible_fields {x : Settlement} (h : Settled t options baseline generation x)
    (ht : t.Worded) (hprior : ∀ e ∈ priorLayouts baseline, e.2.Legible) :
    ∀ f ∈ x.env.layout.fields, f.Legible := by
  have hwanted := legible_of_desiredFields ht h.fields
  -- a layout that is kept has the fields of the one before in front of those that are wanted
  cases h.outcome with
  | minted _ _ _ _ _ hfields | superseded _ _ _ _ _ _ _ _ hfields =>
    exact fun f hf => hwanted f (mem_fields_of_new hfields f hf)
  | reused prior _ hprior' _ happended _ _ hfields =>
    rw [fields_of_kept hfields, happended]
    intro f hf
    rcases List.mem_append.mp hf with hf | hf
    · exact (hprior _ (priorOf_eq_some hprior').1).fields f hf
    · exact hwanted f (List.mem_filter.mp hf).1

/-- The text of an environment of a synthesis tells its parts apart. -/
theorem Account.legible (h : Account t ps options baseline s xs) (hps : ps.Sound t) (ht : t.Worded)
    (hprior : ∀ e ∈ priorLayouts baseline, e.2.Legible) {x : Settlement} (hx : x ∈ xs) :
    x.env.layout.Legible where
  name := (h.settled x hx).ofEnv hprior
  parent p hp := by
    obtain ⟨y, hy, rfl, -⟩ := h.exists_parent hps hx hp
    exact (h.settled y hy).ofEnv hprior
  fields := (h.settled x hx).legible_fields ht hprior

end Synthesis

/-- The layouts that are live after a lowering have such texts too. -/
theorem Stages.legible_live {t : ScopeTree} {options : LowerOptions} {baseline : Option Baseline}
    {u : LoweredUnit} {a : Captures} {ps : PlanTable} {s : Synthesis} {xs : List Settlement}
    (h : Stages t options baseline u a ps s xs) (ht : t.Worded)
    (hprior : ∀ e ∈ priorLayouts baseline, e.2.Legible) : ∀ e ∈ u.live, e.2.Legible := by
  intro e he
  rcases h.mem_live.mp he with ⟨x, hx, rfl⟩ | ⟨hkept, -⟩
  · exact h.account.legible h.plans ht hprior hx
  · exact hprior e hkept

/-- Over any number of lowerings, the texts of environments tell their parts apart. -/
theorem legible_of_lowerChain : ∀ {steps : List (ScopeTree × LowerOptions)}
    {baseline : Option Baseline} {us : List LoweredUnit},
    (∀ e ∈ priorLayouts baseline, e.2.Legible) →
    (∀ x ∈ steps, (∃ holds, x.1.WellBound holds) ∧ x.1.Worded) →
    lowerChain baseline steps = .ok us → ∀ u ∈ us, ∀ e ∈ u.live, e.2.Legible
  | [], _, us, _, _, hus => by
    cases hus
    exact nofun
  | x :: steps, baseline, us, hprior, hsteps, hus => by
    obtain ⟨u, hu, hus⟩ := Lower.bind_eq_ok.mp hus
    obtain ⟨vs, hvs, hus⟩ := Lower.bind_eq_ok.mp hus
    cases hus
    obtain ⟨⟨holds, hw⟩, ht⟩ := hsteps x List.mem_cons_self
    obtain ⟨a, ps, s, xs, h⟩ := exists_stages hw hu
    have hlive := h.legible_live ht hprior
    have hnext (e : NamedLayout) (he : e ∈ priorLayouts (some u.nextBaseline)) : e.2.Legible :=
      hlive e (Stages.mem_live_of_nextBaseline he)
    exact List.forall_mem_cons.mpr ⟨hlive, legible_of_lowerChain hnext
      (fun y hy => hsteps y (List.mem_cons_of_mem _ hy)) hvs⟩

/-- An environment that lowering produces: it is one of the last of some sources that are lowered
one after another under one name, each with options of its own and with what the one before
leaves. -/
def EnvType.Produced (e : EnvType) : Prop :=
  ∃ (unit : String) (steps : List (ScopeTree × LowerOptions)) (us : List LoweredUnit),
    (∀ x ∈ steps, ∃ source m, Syntax.parse source = .ok m ∧ bindModule m unit = .ok x.1) ∧
      lowerChain none steps = .ok us ∧ ∃ u ∈ us, e ∈ u.envs

/-- The text of an environment that lowering produces tells its parts apart. -/
theorem EnvType.Produced.legible {e : EnvType} (h : e.Produced) : e.layout.Legible := by
  obtain ⟨unit, steps, us, hsteps, hus, u, hu, he⟩ := h
  have hnone (e : NamedLayout) (he : e ∈ priorLayouts none) : e.2.Legible :=
    absurd he List.not_mem_nil
  refine legible_of_lowerChain hnone (fun x hx => ?_) hus u hu _ (Stages.live_of_env he)
  obtain ⟨source, m, hm, ht⟩ := hsteps x hx
  exact ⟨wellBound_of_bindModule ht, worded_of_source hm ht⟩

/-! ## Functions that return a closure -/

/-- The text of a function that returns a closure over its parameter. -/
def returningText (generics param : String) : String :=
  "fn f" ++ generics ++ "(" ++ param ++ ") \x7b || x \x7d"

/-- The environment of such a closure, where the parameter has a type. -/
def returningEnv (ty : Ty) : EnvType :=
  ⟨0, "<>Env0_0", .scope "f", .reference, [⟨"x", ty, some 0⟩], none, false, false, 0⟩

/-- Type parameters and a parameter, and the type that the parameter has. -/
def returningCases : List (String × String × Ty) :=
  [("<T>", "x: T", .param "T"), ("", "x: T", .named "T"), ("", "x: _", .named "_"),
    ("", "x", .unknown)]

/-- The environments of what a text is lowered to as a first generation. -/
def loweredEnvs (source : String) : Option (List EnvType) :=
  (Syntax.parse source).toOption.bind fun m => (bindModule m "u").toOption.bind fun t =>
    (lowerUnit t ⟨.never, false⟩ none).toOption.map LoweredUnit.envs

/-- Lowering produces them. -/
theorem produced_of_loweredEnvs {source : String} {es : List EnvType}
    (h : loweredEnvs source = some es) : ∀ e ∈ es, e.Produced := by
  obtain ⟨m, hm, h⟩ := Option.bind_eq_some_iff.mp h
  obtain ⟨t, ht, h⟩ := Option.bind_eq_some_iff.mp h
  obtain ⟨u, hu, rfl⟩ := Option.map_eq_some_iff.mp h
  rw [Lower.toOption_eq_some] at hm ht hu
  refine fun e he => ⟨"u", [(t, ⟨.never, false⟩)], [u], fun x hx => ?_, ?_, u,
    List.mem_singleton_self u, he⟩
  · obtain rfl := List.mem_singleton.mp hx
    exact ⟨source, m, hm, ht⟩
  · simp only [lowerChain, hu, Lower.ok_bind]
    rfl

/-- Lowering produces the environments of these functions. -/
theorem produced_returning : ∀ x ∈ returningCases, (returningEnv x.2.2).Produced := by
  have hlen : ∀ x ∈ returningCases, (returningText x.1 x.2.1).toList.length < 32 := by decide
  have hlowered : ∀ x ∈ returningCases,
      loweredEnvs (returningText x.1 x.2.1) = some [returningEnv x.2.2] := by
    intro x hx
    -- with a bound on its tokens the text can be evaluated
    rw [loweredEnvs, Syntax.parse_eq_within (hlen x hx)]
    revert x
    decide +kernel
  exact fun x hx => produced_of_loweredEnvs (hlowered x hx) _ (List.mem_singleton_self _)

/-! ## The bytes and the layout -/

/-- The bytes whose digest stands for an environment are those of another just if other code sees
the two layouts alike, but for what printed types leave out; and so it is with the digests, unless
those of different bytes are the same. -/
theorem EnvType.layoutBytes_eq_iff {e e' : EnvType} (h : e.Produced) (h' : e'.Produced) :
    (e.layoutBytes = e'.layoutBytes ↔ e.layout.Alike e'.layout) ∧
      ((Sha256.digest e.layoutBytes = Sha256.digest e'.layoutBytes →
          e.layoutBytes = e'.layoutBytes) →
        (e.digest = e'.digest ↔ e.layout.Alike e'.layout)) := by
  have hbytes := layoutBytes_eq h.legible h'.legible
  refine ⟨hbytes, fun hfree => ⟨fun hdigest => hbytes.mp (hfree ?_), fun halike => ?_⟩⟩
  · have hl := congrArg String.toList hdigest
    rw [digest, digest, String.toList_append, String.toList_append,
      List.append_cancel_left_eq] at hl
    exact String.toList_inj.mp hl
  · rw [digest, digest, hbytes.mpr halike]

/-- So the two are alike where the type of a field is a type parameter or is named so, and are told
apart where it is not known. -/
theorem EnvType.layoutBytes_eq_iff_returning :
    ((returningEnv (.param "T")).Produced ∧ (returningEnv (.named "T")).Produced ∧
        (returningEnv .unknown).Produced) ∧
      (returningEnv (.param "T")).digest = (returningEnv (.named "T")).digest ∧
      (returningEnv .unknown).digest ≠ (returningEnv (.named "T")).digest := by
  have hparam := produced_returning ("<T>", "x: T", .param "T") (by decide)
  have hnamed := produced_returning ("", "x: T", .named "T") (by decide)
  have hunknown := produced_returning ("", "x", .unknown) (by decide)
  have hfree : Sha256.digest (returningEnv .unknown).layoutBytes ≠
      Sha256.digest (returningEnv (.named "T")).layoutBytes := by decide +kernel
  refine ⟨⟨hparam, hnamed, hunknown⟩, ?_, ?_⟩
  · have halike := layoutBytes_eq_iff hparam hnamed
    exact (halike.2 fun _ => rfl).mpr (halike.1.mp rfl)
  · intro hdigest
    have halike := ((layoutBytes_eq_iff hunknown hnamed).2 (absurd · hfree)).mp hdigest
    exact absurd halike.fields (by decide)

/-! ## Types that are printed alike -/

/-- Two environments that lowering produces have the same bytes, though a field has another type
in the one than in the other, for which lowering supersedes a layout. -/
structure EnvType.Confused (e e' : EnvType) : Prop where
  produced : e.Produced
  produced' : e'.Produced
  bytes : e.layoutBytes = e'.layoutBytes
  fields : e.layout.fields ≠ e'.layout.fields
  change : (change? e.layout
    ⟨e'.kind, e'.layout.fields, e'.parent, e'.isSingleton, e'.isExpandable⟩).isSome = true

/-- The bytes do not tell the type of a type parameter from an unknown type of that name, nor a type
that is not known from one that is named so. -/
theorem exists_same_layoutBytes :
    (returningEnv (.param "T")).Confused (returningEnv (.named "T")) ∧
      (returningEnv .unknown).Confused (returningEnv (.named "_")) where
  left := ⟨produced_returning ("<T>", "x: T", .param "T") (by decide),
    produced_returning ("", "x: T", .named "T") (by decide), rfl, by decide, by decide⟩
  right := ⟨produced_returning ("", "x", .unknown) (by decide),
    produced_returning ("", "x: _", .named "_") (by decide), rfl, by decide, by decide⟩

end ClosureEnv
