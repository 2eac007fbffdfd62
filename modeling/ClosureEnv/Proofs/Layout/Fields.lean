import ClosureEnv.Layout.Synthesis
import ClosureEnv.Proofs.Fault.Lower
import ClosureEnv.Proofs.Layout.Names

/-!
# Fields of environments

The fields that are wanted of an environment have different names, though variables may share one
(`nodup_fields`). `HasFields` says that the fields of an environment tell its variables apart, which
holds of new fields and of fields that are kept for an earlier generation.
-/

namespace ClosureEnv

namespace Name

/-- The name of a field tells the variable and how many earlier ones share the name. -/
theorem field_inj {a b : String} {m n : Nat} (ha : '$' ∉ a.toList) (hb : '$' ∉ b.toList)
    (h : field a m = field b n) : a = b ∧ m = n := by
  have hno {a : String} (ha : '$' ∉ a.toList) (b : String) (k : Nat) :
      a ≠ b ++ "$" ++ toString k := by
    rintro rfl
    exact ha (by simp)
  unfold field at h
  split at h <;> split at h
  · next h₁ h₂ => exact ⟨h, (beq_iff_eq.mp h₁).trans (beq_iff_eq.mp h₂).symm⟩
  · exact absurd h (hno ha b n)
  · exact absurd h.symm (hno hb a m)
  · exact Text.append_toString_inj "" (c := '$') (by decide) h

/-- There is a field for each variable. -/
theorem length_fieldsFrom (seen names : List String) :
    (fieldsFrom seen names).length = names.length := by
  induction names generalizing seen with
  | nil => rfl
  | cons name names ih => simp [fieldsFrom, ih]

/-- The field at a position has the name of the variable there, and counts the earlier ones. -/
theorem getElem?_fieldsFrom (seen names : List String) (i : Nat) :
    (fieldsFrom seen names)[i]? =
      names[i]?.map fun name => field name (seen.count name + (names.take i).count name) := by
  induction names generalizing seen i with
  | nil => rfl
  | cons name names ih =>
    cases i with
    | zero => simp [fieldsFrom]
    | succ i =>
      rw [fieldsFrom, List.getElem?_cons_succ, ih, List.getElem?_cons_succ]
      congr 1
      funext n
      rw [List.take_succ_cons, List.count_cons, List.count_cons]
      congr 1
      omega

/-- The fields of the first variables are the first fields. -/
theorem fieldsFrom_take (seen names : List String) (n : Nat) :
    fieldsFrom seen (names.take n) = (fieldsFrom seen names).take n := by
  induction names generalizing seen n with
  | nil => simp [fieldsFrom]
  | cons name names ih =>
    cases n with
    | zero => rfl
    | succ n => rw [List.take_succ_cons, fieldsFrom, fieldsFrom, List.take_succ_cons, ih]

/-- A field is named after a variable and counts at least the earlier ones. -/
theorem mem_fieldsFrom {seen names : List String} {f : String} (h : f ∈ fieldsFrom seen names) :
    ∃ name ∈ names, ∃ k, f = field name k ∧ seen.count name ≤ k := by
  induction names generalizing seen with
  | nil => cases h
  | cons name names ih =>
    rw [fieldsFrom] at h
    rcases List.mem_cons.mp h with rfl | h
    · exact ⟨name, List.mem_cons_self, _, rfl, Nat.le_refl _⟩
    · obtain ⟨n, hn, k, hf, hk⟩ := ih h
      refine ⟨n, List.mem_cons_of_mem _ hn, k, hf, Nat.le_trans ?_ hk⟩
      exact List.count_le_count_cons

/-- No two fields have one name. -/
theorem nodup_fieldsFrom (seen names : List String) (hp : ∀ n ∈ names, '$' ∉ n.toList) :
    (fieldsFrom seen names).Nodup := by
  induction names generalizing seen with
  | nil => exact List.nodup_nil
  | cons name names ih =>
    rw [fieldsFrom, List.nodup_cons]
    refine ⟨fun hmem => ?_, ih _ fun n hn => hp n (List.mem_cons_of_mem _ hn)⟩
    obtain ⟨n, hn, k, hf, hk⟩ := mem_fieldsFrom hmem
    obtain ⟨rfl, rfl⟩ := field_inj (hp name List.mem_cons_self)
      (hp n (List.mem_cons_of_mem _ hn)) hf
    rw [List.count_cons_self] at hk
    omega

end Name

/-- Fields that tell the variables of a plan apart. -/
def HasFields (slots : List VarId) (fields : List EnvField) : Prop :=
  ∃ name : VarId → String, (∀ v ∈ slots, ∀ w ∈ slots, name v = name w → v = w) ∧
    (∀ f ∈ fields, ∀ v, f.var = some v → v ∈ slots ∧ f.name = name v) ∧
    ∀ v ∈ slots, ∃ f ∈ fields, f.var = some v

namespace HasFields

variable {slots : List VarId} {e : EnvType}

/-- Every variable of the plan has a field. -/
theorem exists_fieldFor (h : HasFields slots e.fields) {v : VarId} (hv : v ∈ slots) :
    ∃ f, e.fieldFor? v = some f := by
  obtain ⟨name, -, -, hcover⟩ := h
  obtain ⟨f, hf, hfv⟩ := hcover v hv
  have := List.find?_isSome (p := fun f : EnvField => f.var == some v).mpr ⟨f, hf, by simp [hfv]⟩
  exact Option.isSome_iff_exists.mp this

/-- A field that is found is one of the environment. -/
theorem mem_of_fieldFor {v : VarId} {f : EnvField} (hf : e.fieldFor? v = some f) :
    f ∈ e.fields ∧ f.var = some v :=
  ⟨List.mem_of_find?_eq_some hf, by simpa using List.find?_some hf⟩

/-- Fields of different variables have different names. -/
theorem fieldFor_inj (h : HasFields slots e.fields) {v w : VarId} {f g : EnvField}
    (hf : e.fieldFor? v = some f) (hg : e.fieldFor? w = some g) (heq : f.name = g.name) :
    v = w := by
  obtain ⟨name, hinj, hname, -⟩ := h
  obtain ⟨hfm, hfv⟩ := mem_of_fieldFor hf
  obtain ⟨hgm, hgw⟩ := mem_of_fieldFor hg
  obtain ⟨hv, hfn⟩ := hname f hfm v hfv
  obtain ⟨hw, hgn⟩ := hname g hgm w hgw
  exact hinj v hv w hw (hfn.symm.trans (heq.trans hgn))

/-- All fields of a variable have the name of the one that is found. -/
theorem name_eq (h : HasFields slots e.fields) {v : VarId} {f g : EnvField}
    (hf : e.fieldFor? v = some f) (hg : g ∈ e.fields) (hgv : g.var = some v) :
    g.name = f.name := by
  obtain ⟨name, -, hname, -⟩ := h
  obtain ⟨hfm, hfv⟩ := mem_of_fieldFor hf
  rw [(hname g hg v hgv).2, (hname f hfm v hfv).2]

/-- Only variables of the plan have fields. -/
theorem mem_slots (h : HasFields slots e.fields) {v : VarId} {g : EnvField} (hg : g ∈ e.fields)
    (hgv : g.var = some v) : v ∈ slots := by
  obtain ⟨name, -, hname, -⟩ := h
  exact (hname g hg v hgv).1

end HasFields

namespace Synthesis

variable {t : ScopeTree}

/-- The fields that are wanted of a plan. -/
structure Wanted (p : Plan) (fields : List LayoutField) : Prop where
  /-- There is one for each variable. -/
  length : fields.length = p.slots.length
  /-- No two have one name. -/
  nodup : (fields.map LayoutField.name).Nodup

/-- The fields that are wanted of a plan can be named. -/
theorem desiredFields_spec (hn : t.WellNamed) {p : Plan}
    (hs : ∀ v ∈ p.slots, ∃ x, t.vars[v]? = some x) :
    ∃ fields, desiredFields t p = .ok fields ∧ Wanted p fields := by
  obtain ⟨vars, hvars⟩ := Lower.mapM_exists (f := t.var) (l := p.slots) fun v hv => by
    obtain ⟨x, hx⟩ := hs v hv
    exact ⟨x, Lower.orInconsistent_eq_ok.mpr hx⟩
  have hlen : vars.length = p.slots.length := (Lower.mapM_eq_ok.mp hvars).length_eq.symm
  have hflen : (Name.fields (vars.map Variable.name)).length = vars.length := by
    simp [Name.fields, Name.length_fieldsFrom]
  refine ⟨_, Lower.bind_eq_ok.mpr ⟨vars, hvars, rfl⟩, ?_, ?_⟩
  · simp [hflen, hlen]
  · have hmap : (List.zipWith (fun name (v : Variable) => (⟨name, v.ty⟩ : LayoutField))
        (Name.fields (vars.map Variable.name)) vars).map LayoutField.name =
        Name.fields (vars.map Variable.name) := by
      refine List.ext_getElem (by simp [hflen]) fun i _ _ => ?_
      simp
    rw [hmap]
    refine Name.nodup_fieldsFrom _ _ fun n hmem => ?_
    obtain ⟨x, hx, rfl⟩ := List.mem_map.mp hmem
    obtain ⟨v, -, hv⟩ := Lower.mem_of_mapM hvars hx
    have hplain := hn.var_name x (Array.mem_of_getElem? (Lower.orInconsistent_eq_ok.mp hv))
    exact fun hmem => (hplain '$' hmem).2.1 rfl

/-- The fields of a plan that gets a new layout. -/
def newFields (p : Plan) (fields : List LayoutField) : List EnvField :=
  List.zipWith (fun f v => ⟨f.name, f.ty, some v⟩) fields p.slots

/-- The variable of a plan whose field has a name. -/
def slotOf (p : Plan) (fields : List LayoutField) (name : String) : Option VarId :=
  (fields.findIdx? (·.name == name)).bind fun i => p.slots[i]?

/-- The fields of a plan that takes over a prior layout. -/
def keptFields (p : Plan) (fields : List LayoutField) (prior : Layout)
    (appended : List LayoutField) : List EnvField :=
  (prior.fields ++ appended).map fun f => ⟨f.name, f.ty, slotOf p fields f.name⟩

/-- The fields of a new layout are among those that were wanted. -/
theorem mem_fields_of_new {p : Plan} {fields : List LayoutField} {e : EnvType}
    (h : e.fields = newFields p fields) : ∀ f ∈ e.layout.fields, f ∈ fields := by
  intro f hf
  obtain ⟨g, hg, rfl⟩ := List.mem_map.mp hf
  rw [h, newFields, ← List.map_uncurry_zip_eq_zipWith] at hg
  obtain ⟨⟨w, v⟩, hwv, rfl⟩ := List.mem_map.mp hg
  exact (List.of_mem_zip hwv).1

/-- The fields of a layout that was taken over are those that it had and those that were
appended. -/
theorem fields_of_kept {p : Plan} {fields : List LayoutField} {prior : Layout}
    {appended : List LayoutField} {e : EnvType}
    (h : e.fields = keptFields p fields prior appended) :
    e.layout.fields = prior.fields ++ appended := by
  show e.fields.map _ = _
  rw [h, keptFields, List.map_map]
  exact List.map_id _

/-- The name of the field that is wanted for a variable. -/
def wantedName (p : Plan) (fields : List LayoutField) (v : VarId) : String :=
  (fields[p.slots.idxOf v]?.map LayoutField.name).getD ""

namespace Wanted

variable {p : Plan} {fields : List LayoutField}

/-- The name that is wanted for the variable at a position. -/
theorem wantedName_getElem (hs : p.slots.Nodup) {i : Nat} {v : VarId}
    {f : LayoutField} (hv : p.slots[i]? = some v) (hf : fields[i]? = some f) :
    wantedName p fields v = f.name := by
  obtain ⟨hi, rfl⟩ := List.getElem?_eq_some_iff.mp hv
  rw [wantedName, hs.idxOf_getElem i hi, hf]
  rfl

/-- Every variable has a position. -/
theorem exists_position (h : Wanted p fields) {v : VarId} (hv : v ∈ p.slots) :
    ∃ (i : Nat) (f : LayoutField), p.slots[i]? = some v ∧ fields[i]? = some f := by
  obtain ⟨i, hi⟩ := List.mem_iff_getElem?.mp hv
  have hlt : i < fields.length := h.length ▸ (List.getElem?_eq_some_iff.mp hi).1
  exact ⟨i, fields[i], hi, List.getElem?_eq_getElem hlt⟩

/-- Different variables have different names. -/
theorem wantedName_inj (h : Wanted p fields) (hs : p.slots.Nodup) {v w : VarId} (hv : v ∈ p.slots)
    (hw : w ∈ p.slots) (heq : wantedName p fields v = wantedName p fields w) : v = w := by
  obtain ⟨i, f, hi, hf⟩ := h.exists_position hv
  obtain ⟨j, g, hj, hg⟩ := h.exists_position hw
  rw [wantedName_getElem hs hi hf, wantedName_getElem hs hj hg] at heq
  have hlt : i < (fields.map LayoutField.name).length := by
    simpa using (List.getElem?_eq_some_iff.mp hf).1
  have hij : i = j := (List.getElem?_inj hlt h.nodup).mp (by simp [hf, hg, heq])
  subst hij
  exact Option.some.inj (hi.symm.trans hj)

/-- New fields tell the variables of a plan apart. -/
theorem hasFields_newFields (h : Wanted p fields) (hs : p.slots.Nodup) :
    HasFields p.slots (newFields p fields) := by
  have hget (i : Nat) : (newFields p fields)[i]? =
      (fields[i]?.bind fun f => p.slots[i]?.map fun v => ⟨f.name, f.ty, some v⟩) := by
    rw [newFields, List.getElem?_zipWith]
    cases fields[i]? <;> cases p.slots[i]? <;> rfl
  refine ⟨wantedName p fields, fun v hv w hw => h.wantedName_inj hs hv hw, ?_, ?_⟩
  · intro g hg v hgv
    obtain ⟨i, hi⟩ := List.mem_iff_getElem?.mp hg
    rw [hget] at hi
    obtain ⟨f, hf, hi⟩ := Option.bind_eq_some_iff.mp hi
    obtain ⟨w, hw, rfl⟩ := Option.map_eq_some_iff.mp hi
    cases hgv
    exact ⟨List.mem_of_getElem? hw, (wantedName_getElem hs hw hf).symm⟩
  · intro v hv
    obtain ⟨i, f, hi, hf⟩ := h.exists_position hv
    exact ⟨_, List.mem_iff_getElem?.mpr ⟨i, by rw [hget, hf, Option.bind_some, hi]; rfl⟩, rfl⟩

/-- A variable that a name stands for is one whose field should have it. -/
theorem slotOf_eq_some (hs : p.slots.Nodup) {n : String} {v : VarId}
    (hv : slotOf p fields n = some v) : v ∈ p.slots ∧ n = wantedName p fields v := by
  obtain ⟨i, hi, hiv⟩ := Option.bind_eq_some_iff.mp hv
  obtain ⟨hlt, hname, -⟩ := List.findIdx?_eq_some_iff_getElem.mp hi
  refine ⟨List.mem_of_getElem? hiv, ?_⟩
  rw [wantedName_getElem hs hiv (List.getElem?_eq_getElem hlt)]
  exact (beq_iff_eq.mp hname).symm

/-- The name of a wanted field stands for its variable. -/
theorem slotOf_wantedName (h : Wanted p fields) (hs : p.slots.Nodup) {v : VarId}
    (hv : v ∈ p.slots) : slotOf p fields (wantedName p fields v) = some v := by
  obtain ⟨i, f, hi, hf⟩ := h.exists_position hv
  have hwanted := wantedName_getElem hs hi hf
  have hfind : (fields.findIdx? (·.name == wantedName p fields v)).isSome = true := by
    rw [List.findIdx?_isSome, List.any_eq_true]
    exact ⟨f, List.mem_of_getElem? hf, by simp [hwanted]⟩
  obtain ⟨j, hj⟩ := Option.isSome_iff_exists.mp hfind
  obtain ⟨hlt, hname, -⟩ := List.findIdx?_eq_some_iff_getElem.mp hj
  have hjs : j < p.slots.length := h.length ▸ hlt
  have hslot : slotOf p fields (wantedName p fields v) = some p.slots[j] := by
    rw [slotOf, hj, Option.bind_some, List.getElem?_eq_getElem hjs]
  rw [hslot, Option.some.injEq]
  exact (h.wantedName_inj hs hv (List.getElem_mem hjs) (slotOf_eq_some hs hslot).2).symm

/-- Fields that are kept for an earlier generation tell the variables of a plan apart, once the
missing ones are appended. -/
theorem hasFields_keptFields (h : Wanted p fields) (hs : p.slots.Nodup) (prior : Layout) :
    HasFields p.slots (keptFields p fields prior
      (fields.filter fun f => (prior.field? f.name).isNone)) := by
  refine ⟨wantedName p fields, fun v hv w hw => h.wantedName_inj hs hv hw, ?_, ?_⟩
  · intro g hg v hgv
    obtain ⟨f, -, rfl⟩ := List.mem_map.mp hg
    exact slotOf_eq_some hs hgv
  · intro v hv
    obtain ⟨i, f, hi, hf⟩ := h.exists_position hv
    have hwanted := wantedName_getElem hs hi hf
    -- the field is one of the prior layout, or appended
    obtain ⟨g, hg, hgname⟩ : ∃ g ∈ prior.fields ++ (fields.filter fun f =>
        (prior.field? f.name).isNone), g.name = f.name := by
      cases hp : prior.field? f.name with
      | some g =>
        exact ⟨g, List.mem_append_left _ (List.mem_of_find?_eq_some hp),
          by simpa using List.find?_some hp⟩
      | none =>
        exact ⟨f, List.mem_append_right _ (List.mem_filter.mpr ⟨List.mem_of_getElem? hf,
          by simp [hp]⟩), rfl⟩
    refine ⟨_, List.mem_map.mpr ⟨g, hg, rfl⟩, ?_⟩
    rw [hgname, ← hwanted]
    exact h.slotOf_wantedName hs hv

end Wanted

end Synthesis

end ClosureEnv
