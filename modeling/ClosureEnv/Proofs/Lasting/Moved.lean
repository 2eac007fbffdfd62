import ClosureEnv.Proofs.Lasting.Entry

/-!
# Where lasting environments lie

A run beside lasting environments does not depend on where these lie on the heap, on what else lies
there, and on which instances have been built before: two stores that have the same values at
addresses that correspond (`Beside`) lead to the same end (`runTree_track`). Addresses come to
correspond when two scopes are entered side by side.
-/

namespace ClosureEnv.Run.Lasting

/-- Addresses of one heap with those of another that they correspond to. -/
abbrev Places := Addr → Addr → Prop

/-- The same environments are in sight. -/
def SightMoved (R : Places) (σ σ' : Sight) : Prop :=
  ∀ p, Option.Rel R (σ.find? p) (σ'.find? p)

/-- Two values that differ in where the environments lie that closures keep. -/
abbrev Moved (R : Places) : Val → Val → Prop :=
  Value.Alike fun _ held held' => held.closure = held'.closure ∧ SightMoved R held.sight held'.sight

/-- Variables with such values. -/
def VarsMoved (R : Places) (xs xs' : SortedMap VarId Val) : Prop :=
  ∀ v, Option.Rel (Moved R) (xs.find? v) (xs'.find? v)

/-- Two stores that differ in where environments lie, and in what has not been entered side by
side. -/
structure Beside (R : Places) (s s' : Store) : Prop where
  /-- Environments at addresses that correspond have the same values. -/
  slots : ∀ a a', R a a' → ∃ i i', s.heap[a]? = some i ∧ s'.heap[a']? = some i' ∧
    VarsMoved R i.slots i'.slots
  /-- One address corresponds to one. -/
  apart : ∀ a a' b b', R a a' → R b b' → (a = b ↔ a' = b')
  globals : ∀ name, Option.Rel (Moved R) (s.globals.find? name) (s'.globals.find? name)
  depth : s.depth = s'.depth
  sight : SightMoved R s.sight s'.sight
  locals : VarsMoved R s.locals s'.locals

/-- More addresses correspond. -/
def Places.Within (R R' : Places) : Prop :=
  ∀ a a', R a a' → R' a a'

variable {R R' R'' : Places} {s s' : Store} {α β γ δ : Type}

/-! ## More addresses -/

/-- What is related stays so when more is. -/
theorem rel_mono {S S' : α → β → Prop} {o : Option α} {o' : Option β} (h : Option.Rel S o o')
    (hS : ∀ a b, S a b → S' a b) : Option.Rel S' o o' := by
  cases h with
  | none => exact .none
  | some h => exact .some (hS _ _ h)

/-- The same addresses correspond. -/
theorem Places.Within.refl (R : Places) : R.Within R :=
  fun _ _ => id

/-- More correspond than those that were more already. -/
theorem Places.Within.trans (h : R.Within R') (h' : R'.Within R'') : R.Within R'' :=
  fun a a' ha => h' a a' (h a a' ha)

/-- The same environments stay in sight. -/
theorem SightMoved.mono {σ σ' : Sight} (h : SightMoved R σ σ') (hR : R.Within R') :
    SightMoved R' σ σ' :=
  fun p => rel_mono (h p) hR

/-- Values stay the same. -/
theorem moved_mono {x x' : Val} (h : Moved R x x') (hR : R.Within R') : Moved R' x x' :=
  h.imp fun _ _ _ hheld => ⟨hheld.1, hheld.2.mono hR⟩

/-- Variables keep the same values. -/
theorem VarsMoved.mono {xs xs' : SortedMap VarId Val} (h : VarsMoved R xs xs') (hR : R.Within R') :
    VarsMoved R' xs xs' :=
  fun v => rel_mono (h v) fun _ _ hx => moved_mono hx hR

/-! ## Changes of a store -/

/-- One more pair of keys. -/
theorem rel_insert {κ : Type} [Ord κ] [Std.LawfulEqOrd κ] {S : α → β → Prop} {m : SortedMap κ α}
    {m' : SortedMap κ β} (h : ∀ k, Option.Rel S (m.find? k) (m'.find? k)) (k : κ) {x : α} {x' : β}
    (hx : S x x') (l : κ) : Option.Rel S ((m.insert k x).find? l) ((m'.insert k x').find? l) := by
  rw [SortedMap.find?_insert, SortedMap.find?_insert]
  split
  · exact .some hx
  · exact h l

/-- A map of pairs with related values. -/
theorem rel_ofList_zip {S : α → β → Prop} (params : List VarId) {xs : List α} {xs' : List β}
    (h : List.Forall₂ S xs xs') (v : VarId) : Option.Rel S
      ((SortedMap.ofList (params.zip xs)).find? v) ((SortedMap.ofList (params.zip xs')).find? v) := by
  refine SortedMap.rel_foldl_insert ?_ v [] [] .none
  induction h generalizing params with
  | nil => cases params <;> exact .nil
  | cons hx _ ih =>
    cases params with
    | nil => exact .nil
    | cons p params => exact .cons ⟨rfl, hx⟩ (ih params)

/-- The making of an empty environment leaves all that was there. -/
theorem kept_bindEmpty (s : Store) (b : Option ClosureBinding) :
    (∀ (a : Addr) i, s.heap[a]? = some i → (s.bindEmpty b).heap[a]? = some i) ∧
      (s.bindEmpty b).globals = s.globals ∧ (s.bindEmpty b).depth = s.depth ∧
      (s.bindEmpty b).sight = s.sight ∧ (s.bindEmpty b).locals = s.locals := by
  have hpush (j : Instance) (a : Addr) (i : Instance) (hi : s.heap[a]? = some i) :
      (s.heap.push j)[a]? = some i := by
    rw [Array.getElem?_push, if_neg (Array.getElem?_eq_some_iff.mp hi).1.ne]
    exact hi
  unfold Store.bindEmpty
  split
  · split
    · exact ⟨fun _ _ => id, rfl, rfl, rfl, rfl⟩
    · exact ⟨hpush _, rfl, rfl, rfl, rfl⟩
  · exact ⟨hpush _, rfl, rfl, rfl, rfl⟩
  all_goals exact ⟨fun _ _ => id, rfl, rfl, rfl, rfl⟩

namespace Beside

/-- A variable has the same value. -/
theorem read? (h : Beside R s s') (ps : PlanTable) (v : VarId) :
    Option.Rel (Moved R) (s.read? ps v) (s'.read? ps v) := by
  unfold Store.read? Store.holder?
  cases ps.varPlan.find? v with
  | none => exact h.locals v
  | some p =>
    have hsight := h.sight p
    dsimp only [Option.bind_eq_bind]
    generalize s.sight.find? p = a at hsight
    generalize s'.sight.find? p = a' at hsight
    cases hsight with
    | none => exact .none
    | some ha =>
      obtain ⟨i, i', hi, hi', hslots⟩ := h.slots _ _ ha
      rw [Option.bind_some, Option.bind_some, hi, hi']
      exact hslots v

/-- A slot is written. -/
theorem store (h : Beside R s s') {a a' : Addr} (ha : R a a') (v : VarId) {x x' : Val}
    (hx : Moved R x x') : Beside R (s.store a v x) (s'.store a' v x') := by
  refine ⟨fun b b' hb => ?_, h.apart, h.globals, h.depth, h.sight, h.locals⟩
  obtain ⟨i, i', hi, hi', hslots⟩ := h.slots b b' hb
  unfold Store.store
  dsimp only
  rw [Array.getElem?_modify, Array.getElem?_modify, hi, hi']
  by_cases hab : a = b
  · rw [if_pos hab, if_pos ((h.apart a a' b b' ha hb).mp hab)]
    exact ⟨_, _, rfl, rfl, rel_insert hslots v hx⟩
  · rw [if_neg hab, if_neg fun heq => hab ((h.apart a a' b b' ha hb).mpr heq)]
    exact ⟨i, i', rfl, rfl, hslots⟩

/-- A variable is written. -/
theorem write? (h : Beside R s s') (ps : PlanTable) (v : VarId) {x x' : Val} (hx : Moved R x x') :
    Option.Rel (Beside R) (s.write? ps v x) (s'.write? ps v x') := by
  unfold Store.write?
  cases ps.varPlan.find? v with
  | none =>
    exact .some ⟨h.slots, h.apart, h.globals, h.depth, h.sight, rel_insert h.locals v hx⟩
  | some p =>
    have hsight := h.sight p
    dsimp only
    generalize s.sight.find? p = a at hsight
    generalize s'.sight.find? p = a' at hsight
    cases hsight with
    | none => exact .none
    | some ha => exact .some (h.store ha v hx)

/-- A global is written. -/
theorem writeGlobal (h : Beside R s s') (name : String) {x x' : Val} (hx : Moved R x x') :
    Beside R { s with globals := s.globals.insert name x }
      { s' with globals := s'.globals.insert name x' } :=
  ⟨h.slots, h.apart, rel_insert h.globals name hx, h.depth, h.sight, h.locals⟩

/-- What is in sight changes. -/
theorem withSight (h : Beside R s s') {σ σ' : Sight} (hσ : SightMoved R σ σ') :
    Beside R { s with sight := σ } { s' with sight := σ' } :=
  ⟨h.slots, h.apart, h.globals, h.depth, hσ, h.locals⟩

/-- Empty environments need not correspond. -/
theorem bindEmpty (h : Beside R s s') (b : Option ClosureBinding) :
    Beside R (s.bindEmpty b) (s'.bindEmpty b) := by
  obtain ⟨hheap, hglobals, hdepth, hsight, hlocals⟩ := kept_bindEmpty s b
  obtain ⟨hheap', hglobals', hdepth', hsight', hlocals'⟩ := kept_bindEmpty s' b
  refine ⟨fun a a' ha => ?_, h.apart, ?_, ?_, ?_, ?_⟩
  · obtain ⟨i, i', hi, hi', hslots⟩ := h.slots a a' ha
    exact ⟨i, i', hheap a i hi, hheap' a' i' hi', hslots⟩
  · rw [hglobals, hglobals']
    exact h.globals
  · rw [hdepth, hdepth', h.depth]
  · rw [hsight, hsight']
    exact h.sight
  · rw [hlocals, hlocals']
    exact h.locals

/-- Scopes are entered side by side. -/
theorem enter (h : Beside R s s') (ps : PlanTable) (scope : ScopeId) (params : List VarId) :
    ∃ R', R.Within R' ∧ Beside R' (s.enter ps scope params) (s'.enter ps scope params) := by
  unfold Store.enter
  cases Store.planAt? ps scope with
  | none => exact ⟨R, .refl R, h⟩
  | some p =>
    let R' : Places := fun a a' => R a a' ∨ a = s.heap.size ∧ a' = s'.heap.size
    -- The two new environments are added to the pairs, and no older place is either of them.
    have hR : R.Within R' := fun _ _ => .inl
    have hold (a a' : Addr) (ha : R a a') : a < s.heap.size ∧ a' < s'.heap.size := by
      obtain ⟨i, i', hi, hi', -⟩ := h.slots a a' ha
      exact ⟨(Array.getElem?_eq_some_iff.mp hi).1, (Array.getElem?_eq_some_iff.mp hi').1⟩
    have hgiven : VarsMoved R (s.given p params) (s'.given p params) := fun v => by
      rw [find?_given, find?_given]
      split
      · exact h.locals v
      · exact .none
    refine ⟨R', hR, fun a a' ha => ?_, fun a a' b b' ha hb => ?_, fun name => ?_, h.depth,
      rel_insert (h.sight.mono hR) p.id (.inr ⟨rfl, rfl⟩), h.locals.mono hR⟩
    · rcases ha with ha | ⟨rfl, rfl⟩
      · obtain ⟨i, i', hi, hi', hslots⟩ := h.slots a a' ha
        obtain ⟨hlt, hlt'⟩ := hold a a' ha
        refine ⟨i, i', ?_, ?_, hslots.mono hR⟩
        · rwa [Array.getElem?_push, if_neg hlt.ne]
        · rwa [Array.getElem?_push, if_neg hlt'.ne]
      · exact ⟨_, _, Array.getElem?_push_size, Array.getElem?_push_size, hgiven.mono hR⟩
    · rcases ha with ha | ⟨rfl, rfl⟩ <;> rcases hb with hb | ⟨rfl, rfl⟩
      · exact h.apart a a' b b' ha hb
      · obtain ⟨hlt, hlt'⟩ := hold a a' ha
        exact ⟨fun heq => absurd heq hlt.ne, fun heq => absurd heq hlt'.ne⟩
      · obtain ⟨hlt, hlt'⟩ := hold b b' hb
        exact ⟨fun heq => absurd heq.symm hlt.ne, fun heq => absurd heq.symm hlt'.ne⟩
      · simp
    · exact rel_mono (h.globals name) fun _ _ hx => moved_mono hx hR

end Beside

/-! ## Ends -/

/-- Two evaluations have ended in the same way, with results of which `A` holds. Addresses that
corresponded before still do. -/
inductive Track (R : Places) (A : Places → α → β → Prop) :
    Except (Stop Held) α × Store → Except (Stop Held) β × Store → Prop where
  | ok {R' : Places} {a : α} {b : β} {s s' : Store} (hR : R.Within R') (h : Beside R' s s')
      (ha : A R' a b) : Track R A (.ok a, s) (.ok b, s')
  | returned {R' : Places} {x x' : Val} {s s' : Store} (hR : R.Within R') (h : Beside R' s s')
      (hx : Moved R' x x') : Track R A (.error (.returned x), s) (.error (.returned x'), s')
  | failed (e : RunError) (s s' : Store) : Track R A (.error (.failed e), s) (.error (.failed e), s')
  | outOfFuel (s s' : Store) : Track R A (.error .outOfFuel, s) (.error .outOfFuel, s')

namespace Track

variable {A : Places → α → β → Prop} {B : Places → γ → δ → Prop}

/-- What corresponds at first may be less. -/
theorem of_within {p : Except (Stop Held) α × Store} {p' : Except (Stop Held) β × Store}
    (h : Track R' A p p') (hR : R.Within R') : Track R A p p' := by
  cases h with
  | ok hR' h ha => exact .ok (hR.trans hR') h ha
  | returned hR' h hx => exact .returned (hR.trans hR') h hx
  | failed e s s' => exact .failed e s s'
  | outOfFuel s s' => exact .outOfFuel s s'

/-- Steps, one after the other. -/
theorem bind {x : Eval α} {x' : Eval β} {f : α → Eval γ} {f' : β → Eval δ}
    (h : Track R A (x s) (x' s'))
    (hf : ∀ R' a b t t', R.Within R' → Beside R' t t' → A R' a b → Track R' B (f a t) (f' b t')) :
    Track R B ((x >>= f) s) ((x' >>= f') s') := by
  generalize hp : x s = p at h
  generalize hp' : x' s' = p' at h
  cases h with
  | ok hR h ha =>
    rw [Exec.bind_of_ok hp, Exec.bind_of_ok hp']
    exact (hf _ _ _ _ _ hR h ha).of_within hR
  | returned hR h hx =>
    rw [Exec.bind_of_error hp, Exec.bind_of_error hp']
    exact .returned hR h hx
  | failed e s s' =>
    rw [Exec.bind_of_error hp, Exec.bind_of_error hp']
    exact .failed e s s'
  | outOfFuel s s' =>
    rw [Exec.bind_of_error hp, Exec.bind_of_error hp']
    exact .outOfFuel s s'

/-- Something is done to the stores in the end. -/
theorem atEnd {p : Except (Stop Held) α × Store} {p' : Except (Stop Held) β × Store}
    (f f' : Store → Store) (h : Track R A p p')
    (hf : ∀ R' t t', R.Within R' → Beside R' t t' → Beside R' (f t) (f' t')) :
    Track R A (p.1, f p.2) (p'.1, f' p'.2) := by
  cases h with
  | ok hR h ha => exact .ok hR (hf _ _ _ hR h) ha
  | returned hR h hx => exact .returned hR (hf _ _ _ hR h) hx
  | failed e s s' => exact .failed e _ _
  | outOfFuel s s' => exact .outOfFuel _ _

/-- A body whose returns count as values. -/
theorem returning {x x' : Eval Val} (h : Track R Moved (x s) (x' s')) :
    Track R Moved (Exec.returning x s) (Exec.returning x' s') := by
  rw [Exec.returning_run, Exec.returning_run]
  generalize x s = p at h
  generalize x' s' = p' at h
  cases h with
  | ok hR h hx => exact .ok hR h hx
  | returned hR h hx => exact .ok hR h hx
  | failed e s s' => exact .failed e s s'
  | outOfFuel s s' => exact .outOfFuel s s'

/-- The result of an operator. -/
theorem ofExcept (hs : Beside R s s') {x x' : Except RunError Val} (h : SameResult x x') :
    Track R Moved (Exec.ofExcept x s) (Exec.ofExcept x' s') := by
  cases h with
  | int n => exact .ok (.refl R) hs (.int n)
  | bool b => exact .ok (.refl R) hs (.bool b)
  | str t => exact .ok (.refl R) hs (.str t)
  | error e _ => exact .failed e s s'

/-- A branch that depends on a condition. -/
theorem branch {test yes no test' yes' no' : Eval Val} (h : Track R Moved (test s) (test' s'))
    (hyes : ∀ R' t t', R.Within R' → Beside R' t t' → Track R' Moved (yes t) (yes' t'))
    (hno : ∀ R' t t', R.Within R' → Beside R' t t' → Track R' Moved (no t) (no' t')) :
    Track R Moved (Exec.branch test yes no s) (Exec.branch test' yes' no' s') := by
  refine h.bind fun R' v v' t t' hR ht hv => ?_
  cases hv with
  | bool b =>
    cases b with
    | true => exact hyes R' t t' hR ht
    | false => exact hno R' t t' hR ht
  | _ => exact .failed _ _ _

/-- A loop. -/
theorem iterate {test body test' body' : Eval Val}
    (htest : ∀ R' t t', R.Within R' → Beside R' t t' → Track R' Moved (test t) (test' t'))
    (hbody : ∀ R' t t', R.Within R' → Beside R' t t' → Track R' Moved (body t) (body' t'))
    (bound : Nat) : ∀ R' t t', R.Within R' → Beside R' t t' → Track R' (fun _ _ _ => True)
      (Exec.iterate test body bound t) (Exec.iterate test' body' bound t') := by
  induction bound with
  | zero => exact fun R' t t' _ _ => .outOfFuel t t'
  | succ bound ih =>
    intro R₁ t t' hR ht
    refine (htest R₁ t t' hR ht).bind fun R₂ v v' t₂ t₂' hR₂ ht₂ hv => ?_
    cases hv with
    | bool b =>
      cases b with
      | true =>
        exact (hbody R₂ t₂ t₂' (hR.trans hR₂) ht₂).bind fun R₃ _ _ t₃ t₃' hR₃ ht₃ _ =>
          ih R₃ t₃ t₃' ((hR.trans hR₂).trans hR₃) ht₃
      | false => exact .ok (.refl _) ht₂ trivial
    | _ => exact .failed _ _ _

/-- An operator of two operands. -/
theorem binary {v v' : Val} {rhs rhs' : Eval Val} (op : Syntax.BinaryOp) (hs : Beside R s s')
    (hv : Moved R v v') (h : Track R Moved (rhs s) (rhs' s')) :
    Track R Moved (Exec.binary op v rhs s) (Exec.binary op v' rhs' s') := by
  unfold Exec.binary
  cases hd : decisive? op with
  | none =>
    exact h.bind fun R' w w' t t' hR ht hw => ofExcept ht ((moved_mono hv hR).binary hw op)
  | some d =>
    cases hv with
    | bool b =>
      dsimp only
      split
      · exact .ok (.refl R) hs (.bool b)
      · refine h.bind fun R' w w' t t' hR ht hw => ?_
        cases hw with
        | bool b => exact .ok (.refl R') ht (.bool b)
        | _ => exact .failed _ _ _
    | _ => exact .failed _ _ _

/-- Evaluations that end in the same way have one outcome. -/
theorem outcome_eq {p p' : Except (Stop Held) Val × Store} (h : Track R Moved p p') :
    Outcome.of p.1 = Outcome.of p'.1 := by
  cases h with
  | ok hR h hx => exact congrArg Outcome.value hx.text_eq
  | returned hR h hx => exact congrArg Outcome.value hx.text_eq
  | failed e s s' => rfl
  | outOfFuel s s' => rfl

/-- A block. -/
theorem inBlock (hs : Beside R s s') {ps : PlanTable} {scope : Option ScopeId}
    {params : List VarId} {body : Eval Val}
    (h : ∀ R' t t', R.Within R' → Beside R' t t' → Track R' Moved (body t) (body t')) :
    Track R Moved (inBlock ps scope params body s) (inBlock ps scope params body s') := by
  have hback (R' : Places) (t t' : Store) (hR : R.Within R') (ht : Beside R' t t') :
      Beside R' { t with sight := s.sight } { t' with sight := s'.sight } :=
    ht.withSight (hs.sight.mono hR)
  cases scope with
  | none => exact (h R s s' (.refl R) hs).atEnd _ _ hback
  | some scope =>
    obtain ⟨R₁, hR₁, hentered⟩ := hs.enter ps scope params
    exact ((h R₁ _ _ hR₁ hentered).of_within hR₁).atEnd _ _ hback

/-- A body with environments and variables of its own. -/
theorem inFrame (hs : Beside R s s') {σ σ' : Sight} {locals locals' : SortedMap VarId Val}
    (hσ : SightMoved R σ σ') (hlocals : VarsMoved R locals locals') {body : Eval Val}
    (h : ∀ R' t t', R.Within R' → Beside R' t t' → Track R' Moved (body t) (body t')) :
    Track R Moved (inFrame σ locals body s) (inFrame σ' locals' body s') := by
  have hstart : Beside R { s with sight := σ, locals } { s' with sight := σ', locals := locals' } :=
    ⟨hs.slots, hs.apart, hs.globals, hs.depth, hσ, hlocals⟩
  exact (h R _ _ (.refl R) hstart).returning.atEnd
    (fun t => { t with sight := s.sight, locals := s.locals })
    (fun t => { t with sight := s'.sight, locals := s'.locals }) fun R' t t' hR ht =>
      ⟨ht.slots, ht.apart, ht.globals, ht.depth, hs.sight.mono hR, hs.locals.mono hR⟩

/-- Counted calls. -/
theorem counted (hs : Beside R s s') {body body' : Eval Val}
    (h : ∀ n, Track R Moved (body { s with depth := n }) (body' { s' with depth := n })) :
    Track R Moved (counted body s) (counted body' s') := by
  unfold Lasting.counted
  dsimp only
  rw [← hs.depth]
  by_cases hdepth : s.depth + 1 > maxCallDepth
  · rw [if_pos hdepth, if_pos hdepth]
    exact .failed _ _ _
  · rw [if_neg hdepth, if_neg hdepth]
    exact (h (s.depth + 1)).atEnd (fun t => { t with depth := t.depth - 1 })
      (fun t => { t with depth := t.depth - 1 }) fun R' t t' _ ht =>
        ⟨ht.slots, ht.apart, ht.globals, congrArg (· - 1) ht.depth, ht.sight, ht.locals⟩

end Track

/-! ## Bodies -/

/-- Calls with values that are the same but for where environments lie end in the same way. -/
def CallTracks (call : Val → List Val → Eval Val) : Prop :=
  ∀ R s s' x x' xs xs', Beside R s s' → Moved R x x' → List.Forall₂ (Moved R) xs xs' →
    Track R Moved (call x xs s) (call x' xs' s')

section

variable {c : Context}

/-- A variable is read. -/
theorem readVar_track (t : ScopeTree) (ps : PlanTable) (v : VarId) (hs : Beside R s s') :
    Track R Moved (readVar t ps v s) (readVar t ps v s') := by
  unfold readVar
  rw [Exec.get_bind, Exec.get_bind]
  have hread := hs.read? ps v
  generalize s.read? ps v = x at hread
  generalize s'.read? ps v = x' at hread
  cases hread with
  | none => exact .failed _ _ _
  | some hx => exact .ok (.refl R) hs hx

/-- A variable is written. -/
theorem writeVar_track (t : ScopeTree) (ps : PlanTable) (v : VarId) {x x' : Val}
    (hs : Beside R s s') (hx : Moved R x x') :
    Track R (fun _ _ _ => True) (writeVar t ps v x s) (writeVar t ps v x' s') := by
  unfold writeVar
  rw [Exec.get_bind, Exec.get_bind]
  have hwrite := hs.write? ps v hx
  generalize s.write? ps v x = w at hwrite
  generalize s'.write? ps v x' = w' at hwrite
  cases hwrite with
  | none => exact .failed _ _ _
  | some hw => exact .ok (.refl R) hw trivial

/-- A global is read. -/
theorem readGlobal_track (name : String) (hs : Beside R s s') :
    Track R Moved (readGlobal name s) (readGlobal name s') := by
  unfold readGlobal
  rw [Exec.get_bind, Exec.get_bind]
  have hread := hs.globals name
  generalize s.globals.find? name = x at hread
  generalize s'.globals.find? name = x' at hread
  cases hread with
  | none => exact .failed _ _ _
  | some hx => exact .ok (.refl R) hs hx

/-- A global that has a value is written. -/
theorem assignGlobal_track (name : String) {x x' : Val} (hs : Beside R s s') (hx : Moved R x x') :
    Track R (fun _ _ _ => True) (assignGlobal name x s) (assignGlobal name x' s') := by
  unfold assignGlobal SortedMap.contains
  rw [Exec.get_bind, Exec.get_bind]
  have hread := hs.globals name
  generalize s.globals.find? name = y at hread
  generalize s'.globals.find? name = y' at hread
  cases hread with
  | none => exact .failed _ _ _
  | some _ => exact .ok (.refl R) (hs.writeGlobal name hx) trivial

/-- A closure is made. -/
theorem close_track (t : ScopeTree) (ps : PlanTable) (k : ClosureId) (hs : Beside R s s') :
    Track R Moved (close t ps k s) (close t ps k s') := by
  have hmade := hs.bindEmpty (ps.bindings.find? k)
  exact .ok (.refl R) hmade (.closure ⟨rfl, hmade.sight⟩)

mutual

/-- Expressions end in the same way. -/
theorem expr_track (hc : CallTracks c.call) : ∀ (e : Bound.Expr) {R s s'}, Beside R s s' →
    Track R Moved (c.expr e s) (c.expr e s')
  | .lit l, R, s, s', hs => by
    rw [Context.expr]
    exact .ok (.refl R) hs ((Value.Data.ofLiteral l).alike _)
  | .var v, R, s, s', hs => by
    rw [Context.expr]
    exact readVar_track _ _ v hs
  | .global name, R, s, s', hs => by
    rw [Context.expr]
    exact readGlobal_track name hs
  | .fn name, R, s, s', hs => by
    rw [Context.expr]
    exact .ok (.refl R) hs (.fn name)
  | .unary op e, R, s, s', hs => by
    rw [Context.expr]
    exact (expr_track hc e hs).bind fun R' v v' t t' _ ht hv => .ofExcept ht (hv.unary op)
  | .binary op l r, R, s, s', hs => by
    rw [Context.expr]
    exact (expr_track hc l hs).bind fun R' v v' t t' _ ht hv => .binary op ht hv (expr_track hc r ht)
  | .call f es, R, s, s', hs => by
    rw [Context.expr]
    refine (expr_track hc f hs).bind fun R₁ v v' t t' _ ht hv => ?_
    refine (exprs_track hc es ht).bind fun R₂ xs xs' u u' hR hu hxs => ?_
    exact hc R₂ u u' v v' xs xs' hu (moved_mono hv hR) hxs
  | .block b, R, s, s', hs => by
    rw [Context.expr]
    exact block_track hc b hs
  | .cond e yes no, R, s, s', hs => by
    rw [Context.expr]
    exact .branch (expr_track hc e hs) (fun R' t t' _ ht => block_track hc yes ht)
      fun R' t t' _ ht => option_track hc no ht
  | .loop e b, R, s, s', hs => by
    rw [Context.expr]
    exact (Track.iterate (fun R' t t' _ ht => expr_track hc e ht)
      (fun R' t t' _ ht => block_track hc b ht) c.turns R s s' (.refl R) hs).bind fun R' _ _ t t' _ ht _ => .ok (.refl R') ht .unit
  | .closure k, R, s, s', hs => by
    rw [Context.expr]
    exact close_track _ _ k hs

/-- Optional expressions end in the same way. -/
theorem option_track (hc : CallTracks c.call) : ∀ (e : Option Bound.Expr) {R s s'}, Beside R s s' →
    Track R Moved (c.option e s) (c.option e s')
  | none, R, s, s', hs => by
    rw [Context.option]
    exact .ok (.refl R) hs .unit
  | some e, R, s, s', hs => by
    rw [Context.option]
    exact expr_track hc e hs

/-- Arguments end in the same way. -/
theorem exprs_track (hc : CallTracks c.call) : ∀ (es : List Bound.Expr) {R s s'}, Beside R s s' →
    Track R (fun R' => List.Forall₂ (Moved R')) (c.exprs es s) (c.exprs es s')
  | [], R, s, s', hs => by
    rw [Context.exprs]
    exact .ok (.refl R) hs .nil
  | e :: es, R, s, s', hs => by
    rw [Context.exprs]
    refine (expr_track hc e hs).bind fun R₁ v v' t t' _ ht hv => ?_
    exact (exprs_track hc es ht).bind fun R₂ xs xs' u u' hR hu hxs =>
      .ok (.refl R₂) hu (.cons (moved_mono hv hR) hxs)

/-- Blocks end in the same way. -/
theorem block_track (hc : CallTracks c.call) : ∀ (b : Bound.Block) {R s s'}, Beside R s s' →
    Track R Moved (c.block b s) (c.block b s')
  | .mk scope ss tail, R, s, s', hs => by
    rw [Context.block]
    refine Track.inBlock hs fun R₁ t t' _ ht => ?_
    exact (stmts_track hc ss ht).bind fun R₂ _ _ u u' _ hu _ => option_track hc tail hu

/-- Statements end in the same way. -/
theorem stmt_track (hc : CallTracks c.call) : ∀ (x : Bound.Stmt) {R s s'}, Beside R s s' →
    Track R (fun _ _ _ => True) (c.stmt x s) (c.stmt x s')
  | .bind v e, R, s, s', hs => by
    rw [Context.stmt]
    exact (expr_track hc e hs).bind fun R' x x' t t' _ ht hx => writeVar_track _ _ v ht hx
  | .assign (.var v) e, R, s, s', hs => by
    rw [Context.stmt]
    exact (expr_track hc e hs).bind fun R' x x' t t' _ ht hx => writeVar_track _ _ v ht hx
  | .assign (.global name) e, R, s, s', hs => by
    rw [Context.stmt]
    exact (expr_track hc e hs).bind fun R' x x' t t' _ ht hx => assignGlobal_track name ht hx
  | .expr e, R, s, s', hs => by
    rw [Context.stmt]
    exact (expr_track hc e hs).bind fun R' _ _ t t' _ ht _ => .ok (.refl R') ht trivial
  | .ret e, R, s, s', hs => by
    rw [Context.stmt]
    exact (option_track hc e hs).bind fun R' x x' t t' _ ht hx => .returned (.refl R') ht hx

/-- Sequences of statements end in the same way. -/
theorem stmts_track (hc : CallTracks c.call) : ∀ (xs : List Bound.Stmt) {R s s'}, Beside R s s' →
    Track R (fun _ _ _ => True) (c.stmts xs s) (c.stmts xs s')
  | [], R, s, s', hs => by
    rw [Context.stmts]
    exact .ok (.refl R) hs trivial
  | x :: xs, R, s, s', hs => by
    rw [Context.stmts]
    exact (stmt_track hc x hs).bind fun R' _ _ t t' _ ht _ => stmts_track hc xs ht

end

/-! ## Calls -/

/-- Parameters get arguments that are the same. -/
theorem varsMoved_ofList_zip (params : List VarId) {xs xs' : List Val}
    (h : List.Forall₂ (Moved R) xs xs') :
    VarsMoved R (.ofList (params.zip xs)) (.ofList (params.zip xs')) :=
  rel_ofList_zip params h

/-- Functions end in the same way. -/
theorem function_track (hc : CallTracks c.call) (f : Function) (hs : Beside R s s')
    {xs xs' : List Val} (hxs : List.Forall₂ (Moved R) xs xs') :
    Track R Moved (c.function f xs s) (c.function f xs' s') := by
  unfold Context.function
  rw [hxs.length_eq]
  split
  · exact .failed _ _ _
  · exact .inFrame hs (fun _ => .none) (varsMoved_ofList_zip f.params hxs) fun R' t t' _ ht =>
      .inBlock ht fun R'' u u' _ hu => block_track hc f.body hu

/-- Closures end in the same way. -/
theorem closure_track (hc : CallTracks c.call) (k : Closure) (hs : Beside R s s') {σ σ' : Sight}
    (hσ : SightMoved R σ σ') {xs xs' : List Val} (hxs : List.Forall₂ (Moved R) xs xs') :
    Track R Moved (c.closure k σ xs s) (c.closure k σ' xs' s') := by
  unfold Context.closure
  rw [hxs.length_eq]
  split
  · exact .failed _ _ _
  · exact .inFrame hs hσ (varsMoved_ofList_zip k.params hxs) fun R' t t' _ ht =>
      .inBlock ht fun R'' u u' _ hu => expr_track hc k.body hu

/-- Whatever a value stands for ends in the same way. -/
theorem apply_track (hc : CallTracks c.call) : CallTracks c.apply := by
  intro R s s' x x' xs xs' hs hx hxs
  have htext : x.text = x'.text := hx.text_eq
  cases hx with
  | fn name =>
    unfold Context.apply
    dsimp only
    cases c.function? name with
    | none => exact .failed _ _ _
    | some f => exact function_track hc f hs hxs
  | @closure name held held' hheld =>
    unfold Context.apply
    dsimp only
    rw [← hheld.1]
    cases c.tree.closures[held.closure]? with
    | none => exact .failed _ _ _
    | some k => exact closure_track hc k hs hheld.2 hxs
  | _ =>
    unfold Context.apply
    dsimp only
    rw [htext]
    exact .failed _ _ _

end

/-- Calls end in the same way, however much fuel there is. -/
theorem call_track (t : ScopeTree) (ps : PlanTable) (fuel : Nat) : CallTracks (call t ps fuel) := by
  induction fuel with
  | zero => exact fun R s s' _ _ _ _ _ _ _ => .outOfFuel s s'
  | succ fuel ih =>
    intro R s s' x x' xs xs' hs hx hxs
    refine Track.counted hs fun n => ?_
    have hcounted : Beside R { s with depth := n } { s' with depth := n } :=
      ⟨hs.slots, hs.apart, hs.globals, rfl, hs.sight, hs.locals⟩
    exact apply_track ih R _ _ x x' xs xs' hcounted hx hxs

/-! ## Trees -/

/-- Globals get their initial values in the same way. -/
theorem initGlobals_track (t : ScopeTree) (ps : PlanTable) (fuel : Nat) (hs : Beside R s s') :
    Track R (fun _ _ _ => True) (initGlobals t ps fuel s) (initGlobals t ps fuel s') := by
  unfold initGlobals
  generalize t.globals.toList = gs
  induction gs generalizing R s s' with
  | nil => exact .ok (.refl R) hs trivial
  | cons g gs ih =>
    have hempty : VarsMoved R [] [] := fun _ => .none
    have hinit : Track R Moved (inFrame [] [] ((context t ps fuel).expr g.init) s)
        (inFrame [] [] ((context t ps fuel).expr g.init) s') :=
      .inFrame hs (fun _ => .none) hempty fun R' u u' _ hu =>
        expr_track (c := context t ps fuel) (call_track t ps fuel) g.init hu
    rw [List.forM]
    refine Track.bind (A := fun _ _ _ => True) ?_ fun R' _ _ u u' _ hu _ => ih hu
    exact hinit.bind fun R' x x' u u' _ hu hx => .ok (.refl R') (hu.writeGlobal g.name hx) trivial

/-- Where environments lie does not matter for how a tree runs. -/
theorem runTree_track (t : ScopeTree) (ps : PlanTable) (fuel : Nat) (hs : Beside R s s') :
    Track R Moved (runTree t ps fuel s) (runTree t ps fuel s') := by
  unfold runTree
  refine (initGlobals_track t ps fuel hs).bind fun R' _ _ u u' _ hu _ => ?_
  cases (context t ps fuel).function? "main" with
  | none => exact .failed _ _ _
  | some main =>
    dsimp only
    split
    · exact function_track (call_track t ps fuel) main hu .nil
    · exact .failed _ _ _

/-- A tree runs in the same way whatever has been left on the heap. -/
theorem outcome_runTree_left (t : ScopeTree) (ps : PlanTable) (fuel : Nat) (heap : Array Instance)
    (built : SortedMap PlanId Addr) :
    Outcome.of (runTree t ps fuel { Store.start with heap, singletons := built }).1 =
      Outcome.of (runTree t ps fuel .start).1 := by
  have hbeside : Beside (fun _ _ => False) { Store.start with heap, singletons := built } .start :=
    ⟨fun _ _ h => h.elim, fun _ _ _ _ h => h.elim, fun _ => .none, rfl, fun _ => .none,
      fun _ => .none⟩
  exact (runTree_track t ps fuel hbeside).outcome_eq

end ClosureEnv.Run.Lasting
