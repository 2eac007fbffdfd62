import ClosureEnv.Proofs.Layout.Ledger

/-!
# Layouts along generations

`Generations` are the units that come of lowering one module after another under one name, each with
what the one before leaves as its baseline. A live layout keeps its name as long as it is live, and
nothing that other code has seen of it changes; fields are added at the end only
(`Generations.layouts_grow`).

One lowering mints names that tell its generation, or takes over a layout of the baseline with its
name (`Comes`). So a name that is live twice has been live in between, under one identity. The
shared environment has a name of its own; it is never given up once it is there.
-/

namespace ClosureEnv

/-- The layouts of a unit that are live, by identity: those that it produces and those that it
carries on. -/
def LoweredUnit.live (u : LoweredUnit) : List NamedLayout :=
  u.envs.map (fun e => (e.identity.text, e.layout)) ++ u.carried

/-- Live layouts have the names of what is produced and of what is carried on. -/
theorem LoweredUnit.map_live_name (u : LoweredUnit) : u.live.map (·.2.name) =
    u.envs.map EnvType.name ++ u.carried.map (·.2.name) := by
  rw [live, List.map_append, List.map_map]
  rfl

/-- The next generation has the next number, if there is one. -/
theorem LoweredUnit.nextGeneration_eq {u : LoweredUnit} (h : u.generation + 1 < generationCount) :
    nextGeneration (some u.nextBaseline) = u.generation + 1 :=
  Nat.mod_eq_of_lt h

/-- The units of successive lowerings under one name, the latest first. There are
`generationCount` numbers of generations, and the one after the last is no such number. -/
inductive Generations (unit : String) : List LoweredUnit → Prop where
  | first {m : Syntax.Module} {t : ScopeTree} {options : LowerOptions} {u : LoweredUnit} :
      bindModule m unit = .ok t → lowerUnit t options none = .ok u → Generations unit [u]
  | next {m : Syntax.Module} {t : ScopeTree} {options : LowerOptions} {u v : LoweredUnit}
      {us : List LoweredUnit} : Generations unit (u :: us) → u.generation + 1 < generationCount →
      bindModule m unit = .ok t → lowerUnit t options (some u.nextBaseline) = .ok v →
      Generations unit (v :: u :: us)

/-- A layout and what became of it, as far as other code can see: all is as it was, but for fields
that were added at the end. -/
structure Layout.Grows (l l' : Layout) : Prop where
  kind : l.kind = l'.kind
  parent : l.parent = l'.parent
  isSingleton : l.isSingleton = l'.isSingleton
  isExpandable : l.isExpandable = l'.isExpandable
  mintedIn : l.mintedIn = l'.mintedIn
  fields : l.fields <+: l'.fields

namespace Layout.Grows

variable {l l' l'' : Layout}

/-- Nothing has changed. -/
theorem refl (l : Layout) : l.Grows l :=
  ⟨rfl, rfl, rfl, rfl, rfl, List.prefix_refl _⟩

/-- What became of what a layout became. -/
theorem trans (h : l.Grows l') (h' : l'.Grows l'') : l.Grows l'' :=
  ⟨h.kind.trans h'.kind, h.parent.trans h'.parent, h.isSingleton.trans h'.isSingleton,
    h.isExpandable.trans h'.isExpandable, h.mintedIn.trans h'.mintedIn, h.fields.trans h'.fields⟩

end Layout.Grows

/-- A parent that has not changed. -/
theorem parentChange?_eq_none {a b : Option String} : parentChange? a b = none ↔ a = b := by
  cases a <;> cases b <;> simp [parentChange?]

/-- A layout that fits what is wanted is like it, but for the fields. -/
theorem change?_eq_none {l : Layout} {d : DesiredLayout} (h : change? l d = none) :
    l.kind = d.kind ∧ l.isSingleton = d.isSingleton ∧ l.isExpandable = d.isExpandable ∧
      l.parent = d.parent := by
  unfold change? at h
  split at h
  · cases h
  next hkind =>
  split at h
  · cases h
  next hsingleton =>
  split at h
  · cases h
  next hexpandable =>
  rw [Option.or_eq_none_iff, parentChange?_eq_none] at h
  simp only [bne_iff_ne, ne_eq, not_not] at hkind hsingleton hexpandable
  exact ⟨hkind, hsingleton, hexpandable, h.1⟩

/-- The layout of the environment that closures without captures share. -/
structure Layout.IsShared (l : Layout) : Prop where
  name : l.name = Name.sharedStaticEnv
  kind : l.kind = .reference
  isSingleton : l.isSingleton = true
  isExpandable : l.isExpandable = false
  parent : l.parent = none

/-- A layout that is live in a generation: it is the shared one, or its name was minted in the
generation that it says, which is none of those to come. -/
inductive Aged (g : Nat) : NamedLayout → Prop where
  | minted (i : String) (l : Layout) : i ≠ EnvIdentity.static.text →
      Name.Minted l.mintedIn l.name → l.mintedIn ≤ g → Aged g (i, l)
  | shared (l : Layout) : l.IsShared → Aged g (EnvIdentity.static.text, l)

/-- What is live in a generation would be in later ones. -/
theorem Aged.mono {g g' : Nat} (hg : g ≤ g') {e : NamedLayout} (h : Aged g e) : Aged g' e := by
  cases h with
  | minted i l hi hminted hle => exact .minted i l hi hminted (Nat.le_trans hle hg)
  | shared l hl => exact .shared l hl

/-- A layout that has grown is as old as it was. -/
theorem Aged.grows {g : Nat} {i : String} {l l' : Layout} (h : Aged g (i, l))
    (hname : l.name = l'.name) (hgrows : l.Grows l') : Aged g (i, l') := by
  cases h with
  | minted _ _ hi hminted hle =>
    exact .minted i l' hi (hname ▸ hgrows.mintedIn ▸ hminted) (hgrows.mintedIn ▸ hle)
  | shared _ hl =>
    exact .shared l' ⟨hname ▸ hl.name, hgrows.kind ▸ hl.kind, hgrows.isSingleton ▸ hl.isSingleton,
      hgrows.isExpandable ▸ hl.isExpandable, hgrows.parent ▸ hl.parent⟩

/-- The name of the shared layout is that of no other. -/
theorem Aged.eq_static {g : Nat} {e : NamedLayout} (h : Aged g e)
    (hname : e.2.name = Name.sharedStaticEnv) : e.1 = EnvIdentity.static.text := by
  cases h with
  | minted i l _ hminted => exact absurd hname hminted.ne_shared
  | shared l hl => rfl

/-- Live layouts have names of environments. -/
theorem Aged.ofEnv {g : Nat} {e : NamedLayout} (h : Aged g e) : Name.OfEnv e.2.name := by
  cases h with
  | minted i l _ hminted => exact .inr ⟨_, hminted⟩
  | shared l hl => exact .inl hl.name

/-- A name that a later generation mints is not there. -/
theorem Aged.ne_of_minted {g g' : Nat} (hg : g < g') {e : NamedLayout} (h : Aged g e) {n : String}
    (hn : Name.Minted g' n) : e.2.name ≠ n := by
  rintro rfl
  cases h with
  | minted i l _ hminted hle => exact Nat.ne_of_lt (Nat.lt_of_le_of_lt hle hg) (hminted.generation hn)
  | shared l hl => exact hn.ne_shared hl.name

/-! ## One lowering -/

/-- Where a live layout of generation `g` comes from, if `prior` are those of the baseline. -/
inductive Comes (g : Nat) (prior : List NamedLayout) : NamedLayout → Prop where
  /-- Its name is new. -/
  | minted (i : String) (l : Layout) : i ≠ EnvIdentity.static.text → Name.Minted g l.name →
      l.mintedIn = g → Comes g prior (i, l)
  /-- It is the shared one, which was not there. -/
  | shared (l : Layout) : l.IsShared → (∀ l', (EnvIdentity.static.text, l') ∉ prior) →
      Comes g prior (EnvIdentity.static.text, l)
  /-- It was there. -/
  | kept (i : String) (l l' : Layout) : (i, l) ∈ prior → l.name = l'.name → l.Grows l' →
      Comes g prior (i, l')

namespace Synthesis

variable {t : ScopeTree} {ps : PlanTable} {options : LowerOptions} {baseline : Option Baseline}
  {generation : Nat} {s : Synthesis} {xs : List Settlement}

/-- The prior layout of a plan is in the baseline, and live. -/
theorem priorOf_eq_some {p : Plan} {l : Layout} (h : priorOf baseline p = some l) :
    (p.identity.text, l) ∈ priorLayouts baseline ∧ l.state = .active := by
  obtain ⟨b, rfl, hb⟩ := Option.bind_eq_some_iff.mp h
  obtain ⟨hl, hactive⟩ := Option.filter_eq_some_iff.mp hb
  exact ⟨SortedMap.mem_of_find? hl, beq_iff_eq.mp hactive⟩

/-- Where all layouts of a baseline are live, a plan has a prior layout if the baseline has one of
its identity. -/
theorem not_mem_of_priorOf {p : Plan} (hactive : ∀ e ∈ priorLayouts baseline, e.2.state = .active)
    (h : priorOf baseline p = none) (l : Layout) : (p.identity.text, l) ∉ priorLayouts baseline := by
  intro hl
  cases baseline with
  | none => cases hl
  | some b =>
    obtain ⟨l', hl'⟩ := Option.isSome_iff_exists.mp (SortedMap.contains_of_mem hl)
    have hfind : b.envs.find? p.identity.text = some l' := hl'
    rw [priorOf, Option.bind_some, Baseline.active?, hfind, Option.filter_some,
      if_pos (beq_iff_eq.mpr (hactive _ (SortedMap.mem_of_find? hl')))] at h
    cases h

/-- A layout that was taken over has grown. -/
theorem grows_of_fit {x : Settlement} {prior : Layout} {appended : List LayoutField}
    (h : Settled t options baseline generation x) (hfit : change? prior (x.desired options) = none)
    (hfields : x.env.fields = keptFields x.plan x.fields prior appended)
    (hgen : x.env.generation = prior.mintedIn) : prior.Grows x.env.layout := by
  rw [h.desired_eq] at hfit
  obtain ⟨hkind, hsingleton, hexpandable, hparent⟩ := change?_eq_none hfit
  exact ⟨hkind, hparent, hsingleton, hexpandable, hgen.symm, appended,
    (fields_of_kept hfields).symm⟩

/-- The plan of the shared environment is empty. -/
theorem isEmpty_of_static (hps : ps.Sound t) {i : Nat} {p : Plan} (hp : ps.plans[i]? = some p)
    (hident : p.identity = .static) : PlanTable.IsEmpty t p ∧ p.isSingleton = true := by
  cases ho : p.origin with
  | some o =>
    obtain ⟨-, sc, -, hident'⟩ := hps.linking.placed.origin i p o hp ho
    cases hident.symm.trans hident'
  | none =>
    have hempty := hps.empty i p hp ho
    rcases hempty.kind with ⟨-, hsingleton⟩ | ⟨f, fn, -, -, hident', -⟩
    · exact ⟨hempty, hsingleton⟩
    · cases hident.symm.trans hident'

namespace Account

/-- The environment of the shared plan has the shared layout, but for the name. -/
theorem shared_env (h : Account t ps options baseline s xs) (hps : ps.Sound t) {x : Settlement}
    (hx : x ∈ xs) (hident : x.plan.identity = .static) : x.env.kind = .reference ∧
      x.env.isSingleton = true ∧ x.env.isExpandable = false ∧ x.env.parent = none ∧
        x.fields = [] := by
  obtain ⟨i, hi, -⟩ := h.exists_position hx
  obtain ⟨hempty, hsingleton⟩ := isEmpty_of_static hps hi hident
  have henv := (h.settled x hx).env
  refine ⟨?_, ?_, ?_, ?_, ?_⟩
  · rw [henv]
    exact hempty.repr
  · rw [henv]
    exact hsingleton
  · rw [henv]
    show (options.incremental && x.plan.repr == .value) = false
    rw [hempty.repr, Bool.and_eq_false_iff]
    exact .inr rfl
  · have hparent := h.parents x hx
    unfold parentName at hparent
    rw [hempty.parent] at hparent
    exact (Except.ok.inj hparent).symm
  · have hfields := (h.settled x hx).fields
    unfold desiredFields at hfields
    rw [hempty.slots] at hfields
    exact (Except.ok.inj hfields).symm

variable (h : Account t ps options baseline s xs) (hps : ps.Sound t)
  (haged : ∀ e ∈ priorLayouts baseline, ∃ g, Aged g e)

include h hps haged

/-- The shared layout always fits. -/
theorem ne_static_of_superseded {x : Settlement} (hx : x ∈ xs) {prior : Layout} {reason : Change}
    (hprior : priorOf baseline x.plan = some prior)
    (hchange : change? prior (x.desired options) = some reason) : x.plan.identity ≠ .static := by
  intro hstatic
  obtain ⟨g, hprior'⟩ := haged _ (priorOf_eq_some hprior).1
  rw [hstatic] at hprior'
  obtain ⟨hkind, hsingleton, hexpandable, hparent, hfields⟩ := h.shared_env hps hx hstatic
  have hshared : prior.IsShared := by
    generalize hi : EnvIdentity.static.text = i at hprior'
    cases hprior' with
    | minted _ _ hne => exact absurd hi.symm hne
    | shared _ hl => exact hl
  have hfit : change? prior (x.desired options) = none := by
    rw [(h.settled x hx).desired_eq, hkind, hsingleton, hexpandable, hparent, hfields]
    simp [change?, hshared.kind, hshared.isSingleton, hshared.isExpandable, hshared.parent,
      parentChange?, fieldChange?]
  cases hfit.symm.trans hchange

variable (hactive : ∀ e ∈ priorLayouts baseline, e.2.state = .active)

include hactive

/-- A layout that is not taken over has a name of the generation, or is the shared one, which was
not there. -/
theorem new_of_settlement {x : Settlement} (hx : x ∈ xs)
    (hnew : ∀ prior appended, x.decision ≠ .reuse prior appended) :
    (x.plan.identity ≠ .static ∧ Name.Minted (nextGeneration baseline) x.env.name ∧
        x.env.generation = nextGeneration baseline) ∨
      (x.plan.identity = .static ∧ x.env.name = Name.sharedStaticEnv ∧
        ∀ l, (EnvIdentity.static.text, l) ∉ priorLayouts baseline) := by
  cases (h.settled x hx).outcome with
  | minted count after hprior _ hname _ hgen =>
    rcases hname.shared_or_minted with ⟨hstatic, hshared⟩ | ⟨hne, hminted⟩
    · exact .inr ⟨hstatic, hshared, hstatic ▸ not_mem_of_priorOf hactive hprior⟩
    · exact .inl ⟨hne, hminted, hgen⟩
  | reused prior appended _ _ _ hdecision => exact absurd hdecision (hnew prior appended)
  | superseded prior reason count after hprior hchange _ hname _ hgen =>
    rcases hname.shared_or_minted with ⟨hstatic, -⟩ | ⟨hne, hminted⟩
    · exact absurd hstatic (h.ne_static_of_superseded hps haged hx hprior hchange)
    · exact .inl ⟨hne, hminted, hgen⟩

/-- Where the layout of an environment comes from. -/
theorem comes_of_settlement {x : Settlement} (hx : x ∈ xs) :
    Comes (nextGeneration baseline) (priorLayouts baseline)
      (x.env.identity.text, x.env.layout) := by
  rw [h.identity_env hx]
  have hmade (hnew : ∀ prior appended, x.decision ≠ .reuse prior appended) :
      Comes (nextGeneration baseline) (priorLayouts baseline)
        (x.plan.identity.text, x.env.layout) := by
    rcases h.new_of_settlement hps haged hactive hx hnew with
      ⟨hne, hminted, hgen⟩ | ⟨hstatic, hname, hno⟩
    · exact .minted _ _ (fun heq => hne (EnvIdentity.text_inj heq)) hminted hgen
    · obtain ⟨hkind, hsingleton, hexpandable, hparent, -⟩ := h.shared_env hps hx hstatic
      rw [hstatic]
      exact .shared _ ⟨hname, hkind, hsingleton, hexpandable, hparent⟩ hno
  cases (h.settled x hx).outcome with
  | minted _ _ _ hdecision => exact hmade fun _ _ heq => by cases hdecision.symm.trans heq
  | superseded _ _ _ _ _ _ hdecision => exact hmade fun _ _ heq => by cases hdecision.symm.trans heq
  | reused prior appended hprior hfit _ _ hname hfields hgen =>
    exact .kept _ prior _ (priorOf_eq_some hprior).1 hname.symm
      (grows_of_fit (h.settled x hx) hfit hfields hgen)

end Account

end Synthesis

open Synthesis

namespace Stages

variable {t : ScopeTree} {options : LowerOptions} {baseline : Option Baseline} {u : LoweredUnit}
  {a : Captures} {ps : PlanTable} {s : Synthesis} {xs : List Settlement}

section

variable (h : Stages t options baseline u a ps s xs)
include h

/-- The unit is of the generation after the baseline. -/
theorem generation : u.generation = nextGeneration baseline :=
  h.unit.generation.trans h.account.generation

/-- Live layouts are those of environments, and what is left of the baseline with its origin. -/
theorem mem_live {e : NamedLayout} : e ∈ u.live ↔
    (∃ x ∈ xs, e = (x.env.identity.text, x.env.layout)) ∨
      e ∈ priorLayouts baseline ∧ isLeft (producedBy ps) e = true ∧ originExists t e.1 = true := by
  rw [LoweredUnit.live, List.mem_append, h.unit.envs, h.account.envs, List.map_map, List.mem_map,
    h.unit.carried, h.account.carried, leftOf, List.mem_filter, List.mem_filter, and_assoc]
  simp only [Function.comp_apply, eq_comm]

/-- Live layouts say so. -/
theorem active_of_live : ∀ e ∈ u.live, e.2.state = .active := by
  intro e he
  rcases h.mem_live.mp he with ⟨x, -, rfl⟩ | ⟨-, hleft, -⟩
  · rfl
  · exact beq_iff_eq.mp (Bool.and_eq_true_iff.mp hleft).2

/-- No two live layouts have one name. -/
theorem nodup_live : (u.live.map (·.2.name)).Nodup := by
  have hnames := h.account.nodup_names
  rw [List.append_assoc] at hnames
  rw [LoweredUnit.map_live_name, h.unit.envs, h.unit.carried]
  exact (List.nodup_append.mp hnames).2.1

/-- No two live layouts have one identity. -/
theorem nodup_live_keys (hn : t.WellNamed) (hsorted : SortedMap.Sorted (priorLayouts baseline)) :
    (u.live.map Prod.fst).Nodup := by
  rw [LoweredUnit.live, h.unit.envs, h.account.envs, h.unit.carried, List.map_append, List.map_map,
    List.map_map]
  exact h.account.nodup_identities hn h.plans hsorted

/-- What the next generation starts from is what is live. -/
theorem mem_nextBaseline (hn : t.WellNamed) (hsorted : SortedMap.Sorted (priorLayouts baseline))
    {e : NamedLayout} : e ∈ u.nextBaseline.envs ↔ e ∈ u.live :=
  SortedMap.mem_ofList_iff (h.nodup_live_keys hn hsorted)

/-- Where live layouts come from. -/
theorem comes_of_live (hactive : ∀ e ∈ priorLayouts baseline, e.2.state = .active)
    (haged : ∀ e ∈ priorLayouts baseline, ∃ g, Aged g e) :
    ∀ e ∈ u.live, Comes u.generation (priorLayouts baseline) e := by
  intro e he
  rcases h.mem_live.mp he with ⟨x, hx, rfl⟩ | ⟨hprior, -⟩
  · exact h.generation ▸ h.account.comes_of_settlement h.plans haged hactive hx
  · exact .kept e.1 e.2 e.2 hprior rfl (.refl _)

/-- Live layouts are at most as young as the unit. -/
theorem aged_of_live (hactive : ∀ e ∈ priorLayouts baseline, e.2.state = .active)
    (haged : ∀ e ∈ priorLayouts baseline, ∃ g ≤ u.generation, Aged g e) :
    ∀ e ∈ u.live, Aged u.generation e := by
  intro e he
  cases h.comes_of_live hactive (fun e he => (haged e he).imp fun _ => And.right) e he with
  | minted i l hi hminted hgen => exact .minted i l hi (hgen ▸ hminted) (Nat.le_of_eq hgen)
  | shared l hl => exact .shared l hl
  | kept i l l' hl hname hgrows =>
    obtain ⟨g, hg, hag⟩ := haged _ hl
    exact (hag.mono hg).grows hname hgrows

/-- The shared layout stays. -/
theorem static_stays (hactive : ∀ e ∈ priorLayouts baseline, e.2.state = .active) {l : Layout}
    (hl : (EnvIdentity.static.text, l) ∈ priorLayouts baseline) :
    ∃ l', (EnvIdentity.static.text, l') ∈ u.live := by
  by_cases hproduced : EnvIdentity.static.text ∈ producedBy ps
  · obtain ⟨x, hx, hident⟩ := h.account.mem_producedBy.mp hproduced
    refine ⟨x.env.layout, h.mem_live.mpr (.inl ⟨x, hx, ?_⟩)⟩
    rw [h.account.identity_env hx, hident]
  · refine ⟨l, h.mem_live.mpr (.inr ⟨hl, ?_, originExists_text t .static⟩)⟩
    simpa [isLeft, hproduced] using hactive _ hl

end

/-- What the next generation starts from is live. -/
theorem mem_live_of_nextBaseline {e : NamedLayout} (he : e ∈ u.nextBaseline.envs) : e ∈ u.live :=
  SortedMap.mem_of_find?_ofList ((SortedMap.sorted_ofList u.live).mem_iff.mp he)

end Stages

/-! ## Any number of lowerings -/

/-- What a unit has from the units `us` before it. -/
structure Continues (u : LoweredUnit) (us : List LoweredUnit) : Prop where
  aged : ∀ e ∈ u.live, Aged u.generation e
  active : ∀ e ∈ u.live, e.2.state = .active
  /-- No two live layouts have one name. -/
  names : (u.live.map (·.2.name)).Nodup
  /-- The numbers of generations go up. -/
  older : ∀ w ∈ us, w.generation < u.generation ∧ ∀ e ∈ w.live, Aged w.generation e
  /-- The shared layout is there if it has been. -/
  static : ∀ w ∈ us, ∀ l, (EnvIdentity.static.text, l) ∈ w.live →
    ∃ l', (EnvIdentity.static.text, l') ∈ u.live
  /-- What has a name that was live is under the same identity, and has grown. -/
  grows : ∀ w ∈ us, ∀ e ∈ w.live, ∀ e' ∈ u.live, e.2.name = e'.2.name →
    e.1 = e'.1 ∧ e.2.Grows e'.2

namespace Continues

variable {t : ScopeTree} {options : LowerOptions} {u v : LoweredUnit} {us : List LoweredUnit}
  {a : Captures} {ps : PlanTable} {s : Synthesis} {xs : List Settlement}

/-- The first unit has nothing before it. -/
theorem first (h : Stages t options none u a ps s xs) : Continues u [] where
  aged := h.aged_of_live nofun nofun
  active := h.active_of_live
  names := h.nodup_live
  older := nofun
  static := nofun
  grows := nofun

/-- The shared layout is handed on if it has been there. -/
theorem exists_static (h : Continues u us) : ∀ w ∈ u :: us, ∀ l,
    (EnvIdentity.static.text, l) ∈ w.live →
      ∃ l', (EnvIdentity.static.text, l') ∈ priorLayouts (some u.nextBaseline) := by
  have hnow {l : Layout} (hl : (EnvIdentity.static.text, l) ∈ u.live) :
      ∃ l', (EnvIdentity.static.text, l') ∈ priorLayouts (some u.nextBaseline) := by
    have hthere : ∃ l, (EnvIdentity.static.text, l) ∈ u.live := ⟨l, hl⟩
    obtain ⟨l', hl'⟩ := Option.isSome_iff_exists.mp
      (SortedMap.isSome_find?_foldl_insert [] (.inl hthere))
    exact ⟨l', SortedMap.mem_of_find? hl'⟩
  refine List.forall_mem_cons.mpr ⟨fun l hl => hnow hl, fun w hw l hl => ?_⟩
  obtain ⟨l', hl'⟩ := h.static w hw l hl
  exact hnow hl'

/-- One more lowering: what is live then was minted by it or is live now. -/
theorem next (h : Continues u us) (hgen : u.generation + 1 < generationCount)
    (hv : Stages t options (some u.nextBaseline) v a ps s xs) : Continues v (u :: us) := by
  have hprior (e : NamedLayout) (he : e ∈ priorLayouts (some u.nextBaseline)) : e ∈ u.live :=
    Stages.mem_live_of_nextBaseline he
  have hactive (e : NamedLayout) (he : e ∈ priorLayouts (some u.nextBaseline)) :
      e.2.state = .active := h.active e (hprior e he)
  have hcomes := hv.comes_of_live hactive fun e he => ⟨u.generation, h.aged e (hprior e he)⟩
  have hnext : v.generation = u.generation + 1 :=
    hv.generation.trans (LoweredUnit.nextGeneration_eq hgen)
  have hlt : u.generation < v.generation := hnext ▸ Nat.lt_succ_self _
  -- Every earlier unit is older than this one, the last one included.
  have holder : ∀ w ∈ u :: us, w.generation < v.generation ∧ ∀ e ∈ w.live, Aged w.generation e :=
    List.forall_mem_cons.mpr ⟨⟨hlt, h.aged⟩, fun w hw =>
      ⟨Nat.lt_trans (h.older w hw).1 hlt, (h.older w hw).2⟩⟩
  refine ⟨hv.aged_of_live hactive fun e he => ⟨_, Nat.le_of_lt hlt, h.aged e (hprior e he)⟩,
    hv.active_of_live, hv.nodup_live, holder, fun w hw l hl => ?_,
    fun w hw e he e' he' hname => ?_⟩
  · obtain ⟨l', hl'⟩ := h.exists_static w hw l hl
    exact hv.static_stays hactive hl'
  · obtain ⟨hlt, haged⟩ := holder w hw
    cases hcomes e' he' with
    | minted i l hi hminted => exact absurd hname ((haged e he).ne_of_minted hlt hminted)
    | shared l hl hnone =>
      -- a name that is the shared one was that of the shared layout, which is still there
      have hi := (haged e he).eq_static (hname.trans hl.name)
      obtain ⟨l', hl'⟩ := h.exists_static w hw e.2 (hi ▸ he)
      exact absurd hl' (hnone l')
    -- A layout that was taken over is followed back to where it was in that unit.
    | kept i l l' hl hkept hgrows =>
      have hnow : e.1 = i ∧ e.2.Grows l := by
        rcases List.mem_cons.mp hw with rfl | hw
        · have heq : e = (i, l) :=
            List.inj_on_of_nodup_map h.names he (hprior _ hl) (hname.trans hkept.symm)
          exact heq ▸ ⟨rfl, .refl l⟩
        · exact h.grows w hw e he _ (hprior _ hl) (hname.trans hkept.symm)
      exact ⟨hnow.1, hnow.2.trans hgrows⟩

end Continues

namespace Generations

/-- What the last of some units has from those before it. -/
theorem continues {unit : String} {us : List LoweredUnit} (h : Generations unit us) :
    ∃ u rest, us = u :: rest ∧ Continues u rest := by
  induction h with
  | first ht hu =>
    obtain ⟨holds, hbound⟩ := wellBound_of_bindModule ht
    obtain ⟨a, ps, s, xs, hstages⟩ := exists_stages hbound hu
    exact ⟨_, _, rfl, .first hstages⟩
  | next _ hgen ht hv ih =>
    obtain ⟨holds, hbound⟩ := wellBound_of_bindModule ht
    obtain ⟨a, ps, s, xs, hstages⟩ := exists_stages hbound hv
    obtain ⟨u, rest, heq, hcontinues⟩ := ih
    cases heq
    exact ⟨_, _, rfl, hcontinues.next hgen hstages⟩

/-- Layouts are append-only along generations: where a name is live in one unit and in a later one,
it is under the same identity, and what other code can see of it is the same but for fields at the
end. -/
theorem layouts_grow {unit : String} {us : List LoweredUnit} (h : Generations unit us) :
    us.Pairwise fun later earlier => ∀ i l, (i, l) ∈ earlier.live → ∀ i' l', (i', l') ∈ later.live →
      l.name = l'.name → i = i' ∧ l.Grows l' := by
  induction h with
  | first => exact List.pairwise_singleton _ _
  | next h hgen ht hv ih =>
    obtain ⟨v, rest, heq, hcontinues⟩ := (Generations.next h hgen ht hv).continues
    cases heq
    exact List.pairwise_cons.mpr ⟨fun w hw i l hl i' l' hl' hname =>
      hcontinues.grows w hw (i, l) hl (i', l') hl' hname, ih⟩

end Generations

/-- A source that is lowered twice has such a chain of units, and their layouts are append-only. -/
theorem Generations.layouts_grow_captureSource : ∃ t u v,
    bindModule Syntax.captureSource "u" = .ok t ∧ lowerUnit t ⟨.contained, true⟩ none = .ok u ∧
      lowerUnit t ⟨.contained, true⟩ (some u.nextBaseline) = .ok v ∧ Generations "u" [v, u] ∧
      ∀ i l, (i, l) ∈ u.live → ∀ i' l', (i', l') ∈ v.live → l.name = l'.name →
        i = i' ∧ l.Grows l' := by
  have hsome : ((bindModule Syntax.captureSource "u").toOption.bind fun t =>
      (lowerUnit t ⟨.contained, true⟩ none).toOption.bind fun u =>
        (lowerUnit t ⟨.contained, true⟩ (some u.nextBaseline)).toOption.map fun _ =>
          u.generation) = some 0 := by
    decide +kernel
  obtain ⟨t, ht, hsome⟩ := Option.bind_eq_some_iff.mp hsome
  obtain ⟨u, hu, hsome⟩ := Option.bind_eq_some_iff.mp hsome
  obtain ⟨v, hv, hgen⟩ := Option.map_eq_some_iff.mp hsome
  rw [Lower.toOption_eq_some] at ht hu hv
  have hchain : Generations "u" [v, u] :=
    .next (.first ht hu) (hgen ▸ by decide) ht hv
  have hpairs := hchain.layouts_grow
  exact ⟨t, u, v, ht, hu, hv, hchain, (List.pairwise_cons.mp hpairs).1 u List.mem_cons_self⟩

end ClosureEnv
