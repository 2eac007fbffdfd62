import ClosureEnv.Fault
import Mathlib.Data.List.Forall2

/-!
# Steps of lowering

When a sequence of steps succeeds, and with what: `bind_eq_ok` for two steps, `mapM_eq_ok` for one
step for each member of a list, and `foldlM_ok` for an invariant along a list.
-/

namespace ClosureEnv.Lower

variable {α β γ : Type}

/-- Two steps succeed when both do, whatever their errors are. -/
theorem bind_eq_ok {ε : Type} {x : Except ε α} {f : α → Except ε β} {b : β} :
    (x >>= f) = .ok b ↔ ∃ a, x = .ok a ∧ f a = .ok b := by
  cases x with
  | error e => exact ⟨fun h => (by cases h), fun ⟨a, h, _⟩ => (by cases h)⟩
  | ok a => exact ⟨fun h => ⟨a, rfl, h⟩, fun ⟨a', h, hf⟩ => (by cases h; exact hf)⟩

/-- A step that succeeds can be left out. -/
theorem ok_bind {a : α} {f : α → Lower β} : ((.ok a : Lower α) >>= f) = f a :=
  rfl

/-- What is returned at once. -/
@[simp] theorem pure_eq_ok {a b : α} : (pure a : Lower α) = .ok b ↔ a = b := by
  rw [show (pure a : Lower α) = .ok a from rfl, Except.ok.injEq]

/-- What is there. -/
theorem orInconsistent_eq_ok {cause : Inconsistency} {x : Option α} {a : α} :
    orInconsistent cause x = .ok a ↔ x = some a := by
  cases x with
  | none => exact ⟨fun h => (by cases h), fun h => (by cases h)⟩
  | some b => simp [orInconsistent]

/-- What is left of a result once errors are forgotten. -/
theorem toOption_eq_some {ε : Type} {x : Except ε α} {a : α} : x.toOption = some a ↔ x = .ok a := by
  cases x <;> simp [Except.toOption]

/-- A step for each member succeeds with the results of the steps. -/
theorem mapM_eq_ok {f : α → Lower β} {xs : List α} {ys : List β} :
    xs.mapM f = .ok ys ↔ List.Forall₂ (fun x y => f x = .ok y) xs ys := by
  induction xs generalizing ys with
  | nil => cases ys <;> simp [pure, Except.pure]
  | cons x xs ih =>
    rw [List.mapM_cons, bind_eq_ok]
    constructor
    · rintro ⟨y, hy, h⟩
      obtain ⟨zs, hzs, h⟩ := bind_eq_ok.mp h
      cases h
      exact .cons hy (ih.mp hzs)
    · rintro (_ | ⟨hy, hys⟩)
      exact ⟨_, hy, bind_eq_ok.mpr ⟨_, ih.mpr hys, rfl⟩⟩

/-- A step for each member succeeds if every step does. -/
theorem mapM_ok {f : α → Lower β} {xs : List α} {g : α → β} (h : ∀ x ∈ xs, f x = .ok (g x)) :
    xs.mapM f = .ok (xs.map g) := by
  rw [mapM_eq_ok, List.forall₂_map_right_iff, List.forall₂_same]
  exact h

/-- A step for each member succeeds if every step does, with results as the steps have them. -/
theorem mapM_exists {f : α → Lower β} {l : List α} (h : ∀ x ∈ l, ∃ y, f x = .ok y) :
    ∃ ys, l.mapM f = .ok ys := by
  induction l with
  | nil => exact ⟨[], rfl⟩
  | cons x l ih =>
    obtain ⟨y, hy⟩ := h x List.mem_cons_self
    obtain ⟨ys, hys⟩ := ih fun x' hx' => h x' (List.mem_cons_of_mem _ hx')
    exact ⟨y :: ys, mapM_eq_ok.mpr (.cons hy (mapM_eq_ok.mp hys))⟩

/-- Steps for all members that succeed are followed by the next step. -/
theorem mapM_bind_exists {f : α → Lower β} {g : List β → Lower γ} {l : List α} {P : γ → Prop}
    (h : ∀ x ∈ l, ∃ y, f x = .ok y) (hg : ∀ ys, l.mapM f = .ok ys → ∃ z, g ys = .ok z ∧ P z) :
    ∃ z, (l.mapM f >>= g) = .ok z ∧ P z := by
  obtain ⟨ys, hys⟩ := mapM_exists h
  rw [hys]
  exact hg ys hys

/-- What a member of the second of two lists belongs to. -/
theorem exists_left_of_forall₂ {R : α → β → Prop} {xs : List α} {ys : List β}
    (h : List.Forall₂ R xs ys) {y : β} (hy : y ∈ ys) : ∃ x ∈ xs, R x y := by
  induction h with
  | nil => cases hy
  | cons hxy _ ih =>
    rcases List.mem_cons.mp hy with rfl | hy
    · exact ⟨_, List.mem_cons_self, hxy⟩
    · obtain ⟨x, hx, h⟩ := ih hy
      exact ⟨x, List.mem_cons_of_mem _ hx, h⟩

/-- Lists whose members belong together have the same images, if the members do. -/
theorem map_eq_of_forall₂ {R : α → β → Prop} {f : α → γ} {g : β → γ} {xs : List α} {ys : List β}
    (h : List.Forall₂ R xs ys) (hfg : ∀ x ∈ xs, ∀ y, R x y → f x = g y) :
    xs.map f = ys.map g := by
  induction h with
  | nil => rfl
  | cons hxy _ ih =>
    rw [List.map_cons, List.map_cons, hfg _ List.mem_cons_self _ hxy,
      ih fun x hx => hfg x (List.mem_cons_of_mem _ hx)]

/-- The results come from the members. -/
theorem mem_of_mapM {f : α → Lower β} {xs : List α} {ys : List β} (h : xs.mapM f = .ok ys) {y : β}
    (hy : y ∈ ys) : ∃ x ∈ xs, f x = .ok y :=
  exists_left_of_forall₂ (mapM_eq_ok.mp h) hy

/-- Every member has a result. -/
theorem exists_mem_of_mapM {f : α → Lower β} {xs : List α} {ys : List β}
    (h : xs.mapM f = .ok ys) {x : α} (hx : x ∈ xs) : ∃ y ∈ ys, f x = .ok y := by
  rw [mapM_eq_ok] at h
  induction h with
  | nil => cases hx
  | cons hxy _ ih =>
    rcases List.mem_cons.mp hx with rfl | hx
    · exact ⟨_, List.mem_cons_self, hxy⟩
    · obtain ⟨y, hy, h⟩ := ih hx
      exact ⟨y, List.mem_cons_of_mem _ hy, h⟩

/-- A step for each member succeeds if every step does, and the results are as the steps say. -/
theorem mapM_spec {f : α → Lower β} {P : α → β → Prop} {l : List α}
    (h : ∀ x ∈ l, ∃ y, f x = .ok y ∧ P x y) :
    ∃ ys, l.mapM f = .ok ys ∧ (∀ y ∈ ys, ∃ x ∈ l, P x y) ∧ ∀ x ∈ l, ∃ y ∈ ys, P x y := by
  have hP (x : α) (hx : x ∈ l) (y : β) (hxy : f x = .ok y) : P x y := by
    obtain ⟨y', hy', hp⟩ := h x hx
    cases hxy.symm.trans hy'
    exact hp
  obtain ⟨ys, hys⟩ := mapM_exists fun x hx => (h x hx).imp fun _ => And.left
  refine ⟨ys, hys, fun y hy => ?_, fun x hx => ?_⟩
  · obtain ⟨x, hx, hxy⟩ := mem_of_mapM hys hy
    exact ⟨x, hx, hP x hx y hxy⟩
  · obtain ⟨y, hy, hxy⟩ := exists_mem_of_mapM hys hx
    exact ⟨y, hy, hP x hx y hxy⟩

/-- Lists for all members are put together. -/
theorem mapM_flatten {f : α → Lower (List β)} {P : α → β → Prop} {l : List α}
    (h : ∀ x ∈ l, ∃ ys, f x = .ok ys ∧ ∀ y, y ∈ ys ↔ P x y) :
    ∃ yss, l.mapM f = .ok yss ∧ ∀ y, y ∈ yss.flatten ↔ ∃ x ∈ l, P x y := by
  obtain ⟨yss, hyss, hof, hall⟩ := mapM_spec h
  refine ⟨yss, hyss, fun y => List.mem_flatten.trans ⟨?_, ?_⟩⟩
  · rintro ⟨ys, hys, hy⟩
    obtain ⟨x, hx, hmem⟩ := hof ys hys
    exact ⟨x, hx, (hmem y).mp hy⟩
  · rintro ⟨x, hx, hy⟩
    obtain ⟨ys, hys, hmem⟩ := hall x hx
    exact ⟨ys, hys, (hmem y).mpr hy⟩

/-- Lists for all members are put together by the step that follows. -/
theorem mapM_bind_flatten {f : α → Lower (List β)} {P : α → β → Prop} {l : List α}
    (h : ∀ x ∈ l, ∃ ys, f x = .ok ys ∧ ∀ y, y ∈ ys ↔ P x y) :
    ∃ ys, (l.mapM f >>= fun yss => pure yss.flatten) = .ok ys ∧
      ∀ y, y ∈ ys ↔ ∃ x ∈ l, P x y := by
  obtain ⟨yss, hyss, hmem⟩ := mapM_flatten h
  exact ⟨yss.flatten, by rw [hyss]; rfl, hmem⟩

/-- Checks succeed if each does. -/
theorem forM_ok {f : α → Lower Unit} {xs : List α} (h : ∀ x ∈ xs, f x = .ok ()) :
    xs.forM f = .ok () := by
  induction xs with
  | nil => rfl
  | cons x xs ih =>
    rw [List.forM, h x List.mem_cons_self]
    exact ih fun x' hx' => h x' (List.mem_cons_of_mem _ hx')

/-- Checks that succeed do so for each member. -/
theorem of_forM_ok {f : α → Lower Unit} {xs : List α} (h : xs.forM f = .ok ()) {x : α}
    (hx : x ∈ xs) : f x = .ok () := by
  induction xs with
  | nil => cases hx
  | cons y xs ih =>
    obtain ⟨⟨⟩, hy, hrest⟩ := bind_eq_ok.mp (show (f y >>= fun _ => xs.forM f) = .ok () from h)
    rcases List.mem_cons.mp hx with rfl | hx
    · exact hy
    · exact ih hrest hx

/-- Steps along a list succeed, and keep an invariant that knows of the members so far, if each
step does. -/
theorem foldlM_ok {f : β → α → Lower β} (P : List α → β → Prop) {l : List α} {b : β}
    (hb : P [] b)
    (hf : ∀ done x left b, l = done ++ x :: left → P done b →
      ∃ b', f b x = .ok b' ∧ P (done ++ [x]) b') :
    ∃ b', l.foldlM f b = .ok b' ∧ P l b' := by
  suffices h : ∀ done left b, l = done ++ left → P done b →
      ∃ b', left.foldlM f b = .ok b' ∧ P l b' from h [] l b rfl hb
  intro done left
  induction left generalizing done with
  | nil =>
    rintro b rfl h
    exact ⟨b, rfl, by rwa [List.append_nil]⟩
  | cons x left ih =>
    intro b hxs h
    obtain ⟨b', hb', h'⟩ := hf done x left b hxs h
    rw [List.foldlM_cons, hb', ok_bind]
    exact ih (done ++ [x]) b' (by simpa using hxs) h'

/-- Steps along a list that succeed keep what each step that succeeds keeps. -/
theorem foldlM_inv {f : β → α → Lower β} (P : β → Prop) {l : List α} {b b' : β}
    (hrun : l.foldlM f b = .ok b') (hb : P b)
    (hf : ∀ x ∈ l, ∀ c c', P c → f c x = .ok c' → P c') : P b' := by
  induction l generalizing b with
  | nil =>
    cases hrun
    exact hb
  | cons x l ih =>
    rw [List.foldlM_cons] at hrun
    obtain ⟨c, hc, hrest⟩ := bind_eq_ok.mp hrun
    exact ih hrest (hf x List.mem_cons_self b c hb hc) fun x' hx' =>
      hf x' (List.mem_cons_of_mem _ hx')

end ClosureEnv.Lower
