import ClosureEnv.Run.Exec

/-!
# Evaluations that agree

Two evaluations agree when they end in the same way: both with a value, both with a return, both
with the same error, which is none of the evaluator's own, or both out of fuel. What holds of their
results and their states is a parameter. Agreement goes through all that evaluation is made of:
`Agree.bind` for two steps, `Agree.iterate` for loops, `Agree.binary` for operators.
-/

namespace ClosureEnv.Run

/-- Whether an error is one of the evaluator's own: no program is to blame for it. -/
def RunError.isInternal : RunError → Bool
  | undefinedFunction _ | undefinedLambda _ | localUnset _ | undeclaredLocal _ | fieldUnset ..
  | uninitializedSlot | missingSlot .. | unknownEnv _ | envNotLive _ | noEnvParam | noParent _
  | scopeExited | noInstance _ => true
  | _ => false

variable {ε δ : Type}

/-- Two values that differ in how closures keep their environments at most. -/
inductive Value.Alike (R : String → ε → δ → Prop) : Value ε → Value δ → Prop where
  | int (n : Int) : Alike R (.int n) (.int n)
  | bool (b : Bool) : Alike R (.bool b) (.bool b)
  | str (s : String) : Alike R (.str s) (.str s)
  | unit : Alike R .unit .unit
  | fn (name : String) : Alike R (.fn name) (.fn name)
  | closure {name : String} {e : ε} {e' : δ} (h : R name e e') :
      Alike R (.closure name e) (.closure name e')

/-- Two equal values that nothing can be called by. -/
inductive Value.Data : Value ε → Value δ → Prop where
  | int (n : Int) : Data (.int n) (.int n)
  | bool (b : Bool) : Data (.bool b) (.bool b)
  | str (s : String) : Data (.str s) (.str s)
  | unit : Data .unit .unit

/-- Such values are alike. -/
theorem Value.Data.alike {v : Value ε} {v' : Value δ} (h : Data v v') (R : String → ε → δ → Prop) :
    Alike R v v' := by
  cases h <;> constructor

/-- The values of a literal. -/
theorem Value.Data.ofLiteral (l : Syntax.Literal) :
    Data (Value.ofLiteral l : Value ε) (Value.ofLiteral l : Value δ) := by
  cases l <;> constructor

/-- Two results of an operator: equal values that are no closures, or one error of the program. -/
inductive SameResult : Except RunError (Value ε) → Except RunError (Value δ) → Prop where
  | int (n : Int) : SameResult (.ok (.int n)) (.ok (.int n))
  | bool (b : Bool) : SameResult (.ok (.bool b)) (.ok (.bool b))
  | str (s : String) : SameResult (.ok (.str s)) (.ok (.str s))
  | error (e : RunError) : e.isInternal = false → SameResult (.error e) (.error e)

namespace Value.Alike

variable {R : String → ε → δ → Prop} {v w : Value ε} {v' w' : Value δ}

/-- Values that are alike are printed in the same way. -/
theorem text_eq (h : Alike R v v') : v.text = v'.text := by
  cases h <;> rfl

/-- A value is like itself. -/
theorem refl (v : Value ε) : Alike (fun _ e e' => e = e') v v := by
  cases v with
  | closure => exact .closure rfl
  | _ => constructor

/-- More closures are alike when more environments are. -/
theorem imp {S : String → ε → δ → Prop} (h : Alike R v v') (hRS : ∀ n e e', R n e e' → S n e e') :
    Alike S v v' := by
  cases h with
  | closure h => exact .closure (hRS _ _ _ h)
  | _ => constructor

/-- A word or an error. -/
theorem sameResult_word {e : RunError} (he : e.isInternal = false) (n : Int) :
    SameResult (Value.word (ε := ε) e n) (Value.word (ε := δ) e n) := by
  unfold Value.word
  split
  · exact .int n
  · exact .error e he

/-- An operator of one operand gives the same for values that are alike. -/
theorem unary (h : Alike R v v') (op : Syntax.UnaryOp) :
    SameResult (Value.unary op v) (Value.unary op v') := by
  cases op <;> cases h
  case not.bool b => exact .bool _
  case neg.int n => exact sameResult_word rfl _
  all_goals exact .error _ rfl

/-- Values that are alike are equal to the same values. -/
theorem equal (h : Alike R v v') (k : Alike R w w') :
    (∃ b, Value.equal v w = .ok b ∧ Value.equal v' w' = .ok b) ∨
      ∃ e, e.isInternal = false ∧ Value.equal v w = .error e ∧ Value.equal v' w' = .error e := by
  have htexts : RunError.notComparable v'.text w'.text = .notComparable v.text w.text := by
    rw [h.text_eq, k.text_eq]
  cases h <;> cases k
  case int.int | bool.bool | str.str | unit.unit | fn.fn => exact .inl ⟨_, rfl, rfl⟩
  all_goals exact .inr ⟨_, rfl, rfl, congrArg Except.error htexts⟩

/-- An operator on integers gives the same whatever closures are. -/
theorem arith (op : Syntax.BinaryOp) (m n : Int) :
    (Value.arith? (ε := ε) op m n = none ∧ Value.arith? (ε := δ) op m n = none) ∨
      ∃ x y, Value.arith? (ε := ε) op m n = some x ∧ Value.arith? (ε := δ) op m n = some y ∧
        SameResult x y := by
  cases op
  case lt | le | gt | ge => exact .inr ⟨_, _, rfl, rfl, .bool _⟩
  case add | sub | mul => exact .inr ⟨_, _, rfl, rfl, sameResult_word rfl _⟩
  case div =>
    refine .inr ⟨_, _, rfl, rfl, ?_⟩
    split
    · exact .error _ rfl
    · exact sameResult_word rfl _
  all_goals exact .inl ⟨rfl, rfl⟩

/-- An operator of two operands gives the same for values that are alike. -/
theorem binary (h : Alike R v v') (k : Alike R w w') (op : Syntax.BinaryOp) :
    SameResult (Value.binary op v w) (Value.binary op v' w') := by
  have htexts : RunError.notCombinable op v'.text w'.text = .notCombinable op v.text w.text := by
    rw [h.text_eq, k.text_eq]
  have herror : SameResult (ε := ε) (δ := δ) (.error (.notCombinable op v.text w.text))
      (.error (.notCombinable op v'.text w'.text)) := by
    rw [htexts]
    exact .error _ rfl
  by_cases hop : op = .eq ∨ op = .ne
  · have hcompare (f : Bool → Bool) :
        SameResult ((Value.equal v w).map fun b => Value.bool (ε := ε) (f b))
          ((Value.equal v' w').map fun b => Value.bool (ε := δ) (f b)) := by
      rcases h.equal k with ⟨b, hb, hb'⟩ | ⟨e, he, hb, hb'⟩ <;> rw [hb, hb']
      · exact .bool _
      · exact .error e he
    rcases hop with rfl | rfl
    · exact hcompare fun b => b
    · exact hcompare fun b => !b
  · cases h <;> cases k
    case int.int m n =>
      have hint (η : Type) : Value.binary (ε := η) op (.int m) (.int n) =
          (Value.arith? op m n).getD (.error (.notCombinable op (toString m) (toString n))) := by
        cases op <;> first | rfl | simp at hop
      rw [hint, hint]
      rcases arith (ε := ε) (δ := δ) op m n with ⟨hn, hn'⟩ | ⟨x, y, hx, hy, hxy⟩
      · rw [hn, hn']
        exact herror
      · rw [hx, hy]
        exact hxy
    case str.str s t =>
      by_cases hadd : op = .add
      · subst hadd
        exact .str _
      · cases op <;> first | exact herror | simp at hop hadd
    all_goals cases op <;> first | exact herror | simp at hop

end Value.Alike

/-! ## Agreement -/

/-- How a run ends, as far as anyone can tell. -/
inductive Outcome where
  /-- With a value that is printed as this text. -/
  | value (text : String)
  | failed (e : RunError)
  | outOfFuel
  deriving DecidableEq

/-- How a run has ended. What it returned is its value. -/
def Outcome.of : Except (Stop ε) (Value ε) → Outcome
  | .ok v | .error (.returned v) => .value v.text
  | .error (.failed e) => .failed e
  | .error .outOfFuel => .outOfFuel

variable {σ σ' α α' β β' : Type}

/-- Two evaluations have ended in the same way: with values and states of which `ok` holds, with
returns and states of which `ret` holds, with one error of the program, or out of fuel. -/
inductive Agree (ok : α → σ → α' → σ' → Prop) (ret : Value ε → σ → Value δ → σ' → Prop) :
    Except (Stop ε) α × σ → Except (Stop δ) α' × σ' → Prop where
  | ok {a : α} {s : σ} {a' : α'} {s' : σ'} (h : ok a s a' s') : Agree ok ret (.ok a, s) (.ok a', s')
  | returned {v : Value ε} {s : σ} {v' : Value δ} {s' : σ'} (h : ret v s v' s') :
      Agree ok ret (.error (.returned v), s) (.error (.returned v'), s')
  | failed (e : RunError) (s : σ) (s' : σ') (h : e.isInternal = false) :
      Agree ok ret (.error (.failed e), s) (.error (.failed e), s')
  | outOfFuel (s : σ) (s' : σ') : Agree ok ret (.error .outOfFuel, s) (.error .outOfFuel, s')

namespace Exec

/-- A step that succeeds is followed by the next one. -/
theorem bind_of_ok {x : Exec ε σ α} {f : α → Exec ε σ β} {s s₁ : σ} {a : α}
    (h : x s = (.ok a, s₁)) : (x >>= f) s = f a s₁ := by
  rw [show (x >>= f) s = (x s >>= fun p => ExceptT.bindCont f p.1 p.2 : Id _) from rfl, h]
  rfl

/-- What is known of the state goes to the next step. -/
theorem get_bind {f : σ → Exec ε σ β} {s : σ} : ((get : Exec ε σ σ) >>= f) s = f s s :=
  rfl

/-- A step that stops is not followed by another one. -/
theorem bind_of_error {x : Exec ε σ α} {f : α → Exec ε σ β} {s s₁ : σ} {e : Stop ε}
    (h : x s = (.error e, s₁)) : (x >>= f) s = (.error e, s₁) := by
  rw [show (x >>= f) s = (x s >>= fun p => ExceptT.bindCont f p.1 p.2 : Id _) from rfl, h]
  rfl

/-- A body that returned has what it returned as its value. -/
theorem returning_run (x : Exec ε σ (Value ε)) (s : σ) : returning x s =
    match x s with
    | (.ok v, s₁) => (.ok v, s₁)
    | (.error (.returned v), s₁) => (.ok v, s₁)
    | (.error e, s₁) => (.error e, s₁) := by
  unfold returning
  simp only [tryCatch, tryCatchThe, MonadExceptOf.tryCatch, ExceptT.tryCatch, ExceptT.mk, bind,
    StateT.bind]
  rcases x s with ⟨(_ | _ | _) | _, _⟩ <;> rfl

end Exec

namespace Agree

variable {ok : α → σ → α' → σ' → Prop} {ret ret' : Value ε → σ → Value δ → σ' → Prop}

/-- More results agree when less is said of them. -/
theorem imp {ok' : α → σ → α' → σ' → Prop} {p : Except (Stop ε) α × σ}
    {p' : Except (Stop δ) α' × σ'} (h : Agree ok ret p p')
    (hok : ∀ a s a' s', ok a s a' s' → ok' a s a' s')
    (hret : ∀ v s v' s', ret v s v' s' → ret' v s v' s') : Agree ok' ret' p p' := by
  cases h with
  | ok h => exact .ok (hok _ _ _ _ h)
  | returned h => exact .returned (hret _ _ _ _ h)
  | failed e s s' h => exact .failed e s s' h
  | outOfFuel s s' => exact .outOfFuel s s'

/-- Runs that agree still do when something is done to their states in the end. -/
theorem atEnd (f : σ → σ) (f' : σ' → σ') {ok' : α → σ → α' → σ' → Prop}
    {p : Except (Stop ε) α × σ} {p' : Except (Stop δ) α' × σ'} (h : Agree ok ret p p')
    (hok : ∀ a s a' s', ok a s a' s' → ok' a (f s) a' (f' s'))
    (hret : ∀ v s v' s', ret v s v' s' → ret' v (f s) v' (f' s')) :
    Agree ok' ret' (p.1, f p.2) (p'.1, f' p'.2) := by
  cases h with
  | ok h => exact .ok (hok _ _ _ _ h)
  | returned h => exact .returned (hret _ _ _ _ h)
  | failed e s s' h => exact .failed e _ _ h
  | outOfFuel s s' => exact .outOfFuel _ _

/-- Runs that agree have one outcome. -/
theorem outcome_eq {R : String → ε → δ → Prop} {p : Except (Stop ε) (Value ε) × σ}
    {p' : Except (Stop δ) (Value δ) × σ'}
    (h : Agree (fun v _ v' _ => Value.Alike R v v') (fun _ _ _ _ => False) p p') :
    Outcome.of p.1 = Outcome.of p'.1 := by
  cases h with
  | ok h => exact congrArg Outcome.value h.text_eq
  | returned h => exact h.elim
  | failed e s s' h => rfl
  | outOfFuel s s' => rfl

/-- Steps that agree, one after the other. -/
theorem bind {x : Exec ε σ α} {x' : Exec δ σ' α'} {f : α → Exec ε σ β} {f' : α' → Exec δ σ' β'}
    {next : β → σ → β' → σ' → Prop} {s : σ} {s' : σ'} (h : Agree ok ret (x s) (x' s'))
    (hf : ∀ a s₁ a' s₁', ok a s₁ a' s₁' → Agree next ret (f a s₁) (f' a' s₁')) :
    Agree next ret ((x >>= f) s) ((x' >>= f') s') := by
  generalize hp : x s = p at h
  generalize hp' : x' s' = p' at h
  cases h with
  | ok h =>
    rw [Exec.bind_of_ok hp, Exec.bind_of_ok hp']
    exact hf _ _ _ _ h
  | returned h =>
    rw [Exec.bind_of_error hp, Exec.bind_of_error hp']
    exact .returned h
  | failed e s s' h =>
    rw [Exec.bind_of_error hp, Exec.bind_of_error hp']
    exact .failed e s s' h
  | outOfFuel s s' =>
    rw [Exec.bind_of_error hp, Exec.bind_of_error hp']
    exact .outOfFuel s s'

/-- A body whose returns count as values. -/
theorem returning {x : Exec ε σ (Value ε)} {x' : Exec δ σ' (Value δ)}
    {last : Value ε → σ → Value δ → σ' → Prop} {never : Value ε → σ → Value δ → σ' → Prop} {s : σ}
    {s' : σ'} (h : Agree last last (x s) (x' s')) :
    Agree last never (Exec.returning x s) (Exec.returning x' s') := by
  rw [Exec.returning_run, Exec.returning_run]
  generalize x s = p at h
  generalize x' s' = p' at h
  cases h with
  | ok h => exact .ok h
  | returned h => exact .ok h
  | failed e s s' h => exact .failed e s s' h
  | outOfFuel s s' => exact .outOfFuel s s'

/-- The result of an operator. -/
theorem ofExcept {x : Except RunError (Value ε)} {x' : Except RunError (Value δ)}
    (h : SameResult x x') {s : σ} {s' : σ'} {next : Value ε → σ → Value δ → σ' → Prop}
    (hok : ∀ v v', Value.Data v v' → next v s v' s') :
    Agree next ret (Exec.ofExcept x s) (Exec.ofExcept x' s') := by
  cases h with
  | int n => exact .ok (hok _ _ (.int n))
  | bool b => exact .ok (hok _ _ (.bool b))
  | str t => exact .ok (hok _ _ (.str t))
  | error e he => exact .failed e s s' he

/-- A branch that depends on a condition. -/
theorem branch {R : String → ε → δ → Prop} {test yes no : Exec ε σ (Value ε)}
    {test' yes' no' : Exec δ σ' (Value δ)} {M : σ → σ' → Prop}
    {next : Value ε → σ → Value δ → σ' → Prop} {s : σ} {s' : σ'}
    (h : Agree (fun v s v' s' => Value.Alike R v v' ∧ M s s') ret (test s) (test' s'))
    (hyes : ∀ s s', M s s' → Agree next ret (yes s) (yes' s'))
    (hno : ∀ s s', M s s' → Agree next ret (no s) (no' s')) :
    Agree next ret (Exec.branch test yes no s) (Exec.branch test' yes' no' s') := by
  refine h.bind fun v s₁ v' s₁' ⟨hv, hs⟩ => ?_
  cases hv with
  | bool b =>
    cases b with
    | true => exact hyes s₁ s₁' hs
    | false => exact hno s₁ s₁' hs
  | _ => exact .failed _ _ _ rfl

/-- A loop whose test and whose body keep what holds of the states. -/
theorem iterate {R : String → ε → δ → Prop} {test body : Exec ε σ (Value ε)}
    {test' body' : Exec δ σ' (Value δ)} {M : σ → σ' → Prop}
    (htest : ∀ s s', M s s' →
      Agree (fun v s v' s' => Value.Alike R v v' ∧ M s s') ret (test s) (test' s'))
    (hbody : ∀ s s', M s s' → Agree (fun _ s _ s' => M s s') ret (body s) (body' s'))
    (bound : Nat) : ∀ s s', M s s' → Agree (fun _ s _ s' => M s s') ret
      (Exec.iterate test body bound s) (Exec.iterate test' body' bound s') := by
  induction bound with
  | zero => exact fun s s' _ => .outOfFuel s s'
  | succ bound ih =>
    intro s s' h
    refine (htest s s' h).bind fun v s₁ v' s₁' ⟨hv, hs⟩ => ?_
    cases hv with
    | bool b =>
      cases b with
      | true => exact (hbody s₁ s₁' hs).bind fun _ s₂ _ s₂' h₂ => ih s₂ s₂' h₂
      | false => exact .ok hs
    | _ => exact .failed _ _ _ rfl

/-- An operator on the value of its left operand and on its right operand, which is evaluated only
if the left one does not decide. -/
theorem binary {R : String → ε → δ → Prop} {v : Value ε} {v' : Value δ}
    {rhs : Exec ε σ (Value ε)} {rhs' : Exec δ σ' (Value δ)} {M : σ → σ' → Prop} {s : σ} {s' : σ'}
    (op : Syntax.BinaryOp) (hv : Value.Alike R v v') (hs : M s s')
    (h : Agree (fun w s w' s' => Value.Alike R w w' ∧ M s s') ret (rhs s) (rhs' s')) :
    Agree (fun w s w' s' => Value.Data w w' ∧ M s s') ret
      (Exec.binary op v rhs s) (Exec.binary op v' rhs' s') := by
  unfold Exec.binary
  cases hd : decisive? op with
  | none =>
    refine h.bind fun w s₁ w' s₁' ⟨hw, hs₁⟩ => ?_
    exact Agree.ofExcept (hv.binary hw op) fun x x' hx => ⟨hx, hs₁⟩
  | some d =>
    cases hv with
    | bool b =>
      dsimp only
      split
      · exact .ok ⟨.bool b, hs⟩
      · refine h.bind fun w s₁ w' s₁' ⟨hw, hs₁⟩ => ?_
        cases hw with
        | bool b => exact .ok ⟨.bool b, hs₁⟩
        | _ => exact .failed _ _ _ rfl
    | _ => exact .failed _ _ _ rfl

end Agree

end ClosureEnv.Run
