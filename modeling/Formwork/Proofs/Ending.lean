import Formwork.Eval.Machine

/-!
# How computations end

A computation that begins in a state ends with a result in a state. `EStateM.Ends` says which, and
one lemma for each single step of the machine says how that step ends; `EStateM.ends_bind` takes a
sequence apart.
-/

/-- A result that passes a test is one. -/
theorem Except.exists_of_any {ε α : Type} {x : Except ε α} {test : α → Bool}
    (passed : x.toOption.any test = true) : ∃ a, x = .ok a ∧ test a = true := by
  cases x with
  | error e => cases passed
  | ok a => exact ⟨a, rfl, passed⟩

namespace EStateM

variable {ε σ α β : Type} {x : EStateM ε σ α} {s s' t' : σ} {r r' : Except ε α}

/-- A computation that begins in one state ends with a result in another one. -/
def Ends (x : EStateM ε σ α) (s : σ) : Except ε α → σ → Prop
  | .ok a, s' => x s = .ok a s'
  | .error e, s' => x s = .error e s'

theorem exists_ends (x : EStateM ε σ α) (s : σ) : ∃ r s', x.Ends s r s' := by
  cases result : x s with
  | ok a s' => exact ⟨.ok a, s', result⟩
  | error e s' => exact ⟨.error e, s', result⟩

/-- Whether a run has a result that passes a test. -/
def Result.any (test : α → σ → Bool) : Result ε σ α → Bool
  | .ok a s => test a s
  | .error _ _ => false

theorem exists_of_any {test : α → σ → Bool} (passed : (x s).any test = true) :
    ∃ a s', x.Ends s (.ok a) s' ∧ test a s' = true := by
  cases result : x s with
  | ok a s' =>
      rw [result] at passed
      exact ⟨a, s', result, passed⟩
  | error e s' =>
      rw [result] at passed
      cases passed

theorem Ends.unique (one : x.Ends s r s') (two : x.Ends s r' t') : r = r' ∧ s' = t' := by
  cases r <;> cases r' <;> simp_all [Ends]

theorem ends_congr {y : EStateM ε σ α} {t : σ} (eq : x s = y t) :
    x.Ends s r s' ↔ y.Ends t r s' := by
  cases r <;> simp [Ends, eq]

theorem ends_of_ok {a : α} {t : σ} (eq : x s = .ok a t) : x.Ends s r s' ↔ r = .ok a ∧ s' = t := by
  cases r <;> simp [Ends, eq, eq_comm]

theorem ends_of_error {e : ε} {t : σ} (eq : x s = .error e t) :
    x.Ends s r s' ↔ r = .error e ∧ s' = t := by
  cases r <;> simp [Ends, eq, eq_comm]

@[simp]
theorem ends_pure {a : α} : (pure a : EStateM ε σ α).Ends s r s' ↔ r = .ok a ∧ s' = s :=
  ends_of_ok rfl

@[simp]
theorem ends_throw {e : ε} : (throw e : EStateM ε σ α).Ends s r s' ↔ r = .error e ∧ s' = s :=
  ends_of_error rfl

@[simp]
theorem ends_ofExcept {r' : Except ε α} :
    (MonadExcept.ofExcept r' : EStateM ε σ α).Ends s r s' ↔ r = r' ∧ s' = s := by
  cases r' with
  | ok a => exact ends_pure
  | error e => exact ends_throw

theorem ends_bind {f : α → EStateM ε σ β} {r : Except ε β} :
    (x >>= f).Ends s r s' ↔
      (∃ e, r = .error e ∧ x.Ends s (.error e) s') ∨
        ∃ a t, x.Ends s (.ok a) t ∧ (f a).Ends t r s' := by
  cases result : x s with
  | ok a t =>
      have later : (x >>= f) s = f a t := by simp only [bind, EStateM.bind, result]
      simp [ends_congr later, ends_of_ok result, and_assoc]
  | error e t =>
      have stopped : (x >>= f) s = .error e t := by simp only [bind, EStateM.bind, result]
      simp only [ends_of_error stopped, ends_of_error result, Except.error.injEq, reduceCtorEq,
        false_and, exists_false, or_false]
      grind

end EStateM

namespace Formwork

namespace Action

/-- The truth value that a run answers with, and the world it leaves. -/
def truth? : EStateM.Result EvalError World Value → Option (Bool × World)
  | .ok (.bool b) w => some (b, w)
  | _ => none

theorem eq_of_truth? {result : EStateM.Result EvalError World Value} {p : Bool × World}
    (answered : truth? result = some p) : result = .ok (.bool p.1) p.2 := by
  unfold truth? at answered
  split at answered <;> cases answered
  rfl

theorem eq_some_of_unlessEndless {α : Type} {x : Option α} {a : α}
    (answered : unlessEndless x = .ok a) : x = some a := by
  cases x with
  | none => cases answered
  | some b => exact congrArg some (Except.ok.inj answered)

theorem eq_ok_of_unlessHalted {α : Type} {x : Except Halt α} {a : α}
    (answered : unlessHalted x = .ok a) : x = .ok a := by
  cases x with
  | ok b => exact congrArg Except.ok (Except.ok.inj answered)
  | error halt => cases halt <;> cases answered

/-- A question is answered without changing anything, or not at all. -/
theorem ends_answer {α : Type} {question : Heap → Except EvalError α} {w w' : World}
    {r : Except EvalError α} :
    (answer question).Ends w r w' ↔ r = question w.heap ∧ w' = w := by
  cases result : question w.heap with
  | ok a => exact EStateM.ends_of_ok (by simp [answer, result])
  | error e => exact EStateM.ends_of_error (by simp [answer, result])

end Action

namespace Machine

/-- The state after an instruction has been counted. -/
def counted (m : Machine) : Machine := { m with meter := { m.meter with used := m.meter.used + 1 } }

/-- The state after a call has been entered. -/
def entered (m : Machine) : Machine :=
  { m with meter := { m.meter with
      depth := m.meter.depth + 1, deepest := max m.meter.deepest (m.meter.depth + 1) } }

/-- The state after a call has been left. -/
def left (m : Machine) : Machine := { m with meter := m.meter.exit }

end Machine

namespace Eval

variable {α : Type} {m m' : Machine}

/-- An instruction that is counted may be one too many or come too late. -/
theorem ends_tick_bind {x : Eval α} {r : Except EvalError α} :
    (tick >>= fun _ => x).Ends m r m' ↔
      (m.meter.budget.maxInstructions ≤ m.meter.used ∧
        r = .error (.resourceExceeded .instructions m.meter.budget.maxInstructions
          (m.meter.used + 1)) ∧ m' = m.counted) ∨
      (m.meter.used < m.meter.budget.maxInstructions ∧
        m.meter.budget.maxMillis * nanosPerMilli < m.meter.clock (m.meter.used + 1) ∧
        r = .error (.resourceExceeded .time m.meter.budget.maxMillis
          (m.meter.clock (m.meter.used + 1) / nanosPerMilli)) ∧ m' = m.counted) ∨
      (m.meter.used < m.meter.budget.maxInstructions ∧
        m.meter.clock (m.meter.used + 1) ≤ m.meter.budget.maxMillis * nanosPerMilli ∧
        x.Ends m.counted r m') := by
  by_cases beyond : m.meter.budget.maxInstructions ≤ m.meter.used
  · have eq : (tick >>= fun _ => x) m = .error (.resourceExceeded .instructions
        m.meter.budget.maxInstructions (m.meter.used + 1)) m.counted := by
      simp [tick, Meter.tick, Nat.lt_succ_of_le beyond, Machine.counted, bind, EStateM.bind]
    simp [EStateM.ends_of_error eq, beyond, Nat.not_lt.mpr beyond]
  · have under : ¬ m.meter.budget.maxInstructions < m.meter.used + 1 := by omega
    by_cases late : m.meter.budget.maxMillis * nanosPerMilli < m.meter.clock (m.meter.used + 1)
    · have eq : (tick >>= fun _ => x) m = .error (.resourceExceeded .time m.meter.budget.maxMillis
          (m.meter.clock (m.meter.used + 1) / nanosPerMilli)) m.counted := by
        simp [tick, Meter.tick, under, late, Machine.counted, bind, EStateM.bind]
      simp [EStateM.ends_of_error eq, beyond, Nat.lt_of_not_le beyond, late, Nat.not_le.mpr late]
    · have eq : (tick >>= fun _ => x) m = x m.counted := by
        simp [tick, Meter.tick, under, late, Machine.counted, bind, EStateM.bind]
      simp [EStateM.ends_congr eq, beyond, Nat.lt_of_not_le beyond, late, Nat.le_of_not_lt late]

theorem ends_rounds_bind {f : Nat → Eval α} {r : Except EvalError α} :
    (rounds >>= f).Ends m r m' ↔ (f (m.meter.remaining + 1)).Ends m r m' :=
  EStateM.ends_congr rfl

/-- A call that is entered is left, however its body ends. -/
theorem ends_inCall {body : Eval α} {r : Except EvalError α} :
    (inCall body).Ends m r m' ↔
      (m.meter.budget.maxCallDepth ≤ m.meter.depth ∧
          r = .error (.resourceExceeded .callDepth m.meter.budget.maxCallDepth
            (m.meter.depth + 1)) ∧ m' = m) ∨
        (m.meter.depth < m.meter.budget.maxCallDepth ∧
          ∃ n, body.Ends m.entered r n ∧ m' = n.left) := by
  by_cases full : m.meter.budget.maxCallDepth ≤ m.meter.depth
  · have eq : inCall body m = .error (.resourceExceeded .callDepth m.meter.budget.maxCallDepth
        (m.meter.depth + 1)) m := by
      simp [inCall, Meter.enter, full]
    simp [EStateM.ends_of_error eq, full, Nat.not_lt.mpr full]
  · have room : m.meter.depth < m.meter.budget.maxCallDepth := Nat.lt_of_not_le full
    cases result : body m.entered with
    | ok a n =>
        have eq : inCall body m = .ok a n.left := by
          simp only [Machine.entered] at result
          simp [inCall, Meter.enter, full, result, Machine.left]
        simp [EStateM.ends_of_ok eq, EStateM.ends_of_ok result, full, room, and_assoc]
    | error e n =>
        have eq : inCall body m = .error e n.left := by
          simp only [Machine.entered] at result
          simp [inCall, Meter.enter, full, result, Machine.left]
        simp [EStateM.ends_of_error eq, EStateM.ends_of_error result, full, room, and_assoc]

/-- An action only changes the collections and what was printed. -/
theorem ends_act {action : Action α} {r : Except EvalError α} :
    (act action).Ends m r m' ↔ ∃ w, action.Ends m.world r w ∧ m' = { m with world := w } := by
  cases result : action m.world with
  | ok a w =>
      have eq : act action m = .ok a { m with world := w } := by simp [act, result]
      simp [EStateM.ends_of_ok eq, EStateM.ends_of_ok result, and_assoc]
  | error e w =>
      have eq : act action m = .error e { m with world := w } := by simp [act, result]
      simp [EStateM.ends_of_error eq, EStateM.ends_of_error result, and_assoc]

theorem ends_child {parent : ScopeId} {r : Except EvalError ScopeId} :
    (child parent).Ends m r m' ↔
      r = .ok ⟨m.scopes.frames.size⟩ ∧ m' = { m with scopes := (m.scopes.child parent).2 } :=
  EStateM.ends_of_ok rfl

theorem ends_define {scope : ScopeId} {name : String} {value : Value} {constant : Bool}
    {r : Except EvalError Unit} :
    (define scope name value constant).Ends m r m' ↔
      r = .ok () ∧ m' = { m with scopes := m.scopes.define scope name value constant } :=
  EStateM.ends_of_ok rfl

theorem ends_defineFunction {scope : ScopeId} {definition : FunctionDef}
    {r : Except EvalError Unit} :
    (defineFunction scope definition).Ends m r m' ↔
      r = .ok () ∧ m' = { m with scopes := m.scopes.defineFunction scope definition } :=
  EStateM.ends_of_ok rfl

theorem ends_assign {scope : ScopeId} {name : String} {value : Value} {r : Except EvalError Unit} :
    (assign scope name value).Ends m r m' ↔
      r = (m.scopes.assign scope name value).1.elim (.ok ())
          (fun e => .error (assignError name e)) ∧
        m' = { m with scopes := (m.scopes.assign scope name value).2 } := by
  cases result : m.scopes.assign scope name value with
  | mk refusal scopes =>
      cases refusal with
      | none =>
          have eq : assign scope name value m = .ok () { m with scopes := scopes } := by
            simp [assign, result]
          simp [EStateM.ends_of_ok eq]
      | some e =>
          have eq : assign scope name value m =
              .error (assignError name e) { m with scopes := scopes } := by
            simp [assign, result]
          simp [EStateM.ends_of_error eq]

theorem ends_meaning {scope : ScopeId} {name : String} {r : Except EvalError (Option Meaning)} :
    (meaning scope name).Ends m r m' ↔ r = .ok (m.scopes.lookup? scope name) ∧ m' = m :=
  EStateM.ends_of_ok rfl

theorem ends_exhausted {r : Except EvalError α} :
    exhausted.Ends m r m' ↔
      r = .error (.resourceExceeded .instructions m.meter.budget.maxInstructions
        (m.meter.budget.maxInstructions + 1)) ∧ m' = m :=
  EStateM.ends_of_error rfl

end Eval

end Formwork
