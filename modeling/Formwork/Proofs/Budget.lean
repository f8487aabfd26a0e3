import Formwork.Proofs.InStep

/-!
# Budgets are exact

A run uses up its budget instruction by instruction and never goes on after the last one:
`Eval.InStep.accounted`. A run that no limit ends is the same under every other budget that allows
as many instructions and as deep calls; under fewer instructions it is cut off at exactly the one
after the last: `Eval.InStep.rebudgeted`.
-/

namespace Formwork

namespace Machine

/-- The same state under another budget. -/
def under (m : Machine) (budget : Budget) : Machine :=
  { m with meter := { m.meter with budget := budget } }

/-- From one state to a later one the meter only counts upwards and no print is taken back. -/
structure Progress (m m' : Machine) : Prop where
  budget : m'.meter.budget = m.meter.budget
  clock : m'.meter.clock = m.meter.clock
  depth : m'.meter.depth = m.meter.depth
  used : m.meter.used ≤ m'.meter.used
  deepest : m.meter.deepest ≤ m'.meter.deepest
  printed : m.world.printed.toList <+: m'.world.printed.toList

namespace Progress

variable {m m' m'' : Machine}

theorem refl (m : Machine) : m.Progress m :=
  ⟨rfl, rfl, rfl, Nat.le_refl _, Nat.le_refl _, List.prefix_rfl⟩

theorem trans (first : m.Progress m') (second : m'.Progress m'') : m.Progress m'' where
  budget := second.budget.trans first.budget
  clock := second.clock.trans first.clock
  depth := second.depth.trans first.depth
  used := Nat.le_trans first.used second.used
  deepest := Nat.le_trans first.deepest second.deepest
  printed := first.printed.trans second.printed

theorem counted (m : Machine) : m.Progress m.counted :=
  ⟨rfl, rfl, rfl, Nat.le_succ _, Nat.le_refl _, List.prefix_rfl⟩

theorem ofQuiet {α : Type} {x : Eval α} (quiet : x.Quiet) {r : Except EvalError α}
    (ends : x.Ends m r m') : m.Progress m' := by
  have same := quiet.meter ends
  exact ⟨by rw [same], by rw [same], by rw [same], by simp [same], by simp [same],
    quiet.printed ends⟩

/-- A call is left at the depth where it was entered. -/
theorem ofCall (body : m.entered.Progress m') : m.Progress m'.left where
  budget := body.budget
  clock := body.clock
  depth := by
    show m'.meter.depth - 1 = m.meter.depth
    rw [body.depth]
    rfl
  used := body.used
  deepest := Nat.le_trans (Nat.le_max_left _ _) body.deepest
  printed := body.printed

theorem under (progress : m.Progress m') (budget : Budget) :
    (m.under budget).Progress (m'.under budget) :=
  { progress with budget := rfl }

theorem remaining_le (progress : m.Progress m') : m'.meter.remaining ≤ m.meter.remaining := by
  have used := progress.used
  unfold Meter.remaining
  rw [progress.budget]
  omega

end Progress

/--
What a computation ended with agrees with the meter: exactly one instruction too many was counted
when that is the error, none otherwise.
-/
structure Accounted {α : Type} (m : Machine) (r : Except EvalError α) : Prop where
  within : (∀ limit used, r ≠ .error (.resourceExceeded .instructions limit used)) →
    m.meter.used ≤ m.meter.budget.maxInstructions
  exceeded : ∀ limit used, r = .error (.resourceExceeded .instructions limit used) →
    limit = m.meter.budget.maxInstructions ∧ used = limit + 1 ∧ m.meter.used = limit + 1
  cycle : r = .error .endlessComparison → m.world.heap.KeyCycle

namespace Accounted

variable {α β : Type} {m : Machine} {r : Except EvalError α}

theorem error {e : EvalError} (accounted : m.Accounted (.error e : Except EvalError α)) :
    m.Accounted (.error e : Except EvalError β) := by
  obtain ⟨within, exceeded, cycle⟩ := accounted
  simp only [ne_eq, Except.error.injEq] at within exceeded cycle
  constructor <;> simpa only [ne_eq, Except.error.injEq]

/-- The count goes beyond the limit with the very instruction that the error reports. -/
theorem used_eq_iff (accounted : m.Accounted r) :
    m.meter.used = m.meter.budget.maxInstructions + 1 ↔
      r = .error (.resourceExceeded .instructions m.meter.budget.maxInstructions
        (m.meter.budget.maxInstructions + 1)) := by
  constructor
  · intro count
    by_contra other
    have few := accounted.within fun limit used same => other (by
      obtain ⟨rfl, rfl, -⟩ := accounted.exceeded limit used same
      exact same)
    omega
  · intro same
    exact (accounted.exceeded _ _ same).2.2

theorem used_le (accounted : m.Accounted r) :
    m.meter.used ≤ m.meter.budget.maxInstructions + 1 := by
  by_cases count : m.meter.used = m.meter.budget.maxInstructions + 1
  · exact Nat.le_of_eq count
  · refine Nat.le_succ_of_le (accounted.within fun limit used same => count ?_)
    obtain ⟨rfl, rfl, count⟩ := accounted.exceeded limit used same
    exact count

end Accounted

theorem remaining_counted {m : Machine} {bound : Nat}
    (more : m.meter.used < m.meter.budget.maxInstructions) (room : m.meter.remaining < bound) :
    m.counted.meter.remaining < bound - 1 := by
  simp only [Meter.remaining, counted] at *
  omega

end Machine

namespace Eval.InStep

variable {α : Type} {left right : Nat} {x y : Eval α}

/-- A computation only counts upwards. -/
theorem progress (step : InStep left right x y) {m m' : Machine} {r : Except EvalError α}
    (room : m.meter.remaining < left) (ends : x.Ends m r m') : m.Progress m' := by
  induction step generalizing m m' with
  | spent => exact (Nat.not_lt_zero _ room).elim
  | spent_left => exact (Nat.not_lt_zero _ room).elim
  | spent_right y alone ih => exact ih room ends
  | quiet quiet => exact .ofQuiet quiet ends
  | tick later ih =>
      obtain ⟨-, -, rfl⟩ | ⟨-, -, -, rfl⟩ | ⟨more, -, rest⟩ := ends_tick_bind.mp ends
      · exact .counted m
      · exact .counted m
      · exact (Machine.Progress.counted m).trans (ih (m.remaining_counted more room) rest)
  | rounds later ih =>
      exact ih _ 0 room (Nat.zero_le _) (Nat.lt_succ_self _) (ends_rounds_bind.mp ends)
  | inCall body ih =>
      obtain ⟨-, -, rfl⟩ | ⟨-, n, inside, rfl⟩ := ends_inCall.mp ends
      · exact .refl m'
      · exact .ofCall (ih (m := m.entered) room inside)
  | bind first later ih_first ih =>
      obtain ⟨e, rfl, failed⟩ | ⟨a, t, done, rest⟩ := EStateM.ends_bind.mp ends
      · exact ih_first room failed
      · have progress := ih_first room done
        exact progress.trans (ih a (Nat.lt_of_le_of_lt progress.remaining_le room) rest)

/-- What a computation ends with agrees with the meter. -/
theorem accounted (step : InStep left right x y) {m m' : Machine} {r : Except EvalError α}
    (room : m.meter.remaining < left) (within : m.meter.used ≤ m.meter.budget.maxInstructions)
    (ends : x.Ends m r m') : m'.Accounted r := by
  induction step generalizing m m' with
  | spent => exact (Nat.not_lt_zero _ room).elim
  | spent_left => exact (Nat.not_lt_zero _ room).elim
  | spent_right y alone ih => exact ih room within ends
  | quiet quiet =>
      refine ⟨?_, ?_, ?_⟩
      · intro _
        rw [quiet.meter ends]
        exact within
      · rintro limit used rfl
        exact (quiet.proper ends).elim
      · rintro rfl
        exact quiet.proper ends
  | tick later ih =>
      obtain ⟨beyond, rfl, rfl⟩ | ⟨more, -, rfl, rfl⟩ | ⟨more, -, rest⟩ := ends_tick_bind.mp ends
      · have full : m.meter.used = m.meter.budget.maxInstructions := Nat.le_antisymm within beyond
        refine ⟨fun other => (other _ _ rfl).elim, ?_, by simp⟩
        rintro limit used ⟨⟩
        simp [Machine.counted, full]
      · exact ⟨fun _ => more, by simp, by simp⟩
      · exact ih (m.remaining_counted more room) more rest
  | rounds later ih =>
      exact ih _ 0 room (Nat.zero_le _) (Nat.lt_succ_self _) within (ends_rounds_bind.mp ends)
  | inCall body ih =>
      obtain ⟨-, rfl, rfl⟩ | ⟨-, n, inside, rfl⟩ := ends_inCall.mp ends
      · exact ⟨fun _ => within, by simp, by simp⟩
      · have accounted := ih (m := m.entered) room within inside
        exact ⟨accounted.within, accounted.exceeded, accounted.cycle⟩
  | bind first later ih_first ih =>
      obtain ⟨e, rfl, failed⟩ | ⟨a, t, done, rest⟩ := EStateM.ends_bind.mp ends
      · exact (ih_first room within failed).error
      · have progress := first.progress room done
        have accounted := ih_first room within done
        exact ih a (Nat.lt_of_le_of_lt progress.remaining_le room) (accounted.within (by simp)) rest

/--
A computation that no limit ended, run under another budget that allows its calls: the same if the
budget allows its instructions, and else cut off at the first that it does not allow.
-/
theorem rebudgeted (step : InStep left right x y) {m m' : Machine} {r : Except EvalError α}
    {budget : Budget} (room : m.meter.remaining < left)
    (room' : (m.under budget).meter.remaining < right)
    (within : m.meter.used ≤ m.meter.budget.maxInstructions)
    (within' : m.meter.used ≤ budget.maxInstructions)
    (timely : ∀ n, m.meter.clock n ≤ budget.maxMillis * nanosPerMilli)
    (ends : x.Ends m r m') (unlimited : ∀ resource limit used,
      r ≠ .error (.resourceExceeded resource limit used))
    (deep : m'.meter.deepest ≤ budget.maxCallDepth) :
    (m'.meter.used ≤ budget.maxInstructions ∧ y.Ends (m.under budget) r (m'.under budget)) ∨
      (budget.maxInstructions < m'.meter.used ∧
        ∃ n, y.Ends (m.under budget) (.error (.resourceExceeded .instructions
          budget.maxInstructions (budget.maxInstructions + 1))) n ∧
          n.world.printed.toList <+: m'.world.printed.toList) := by
  induction step generalizing m m' with
  | spent => exact (Nat.not_lt_zero _ room).elim
  | spent_left => exact (Nat.not_lt_zero _ room).elim
  | spent_right => exact (Nat.not_lt_zero _ room').elim
  | quiet quiet =>
      have same := quiet.meter ends
      refine .inl ⟨by rwa [same], ?_⟩
      have kept : m'.under budget = { m' with meter := (m.under budget).meter } := by
        simp [Machine.under, same]
      rw [kept]
      exact quiet.apart ends _
  | @tick left right _ x y later ih =>
      obtain ⟨-, rfl, -⟩ | ⟨-, -, rfl, -⟩ | ⟨more, -, rest⟩ := ends_tick_bind.mp ends
      · exact (unlimited _ _ _ rfl).elim
      · exact (unlimited _ _ _ rfl).elim
      · by_cases enough : m.meter.used < budget.maxInstructions
        · have first {r n} (rest : y.Ends (m.under budget).counted r n) :
              (Eval.tick >>= fun _ => y).Ends (m.under budget) r n :=
            ends_tick_bind.mpr (.inr (.inr ⟨enough, timely _, rest⟩))
          have room' := (m.under budget).remaining_counted enough room'
          obtain ⟨le, rest⟩ | ⟨lt, n, rest, printed⟩ := ih (m := m.counted)
            (m.remaining_counted more room) room' more enough timely rest unlimited deep
          · exact .inl ⟨le, first rest⟩
          · exact .inr ⟨lt, n, first rest, printed⟩
        · -- The budget is spent before this instruction, and the run counts at least one more.
          have full : m.meter.used = budget.maxInstructions := by omega
          have progress := later.progress (m.remaining_counted more room) rest
          refine .inr ⟨?_, (m.under budget).counted, ends_tick_bind.mpr (.inl ⟨?_, ?_, rfl⟩),
            progress.printed⟩
          · exact Nat.lt_of_lt_of_le (by simp [Machine.counted, full]) progress.used
          · exact Nat.le_of_eq full.symm
          · simp [Machine.under, full]
  | rounds later ih =>
      simp only [ends_rounds_bind] at ends ⊢
      exact ih _ _ room room' (Nat.lt_succ_self _) (Nat.lt_succ_self _) within within' timely ends
        unlimited deep
  | @inCall left right _ x y body ih =>
      obtain ⟨-, rfl, -⟩ | ⟨-, n, inside, rfl⟩ := ends_inCall.mp ends
      · exact (unlimited _ _ _ rfl).elim
      · have progress := body.progress (m := m.entered) room inside
        have shallow : m.meter.depth < budget.maxCallDepth := by
          have := progress.deepest
          simp only [Machine.entered, Machine.left, Meter.exit] at this deep
          omega
        have around {r n} (inside : y.Ends (m.entered.under budget) r n) :
            (Eval.inCall y).Ends (m.under budget) r n.left :=
          ends_inCall.mpr (.inr ⟨shallow, n, inside, rfl⟩)
        obtain ⟨le, inside⟩ | ⟨lt, n, inside, printed⟩ :=
          ih (m := m.entered) room room' within within' timely inside unlimited deep
        · exact .inl ⟨le, around inside⟩
        · exact .inr ⟨lt, n.left, around inside, printed⟩
  | bind first later ih_first ih =>
      obtain ⟨e, rfl, failed⟩ | ⟨a, t, ended, rest⟩ := EStateM.ends_bind.mp ends
      · obtain ⟨le, failed⟩ | ⟨lt, n, failed, printed⟩ := ih_first room room' within within' timely
          failed (by simpa using unlimited) deep
        · exact .inl ⟨le, EStateM.ends_bind.mpr (.inl ⟨e, rfl, failed⟩)⟩
        · exact .inr ⟨lt, n, EStateM.ends_bind.mpr (.inl ⟨_, rfl, failed⟩), printed⟩
      · have progress := first.progress room ended
        have accounted := first.accounted room within ended
        have room_t := Nat.lt_of_le_of_lt progress.remaining_le room
        have within_t := accounted.within (by simp)
        have progress' := (later a).progress room_t rest
        obtain ⟨le, ended⟩ | ⟨lt, n, failed, printed⟩ := ih_first room room' within within' timely
          ended (by simp) (Nat.le_trans progress'.deepest deep)
        · obtain ⟨le, rest⟩ | ⟨lt, n, rest, printed⟩ := ih a room_t
            (Nat.lt_of_le_of_lt (progress.under budget).remaining_le room') within_t le
            (by rwa [progress.clock]) rest unlimited deep
          · exact .inl ⟨le, EStateM.ends_bind.mpr (.inr ⟨a, _, ended, rest⟩)⟩
          · exact .inr ⟨lt, n, EStateM.ends_bind.mpr (.inr ⟨a, _, ended, rest⟩), printed⟩
        · exact .inr ⟨Nat.lt_of_lt_of_le lt progress'.used, n,
            EStateM.ends_bind.mpr (.inl ⟨_, rfl, failed⟩), printed.trans progress'.printed⟩

end Eval.InStep

namespace Script

variable {s : Script} {function : String} {bindings : List (String × Value)} {world : World}
  {budget : Budget} {clock : Clock} {r : Except EvalError Value} {m : Machine}

theorem Ends.accounted (ends : s.Ends .standard budget clock function bindings world r m) :
    (Machine.start budget clock world).2.Progress m ∧ m.Accounted r := by
  have step : Eval.InStep (budget.maxInstructions + 1) 0
      (s.computation .standard ⟨0⟩ function bindings)
      (s.computation .standard ⟨0⟩ function bindings) :=
    computation_inStep Registry.standard_quiet _
  exact ⟨step.progress (Nat.lt_succ_self _) ends,
    step.accounted (Nat.lt_succ_self _) (Nat.zero_le _) ends⟩

theorem Ends.rebudgeted (ends : s.Ends .standard budget clock function bindings world r m)
    (unlimited : ∀ resource limit used, r ≠ .error (.resourceExceeded resource limit used))
    (budget' : Budget) (timely : ∀ n, clock n ≤ budget'.maxMillis * nanosPerMilli)
    (deep : m.meter.deepest ≤ budget'.maxCallDepth) :
    (m.meter.used ≤ budget'.maxInstructions ∧
        s.Ends .standard budget' clock function bindings world r (m.under budget')) ∨
      (budget'.maxInstructions < m.meter.used ∧
        ∃ n, s.Ends .standard budget' clock function bindings world (.error (.resourceExceeded
          .instructions budget'.maxInstructions (budget'.maxInstructions + 1))) n ∧
          n.world.printed.toList <+: m.world.printed.toList) := by
  have step : Eval.InStep (budget.maxInstructions + 1) (budget'.maxInstructions + 1)
      (s.computation .standard ⟨0⟩ function bindings)
      (s.computation .standard ⟨0⟩ function bindings) :=
    computation_inStep Registry.standard_quiet _
  exact step.rebudgeted (Nat.lt_succ_self _) (Nat.lt_succ_self _) (Nat.zero_le _) (Nat.zero_le _)
    timely ends unlimited deep

/--
Budgets are exact. A run counts at most one instruction more than its limit, and that only when it
fails because of it. A run that no limit ends has the same result, collections and prints whenever
the instructions and the depth it used are allowed; with fewer instructions it fails at the first
one too many, having printed the beginning of the same.
-/
theorem run_exact (s : Script) (function : String) (bindings : List (String × Value))
    (world : World) (millis : Nat) (clock : Clock)
    (timely : ∀ n, clock n ≤ millis * nanosPerMilli) (limit depth : Nat) :
    ∃ r m, s.Ends .standard ⟨limit, millis, depth⟩ clock function bindings world r m ∧
      (s.run .standard ⟨limit, millis, depth⟩ clock function bindings).Ends world r m.world ∧
      m.meter.used ≤ limit + 1 ∧
      (m.meter.used = limit + 1 ↔
        r = .error (.resourceExceeded .instructions limit (limit + 1))) ∧
      (∀ l u, r = .error (.resourceExceeded .instructions l u) → l = limit ∧ u = limit + 1) ∧
      ((∀ resource l u, r ≠ .error (.resourceExceeded resource l u)) →
        ∀ limit' depth', m.meter.deepest ≤ depth' →
          (m.meter.used ≤ limit' →
            (s.run .standard ⟨limit', millis, depth'⟩ clock function bindings).Ends
              world r m.world) ∧
          (limit' < m.meter.used →
            ∃ w, (s.run .standard ⟨limit', millis, depth'⟩ clock function bindings).Ends world
                (.error (.resourceExceeded .instructions limit' (limit' + 1))) w ∧
              world.printed.toList <+: w.printed.toList ∧
              w.printed.toList <+: m.world.printed.toList)) := by
  obtain ⟨r, m, ends⟩ : ∃ r m,
      s.Ends .standard ⟨limit, millis, depth⟩ clock function bindings world r m :=
    EStateM.exists_ends _ _
  obtain ⟨progress, accounted⟩ := ends.accounted
  have limit_eq : m.meter.budget.maxInstructions = limit := by rw [progress.budget]; rfl
  refine ⟨r, m, ends, ends.run, limit_eq ▸ accounted.used_le, limit_eq ▸ accounted.used_eq_iff,
    ?_, ?_⟩
  · intro l u same
    obtain ⟨rfl, rfl, -⟩ := accounted.exceeded l u same
    exact ⟨limit_eq, by rw [limit_eq]⟩
  · intro unlimited limit' depth' deep
    have other := ends.rebudgeted unlimited ⟨limit', millis, depth'⟩ timely deep
    constructor
    · intro enough
      obtain ⟨-, same⟩ | ⟨short, -⟩ := other
      · exact same.run
      · exact absurd enough (Nat.not_le.mpr short)
    · intro short
      obtain ⟨enough, -⟩ | ⟨-, n, cut, printed⟩ := other
      · exact absurd short (Nat.not_lt.mpr enough)
      · exact ⟨n.world, cut.run, cut.accounted.1.printed, printed⟩

/-- A function that prints in each round of a loop. -/
def printing : String := "fun bool main() { for bool x in [true, false] do print(x); not true }"

theorem run_exact_printing :
    ∃ s m, Script.compile {} "t" printing = .ok s ∧
      s.Ends .standard ⟨100, 0, 1⟩ (fun _ => 0) "main" [] ⟨.empty, #[]⟩ (.ok (.bool false)) m ∧
      ∀ limit < m.meter.used,
        ∃ w, (s.run .standard ⟨limit, 0, m.meter.deepest⟩ (fun _ => 0) "main" []).Ends
          ⟨.empty, #[]⟩ (.error (.resourceExceeded .instructions limit (limit + 1))) w := by
  obtain ⟨s, compiled, ran⟩ := Except.exists_of_any (show
    (Script.compile {} "t" printing).toOption.any (fun s =>
      (Action.truth? (s.run .standard ⟨100, 0, 1⟩ (fun _ => 0) "main" [] ⟨.empty, #[]⟩)).any
        fun p => !p.1) = true by decide +kernel)
  obtain ⟨⟨b, w⟩, answered, no⟩ := (Option.any_eq_true _ _).mp ran
  obtain rfl : b = false := by simpa using no
  obtain ⟨r, m, ends, run, -, -, -, others⟩ := run_exact s "main" [] ⟨.empty, #[]⟩ 0
    (fun _ => 0) (fun _ => Nat.zero_le _) 100 1
  obtain ⟨rfl, -⟩ := (EStateM.ends_of_ok (Action.eq_of_truth? answered)).mp run
  refine ⟨s, m, compiled, ends, fun limit short => ?_⟩
  obtain ⟨w, cut, -⟩ := (others (by simp) limit m.meter.deepest (Nat.le_refl _)).2 short
  exact ⟨w, cut⟩

end Script

end Formwork
