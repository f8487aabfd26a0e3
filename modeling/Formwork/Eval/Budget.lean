import Formwork.Eval.Error

/-!
# Budgets

A budget limits the instructions, the time and the depth of calls of one run. The meter counts
against it. Time is what a clock shows: its reading at each instruction is given beforehand, so that
running a program is a function of its input.
-/

namespace Formwork

/-- The limits of one run. -/
structure Budget where
  /-- How many instructions may be executed. -/
  maxInstructions : Nat := 1000000
  /-- How many milliseconds may pass. -/
  maxMillis : Nat := 5000
  /-- How deep calls may be nested. -/
  maxCallDepth : Nat := 256
deriving DecidableEq, Repr, Inhabited

/-- The nanoseconds that have passed when the instruction with a given number is executed. -/
abbrev Clock := Nat → Nat

/-- The clock that shows one nanosecond more at each instruction. -/
def Clock.steady : Clock := id

/-- The nanoseconds of a millisecond. -/
def nanosPerMilli : Nat := 1000000

/-- What has been used of a budget. -/
structure Meter where
  /-- The limits. -/
  budget : Budget
  /-- The clock that limits the time. -/
  clock : Clock
  /-- The instructions executed so far. -/
  used : Nat
  /-- The calls that have been entered and not left. -/
  depth : Nat
  /-- The most calls that have been entered and not left at any time. -/
  deepest : Nat

namespace Meter

/-- The meter at the start of a run. -/
def start (budget : Budget) (clock : Clock) : Meter := ⟨budget, clock, 0, 0, 0⟩

/-- The instructions that are left. -/
def remaining (m : Meter) : Nat := m.budget.maxInstructions - m.used

/-- Counts one instruction; it fails when that is one too many or the time is up. -/
def tick (m : Meter) : Option EvalError × Meter :=
  let m := { m with used := m.used + 1 }
  if m.budget.maxInstructions < m.used then
    (some (.resourceExceeded .instructions m.budget.maxInstructions m.used), m)
  else
    let now := m.clock m.used
    if m.budget.maxMillis * nanosPerMilli < now then
      (some (.resourceExceeded .time m.budget.maxMillis (now / nanosPerMilli)), m)
    else (none, m)

@[simp]
theorem used_tick (m : Meter) : m.tick.2.used = m.used + 1 := by
  unfold tick
  simp only
  split
  · rfl
  · split <;> rfl

@[simp]
theorem depth_tick (m : Meter) : m.tick.2.depth = m.depth := by
  unfold tick
  simp only
  split
  · rfl
  · split <;> rfl

/-- Enters a call; it fails when calls would be nested too deep. -/
def enter (m : Meter) : Option EvalError × Meter :=
  if m.budget.maxCallDepth ≤ m.depth then
    (some (.resourceExceeded .callDepth m.budget.maxCallDepth (m.depth + 1)), m)
  else (none, { m with depth := m.depth + 1, deepest := max m.deepest (m.depth + 1) })

/-- Leaves a call. -/
def exit (m : Meter) : Meter := { m with depth := m.depth - 1 }

end Meter

end Formwork
