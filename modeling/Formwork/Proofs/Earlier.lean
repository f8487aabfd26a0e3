import Formwork.Proofs.Budget

/-!
# Computations begun earlier

A computation that no limit ends does the same when fewer instructions have been counted before it
begins: `Eval.InStep.earlier`. A clock may show anything at an instruction, so this takes that the
numbers in between were in time, too. Where the same instructions were counted before, they were.
-/

namespace Formwork

/-- The time is not up at any instruction after one number and up to another one. -/
def Meter.Timely (meter : Meter) (first last : Nat) : Prop :=
  ∀ n, first < n → n ≤ last → meter.clock n ≤ meter.budget.maxMillis * nanosPerMilli

namespace Meter.Timely

variable {meter : Meter} {first middle last : Nat}

theorem trans (before : meter.Timely first middle) (after : meter.Timely middle last) :
    meter.Timely first last := by
  intro n lt le
  by_cases early : n ≤ middle
  · exact before n lt early
  · exact after n (Nat.lt_of_not_le early) le

theorem mono (timely : meter.Timely first last) {first' last' : Nat} (le : first ≤ first')
    (le' : last' ≤ last) : meter.Timely first' last' :=
  fun n after before => timely n (Nat.lt_of_le_of_lt le after) (Nat.le_trans before le')

theorem refl (meter : Meter) (n : Nat) : meter.Timely n n :=
  fun _ lt le => (Nat.not_lt.mpr le lt).elim

theorem succ {n : Nat} (now : meter.clock (n + 1) ≤ meter.budget.maxMillis * nanosPerMilli) :
    meter.Timely n (n + 1) := by
  intro i lt le
  obtain rfl : i = n + 1 := by omega
  exact now

end Meter.Timely

namespace Machine

/-- The state with more instructions counted. -/
def later (m : Machine) (n : Nat) : Machine :=
  { m with meter := { m.meter with used := m.meter.used + n } }

variable {m m' : Machine}

theorem counted_later (m : Machine) (n : Nat) : (m.later n).counted = m.counted.later n := by
  simp [counted, later, Nat.add_right_comm]

theorem later_succ (m : Machine) (n : Nat) : m.counted.later n = m.later (n + 1) := by
  simp [counted, later, Nat.add_assoc, Nat.add_comm 1]

namespace Progress

theorem later (progress : m.Progress m') (n : Nat) : (m.later n).Progress (m'.later n) :=
  { progress with used := Nat.add_le_add_right progress.used n }

theorem timely_iff (progress : m.Progress m') {first last : Nat} :
    m'.meter.Timely first last ↔ m.meter.Timely first last := by
  simp only [Meter.Timely, progress.budget, progress.clock]

end Progress

end Machine

namespace Eval.InStep

variable {α : Type} {left right : Nat} {x y : Eval α}

/-- A computation that no limit ends does the same with fewer instructions counted before it. -/
theorem earlier (step : InStep left right x y) (k : Nat) {m n : Machine} {r : Except EvalError α}
    (room : (m.later k).meter.remaining < left) (room' : m.meter.remaining < right)
    (timely : m.meter.Timely m.meter.used (m.meter.used + k)) (ends : x.Ends (m.later k) r n)
    (unlimited : ∀ resource limit used, r ≠ .error (.resourceExceeded resource limit used)) :
    ∃ n', n = n'.later k ∧ y.Ends m r n' ∧ m.Progress n' ∧
      m.meter.Timely m.meter.used (n'.meter.used + k) := by
  induction step generalizing m n with
  | spent => exact (Nat.not_lt_zero _ room).elim
  | spent_left => exact (Nat.not_lt_zero _ room).elim
  | spent_right => exact (Nat.not_lt_zero _ room').elim
  | quiet quiet =>
      have ends' := quiet.apart ends m.meter
      refine ⟨{ n with meter := m.meter }, ?_, ends', .ofQuiet quiet ends', timely⟩
      obtain ⟨world, scopes, meter⟩ := n
      obtain rfl : meter = (m.later k).meter := quiet.meter ends
      rfl
  | @tick left right _ x y later ih =>
      obtain ⟨-, rfl, -⟩ | ⟨-, -, rfl, -⟩ | ⟨more, now, rest⟩ := ends_tick_bind.mp ends
      · exact (unlimited _ _ _ rfl).elim
      · exact (unlimited _ _ _ rfl).elim
      · rw [m.counted_later] at rest
        -- Each number that is counted now was counted before, or is the one counted there.
        have timely' : m.meter.Timely m.meter.used (m.meter.used + k + 1) :=
          timely.trans (.succ now)
        have le : m.meter.used + 1 ≤ m.meter.used + k + 1 := by omega
        have shifted : m.counted.meter.used + k = m.meter.used + k + 1 := Nat.add_right_comm _ 1 k
        have more' : m.meter.used < m.meter.budget.maxInstructions :=
          Nat.lt_of_le_of_lt (Nat.le_add_right _ k) more
        have room_later : (m.counted.later k).meter.remaining < left - 1 := by
          rw [← m.counted_later]
          exact (m.later k).remaining_counted more room
        obtain ⟨n', rfl, rest', progress, timely_n⟩ := ih room_later
          (m.remaining_counted more' room')
          (timely'.mono (Nat.le_succ _) (Nat.le_of_eq shifted)) rest unlimited
        exact ⟨n', rfl,
          ends_tick_bind.mpr (.inr (.inr ⟨more', timely' _ (Nat.lt_succ_self _) le, rest'⟩)),
          (Machine.Progress.counted m).trans progress,
          (timely'.mono (Nat.le_refl _) le).trans timely_n⟩
  | rounds later ih =>
      simp only [ends_rounds_bind] at ends ⊢
      exact ih _ _ room room' (Nat.lt_succ_self _) (Nat.lt_succ_self _) timely ends unlimited
  | @inCall left right _ x y body ih =>
      obtain ⟨-, rfl, -⟩ | ⟨shallow, n, inside, rfl⟩ := ends_inCall.mp ends
      · exact (unlimited _ _ _ rfl).elim
      · obtain ⟨n', rfl, inside', progress, timely_n⟩ :=
          ih (m := m.entered) room room' timely inside unlimited
        exact ⟨n'.left, rfl, ends_inCall.mpr (.inr ⟨shallow, n', inside', rfl⟩), .ofCall progress,
          timely_n⟩
  | bind first later ih_first ih =>
      obtain ⟨e, rfl, failed⟩ | ⟨a, t, ended, rest⟩ := EStateM.ends_bind.mp ends
      · obtain ⟨n', rfl, failed', progress, timely_n⟩ :=
          ih_first room room' timely failed (by simpa using unlimited)
        exact ⟨n', rfl, EStateM.ends_bind.mpr (.inl ⟨e, rfl, failed'⟩), progress, timely_n⟩
      · obtain ⟨t', rfl, ended', progress, timely_t⟩ :=
          ih_first room room' timely ended (by simp)
        have timely' : t'.meter.Timely t'.meter.used (t'.meter.used + k) :=
          progress.timely_iff.mpr (timely_t.mono progress.used (Nat.le_refl _))
        obtain ⟨n', rfl, rest', progress', timely_n⟩ := ih a
          (Nat.lt_of_le_of_lt (progress.later k).remaining_le room)
          (Nat.lt_of_le_of_lt progress.remaining_le room') timely' rest unlimited
        exact ⟨n', rfl, EStateM.ends_bind.mpr (.inr ⟨a, t', ended', rest'⟩),
          progress.trans progress',
          (timely_t.mono (Nat.le_refl _) (Nat.le_add_right _ k)).trans
            (progress.timely_iff.mp timely_n)⟩

end Eval.InStep

end Formwork
