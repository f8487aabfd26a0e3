import Formwork.Proofs.Comparison
import Mathlib

/-!
# Comparisons that are settled at once

Values that are not collections are compared without a look at the heap, and so is a collection with
itself. Such comparisons are symmetric and transitive, and every value but one equals itself: the
number that is not a number equals nothing. What is known of comparing numbers comes with Mathlib as
a whole and with none of its modules alone.
-/

namespace Formwork

namespace Value

/-- Equal numbers or truth values, two units, or the same function. -/
inductive Same : Value → Value → Prop
  | number {x y : Float} (same : (x == y) = true) : Same (.number x) (.number y)
  | bool (b : Bool) : Same (.bool b) (.bool b)
  | unit : Same .unit .unit
  | function {f g : Closure} (same : f.id = g.id) : Same (.function f) (.function g)

/-- A value that is not a collection. -/
def Plain (v : Value) : Prop := v.handle? = none

instance (v : Value) : Decidable v.Plain := inferInstanceAs (Decidable (_ = none))

theorem Same.symm {a b : Value} (same : a.Same b) : b.Same a := by
  cases same with
  | number same => exact .number (BEq.symm same)
  | bool b => exact .bool b
  | unit => exact .unit
  | function same => exact .function same.symm

theorem Same.trans {a b c : Value} (first : a.Same b) (second : b.Same c) : a.Same c := by
  cases first with
  | number same =>
      cases second with
      | number same' => exact .number (BEq.trans same same')
  | bool b => exact second
  | unit => exact second
  | function same =>
      cases second with
      | function same' => exact .function (same.trans same')

theorem same_iff_settled? {a b : Value} (plain : a.Plain) :
    a.Same b ↔ a.settled? [] b = some true := by
  constructor
  · intro same
    cases same with
    | number same => simp [settled?, same]
    | bool b => simp [settled?]
    | unit => rfl
    | function same => simp [settled?, same]
  · intro settled
    cases a with
    | list i | map i => cases plain
    | number x =>
        cases b <;> simp only [settled?, Option.some.injEq, reduceCtorEq] at settled
        exact .number settled
    | bool x =>
        cases b <;> simp only [settled?, Option.some.injEq, beq_iff_eq, reduceCtorEq] at settled
        exact settled ▸ .bool x
    | unit =>
        cases b <;> simp only [settled?, Option.some.injEq, reduceCtorEq] at settled
        exact .unit
    | function f =>
        cases b <;> simp only [settled?, Option.some.injEq, beq_iff_eq, reduceCtorEq] at settled
        exact .function settled

/-- What settles a comparison at once. -/
theorem settled?_iff {a b : Value} :
    a.settled? [] b = some true ↔ a.Same b ∨ ∃ c, a.handle? = some c ∧ b.handle? = some c := by
  by_cases plain : a.Plain
  · have none : ¬ ∃ c, a.handle? = some c ∧ b.handle? = some c := by
      rintro ⟨c, handle, -⟩
      exact absurd (plain.symm.trans handle) (by simp)
    rw [same_iff_settled? plain, or_iff_left none]
  · have other : ¬ a.Same b := by
      rintro (_ | _ | _ | _) <;> exact plain rfl
    rw [or_iff_right other]
    cases a with
    | list i => cases b <;> simp [settled?, handle?, eq_comm]
    | map i => cases b <;> simp [settled?, handle?, eq_comm]
    | _ => exact absurd rfl plain

theorem settled?_symm {a b : Value} (same : a.settled? [] b = some true) :
    b.settled? [] a = some true := by
  obtain same | ⟨c, left, right⟩ := settled?_iff.mp same
  · exact settled?_iff.mpr (.inl same.symm)
  · exact settled?_iff.mpr (.inr ⟨c, right, left⟩)

theorem settled?_trans {a b c : Value} (first : a.settled? [] b = some true)
    (second : b.settled? [] c = some true) : a.settled? [] c = some true := by
  cases a <;> cases b <;> cases c <;> simp_all [settled?]
  exact BEq.trans first second

/-- A collection is settled to be equal only to itself. -/
theorem eq_of_settled? {a b : Value} {c : Handle} (handle : b.handle? = some c)
    (same : a.settled? [] b = some true) : a = b := by
  cases a <;> cases b <;> simp_all [settled?, handle?]

/-! ## The number that does not equal itself -/

/-- The number that does not equal itself. -/
def isNaN : Value → Bool
  | .number x => x.isNaN
  | _ => false

theorem settled?_nan_left {a : Value} (nan : a.isNaN) (b : Value) :
    a.settled? [] b = some false := by
  cases a <;> simp only [isNaN, Bool.false_eq_true] at nan
  rw [Float.isNaN_eq_decide_eq_nan, decide_eq_true_eq] at nan
  cases b <;> simp [settled?, nan, Float.nan_beq_eq_false]

theorem settled?_nan_right (a : Value) {b : Value} (nan : b.isNaN) :
    a.settled? [] b = some false := by
  cases b <;> simp only [isNaN, Bool.false_eq_true] at nan
  rw [Float.isNaN_eq_decide_eq_nan, decide_eq_true_eq] at nan
  cases a <;> simp [settled?, nan, Float.beq_nan_eq_false]

theorem settled?_self {v : Value} (proper : ¬ v.isNaN) : v.settled? [] v = some true := by
  cases v with
  | number x =>
      have other : x ≠ .nan := by simpa [isNaN, Float.isNaN_eq_decide_eq_nan] using proper
      exact congrArg some (Float.beq_self_iff.mpr other)
  | _ => simp [settled?]

end Value

end Formwork
