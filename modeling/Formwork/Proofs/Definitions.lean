import Formwork.Grammar.Reading
import Formwork.Proofs.Lasting
import Formwork.Proofs.Totality

/-!
# Definitions one after another

Reading one definition does one of three things, and `Reading.definitionStep_eq_next_iff` lists them
with all that is decided on the way: a global definition is read, or a function, or neither. What
they come to, `Reading.definitionStep_spec` says in terms of the grammar: a global definition, a
function, or a failure that is reported and skipped. In each case less text is left than before, so
`Reading.run?_isSome`: every source has a reading, under any limits.
-/

namespace Formwork

/-! ## Recovery -/

namespace Position

theorem length_skipOne {p : Position} (more : p.isEnd = false) :
    p.skipOne.rest.length < p.rest.length := by
  unfold isEnd at more
  unfold skipOne
  split
  · rename_i empty
    simp [empty] at more
  · rename_i c rest text
    simp [text]

theorem leadsTo_skipOne (p : Position) : p.LeadsTo p.skipOne := by
  unfold skipOne
  split
  · exact .refl p
  · rename_i c rest text
    exact ⟨[c], text, rfl⟩

theorem word?_spec {p after : Position} {word : List Char} (found : p.word? = some (word, after)) :
    p.LeadsTo after ∧ after.rest.length < p.rest.length := by
  unfold word? at found
  split at found
  · exact absurd found (by simp)
  · rename_i nonempty
    obtain ⟨-, rfl⟩ := Prod.mk.inj (Option.some.inj found)
    obtain ⟨-, -, rest_eq⟩ := wordChars_spec nonempty
    refine ⟨⟨p.wordChars, rest_eq, rfl⟩, ?_⟩
    have positive := List.length_pos_iff.mpr nonempty
    have lengths := congrArg List.length rest_eq
    rw [List.length_append] at lengths
    simp only
    omega

theorem leadsTo_findKeyword (wanted : List Keyword) (fuel : Nat) (p : Position) :
    p.LeadsTo (findKeyword wanted fuel p) := by
  induction fuel generalizing p with
  | zero => exact .refl p
  | succ fuel ih =>
      refine (leadsTo_skipGap p).trans ?_
      unfold findKeyword
      simp only
      split
      · exact .refl _
      · split
        · rename_i word after found
          split
          · exact .refl _
          · exact (word?_spec found).1.trans (ih after)
        · exact (leadsTo_skipOne _).trans (ih _)

theorem leadsTo_skipToKeyword (wanted : List Keyword) (p : Position) :
    p.LeadsTo (p.skipToKeyword wanted) := by
  unfold skipToKeyword
  simp only
  split
  · rename_i word after found
    exact (word?_spec found).1.trans (leadsTo_findKeyword ..)
  · exact (leadsTo_skipOne p).trans (leadsTo_findKeyword ..)

theorem length_skipToKeyword (wanted : List Keyword) {p : Position} (more : p.isEnd = false) :
    (p.skipToKeyword wanted).rest.length < p.rest.length := by
  unfold skipToKeyword
  simp only
  split
  · rename_i word after found
    exact (leadsTo_findKeyword ..).length_le.trans_lt (word?_spec found).2
  · exact (leadsTo_findKeyword ..).length_le.trans_lt (length_skipOne more)

end Position

namespace Reading

/-- Reading goes on strictly further on. -/
theorem length_resume {p furthest : Position} (ahead : p.LeadsTo furthest)
    (more : p.isEnd = false) : (resume p furthest).rest.length < p.rest.length := by
  unfold resume
  split
  · rename_i both
    exact ahead.length_lt (Bool.and_eq_true_iff.mp both).1
  · split
    · exact Position.length_skipToKeyword _ more
    · by_cases ends : furthest.isEnd = true
      · have short := (Position.leadsTo_skipToKeyword anchors furthest).length_le
        simp only [Position.isEnd, List.isEmpty_iff] at ends
        simp only [Position.isEnd, List.isEmpty_eq_false_iff] at more
        rw [ends] at short
        exact short.trans_lt (List.length_pos_iff.mpr more)
      · exact (Position.length_skipToKeyword _ (Bool.not_eq_true _ ▸ ends)).trans_le
          ahead.length_le

/-! ## One definition -/

/--
The state in which a function is tried: right away if there are functions already, or else after a
global definition was tried in vain.
-/
inductive TriesFunction (settings : Settings) (fuel : Nat) (p : Position)
    (functions : List FunctionDef) (begun : State) : State → Prop where
  | first (some_function : functions.isEmpty = false) :
      TriesFunction settings fuel p functions begun begun
  | second {s : State} (no_functions : functions.isEmpty = true)
      (missed : (Rule.run settings fuel .varDef).attempt begun p = .missed s) :
      TriesFunction settings fuel p functions begun s

/-- The ways in which reading a definition at `p` goes on. -/
inductive StepsTo (source : Source) (settings : Settings) (fuel : Nat) (p : Position)
    (progress : Progress) : Position → Progress → Prop where
  | global {q : Position} {t : State} {d : VarDef} {operands : Stack}
      (no_functions : progress.functions.isEmpty = true)
      (matched : (Rule.run settings fuel .varDef).attempt (progress.state.restart p) p =
        .matched q t)
      (popped : t.operands.pop? = some (.varDef d, operands)) :
      StepsTo source settings fuel p progress q
        { progress.commit source t operands with globals := d :: progress.globals }
  | function {q : Position} {s t : State} {f : FunctionDef} {operands : Stack}
      (tried : TriesFunction settings fuel p progress.functions (progress.state.restart p) s)
      (matched : (Rule.run settings fuel .funDef).attempt s p = .matched q t)
      (popped : t.operands.pop? = some (.function f, operands)) :
      StepsTo source settings fuel p progress q
        { progress.commit source t operands with functions := f :: progress.functions }
  | failed {s t : State}
      (tried : TriesFunction settings fuel p progress.functions (progress.state.restart p) s)
      (missed : (Rule.run settings fuel .funDef).attempt s p = .missed t) :
      StepsTo source settings fuel p progress
        (resume p (failure source settings (t.expect p "end of input") p).2)
        { progress with
          diagnostics := progress.diagnostics.pushAll
            (failure source settings (t.expect p "end of input") p).1
          state := t.expect p "end of input" }

section Cases

variable {source : Source} {settings : Settings} {fuel : Nat} {p q : Position}
  {progress after : Progress} {s : State}

/-- Where a function is tried, the step is that of the function. -/
theorem TriesFunction.definitionStep_eq
    (tried : TriesFunction settings fuel p progress.functions (progress.state.restart p) s) :
    definitionStep source settings fuel p progress =
      functionStep source settings fuel p progress s := by
  cases tried with
  | first some_function => simp only [definitionStep, some_function, Bool.false_eq_true, if_false]
  | second no_functions missed => simp only [definitionStep, no_functions, missed, if_true]

theorem stepsTo_of_functionStep
    (tried : TriesFunction settings fuel p progress.functions (progress.state.restart p) s)
    (next : functionStep source settings fuel p progress s = .next q after) :
    StepsTo source settings fuel p progress q after := by
  unfold functionStep at next
  split at next
  · rename_i matched
    split at next
    · rename_i popped
      obtain ⟨rfl, rfl⟩ := Step.next.inj next
      exact .function tried matched popped
    · cases next
  · rename_i missed
    obtain ⟨rfl, rfl⟩ := Step.next.inj next
    exact .failed tried missed
  · cases next

/-- All that reading one definition can do. -/
theorem definitionStep_eq_next_iff :
    definitionStep source settings fuel p progress = .next q after ↔
      StepsTo source settings fuel p progress q after := by
  constructor
  · intro next
    unfold definitionStep at next
    simp only at next
    split at next
    · rename_i no_functions
      split at next
      · rename_i matched
        split at next
        · rename_i popped
          obtain ⟨rfl, rfl⟩ := Step.next.inj next
          exact .global no_functions matched popped
        · cases next
      · rename_i missed
        exact stepsTo_of_functionStep (.second no_functions missed) next
      · cases next
    · rename_i some_function
      exact stepsTo_of_functionStep (.first (Bool.not_eq_true _ ▸ some_function)) next
  · intro steps
    cases steps with
    | global no_functions matched popped =>
        simp only [definitionStep, no_functions, matched, popped, if_true]
    | function tried matched popped =>
        rw [tried.definitionStep_eq]
        simp only [functionStep, matched, popped]
    | failed tried missed =>
        rw [tried.definitionStep_eq]
        simp only [functionStep, missed]

/-- Reading goes on only if no attempt breaks off. -/
theorem varDef_ne_broken (next : definitionStep source settings fuel p progress = .next q after)
    (no_functions : progress.functions.isEmpty = true) :
    (Rule.run settings fuel .varDef).attempt (progress.state.restart p) p ≠ .broken := by
  intro broken
  simp [definitionStep, no_functions, broken] at next

theorem TriesFunction.ne_broken
    (tried : TriesFunction settings fuel p progress.functions (progress.state.restart p) s)
    (next : definitionStep source settings fuel p progress = .next q after) :
    (Rule.run settings fuel .funDef).attempt s p ≠ .broken := by
  intro broken
  simp [tried.definitionStep_eq, functionStep, broken] at next

end Cases

/-- What reading a definition at `p` can do, in terms of the grammar. -/
inductive Stepped (source : Source) (settings : Settings) (p : Position) (progress : Progress) :
    Position → Progress → Prop where
  | global {x : Yield} {d : VarDef} {q : Position} {s : State} :
      progress.functions = [] → Rule.varDef.Yields x.tokens [.varDef d] →
      Spelled p x.pieces q → s.pending = x.malformed →
      Stepped source settings p progress q
        { progress.commit source s progress.state.operands with
          globals := d :: progress.globals }
  | function {x : Yield} {f : FunctionDef} {q : Position} {s : State} :
      Rule.funDef.Yields x.tokens [.function f] →
      Spelled p x.pieces q → s.pending = x.malformed →
      Stepped source settings p progress q
        { progress.commit source s progress.state.operands with
          functions := f :: progress.functions }
  | failed {s : State} :
      s.Within p → s.operands = progress.state.operands →
      Stepped source settings p progress (resume p (failure source settings s p).2)
        { progress with
          diagnostics := progress.diagnostics.pushAll (failure source settings s p).1
          state := s }

section Step

variable {settings : Settings} {fuel : Nat} {p : Position}

theorem pop?_of_items {s base : Stack} {operand : Operand}
    (items_eq : s.items = operand :: base.items) : s.pop? = some (operand, base) := by
  obtain ⟨items, height, height_eq⟩ := s
  simp only at items_eq
  subst items_eq
  simp only [Stack.pop?, Option.some.injEq, Prod.mk.injEq, true_and]
  exact Stack.eq_of_items rfl

theorem eq_of_pop? {s base operands : Stack} {operand operand' : Operand}
    (items_eq : s.items = operand :: base.items) (popped : s.pop? = some (operand', operands)) :
    operand' = operand ∧ operands = base := by
  rw [pop?_of_items items_eq] at popped
  obtain ⟨rfl, rfl⟩ := Prod.mk.inj (Option.some.inj popped)
  exact ⟨rfl, rfl⟩

/-- An attempt to read a rule gives what the rule describes, or leaves everything as it was. -/
theorem attempt_rule (r : Rule) (s : State) (repeats : p.rest.length < settings.repeats)
    (enough : Rule.all.length * p.rest.length + r.rank < fuel) :
    (∃ q t x, (Rule.run settings fuel r).attempt s p = .matched q t ∧
        r.Yields x.tokens x.operands ∧ Stands s p x t q) ∨
      ∃ t, (Rule.run settings fuel r).attempt s p = .missed t ∧ Stands s p .empty t p := by
  have positive : 0 < settings.repeats := Nat.zero_lt_of_lt repeats
  have unbroken := Rule.run_ne_broken r s repeats enough
  have sound : Reader.Sound (Yield.Meets Rule.Yields) (.rule r) s p (Rule.run settings fuel r) :=
    Reader.Sound.rule (Rule.run_sound Rule.meets_of_takes positive fuel r)
  have inner := sound.attempt .empty s p (.refl s p)
  cases outcome : (Rule.run settings fuel r).attempt s p with
  | matched q t =>
      rw [outcome] at inner
      obtain ⟨_, ⟨x, described, rfl⟩, stands⟩ := inner
      exact Or.inl ⟨q, t, x, rfl, described, stands⟩
  | missed t => exact Or.inr ⟨t, rfl, sound.retreat (.refl s p) outcome rfl⟩
  | broken => exact absurd (Reader.attempt_eq_broken.mp outcome) unbroken

theorem within_of_attempt {r : Rule} {s t : State} (inside : s.Within p)
    (missed : (Rule.run settings fuel r).attempt s p = .missed t) : t.Within p := by
  have kept := (Lasting.within p).attempt ((Lasting.within p).rule settings fuel r) s p (.refl p)
  rw [missed] at kept
  exact kept inside

variable (source : Source) (progress : Progress)

/-- A function is read, or the failure is reported. -/
theorem TriesFunction.spec {s : State}
    (tried : TriesFunction settings fuel p progress.functions (progress.state.restart p) s)
    (repeats : p.rest.length < settings.repeats)
    (enough : Rule.all.length * p.rest.length + Rule.all.length ≤ fuel)
    (inside : s.Within p) (operands_eq : s.operands = progress.state.operands)
    (pending_eq : s.pending = []) :
    ∃ q after, StepsTo source settings fuel p progress q after ∧
      Stepped source settings p progress q after := by
  have rank_lt := Rule.funDef.rank_lt
  have enough' : Rule.all.length * p.rest.length + Rule.funDef.rank < fuel := by omega
  rcases attempt_rule .funDef s repeats enough' with
    ⟨q, t, x, matched, ⟨some_token, f, operands_f, gives⟩, stands⟩ | ⟨t, missed, stands⟩
  · have popped : t.operands.pop? = some (.function f, progress.state.operands) := by
      refine pop?_of_items ?_
      rw [stands.operands, operands_f, operands_eq]
      rfl
    refine ⟨_, _, .function tried matched popped,
      .function ⟨some_token, f, rfl, gives⟩ stands.spelled ?_⟩
    rw [stands.pending, pending_eq, List.nil_append]
  · have inside' := within_of_attempt inside missed
    have inside'' := (Lasting.within p).expect t "end of input" (.refl p) inside'
    have operands_eq' : (t.expect p "end of input").operands = progress.state.operands := by
      rw [State.operands_expect, ← operands_eq]
      exact Stack.eq_of_items stands.operands
    exact ⟨_, _, .failed tried missed, .failed inside'' operands_eq'⟩

/-- A definition is read, or the failure is reported. -/
theorem definitionStep_spec (repeats : p.rest.length < settings.repeats)
    (enough : Rule.all.length * p.rest.length + Rule.all.length ≤ fuel) :
    ∃ q after, definitionStep source settings fuel p progress = .next q after ∧
      Stepped source settings p progress q after := by
  simp only [definitionStep_eq_next_iff]
  have rank_lt := Rule.varDef.rank_lt
  have enough' : Rule.all.length * p.rest.length + Rule.varDef.rank < fuel := by omega
  have inside : (progress.state.restart p).Within p := ⟨.refl p, by simp [State.restart]⟩
  cases no_functions : progress.functions.isEmpty with
  | false =>
      exact TriesFunction.spec source progress (.first no_functions) repeats enough inside rfl rfl
  | true =>
      rcases attempt_rule .varDef (progress.state.restart p) repeats enough' with
        ⟨q, t, x, matched, ⟨some_token, d, operands_d, gives⟩, stands⟩ | ⟨t, missed, stands⟩
      · have popped : t.operands.pop? = some (.varDef d, progress.state.operands) := by
          refine pop?_of_items ?_
          rw [stands.operands, operands_d]
          rfl
        refine ⟨_, _, .global no_functions matched popped, .global
          (List.isEmpty_iff.mp no_functions) ⟨some_token, d, rfl, gives⟩ stands.spelled ?_⟩
        rw [stands.pending]
        rfl
      · exact TriesFunction.spec source progress (.second no_functions missed) repeats enough
          (within_of_attempt inside missed) (Stack.eq_of_items stands.operands) stands.pending

end Step

/-- Each definition leaves less text than before. -/
theorem Stepped.length_lt {source : Source} {settings : Settings} {p q : Position}
    {progress after : Progress} (stepped : Stepped source settings p progress q after)
    (more : p.isEnd = false) : q.rest.length < p.rest.length := by
  cases stepped with
  | global _ described spelled _ => exact spelled.length_lt (Yield.pieces_ne_nil described.1)
  | function described spelled _ => exact spelled.length_lt (Yield.pieces_ne_nil described.1)
  | failed inside _ =>
      refine length_resume ?_ more
      unfold failure
      split
      · rename_i deep noted
        exact inside.2 deep noted
      · exact inside.1

/-! ## All definitions -/

/-- Enough steps, fuel and repetitions read all definitions. -/
theorem definitions_isSome (source : Source) {settings : Settings} {fuel steps : Nat}
    (start : Cursor) {p : Position} (progress : Progress)
    (repeats : p.rest.length < settings.repeats)
    (enough : Rule.all.length * p.rest.length + Rule.all.length ≤ fuel)
    (many : p.rest.length < steps) :
    (definitions source settings fuel start steps p progress).isSome = true := by
  induction steps generalizing p progress with
  | zero => exact absurd many (Nat.not_lt_zero _)
  | succ steps ih =>
      unfold definitions
      split
      · rfl
      · split
        · rfl
        · rename_i more
          obtain ⟨q, after, next, stepped⟩ :=
            definitionStep_spec source progress repeats enough
          have shorter := stepped.length_lt (Bool.not_eq_true _ ▸ more)
          have less := Nat.mul_le_mul_left Rule.all.length shorter.le
          simp only [next]
          exact ih after (by omega) (by omega) (by omega)

/-- There are repetitions and fuel enough at every position of a source. -/
theorem enough_ahead {text : String} {p : Position} (ahead : (Position.ofText text).LeadsTo p) :
    p.rest.length < (Position.ofText text).rest.length + 1 ∧
      Rule.all.length * p.rest.length + Rule.all.length ≤
        fuelFor (Position.ofText text).rest.length := by
  have near := ahead.length_le
  have less := Nat.mul_le_mul_left Rule.all.length near
  refine ⟨by omega, ?_⟩
  simp only [fuelFor, Nat.mul_add]
  omega

/-- Every source has a reading. -/
theorem run?_isSome (remember : Bool) (limits : Limits) (source : Source) :
    (run? remember limits source).isSome = true := by
  have ahead := Position.leadsTo_skipGap (Position.ofText source.text)
  obtain ⟨repeats, enough⟩ := enough_ahead ahead
  have near := ahead.length_le
  exact definitions_isSome source _ _ repeats enough (by omega)

end Reading

end Formwork
