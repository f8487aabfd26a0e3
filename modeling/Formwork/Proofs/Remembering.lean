import Formwork.Proofs.Decided
import Formwork.Proofs.Definitions

/-!
# Remembered failures change nothing

Two machines read the same text, one remembering where rules fail and one not. As long as the latter
keeps within the nesting limit, the text decides what both come to, definition by definition, so
that both give the same program and the same diagnostics.
-/

namespace Formwork

/-! ## States that differ in what they remember -/

theorem State.Sane.restart (s : State) (p : Position) : (s.restart p).Sane p where
  shallow := rfl
  ordered := ⟨.nil, .nil⟩
  recalled memo offset known := by simp [State.restart] at known

/-- Two sane states that differ at most in what they remember. -/
structure State.Alike (start : Position) (s t : State) : Prop where
  operands : t.operands = s.operands
  pending : t.pending = s.pending
  lastEnd : t.lastEnd = s.lastEnd
  record : t.record = s.record
  depth : t.depth = s.depth
  sane : s.Sane start
  sane' : t.Sane start

/-- Two outcomes that differ at most in what their states remember. -/
def Outcome.Alike (start : Position) : Outcome → Outcome → Prop
  | .matched p s, .matched q t => q = p ∧ s.Alike start t
  | .missed s, .missed t => s.Alike start t
  | _, _ => False

theorem Outcome.Alike.cases {start : Position} {one two : Outcome} (alike : one.Alike start two) :
    (∃ q s t, one = .matched q s ∧ two = .matched q t ∧ s.Alike start t) ∨
      ∃ s t, one = .missed s ∧ two = .missed t ∧ s.Alike start t := by
  cases one <;> cases two <;> simp_all [Outcome.Alike]

namespace State.Alike

variable {start p q : Position} {s t s' t' : State} {x : Yield} {l : Log}

/-- The same pieces with the same events make alike what was alike. -/
theorem step (alike : s.Alike start t) (stands : Stands s p x s' q) (stands' : Stands t p x t' q)
    (after : s.After start l s') (after' : t.After start l t') : s'.Alike start t' where
  operands := by
    refine Stack.eq_of_items ?_
    rw [stands.operands, stands'.operands, alike.operands]
  pending := by rw [stands.pending, stands'.pending, alike.pending]
  lastEnd := by rw [stands.lastEnd, stands'.lastEnd, alike.lastEnd]
  record := by rw [after.record_eq, after'.record_eq, alike.record]
  depth := by rw [after.depth_eq, after'.depth_eq, alike.depth]
  sane := after.sane
  sane' := after'.sane

theorem expect (alike : s.Alike start t) (p : Position) (label : String) :
    (s.expect p label).Alike start (t.expect p label) :=
  alike.step ((Stands.refl s p).expect p label) ((Stands.refl t p).expect p label)
    (.expect alike.sane p label) (.expect alike.sane' p label)

/-- A fresh start forgets all but the operands, the last token and the depth. -/
theorem restart (operands : t.operands = s.operands) (lastEnd : t.lastEnd = s.lastEnd)
    (depth : t.depth = s.depth) (p : Position) : (s.restart p).Alike p (t.restart p) where
  operands := operands
  pending := rfl
  lastEnd := lastEnd
  record := rfl
  depth := depth
  sane := .restart s p
  sane' := .restart t p

/-- A failure reports nothing that is only remembered. -/
theorem failure_eq (alike : s.Alike start t) (source : Source) (settings settings' : Settings)
    (p : Position) :
    Reading.failure source settings' t p = Reading.failure source settings s p := by
  obtain ⟨furthest_eq, expected_eq, numbers_eq⟩ := Record.mk.inj alike.record
  simp only [Reading.failure, alike.sane.shallow, alike.sane'.shallow, furthest_eq,
    expected_eq, numbers_eq]

end State.Alike

/-! ## One definition -/

section Step

variable {start p : Position} {maxNesting repeats fuel : Nat}

/-- An attempt without remembered failures and one with them come to the same. -/
theorem Rule.attempt_alike (positive : 0 < repeats) (r : Rule) {s t : State}
    (alike : s.Alike start t) (low : s.depth ≤ maxNesting) (ahead : start.LeadsTo p)
    (shallow : ((Rule.run ⟨maxNesting, repeats, false⟩ fuel r).attempt s p).Shallow)
    (unbroken : Rule.run ⟨maxNesting, repeats, true⟩ fuel r t p ≠ .broken) :
    Outcome.Alike start ((Rule.run ⟨maxNesting, repeats, false⟩ fuel r).attempt s p)
      ((Rule.run ⟨maxNesting, repeats, true⟩ fuel r).attempt t p) := by
  have unbroken_one : Rule.run ⟨maxNesting, repeats, false⟩ fuel r s p ≠ .broken := by
    rintro broken
    rw [Reader.shallow_attempt, broken] at shallow
    exact shallow
  obtain ⟨v, l, reads, deep⟩ := Rule.decided positive rfl fuel r s p ahead alike.sane low
    (Reader.shallow_attempt.mp shallow)
  have sound {remember : Bool} (s : State) : Reader.Sound (Yield.Meets Rule.Yields) (.rule r) s p
      (Rule.run ⟨maxNesting, repeats, remember⟩ fuel r) :=
    Reader.Sound.rule (Rule.run_sound Rule.meets_of_takes positive fuel r)
  have follows {remember : Bool} (s : State) :
      (Rule.run ⟨maxNesting, repeats, remember⟩ fuel r).Follows start maxNesting s p .empty p v l :=
    have positive' : 0 < (Settings.mk maxNesting repeats remember).repeats := positive
    reads.follows positive' (Or.inl rfl) rfl fuel s ahead
  have deep' : t.depth + l.depth ≤ maxNesting := by rw [alike.depth]; exact deep
  cases v with
  | matched y q =>
      obtain ⟨s', outcome, stands, passed⟩ := ((follows s).attempt s (.refl s p)
        alike.sane.justified (Log.reach_within deep)).matched.resolve_right
          (by simpa using unbroken_one)
      obtain ⟨t', outcome', stands', passed'⟩ := ((follows t).attempt t (.refl t p)
        alike.sane'.justified (Log.reach_within deep')).matched.resolve_right
          (by simpa using unbroken)
      rw [outcome, outcome']
      exact ⟨rfl, alike.step stands stands' (passed.exact alike.sane deep)
        (passed'.exact alike.sane' deep')⟩
  | missed pending =>
      obtain ⟨s', outcome, -, passed⟩ := ((follows s).retreat (.refl s p) alike.sane.justified
        (Log.reach_within deep) List.nil_prefix).resolve_right (by simpa using unbroken_one)
      obtain ⟨t', outcome', -, passed'⟩ := ((follows t).retreat (.refl t p) alike.sane'.justified
        (Log.reach_within deep') List.nil_prefix).resolve_right (by simpa using unbroken)
      rw [outcome, outcome']
      refine alike.step ((sound s).retreat (.refl s p) outcome rfl)
        ((sound t).retreat (.refl t p) outcome' rfl) (passed.exact alike.sane ?_)
        (passed'.exact alike.sane' ?_)
      · simpa [Log.append, Log.abandoned] using deep
      · simpa [Log.append, Log.abandoned] using deep'

namespace Reading

/-- Two states of progress that differ at most in what is remembered. -/
structure Progress.Alike (before after : Progress) : Prop where
  globals : after.globals = before.globals
  functions : after.functions = before.functions
  diagnostics : after.diagnostics = before.diagnostics
  operands : after.state.operands = before.state.operands
  lastEnd : after.state.lastEnd = before.state.lastEnd
  depth : before.state.depth = 0
  depth' : after.state.depth = 0

variable (source : Source) {progress progress' after : Progress} {q : Position}

section Shallow

variable {settings : Settings} {r : Rule} {s t : State}

/-- What an attempt left within the limit was within it before. -/
theorem tooDeep_of_attempt (shallow : ((Rule.run settings fuel r).attempt s p).Shallow) :
    s.tooDeep = none :=
  Reader.Recalls.shallow ((Lasting.overrun p).attempt ((Lasting.overrun p).rule settings fuel r))
    (.refl p) shallow

theorem tooDeep_of_matched (matched : (Rule.run settings fuel r).attempt s p = .matched q t)
    (shallow : t.tooDeep = none) : s.tooDeep = none :=
  tooDeep_of_attempt (by rw [matched]; exact shallow)

theorem tooDeep_of_missed (missed : (Rule.run settings fuel r).attempt s p = .missed t)
    (shallow : t.tooDeep = none) : s.tooDeep = none :=
  tooDeep_of_attempt (by rw [missed]; exact shallow)

/-- What was noted last does not change whether a failed attempt was within the limit. -/
theorem tooDeep_of_expect (shallow : (t.expect p "end of input").tooDeep = none) :
    t.tooDeep = none :=
  (Lasting.overrun p).expect t "end of input" (.refl p) shallow

end Shallow

/-- Progress with a definition is alike if the states after it are. -/
theorem Progress.Alike.commit (progress_alike : progress.Alike progress') {s t : State}
    (alike : s.Alike p t) (bottom : s.depth = 0) (operands : Stack) :
    (progress.commit source s operands).Alike (progress'.commit source t operands) where
  globals := progress_alike.globals
  functions := progress_alike.functions
  diagnostics := by simp only [Progress.commit, progress_alike.diagnostics, alike.pending]
  operands := rfl
  lastEnd := alike.lastEnd
  depth := bottom
  depth' := alike.depth.trans bottom

section Attempts

variable (positive : 0 < repeats) {r : Rule} {s s' t : State} (alike : s.Alike p t)
  (bottom : s.depth = 0) (unbroken : Rule.run ⟨maxNesting, repeats, true⟩ fuel r t p ≠ .broken)

include positive alike bottom unbroken

/-- What is read within the limit without remembered failures is read alike with them. -/
theorem attempt_matched_alike
    (matched : (Rule.run ⟨maxNesting, repeats, false⟩ fuel r).attempt s p = .matched q s')
    (shallow : s'.tooDeep = none) :
    ∃ t', (Rule.run ⟨maxNesting, repeats, true⟩ fuel r).attempt t p = .matched q t' ∧
      s'.Alike p t' ∧ s'.depth = 0 := by
  have both := Rule.attempt_alike positive r alike (bottom ▸ Nat.zero_le _) (.refl p)
    (by rw [matched]; exact shallow) unbroken
  have kept := (Lasting.depth p).attempt ((Lasting.depth p).rule ⟨maxNesting, repeats, false⟩ fuel
    r) s p (.refl p)
  rw [matched] at both kept
  obtain ⟨p', s'', t', one, two, states⟩ | ⟨s'', t', one, -, -⟩ := both.cases
  · obtain ⟨rfl, rfl⟩ := Outcome.matched.inj one
    exact ⟨t', two, states, kept.2.trans bottom⟩
  · cases one

/-- What fails within the limit without remembered failures fails alike with them. -/
theorem attempt_missed_alike
    (missed : (Rule.run ⟨maxNesting, repeats, false⟩ fuel r).attempt s p = .missed s')
    (shallow : s'.tooDeep = none) :
    ∃ t', (Rule.run ⟨maxNesting, repeats, true⟩ fuel r).attempt t p = .missed t' ∧
      s'.Alike p t' ∧ s'.depth = 0 := by
  have both := Rule.attempt_alike positive r alike (bottom ▸ Nat.zero_le _) (.refl p)
    (by rw [missed]; exact shallow) unbroken
  have kept := (Lasting.depth p).attempt ((Lasting.depth p).rule ⟨maxNesting, repeats, false⟩ fuel
    r) s p (.refl p)
  rw [missed] at both kept
  obtain ⟨p', s'', t', one, -, -⟩ | ⟨s'', t', one, two, states⟩ := both.cases
  · cases one
  · obtain rfl := Outcome.missed.inj one
    exact ⟨t', two, states, kept.trans bottom⟩

end Attempts

/-- A function is tried in states that are alike. -/
theorem TriesFunction.alike (positive : 0 < repeats) {functions : List FunctionDef}
    {begun begun' s : State}
    (tried : TriesFunction ⟨maxNesting, repeats, false⟩ fuel p functions begun s)
    (states : begun.Alike p begun') (bottom : begun.depth = 0)
    (unbroken : Rule.run ⟨maxNesting, repeats, true⟩ fuel .varDef begun' p ≠ .broken)
    (shallow : s.tooDeep = none) :
    ∃ t, TriesFunction ⟨maxNesting, repeats, true⟩ fuel p functions begun' t ∧ s.Alike p t ∧
      s.depth = 0 := by
  cases tried with
  | first some_function => exact ⟨begun', .first some_function, states, bottom⟩
  | second no_functions missed =>
      obtain ⟨t, missed', states', bottom'⟩ :=
        attempt_missed_alike positive states bottom unbroken missed shallow
      exact ⟨t, .second no_functions missed', states', bottom'⟩

/-- A definition read without remembered failures is read the same with them. -/
theorem definitionStep_alike (near : p.rest.length < repeats)
    (enough : Rule.all.length * p.rest.length + Rule.all.length ≤ fuel)
    (alike : progress.Alike progress')
    (next : definitionStep source ⟨maxNesting, repeats, false⟩ fuel p progress = .next q after)
    (shallow : after.state.tooDeep = none) :
    ∃ after', definitionStep source ⟨maxNesting, repeats, true⟩ fuel p progress' =
      .next q after' ∧ after.Alike after' := by
  have positive : 0 < repeats := Nat.zero_lt_of_lt near
  have begun : (progress.state.restart p).Alike p (progress'.state.restart p) :=
    .restart alike.operands alike.lastEnd (alike.depth'.trans alike.depth.symm) p
  have unbroken (r : Rule) (s : State) :
      Rule.run ⟨maxNesting, repeats, true⟩ fuel r s p ≠ .broken := by
    have rank_lt := r.rank_lt
    exact Rule.run_ne_broken r s near (by omega)
  simp only [definitionStep_eq_next_iff] at next ⊢
  cases next with
  | @global _ t d operands no_functions matched popped =>
      obtain ⟨t', matched', states, bottom⟩ :=
        attempt_matched_alike positive begun alike.depth (unbroken _ _) matched shallow
      have committed := alike.commit source states bottom operands
      refine ⟨_, .global (alike.functions ▸ no_functions) matched' (states.operands ▸ popped),
        { committed with globals := ?_ }⟩
      simp only [alike.globals]
  | @function _ s t f operands tried matched popped =>
      obtain ⟨s', tried', states, bottom⟩ :=
        tried.alike positive begun alike.depth (unbroken _ _) (tooDeep_of_matched matched shallow)
      obtain ⟨t', matched', states', bottom'⟩ :=
        attempt_matched_alike positive states bottom (unbroken _ _) matched shallow
      have committed := alike.commit source states' bottom' operands
      refine ⟨_, .function (alike.functions ▸ tried') matched' (states'.operands ▸ popped),
        { committed with functions := ?_ }⟩
      simp only [alike.functions]
  | @failed s t tried missed =>
      have shallow_t := tooDeep_of_expect shallow
      obtain ⟨s', tried', states, bottom⟩ :=
        tried.alike positive begun alike.depth (unbroken _ _) (tooDeep_of_missed missed shallow_t)
      obtain ⟨t', missed', states', bottom'⟩ :=
        attempt_missed_alike positive states bottom (unbroken _ _) missed shallow_t
      have noted := states'.expect p "end of input"
      have depth_eq := ((Lasting.depth p).expect t "end of input" (.refl p)).trans bottom'
      have steps : StepsTo source _ fuel p progress' _ _ :=
        .failed (alike.functions ▸ tried') missed'
      rw [noted.failure_eq source ⟨maxNesting, repeats, false⟩] at steps
      refine ⟨_, steps, ⟨alike.globals, alike.functions, ?_, noted.operands, noted.lastEnd,
        depth_eq, noted.depth.trans depth_eq⟩⟩
      simp only [alike.diagnostics]

end Reading

end Step

/-! ## All definitions -/

namespace Reading

/-- Whether reading at most `steps` definitions stays within the nesting limit throughout. -/
def staysShallow (source : Source) (settings : Settings) (fuel : Nat) :
    Nat → Position → Progress → Bool
  | 0, _, _ => true
  | steps + 1, p, progress =>
    if progress.diagnostics.isFull || p.isEnd then true
    else
      match definitionStep source settings fuel p progress with
      | .next q after =>
        after.state.tooDeep.isNone && staysShallow source settings fuel steps q after
      | .broken => true

/-- Whether reading a source never meets the nesting limit. -/
def neverTooDeep (remember : Bool) (limits : Limits) (source : Source) : Bool :=
  let first := Position.ofText source.text
  let length := first.rest.length
  staysShallow source ⟨limits.maxNesting, length + 1, remember⟩ (fuelFor length) (length + 2)
    first.skipGap ⟨[], [], .empty limits.maxErrors, .initial⟩

/-- Definitions read without remembered failures are read the same with them. -/
theorem definitions_alike (source : Source) {maxNesting repeats fuel steps : Nat}
    (start : Cursor) {p : Position} {progress progress' : Progress}
    (near : p.rest.length < repeats)
    (enough : Rule.all.length * p.rest.length + Rule.all.length ≤ fuel)
    (alike : progress.Alike progress')
    (shallow : staysShallow source ⟨maxNesting, repeats, false⟩ fuel steps p progress = true) :
    definitions source ⟨maxNesting, repeats, true⟩ fuel start steps p progress' =
      definitions source ⟨maxNesting, repeats, false⟩ fuel start steps p progress := by
  induction steps generalizing p progress progress' with
  | zero => rfl
  | succ steps ih =>
      unfold definitions
      rw [alike.diagnostics]
      split
      · rfl
      · rename_i room
        split
        · rw [alike.globals, alike.functions]
        · rename_i more
          have plain : p.rest.length < (Settings.mk maxNesting repeats false).repeats := near
          obtain ⟨q, after, next, stepped⟩ := definitionStep_spec source progress plain enough
          simp only [staysShallow, room, more, next, Bool.or_self, Bool.false_eq_true, if_false,
            Bool.and_eq_true, Option.isNone_iff_eq_none] at shallow
          obtain ⟨after', next', alike'⟩ := definitionStep_alike source near enough alike next
            shallow.1
          have shorter := stepped.length_lt (Bool.not_eq_true _ ▸ more)
          have less := Nat.mul_le_mul_left Rule.all.length shorter.le
          simp only [next, next']
          exact ih (by omega) (by omega) alike' shallow.2

/--
Remembering where rules fail changes nothing: a source that is read without it, never meeting the
nesting limit, is read with it to the same program and the same diagnostics.
-/
theorem run?_forgetful (limits : Limits) (source : Source)
    (shallow : neverTooDeep false limits source = true) :
    run? false limits source = some (ofSource limits source) := by
  have near := (Position.leadsTo_skipGap (Position.ofText source.text)).length_le
  have less := Nat.mul_le_mul_left Rule.all.length near
  have same : run? true limits source = run? false limits source := by
    refine definitions_alike source _ ?_ ?_ ⟨rfl, rfl, rfl, rfl, rfl, rfl, rfl⟩ shallow
    · omega
    · simp only [fuelFor, Nat.mul_add]
      omega
  obtain ⟨reading, reading_eq⟩ := Option.isSome_iff_exists.mp (run?_isSome true limits source)
  rw [← same, ofSource, reading_eq]
  rfl

/-- A call without its closing parenthesis, which more than one alternative tries in vain. -/
theorem run?_forgetful_unclosed :
    neverTooDeep false ⟨20, 64⟩ ⟨"a", "fun a f() { b[c] = (d(e; }"⟩ = true ∧
      run? false ⟨20, 64⟩ ⟨"a", "fun a f() { b[c] = (d(e; }"⟩ =
        some (ofSource ⟨20, 64⟩ ⟨"a", "fun a f() { b[c] = (d(e; }"⟩) :=
  ⟨by decide +kernel, run?_forgetful _ _ (by decide +kernel)⟩

end Reading

end Formwork
