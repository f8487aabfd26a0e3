import Formwork.Proofs.Remembering

/-!
# Reading under a higher limit

Nesting beyond the limit is an ordinary failure, which another alternative may make good, and only a
definition that fails as a whole reports it. A reading that never meets the limit comes to the same
under every higher limit. Without that condition it need not, even if nothing is reported: see
`Reading.accepted?_of_lower_limit`.
-/

namespace Formwork

/-- Where one reader stays within the limit, another one gives the same. -/
def Reader.Extends (read read' : Reader) : Prop :=
  ∀ s p, (read s p).Shallow → read' s p = read s p

namespace Reader.Extends

variable {first second first' second' read read' : Reader}

theorem andThen (one : first.Extends first') (recalls : ∀ p, first.Recalls p)
    (recalls' : ∀ p, second.Recalls p) (two : second.Extends second') :
    (first.andThen second).Extends (first'.andThen second') := by
  intro s p shallow
  have same := one s p ((recalls p).first (recalls' p) (.refl p) shallow)
  simp only [Reader.andThen] at shallow ⊢
  rw [same]
  cases outcome : first s p with
  | matched q t =>
      rw [outcome] at shallow
      exact two t q shallow
  | missed t => rfl
  | broken => rfl

theorem attempt (inner : read.Extends read') : read.attempt.Extends read'.attempt := by
  intro s p shallow
  rw [attempt_eq, attempt_eq, inner s p (shallow_attempt.mp shallow)]

theorem orElse (one : first.Extends first') (recalls : ∀ p, second.Recalls p)
    (two : second.Extends second') : (first.orElse second).Extends (first'.orElse second') := by
  intro s p shallow
  have shallow_first := (recalls p).alternative (.refl p) shallow
  have same := one.attempt s p (shallow_attempt.mpr shallow_first)
  simp only [Reader.orElse] at shallow ⊢
  rw [same]
  cases outcome : first.attempt s p with
  | matched q t => rfl
  | missed t =>
      rw [outcome] at shallow
      exact two t p shallow
  | broken => rfl

theorem option (inner : read.Extends read') : read.option.Extends read'.option := by
  intro s p shallow
  simp only [Reader.option]
  rw [inner.attempt s p (shallow_attempt.mpr (shallow_option shallow))]

theorem many (inner : read.Extends read') (recalls : ∀ p, read.Recalls p) (rounds : Nat) :
    (read.many rounds).Extends (read'.many rounds) := by
  induction rounds with
  | zero => exact fun _ _ _ => rfl
  | succ rounds ih =>
      intro s p shallow
      have shallow_round := (recalls p).round (.refl p) shallow
      have same := inner.attempt s p (shallow_attempt.mpr shallow_round)
      simp only [Reader.many] at shallow ⊢
      rw [same]
      cases outcome : read.attempt s p with
      | matched q t =>
          rw [outcome] at shallow
          exact ih t q shallow
      | missed t => rfl
      | broken => rfl

theorem branch (t : Terminal) (yes : first.Extends first') (no : second.Extends second') :
    (Reader.branch t first second).Extends (Reader.branch t first' second') := by
  intro s p shallow
  simp only [Reader.branch] at shallow ⊢
  cases outcome : Reader.token t .nothing s p with
  | matched q u =>
      rw [outcome] at shallow
      exact yes u q shallow
  | missed u =>
      rw [outcome] at shallow
      exact no u p shallow
  | broken => rfl

/-- Here the limits matter: a reader that stays within the lower one enters no level beyond it. -/
theorem nested {low high : Nat} (le : low ≤ high) (inner : read.Extends read') :
    (Reader.nested low read).Extends (Reader.nested high read') := by
  intro s p shallow
  unfold Reader.nested at shallow ⊢
  by_cases full : low ≤ s.depth
  · simp only [full, if_true, Outcome.Shallow] at shallow
    cases deep : s.tooDeep <;> simp [deep] at shallow
  · have room : ¬ high ≤ s.depth := by omega
    simp only [full, room, if_false] at shallow ⊢
    rw [inner]
    split at shallow <;> simp_all [Outcome.Shallow]

theorem remembered (memo : Memo) (inner : read.Extends read') :
    (Reader.remembered memo read).Extends (Reader.remembered memo read') := by
  intro s p shallow
  unfold Reader.remembered at shallow ⊢
  by_cases known : s.deadEnds.contains memo p.cursor.offset = true
  · simp only [known, if_true]
  · simp only [known, Bool.false_eq_true, if_false] at shallow ⊢
    have inside : (read.attempt s p).Shallow := by
      cases outcome : read.attempt s p with
      | matched q t => simpa [outcome] using shallow
      | missed t =>
          simp only [outcome] at shallow
          by_cases free : t.tooDeep.isNone = true
          · exact Option.isNone_iff_eq_none.mp free
          · simpa only [free, Bool.false_eq_true, if_false] using shallow
      | broken => simp [outcome, Outcome.Shallow] at shallow
    rw [inner.attempt s p inside]

theorem afterIndex (frame : Frame) (inner : read.Extends read') :
    (Reader.afterIndex frame read).Extends (Reader.afterIndex frame read') := by
  intro s p shallow
  unfold Reader.afterIndex at shallow ⊢
  split at shallow
  · rename_i e _
    by_cases is_index : e.isIndex = true
    · simp only [is_index, if_true] at shallow ⊢
      exact inner.option s p shallow
    · simp only [is_index, Bool.false_eq_true, if_false]
  · rfl

end Reader.Extends

section Limits

variable {low high repeats : Nat} {remember : Bool}

/-- A phrase read within the lower limit is read the same under the higher one. -/
theorem Phrase.run_extends (le : low ≤ high) {fuel : Nat}
    (rules : ∀ r, Reader.Extends (Rule.run ⟨low, repeats, remember⟩ fuel r)
      (Rule.run ⟨high, repeats, remember⟩ fuel r)) (frame : Frame) (phrase : Phrase) :
    Reader.Extends
      (phrase.run ⟨low, repeats, remember⟩ (Rule.run ⟨low, repeats, remember⟩ fuel) frame)
      (phrase.run ⟨high, repeats, remember⟩ (Rule.run ⟨high, repeats, remember⟩ fuel) frame) := by
  have recalls (phrase : Phrase) (p : Position) : Reader.Recalls p (phrase.run
      ⟨low, repeats, remember⟩ (Rule.run ⟨low, repeats, remember⟩ fuel) frame) :=
    (Lasting.overrun p).phrase _ ((Lasting.overrun p).rule _ fuel) frame phrase
  induction phrase with
  | token t leaf => exact fun _ _ _ => rfl
  | number => exact fun _ _ _ => rfl
  | rule r => exact rules r
  | seq first second ih_first ih_second =>
      exact ih_first.andThen (recalls first) (recalls second) ih_second
  | choice first second ih_first ih_second => exact ih_first.orElse (recalls second) ih_second
  | branch t yes no ih_yes ih_no => exact .branch t ih_yes ih_no
  | attempt phrase ih => exact ih.attempt
  | option phrase ih => exact ih.option
  | many phrase ih => exact ih.many (recalls phrase) repeats
  | nested phrase ih => exact .nested le ih
  | remembered memo phrase ih =>
      unfold Phrase.run
      split
      · exact ih.remembered memo
      · exact ih.attempt
  | afterIndex phrase ih => exact ih.afterIndex frame
  | reduce r => exact fun _ _ _ => rfl

/-- A rule read within the lower limit is read the same under the higher one. -/
theorem Rule.run_extends (le : low ≤ high) (fuel : Nat) (r : Rule) :
    Reader.Extends (Rule.run ⟨low, repeats, remember⟩ fuel r)
      (Rule.run ⟨high, repeats, remember⟩ fuel r) := by
  induction fuel generalizing r with
  | zero => exact fun _ _ _ => rfl
  | succ fuel ih => exact fun s p shallow => Phrase.run_extends le ih _ r.phrase s p shallow

namespace Reading

variable {fuel : Nat} (source : Source) {progress after : Progress} {p q : Position}

/-- The limit is named only where it was met. -/
theorem failure_of_shallow (settings settings' : Settings) {s : State} (shallow : s.tooDeep = none)
    (p : Position) : failure source settings s p = failure source settings' s p := by
  simp only [failure, shallow]

/-- Under the higher limit a function is tried in the same state. -/
theorem TriesFunction.extends (le : low ≤ high) {functions : List FunctionDef} {begun s : State}
    (tried : TriesFunction ⟨low, repeats, remember⟩ fuel p functions begun s)
    (shallow : s.tooDeep = none) :
    TriesFunction ⟨high, repeats, remember⟩ fuel p functions begun s := by
  cases tried with
  | first some_function => exact .first some_function
  | second no_functions missed =>
      have same := (Rule.run_extends le fuel .varDef).attempt begun p
        (by rw [missed]; exact shallow)
      exact .second no_functions (same.trans missed)

/-- A definition read within the lower limit is read the same under the higher one. -/
theorem StepsTo.extends (le : low ≤ high)
    (steps : StepsTo source ⟨low, repeats, remember⟩ fuel p progress q after)
    (shallow : after.state.tooDeep = none) :
    StepsTo source ⟨high, repeats, remember⟩ fuel p progress q after := by
  cases steps with
  | global no_functions matched popped =>
      have same := (Rule.run_extends le fuel .varDef).attempt _ p (by rw [matched]; exact shallow)
      exact .global no_functions (same.trans matched) popped
  | function tried matched popped =>
      have same := (Rule.run_extends le fuel .funDef).attempt _ p (by rw [matched]; exact shallow)
      exact .function (tried.extends le (tooDeep_of_matched matched shallow)) (same.trans matched)
        popped
  | failed tried missed =>
      have shallow_t := tooDeep_of_expect shallow
      have same := (Rule.run_extends le fuel .funDef).attempt _ p (by rw [missed]; exact shallow_t)
      rw [failure_of_shallow source _ ⟨high, repeats, remember⟩ shallow p]
      exact .failed (tried.extends le (tooDeep_of_missed missed shallow_t)) (same.trans missed)

/-- Definitions read within the lower limit are read the same under the higher one. -/
theorem definitions_extends (le : low ≤ high) (start : Cursor) {steps : Nat}
    (shallow : staysShallow source ⟨low, repeats, remember⟩ fuel steps p progress = true)
    {reading : Reading}
    (read : definitions source ⟨low, repeats, remember⟩ fuel start steps p progress =
      some reading) :
    definitions source ⟨high, repeats, remember⟩ fuel start steps p progress = some reading := by
  induction steps generalizing p progress with
  | zero => simp [definitions] at read
  | succ steps ih =>
      unfold definitions at read ⊢
      unfold staysShallow at shallow
      split
      · rename_i full
        simpa only [full, if_true] using read
      · rename_i room
        simp only [room, Bool.false_eq_true, if_false] at read
        split
        · rename_i ends
          simpa only [ends, if_true] using read
        · rename_i more
          simp only [more, Bool.false_eq_true, if_false] at read
          simp only [room, more, Bool.or_self, Bool.false_eq_true, if_false] at shallow
          cases next : definitionStep source ⟨low, repeats, remember⟩ fuel p progress with
          | next q after =>
              simp only [next, Bool.and_eq_true, Option.isNone_iff_eq_none] at shallow read
              have steps := (definitionStep_eq_next_iff.mp next).extends source le shallow.1
              simp only [definitionStep_eq_next_iff.mpr steps]
              exact ih shallow.2 read
          | broken => simp [next] at read

/-- A reading that never meets the limit is the same under every higher limit. -/
theorem ofSource_of_lower_limit (le : low ≤ high) {maxErrors : Nat}
    (shallow : neverTooDeep true ⟨maxErrors, low⟩ source = true) :
    ofSource ⟨maxErrors, high⟩ source = ofSource ⟨maxErrors, low⟩ source := by
  obtain ⟨reading, read⟩ := Option.isSome_iff_exists.mp
    (run?_isSome true ⟨maxErrors, low⟩ source)
  have read' : run? true ⟨maxErrors, high⟩ source = some reading :=
    definitions_extends source le _ shallow read
  rw [ofSource, ofSource, read, read']

end Reading

end Limits

namespace Reading

/--
A program accepted under one limit is accepted under every higher limit as the same program,
provided that no definition met the lower limit on the way.
-/
theorem accepted?_of_lower_limit {maxErrors low high : Nat} (le : low ≤ high) {source : Source}
    {program : Program}
    (accepted : (ofSource ⟨maxErrors, low⟩ source).accepted? = some program)
    (shallow : neverTooDeep true ⟨maxErrors, low⟩ source = true) :
    (ofSource ⟨maxErrors, high⟩ source).accepted? = some program := by
  rw [ofSource_of_lower_limit source le shallow]
  exact accepted

theorem accepted?_of_lower_limit_four :
    ∃ program, (ofSource ⟨20, 4⟩ ⟨"t", "fun a f() { if b then c - d }"⟩).accepted? = some program ∧
      (ofSource ⟨20, 5⟩ ⟨"t", "fun a f() { if b then c - d }"⟩).accepted? = some program := by
  obtain ⟨program, accepted⟩ := Option.isSome_iff_exists.mp (show (ofSource ⟨20, 4⟩
    ⟨"t", "fun a f() { if b then c - d }"⟩).accepted?.isSome = true by decide +kernel)
  exact ⟨program, accepted,
    accepted?_of_lower_limit (by decide) accepted (by decide +kernel)⟩

/--
Without the condition the limit changes what is accepted: where the parenthesis is nested too deep
for the right operand of a difference, the difference is given up and the parenthesis becomes a
statement of its own.
-/
theorem accepted?_depends_on_limit :
    ∃ program program',
      (ofSource ⟨20, 4⟩ ⟨"t", "fun a f() { if b then c - (d) }"⟩).accepted? = some program ∧
      (ofSource ⟨20, 5⟩ ⟨"t", "fun a f() { if b then c - (d) }"⟩).accepted? = some program' ∧
      program ≠ program' := by
  have two : (ofSource ⟨20, 4⟩ ⟨"t", "fun a f() { if b then c - (d) }"⟩).accepted?.map
      (fun program => program.functions.map fun f => f.body.stmts.length) = some [2] := by
    decide +kernel
  have one : (ofSource ⟨20, 5⟩ ⟨"t", "fun a f() { if b then c - (d) }"⟩).accepted?.map
      (fun program => program.functions.map fun f => f.body.stmts.length) = some [1] := by
    decide +kernel
  obtain ⟨program, accepted, counts⟩ := Option.map_eq_some_iff.mp two
  obtain ⟨program', accepted', counts'⟩ := Option.map_eq_some_iff.mp one
  refine ⟨program, program', accepted, accepted', ?_⟩
  rintro rfl
  simp [counts] at counts'

end Reading

end Formwork
