import Mathlib.Data.String.Basic
import Formwork.Proofs.Visits

/-!
# Reading advances and its operands fit

`Reading.passes` lists the passes of the loop that reads definitions, and `Reading.visits` the
phrases begun in all of them. `Pass.step_spec` says what a pass keeps: the stack is empty again, and
the next pass starts strictly further on. So for every source, under any limits and with or without
remembered failures:

* `Reading.operands_fit`: every reduction finds the operands it takes, and no operand is left over;
* `Reading.reading_advances`: rules and passes move on, within the text, and no rule is at work
  twice at one place.
-/

namespace Formwork

/-! ## Offsets -/

namespace Position

theorem LeadsTo.offset_lt {p q : Position} (ahead : p.LeadsTo q)
    (shorter : q.rest.length < p.rest.length) : p.cursor.offset < q.cursor.offset := by
  obtain ⟨between, rest_eq, cursor_eq⟩ := ahead
  rw [cursor_eq]
  refine Cursor.offset_lt_advance _ ?_
  rintro rfl
  rw [rest_eq, List.nil_append] at shorter
  exact absurd shorter (Nat.lt_irrefl _)

theorem offset_advance (place : Cursor) (text : List Char) :
    (place.advance text).offset = place.offset + String.utf8Len text := by
  induction text generalizing place with
  | nil => simp
  | cons c text ih =>
      rw [Cursor.advance_cons, ih, Cursor.offset_step, String.utf8Len_cons]
      omega

/-- No position of a text lies behind its end. -/
theorem LeadsTo.offset_le {text : String} {q : Position} (ahead : (ofText text).LeadsTo q) :
    q.cursor.offset ≤ text.utf8ByteSize := by
  obtain ⟨between, rest_eq, cursor_eq⟩ := ahead
  have size := String.utf8Len_toList text
  have whole : text.toList = between ++ q.rest := rest_eq
  rw [whole, String.utf8Len_append] at size
  rw [cursor_eq, offset_advance]
  simp only [ofText, Cursor.start]
  omega

end Position

namespace Reading

/-! ## Passes -/

theorem leadsTo_resume {p furthest : Position} (ahead : p.LeadsTo furthest) :
    p.LeadsTo (resume p furthest) := by
  unfold resume
  split
  · exact ahead
  · split
    · exact Position.leadsTo_skipToKeyword anchors p
    · exact ahead.trans (Position.leadsTo_skipToKeyword anchors furthest)

section Stepped

variable {source : Source} {settings : Settings} {p q : Position} {progress after : Progress}

theorem Stepped.leadsTo (stepped : Stepped source settings p progress q after) : p.LeadsTo q := by
  cases stepped with
  | global _ _ spelled _ => exact spelled.leadsTo
  | function _ spelled _ => exact spelled.leadsTo
  | failed inside _ =>
      refine leadsTo_resume ?_
      unfold failure
      split
      · rename_i deep noted
        exact inside.2 deep noted
      · exact inside.1

/-- A definition leaves no operand behind, whether it was read or not. -/
theorem Stepped.operands_eq (stepped : Stepped source settings p progress q after) :
    after.state.operands = progress.state.operands := by
  cases stepped with
  | global _ _ _ _ => rfl
  | function _ _ _ => rfl
  | failed _ operands_eq => exact operands_eq

end Stepped

/-- A pass of the loop that reads definitions. -/
structure Pass where
  /-- Where it starts. -/
  position : Position
  /-- What has been read before it. -/
  progress : Progress

namespace Pass

/-- Whether the loop ends here: at the end of the text or at the limit of diagnostics. -/
def isLast (pass : Pass) : Bool := pass.progress.diagnostics.isFull || pass.position.isEnd

/-- The first pass over a source. -/
def first (limits : Limits) (source : Source) : Pass :=
  ⟨(Position.ofText source.text).skipGap, ⟨[], [], .empty limits.maxErrors, .initial⟩⟩

/-- Reads the definition of a pass. -/
def step (source : Source) (settings : Settings) (fuel : Nat) (pass : Pass) : Step :=
  definitionStep source settings fuel pass.position pass.progress

/-- The phrases begun while the definition of a pass is read. -/
def visits (settings : Settings) (fuel : Nat) (pass : Pass) : List Visit :=
  let s := pass.progress.state.restart pass.position
  if pass.isLast then []
  else if pass.progress.functions.isEmpty then
    Rule.visits settings fuel [] .varDef s pass.position ++
      ((Rule.run settings fuel .varDef).attempt s pass.position).orElse
        (Rule.visits settings fuel [] .funDef) pass.position
  else Rule.visits settings fuel [] .funDef s pass.position

/-- This pass and at most `steps` later ones. -/
def onward (source : Source) (settings : Settings) (fuel : Nat) : Nat → Pass → List Pass
  | 0, pass => [pass]
  | steps + 1, pass =>
    pass ::
      if pass.isLast then []
      else
        match pass.step source settings fuel with
        | .next p progress => onward source settings fuel steps ⟨p, progress⟩
        | .broken => []

end Pass

/-- The limits under which the phrases of a source are read. -/
def settingsFor (remember : Bool) (limits : Limits) (source : Source) : Settings :=
  ⟨limits.maxNesting, (Position.ofText source.text).rest.length + 1, remember⟩

/-- The fuel for the rules of a source. -/
def fuelOf (source : Source) : Nat := fuelFor (Position.ofText source.text).rest.length

/-- The passes of the loop over a source. -/
def passes (remember : Bool) (limits : Limits) (source : Source) : List Pass :=
  (Pass.first limits source).onward source (settingsFor remember limits source) (fuelOf source)
    ((Position.ofText source.text).rest.length + 1)

/-- The phrases begun while a source is read. -/
def visits (remember : Bool) (limits : Limits) (source : Source) : List Visit :=
  (passes remember limits source).flatMap
    (Pass.visits (settingsFor remember limits source) (fuelOf source))

/-! ## What a pass keeps -/

/-- What holds of every pass over a source. -/
structure Pass.Sound (source : Source) (pass : Pass) : Prop where
  ahead : (Position.ofText source.text).LeadsTo pass.position
  operands : pass.progress.state.operands = .empty

section Passes

variable {remember : Bool} {limits : Limits} {source : Source} {pass : Pass}

theorem Pass.first_sound (limits : Limits) (source : Source) : (first limits source).Sound source :=
  ⟨Position.leadsTo_skipGap _, rfl⟩

/-- A pass reads a definition or reports a failure, leaves no operand and moves on. -/
theorem Pass.step_spec (remember : Bool) (limits : Limits) (sound : pass.Sound source)
    (more : pass.isLast = false) :
    ∃ q after,
      pass.step source (settingsFor remember limits source) (fuelOf source) = .next q after ∧
        Pass.Sound source ⟨q, after⟩ ∧ pass.position.LeadsTo q ∧
          q.rest.length < pass.position.rest.length := by
  have near := sound.ahead.length_le
  have less := Nat.mul_le_mul_left Rule.all.length near
  have repeats : pass.position.rest.length < (settingsFor remember limits source).repeats :=
    Nat.lt_succ_of_le near
  have enough : Rule.all.length * pass.position.rest.length + Rule.all.length ≤ fuelOf source := by
    simp only [fuelOf, fuelFor, Nat.mul_add]
    omega
  obtain ⟨q, after, next, stepped⟩ := definitionStep_spec source pass.progress repeats enough
  have inside : pass.position.isEnd = false := (Bool.or_eq_false_iff.mp more).2
  have ahead := stepped.leadsTo
  refine ⟨q, after, next, ⟨sound.ahead.trans ahead, ?_⟩, ahead, stepped.length_lt inside⟩
  exact stepped.operands_eq.trans sound.operands

theorem Pass.mem_onward (sound : pass.Sound source) {steps : Nat} {later : Pass}
    (member :
      later ∈ pass.onward source (settingsFor remember limits source) (fuelOf source) steps) :
    later.Sound source := by
  induction steps generalizing pass with
  | zero =>
      obtain rfl := List.mem_singleton.mp member
      exact sound
  | succ steps ih =>
      unfold onward at member
      obtain rfl | member := List.mem_cons.mp member
      · exact sound
      · split at member
        · exact absurd member List.not_mem_nil
        · rename_i more
          obtain ⟨q, after, next, sound', -, -⟩ :=
            step_spec remember limits sound (Bool.not_eq_true _ ▸ more)
          rw [next] at member
          exact ih sound' member

theorem sound_of_mem_passes (member : pass ∈ passes remember limits source) : pass.Sound source :=
  Pass.mem_onward (Pass.first_sound limits source) member

/-- What is begun while a source is read is sound, and rules come one inside another. -/
theorem mem_visits {v : Visit} (visited : v ∈ visits remember limits source) :
    v.Sound (Position.ofText source.text) ∧ v.active.Pairwise Activation.Inside := by
  obtain ⟨pass, member, visited⟩ := List.mem_flatMap.mp visited
  have ahead := (sound_of_mem_passes member).ahead
  have positive : 0 < (settingsFor remember limits source).repeats := Nat.succ_pos _
  have begun {r : Rule} {s : State}
      (visited : v ∈ Rule.visits (settingsFor remember limits source) (fuelOf source) [] r s
        pass.position) :
      v.Sound (Position.ofText source.text) ∧ v.active.Pairwise Activation.Inside :=
    (Rule.mem_visits positive (List.pairwise_singleton _ _) visited).imp_left (·.trans ahead)
  unfold Pass.visits at visited
  simp only at visited
  split at visited
  · exact absurd visited List.not_mem_nil
  · split at visited
    · simp only [List.mem_append, Outcome.mem_orElse] at visited
      obtain global | ⟨t, -, function⟩ := visited
      · exact begun global
      · exact begun function
    · exact begun visited

end Passes

/-- An element is updated with an element and a value. -/
theorem operands_of_update {span : Span} {operands : List Operand}
    (built : (Reduction.update.build? span operands).isSome = true) :
    ∃ target key place value, operands = [.expr (.index target key place), .expr value] := by
  unfold Reduction.build? at built
  split at built <;> simp_all

/--
The operands fit. Every pass over a source starts with an empty stack and reads its definition, or
reports that it could not. Every reduction that is begun finds the operands it takes; an update
finds an element and a value.
-/
theorem operands_fit (remember : Bool) (limits : Limits) (source : Source) :
    (run? remember limits source).isSome = true ∧
      (∀ pass ∈ passes remember limits source,
        pass.progress.state.operands = .empty ∧
          (pass.isLast = true ∨ ∃ q after,
            pass.step source (settingsFor remember limits source) (fuelOf source) =
                .next q after ∧
              after.state.operands = .empty)) ∧
        ∀ v ∈ visits remember limits source, ∀ r, v.phrase = .reduce r →
          (∃ operand, r.build? v.span (v.operands r) = some operand) ∧
            (r = .update → ∃ target key place value,
              v.operands r = [.expr (.index target key place), .expr value]) := by
  refine ⟨run?_isSome remember limits source, ?_, ?_⟩
  · intro pass member
    have sound := sound_of_mem_passes member
    refine ⟨sound.operands, ?_⟩
    by_cases last : pass.isLast = true
    · exact Or.inl last
    · obtain ⟨q, after, next, sound', -, -⟩ :=
        Pass.step_spec remember limits sound (Bool.not_eq_true _ ▸ last)
      exact Or.inr ⟨q, after, next, sound'.operands⟩
  · intro v visited r is_reduce
    have built := (mem_visits visited).1.fits r is_reduce
    refine ⟨Option.isSome_iff_exists.mp built, ?_⟩
    rintro rfl
    exact operands_of_update built

/-- An update among other phrases, and a definition that cannot be read after it. -/
theorem operands_fit_update :
    ∃ v ∈ visits true {} ⟨"t", "fun a f() { m[k] = v } ["⟩, v.phrase = .reduce .update ∧
      ∃ target key place value,
        v.operands .update = [.expr (.index target key place), .expr value] := by
  have updates : (visits true {} ⟨"t", "fun a f() { m[k] = v } ["⟩).any
      (fun v => v.phrase = .reduce .update) = true := by
    decide +kernel
  obtain ⟨v, visited, is_update⟩ := List.any_eq_true.mp updates
  have is_update := of_decide_eq_true is_update
  exact ⟨v, visited, is_update, ((operands_fit true {} _).2.2 v visited .update is_update).2 rfl⟩

/--
Reading advances. Every source has a reading. Every pass that is not the last one goes on to a
strictly greater offset, after a failure too. Every rule that succeeds, and every other phrase that
cannot match without a token, ends at a strictly greater offset, and none behind the end of the
text. No rule is at work twice at the same offset.
-/
theorem reading_advances (remember : Bool) (limits : Limits) (source : Source) :
    (run? remember limits source).isSome = true ∧
      (∀ pass ∈ passes remember limits source, pass.isLast = true ∨ ∃ q after,
        pass.step source (settingsFor remember limits source) (fuelOf source) = .next q after ∧
          pass.position.cursor.offset < q.cursor.offset ∧
            q.cursor.offset ≤ source.text.utf8ByteSize) ∧
        ∀ v ∈ visits remember limits source,
          (v.phrase.consumes = true → ∀ q t, v.outcome = .matched q t →
            v.position.cursor.offset < q.cursor.offset ∧
              q.cursor.offset ≤ source.text.utf8ByteSize) ∧
            (v.active.map fun a => (a.rule, a.position.cursor.offset)).Nodup := by
  refine ⟨run?_isSome remember limits source, ?_, ?_⟩
  · intro pass member
    have sound := sound_of_mem_passes member
    by_cases last : pass.isLast = true
    · exact Or.inl last
    · obtain ⟨q, after, next, sound', ahead, shorter⟩ :=
        Pass.step_spec remember limits sound (Bool.not_eq_true _ ▸ last)
      exact Or.inr ⟨q, after, next, ahead.offset_lt shorter, sound'.ahead.offset_le⟩
  · intro v visited
    obtain ⟨sound, nested⟩ := mem_visits visited
    refine ⟨?_, ?_⟩
    · intro consumes q t matched
      obtain ⟨ahead, shorter⟩ := sound.advances consumes q t matched
      exact ⟨ahead.offset_lt shorter, (sound.ahead.trans ahead).offset_le⟩
    · refine List.pairwise_map.mpr (nested.imp fun {a b} inside same => ?_)
      obtain ⟨rule_eq, offset_eq⟩ := Prod.mk.inj same
      obtain ⟨ahead, shorter | ⟨-, lower⟩⟩ := inside
      · have later := ahead.offset_lt shorter
        omega
      · rw [rule_eq] at lower
        exact Nat.lt_irrefl _ lower

/-- A rule inside ten others that succeeds. -/
theorem reading_advances_nested :
    ∃ v ∈ visits true {} ⟨"t", "a b = c[d] = e"⟩, v.phrase = .rule .atom ∧ 10 ≤ v.active.length ∧
      (v.active.map fun a => (a.rule, a.position.cursor.offset)).Nodup ∧
        ∃ q t, v.outcome = .matched q t ∧ v.position.cursor.offset < q.cursor.offset ∧
          q.cursor.offset ≤ 14 := by
  have atoms : (visits true {} ⟨"t", "a b = c[d] = e"⟩).any (fun v =>
      v.phrase = .rule .atom && 10 ≤ v.active.length && v.outcome.isMatched) = true := by
    decide +kernel
  obtain ⟨v, visited, found⟩ := List.any_eq_true.mp atoms
  simp only [Bool.and_eq_true, decide_eq_true_eq] at found
  obtain ⟨⟨is_rule, deep⟩, matches_⟩ := found
  obtain ⟨advances, nodup⟩ := (reading_advances true {} _).2.2 v visited
  refine ⟨v, visited, is_rule, deep, nodup, ?_⟩
  cases matched : v.outcome with
  | matched q t => exact ⟨q, t, rfl, advances (by rw [is_rule]; rfl) q t matched⟩
  | missed t => simp [matched, Outcome.isMatched] at matches_
  | broken => simp [matched, Outcome.isMatched] at matches_

end Reading

end Formwork
