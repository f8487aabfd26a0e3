import Formwork.Proofs.Advance
import Formwork.Proofs.Lasting

/-!
# What failed attempts restore

An attempt that fails cuts the operands down to the height they had. That restores them only if none
of them was taken off the stack in between. `Phrase.attempted` lists what a rule attempts: phrases
that are clean, so that a failure leaves the operands before them alone, and `Phrase.mapTail`. The
first entry of a map takes the key that was read before the attempt; if the map is not closed, the
entry is left in place of the key (`Reading.mapTail_alters_key`). Every other failed attempt
restores the operands, and every one of them the pending numbers, the place of the last token and
the depth: `Reading.attempts_restore`.
-/

namespace Formwork

/-! ## Attempts -/

namespace Phrase

/-- What follows the first key of a map. -/
def mapTail : Phrase :=
  chain [sign .colon, .rule .expression, .reduce .entry,
    .many (chain [sign .comma, .rule .expression, sign .colon, .rule .expression]
      (.reduce .entry)), sign .rbracket] (.reduce .map)

/-- The phrases that are attempted while a phrase is read, apart from those of other rules. -/
def attempted : Phrase → List Phrase
  | .token .. | .number | .rule _ | .reduce _ => []
  | .seq first second => first.attempted ++ second.attempted
  | .choice first second => first :: (first.attempted ++ second.attempted)
  | .branch _ yes no => yes.attempted ++ no.attempted
  | .nested phrase => phrase.attempted
  | .attempt phrase | .option phrase | .many phrase | .remembered _ phrase
  | .afterIndex phrase => phrase :: phrase.attempted

/-- All that a rule attempts is clean, but for the tail of a map. -/
theorem clean_or_mapTail (r : Rule) :
    ∀ part ∈ r.phrase.attempted, part.clean = true ∨ part = mapTail := by
  cases r <;> decide

end Phrase

namespace Visit

/-- Whether the phrase is one of those that the rule at work attempts. -/
def isAttempt (v : Visit) : Bool :=
  match v.active with
  | [] => false
  | newest :: _ => newest.rule.phrase.attempted.contains v.phrase

/-- What becomes of the phrase when it is attempted. -/
def attempt (v : Visit) : Outcome := Reader.attempt (fun _ _ => v.outcome) v.state v.position

theorem attempt_eq_missed {v : Visit} {t : State} (missed : v.attempt = .missed t) :
    ∃ u, v.outcome = .missed u ∧ t = v.state.retreat u := by
  rw [attempt, Reader.attempt_eq] at missed
  cases outcome : v.outcome with
  | matched q u => simp [outcome] at missed
  | missed u =>
      rw [outcome] at missed
      exact ⟨u, rfl, (Outcome.missed.inj missed).symm⟩
  | broken => simp [outcome] at missed

end Visit

/-- The state in which a phrase was missed. -/
def Outcome.missed? : Outcome → Option State
  | .missed t => some t
  | _ => none

theorem Outcome.missed?_eq_some {o : Outcome} {t : State} :
    o.missed? = some t ↔ o = .missed t := by
  cases o <;> simp [missed?]

/-- Whether an operand is an entry of a map. -/
def Operand.isEntry : Operand → Bool
  | .entry .. => true
  | _ => false

/-- The attempts made while a rule is attempted, that of the rule itself the first. -/
def Rule.attempts (settings : Settings) (fuel : Nat) (r : Rule) : Trace := fun s p =>
  ⟨[], ⟨p.cursor, s.operands.height⟩, .rule r, s, p, Rule.run settings fuel r s p⟩ ::
    (Rule.visits settings fuel [] r s p).filter Visit.isAttempt

namespace Reading

/-- The attempts made while the definition of a pass is read. -/
def Pass.attempts (settings : Settings) (fuel : Nat) (pass : Pass) : List Visit :=
  let s := pass.progress.state.restart pass.position
  if pass.isLast then []
  else if pass.progress.functions.isEmpty then
    Rule.attempts settings fuel .varDef s pass.position ++
      ((Rule.run settings fuel .varDef).attempt s pass.position).orElse
        (Rule.attempts settings fuel .funDef) pass.position
  else Rule.attempts settings fuel .funDef s pass.position

/-- The attempts made while a source is read. -/
def attempts (remember : Bool) (limits : Limits) (source : Source) : List Visit :=
  (passes remember limits source).flatMap
    (Pass.attempts (settingsFor remember limits source) (fuelOf source))

end Reading

/-! ## The tail of a map -/

/-- Where one thing after another fails, the first one fails and can do so, or the second one. -/
theorem Reader.Sound.andThen_eq_missed {spec : Rule → Yield → Prop} {phrase : Phrase}
    {read read' : Reader} {s₀ s u : State} {p₀ p : Position} {x : Yield}
    (sound : read.Sound spec phrase s₀ p₀) (stands : Stands s₀ p₀ x s p)
    (missed : read.andThen read' s p = .missed u) :
    phrase.sure = false ∧ read s p = .missed u ∨
      ∃ y t q, read s p = .matched q t ∧ phrase.Takes spec x y ∧ Stands s₀ p₀ y t q ∧
        read' t q = .missed u := by
  have first := sound x s p stands
  unfold Reader.andThen at missed
  cases outcome : read s p with
  | matched q t =>
      rw [outcome] at first missed
      obtain ⟨y, takes, after⟩ := first
      exact .inr ⟨y, t, q, rfl, takes, after, missed⟩
  | missed t =>
      rw [outcome] at first missed
      exact .inl ⟨first.1, missed⟩
  | broken => simp [outcome] at missed

theorem Reduction.build?_entry {span : Span} {operands : List Operand} {operand : Operand}
    (built : Reduction.entry.build? span operands = some operand) :
    ∃ key value, operands = [.expr key, .expr value] ∧ operand = .entry key value := by
  unfold Reduction.build? at built
  split at built <;> simp_all

/-- The operand that an expression leaves. -/
theorem Yield.Meets.expression {z : Yield} (meets : Yield.Meets Rule.Yields .expression z) :
    ∃ e, z.operands = [.expr e] := by
  obtain ⟨-, e, operands_eq, -⟩ := meets
  exact ⟨e, operands_eq⟩

namespace Phrase

/-- An entry takes the newest two operands. -/
theorem Takes.entry {spec : Rule → Yield → Prop} {x y : Yield}
    (takes : (Phrase.reduce .entry).Takes spec x y) :
    ∃ front key value, x.operands = front ++ [.expr key, .expr value] ∧
      y.operands = front ++ [.entry key value] := by
  obtain ⟨span, operand, -, built, rfl⟩ := takes
  obtain ⟨key, value, newest, rfl⟩ := Reduction.build?_entry built
  refine ⟨x.operands.take (Reduction.entry.kept x.operands.length), key, value, ?_, rfl⟩
  rw [← newest, List.take_append_drop]

/-- Each further entry of a map is added to the operands before it. -/
theorem Takes.entries {x y : Yield}
    (takes : (Phrase.many (chain [sign .comma, .rule .expression, sign .colon, .rule .expression]
      (.reduce .entry))).Takes (Yield.Meets Rule.Yields) x y) : x.operands <+: y.operands := by
  induction takes with
  | refl => exact List.prefix_refl _
  | @tail y z _ round earlier =>
      obtain ⟨_, ⟨comma, -, rfl⟩, _, ⟨first, is_key, rfl⟩, _, ⟨colon, -, rfl⟩, _,
        ⟨second, is_value, rfl⟩, reduced⟩ := round
      obtain ⟨e, first_eq⟩ := is_key.expression
      obtain ⟨e', second_eq⟩ := is_value.expression
      obtain ⟨front, key, value, before, after⟩ := reduced.entry
      have front_eq : y.operands ++ [.expr e, .expr e'] = front ++ [.expr key, .expr value] := by
        rw [← before]
        simp [first_eq, second_eq, Leaf.operand?]
      rw [after, ← (List.append_inj' front_eq rfl).1]
      exact earlier.trans (List.prefix_append _ _)

/--
Where the tail of a map fails, the operands before it are still there, or the first entry stands in
place of its key.
-/
theorem mapTail_missed {settings : Settings} (positive : 0 < settings.repeats) {fuel : Nat}
    {s₀ s u : State} {p₀ p : Position} {x : Yield} (stands : Stands s₀ p₀ x s p)
    (missed : mapTail.run settings (Rule.run settings fuel) ⟨p₀.cursor, s₀.operands.height⟩ s p =
      .missed u) :
    s.operands.items <:+ u.operands.items ∨
      (p.punct? .colon).isSome = true ∧ ∃ key value below above,
        s.operands.items = .expr key :: below ∧
          u.operands.items = above ++ .entry key value :: below := by
  have reads := Rule.run_sound Rule.meets_of_takes positive fuel
  have sound (part : Phrase) (is_tidy : part.tidy = true) :=
    Phrase.run_sound positive reads s₀ p₀ is_tidy
  obtain ⟨-, no_colon⟩ | ⟨_, s₁, p₁, colon, ⟨_, -, rfl⟩, stands₁, missed⟩ :=
    (sound (sign .colon) rfl).andThen_eq_missed stands missed
  · rw [Reader.token_missed no_colon, State.operands_expect]
    exact .inl (List.suffix_refl _)
  have same : s₁.operands.items = s.operands.items := by
    rw [stands₁.operands, stands.operands]
    simp [Leaf.operand?]
  obtain ⟨-, no_value⟩ | ⟨_, s₂, p₂, -, ⟨z, is_value, rfl⟩, stands₂, missed⟩ :=
    (sound (.rule .expression) rfl).andThen_eq_missed stands₁ missed
  · have failed := reads .expression s₁ p₁
    rw [show Rule.run settings fuel .expression s₁ p₁ = _ from no_value] at failed
    exact .inl (same ▸ failed.2.1)
  obtain ⟨unsure, -⟩ | ⟨y₃, s₃, p₃, -, reduced, stands₃, missed⟩ :=
    (sound (.reduce .entry) rfl).andThen_eq_missed stands₂ missed
  · exact absurd unsure (by decide)
  obtain ⟨unsure, -⟩ | ⟨y₄, s₄, p₄, -, entries, stands₄, missed⟩ :=
    (sound (.many _) rfl).andThen_eq_missed stands₃ missed
  · exact absurd unsure (by decide)
  obtain ⟨-, unclosed⟩ | ⟨_, s₅, p₅, -, -, stands₅, missed⟩ :=
    (sound (sign .rbracket) rfl).andThen_eq_missed stands₄ missed
  · -- The entry took the key, an operand from before; later entries only add operands.
    obtain ⟨e, value_eq⟩ := is_value.expression
    obtain ⟨front, key, value, before, after⟩ := reduced.entry
    have whole : x.operands ++ [.expr e] = (front ++ [.expr key]) ++ [.expr value] := by
      rw [List.append_assoc, List.singleton_append, ← before]
      simp [value_eq, Leaf.operand?]
    obtain ⟨key_last, -⟩ := List.append_inj' whole rfl
    obtain ⟨more, more_eq⟩ := entries.entries
    refine .inr ⟨?_, key, value, front.reverse ++ s₀.operands.items, more.reverse, ?_, ?_⟩
    · by_contra absent
      have no_colon := Reader.token_of_none (t := .punct .colon) .nothing s
        (Option.not_isSome_iff_eq_none.mp absent)
      exact absurd (no_colon.symm.trans colon) (by simp)
    · rw [stands.operands, key_last, List.reverse_append]
      rfl
    · rw [Reader.token_missed unclosed, State.operands_expect, stands₄.operands, ← more_eq, after]
      simp
  · have failed := sound (.reduce .map) rfl _ s₅ p₅ stands₅
    rw [show Phrase.run _ _ _ (.reduce .map) s₅ p₅ = _ from missed] at failed
    exact absurd failed.1 (by decide)

end Phrase

/-! ## What is restored -/

/-- A failed attempt restores everything, but for the key of a map whose first entry was read. -/
structure Visit.Restored (v : Visit) (t : State) : Prop where
  pending : t.pending = v.state.pending
  lastEnd : t.lastEnd = v.state.lastEnd
  depth : t.depth = v.state.depth
  operands :
    t.operands = v.state.operands ∨
      v.phrase = .mapTail ∧ (v.position.punct? .colon).isSome = true ∧
        ∃ key value below, v.state.operands.items = .expr key :: below ∧
          t.operands.items = .entry key value :: below

theorem Visit.Idle.restored {v : Visit} (idle : v.Idle) {t : State}
    (missed : v.attempt = .missed t) : v.Restored t := by
  obtain ⟨u, failed, rfl⟩ := v.attempt_eq_missed missed
  obtain ⟨operands_eq, pending_eq, depth_eq⟩ := idle u failed
  exact ⟨State.pending_retreat (by rw [pending_eq]), rfl, depth_eq,
    .inl (State.operands_retreat (by rw [operands_eq]))⟩

section

variable {settings : Settings} (positive : 0 < settings.repeats) {fuel : Nat}
include positive

/-- A phrase that a rule attempts restores what it is to restore. -/
theorem Visit.restored_of_stands {active : List Activation} {part : Phrase}
    (is_tidy : part.tidy = true) (attempted : part.clean = true ∨ part = .mapTail)
    {s₀ s t : State} {p₀ p : Position} {x : Yield} (stands : Stands s₀ p₀ x s p) {v : Visit}
    (v_eq : v = ⟨active, ⟨p₀.cursor, s₀.operands.height⟩, part, s, p,
      part.run settings (Rule.run settings fuel) ⟨p₀.cursor, s₀.operands.height⟩ s p⟩)
    (missed : v.attempt = .missed t) : v.Restored t := by
  subst v_eq
  obtain ⟨u, failed, rfl⟩ := Visit.attempt_eq_missed missed
  have reads := Rule.run_sound Rule.meets_of_takes positive fuel
  have sound := Phrase.run_sound positive reads s₀ p₀ is_tidy x s p stands
  have lasting := Lasting.depth p₀
  have depth_eq := lasting.phrase settings (lasting.rule settings fuel)
    ⟨p₀.cursor, s₀.operands.height⟩ part s p stands.spelled.leadsTo
  simp only at failed
  rw [failed] at sound depth_eq
  obtain ⟨-, -, before, clean⟩ := sound
  refine ⟨State.pending_retreat before, rfl, depth_eq, ?_⟩
  obtain is_clean | rfl := attempted
  · exact .inl (State.operands_retreat (clean is_clean))
  obtain below | ⟨colon, key, value, below, above, operands_eq, operands_eq'⟩ :=
    Phrase.mapTail_missed positive stands failed
  · exact .inl (State.operands_retreat below)
  · refine .inr ⟨rfl, colon, key, value, below, operands_eq, ?_⟩
    simp only [State.retreat, Stack.items_truncate, s.operands.height_eq, operands_eq, operands_eq']
    simp

theorem Rule.restored_of_mem_visits {active : List Activation} {r : Rule} {s t : State}
    {p : Position} {v : Visit} (visited : v ∈ Rule.visits settings fuel active r s p)
    (attempted : v.isAttempt = true) (missed : v.attempt = .missed t) : v.Restored t := by
  induction fuel generalizing active r s p with
  | zero => exact absurd visited List.not_mem_nil
  | succ fuel ih =>
      obtain ⟨part, y, u, q, v_eq, is_tidy, stands, -⟩ | ⟨-, -, idle⟩ | ⟨other, u, q, within, -⟩ :=
        Phrase.mem_visits positive (Rule.run_sound Rule.meets_of_takes positive fuel)
          (Phrase.tidy_phrase r) (Stands.refl s p) r.safe_phrase visited
      · have member : part ∈ r.phrase.attempted := by
          simpa [v_eq, Visit.isAttempt] using attempted
        exact Visit.restored_of_stands positive is_tidy (Phrase.clean_or_mapTail r part member)
          stands v_eq missed
      · exact idle.restored missed
      · exact ih within

theorem Rule.restored_of_mem_attempts {r : Rule} {s t : State} {p : Position} {v : Visit}
    (attempted : v ∈ Rule.attempts settings fuel r s p) (missed : v.attempt = .missed t) :
    v.Restored t := by
  obtain v_eq | inside := List.mem_cons.mp attempted
  · exact Visit.restored_of_stands positive rfl (.inl rfl) (Stands.refl s p) v_eq missed
  · obtain ⟨visited, is_attempt⟩ := List.mem_filter.mp inside
    exact Rule.restored_of_mem_visits positive visited is_attempt missed

end

namespace Reading

/--
A failed attempt leaves nothing behind, with one exception. Whatever is attempted while a source is
read, under any limits and with or without remembered failures: if it fails, the pending numbers,
the place of the last token and the depth are what they were, and so are the operands, unless a map
was attempted after its first key, a colon stood there and the map was given up after its first
entry. Then that entry is in place of the key, and all operands below it are what they were.
-/
theorem attempts_restore (remember : Bool) (limits : Limits) (source : Source) :
    ∀ v ∈ attempts remember limits source, ∀ t, v.attempt = .missed t → v.Restored t := by
  intro v attempted t missed
  obtain ⟨pass, -, attempted⟩ := List.mem_flatMap.mp attempted
  have positive : 0 < (settingsFor remember limits source).repeats := Nat.succ_pos _
  unfold Pass.attempts at attempted
  simp only at attempted
  split at attempted
  · exact absurd attempted List.not_mem_nil
  · split at attempted
    · simp only [List.mem_append, Outcome.mem_orElse] at attempted
      obtain global | ⟨u, -, function⟩ := attempted
      · exact Rule.restored_of_mem_attempts positive global missed
      · exact Rule.restored_of_mem_attempts positive function missed
    · exact Rule.restored_of_mem_attempts positive attempted missed

/-- The tail of a range that fails after two operands and a malformed number. -/
theorem attempts_restore_open_range :
    ∃ v ∈ attempts true {} ⟨"t", "n v = [1 .. 2. step 3"⟩, ∃ u t,
      v.outcome = .missed u ∧ v.state.operands.height + 2 < u.operands.height ∧
        v.state.pending.length < u.pending.length ∧ v.attempt = .missed t ∧
          t.operands = v.state.operands ∧ t.pending = v.state.pending ∧
            t.lastEnd = v.state.lastEnd ∧ t.depth = v.state.depth := by
  have fails : (attempts true {} ⟨"t", "n v = [1 .. 2. step 3"⟩).any (fun v =>
      v.phrase ≠ .mapTail && v.outcome.missed?.any fun u =>
        v.state.operands.height + 2 < u.operands.height &&
          v.state.pending.length < u.pending.length) = true := by
    decide +kernel
  obtain ⟨v, attempted, found⟩ := List.any_eq_true.mp fails
  simp only [Bool.and_eq_true, decide_eq_true_eq, Option.any_eq_true, Outcome.missed?_eq_some]
    at found
  obtain ⟨other, u, missed, higher, longer⟩ := found
  have again : v.attempt = .missed (v.state.retreat u) := by
    rw [Visit.attempt, Reader.attempt_eq, missed]
  obtain ⟨pending, lastEnd, depth, operands | ⟨is_tail, -⟩⟩ :=
    attempts_restore true {} _ v attempted _ again
  · exact ⟨v, attempted, u, _, missed, higher, longer, again, operands, pending, lastEnd, depth⟩
  · exact absurd is_tail other

/-- The tail of a map that is not closed leaves its first entry in place of the key. -/
theorem mapTail_alters_key :
    ¬ ∀ v ∈ attempts true {} ⟨"t", "num v = [1: 2"⟩, ∀ t, v.attempt = .missed t →
      t.operands = v.state.operands ∧ t.pending = v.state.pending ∧
        t.lastEnd = v.state.lastEnd ∧ t.depth = v.state.depth := by
  intro restored
  have alters : (attempts true {} ⟨"t", "num v = [1: 2"⟩).any (fun v =>
      v.attempt.missed?.any fun t =>
        t.operands.items.any Operand.isEntry && !v.state.operands.items.any Operand.isEntry) =
      true := by
    decide +kernel
  obtain ⟨v, attempted, found⟩ := List.any_eq_true.mp alters
  simp only [Option.any_eq_true, Outcome.missed?_eq_some] at found
  obtain ⟨t, missed, entry⟩ := found
  have same := (restored v attempted t missed).1
  rw [same, Bool.and_not_self] at entry
  exact absurd entry (by decide)

end Reading

end Formwork
