import Formwork.Proofs.Accepted
import Formwork.Proofs.Advance
import Formwork.Proofs.Record
import Formwork.Proofs.Tracked

/-!
# Diagnostics in source order

`Reading.stored_ascending`: as long as nothing is reported as nested too deep, the diagnostics of a
source are strictly increasing by line, column and code, whatever the limits.

Each definition reports a batch of diagnostics. `Position.gate` divides what is reported before a
definition from what it reports itself: a structural failure may be reported where the next
definition starts, and that definition may fail at the same place, but then with a greater code.
-/

namespace Formwork

/-- What diagnostics are ordered by: line, column and code. -/
def Diagnostic.key (d : Diagnostic) : (ℕ ×ₗ ℕ) ×ₗ ℕ :=
  toLex (toLex (d.span.startLine, d.span.startCol), d.code)

/-- The least key of what a definition at a position can report. -/
def Position.gate (p : Position) : (ℕ ×ₗ ℕ) ×ₗ ℕ := toLex (p.cursor.lineCol, Code.trailingInput)

/-- Only as many diagnostics are stored as there is room for. -/
theorem Diagnostics.stored_pushAll (ds : Diagnostics) (more : List Diagnostic) :
    (ds.pushAll more).stored = ds.stored ++ more.take (ds.limit - ds.stored.length) := by
  induction more generalizing ds with
  | nil => simp [pushAll]
  | cons d more ih =>
      have later := ih (ds.push d)
      simp only [pushAll, List.foldl_cons] at later ⊢
      rw [later]
      unfold push
      split
      · rename_i room
        have left : ds.limit - ds.stored.length = ds.limit - (ds.stored.length + 1) + 1 := by omega
        simp [left]
      · rename_i full
        have none_left : ds.limit - ds.stored.length = 0 := by omega
        simp [none_left]

/-! ## Malformed numbers without repeats -/

theorem Malformed.le_iff {m n : Malformed} : m.le n ↔ m.place.lineCol ≤ n.place.lineCol := by
  simp [le, Cursor.lineCol, Prod.Lex.toLex_le_toLex]

theorem Malformed.lt_of_le {m n : Malformed} (le : m.le n)
    (apart : n.place.point ≠ m.place.point) : m.place.lineCol < n.place.lineCol := by
  refine lt_of_le_not_ge (Malformed.le_iff.mp le) fun ge => apart ?_
  exact Malformed.le_antisymm (Malformed.le_iff.mpr ge) le

namespace Reading

theorem mem_sortByPlace {m : Malformed} {ms : List Malformed} (member : m ∈ sortByPlace ms) :
    m ∈ ms := by
  induction ms using List.reverseRecOn with
  | nil => exact member
  | append_singleton ms n ih =>
      rw [sortByPlace, List.foldl_append] at member
      rcases mem_insertByPlace.mp member with rfl | member
      · simp
      · exact List.mem_append_left _ (ih member)

theorem mem_go {last m : Malformed} {ms : List Malformed} (member : m ∈ dropRepeats.go last ms) :
    m ∈ ms := by
  induction ms generalizing last with
  | nil => exact member
  | cons n ms ih =>
      unfold dropRepeats.go at member
      split at member
      · exact List.mem_cons_of_mem n (ih member)
      · rcases List.mem_cons.mp member with rfl | member
        · exact List.mem_cons_self
        · exact List.mem_cons_of_mem n (ih member)

/-- Numbers in order that do not stand at the place of the one before are strictly in order. -/
theorem pairwise_go {last : Malformed} {ms : List Malformed}
    (sorted : (last :: ms).Pairwise Malformed.le) :
    (last :: dropRepeats.go last ms).Pairwise fun m n => m.place.lineCol < n.place.lineCol := by
  induction ms generalizing last with
  | nil => exact List.pairwise_singleton _ _
  | cons n ms ih =>
      obtain ⟨least, sorted'⟩ := List.pairwise_cons.mp sorted
      unfold dropRepeats.go
      split
      · refine ih (List.pairwise_cons.mpr ⟨fun m member => ?_, (List.pairwise_cons.mp sorted').2⟩)
        exact least m (List.mem_cons_of_mem n member)
      · rename_i apart
        have first := Malformed.lt_of_le (least n List.mem_cons_self) apart
        have others := ih sorted'
        refine List.pairwise_cons.mpr ⟨fun m member => ?_, others⟩
        rcases List.mem_cons.mp member with rfl | member
        · exact first
        · exact first.trans ((List.pairwise_cons.mp others).1 m member)

/-- The numbers that a failure reports are strictly in order, and all were given up. -/
theorem dropRepeats_sortByPlace_spec (ms : List Malformed) :
    ((dropRepeats (sortByPlace ms)).Pairwise fun m n => m.place.lineCol < n.place.lineCol) ∧
      ∀ m ∈ dropRepeats (sortByPlace ms), m ∈ ms := by
  have sorted := pairwise_sortByPlace ms
  have among : ∀ m ∈ sortByPlace ms, m ∈ ms := fun m => mem_sortByPlace
  cases sorted_eq : sortByPlace ms with
  | nil => exact ⟨.nil, fun m member => absurd member List.not_mem_nil⟩
  | cons first others =>
      rw [sorted_eq] at sorted among
      refine ⟨pairwise_go sorted, fun m member => among m ?_⟩
      rcases List.mem_cons.mp member with rfl | member
      · exact List.mem_cons_self
      · exact List.mem_cons_of_mem first (mem_go member)

/-! ## Batches -/

/--
The diagnostics `more` of a definition at `p`, after which reading goes on at `q`. One that is
nested too deep may come last and says where reading could not go on, not where it got to.
-/
structure Batch (p q : Position) (more : List Diagnostic) : Prop where
  ascending : ∀ part, part <+: more → (∀ d ∈ part, d.code ≠ .nestingTooDeep) →
    part.Pairwise (fun d e => d.key < e.key) ∧ ∀ d ∈ part, p.gate ≤ d.key
  behind : (∀ d ∈ more, d.code ≠ .nestingTooDeep) → ∀ d ∈ more, d.key < q.gate

section Batch

variable {source : Source} {p q : Position} {ms : List Malformed}

theorem gate_le_key {d : Diagnostic} (later : p.cursor.lineCol < (ofLex d.key).1) :
    p.gate ≤ d.key :=
  (Prod.Lex.toLex_lt_toLex.mpr (Or.inl later)).le

theorem key_lt_gate {d : Diagnostic} (earlier : (ofLex d.key).1 < q.cursor.lineCol) :
    d.key < q.gate :=
  Prod.Lex.toLex_lt_toLex.mpr (Or.inl earlier)

theorem gate_le_gate (onward : p.LeadsTo q) : p.gate ≤ q.gate := by
  refine Prod.Lex.toLex_le_toLex.mpr ?_
  rcases onward.lineCol_le.lt_or_eq with earlier | here
  · exact Or.inl earlier
  · exact Or.inr ⟨here, le_rfl⟩

/-- Numbers in order are reported in order. -/
theorem pairwise_diagnoseNumber (source : Source)
    (sorted : ms.Pairwise fun m n => m.place.lineCol < n.place.lineCol) :
    (ms.map (diagnoseNumber source)).Pairwise fun d e => d.key < e.key :=
  List.pairwise_map.mpr (sorted.imp fun earlier => Prod.Lex.toLex_lt_toLex.mpr (Or.inl earlier))

/-- What a definition that is read reports: its malformed numbers, from first to last. -/
theorem batch_of_spelled (source : Source) {xs : List Piece} (spelled : Spelled p xs q) :
    Batch p q ((xs.filterMap Piece.malformed?).map (diagnoseNumber source)) := by
  obtain ⟨sorted, between⟩ := spelled.malformed_ascending
  have ordered := pairwise_diagnoseNumber source sorted
  refine ⟨fun part ahead _ => ⟨ordered.sublist ahead.sublist, fun d member => ?_⟩,
    fun _ d member => ?_⟩
  · obtain ⟨m, noted, rfl⟩ := List.mem_map.mp (ahead.subset member)
    exact gate_le_key (between m noted).1
  · obtain ⟨m, noted, rfl⟩ := List.mem_map.mp member
    exact key_lt_gate (between m noted).2

/-- A part of a list that lacks the last one is a part of the others. -/
theorem prefix_of_not_mem {α : Type} {last : α} {part others : List α}
    (ahead : part <+: others ++ [last]) (lacks : last ∉ part) : part <+: others := by
  rcases List.prefix_concat_iff.mp ahead with rfl | shorter
  · simp at lacks
  · exact shorter

/-- Reading goes on at the furthest failure or behind it. -/
theorem leadsTo_resume_furthest {furthest : Position} (ahead : p.LeadsTo furthest) :
    furthest.LeadsTo (resume p furthest) := by
  have not_behind : furthest.cursor.precedes p.cursor = false := by
    rcases ahead.eq_or_length_lt with rfl | shorter
    · exact Cursor.precedes_irrefl _
    · have later := ahead.offset_lt shorter
      rw [← Bool.not_eq_true, Cursor.precedes_iff]
      omega
  unfold resume
  split
  · exact .refl furthest
  · simp only [not_behind, Bool.false_eq_true, if_false]
    exact Position.leadsTo_skipToKeyword anchors furthest

/-- The numbers given up with a definition are reported in order, behind its start. -/
theorem numbers_of_tracked {s : State} (source : Source) (tracked : s.Tracked p) :
    (((dropRepeats (sortByPlace s.abandoned)).map (diagnoseNumber source)).Pairwise
        fun d e => d.key < e.key) ∧
      ∀ d ∈ (dropRepeats (sortByPlace s.abandoned)).map (diagnoseNumber source),
        p.gate ≤ d.key ∧ (s.tooDeep = none → (ofLex d.key).1 < s.furthest.cursor.lineCol) := by
  obtain ⟨sorted, among⟩ := dropRepeats_sortByPlace_spec s.abandoned
  refine ⟨pairwise_diagnoseNumber source sorted, fun d member => ?_⟩
  obtain ⟨m, noted, rfl⟩ := List.mem_map.mp member
  exact ⟨gate_le_key (tracked.abandoned_after m (among m noted)),
    fun shallow => tracked.abandoned_before shallow m (among m noted)⟩

/-- What a definition that cannot be read reports: numbers given up, then the structural failure. -/
theorem batch_of_failure (source : Source) (settings : Settings) {s : State}
    (tracked : s.Tracked p) (more : p.isEnd = false) :
    Batch p (resume p (failure source settings s p).2) (failure source settings s p).1 := by
  obtain ⟨sorted, noted⟩ := numbers_of_tracked source tracked
  unfold failure
  split
  · -- The last diagnostic is the one for nesting, and whatever lacks it consists of numbers.
    refine ⟨fun part ahead shallow => ?_, fun shallow => ?_⟩
    · have numbers := prefix_of_not_mem ahead fun member => shallow _ member rfl
      exact ⟨sorted.sublist numbers.sublist, fun d member => (noted d (numbers.subset member)).1⟩
    · exact absurd rfl (shallow _ (List.mem_append_right _ List.mem_cons_self))
  · rename_i shallow
    have onward := leadsTo_resume_furthest tracked.within
    have strictly := tracked.within.eq_or_length_lt
    simp only
    generalize code_eq : (if s.furthest.cursor = p.cursor then Code.trailingInput
      else .unexpectedInput) = code
    have ordered : ((dropRepeats (sortByPlace s.abandoned)).map (diagnoseNumber source) ++
        [diagnose source code s!"unexpected {describe s.furthest}" s.furthest.cursor
          s.expected]).Pairwise fun d e => d.key < e.key := by
      refine List.pairwise_append.mpr ⟨sorted, List.pairwise_singleton _ _, ?_⟩
      intro d member e last
      obtain rfl := List.mem_singleton.mp last
      exact Prod.Lex.toLex_lt_toLex.mpr (Or.inl ((noted d member).2 shallow))
    refine ⟨fun part ahead _ => ⟨ordered.sublist ahead.sublist, fun d member => ?_⟩,
      fun _ d member => ?_⟩
    · rcases List.mem_append.mp (ahead.subset member) with number | structural
      · exact (noted d number).1
      · obtain rfl := List.mem_singleton.mp structural
        rcases strictly with same | shorter
        · rw [if_pos (by rw [← same])] at code_eq
          subst code_eq
          exact (congrArg Position.gate same).le
        · exact gate_le_key (tracked.within.lineCol_lt shorter)
    · rcases List.mem_append.mp member with number | structural
      · exact key_lt_gate (((noted d number).2 shallow).trans_le onward.lineCol_le)
      · obtain rfl := List.mem_singleton.mp structural
        rcases strictly with same | shorter
        · -- Nothing could be read, so reading skips at least one character.
          have passed := leadsTo_resume_furthest tracked.within
          rw [← same] at passed ⊢
          exact key_lt_gate (passed.lineCol_lt (length_resume (.refl p) more))
        · have apart : s.furthest.cursor ≠ p.cursor := fun same =>
            (tracked.within.lineCol_lt shorter).ne (congrArg Cursor.lineCol same.symm)
          rw [if_neg apart] at code_eq
          subst code_eq
          refine Prod.Lex.toLex_lt_toLex.mpr ?_
          rcases onward.lineCol_le.lt_or_eq with earlier | here
          · exact Or.inl earlier
          · exact Or.inr ⟨here, show Code.unexpectedInput < Code.trailingInput by decide⟩

end Batch

/-! ## Definitions -/

section Step

variable {source : Source} {settings : Settings} {fuel : Nat} {p q : Position}
  {progress after : Progress}

/-- An attempt to read a rule at the start of a definition tracks what it notes. -/
theorem tracked_attempt (settings : Settings) (fuel : Nat) (r : Rule) {s : State}
    (tracked : s.Tracked p) (none_noted : s.pending = []) :
    ((Rule.run settings fuel r).attempt s p).Tracked p p s :=
  (Reader.Tracked.rule p settings fuel r).attempt s p (.refl p) tracked
    (by simp [none_noted, Malformed.AllBetween])

/-- Where a function is tried, nothing is noted yet but what was given up. -/
theorem TriesFunction.tracked {functions : List FunctionDef} {begun s : State}
    (tried : TriesFunction settings fuel p functions (begun.restart p) s) :
    s.Tracked p ∧ s.pending = [] := by
  have tracked := begun.tracked_restart p
  cases tried with
  | first => exact ⟨tracked, rfl⟩
  | second _ missed =>
      obtain ⟨tracked', pending_eq, -⟩ := Reader.Tracked.attempt_missed
        (Reader.Tracked.rule p settings fuel .varDef) (.refl p) tracked
        (by simp [State.restart, Malformed.AllBetween]) missed
      exact ⟨tracked', pending_eq⟩

/-- What is noted while a definition is read is tracked from its start on. -/
theorem StepsTo.tracked (steps : StepsTo source settings fuel p progress q after) :
    after.state.Tracked p := by
  have committed {r : Rule} {s t : State} (tracked : s.Tracked p) (none_noted : s.pending = [])
      (matched : (Rule.run settings fuel r).attempt s p = .matched q t) (operands : Stack) :
      State.Tracked p { t with pending := [], operands := operands } := by
    have kept := tracked_attempt settings fuel r tracked none_noted
    rw [matched] at kept
    obtain ⟨⟨within, behind, before, deadEnds⟩, -⟩ := kept
    exact ⟨within, behind, before, deadEnds⟩
  cases steps with
  | global _ matched _ => exact committed (progress.state.tracked_restart p) rfl matched _
  | function tried matched _ => exact committed tried.tracked.1 tried.tracked.2 matched _
  | failed tried missed =>
      have kept := tracked_attempt settings fuel .funDef tried.tracked.1 tried.tracked.2
      rw [missed] at kept
      exact kept.1.expect (.refl p) "end of input"

/-- Each definition reports a batch. -/
theorem Stepped.batch (stepped : Stepped source settings p progress q after)
    (tracked : after.state.Tracked p) (more : p.isEnd = false) :
    ∃ batch, Batch p q batch ∧ after.diagnostics = progress.diagnostics.pushAll batch := by
  cases stepped with
  | global _ _ spelled pending_eq =>
      exact ⟨_, batch_of_spelled source spelled, by rw [Progress.commit, pending_eq]; rfl⟩
  | function _ spelled pending_eq =>
      exact ⟨_, batch_of_spelled source spelled, by rw [Progress.commit, pending_eq]; rfl⟩
  | failed _ _ => exact ⟨_, batch_of_failure source settings tracked more, rfl⟩

end Step

/--
What holds of the diagnostics before a definition at `p`: unless something was nested too deep,
those that are stored are in order, and before what is reported at `p` if there is room for it.
-/
structure Ascending (p : Position) (ds : Diagnostics) : Prop where
  counted : ds.stored.length ≤ ds.total
  ordered : (∀ d ∈ ds.stored, d.code ≠ .nestingTooDeep) →
    ds.stored.Pairwise (fun d e => d.key < e.key) ∧
      (ds.isFull = false → ∀ d ∈ ds.stored, d.key < p.gate)

theorem ascending_empty (p : Position) (limit : Nat) : Ascending p (.empty limit) where
  counted := Nat.le_refl 0
  ordered _ := ⟨.nil, fun _ _ member => absurd member List.not_mem_nil⟩

/-- One more batch keeps the diagnostics in order. -/
theorem Ascending.pushAll {p q : Position} {ds : Diagnostics} {more : List Diagnostic}
    (ascending : Ascending p ds) (room : ds.isFull = false) (onward : p.LeadsTo q)
    (batch : Batch p q more) :
    Ascending q (ds.pushAll more) := by
  have total_eq := ds.total_pushAll more
  have stored_eq := ds.stored_pushAll more
  have counted := ascending.counted
  have part := List.take_prefix (ds.limit - ds.stored.length) more
  refine ⟨?_, fun shallow => ?_⟩
  · rw [stored_eq, total_eq, List.length_append, List.length_take]
    omega
  · rw [stored_eq] at shallow ⊢
    obtain ⟨sorted, behind⟩ := ascending.ordered fun d member =>
      shallow d (List.mem_append_left _ member)
    obtain ⟨sorted', later⟩ := batch.ascending _ part fun d member =>
      shallow d (List.mem_append_right _ member)
    have crossing : ∀ d ∈ ds.stored,
        ∀ e ∈ more.take (ds.limit - ds.stored.length), d.key < e.key :=
      fun d old e new => (behind room d old).trans_le (later e new)
    refine ⟨List.pairwise_append.mpr ⟨sorted, sorted', crossing⟩, fun room' => ?_⟩
    -- There is room left, so the whole batch was stored.
    have all_stored : more.take (ds.limit - ds.stored.length) = more := by
      simp only [Diagnostics.isFull, ds.limit_pushAll, total_eq, decide_eq_false_iff_not] at room'
      exact List.take_of_length_le (by omega)
    rw [all_stored] at shallow ⊢
    have behind' := batch.behind fun d member => shallow d (List.mem_append_right _ member)
    intro d member
    rcases List.mem_append.mp member with old | new
    · exact (behind room d old).trans_le (gate_le_gate onward)
    · exact behind' d new

/-- All definitions together report in order. -/
theorem definitions_ascending {source : Source} {settings : Settings} {fuel steps : Nat}
    {start : Cursor} {p : Position} {progress : Progress} {reading : Reading}
    (repeats : p.rest.length < settings.repeats)
    (enough : Rule.all.length * p.rest.length + Rule.all.length ≤ fuel)
    (read : definitions source settings fuel start steps p progress = some reading)
    (ascending : Ascending p progress.diagnostics) : ∃ q, Ascending q reading.diagnostics := by
  induction steps generalizing p progress with
  | zero => simp [definitions] at read
  | succ steps ih =>
      unfold definitions at read
      split at read
      · obtain rfl := Option.some.inj read
        exact ⟨p, ascending⟩
      · rename_i room
        split at read
        · obtain rfl := Option.some.inj read
          exact ⟨p, ascending⟩
        · rename_i more
          have more : p.isEnd = false := Bool.not_eq_true _ ▸ more
          have room : progress.diagnostics.isFull = false := Bool.not_eq_true _ ▸ room
          obtain ⟨q, after, next, stepped⟩ := definitionStep_spec source progress repeats enough
          obtain ⟨batch, is_batch, pushed⟩ :=
            stepped.batch (definitionStep_eq_next_iff.mp next).tracked more
          have shorter := stepped.length_lt more
          have less := Nat.mul_le_mul_left Rule.all.length shorter.le
          simp only [next] at read
          refine ih (by omega) (by omega) read ?_
          rw [pushed]
          exact ascending.pushAll room stepped.leadsTo is_batch

/--
Diagnostics come in source order. As long as no definition of a source is reported as nested too
deep, the diagnostics that are stored are strictly increasing by line, column and code, so none
comes twice and none of a later definition lies before one of an earlier definition.
-/
theorem stored_ascending (limits : Limits) (source : Source)
    (shallow : ∀ d ∈ (ofSource limits source).diagnostics.stored, d.code ≠ .nestingTooDeep) :
    (ofSource limits source).diagnostics.stored.Pairwise fun d e => d.key < e.key := by
  obtain ⟨reading, read⟩ := Option.isSome_iff_exists.mp (run?_isSome true limits source)
  obtain ⟨repeats, enough⟩ := enough_ahead (Position.leadsTo_skipGap (.ofText source.text))
  obtain ⟨q, ascending⟩ :=
    definitions_ascending repeats enough read (ascending_empty _ limits.maxErrors)
  simp only [ofSource, read, Option.getD_some] at shallow ⊢
  exact (ascending.ordered shallow).1

/-- Numbers and structural failures of several definitions, some read and some not. -/
theorem stored_ascending_sample :
    ∃ ds,
      (ofSource {} ⟨"t", "a b = 1x ] const c d = (2y const ) fun e f() = 3z"⟩).diagnostics = ds ∧
      (ds.stored.map fun d => (d.span.startCol, d.code)) =
        [(8, 101), (10, 102), (26, 101), (28, 100), (34, 100), (49, 101)] ∧
      ds.stored.Pairwise fun d e => d.key < e.key :=
  ⟨_, rfl, by decide +kernel, stored_ascending {} _ (by decide +kernel)⟩

end Reading

end Formwork
