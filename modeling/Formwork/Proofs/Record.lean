import Mathlib.Data.List.Pairwise
import Formwork.Grammar.Reading
import Formwork.Proofs.Position

/-!
# What a failure reports

While a definition is read, two things happen that a failure may report: a token is looked for in
vain, and an alternative that read a malformed number fails. `State.record` is all that is kept of
these events, with the repeated numbers left out as they are when reported. An event that a record
knows does not change it, and records forget nothing, so events that happen again change nothing.
-/

namespace Formwork

/-! ## Malformed numbers by place -/

namespace Malformed

/-- One malformed number does not come after another. -/
def le (m n : Malformed) : Prop :=
  m.place.line < n.place.line ∨ m.place.line = n.place.line ∧ m.place.col ≤ n.place.col

theorem placeLe_iff {m n : Malformed} :
    Span.placeLe m.place.line m.place.col n.place.line n.place.col = true ↔ m.le n := by
  simp [Span.placeLe, le]

theorem le_trans {m n k : Malformed} (first : m.le n) (second : n.le k) : m.le k := by
  unfold le at *
  omega

theorem le_of_not_le {m n : Malformed} (late : ¬ m.le n) : n.le m := by
  unfold le at *
  omega

theorem le_of_point_eq {m n : Malformed} (same : m.place.point = n.place.point) : m.le n := by
  simp only [Cursor.point, Span.point, Span.mk.injEq] at same
  unfold le
  omega

theorem le_antisymm {m n : Malformed} (first : m.le n) (second : n.le m) :
    m.place.point = n.place.point := by
  unfold le at *
  simp only [Cursor.point, Span.point, Span.mk.injEq]
  omega

end Malformed

namespace Reading

/-- Puts a malformed number in its place unless there is one already. -/
def insertFirst (m : Malformed) : List Malformed → List Malformed
  | [] => [m]
  | other :: others =>
      if other.place.point = m.place.point then other :: others
      else if Span.placeLe other.place.line other.place.col m.place.line m.place.col then
        other :: insertFirst m others
      else m :: other :: others

theorem mem_insertByPlace {m n : Malformed} {ms : List Malformed} :
    n ∈ insertByPlace m ms ↔ n = m ∨ n ∈ ms := by
  induction ms with
  | nil => simp [insertByPlace]
  | cons other ms ih =>
      unfold insertByPlace
      split
      · simp only [List.mem_cons, ih]
        exact or_left_comm
      · simp

theorem pairwise_insertByPlace (m : Malformed) {ms : List Malformed}
    (sorted : ms.Pairwise Malformed.le) : (insertByPlace m ms).Pairwise Malformed.le := by
  induction ms with
  | nil => simp [insertByPlace]
  | cons other ms ih =>
      obtain ⟨least, sorted'⟩ := List.pairwise_cons.mp sorted
      unfold insertByPlace
      split
      · rename_i early
        refine List.pairwise_cons.mpr ⟨fun n member => ?_, ih sorted'⟩
        rcases mem_insertByPlace.mp member with rfl | member
        · exact Malformed.placeLe_iff.mp early
        · exact least n member
      · rename_i late
        have before := Malformed.le_of_not_le fun early => late (Malformed.placeLe_iff.mpr early)
        refine List.pairwise_cons.mpr ⟨fun n member => ?_, sorted⟩
        rcases List.mem_cons.mp member with rfl | member
        · exact before
        · exact Malformed.le_trans before (least n member)

theorem pairwise_sortByPlace (ms : List Malformed) :
    (sortByPlace ms).Pairwise Malformed.le := by
  induction ms using List.reverseRecOn with
  | nil => exact .nil
  | append_singleton ms m ih =>
      rw [sortByPlace, List.foldl_append]
      exact pairwise_insertByPlace m ih

theorem go_insertByPlace {last m : Malformed} {ms : List Malformed}
    (sorted : (last :: ms).Pairwise Malformed.le) (after : last.le m) :
    dropRepeats.go last (insertByPlace m ms) =
      if m.place.point = last.place.point then dropRepeats.go last ms
      else insertFirst m (dropRepeats.go last ms) := by
  induction ms generalizing last with
  | nil => simp [insertByPlace, dropRepeats.go, insertFirst]
  | cons other ms ih =>
      obtain ⟨least, sorted'⟩ := List.pairwise_cons.mp sorted
      have last_le := least other List.mem_cons_self
      have skipped : (last :: ms).Pairwise Malformed.le :=
        List.pairwise_cons.mpr ⟨fun n member => least n (List.mem_cons_of_mem _ member),
          (List.pairwise_cons.mp sorted').2⟩
      unfold insertByPlace
      split
      · rename_i early
        have other_le := Malformed.placeLe_iff.mp early
        by_cases repeated : other.place.point = last.place.point
        · simp only [dropRepeats.go, repeated, if_true]
          exact ih skipped after
        · have later : m.place.point ≠ last.place.point := fun same =>
            repeated (Malformed.le_antisymm
              (Malformed.le_trans other_le (Malformed.le_of_point_eq same)) last_le)
          simp only [dropRepeats.go, repeated, later, if_false, ih sorted' other_le, insertFirst]
          by_cases same : m.place.point = other.place.point
          · simp [same]
          · simp [same, Ne.symm same, early]
      · rename_i late
        have not_le : ¬ other.le m := fun early => late (Malformed.placeLe_iff.mpr early)
        have apart : other.place.point ≠ m.place.point :=
          fun same => not_le (Malformed.le_of_point_eq same)
        have fresh : other.place.point ≠ last.place.point := fun same =>
          not_le (Malformed.le_trans (Malformed.le_of_point_eq same) after)
        by_cases same : m.place.point = last.place.point
        · simp [dropRepeats.go, same]
        · simp [dropRepeats.go, same, apart, fresh, insertFirst, late]

/-- A malformed number met last is reported if there is none at its place yet. -/
theorem dropRepeats_sortByPlace_append (ms : List Malformed) (m : Malformed) :
    dropRepeats (sortByPlace (ms ++ [m])) = insertFirst m (dropRepeats (sortByPlace ms)) := by
  have sorted := pairwise_sortByPlace ms
  have insert_eq : sortByPlace (ms ++ [m]) = insertByPlace m (sortByPlace ms) := by
    simp [sortByPlace]
  rw [insert_eq]
  cases list : sortByPlace ms with
  | nil => rfl
  | cons other others =>
      rw [list] at sorted
      unfold insertByPlace
      split
      · rename_i early
        simp only [dropRepeats, insertFirst,
          go_insertByPlace sorted (Malformed.placeLe_iff.mp early)]
        by_cases same : m.place.point = other.place.point
        · simp [same]
        · simp [same, Ne.symm same, early]
      · rename_i late
        have not_le : ¬ other.le m := fun early => late (Malformed.placeLe_iff.mpr early)
        have apart : other.place.point ≠ m.place.point :=
          fun same => not_le (Malformed.le_of_point_eq same)
        simp [dropRepeats, dropRepeats.go, apart, insertFirst, late]

end Reading

/-! ## Records -/

/-- Something that a failure may report. -/
inductive Event where
  /-- A token was looked for in vain. -/
  | sought (p : Position) (label : String)
  /-- An alternative with a malformed number failed. -/
  | dropped (number : Malformed)

/-- What is kept of the events while a definition is read. -/
structure Record where
  /-- The furthest position where a token was looked for. -/
  furthest : Position
  /-- What was looked for there. -/
  expected : List String
  /-- The malformed numbers of alternatives that failed, in order and one for each place. -/
  numbers : List Malformed

/-- What is kept in a state. -/
def State.record (s : State) : Record :=
  ⟨s.furthest, s.expected, Reading.dropRepeats (Reading.sortByPlace s.abandoned)⟩

namespace Record

/-- One more event. -/
def note (r : Record) : Event → Record
  | .sought p label =>
      if r.furthest.cursor.precedes p.cursor then { r with furthest := p, expected := [label] }
      else if p.cursor = r.furthest.cursor then
        { r with expected := insertText label r.expected }
      else r
  | .dropped m => { r with numbers := Reading.insertFirst m r.numbers }

/-- Events one after another. -/
def replay (r : Record) (events : List Event) : Record := events.foldl note r

@[simp]
theorem replay_nil (r : Record) : r.replay [] = r := rfl

@[simp]
theorem replay_append (r : Record) (es fs : List Event) :
    r.replay (es ++ fs) = (r.replay es).replay fs :=
  List.foldl_append

/-- Lists are in increasing order. -/
structure Ordered (r : Record) : Prop where
  expected : r.expected.Pairwise (· < ·)
  numbers : r.numbers.Pairwise Malformed.le

/-- A record already holds what an event would add. -/
def Knows (r : Record) : Event → Prop
  | .sought p label =>
      r.furthest.cursor.precedes p.cursor = false ∧
        (p.cursor = r.furthest.cursor → label ∈ r.expected)
  | .dropped m => ∃ n ∈ r.numbers, n.place.point = m.place.point

end Record

theorem insertText_of_mem {text : String} {texts : List String}
    (sorted : texts.Pairwise (· < ·)) (member : text ∈ texts) : insertText text texts = texts := by
  induction texts with
  | nil => simp at member
  | cons other texts ih =>
      obtain ⟨least, sorted'⟩ := List.pairwise_cons.mp sorted
      unfold insertText
      rcases List.mem_cons.mp member with rfl | member
      · rw [if_neg (String.lt_irrefl text), if_pos rfl]
      · have later := least text member
        have apart : text ≠ other := by
          rintro rfl
          exact String.lt_irrefl _ later
        simp [String.lt_asymm later, apart, ih sorted' member]

theorem pairwise_insertText (text : String) {texts : List String}
    (sorted : texts.Pairwise (· < ·)) : (insertText text texts).Pairwise (· < ·) := by
  induction texts with
  | nil => simp [insertText]
  | cons other texts ih =>
      obtain ⟨least, sorted'⟩ := List.pairwise_cons.mp sorted
      unfold insertText
      split
      · rename_i early
        refine List.pairwise_cons.mpr ⟨fun later member => ?_, sorted⟩
        rcases List.mem_cons.mp member with rfl | member
        · exact early
        · exact String.lt_trans early (least later member)
      · split
        · exact sorted
        · rename_i late apart
          refine List.pairwise_cons.mpr ⟨fun later member => ?_, ih sorted'⟩
          rcases mem_insertText.mp member with rfl | member
          · by_contra not_lt
            exact apart (String.le_antisymm (String.not_lt.mp not_lt) (String.not_lt.mp late))
          · exact least later member

namespace Reading

theorem mem_insertFirst_of_mem (m : Malformed) {n : Malformed} {ms : List Malformed}
    (member : n ∈ ms) : n ∈ insertFirst m ms := by
  induction ms with
  | nil => simp at member
  | cons other ms ih =>
      unfold insertFirst
      split
      · exact member
      · split
        · rcases List.mem_cons.mp member with rfl | member
          · exact List.mem_cons_self
          · exact List.mem_cons_of_mem _ (ih member)
        · exact List.mem_cons_of_mem _ member

theorem place_mem_insertFirst (m : Malformed) (ms : List Malformed) :
    ∃ n ∈ insertFirst m ms, n.place.point = m.place.point := by
  induction ms with
  | nil => exact ⟨m, by simp [insertFirst], rfl⟩
  | cons other ms ih =>
      unfold insertFirst
      split
      · rename_i same
        exact ⟨other, List.mem_cons_self, same⟩
      · split
        · obtain ⟨n, member, same⟩ := ih
          exact ⟨n, List.mem_cons_of_mem _ member, same⟩
        · exact ⟨m, List.mem_cons_self, rfl⟩

theorem insertFirst_of_place_mem {m : Malformed} {ms : List Malformed}
    (sorted : ms.Pairwise Malformed.le) (known : ∃ n ∈ ms, n.place.point = m.place.point) :
    insertFirst m ms = ms := by
  induction ms with
  | nil => simp at known
  | cons other ms ih =>
      obtain ⟨least, sorted'⟩ := List.pairwise_cons.mp sorted
      obtain ⟨n, member, same⟩ := known
      unfold insertFirst
      split
      · rfl
      · rename_i apart
        rcases List.mem_cons.mp member with rfl | member
        · exact absurd same apart
        · have early := Malformed.le_trans (least n member) (Malformed.le_of_point_eq same)
          rw [if_pos (Malformed.placeLe_iff.mpr early), ih sorted' ⟨n, member, same⟩]

theorem pairwise_insertFirst (m : Malformed) {ms : List Malformed}
    (sorted : ms.Pairwise Malformed.le) : (insertFirst m ms).Pairwise Malformed.le := by
  by_cases known : ∃ n ∈ ms, n.place.point = m.place.point
  · rwa [insertFirst_of_place_mem sorted known]
  · have same_list : insertFirst m ms = insertByPlace m ms := by
      clear sorted
      induction ms with
      | nil => rfl
      | cons other ms ih =>
          simp only [List.mem_cons, exists_eq_or_imp, not_or] at known
          simp only [insertFirst, insertByPlace, known.1, if_false, ih known.2]
    rw [same_list]
    exact pairwise_insertByPlace m sorted

end Reading

namespace Record

variable {r : Record} {event : Event}

theorem Ordered.note (ordered : r.Ordered) (event : Event) : (r.note event).Ordered := by
  obtain ⟨expected, numbers⟩ := ordered
  cases event with
  | sought p label =>
      simp only [Record.note]
      split
      · exact ⟨List.pairwise_singleton _ _, numbers⟩
      · split
        · exact ⟨pairwise_insertText label expected, numbers⟩
        · exact ⟨expected, numbers⟩
  | dropped m => exact ⟨expected, Reading.pairwise_insertFirst m numbers⟩

/-- An event that is known adds nothing. -/
theorem note_of_knows (ordered : r.Ordered) (knows : r.Knows event) : r.note event = r := by
  cases event with
  | sought p label =>
      obtain ⟨not_later, listed⟩ := knows
      simp only [note, not_later, Bool.false_eq_true, if_false]
      split
      · rename_i here
        rw [insertText_of_mem ordered.expected (listed here)]
      · rfl
  | dropped m =>
      simp only [note, Reading.insertFirst_of_place_mem ordered.numbers knows]

theorem knows_note (r : Record) (event : Event) : (r.note event).Knows event := by
  cases event with
  | sought p label =>
      simp only [note]
      split
      · exact ⟨Cursor.precedes_irrefl _, by simp⟩
      · rename_i not_later
        split
        · exact ⟨Bool.not_eq_true _ ▸ not_later, by simp⟩
        · rename_i apart
          exact ⟨Bool.not_eq_true _ ▸ not_later, fun here => absurd here apart⟩
  | dropped m => exact Reading.place_mem_insertFirst m r.numbers

/-- What is known stays known. -/
theorem Knows.note (knows : r.Knows event) (other : Event) : (r.note other).Knows event := by
  cases event with
  | sought p label =>
      obtain ⟨not_later, listed⟩ := knows
      cases other with
      | sought q label' =>
          simp only [Record.note]
          split
          · -- The furthest place moves past `p`.
            rename_i further
            have passed : p.cursor.precedes q.cursor = true := by
              rcases Cursor.eq_or_precedes_of_not_precedes not_later with here | before
              · rwa [← here]
              · exact Cursor.precedes_trans before further
            refine ⟨?_, fun here => ?_⟩
            · by_contra both
              have loop := Cursor.precedes_trans passed (Bool.not_eq_false _ ▸ both)
              rw [Cursor.precedes_irrefl] at loop
              exact Bool.noConfusion loop
            · rw [here, Cursor.precedes_irrefl] at passed
              exact Bool.noConfusion passed
          · split
            · exact ⟨not_later, fun here => mem_insertText.mpr (Or.inr (listed here))⟩
            · exact ⟨not_later, listed⟩
      | dropped m => exact ⟨not_later, listed⟩
  | dropped m =>
      cases other with
      | sought q label' =>
          simp only [Record.note]
          split
          · exact knows
          · split <;> exact knows
      | dropped m' =>
          obtain ⟨n, member, same⟩ := knows
          exact ⟨n, Reading.mem_insertFirst_of_mem m' member, same⟩

theorem Ordered.replay (ordered : r.Ordered) (events : List Event) :
    (r.replay events).Ordered := by
  induction events generalizing r with
  | nil => exact ordered
  | cons event events ih => exact ih (ordered.note event)

theorem Knows.replay (knows : r.Knows event) (events : List Event) :
    (r.replay events).Knows event := by
  induction events generalizing r with
  | nil => exact knows
  | cons other events ih => exact ih (knows.note other)

theorem knows_replay (r : Record) {events : List Event} (member : event ∈ events) :
    (r.replay events).Knows event := by
  induction events generalizing r with
  | nil => simp at member
  | cons other events ih =>
      rcases List.mem_cons.mp member with rfl | member
      · exact (r.knows_note event).replay events
      · exact ih (r.note other) member

/-- Events that are all known change nothing. -/
theorem replay_of_knows (ordered : r.Ordered) {events : List Event}
    (knows : ∀ event ∈ events, r.Knows event) : r.replay events = r := by
  induction events with
  | nil => rfl
  | cons event events ih =>
      have first := note_of_knows ordered (knows event List.mem_cons_self)
      have others := ih fun other member => knows other (List.mem_cons_of_mem _ member)
      rw [replay, List.foldl_cons, first]
      exact others

end Record

namespace State

theorem record_expect (s : State) (p : Position) (label : String) :
    (s.expect p label).record = s.record.note (.sought p label) := by
  by_cases later : s.furthest.cursor.precedes p.cursor = true
  · simp [expect, Record.note, record, later]
  · by_cases here : p.cursor = s.furthest.cursor
    · simp [expect, Record.note, record, here, Cursor.precedes_irrefl]
    · simp [expect, Record.note, record, later, here]

theorem record_abandon (s : State) (numbers : List Malformed) :
    ({ s with abandoned := s.abandoned ++ numbers } : State).record =
      s.record.replay (numbers.map .dropped) := by
  induction numbers using List.reverseRecOn with
  | nil => simp [record]
  | append_singleton numbers m ih =>
      rw [List.map_append, Record.replay_append, ← ih]
      simp only [record, ← List.append_assoc, Reading.dropRepeats_sortByPlace_append]
      rfl

end State

end Formwork
