import Mathlib.Data.List.Infix
import Mathlib.Data.List.TakeWhile
import Formwork.Token.Gap

/-!
# Positions ahead of one another

`Position.LeadsTo` says that a position is reached from another one by stepping over characters, so
its cursor and what follows it agree with the text in between. Two positions of one text that stand
at the same offset are the same position. `Gap.Skips` says what a gap is without running the scan,
and `Position.skipGap` steps over a gap.
-/

namespace Formwork

namespace Cursor

theorem offset_step (place : Cursor) (c : Char) :
    (place.step c).offset = place.offset + c.utf8Size := by
  unfold step
  split
  · rename_i newline
    subst newline
    rfl
  · rfl

theorem offset_le_advance (place : Cursor) (text : List Char) :
    place.offset ≤ (place.advance text).offset := by
  induction text generalizing place with
  | nil => exact Nat.le_refl _
  | cons c text ih =>
      have later := ih (place.step c)
      rw [offset_step] at later
      simp only [advance_cons]
      omega

theorem offset_lt_advance (place : Cursor) {text : List Char} (nonempty : text ≠ []) :
    place.offset < (place.advance text).offset := by
  cases text with
  | nil => exact absurd rfl nonempty
  | cons c text =>
      have later := offset_le_advance (place.step c) text
      have positive := c.utf8Size_pos
      rw [offset_step] at later
      simp only [advance_cons]
      omega

/-- Of two texts that start alike, the same bytes are covered only by the same text. -/
theorem eq_of_prefix (place : Cursor) {near far : List Char} (ahead : near <+: far)
    (offsets : (place.advance near).offset = (place.advance far).offset) : near = far := by
  obtain ⟨more, rfl⟩ := ahead
  by_cases empty : more = []
  · simp [empty]
  · have later := offset_lt_advance (place.advance near) empty
    rw [advance_append] at offsets
    omega

theorem precedes_iff (p q : Cursor) :
    p.precedes q = true ↔
      p.offset < q.offset ∨
        p.offset = q.offset ∧ (p.line < q.line ∨ p.line = q.line ∧ p.col < q.col) := by
  simp [precedes]

theorem precedes_irrefl (p : Cursor) : p.precedes p = false := by
  simp [precedes]

theorem precedes_trans {p q r : Cursor} (first : p.precedes q = true)
    (second : q.precedes r = true) : p.precedes r = true := by
  rw [precedes_iff] at *
  omega

theorem eq_or_precedes_of_not_precedes {p q : Cursor} (late : p.precedes q = false) :
    p = q ∨ q.precedes p = true := by
  have not_early : ¬ p.precedes q = true := by simp [late]
  rw [precedes_iff] at not_early ⊢
  obtain ⟨offset, line, col⟩ := p
  obtain ⟨offset', line', col'⟩ := q
  simp only [Cursor.mk.injEq] at not_early ⊢
  omega

end Cursor

namespace Position

/-- One position is reached from another by stepping over characters. -/
def LeadsTo (p q : Position) : Prop :=
  ∃ between, p.rest = between ++ q.rest ∧ q.cursor = p.cursor.advance between

namespace LeadsTo

theorem refl (p : Position) : p.LeadsTo p := ⟨[], rfl, rfl⟩

theorem trans {p q r : Position} (first : p.LeadsTo q) (second : q.LeadsTo r) : p.LeadsTo r := by
  obtain ⟨near, rest_eq, cursor_eq⟩ := first
  obtain ⟨far, rest_eq', cursor_eq'⟩ := second
  refine ⟨near ++ far, ?_, ?_⟩
  · rw [rest_eq, rest_eq', List.append_assoc]
  · rw [cursor_eq', cursor_eq, Cursor.advance_append]

theorem advance (place : Cursor) (between rest : List Char) :
    LeadsTo ⟨place, between ++ rest⟩ ⟨place.advance between, rest⟩ :=
  ⟨between, rfl, rfl⟩

theorem length_le {p q : Position} (ahead : p.LeadsTo q) : q.rest.length ≤ p.rest.length := by
  obtain ⟨between, rest_eq, -⟩ := ahead
  rw [rest_eq, List.length_append]
  omega

/-- A position that stands later has less text after it. -/
theorem length_lt {p q : Position} (ahead : p.LeadsTo q)
    (later : p.cursor.precedes q.cursor = true) : q.rest.length < p.rest.length := by
  obtain ⟨between, rest_eq, cursor_eq⟩ := ahead
  have nonempty : between ≠ [] := by
    rintro rfl
    rw [cursor_eq, Cursor.advance_nil, Cursor.precedes_irrefl] at later
    exact Bool.noConfusion later
  have positive := List.length_pos_iff.mpr nonempty
  rw [rest_eq, List.length_append]
  omega

/-- Two positions of one text at the same offset are the same position. -/
theorem eq_of_offset {start p q : Position} (to_p : start.LeadsTo p) (to_q : start.LeadsTo q)
    (offsets : p.cursor.offset = q.cursor.offset) : p = q := by
  obtain ⟨near, near_eq, near_cursor⟩ := to_p
  obtain ⟨far, far_eq, far_cursor⟩ := to_q
  rw [near_cursor, far_cursor] at offsets
  have same : near = far := by
    have comparable := List.prefix_or_prefix_of_prefix
      (show near <+: start.rest from ⟨_, near_eq.symm⟩)
      (show far <+: start.rest from ⟨_, far_eq.symm⟩)
    rcases comparable with ahead | behind
    · exact Cursor.eq_of_prefix start.cursor ahead offsets
    · exact (Cursor.eq_of_prefix start.cursor behind offsets.symm).symm
  subst same
  have rest_eq : p.rest = q.rest := List.append_cancel_left (near_eq.symm.trans far_eq)
  obtain ⟨place, rest⟩ := p
  obtain ⟨place', rest'⟩ := q
  simp_all

end LeadsTo

end Position

namespace Gap

/--
A gap stands between a text and what is left of it. A block comment ends at the first `*/` after
its start, a line comment before the first end of line or at the end of the text.
-/
inductive Skips : List Char → List Char → Prop where
  | done (text : List Char) : Skips text text
  | blank {c : Char} {text rest : List Char} :
      isBlank c = true → Skips text rest → Skips (c :: text) rest
  | block {body text rest : List Char} :
      ¬ ['*', '/'] <:+: body ++ ['*'] → Skips text rest →
      Skips ('/' :: '*' :: (body ++ '*' :: '/' :: text)) rest
  | line {body text rest : List Char} :
      (∀ c ∈ body, inLine c = true) → (∀ c ∈ text.head?, inLine c = false) → Skips text rest →
      Skips ('/' :: '/' :: (body ++ text)) rest

theorem closing?_spec {text : List Char} {count : Nat} (closes : closing? text = some count) :
    ∃ body after,
      text = body ++ '*' :: '/' :: after ∧ count = body.length + 2 ∧
        ¬ ['*', '/'] <:+: body ++ ['*'] := by
  fun_induction closing? text generalizing count with
  | case1 => simp at closes
  | case2 after =>
      refine ⟨[], after, rfl, by simpa using closes.symm, ?_⟩
      intro inside
      have lengths := inside.length_le
      simp at lengths
  | case3 c rest overlap ih =>
      obtain ⟨fewer, closes_rest, rfl⟩ := Option.map_eq_some_iff.mp closes
      obtain ⟨body, after, rfl, rfl, first⟩ := ih closes_rest
      refine ⟨c :: body, after, rfl, rfl, ?_⟩
      rw [List.cons_append, List.infix_cons_iff]
      rintro (here | inside)
      · -- The closing would start at `c`, which the previous case has taken.
        obtain ⟨more, text_eq⟩ := here
        cases body with
        | nil => simp at text_eq
        | cons d body =>
            simp only [List.cons_append, List.cons.injEq] at text_eq
            obtain ⟨rfl, rfl, -⟩ := text_eq
            exact overlap _ rfl rfl
      · exact first inside

theorem inLine_head?_dropWhile (text : List Char) :
    ∀ c ∈ (text.dropWhile inLine).head?, inLine c = false := by
  intro c member
  have fails := List.head?_dropWhile_not inLine text
  rw [Option.mem_def.mp member] at fails
  simpa using fails

/-- A piece recognised at the head of a text continues any gap behind it. -/
theorem skips_of_piece? {c : Char} {rest : List Char} {more : Nat}
    (piece : piece? (c :: rest) = some more) :
    ∃ tail after,
      rest = tail ++ after ∧ tail.length = more ∧
        ∀ left, Skips after left → Skips (c :: rest) left := by
  unfold piece? at piece
  split at piece
  · exact absurd ‹_› (by simp)
  · rename_i inner text_eq
    obtain ⟨rfl, rfl⟩ := List.cons.inj text_eq
    obtain ⟨count, closes, rfl⟩ := Option.map_eq_some_iff.mp piece
    obtain ⟨body, after, rfl, rfl, first⟩ := closing?_spec closes
    refine ⟨'*' :: (body ++ ['*', '/']), after, by simp, by simp, ?_⟩
    intro left behind
    exact .block first behind
  · rename_i inner text_eq
    obtain ⟨rfl, rfl⟩ := List.cons.inj text_eq
    obtain rfl := Option.some.inj piece
    refine ⟨'/' :: inner.takeWhile inLine, inner.dropWhile inLine, by simp, by simp, ?_⟩
    intro left behind
    have inside : ∀ d ∈ inner.takeWhile inLine, inLine d = true := by
      intro d member
      exact List.mem_takeWhile_imp member
    have comment := Skips.line inside (inLine_head?_dropWhile inner) behind
    rwa [List.takeWhile_append_dropWhile] at comment
  · rename_i d tail _ _ text_eq
    obtain ⟨rfl, rfl⟩ := List.cons.inj text_eq
    split at piece
    · rename_i is_blank
      obtain rfl := Option.some.inj piece
      exact ⟨[], rest, rfl, rfl, fun left behind => .blank is_blank behind⟩
    · exact absurd piece (by simp)

theorem skipFrom_append (tail : List Char) (place : Cursor) (after : List Char) :
    skipFrom tail.length place (tail ++ after) = skipFrom 0 (place.advance tail) after := by
  induction tail generalizing place with
  | nil => rfl
  | cons c tail ih =>
      simp only [List.length_cons, List.cons_append, Cursor.advance_cons, skipFrom]
      exact ih (place.step c)

theorem skipFrom_spec (place : Cursor) (text : List Char) :
    Skips text (skipFrom 0 place text).rest ∧
      Position.LeadsTo ⟨place, text⟩ (skipFrom 0 place text) := by
  match text with
  | [] => exact ⟨.done _, .refl _⟩
  | c :: rest =>
      unfold skipFrom
      split
      · rename_i more piece
        obtain ⟨tail, after, rfl, rfl, continues⟩ := skips_of_piece? piece
        rw [skipFrom_append]
        have behind := skipFrom_spec ((place.step c).advance tail) after
        refine ⟨continues _ behind.1, Position.LeadsTo.trans ?_ behind.2⟩
        exact Position.LeadsTo.advance place (c :: tail) after
      · exact ⟨.done _, .refl _⟩
termination_by text.length
decreasing_by
  have rest_eq : rest = tail ++ after := by assumption
  rw [rest_eq, List.length_cons, List.length_append]
  omega

end Gap

namespace Position

/-- What `skipGap` steps over is a gap. -/
theorem skips_skipGap (p : Position) : Gap.Skips p.rest p.skipGap.rest :=
  (Gap.skipFrom_spec p.cursor p.rest).1

theorem leadsTo_skipGap (p : Position) : p.LeadsTo p.skipGap :=
  (Gap.skipFrom_spec p.cursor p.rest).2

end Position

end Formwork
