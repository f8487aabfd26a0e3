import Mathlib.Data.Prod.Lex
import Formwork.Proofs.Position

/-!
# Lines and columns

Diagnostics and trees name places by line and column only. `Cursor.lineCol` is that name, in reading
order: lines first, columns within a line. Stepping over text moves it strictly on, so for positions
of one text the order of offsets and the order of lines and columns agree.
-/

namespace Formwork

namespace Cursor

/-- The line and column of a place, in reading order. -/
def lineCol (p : Cursor) : ℕ ×ₗ ℕ := toLex (p.line, p.col)

theorem lineCol_lt_iff {p q : Cursor} :
    p.lineCol < q.lineCol ↔ p.line < q.line ∨ p.line = q.line ∧ p.col < q.col :=
  Prod.Lex.toLex_lt_toLex

theorem lineCol_lt_step (p : Cursor) (c : Char) : p.lineCol < (p.step c).lineCol := by
  rw [lineCol_lt_iff]
  unfold step
  split
  · exact Or.inl (Nat.lt_succ_self _)
  · exact Or.inr ⟨rfl, Nat.lt_succ_self _⟩

theorem lineCol_le_advance (p : Cursor) (text : List Char) :
    p.lineCol ≤ (p.advance text).lineCol := by
  induction text generalizing p with
  | nil => exact le_rfl
  | cons c text ih => exact (lineCol_lt_step p c).le.trans (ih (p.step c))

theorem lineCol_lt_advance (p : Cursor) {text : List Char} (nonempty : text ≠ []) :
    p.lineCol < (p.advance text).lineCol := by
  cases text with
  | nil => exact absurd rfl nonempty
  | cons c text => exact (lineCol_lt_step p c).trans_le (lineCol_le_advance (p.step c) text)

end Cursor

namespace Position.LeadsTo

variable {start p q : Position}

theorem lineCol_le (ahead : p.LeadsTo q) : p.cursor.lineCol ≤ q.cursor.lineCol := by
  obtain ⟨between, -, cursor_eq⟩ := ahead
  rw [cursor_eq]
  exact Cursor.lineCol_le_advance _ between

theorem lineCol_lt (ahead : p.LeadsTo q) (shorter : q.rest.length < p.rest.length) :
    p.cursor.lineCol < q.cursor.lineCol := by
  obtain ⟨between, rest_eq, cursor_eq⟩ := ahead
  rw [cursor_eq]
  refine Cursor.lineCol_lt_advance _ ?_
  rintro rfl
  rw [rest_eq, List.nil_append] at shorter
  exact lt_irrefl _ shorter

/-- A position stands ahead of itself or strictly further on. -/
theorem eq_or_length_lt (ahead : p.LeadsTo q) : p = q ∨ q.rest.length < p.rest.length := by
  obtain ⟨between, rest_eq, cursor_eq⟩ := ahead
  cases between with
  | nil =>
      obtain ⟨place, rest⟩ := q
      simp only [List.nil_append, Cursor.advance_nil] at rest_eq cursor_eq
      exact Or.inl (by rw [cursor_eq, ← rest_eq])
  | cons c between =>
      refine Or.inr ?_
      rw [rest_eq, List.length_append, List.length_cons]
      omega

/-- Of two positions of one text, one stands ahead of the other. -/
theorem total (to_p : start.LeadsTo p) (to_q : start.LeadsTo q) : p.LeadsTo q ∨ q.LeadsTo p := by
  obtain ⟨near, near_eq, near_cursor⟩ := to_p
  obtain ⟨far, far_eq, far_cursor⟩ := to_q
  have comparable := List.prefix_or_prefix_of_prefix
    (show near <+: start.rest from ⟨_, near_eq.symm⟩)
    (show far <+: start.rest from ⟨_, far_eq.symm⟩)
  rcases comparable with ⟨more, rfl⟩ | ⟨more, rfl⟩
  · refine Or.inl ⟨more, ?_, by rw [far_cursor, near_cursor, Cursor.advance_append]⟩
    rw [near_eq, List.append_assoc] at far_eq
    exact List.append_cancel_left far_eq
  · refine Or.inr ⟨more, ?_, by rw [near_cursor, far_cursor, Cursor.advance_append]⟩
    rw [far_eq, List.append_assoc] at near_eq
    exact List.append_cancel_left near_eq

/-- A position of one text that does not come first in reading order stands ahead. -/
theorem of_not_precedes (to_p : start.LeadsTo p) (to_q : start.LeadsTo q)
    (late : q.cursor.precedes p.cursor = false) : p.LeadsTo q := by
  rcases total to_p to_q with ahead | behind
  · exact ahead
  · rcases behind.eq_or_length_lt with rfl | shorter
    · exact .refl q
    · -- Further on means a greater offset, so `q` would come first.
      obtain ⟨between, rest_eq, cursor_eq⟩ := behind
      have nonempty : between ≠ [] := by
        rintro rfl
        rw [rest_eq, List.nil_append] at shorter
        exact lt_irrefl _ shorter
      have early := Cursor.offset_lt_advance q.cursor nonempty
      rw [← cursor_eq] at early
      have first := (Cursor.precedes_iff q.cursor p.cursor).mpr (Or.inl early)
      rw [late] at first
      exact absurd first (by simp)

end Position.LeadsTo

end Formwork
