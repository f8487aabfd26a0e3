import Mathlib.Logic.Function.Iterate
import Formwork.Proofs.Lexemes
import Formwork.Proofs.Recovery

/-!
# The longest gap

A gap is a row of parts: blanks, block comments and line comments. At most one part starts a text
(`Gap.Part.unique`), so all rows of parts from one place begin the same row, the longest one, and
`Position.skipGap` steps over that (`Position.skipGap_exact`). Rounds of blanks and at most one
comment, begun again until nothing moves, end at the same position after finitely many rounds.
-/

namespace Formwork

namespace Gap

/--
A blank, a comment from `/*` to the first `*/` behind it, or a comment from `//` up to the end of
its line, right before the rest of a text.
-/
inductive Part : List Char → List Char → Prop where
  | blank {c : Char} {rest : List Char} :
      c ∈ [' ', '\t', '\r', '\n', '\x0c'] → Part [c] rest
  | block {body rest : List Char} :
      ¬ ['*', '/'] <:+: body ++ ['*'] → Part ('/' :: '*' :: (body ++ ['*', '/'])) rest
  | line {body rest : List Char} :
      (∀ c ∈ body, c ≠ '\r' ∧ c ≠ '\n') → (∀ c ∈ rest.head?, c = '\r' ∨ c = '\n') →
      Part ('/' :: '/' :: body) rest

/-- Parts one after another, from a text to what is left of it. -/
inductive Parts : List (List Char) → List Char → List Char → Prop where
  | nil (text : List Char) : Parts [] text text
  | cons {part : List Char} {parts : List (List Char)} {text rest : List Char} :
      Part part text → Parts parts text rest → Parts (part :: parts) (part ++ text) rest

theorem isBlank_iff {c : Char} : isBlank c = true ↔ c ∈ [' ', '\t', '\r', '\n', '\x0c'] := by
  simp [isBlank, or_assoc]

theorem inLine_iff {c : Char} : inLine c = true ↔ c ≠ '\r' ∧ c ≠ '\n' := by
  simp [inLine]

theorem not_inLine_iff {c : Char} : inLine c = false ↔ c = '\r' ∨ c = '\n' := by
  rw [Bool.eq_false_iff, Ne, inLine_iff]
  tauto

/-! ## One part -/

namespace Part

variable {part part' rest rest' : List Char}

/-- A part is recognised where it stands. -/
theorem piece? (starts : Part part rest) :
    ∃ more, part.length = more + 1 ∧ Gap.piece? (part ++ rest) = some more := by
  cases starts with
  | blank is_blank => exact ⟨_, rfl, piece?_blank (isBlank_iff.mpr is_blank) rest⟩
  | @block body _ first =>
      refine ⟨_, rfl, ?_⟩
      have text_eq : '/' :: '*' :: (body ++ ['*', '/']) ++ rest =
          '/' :: '*' :: (body ++ '*' :: '/' :: rest) := by simp
      rw [text_eq, piece?_block first rest]
  | line inside stops =>
      exact ⟨_, rfl, piece?_line (fun c member => inLine_iff.mpr (inside c member))
        fun c next => not_inLine_iff.mpr (stops c next)⟩

/-- At most one part starts a text. -/
theorem unique (starts : Part part rest) (starts' : Part part' rest')
    (same : part ++ rest = part' ++ rest') : part = part' ∧ rest = rest' := by
  obtain ⟨more, length_eq, piece⟩ := starts.piece?
  obtain ⟨more', length_eq', piece'⟩ := starts'.piece?
  rw [same, piece'] at piece
  obtain rfl := Option.some.inj piece
  exact List.append_inj same (length_eq.trans length_eq'.symm)

end Part

/-! ## Rows of parts -/

theorem Skips.parts {text rest : List Char} (skips : Skips text rest) :
    ∃ parts, Parts parts text rest := by
  induction skips with
  | done text => exact ⟨[], .nil text⟩
  | blank is_blank _ ih =>
      obtain ⟨parts, others⟩ := ih
      exact ⟨_, .cons (.blank (isBlank_iff.mp is_blank)) others⟩
  | @block body text rest first _ ih =>
      obtain ⟨parts, others⟩ := ih
      refine ⟨('/' :: '*' :: (body ++ ['*', '/'])) :: parts, ?_⟩
      simpa using Parts.cons (.block first) others
  | @line body text rest inside stops _ ih =>
      obtain ⟨parts, others⟩ := ih
      exact ⟨('/' :: '/' :: body) :: parts,
        .cons (.line (fun c member => inLine_iff.mp (inside c member))
          fun c next => not_inLine_iff.mp (stops c next)) others⟩

theorem Skips.trans {text middle rest : List Char} (first : Skips text middle)
    (second : Skips middle rest) : Skips text rest := by
  induction first with
  | done => exact second
  | blank is_blank _ ih => exact .blank is_blank (ih second)
  | block closes _ ih => exact .block closes (ih second)
  | line inside stops _ ih => exact .line inside stops (ih second)

namespace Parts

variable {parts parts' : List (List Char)} {text rest left : List Char}

theorem text_eq (row : Parts parts text rest) : text = parts.flatten ++ rest := by
  induction row with
  | nil => rfl
  | cons _ _ ih => rw [List.flatten_cons, List.append_assoc, ← ih]

/-- A row that ends where no part starts goes on from the end of every other row. -/
theorem continues (row : Parts parts text left)
    (ends : ∀ part more, left = part ++ more → ¬ Part part more) (other : Parts parts' text rest) :
    ∃ more, parts = parts' ++ more ∧ Parts more rest left := by
  induction other generalizing parts with
  | nil => exact ⟨parts, rfl, row⟩
  | @cons part _ after _ starts _ ih =>
      generalize text_eq : part ++ after = whole at row
      cases row with
      | nil => exact absurd starts (ends part after text_eq.symm)
      | cons starts' others =>
          obtain ⟨rfl, rfl⟩ := starts.unique starts' text_eq
          obtain ⟨more, rfl, behind⟩ := ih others
          exact ⟨more, rfl, behind⟩

/-- The longest row is the only one to its end. -/
theorem eq_of_ends (row : Parts parts text left)
    (ends : ∀ part more, left = part ++ more → ¬ Part part more)
    (other : Parts parts' text left) : parts' = parts := by
  obtain ⟨more, rfl, behind⟩ := row.continues ends other
  generalize end_eq : left = place at behind
  cases behind with
  | nil => rw [List.append_nil]
  | cons starts _ => exact absurd starts (ends _ _ end_eq)

end Parts

end Gap

/-! ## Rounds -/

namespace Position

theorem LeadsTo.eq_of_rest {p q r : Position} (to_q : p.LeadsTo q) (to_r : p.LeadsTo r)
    (same : q.rest = r.rest) : q = r := by
  obtain ⟨between, rest_eq, cursor_eq⟩ := to_q
  obtain ⟨between', rest_eq', cursor_eq'⟩ := to_r
  rw [rest_eq, same] at rest_eq'
  obtain rfl := List.append_cancel_right rest_eq'
  obtain ⟨place, rest⟩ := q
  obtain ⟨place', rest'⟩ := r
  simp_all

theorem LeadsTo.eq_or_lt {p q : Position} (ahead : p.LeadsTo q) :
    p = q ∨ q.rest.length < p.rest.length ∧ p.cursor.offset < q.cursor.offset := by
  by_cases shorter : q.rest.length < p.rest.length
  · exact .inr ⟨shorter, ahead.offset_lt shorter⟩
  · refine .inl (LeadsTo.eq_of_rest (.refl p) ahead ?_)
    obtain ⟨between, rest_eq, -⟩ := ahead
    rw [rest_eq, List.length_append] at shorter
    have none : between = [] := List.eq_nil_of_length_eq_zero (by omega)
    rw [rest_eq, none, List.nil_append]

/-- A gap does not change where the longest gap ends. -/
theorem skipGap_of_skips {p q : Position} (ahead : p.LeadsTo q)
    (skips : Gap.Skips p.rest q.rest) : q.skipGap = p.skipGap := by
  have whole := skips.trans (skips_skipGap q)
  refine LeadsTo.eq_of_rest (ahead.trans (leadsTo_skipGap q)) (leadsTo_skipGap p) ?_
  exact (whole.rest_skipFrom (piece?_skipGap q) p.cursor).symm

theorem skipGap_of_piece?_eq_none {p : Position} (none : Gap.piece? p.rest = none) :
    p.skipGap = p :=
  LeadsTo.eq_of_rest (leadsTo_skipGap p) (.refl p) ((Gap.Skips.done p.rest).rest_skipFrom none _)

/-- The position `count` characters further on. -/
def skip (p : Position) (count : Nat) : Position :=
  ⟨p.cursor.advance (p.rest.take count), p.rest.drop count⟩

theorem leadsTo_skip (p : Position) (count : Nat) : p.LeadsTo (p.skip count) :=
  ⟨p.rest.take count, (List.take_append_drop count p.rest).symm, rfl⟩

/-- The position after the blanks that come next. -/
def skipBlanks (p : Position) : Position :=
  ⟨p.cursor.advance (p.rest.takeWhile Gap.isBlank), p.rest.dropWhile Gap.isBlank⟩

/-- A round: over the blanks that come next, then over one comment if one follows. -/
def gapRound (p : Position) : Position :=
  match Gap.piece? p.skipBlanks.rest with
  | some more => p.skipBlanks.skip (more + 1)
  | none => p.skipBlanks

theorem leadsTo_skipBlanks (p : Position) : p.LeadsTo p.skipBlanks :=
  ⟨_, List.takeWhile_append_dropWhile.symm, rfl⟩

theorem skips_skipBlanks (p : Position) : Gap.Skips p.rest p.skipBlanks.rest := by
  have blanks (run rest : List Char) (all : ∀ c ∈ run, Gap.isBlank c = true) :
      Gap.Skips (run ++ rest) rest := by
    induction run with
    | nil => exact .done rest
    | cons c run ih =>
        obtain ⟨blank, others⟩ := List.forall_mem_cons.mp all
        exact .blank blank (ih others)
  have skips := blanks (p.rest.takeWhile Gap.isBlank) (p.rest.dropWhile Gap.isBlank)
    fun c member => List.mem_takeWhile_imp member
  rwa [List.takeWhile_append_dropWhile] at skips

theorem skips_piece {p : Position} {more : Nat} (piece : Gap.piece? p.rest = some more) :
    Gap.Skips p.rest (p.skip (more + 1)).rest := by
  cases rest_eq : p.rest with
  | nil => simp [rest_eq, Gap.piece?] at piece
  | cons c rest =>
      rw [rest_eq] at piece
      obtain ⟨tail, after, rfl, rfl, continues⟩ := Gap.skips_of_piece? piece
      simpa [skip, rest_eq] using continues after (.done after)

theorem skipBlanks_leadsTo_gapRound (p : Position) : p.skipBlanks.LeadsTo p.gapRound := by
  unfold gapRound
  split
  · exact leadsTo_skip _ _
  · exact .refl _

theorem leadsTo_gapRound (p : Position) : p.LeadsTo p.gapRound :=
  p.leadsTo_skipBlanks.trans p.skipBlanks_leadsTo_gapRound

/-- A round steps over the beginning of the longest gap. -/
theorem skipGap_gapRound (p : Position) : p.gapRound.skipGap = p.skipGap := by
  refine skipGap_of_skips p.leadsTo_gapRound ?_
  unfold gapRound
  split
  · rename_i more piece
    exact p.skips_skipBlanks.trans (skips_piece piece)
  · exact p.skips_skipBlanks

/-- Where a round does not move, no gap starts. -/
theorem skipGap_of_gapRound_eq {p : Position} (still : p.gapRound = p) : p.skipGap = p := by
  have no_blank : p.skipBlanks = p := by
    rcases p.leadsTo_skipBlanks.eq_or_lt with same | ⟨shorter, -⟩
    · exact same.symm
    · have onward := p.skipBlanks_leadsTo_gapRound.length_le
      rw [still] at onward
      exact absurd shorter (Nat.not_lt.mpr onward)
  refine skipGap_of_piece?_eq_none ?_
  by_contra found
  obtain ⟨more, piece⟩ := Option.ne_none_iff_exists'.mp found
  simp only [gapRound, no_blank, piece] at still
  have lengths := congrArg (fun q => q.rest.length) still
  have nonempty : p.rest ≠ [] := by
    intro empty
    simp [empty, Gap.piece?] at piece
  have positive := List.length_pos_iff.mpr nonempty
  simp only [skip, List.length_drop] at lengths
  omega

/-- Rounds end, at the end of the longest gap: from some round on nothing moves, and not earlier. -/
theorem exists_rounds (p : Position) :
    ∃ rounds, gapRound^[rounds] p = p.skipGap ∧
      ∀ n, (gapRound^[n + 1] p).cursor = (gapRound^[n] p).cursor ↔ rounds ≤ n := by
  induction length : p.rest.length using Nat.strong_induction_on generalizing p with
  | _ count ih =>
      subst length
      rcases p.leadsTo_gapRound.eq_or_lt with still | ⟨shorter, later⟩
      · refine ⟨0, (skipGap_of_gapRound_eq still.symm).symm, fun n => ?_⟩
        simp [Function.iterate_fixed still.symm]
      · obtain ⟨rounds, reached, stays⟩ := ih _ shorter p.gapRound rfl
        refine ⟨rounds + 1, ?_, ?_⟩
        · rw [Function.iterate_succ_apply, reached, skipGap_gapRound]
        · rintro (_ | n)
          · have moved : p.gapRound.cursor ≠ p.cursor := fun same => by
              rw [same] at later
              exact Nat.lt_irrefl _ later
            simpa using moved
          · have behind := stays n
            simp only [← Function.iterate_succ_apply] at behind
            rw [behind]
            exact Nat.succ_le_succ_iff.symm

/-- No part of a gap starts where the longest gap ends. -/
theorem not_part_skipGap (p : Position) {part rest : List Char}
    (split : p.skipGap.rest = part ++ rest) : ¬ Gap.Part part rest := by
  intro starts
  obtain ⟨more, -, piece⟩ := starts.piece?
  rw [← split, piece?_skipGap] at piece
  exact absurd piece (by simp)

/--
At a cursor of a source, a gap scan ends at a cursor of the source. What it steps over is a row of
blanks, block comments and line comments, and no other such row ends there; at the end none of them
starts, so scanning again stays. Every row of them from the same place begins that row, so none
leads further. Rounds that are begun again as long as the cursor changes end after finitely many,
at the same place.
-/
theorem skipGap_exact (source : Source) (place : Cursor) (before after : List Char)
    (divides : place.Divides source before after) :
    ∃ found left parts,
      (Position.seek source place).skipGap = ⟨found, left⟩ ∧
      found.Divides source (before ++ parts.flatten) left ∧
      Gap.Parts parts after left ∧ (∀ parts', Gap.Parts parts' after left → parts' = parts) ∧
      (∀ part rest, left = part ++ rest → ¬ Gap.Part part rest) ∧
      (Position.seek source found).skipGap = ⟨found, left⟩ ∧
      (∀ parts' left', Gap.Parts parts' after left' →
        parts' <+: parts ∧ (place.advance parts'.flatten).offset ≤ found.offset) ∧
      ∃ rounds, gapRound^[rounds] (Position.seek source place) = ⟨found, left⟩ ∧
        ∀ n, (gapRound^[n + 1] (Position.seek source place)).cursor =
          (gapRound^[n] (Position.seek source place)).cursor ↔ rounds ≤ n := by
  have start_eq := divides.seek_eq
  rw [start_eq]
  let p : Position := ⟨place, after⟩
  obtain ⟨parts, row⟩ := (skips_skipGap p).parts
  have ends : ∀ part rest, p.skipGap.rest = part ++ rest → ¬ Gap.Part part rest :=
    fun _ _ split => p.not_part_skipGap split
  obtain ⟨between, rest_eq, cursor_eq⟩ := leadsTo_skipGap p
  have between_eq : between = parts.flatten :=
    List.append_cancel_right (rest_eq.symm.trans row.text_eq)
  have found : p.skipGap.cursor.Divides source (before ++ parts.flatten) p.skipGap.rest := by
    rw [cursor_eq, between_eq]
    refine Cursor.Divides.advance ?_
    rw [← row.text_eq]
    exact divides
  refine ⟨p.skipGap.cursor, p.skipGap.rest, parts, rfl, found, row,
    fun parts' other => row.eq_of_ends ends other, ends, ?_, ?_, p.exists_rounds⟩
  · rw [found.seek_eq]
    exact skipGap_of_skips (leadsTo_skipGap p) (skips_skipGap p)
  · intro parts' left' other
    obtain ⟨more, rfl, -⟩ := row.continues ends other
    refine ⟨List.prefix_append _ _, ?_⟩
    rw [cursor_eq, between_eq, List.flatten_append, Cursor.advance_append]
    exact Cursor.offset_le_advance _ _

/-- Comments that overlap their opening and touch each other, and one that is never closed. -/
theorem skipGap_exact_overlapping :
    let source : Source := ⟨"t", "é /*/ x */// y\r\n\t/* open"⟩
    let after := " /*/ x */// y\r\n\t/* open".toList
    let left := "/* open".toList
    (Position.seek source ⟨2, 1, 2⟩).skipGap = ⟨⟨18, 2, 2⟩, left⟩ ∧
      (∃ parts, Gap.Parts parts after left ∧
        (∀ parts', Gap.Parts parts' after left → parts' = parts) ∧
        ∀ parts' left', Gap.Parts parts' after left' →
          parts' <+: parts ∧ (Cursor.advance ⟨2, 1, 2⟩ parts'.flatten).offset ≤ 18) ∧
      (∀ part rest, left = part ++ rest → ¬ Gap.Part part rest) ∧
      (Position.seek source ⟨18, 2, 2⟩).skipGap = ⟨⟨18, 2, 2⟩, left⟩ := by
  intro source after left
  have divides : Cursor.Divides ⟨2, 1, 2⟩ source "é".toList after :=
    ⟨by decide, by decide, by decide, by decide⟩
  have computed : (Position.seek source ⟨2, 1, 2⟩).skipGap = ⟨⟨18, 2, 2⟩, left⟩ := by decide
  obtain ⟨found, left', parts, result, -, row, unique, ends, again, furthest, -⟩ :=
    skipGap_exact source ⟨2, 1, 2⟩ _ _ divides
  rw [computed] at result
  obtain ⟨rfl, rfl⟩ := Position.mk.inj result
  exact ⟨computed, ⟨parts, row, unique, furthest⟩, ends, again⟩

end Position

end Formwork
