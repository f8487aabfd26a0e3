import Mathlib.Data.List.DropRight
import Formwork.Proofs.Advance

/-!
# Lines

Lines are counted twice: a cursor counts them character by character, and a source finds them by its
newlines. `Cursor.Divides` says what a cursor that stands between two parts of a source has counted.
The line it names is then the line it stands in (`Source.shows_line`), and the stretch of bytes
that a line takes up lies inside the source, between whole characters (`Source.lineRange?_spec`).
-/

namespace Formwork

/-- The characters of a text after its last newline. -/
def lineBefore (before : List Char) : List Char := before.rtakeWhile (· != '\n')

/-- The characters of a text before its first newline. -/
def lineAfter (after : List Char) : List Char := after.takeWhile (· != '\n')

theorem lineBefore_concat_newline (before : List Char) : lineBefore (before ++ ['\n']) = [] :=
  List.rtakeWhile_concat_neg _ _ _ (by decide)

theorem lineBefore_concat (before : List Char) {c : Char} (other : c ≠ '\n') :
    lineBefore (before ++ [c]) = lineBefore before ++ [c] :=
  List.rtakeWhile_concat_pos _ _ _ (by simpa using other)

theorem lineAfter_cons {c : Char} (other : c ≠ '\n') (after : List Char) :
    lineAfter (c :: after) = c :: lineAfter after :=
  List.takeWhile_cons_of_pos (by simpa using other)

/-! ## What a cursor counts -/

namespace Cursor

/--
A cursor stands between two parts of a source, and has counted the bytes, the newlines and the
characters of the last line before it.
-/
structure Divides (place : Cursor) (source : Source) (before after : List Char) : Prop where
  text : source.text.toList = before ++ after
  offset : place.offset = String.utf8Len before
  line : place.line = before.count '\n' + 1
  col : place.col = (lineBefore before).length + 1

theorem advance_concat (p : Cursor) (text : List Char) (c : Char) :
    p.advance (text ++ [c]) = (p.advance text).step c := by
  rw [advance_append]
  rfl

theorem line_advance_start (text : List Char) :
    (start.advance text).line = text.count '\n' + 1 := by
  induction text using List.reverseRecOn with
  | nil => rfl
  | append_singleton text c ih =>
      rw [advance_concat, step, List.count_append, List.count_singleton]
      split
      · simp_all
      · simp_all

theorem col_advance_start (text : List Char) :
    (start.advance text).col = (lineBefore text).length + 1 := by
  induction text using List.reverseRecOn with
  | nil => rfl
  | append_singleton text c ih =>
      rw [advance_concat, step]
      split
      · rename_i newline
        rw [newline, lineBefore_concat_newline]
        rfl
      · rename_i other
        rw [lineBefore_concat text other, List.length_append, ih]
        rfl

theorem divides_advance {source : Source} {before after : List Char}
    (text_eq : source.text.toList = before ++ after) :
    (start.advance before).Divides source before after where
  text := text_eq
  offset := by rw [Position.offset_advance]; simp [start]
  line := line_advance_start before
  col := col_advance_start before

namespace Divides

variable {place : Cursor} {source : Source} {before after : List Char}

theorem eq_advance (divides : place.Divides source before after) :
    place = start.advance before := by
  have counted := divides_advance divides.text
  have offset := divides.offset.trans counted.offset.symm
  have line := divides.line.trans counted.line.symm
  have col := divides.col.trans counted.col.symm
  obtain ⟨_, _, _⟩ := place
  simp only at offset line col
  subst offset line col
  rfl

theorem advance {text : List Char} (divides : place.Divides source before (text ++ after)) :
    (place.advance text).Divides source (before ++ text) after := by
  rw [divides.eq_advance, ← advance_append]
  exact divides_advance (by rw [divides.text, List.append_assoc])

theorem offset_le (divides : place.Divides source before after) :
    place.offset ≤ source.text.utf8ByteSize := by
  have size := String.utf8Len_toList source.text
  rw [divides.text, String.utf8Len_append] at size
  have offset := divides.offset
  omega

/-- The numbers of a cursor are no larger than the text is long. -/
theorem line_add_col_le (divides : place.Divides source before after) :
    place.line + place.col ≤ source.text.length + 2 := by
  have apart : before.count '\n' + (lineBefore before).length ≤ before.length := by
    have kept : (lineBefore before).count '\n' = 0 :=
      List.count_eq_zero.mpr fun member => by simpa using List.mem_rtakeWhile_imp member
    have parts : before.rdropWhile (· != '\n') ++ before.rtakeWhile (· != '\n') = before :=
      List.rdropWhile_append_rtakeWhile
    have counts := congrArg (List.count '\n') parts
    have lengths := congrArg List.length parts
    rw [List.count_append] at counts
    rw [List.length_append] at lengths
    have few := List.count_le_length (a := '\n') (l := before.rdropWhile (· != '\n'))
    unfold lineBefore at kept ⊢
    omega
  have lengths := congrArg List.length divides.text
  rw [String.length_toList, List.length_append] at lengths
  have line := divides.line
  have col := divides.col
  omega

end Divides

end Cursor

/-! ## From a cursor to its position -/

theorem Source.dropBytes_utf8Len (before after : List Char) :
    Source.dropBytes (String.utf8Len before) (before ++ after) = some after := by
  induction before with
  | nil => simp [Source.dropBytes]
  | cons c before ih =>
      have positive := c.utf8Size_pos
      rw [String.utf8Len_cons, List.cons_append]
      obtain ⟨n, bytes⟩ : ∃ n, String.utf8Len before + c.utf8Size = n + 1 :=
        Nat.exists_eq_add_one_of_ne_zero (by omega)
      rw [bytes, Source.dropBytes, if_pos (by omega)]
      rwa [show n + 1 - c.utf8Size = String.utf8Len before by omega]

namespace Cursor.Divides

variable {place : Cursor} {source : Source} {before after : List Char}

/-- A cursor finds the text that follows it. -/
theorem seek_eq (divides : place.Divides source before after) :
    Position.seek source place = ⟨place, after⟩ := by
  unfold Position.seek
  rw [divides.offset, divides.text, Source.dropBytes_utf8Len]
  rfl

end Cursor.Divides

theorem Position.LeadsTo.divides {source : Source} {p : Position}
    (ahead : (Position.ofText source.text).LeadsTo p) :
    ∃ before, p.cursor.Divides source before p.rest := by
  obtain ⟨before, text_eq, cursor_eq⟩ := ahead
  refine ⟨before, ?_⟩
  rw [cursor_eq]
  exact Cursor.divides_advance text_eq

/-! ## Lines by their number -/

namespace Source

/-- A text has at least one line, and a character joins the first line or ends a line before it. -/
theorem splitLines_cons (c : Char) (text : List Char) :
    ∃ line lines, splitLines text = line :: lines ∧
      splitLines (c :: text) = if c = '\n' then [] :: line :: lines else (c :: line) :: lines := by
  have some_line : splitLines text ≠ [] := by
    cases text with
    | nil => simp [splitLines]
    | cons d text =>
        rw [splitLines]
        split
        · simp
        · split <;> simp
  obtain ⟨line, lines, split_eq⟩ := List.exists_cons_of_ne_nil some_line
  exact ⟨line, lines, split_eq, by simp only [splitLines, split_eq]⟩

theorem length_splitLines (text : List Char) :
    (splitLines text).length = text.count '\n' + 1 := by
  induction text with
  | nil => rfl
  | cons c text ih =>
      obtain ⟨line, lines, split_eq, cons_eq⟩ := splitLines_cons c text
      rw [split_eq] at ih
      rw [cons_eq, List.count_cons]
      split <;> simp_all

/-- A newline divides the lines before it from those after it. -/
theorem splitLines_append_newline (first second : List Char) :
    splitLines (first ++ '\n' :: second) = splitLines first ++ splitLines second := by
  induction first with
  | nil =>
      obtain ⟨line, lines, split_eq, cons_eq⟩ := splitLines_cons '\n' second
      simp [cons_eq, split_eq, splitLines]
  | cons c first ih =>
      obtain ⟨line, lines, split_eq, cons_eq⟩ := splitLines_cons c first
      obtain ⟨line', lines', split_eq', cons_eq'⟩ := splitLines_cons c (first ++ '\n' :: second)
      rw [ih, split_eq, List.cons_append] at split_eq'
      obtain ⟨rfl, rfl⟩ := List.cons.inj split_eq'
      rw [List.cons_append, cons_eq', cons_eq]
      split <;> rfl

theorem head?_splitLines (text : List Char) : (splitLines text).head? = some (lineAfter text) := by
  induction text with
  | nil => rfl
  | cons c text ih =>
      obtain ⟨line, lines, split_eq, cons_eq⟩ := splitLines_cons c text
      rw [split_eq] at ih
      obtain rfl := Option.some.inj ih
      rw [cons_eq]
      split
      · rename_i newline
        simp [newline, lineAfter]
      · rename_i other
        simp [lineAfter_cons other]

/-- As many newlines before a place as lines before the one in which it stands. -/
theorem getElem?_splitLines (before after : List Char) :
    (splitLines (before ++ after))[before.count '\n']? =
      some (lineBefore before ++ lineAfter after) := by
  induction before using List.reverseRecOn generalizing after with
  | nil =>
      have first := head?_splitLines after
      rwa [List.head?_eq_getElem?] at first
  | append_singleton before c ih =>
      rw [List.append_assoc, List.singleton_append, List.count_append, List.count_singleton]
      by_cases newline : c = '\n'
      · subst newline
        rw [splitLines_append_newline, lineBefore_concat_newline,
          List.getElem?_append_right (by simp [length_splitLines]), length_splitLines]
        simp [← List.head?_eq_getElem?, head?_splitLines]
      · have same := ih (c :: after)
        rw [lineAfter_cons newline] at same
        simp [newline, lineBefore_concat before newline, same]

/-- Line `n` is shown as the given line, without the carriage returns that end it. -/
def Shows (source : Source) (n : Nat) (line : List Char) : Prop :=
  ∃ shown returns, source.line? n = some (String.ofList shown) ∧ line = shown ++ returns ∧
    (∀ c ∈ returns, c = '\r') ∧ shown.getLast? ≠ some '\r'

/-- The line that a source finds by its number is the line after as many newlines. -/
theorem shows_line (source : Source) {before after : List Char}
    (text_eq : source.text.toList = before ++ after) :
    source.Shows (before.count '\n' + 1) (lineBefore before ++ lineAfter after) := by
  let line := lineBefore before ++ lineAfter after
  refine ⟨line.rdropWhile (· == '\r'), line.rtakeWhile (· == '\r'), ?_,
    List.rdropWhile_append_rtakeWhile.symm, fun c member => ?_, fun ends => ?_⟩
  · have found := getElem?_splitLines before after
    simp only [line?, text_eq, Nat.add_sub_cancel, found]
    rfl
  · simpa using List.mem_rtakeWhile_imp member
  · have nonempty : line.rdropWhile (· == '\r') ≠ [] := by
      intro empty
      simp [empty] at ends
    have last := List.rdropWhile_last_not _ _ nonempty
    rw [List.getLast?_eq_some_getLast nonempty] at ends
    simp [Option.some.inj ends] at last

/-! ## Lines by their bytes -/

/-- Where the newlines of a text stand, in bytes, if the text starts at an offset. -/
def newlines (offset : Nat) : List Char → List Nat
  | [] => []
  | c :: rest =>
    if c = '\n' then offset :: newlines (offset + 1) rest else newlines (offset + c.utf8Size) rest

/-- Where the lines of a source start, in bytes. -/
def lineStarts (source : Source) : List Nat :=
  0 :: (newlines 0 source.text.toList).map (· + 1)

/-- Where line `n` starts and where it ends, in bytes, its newline left out. -/
def lineRange? (source : Source) (n : Nat) : Option (Nat × Nat) :=
  if n = 0 then none
  else
    source.lineStarts[n - 1]?.map fun start =>
      (start, (source.lineStarts[n]?.map (· - 1)).getD source.text.utf8ByteSize)

theorem newlines_append (offset : Nat) (first second : List Char) :
    newlines offset (first ++ second) =
      newlines offset first ++ newlines (offset + String.utf8Len first) second := by
  induction first generalizing offset with
  | nil => simp [newlines]
  | cons c first ih =>
      have size : c = '\n' → c.utf8Size = 1 := by rintro rfl; rfl
      simp only [List.cons_append, newlines, ih, String.utf8Len_cons]
      split
      · rename_i newline
        rw [List.cons_append, size newline, Nat.add_assoc, Nat.add_comm 1]
      · rw [Nat.add_assoc, Nat.add_comm c.utf8Size]

theorem length_newlines (offset : Nat) (text : List Char) :
    (newlines offset text).length = text.count '\n' := by
  induction text generalizing offset with
  | nil => rfl
  | cons c text ih =>
      rw [newlines, List.count_cons]
      split <;> simp_all

theorem newlines_eq_nil {text : List Char} (one_line : '\n' ∉ text) (offset : Nat) :
    newlines offset text = [] :=
  List.length_eq_zero_iff.mp (by rw [length_newlines, List.count_eq_zero.mpr one_line])

/-- Each newline has the bytes and the newlines before it. -/
theorem exists_of_getElem?_newlines {offset i place : Nat} {text : List Char}
    (found : (newlines offset text)[i]? = some place) :
    ∃ before after, text = before ++ '\n' :: after ∧ place = offset + String.utf8Len before ∧
      before.count '\n' = i := by
  induction text generalizing offset i with
  | nil => simp [newlines] at found
  | cons c text ih =>
      rw [newlines] at found
      split at found
      · rename_i newline
        subst newline
        cases i with
        | zero => exact ⟨[], text, rfl, by simpa using found.symm, rfl⟩
        | succ i =>
            obtain ⟨before, after, rfl, rfl, rfl⟩ := ih found
            have size : ('\n').utf8Size = 1 := rfl
            refine ⟨'\n' :: before, after, rfl, ?_, by simp⟩
            rw [String.utf8Len_cons, size]
            omega
      · rename_i other
        obtain ⟨before, after, rfl, rfl, rfl⟩ := ih found
        refine ⟨c :: before, after, rfl, ?_, by simp [other]⟩
        rw [String.utf8Len_cons]
        omega

/-- A line starts at the start of the text or behind a newline. -/
theorem exists_of_getElem?_lineStarts {source : Source} {i start : Nat}
    (found : source.lineStarts[i]? = some start) :
    ∃ before after, source.text.toList = before ++ after ∧ start = String.utf8Len before ∧
      before.count '\n' = i ∧ lineBefore before = [] := by
  unfold lineStarts at found
  cases i with
  | zero => exact ⟨[], _, rfl, by simpa using found.symm, rfl, rfl⟩
  | succ i =>
      rw [List.getElem?_cons_succ, List.getElem?_map] at found
      obtain ⟨place, newline, rfl⟩ := Option.map_eq_some_iff.mp found
      obtain ⟨before, after, text_eq, rfl, rfl⟩ := exists_of_getElem?_newlines newline
      refine ⟨before ++ ['\n'], after, by simp [text_eq], ?_, by simp,
        lineBefore_concat_newline before⟩
      have size : ('\n').utf8Size = 1 := rfl
      simp [String.utf8Len_append, size]

/-- What follows a line is nothing, or a newline where the next line starts. -/
theorem getElem?_lineStarts {source : Source} {before line after : List Char}
    (text_eq : source.text.toList = before ++ (line ++ after)) (one_line : '\n' ∉ line)
    (ends : ∀ c ∈ after.head?, c = '\n') :
    (source.lineStarts[before.count '\n' + 1]?.map (· - 1)).getD source.text.utf8ByteSize =
      String.utf8Len (before ++ line) := by
  have size := String.utf8Len_toList source.text
  have index := length_newlines 0 before
  rw [lineStarts, List.getElem?_cons_succ, List.getElem?_map, text_eq, newlines_append,
    newlines_append, newlines_eq_nil one_line, List.nil_append,
    List.getElem?_append_right (by omega), index, Nat.sub_self]
  cases after with
  | nil =>
      rw [text_eq, List.append_nil] at size
      simpa [newlines] using size.symm
  | cons c after =>
      obtain rfl : c = '\n' := ends c rfl
      simp [newlines, String.utf8Len_append]

/-- The bytes of a line lie inside the source, between whole characters. -/
theorem lineRange?_spec {source : Source} {n start stop : Nat}
    (found : source.lineRange? n = some (start, stop)) :
    ∃ before line after, source.text.toList = before ++ (line ++ after) ∧
      start = String.utf8Len before ∧ stop = String.utf8Len (before ++ line) ∧
        source.Shows n line := by
  unfold lineRange? at found
  split at found
  · exact absurd found (by simp)
  · rename_i positive
    obtain ⟨i, rfl⟩ := Nat.exists_eq_add_one_of_ne_zero positive
    obtain ⟨start, starts, same⟩ := Option.map_eq_some_iff.mp found
    obtain ⟨rfl, rfl⟩ := Prod.mk.inj same
    obtain ⟨before, rest, text_eq, rfl, rfl, fresh⟩ := exists_of_getElem?_lineStarts starts
    have line_eq := source.shows_line text_eq
    rw [fresh, List.nil_append] at line_eq
    rw [← List.takeWhile_append_dropWhile (p := (· != '\n')) (l := rest)] at text_eq
    refine ⟨before, lineAfter rest, _, text_eq, rfl, getElem?_lineStarts text_eq ?_ ?_, line_eq⟩
    · intro member
      simpa using List.mem_takeWhile_imp member
    · intro c member
      have fails := List.head?_dropWhile_not (· != '\n') rest
      rw [Option.mem_def.mp member] at fails
      simpa using fails

theorem isSome_lineRange? (source : Source) (n : Nat) :
    (source.lineRange? n).isSome = (source.line? n).isSome := by
  have count : source.lineStarts.length = (splitLines source.text.toList).length := by
    simp [lineStarts, length_newlines, length_splitLines]
  unfold lineRange? line?
  split
  · rfl
  · rw [Bool.eq_iff_iff]
    simp [count]

end Source

end Formwork
