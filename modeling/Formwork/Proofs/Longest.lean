import Mathlib.Data.List.Chain
import Formwork.Proofs.Lines
import Formwork.Proofs.Numerals

/-!
# The longest numeral

A scan for a number is settled by the longest numeral that starts the text and by what comes right
after it. `LongestNumeral` names the former and `Ends` says of the latter that it spoils nothing.
Without a numeral nothing is found, a numeral that ends is found as it is, and any other drags a
run of letters, digits and points along that stops short of two points in a row.
-/

namespace Formwork

/-- The longest numeral that starts a text, and what follows it. -/
structure LongestNumeral (numeral rest text : List Char) : Prop where
  text_eq : text = numeral ++ rest
  isNumeral : IsNumeral numeral
  longest : ∀ other, IsNumeral other → other <+: text → other.length ≤ numeral.length

/-- A point comes next, and no second one right after it. -/
def LonePoint (text : List Char) : Prop :=
  ∃ rest, text = '.' :: rest ∧ nextIs (· == '.') rest = false

/-- What follows a numeral does not spoil it. -/
structure Ends (numeral rest : List Char) : Prop where
  word : nextIs isWordChar rest = false
  fraction : ∀ more, rest = '.' :: more → nextIs Char.isDigit more = false
  point : '.' ∉ numeral → ¬ LonePoint rest

namespace Literal

/-! ## Reading takes the longest numeral -/

/-- How the digits after the point are written. -/
def pointed (fraction : List Char) : List Char :=
  if fraction.isEmpty then [] else '.' :: fraction

theorem chars_eq_pointed (l : Literal) :
    l.chars = (if l.negative then ['-'] else []) ++ (l.whole ++ pointed l.fraction) := by
  rw [chars, List.append_assoc, pointed]

/-- What is read where a digit comes next, with or without a sign before it. -/
theorem read?_signed (negative : Bool) {d : Char} (digit : d.isDigit = true) (rest : List Char) :
    let text := d :: rest
    read? ((if negative then ['-'] else []) ++ text) =
      some (⟨negative, text.takeWhile Char.isDigit, (fraction? (text.dropWhile Char.isDigit)).1⟩,
        (fraction? (text.dropWhile Char.isDigit)).2) := by
  have unsigned : (d == '-') = false := by simpa using (digit_spec digit).2.2.2.2
  cases negative <;> simp [read?, nextIs, unsigned, digit]

/-- The digits that are read where a literal is written reach at least as far. -/
theorem WellFormed.length_le_run {l : Literal} (formed : l.WellFormed) (after : List Char) :
    let text := l.whole ++ (pointed l.fraction ++ after)
    (l.whole ++ pointed l.fraction).length ≤ (text.takeWhile Char.isDigit ++
      pointed (fraction? (text.dropWhile Char.isDigit)).1).length := by
  obtain ⟨-, digits, digits'⟩ := formed
  intro text
  cases fraction_eq : l.fraction with
  | nil =>
      have run : text.takeWhile Char.isDigit = l.whole ++ after.takeWhile Char.isDigit := by
        rw [← List.takeWhile_append_of_pos digits]
        simp only [text, fraction_eq, pointed, List.isEmpty_nil, if_true, List.nil_append]
      rw [run]
      simp [pointed]
  | cons d ds =>
      have text_eq : text = l.whole ++ '.' :: (d :: ds ++ after) := by
        simp [text, fraction_eq, pointed]
      obtain ⟨run, left⟩ := takeWhile_append_of_stop digits
        (show nextIs Char.isDigit ('.' :: (d :: ds ++ after)) = false from rfl)
      have more : (d :: ds ++ after).takeWhile Char.isDigit =
          d :: (ds ++ after.takeWhile Char.isDigit) :=
        List.takeWhile_append_of_pos (fraction_eq ▸ digits')
      rw [text_eq, run, left]
      simp only [fraction?, more]
      simp [pointed]

/-- A literal is not longer than the one that is read where it is written. -/
theorem WellFormed.length_le_read? {l : Literal} (formed : l.WellFormed) (after : List Char) :
    ∃ found rest, Literal.read? (l.chars ++ after) = some (found, rest) ∧
      l.chars.length ≤ found.chars.length := by
  have reaches := formed.length_le_run after
  obtain ⟨d, ds, whole_eq⟩ := List.exists_cons_of_ne_nil formed.1
  have digit : d.isDigit = true := formed.2.1 d (by simp [whole_eq])
  rw [chars_eq_pointed, List.append_assoc, List.append_assoc]
  rw [whole_eq, List.cons_append] at reaches ⊢
  refine ⟨_, _, read?_signed l.negative digit _, ?_⟩
  rw [chars_eq_pointed]
  simp only [List.length_append, List.length_cons] at reaches ⊢
  omega

/-- The longest numeral of a text is what reading finds there. -/
theorem longestNumeral_iff {numeral rest text : List Char} :
    LongestNumeral numeral rest text ↔
      ∃ literal, literal.chars = numeral ∧ read? text = some (literal, rest) := by
  constructor
  · rintro ⟨rfl, ⟨literal, formed, rfl⟩, longest⟩
    obtain ⟨found, rest', read, reaches⟩ := formed.length_le_read? rest
    obtain ⟨formed', text_eq⟩ := read?_spec read
    have same_length : literal.chars.length = found.chars.length :=
      Nat.le_antisymm reaches (longest _ ⟨found, formed', rfl⟩ (text_eq ▸ List.prefix_append _ _))
    obtain ⟨same, rfl⟩ := List.append_inj text_eq same_length
    exact ⟨found, same.symm, read⟩
  · rintro ⟨literal, rfl, read⟩
    obtain ⟨formed, text_eq⟩ := read?_spec read
    refine ⟨text_eq, ⟨literal, formed, rfl⟩, ?_⟩
    rintro _ ⟨other, formed', rfl⟩ ⟨after, other_eq⟩
    obtain ⟨found, rest', read', reaches⟩ := formed'.length_le_read? after
    rw [other_eq, read] at read'
    obtain ⟨rfl, -⟩ := Prod.mk.inj (Option.some.inj read')
    exact reaches

/-- Nothing is read exactly where no numeral starts. -/
theorem read?_eq_none_iff {text : List Char} :
    read? text = none ↔ ∀ numeral, IsNumeral numeral → ¬ numeral <+: text := by
  constructor
  · rintro none _ ⟨literal, formed, rfl⟩ ⟨more, rfl⟩
    obtain ⟨found, rest, read, -⟩ := formed.length_le_read? more
    exact absurd (none.symm.trans read) (by simp)
  · intro none
    by_contra found
    obtain ⟨⟨literal, rest⟩, read⟩ := Option.ne_none_iff_exists'.mp found
    obtain ⟨formed, text_eq⟩ := read?_spec read
    exact none literal.chars ⟨literal, formed, rfl⟩ ⟨rest, text_eq.symm⟩

/-! ## What spoils a numeral -/

theorem point_not_mem_digits {text : List Char} (digits : ∀ c ∈ text, c.isDigit = true) :
    '.' ∉ text :=
  fun member => absurd (digits _ member) (by decide)

theorem WellFormed.point_mem_chars {l : Literal} (formed : l.WellFormed) :
    '.' ∈ l.chars ↔ l.fraction ≠ [] := by
  have no_point := point_not_mem_digits formed.2.1
  rw [chars_eq_pointed]
  cases l.negative <;> cases l.fraction <;> simp [pointed, no_point]

theorem lonePoint_cons {c : Char} {rest : List Char} :
    LonePoint (c :: rest) ↔ c = '.' ∧ nextIs (· == '.') rest = false := by
  simp [LonePoint, and_assoc]

theorem WellFormed.ends_iff {l : Literal} (formed : l.WellFormed) (rest : List Char) :
    Ends l.chars rest ↔ l.spoiledBy rest = false := by
  have no_fraction : '.' ∉ l.chars ↔ l.fraction = [] := by rw [formed.point_mem_chars, not_not]
  unfold spoiledBy
  split
  · rename_i more
    rw [Bool.or_eq_false_iff, Bool.and_eq_false_imp, List.isEmpty_iff, ← no_fraction]
    constructor
    · intro ends
      refine ⟨ends.fraction more rfl, fun whole => ?_⟩
      have paired := ends.point whole
      rw [lonePoint_cons] at paired
      simpa using paired
    · rintro ⟨undigited, paired⟩
      refine ⟨rfl, ?_, fun whole => ?_⟩
      · rintro _ ⟨rfl⟩
        exact undigited
      · rw [lonePoint_cons]
        simpa using paired whole
  · rename_i other
    refine ⟨Ends.word, fun free => ⟨free, fun more point => absurd point (other more), ?_⟩⟩
    rintro - ⟨more, point, -⟩
    exact other more point

/-- The characters that a literal drags along are not followed by any that it would. -/
theorem ends_drop_spoiledTail (text : List Char) :
    nextIs isWordChar (text.drop (spoiledTail text).length) = false ∧
      ¬ LonePoint (text.drop (spoiledTail text).length) := by
  -- nothing spoils the literal `0` there, and it has no fraction
  have formed : WellFormed ⟨false, ['0'], []⟩ := ⟨by simp, by simp, by simp⟩
  have ends := (formed.ends_iff _).mpr (spoiledBy_drop_spoiledTail _ text)
  exact ⟨ends.word, ends.point (by decide)⟩

/-! ## Points that stand apart -/

/-- No point comes right after another. -/
def PointsApart (text : List Char) : Prop := text.IsChain fun c d => c = '.' → d ≠ '.'

namespace PointsApart

theorem not_infix {text : List Char} (apart : PointsApart text) : ¬ ['.', '.'] <:+: text := by
  intro inside
  have both := apart.infix inside
  simp at both

theorem of_not_mem {text : List Char} (none : '.' ∉ text) : PointsApart text := by
  refine List.isChain_iff_forall_rel_of_append_cons_cons.mpr ?_
  rintro _ _ before after rfl rfl
  simp at none

theorem append {first second : List Char} (apart : PointsApart first)
    (apart' : PointsApart second) (ends : '.' ∉ first.getLast?) :
    PointsApart (first ++ second) :=
  List.isChain_append.mpr ⟨apart, apart', fun _ last _ _ point => absurd (point ▸ last) ends⟩

end PointsApart

/-- A literal has at most one point, and ends with a digit. -/
theorem WellFormed.pointsApart_chars {l : Literal} (formed : l.WellFormed) :
    PointsApart l.chars ∧ '.' ∉ l.chars.getLast? := by
  obtain ⟨-, digits, digits'⟩ := formed
  have before : '.' ∉ (if l.negative then ['-'] else []) ++ l.whole := by
    cases l.negative <;> simp [point_not_mem_digits digits]
  have ends {text : List Char} (none : '.' ∉ text) : '.' ∉ text.getLast? :=
    fun last => none (List.mem_of_getLast? last)
  rw [chars_eq_pointed, ← List.append_assoc]
  cases fraction_eq : l.fraction with
  | nil =>
      rw [show pointed [] = [] from rfl, List.append_nil]
      exact ⟨.of_not_mem before, ends before⟩
  | cons d ds =>
      have after : '.' ∉ d :: ds := point_not_mem_digits (fraction_eq ▸ digits')
      rw [show pointed (d :: ds) = '.' :: d :: ds from rfl]
      refine ⟨(PointsApart.of_not_mem before).append ?_ (ends before), ?_⟩
      · refine List.isChain_cons.mpr ⟨?_, PointsApart.of_not_mem after⟩
        rintro c ⟨rfl⟩ - rfl
        simp at after
      · rw [List.getLast?_append_cons, List.getLast?_cons_cons]
        exact ends after

theorem pointsApart_spoiledTail (text : List Char) : PointsApart (spoiledTail text) := by
  fun_induction spoiledTail text with
  | case1 => exact List.isChain_nil
  | case2 c rest dragged ih =>
      refine List.isChain_cons.mpr ⟨?_, ih⟩
      rintro d next rfl rfl
      have second : nextIs (· == '.') rest = true := by
        rw [spoiledTail_spec rest]
        obtain ⟨more, tail_eq⟩ := List.head?_eq_some_iff.mp next
        rw [tail_eq]
        rfl
      simp [second, isWordChar] at dragged
  | case3 => exact List.isChain_nil

end Literal

/-! ## What a scan finds -/

namespace Position

theorem number_eq_absent_iff {p : Position} :
    p.number = .absent ↔ Literal.read? p.rest = none := by
  unfold number
  split
  · rename_i none
    simp [none]
  · rename_i found
    rw [found]
    split <;> simp

variable {p : Position} {literal : Literal} {rest : List Char}

theorem number_of_ends (read : Literal.read? p.rest = some (literal, rest))
    (ends : Ends literal.chars rest) :
    p.number = .number literal.value (Lexeme.ofChars p literal.chars rest) := by
  have unspoiled := ((Literal.read?_spec read).1.ends_iff rest).mp ends
  simp only [number, read, unspoiled, Bool.false_eq_true, if_false]

theorem number_of_not_ends (read : Literal.read? p.rest = some (literal, rest))
    (runs_on : ¬ Ends literal.chars rest) :
    ∃ tail left, rest = tail ++ left ∧
      p.number = .malformed (p.cursor.advance literal.chars)
        (Lexeme.ofChars p (literal.chars ++ tail) left) ∧
      tail ≠ [] ∧ Literal.PointsApart (literal.chars ++ tail) ∧
      nextIs isWordChar left = false ∧ ¬ LonePoint left := by
  have formed := (Literal.read?_spec read).1
  have spoiled : literal.spoiledBy rest = true := by
    rwa [formed.ends_iff, Bool.not_eq_false] at runs_on
  obtain ⟨apart, ends⟩ := formed.pointsApart_chars
  refine ⟨Literal.spoiledTail rest, rest.drop (Literal.spoiledTail rest).length,
    Literal.spoiledTail_spec rest, ?_, Literal.spoiledTail_ne_nil spoiled,
    apart.append (Literal.pointsApart_spoiledTail rest) ends,
    Literal.ends_drop_spoiledTail rest⟩
  simp only [number, read, spoiled, if_true]

/-- At a cursor of a source, a scan for a number finds nothing exactly where no numeral starts.
Otherwise the longest numeral is found as it is if it ends there. If it does not, it is malformed
right after it, with a nonempty run of characters that holds no two points in a row and is not
followed by another letter, digit or lone point. -/
theorem number_classified (source : Source) (place : Cursor) (before after : List Char)
    (divides : place.Divides source before after) :
    let scan := (Position.seek source place).number
    (scan = .absent ↔ ∀ numeral, IsNumeral numeral → ¬ numeral <+: after) ∧
    (scan ≠ .absent → ∃ numeral rest, LongestNumeral numeral rest after) ∧
    ∀ numeral rest, LongestNumeral numeral rest after →
      (Ends numeral rest → ∃ value lexeme, scan = .number value lexeme ∧
        lexeme.text = String.ofList numeral ∧ lexeme.start = place ∧
        lexeme.stop.Divides source (before ++ numeral) rest) ∧
      (¬ Ends numeral rest → ∃ bad lexeme tail left, scan = .malformed bad lexeme ∧
        bad.Divides source (before ++ numeral) rest ∧
        lexeme.text = String.ofList (numeral ++ tail) ∧ lexeme.start = place ∧
        lexeme.stop.Divides source (before ++ (numeral ++ tail)) left ∧
        tail ≠ [] ∧ ¬ ['.', '.'] <:+: numeral ++ tail ∧
        nextIs isWordChar left = false ∧ ¬ LonePoint left) := by
  intro scan
  have rest_eq : (Position.seek source place).rest = after := by rw [divides.seek_eq]
  have cursor_eq : (Position.seek source place).cursor = place := by rw [divides.seek_eq]
  refine ⟨?_, ?_, ?_⟩
  · rw [number_eq_absent_iff, rest_eq, Literal.read?_eq_none_iff]
  · rw [Ne, number_eq_absent_iff, rest_eq]
    intro found
    obtain ⟨⟨literal, rest⟩, read⟩ := Option.ne_none_iff_exists'.mp found
    exact ⟨literal.chars, rest, Literal.longestNumeral_iff.mpr ⟨literal, rfl, read⟩⟩
  · intro numeral rest longest
    obtain ⟨literal, rfl, read⟩ := Literal.longestNumeral_iff.mp longest
    have after_numeral := (longest.text_eq ▸ divides).advance
    rw [← rest_eq] at read
    refine ⟨fun ends => ?_, fun runs_on => ?_⟩
    · refine ⟨_, _, number_of_ends read ends, rfl, cursor_eq, ?_⟩
      simpa only [Lexeme.ofChars, cursor_eq] using after_numeral
    · obtain ⟨tail, left, rfl, scan_eq, more, apart, stops⟩ := number_of_not_ends read runs_on
      refine ⟨_, _, tail, left, scan_eq, ?_, rfl, cursor_eq, ?_, more, apart.not_infix, stops⟩
      · simpa only [cursor_eq] using after_numeral
      · simp only [Lexeme.ofChars, cursor_eq]
        exact Cursor.Divides.advance
          (by rw [List.append_assoc]; exact longest.text_eq ▸ divides)

/-- `-1.5.2` before a range is malformed at its second point. -/
theorem number_classified_twice_pointed :
    let source : Source := ⟨"t", "x-1.5.2..3"⟩
    LongestNumeral "-1.5".toList ".2..3".toList "-1.5.2..3".toList ∧
      ∃ bad lexeme tail left,
        (Position.seek source ⟨1, 1, 2⟩).number = .malformed bad lexeme ∧
        bad.Divides source "x-1.5".toList ".2..3".toList ∧
        lexeme.text = String.ofList ("-1.5".toList ++ tail) ∧ lexeme.start = ⟨1, 1, 2⟩ ∧
        lexeme.stop.Divides source ("x".toList ++ ("-1.5".toList ++ tail)) left ∧
        tail ≠ [] ∧ ¬ ['.', '.'] <:+: "-1.5".toList ++ tail ∧
        nextIs isWordChar left = false ∧ ¬ LonePoint left := by
  intro source
  have longest : LongestNumeral "-1.5".toList ".2..3".toList "-1.5.2..3".toList :=
    Literal.longestNumeral_iff.mpr ⟨⟨true, ['1'], ['5']⟩, rfl, rfl⟩
  have divides : Cursor.Divides ⟨1, 1, 2⟩ source "x".toList "-1.5.2..3".toList :=
    ⟨by decide, by decide, by decide, by decide⟩
  have runs_on : ¬ Ends "-1.5".toList ".2..3".toList :=
    fun ends => absurd (ends.fraction "2..3".toList rfl) (by decide)
  exact ⟨longest,
    ((number_classified source ⟨1, 1, 2⟩ _ _ divides).2.2 _ _ longest).2 runs_on⟩

end Position

end Formwork
