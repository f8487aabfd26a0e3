import Formwork.Proofs.Definitions
import Formwork.Proofs.Lines
import Formwork.Proofs.Written

/-!
# Where recovery stops

After the word or character it starts at, `Position.skipToKeyword` passes gaps, words that are not
wanted and characters that start no word (`Passes`), and stops at a wanted keyword or at the end. A
word that it meets runs on as far as word characters do. Before the word there may be digits, which
are passed one by one: a keyword right after them is found, although it does not stand on its own
(`Position.skipToKeyword_after_digit`). Nothing else can touch the word from the left, since the
last character of a gap, or the first one after it, belongs to no word.
-/

namespace Formwork

/-- The word characters that a text ends with. -/
def wordBefore (before : List Char) : List Char := before.rtakeWhile isWordChar

/-- A word between two texts, cut off from the first by nothing but digits. -/
structure WordAt (before word after : List Char) : Prop where
  starts : nextIs isWordStart word = true
  all : word.all isWordChar = true
  ends : nextIs isWordChar after = false
  digits : ∀ c ∈ wordBefore before, c.isDigit = true

/--
From one division of a text to a later one, over gaps, over words none of which is wanted, and over
characters that start neither a word nor a gap.
-/
inductive Passes (wanted : List Keyword) :
    List Char → List Char → List Char → List Char → Prop where
  | done (before after : List Char) : Passes wanted before after before after
  | gap {before gap after before' after' : List Char} :
      Gap.Skips (gap ++ after) after → Passes wanted (before ++ gap) after before' after' →
      Passes wanted before (gap ++ after) before' after'
  | word {before word after before' after' : List Char} :
      WordAt before word after → (∀ k ∈ wanted, k.chars ≠ word) →
      Passes wanted (before ++ word) after before' after' →
      Passes wanted before (word ++ after) before' after'
  | other {c : Char} {before after before' after' : List Char} :
      isWordStart c = false → Gap.piece? (c :: after) = none →
      Passes wanted (before ++ [c]) after before' after' →
      Passes wanted before (c :: after) before' after'

theorem Passes.append_eq {wanted : List Keyword} {before after before' after' : List Char}
    (passes : Passes wanted before after before' after') : before' ++ after' = before ++ after := by
  induction passes with
  | done => rfl
  | gap _ _ ih => rw [ih, List.append_assoc]
  | word _ _ _ ih => rw [ih, List.append_assoc]
  | other _ _ _ ih => rw [ih, List.append_assoc, List.singleton_append]

/-! ## Between words -/

/-- A word that starts here is cut off by nothing but digits. -/
def Poised (before after : List Char) : Prop :=
  nextIs isWordChar after = true → ∀ c ∈ wordBefore before, c.isDigit = true

theorem isWordChar_iff {c : Char} :
    isWordChar c = true ↔ isWordStart c = true ∨ c.isDigit = true := by
  simp only [isWordChar, isWordStart, Char.isAlphanum, Bool.or_eq_true]
  tauto

theorem wordBefore_concat {c : Char} (apart : isWordChar c = false) (before : List Char) :
    wordBefore (before ++ [c]) = [] :=
  List.rtakeWhile_concat_neg _ _ _ (by simp [apart])

theorem wordBefore_eq_nil {before : List Char}
    (digits : ∀ c ∈ wordBefore before, c.isDigit = true)
    (no_digit : ∀ c ∈ before.getLast?, c.isDigit = false) : wordBefore before = [] := by
  rcases List.eq_nil_or_concat' before with rfl | ⟨earlier, c, rfl⟩
  · rfl
  · have last : c.isDigit = false := no_digit c (by simp)
    refine wordBefore_concat (Bool.eq_false_iff.mpr fun continues => ?_) earlier
    rw [wordBefore, List.rtakeWhile_concat_pos _ _ _ continues] at digits
    exact absurd (digits c (by simp)) (by simp [last])

/-- The end of a line continues no word. -/
theorem nextIs_isWordChar_of_stops {text : List Char}
    (stops : ∀ c ∈ text.head?, Gap.inLine c = false) : nextIs isWordChar text = false := by
  cases text with
  | nil => rfl
  | cons c text =>
      have ends : c = '\r' ∨ c = '\n' := by
        simpa [Gap.inLine, or_iff_not_imp_left] using stops c rfl
      rcases ends with rfl | rfl <;> rfl

namespace Poised

variable {before after : List Char}

theorem of_ends (ends : nextIs isWordChar after = false) : Poised before after :=
  fun continues => absurd (continues.symm.trans ends) (by simp)

theorem concat {c : Char} (apart : isWordChar c = false) : Poised (before ++ [c]) after := by
  intro _ d member
  rw [wordBefore_concat apart] at member
  exact absurd member (by simp)

/-- A character that starts no word is a digit or comes between words. -/
theorem other {c : Char} (poised : Poised before (c :: after)) (no_word : isWordStart c = false) :
    Poised (before ++ [c]) after := by
  by_cases continues : isWordChar c = true
  · intro _ d member
    have digit : c.isDigit = true := by simpa [no_word] using isWordChar_iff.mp continues
    rw [wordBefore, List.rtakeWhile_concat_pos _ _ _ continues, List.mem_append] at member
    rcases member with earlier | last
    · exact poised continues d earlier
    · rwa [List.mem_singleton.mp last]
  · exact concat (Bool.not_eq_true _ ▸ continues)

/-- A gap keeps words apart: its last character, or the one after it, belongs to no word. -/
theorem gap (poised : Poised before after) {rest : List Char} (skips : Gap.Skips after rest) :
    ∃ gap, after = gap ++ rest ∧ Poised (before ++ gap) rest := by
  induction skips generalizing before with
  | done text => exact ⟨[], rfl, by rwa [List.append_nil]⟩
  | @blank c text rest blank _ ih =>
      obtain ⟨gap, rfl, poised'⟩ := ih (concat (blank_spec blank).1 : Poised (before ++ [c]) text)
      exact ⟨c :: gap, rfl, by rwa [List.append_cons]⟩
  | @block body text rest _ _ ih =>
      obtain ⟨gap, rfl, poised'⟩ :=
        ih (concat rfl : Poised (before ++ '/' :: '*' :: (body ++ ['*']) ++ ['/']) text)
      exact ⟨'/' :: '*' :: (body ++ '*' :: '/' :: gap), by simp, by simpa using poised'⟩
  | @line body text rest _ stops _ ih =>
      obtain ⟨gap, rfl, poised'⟩ :=
        ih (of_ends (nextIs_isWordChar_of_stops stops) : Poised (before ++ '/' :: '/' :: body) text)
      exact ⟨'/' :: '/' :: (body ++ gap), by simp, by simpa using poised'⟩

end Poised

namespace Position

/-- No further gap starts where the longest one ends. -/
theorem piece?_skipGap (p : Position) : Gap.piece? p.skipGap.rest = none := by
  unfold skipGap
  fun_induction Gap.skipFrom 0 p.cursor p.rest with
  | case1 => rfl
  | case2 _ _ _ _ ih => exact ih
  | case3 _ _ _ _ _ ih => exact ih
  | case4 _ _ _ none => exact none

/-- A word that is found between words is a whole one, but for digits before it. -/
theorem wordAt_of_word? {p after : Position} {word before : List Char}
    (found : p.word? = some (word, after)) (poised : Poised before p.rest) :
    p.rest = word ++ after.rest ∧ WordAt before word after.rest := by
  unfold word? at found
  split at found
  · exact absurd found (by simp)
  · rename_i nonempty
    obtain ⟨rfl, rfl⟩ := Prod.mk.inj (Option.some.inj found)
    obtain ⟨starts, all, rest_eq⟩ := wordChars_spec nonempty
    refine ⟨rest_eq, starts, all, nextIs_dropWhile _ _, poised ?_⟩
    obtain ⟨c, word, word_eq⟩ := List.exists_cons_of_ne_nil nonempty
    rw [word_eq] at starts rest_eq
    rw [rest_eq]
    exact isWordChar_iff.mpr (.inl starts)

/-- Where no word is found, the next character starts none. -/
theorem rest_of_word?_eq_none {p : Position} (none : p.word? = none) (more : p.isEnd = false) :
    ∃ c, isWordStart c = false ∧ p.rest = c :: p.skipOne.rest := by
  cases rest_eq : p.rest with
  | nil => simp [isEnd, rest_eq] at more
  | cons c rest =>
      refine ⟨c, ?_, by simp [skipOne, rest_eq]⟩
      by_contra starts
      rw [Bool.not_eq_false] at starts
      simp [word?, wordChars, rest_eq, nextIs, starts, isWordChar_iff.mpr (.inl starts)] at none

/-- The loop passes what it steps over, and ends at a wanted keyword or at the end. -/
theorem findKeyword_spec (wanted : List Keyword) {fuel : Nat} {p : Position} {before : List Char}
    (enough : p.rest.length < fuel) (poised : Poised before p.rest) :
    ∃ prior, Passes wanted before p.rest prior (findKeyword wanted fuel p).rest ∧
      ((findKeyword wanted fuel p).rest = [] ∨
        ∃ k ∈ wanted, ∃ more, (findKeyword wanted fuel p).rest = k.chars ++ more ∧
          WordAt prior k.chars more) := by
  induction fuel generalizing p before with
  | zero => exact absurd enough (by simp)
  | succ fuel ih =>
      obtain ⟨gap, rest_eq, poised'⟩ := poised.gap (skips_skipGap p)
      have skips := skips_skipGap p
      have shorter := (leadsTo_skipGap p).length_le
      have no_gap := piece?_skipGap p
      rw [rest_eq] at skips ⊢
      unfold findKeyword
      simp only
      generalize p.skipGap = q at *
      split
      · rename_i ends
        exact ⟨before ++ gap, .gap skips (.done _ _), .inl (List.isEmpty_iff.mp ends)⟩
      · rename_i more
        split
        · rename_i word after found
          obtain ⟨word_eq, here⟩ := wordAt_of_word? found poised'
          split
          · rename_i listed
            obtain ⟨k, member, same⟩ := List.any_eq_true.mp listed
            obtain rfl : k.chars = word := by simpa using same
            exact ⟨before ++ gap, .gap skips (.done _ _),
              .inr ⟨k, member, after.rest, word_eq, here⟩⟩
          · rename_i unlisted
            have other : ∀ k ∈ wanted, k.chars ≠ word := by simpa using unlisted
            have fewer := (word?_spec found).2
            obtain ⟨prior, passes, stops⟩ :=
              ih (by omega) (Poised.of_ends here.ends : Poised (before ++ gap ++ word) _)
            exact ⟨prior, .gap skips (word_eq ▸ .word here other passes), stops⟩
        · rename_i none
          have fewer := length_skipOne (Bool.not_eq_true _ ▸ more)
          obtain ⟨c, no_word, q_eq⟩ := rest_of_word?_eq_none none (Bool.not_eq_true _ ▸ more)
          rw [q_eq] at no_gap poised'
          obtain ⟨prior, passes, stops⟩ := ih (by omega) (poised'.other no_word)
          exact ⟨prior, .gap skips (q_eq ▸ .other no_word no_gap passes), stops⟩

theorem skipToKeyword_spec (wanted : List Keyword) {p : Position} {before : List Char}
    (more : p.isEnd = false) (poised : Poised before p.rest) :
    ∃ first rest prior, p.rest = first ++ rest ∧
      (WordAt before first rest ∨ ∃ c, first = [c] ∧ isWordStart c = false) ∧
      Passes wanted (before ++ first) rest prior (p.skipToKeyword wanted).rest ∧
      ((p.skipToKeyword wanted).rest = [] ∨
        ∃ k ∈ wanted, ∃ more, (p.skipToKeyword wanted).rest = k.chars ++ more ∧
          WordAt prior k.chars more) := by
  unfold skipToKeyword
  simp only
  split
  · rename_i word after found
    obtain ⟨rest_eq, here⟩ := wordAt_of_word? found poised
    obtain ⟨prior, passes, stops⟩ := findKeyword_spec wanted (Nat.lt_succ_self _)
      (Poised.of_ends here.ends : Poised (before ++ word) after.rest)
    exact ⟨word, after.rest, prior, rest_eq, .inl here, passes, stops⟩
  · rename_i none
    obtain ⟨c, no_word, rest_eq⟩ := rest_of_word?_eq_none none more
    rw [rest_eq] at poised
    obtain ⟨prior, passes, stops⟩ :=
      findKeyword_spec wanted (Nat.lt_succ_self _) (poised.other no_word)
    exact ⟨[c], p.skipOne.rest, prior, rest_eq, .inr ⟨c, rfl, no_word⟩, passes, stops⟩

/-- From a cursor of a source that stands inside no word and not at the end, recovery goes to a
later one. Behind the first word or character it passes gaps, words that are not wanted and
characters that start no word. It stops at the end or at a wanted keyword that runs on no further
and has nothing but digits right before it, so that it stands on its own unless a digit does. -/
theorem skipToKeyword_stops (source : Source) (place : Cursor) (before after : List Char)
    (divides : place.Divides source before after) (wanted : List Keyword)
    (between : nextIs isWordChar after = true → wordBefore before = []) (more : after ≠ []) :
    ∃ found first rest prior left,
      (Position.seek source place).skipToKeyword wanted = ⟨found, left⟩ ∧
      found.Divides source prior left ∧ place.offset < found.offset ∧
      after = first ++ rest ∧
      (WordAt before first rest ∨ ∃ c, first = [c] ∧ isWordStart c = false) ∧
      Passes wanted (before ++ first) rest prior left ∧
      (left = [] ∨ ∃ k ∈ wanted, ∃ more, left = k.chars ++ more ∧ WordAt prior k.chars more ∧
        ((∀ c ∈ prior.getLast?, c.isDigit = false) → wordBefore prior = [])) := by
  rw [divides.seek_eq]
  have poised : Poised before after := fun continues c member => by
    rw [between continues] at member
    exact absurd member (by simp)
  have going : isEnd ⟨place, after⟩ = false := by simpa [isEnd] using more
  obtain ⟨first, rest, prior, rest_eq, start, passes, stops⟩ :=
    skipToKeyword_spec wanted going poised
  have shorter := length_skipToKeyword wanted going
  obtain ⟨skipped, skipped_eq, found_eq⟩ := leadsTo_skipToKeyword wanted ⟨place, after⟩
  generalize skipToKeyword ⟨place, after⟩ wanted = q at *
  obtain ⟨found, left⟩ := q
  simp only at *
  subst found_eq
  have nonempty : skipped ≠ [] := by
    rintro rfl
    simp [skipped_eq] at shorter
  have prior_eq : prior = before ++ skipped := by
    have whole := passes.append_eq
    rw [List.append_assoc, ← rest_eq, skipped_eq, ← List.append_assoc] at whole
    exact List.append_cancel_right whole
  refine ⟨_, first, rest, prior, left, rfl, ?_, Cursor.offset_lt_advance place nonempty, rest_eq,
    start, passes, stops.imp_right ?_⟩
  · rw [prior_eq]
    exact (skipped_eq ▸ divides).advance
  · rintro ⟨k, listed, rest', left_eq, here⟩
    exact ⟨k, listed, rest', left_eq, here, wordBefore_eq_nil here.digits⟩

/-- Recovery passes a comment and a longer word, and stops behind a digit. -/
theorem skipToKeyword_stops_commented :
    let source : Source := ⟨"t", "x /* fun */ function 7fun"⟩
    let wanted : List Keyword := [.fun_, .const]
    ∃ found first rest prior left,
      (Position.seek source .start).skipToKeyword wanted = ⟨found, left⟩ ∧
      found.Divides source prior left ∧ Cursor.start.offset < found.offset ∧
      source.text.toList = first ++ rest ∧
      (WordAt [] first rest ∨ ∃ c, first = [c] ∧ isWordStart c = false) ∧
      Passes wanted ([] ++ first) rest prior left ∧
      (left = [] ∨ ∃ k ∈ wanted, ∃ more, left = k.chars ++ more ∧ WordAt prior k.chars more ∧
        ((∀ c ∈ prior.getLast?, c.isDigit = false) → wordBefore prior = [])) := by
  intro source wanted
  have divides : Cursor.start.Divides source [] source.text.toList := ⟨rfl, rfl, rfl, rfl⟩
  exact skipToKeyword_stops source .start [] source.text.toList divides wanted (fun _ => rfl)
    (by decide)

/-- Recovery does not always stop at words that stand on their own: digits are passed one by one,
and a keyword that touches them is found. -/
theorem skipToKeyword_after_digit :
    ¬ ∀ (source : Source) (place : Cursor) (before after : List Char),
      place.Divides source before after → ∀ wanted : List Keyword, wanted ≠ [] →
      (nextIs isWordChar after = true → wordBefore before = []) → after ≠ [] →
      ∃ found prior left, (Position.seek source place).skipToKeyword wanted = ⟨found, left⟩ ∧
        found.Divides source prior left ∧ (left = [] ∨ wordBefore prior = []) := by
  intro alone
  let source : Source := ⟨"t", "1fun fun"⟩
  have divides : Cursor.start.Divides source [] source.text.toList := ⟨rfl, rfl, rfl, rfl⟩
  obtain ⟨found, prior, left, result, divides', stops⟩ :=
    alone source .start [] source.text.toList divides [.fun_] (by simp) (fun _ => rfl) (by decide)
  have computed : (Position.seek source .start).skipToKeyword [.fun_] =
      ⟨⟨1, 1, 2⟩, "fun fun".toList⟩ := by decide
  rw [computed] at result
  obtain ⟨rfl, rfl⟩ := Position.mk.inj result
  have text_eq : source.text.toList = ['1'] ++ "fun fun".toList := by decide
  have prior_eq : prior = ['1'] := List.append_cancel_right (divides'.text.symm.trans text_eq)
  rcases stops with ends | free
  · exact absurd ends (by decide)
  · rw [prior_eq] at free
    exact absurd free (by decide)

end Position

end Formwork
