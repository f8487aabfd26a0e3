import Formwork.Proofs.Piece

/-!
# Tokens with blanks between them

`written tokens` is the text of tokens with one blank after each. At each of its tokens a scan finds
that token and no other, so that what follows is again a written text; only the sign before a
negative number can be taken for a token of its own.
-/

namespace Formwork

/-- Whether a token can be written at all. -/
def Token.Writable : Token → Prop
  | .keyword _ | .punct _ => True
  | .identifier name => isName name.toList = true
  | .number literal => literal.WellFormed
  | .malformed .. => False

/-- The text of tokens, each followed by a blank. -/
def written (tokens : List Token) : List Char :=
  tokens.flatMap fun token => token.chars ++ [' ']

@[simp]
theorem written_nil : written [] = [] := rfl

@[simp]
theorem written_cons (token : Token) (tokens : List Token) :
    written (token :: tokens) = token.chars ++ ' ' :: written tokens := by
  simp [written]

/-! ## First characters -/

/-- Keywords are words. -/
theorem Keyword.isWord (k : Keyword) :
    nextIs isWordStart k.chars = true ∧ k.chars.all isWordChar = true := by
  cases k <;> decide

theorem Keyword.chars_injective {k k' : Keyword} (same : k.chars = k'.chars) : k = k' := by
  have found (k : Keyword) : all.find? (fun other => other.chars == k.chars) = some k := by
    cases k <;> decide
  have both := found k
  rw [same, found k'] at both
  exact (Option.some.inj both).symm

theorem Keyword.isReserved_chars (k : Keyword) : isReserved k.chars = true :=
  isReserved_iff.mpr ⟨k, rfl⟩

/-- The longest run of characters that pass a test ends where the next one fails it. -/
theorem takeWhile_append_of_stop {test : Char → Bool} {run after : List Char}
    (all : ∀ c ∈ run, test c = true) (stops : nextIs test after = false) :
    (run ++ after).takeWhile test = run ∧ (run ++ after).dropWhile test = after := by
  rw [List.takeWhile_append_of_pos all, List.dropWhile_append_of_pos all]
  cases after with
  | nil => simp
  | cons c after =>
      have fails : test c = false := stops
      simp [fails]

/-- Two words that end at the same place are the same. -/
theorem words_eq {word word' after after' : List Char} (all : word.all isWordChar = true)
    (all' : word'.all isWordChar = true) (ends : nextIs isWordChar after = false)
    (ends' : nextIs isWordChar after' = false) (same : word ++ after = word' ++ after') :
    word = word' := by
  rw [← (takeWhile_append_of_stop (List.all_eq_true.mp all) ends).1, same]
  exact (takeWhile_append_of_stop (List.all_eq_true.mp all') ends').1

/-- A digit is one of ten characters. -/
theorem mem_digits {c : Char} (digit : c.isDigit = true) :
    c ∈ ['0', '1', '2', '3', '4', '5', '6', '7', '8', '9'] := by
  simp only [Char.isDigit, Bool.and_eq_true, decide_eq_true_eq, ge_iff_le] at digit
  have low : 48 ≤ c.toNat := digit.1
  have high : c.toNat ≤ 57 := digit.2
  have table : ∀ n < 58, 48 ≤ n →
      Char.ofNat n ∈ ['0', '1', '2', '3', '4', '5', '6', '7', '8', '9'] := by
    decide
  rw [← Char.ofNat_toNat c]
  exact table c.toNat (by omega) low

/-- Digits continue words, do not start them and are neither blanks nor signs. -/
theorem digit_spec {c : Char} (digit : c.isDigit = true) :
    isWordStart c = false ∧ isWordChar c = true ∧ Gap.isBlank c = false ∧ c ≠ '/' ∧ c ≠ '-' := by
  have table : (['0', '1', '2', '3', '4', '5', '6', '7', '8', '9'].all fun d =>
      !isWordStart d && isWordChar d && !Gap.isBlank d && d != '/' && d != '-') = true := rfl
  simpa [and_assoc] using List.all_eq_true.mp table c (mem_digits digit)

/-- Letters and the underscore are neither digits nor blanks nor signs. -/
theorem wordStart_spec {c : Char} (starts : isWordStart c = true) :
    c.isDigit = false ∧ Gap.isBlank c = false ∧ c ≠ '/' ∧ c ≠ '-' := by
  refine ⟨?_, ?_, ?_, ?_⟩
  · by_contra digit
    simp [(digit_spec (Bool.not_eq_false _ ▸ digit)).1] at starts
  · by_contra blank
    simp only [Gap.isBlank, Bool.not_eq_false, Bool.or_eq_true, beq_iff_eq] at blank
    rcases blank with (((rfl | rfl) | rfl) | rfl) | rfl <;> simp [isWordStart] at starts
  · rintro rfl
    simp [isWordStart] at starts
  · rintro rfl
    simp [isWordStart] at starts

theorem Punct.mem_all (q : Punct) : q ∈ Punct.all := by
  cases q <;> decide

/-- Blanks continue neither words nor numbers nor punctuation. -/
theorem blank_spec {c : Char} (blank : Gap.isBlank c = true) :
    isWordChar c = false ∧ c.isDigit = false ∧ c ≠ '.' ∧
      ∀ q : Punct, q.mustNotFollow.toList.contains c = false := by
  simp only [Gap.isBlank, Bool.or_eq_true, beq_iff_eq] at blank
  rcases blank with (((rfl | rfl) | rfl) | rfl) | rfl <;>
    exact ⟨by decide, by decide, by decide, fun q => by cases q <;> decide⟩

/-- A literal is an optional sign and a digit, with more behind it. -/
theorem Literal.WellFormed.chars_eq {l : Literal} (formed : l.WellFormed) :
    ∃ d ds, d.isDigit = true ∧ l.chars = (if l.negative then ['-'] else []) ++ d :: ds := by
  obtain ⟨nonempty, digits, -⟩ := formed
  obtain ⟨d, ds, whole_eq⟩ := List.exists_cons_of_ne_nil nonempty
  refine ⟨d, ds ++ if l.fraction.isEmpty then [] else '.' :: l.fraction, ?_, ?_⟩
  · exact digits d (by simp [whole_eq])
  · simp [Literal.chars, whole_eq]

namespace Token

/-- Whether a token is a word. -/
def isWord : Token → Bool
  | .keyword _ | .identifier _ => true
  | _ => false

variable {t : Token}

/-- The characters of a word. -/
theorem Writable.word (writable : t.Writable) (is_word : t.isWord = true) :
    nextIs isWordStart t.chars = true ∧ t.chars.all isWordChar = true := by
  cases t with
  | keyword k => exact k.isWord
  | identifier name =>
      simp only [Writable, isName, Bool.and_eq_true] at writable
      exact writable.1
  | punct q => simp [isWord] at is_word
  | number literal => simp [isWord] at is_word
  | malformed literal tail => simp [isWord] at is_word

/-- Only words start with a letter. -/
theorem Writable.not_word (writable : t.Writable) (not_word : t.isWord = false)
    (after : List Char) : nextIs isWordStart (t.chars ++ after) = false := by
  cases t with
  | keyword k => simp [isWord] at not_word
  | identifier name => simp [isWord] at not_word
  | punct q => cases q <;> rfl
  | number literal =>
      obtain ⟨d, ds, digit, chars_eq⟩ := Literal.WellFormed.chars_eq writable
      simp only [chars, chars_eq]
      split
      · rfl
      · exact (digit_spec digit).1
  | malformed literal tail => exact writable.elim

/-- A token starts no gap. -/
theorem Writable.piece? (writable : t.Writable) {after : List Char} (fits : t.Fits after) :
    Gap.piece? (t.chars ++ after) = none := by
  cases is_word : t.isWord with
  | true =>
      obtain ⟨starts, -⟩ := writable.word is_word
      cases chars_eq : t.chars with
      | nil => simp [chars_eq, nextIs] at starts
      | cons c cs =>
          rw [chars_eq] at starts
          obtain ⟨-, blank, slash, -⟩ := wordStart_spec starts
          simp [Gap.piece?, blank, slash]
  | false =>
      cases t with
      | keyword k => simp [isWord] at is_word
      | identifier name => simp [isWord] at is_word
      | punct q =>
          cases q
          -- Only a slash could start a comment, with the character after it.
          case slash =>
            cases after with
            | nil => rfl
            | cons c after =>
                have follows : c ≠ '/' ∧ c ≠ '*' := by
                  simp [Fits, nextIs, Punct.mustNotFollow] at fits
                  exact ⟨fits.2.1, fits.2.2⟩
                simp [chars, Punct.chars, Punct.text, Gap.piece?, Gap.isBlank, follows.1, follows.2]
          all_goals simp [chars, Punct.chars, Punct.text, Gap.piece?, Gap.isBlank]
      | number literal =>
          obtain ⟨d, ds, digit, chars_eq⟩ := Literal.WellFormed.chars_eq writable
          obtain ⟨-, -, blank, slash, -⟩ := digit_spec digit
          cases negative : literal.negative with
          | true => simp [chars, chars_eq, negative, Gap.piece?, Gap.isBlank]
          | false => simp [chars, chars_eq, negative, Gap.piece?, blank, slash]
      | malformed literal tail => exact writable.elim

/-- A token before a blank fits. -/
theorem Writable.fits (writable : t.Writable) {c : Char} (blank : Gap.isBlank c = true)
    (after : List Char) : t.Fits (c :: after) := by
  obtain ⟨no_word, -, no_dot, free⟩ := blank_spec blank
  cases t with
  | keyword k => exact no_word
  | punct q => exact free q
  | identifier name => exact ⟨writable, no_word⟩
  | number literal => exact ⟨writable, by simp [Literal.spoiledBy, no_dot, nextIs, no_word]⟩
  | malformed literal tail => exact writable.elim

end Token

/-- No gap comes before the first token. -/
theorem Gap.rest_skipFrom {tokens : List Token} (writable : ∀ t ∈ tokens, t.Writable)
    (place : Cursor) : (Gap.skipFrom 0 place (written tokens)).rest = written tokens := by
  cases tokens with
  | nil => rfl
  | cons t tokens =>
      have fits : t.Fits (' ' :: written tokens) := (writable t (by simp)).fits rfl _
      have none := (writable t (by simp)).piece? fits
      rw [written_cons]
      cases chars_eq : t.chars ++ ' ' :: written tokens with
      | nil => simp at chars_eq
      | cons c cs =>
          rw [chars_eq] at none
          simp [Gap.skipFrom, none]

/-- After a token and its blank comes the next token. -/
theorem Position.rest_skipGap {tokens : List Token} (writable : ∀ t ∈ tokens, t.Writable)
    (place : Cursor) : (Position.skipGap ⟨place, ' ' :: written tokens⟩).rest = written tokens := by
  have blank : Gap.piece? (' ' :: written tokens) = some 0 := rfl
  simp only [Position.skipGap, Gap.skipFrom, blank]
  exact Gap.rest_skipFrom writable _

/-! ## Scans of written texts -/

/-- The piece of a token at a position where the text of the token starts. -/
def Piece.ofToken (t : Token) (p : Position) (after : List Char) : Piece :=
  ⟨t, Lexeme.ofChars p t.chars after, rfl⟩

theorem Piece.at_ofToken {t : Token} (writable : t.Writable) {tokens : List Token} {p : Position}
    (rest_eq : p.rest = written (t :: tokens)) :
    (Piece.ofToken t p (' ' :: written tokens)).At p :=
  ⟨' ' :: written tokens, by rw [rest_eq, written_cons]; rfl, writable.fits rfl _, rfl⟩

theorem Piece.next_ofToken {t : Token} {p : Position} {tokens : List Token}
    (writable : ∀ t ∈ tokens, t.Writable) :
    (Piece.ofToken t p (' ' :: written tokens)).lexeme.next.rest = written tokens :=
  Position.rest_skipGap writable _

/-- A terminal finds the tokens it stands for. -/
theorem Terminal.match?_of_at {t : Terminal} {x : Piece} {p : Position}
    (accepts : t.Accepts x.token) (here : x.At p) : t.match? p = some x.lexeme := by
  obtain ⟨after, rest_eq, fits, lexeme_eq⟩ := here
  obtain ⟨token, lexeme, text_eq⟩ := x
  simp only at accepts rest_eq fits lexeme_eq
  cases t with
  | keyword k =>
      obtain rfl := accepts
      exact Position.literal?_eq_some.mpr ⟨after, rest_eq, fits, lexeme_eq⟩
  | punct q =>
      obtain rfl := accepts
      exact Position.literal?_eq_some.mpr ⟨after, rest_eq, fits, lexeme_eq⟩
  | identifier =>
      obtain ⟨name, rfl⟩ := accepts
      obtain ⟨is_name, ends⟩ := fits
      simp only [isName, Bool.and_eq_true, Bool.not_eq_true'] at is_name
      obtain ⟨⟨starts, all⟩, free⟩ := is_name
      obtain ⟨run, left⟩ := takeWhile_append_of_stop (List.all_eq_true.mp all) ends
      simp only [Token.chars] at rest_eq lexeme_eq
      have word : p.wordChars = name.toList := by
        simp only [Position.wordChars, rest_eq, nextIs_append starts, if_true, run]
      have nonempty : name.toList ≠ [] := by
        intro empty
        simp [empty, nextIs] at starts
      simp only [Terminal.match?, Position.identifier?]
      split
      · rename_i none
        exact absurd (word.symm.trans none) nonempty
      · rw [word, rest_eq, left, lexeme_eq]
        simp [free]

/-- Whether a scan for a terminal can succeed where a token is written. -/
def Terminal.takes : Terminal → Token → Bool
  | .keyword k, .keyword k' => k == k'
  | .punct q, .punct q' => q == q'
  | .punct q, .number literal => q == .minus && literal.negative
  | .identifier, .identifier _ => true
  | _, _ => false

/-- A punctuation token that starts a longer one must not be followed by the rest of it. -/
theorem Punct.longer (q q' : Punct) (starts : q.chars <+: q'.chars) :
    q = q' ∨ nextIs (fun c => q.mustNotFollow.toList.contains c)
      (q'.chars.drop q.chars.length) = true := by
  have table : ∀ q ∈ Punct.all, ∀ q' ∈ Punct.all, q.chars <+: q'.chars → q = q' ∨
      nextIs (fun c => q.mustNotFollow.toList.contains c)
        (q'.chars.drop q.chars.length) = true := by
    decide +kernel
  exact table q q.mem_all q' q'.mem_all starts

/-- Only one punctuation token fits at a place. -/
theorem Punct.eq_of_fits {q q' : Punct} {after after' : List Char}
    (same : q.chars ++ after = q'.chars ++ after')
    (free : nextIs (fun c => q.mustNotFollow.toList.contains c) after = false)
    (free' : nextIs (fun c => q'.mustNotFollow.toList.contains c) after' = false) : q = q' := by
  have of_longer {q q' : Punct} {more after after' : List Char}
      (longer : q'.chars = q.chars ++ more) (after_eq : after = more ++ after')
      (free : nextIs (fun c => q.mustNotFollow.toList.contains c) after = false) : q = q' := by
    rcases Punct.longer q q' ⟨more, longer.symm⟩ with same | follows
    · exact same
    · rw [longer, List.drop_left] at follows
      rw [after_eq, nextIs_append follows] at free
      exact absurd free (by simp)
  rcases List.append_eq_append_iff.mp same with ⟨more, longer, after_eq⟩ | ⟨more, longer, after_eq⟩
  · exact of_longer longer after_eq free
  · exact (of_longer longer after_eq free').symm

theorem Terminal.Accepts.writable {t : Terminal} {token : Token} {after : List Char}
    (accepts : t.Accepts token) (fits : token.Fits after) : token.Writable := by
  cases t with
  | keyword k => obtain rfl := accepts; trivial
  | punct q => obtain rfl := accepts; trivial
  | identifier => obtain ⟨name, rfl⟩ := accepts; exact fits.1

/-- Two tokens at one place are both words or neither is. -/
theorem Token.Writable.isWord_eq {t t' : Token} (writable : t.Writable) (writable' : t'.Writable)
    {after after' : List Char} (same : t.chars ++ after = t'.chars ++ after') :
    t.isWord = t'.isWord := by
  have starts {t : Token} (writable : t.Writable) (after : List Char) :
      nextIs isWordStart (t.chars ++ after) = t.isWord := by
    cases is_word : t.isWord with
    | true => exact nextIs_append (writable.word is_word).1 after
    | false => exact writable.not_word is_word after
  rw [← starts writable after, same, starts writable' after']

/-- A punctuation token at a number is the minus sign of the number. -/
theorem Punct.eq_minus {q : Punct} {literal : Literal} (formed : literal.WellFormed)
    {after after' : List Char} (same : q.chars ++ after = literal.chars ++ after') :
    q = .minus ∧ literal.negative = true := by
  obtain ⟨d, ds, digit, chars_eq⟩ := formed.chars_eq
  rw [chars_eq] at same
  cases negative : literal.negative with
  | true =>
      refine ⟨?_, rfl⟩
      simp only [negative, if_true, List.cons_append, List.nil_append] at same
      cases q <;> simp [Punct.chars, Punct.text] at same ⊢
  | false =>
      simp only [negative, Bool.false_eq_true, if_false, List.nil_append, List.cons_append] at same
      have table : ∀ q ∈ Punct.all, nextIs Char.isDigit q.chars = false ∧ q.chars ≠ [] := by
        decide
      obtain ⟨no_digit, nonempty⟩ := table q q.mem_all
      obtain ⟨c, cs, q_eq⟩ := List.exists_cons_of_ne_nil nonempty
      rw [q_eq] at same no_digit
      obtain ⟨rfl, -⟩ := List.cons.inj same
      simp [nextIs, digit] at no_digit

/-- A terminal does not match where another token is written. -/
theorem Terminal.match?_written {t : Terminal} {token : Token} {tokens : List Token} {p : Position}
    (rest_eq : p.rest = written (token :: tokens)) (writable : token.Writable)
    (apart : t.takes token = false) : t.match? p = none := by
  by_contra present
  obtain ⟨lexeme, found⟩ := Option.ne_none_iff_exists'.mp present
  obtain ⟨x, accepts, -, after, rest_eq', fits, -⟩ := Terminal.match?_spec found
  rw [rest_eq, written_cons] at rest_eq'
  generalize x.token = other at accepts fits rest_eq'
  have writable' := accepts.writable fits
  have both := writable'.isWord_eq writable rest_eq'.symm
  have words (is_word : other.isWord = true) (ends : nextIs isWordChar after = false) :
      other.chars = token.chars :=
    words_eq (writable'.word is_word).2 (writable.word (both ▸ is_word)).2 ends rfl rest_eq'.symm
  cases t with
  | keyword k =>
      obtain rfl := accepts
      cases token with
      | keyword k' => simp [Terminal.takes, Keyword.chars_injective (words rfl fits)] at apart
      | identifier name =>
          have same : k.chars = name.toList := words rfl fits
          simp [Token.Writable, isName, ← same, Keyword.isReserved_chars] at writable
      | _ => simp [Token.isWord] at both
  | identifier =>
      obtain ⟨name, rfl⟩ := accepts
      cases token with
      | keyword k =>
          have same : name.toList = k.chars := words rfl fits.2
          simp [Token.Writable, isName, same, Keyword.isReserved_chars] at writable'
      | identifier name' => simp [Terminal.takes] at apart
      | _ => simp [Token.isWord] at both
  | punct q =>
      obtain rfl := accepts
      cases token with
      | punct q' =>
          have fits' : (Token.punct q').Fits (' ' :: written tokens) := writable.fits rfl _
          simp [Terminal.takes, Punct.eq_of_fits rest_eq'.symm fits fits'] at apart
      | number literal =>
          obtain ⟨rfl, negative⟩ := Punct.eq_minus writable rest_eq'.symm
          simp [Terminal.takes, negative] at apart
      | malformed literal tail => exact writable.elim
      | _ => simp [Token.isWord] at both

theorem Terminal.match?_nil (t : Terminal) {p : Position} (ends : p.rest = []) :
    t.match? p = none := by
  by_contra present
  obtain ⟨lexeme, found⟩ := Option.ne_none_iff_exists'.mp present
  obtain ⟨x, accepts, -, after, rest_eq, fits, -⟩ := Terminal.match?_spec found
  have empty := List.append_eq_nil_iff.mp (rest_eq.symm.trans ends)
  exact absurd empty.1 (Token.chars_ne_nil fits)

/-! ## Numbers -/

namespace Literal

/-- What may follow a literal neither continues its digits nor adds a fraction. -/
theorem nextIs_of_unspoiled {l : Literal} {after : List Char}
    (unspoiled : l.spoiledBy after = false) :
    nextIs Char.isDigit after = false ∧
      (l.fraction = [] → fraction? after = ([], after)) := by
  unfold spoiledBy at unspoiled
  split at unspoiled
  · rename_i rest
    simp only [Bool.or_eq_false_iff] at unspoiled
    refine ⟨rfl, fun _ => ?_⟩
    have none : rest.takeWhile Char.isDigit = [] := by
      cases rest with
      | nil => rfl
      | cons c rest => simpa [nextIs] using unspoiled.1
    simp only [fraction?, none]
  · rename_i other
    cases after with
    | nil => exact ⟨rfl, fun _ => rfl⟩
    | cons c after =>
        refine ⟨?_, fun _ => ?_⟩
        · by_contra digit
          rw [Bool.not_eq_false] at digit
          have letter : isWordChar c = true := (digit_spec digit).2.1
          exact absurd (letter.symm.trans unspoiled) (by simp)
        · unfold fraction?
          split
          · rename_i dot
            exact absurd dot (other _)
          · rfl

theorem fraction?_append {l : Literal} (formed : l.WellFormed) {after : List Char}
    (unspoiled : l.spoiledBy after = false) :
    fraction? ((if l.fraction.isEmpty then [] else '.' :: l.fraction) ++ after) =
      (l.fraction, after) := by
  obtain ⟨stops, no_fraction⟩ := nextIs_of_unspoiled unspoiled
  cases fraction_eq : l.fraction with
  | nil => exact no_fraction fraction_eq
  | cons d ds =>
      have digits : ∀ c ∈ d :: ds, c.isDigit = true := fraction_eq ▸ formed.2.2
      obtain ⟨run, left⟩ := takeWhile_append_of_stop digits stops
      simp only [List.isEmpty_cons, Bool.false_eq_true, if_false, List.cons_append, fraction?]
      rw [← List.cons_append, run, left]

/-- The longest literal at a number is the number. -/
theorem WellFormed.read? {l : Literal} (formed : l.WellFormed) {after : List Char}
    (unspoiled : l.spoiledBy after = false) :
    Literal.read? (l.chars ++ after) = some (l, after) := by
  have fraction_eq := fraction?_append formed unspoiled
  have stops : nextIs Char.isDigit
      ((if l.fraction.isEmpty then [] else '.' :: l.fraction) ++ after) = false := by
    cases is_empty : l.fraction.isEmpty with
    | true => exact (nextIs_of_unspoiled unspoiled).1
    | false => rfl
  obtain ⟨negative, whole, fraction⟩ := l
  obtain ⟨nonempty, digits, digits'⟩ := formed
  simp only at nonempty digits digits' fraction_eq stops
  obtain ⟨d, ds, rfl⟩ := List.exists_cons_of_ne_nil nonempty
  obtain ⟨run, left⟩ := takeWhile_append_of_stop digits stops
  have unsigned : ((d :: ds) ++ ((if fraction.isEmpty then [] else '.' :: fraction) ++ after)) =
      d :: (ds ++ ((if fraction.isEmpty then [] else '.' :: fraction) ++ after)) := rfl
  have sign : (d == '-') = false := by simpa using (digit_spec (digits d (by simp))).2.2.2.2
  cases negative with
  | true =>
      simp only [Literal.read?, chars, if_true, List.append_assoc, List.cons_append,
        List.nil_append, nextIs, beq_self_eq_true, List.drop_succ_cons, List.drop_zero]
      rw [← unsigned, run, left, fraction_eq]
  | false =>
      simp only [Literal.read?, chars, Bool.false_eq_true, if_false, List.append_assoc,
        List.cons_append, List.nil_append, nextIs, sign]
      rw [← unsigned, run, left, fraction_eq]

/-- No literal starts where another token is written. -/
theorem read?_written {token : Token} {tokens : List Token} (writable : token.Writable)
    (other : ∀ literal, token ≠ .number literal) :
    Literal.read? (written (token :: tokens)) = none := by
  rw [written_cons]
  cases is_word : token.isWord with
  | true =>
      obtain ⟨starts, -⟩ := writable.word is_word
      cases chars_eq : token.chars with
      | nil => simp [chars_eq, nextIs] at starts
      | cons c cs =>
          rw [chars_eq] at starts
          obtain ⟨digit, -, -, sign⟩ := wordStart_spec starts
          simp [Literal.read?, nextIs, sign, digit]
  | false =>
      cases token with
      | punct q => cases q <;> rfl
      | number literal => exact absurd rfl (other literal)
      | malformed literal tail => exact writable.elim
      | keyword k => simp [Token.isWord] at is_word
      | identifier name => simp [Token.isWord] at is_word

end Literal

end Formwork
