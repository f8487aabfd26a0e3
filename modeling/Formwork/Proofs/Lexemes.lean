import Mathlib.Data.List.Forall2
import Formwork.Proofs.Parallel
import Formwork.Proofs.Written

/-!
# The lexemes of a text

A gap ends where a token starts, and at most one token that is neither malformed nor a signed number
fits at a place. So a text has one reading as such tokens with gaps between them, a negative number
being a minus sign that touches the number. Two texts with the same tokens, which touch in the same
places, correspond: scans find the same in both.
-/

namespace Formwork

/-! ## Gaps -/

namespace Gap

variable {text rest : List Char}

theorem closing?_of_first {body : List Char} (first : ¬ ['*', '/'] <:+: body ++ ['*'])
    (after : List Char) : closing? (body ++ '*' :: '/' :: after) = some (body.length + 2) := by
  induction body with
  | nil => rfl
  | cons c body ih =>
      have later : ¬ ['*', '/'] <:+: body ++ ['*'] := fun inside =>
        first (inside.trans (List.suffix_cons c _).isInfix)
      have not_here : ∀ more, c :: (body ++ '*' :: '/' :: after) ≠ '*' :: '/' :: more := by
        intro more here
        obtain ⟨rfl, tail_eq⟩ := List.cons.inj here
        cases body with
        | nil => simp at tail_eq
        | cons d body =>
            obtain ⟨rfl, -⟩ := List.cons.inj tail_eq
            exact first ⟨[], body ++ ['*'], rfl⟩
      rw [List.cons_append]
      unfold closing?
      split
      · rename_i empty
        exact absurd empty (by simp)
      · rename_i more here
        exact absurd here (not_here more)
      · rename_i d rest _ text_eq
        obtain ⟨rfl, rfl⟩ := List.cons.inj text_eq
        rw [ih later]
        rfl

theorem piece?_blank {c : Char} (is_blank : isBlank c = true) (text : List Char) :
    piece? (c :: text) = some 0 := by
  unfold piece?
  split
  · rename_i empty
    exact absurd empty (by simp)
  · rename_i text_eq
    obtain ⟨rfl, -⟩ := List.cons.inj text_eq
    exact absurd is_blank (by decide)
  · rename_i text_eq
    obtain ⟨rfl, -⟩ := List.cons.inj text_eq
    exact absurd is_blank (by decide)
  · rename_i text_eq
    obtain ⟨rfl, -⟩ := List.cons.inj text_eq
    rw [if_pos is_blank]

theorem piece?_block {body : List Char} (first : ¬ ['*', '/'] <:+: body ++ ['*'])
    (text : List Char) :
    piece? ('/' :: '*' :: (body ++ '*' :: '/' :: text)) =
      some ('*' :: (body ++ ['*', '/'])).length := by
  simp [piece?, closing?_of_first first]

theorem piece?_line {body text : List Char} (inside : ∀ c ∈ body, inLine c = true)
    (stops : ∀ c ∈ text.head?, inLine c = false) :
    piece? ('/' :: '/' :: (body ++ text)) = some ('/' :: body).length := by
  have run : (body ++ text).takeWhile inLine = body := by
    refine (takeWhile_append_of_stop inside ?_).1
    cases text with
    | nil => rfl
    | cons c text => exact stops c rfl
  simp [piece?, run]

/-- A gap that ends where no further one starts is the longest. -/
theorem Skips.rest_skipFrom (skips : Skips text rest) (ends : piece? rest = none)
    (place : Cursor) : (skipFrom 0 place text).rest = rest := by
  induction skips generalizing place with
  | done text =>
      cases text with
      | nil => rfl
      | cons c text => simp only [skipFrom, ends]
  | @blank c text rest is_blank _ ih =>
      simp only [skipFrom, piece?_blank is_blank text]
      exact ih ends _
  | @block body text rest first _ ih =>
      have body_eq : '*' :: (body ++ '*' :: '/' :: text) =
          '*' :: (body ++ ['*', '/']) ++ text := by simp
      simp only [skipFrom, piece?_block first text]
      rw [body_eq, skipFrom_append]
      exact ih ends _
  | @line body text rest inside stops _ ih =>
      simp only [skipFrom, piece?_line inside stops]
      rw [← List.cons_append, skipFrom_append]
      exact ih ends _

/-- The characters of a gap are a gap before any text that starts the same way. -/
theorem Skips.split (skips : Skips text rest) :
    ∃ gap, text = gap ++ rest ∧
      ∀ rest' : List Char, rest'.head? = rest.head? → Skips (gap ++ rest') rest' := by
  induction skips with
  | done text => exact ⟨[], rfl, fun rest' _ => .done rest'⟩
  | @blank c text rest is_blank _ ih =>
      obtain ⟨gap, rfl, again⟩ := ih
      exact ⟨c :: gap, rfl, fun rest' same => .blank is_blank (again rest' same)⟩
  | @block body text rest first _ ih =>
      obtain ⟨gap, rfl, again⟩ := ih
      refine ⟨'/' :: '*' :: (body ++ '*' :: '/' :: gap), by simp, fun rest' same => ?_⟩
      have comment := Skips.block first (again rest' same)
      simpa using comment
  | @line body text rest inside stops _ ih =>
      obtain ⟨gap, rfl, again⟩ := ih
      refine ⟨'/' :: '/' :: (body ++ gap), by simp, fun rest' same => ?_⟩
      have stops' : ∀ c ∈ (gap ++ rest').head?, inLine c = false := by
        rw [List.head?_append, same, ← List.head?_append]
        exact stops
      have comment := Skips.line inside stops' (again rest' same)
      simpa using comment

/-- A gap starts with neither a digit nor a point. -/
theorem Skips.nextIs (skips : Skips text rest) (nonempty : text ≠ rest) :
    nextIs Char.isDigit text = false ∧ nextIs (· == '.') text = false := by
  cases skips with
  | done => exact absurd rfl nonempty
  | blank is_blank =>
      obtain ⟨-, no_digit, no_dot, -⟩ := blank_spec is_blank
      exact ⟨no_digit, by simpa [Formwork.nextIs] using no_dot⟩
  | block => exact ⟨rfl, rfl⟩
  | line => exact ⟨rfl, rfl⟩

end Gap

/-! ## Plain tokens -/

namespace Token

variable {t u : Token} {after after' : List Char}

/-- Whether a token is neither a malformed number nor one with a sign. -/
def isPlain : Token → Bool
  | .malformed .. => false
  | .number literal => !literal.negative
  | _ => true

theorem Fits.writable (fits : t.Fits after) (sound : t.isSound = true) : t.Writable := by
  cases t with
  | keyword k => trivial
  | punct q => trivial
  | identifier name => exact fits.1
  | number literal => exact fits.1
  | malformed literal tail => simp [isSound] at sound

theorem isSound_of_isPlain (plain : t.isPlain = true) : t.isSound = true := by
  cases t <;> simp_all [isPlain, isSound]

/-- Only one plain token fits at a place. -/
theorem eq_of_fits (same : t.chars ++ after = u.chars ++ after') (fits : t.Fits after)
    (fits' : u.Fits after') (plain : t.isPlain = true) (plain' : u.isPlain = true) : t = u := by
  have writable := fits.writable (isSound_of_isPlain plain)
  have writable' := fits'.writable (isSound_of_isPlain plain')
  have both := writable.isWord_eq writable' same
  have words (is_word : t.isWord = true) (ends : nextIs isWordChar after = false)
      (ends' : nextIs isWordChar after' = false) : t.chars = u.chars :=
    words_eq (writable.word is_word).2 (writable'.word (both ▸ is_word)).2 ends ends' same
  cases t with
  | keyword k =>
      cases u with
      | keyword k' => rw [Keyword.chars_injective (words rfl fits fits')]
      | identifier name =>
          have reserved : k.chars = name.toList := words rfl fits fits'.2
          simp [Writable, isName, ← reserved, Keyword.isReserved_chars] at writable'
      | _ => simp [isWord] at both
  | identifier name =>
      cases u with
      | keyword k =>
          have reserved : name.toList = k.chars := words rfl fits.2 fits'
          simp [Writable, isName, reserved, Keyword.isReserved_chars] at writable
      | identifier name' => rw [String.toList_inj.mp (words rfl fits.2 fits'.2)]
      | _ => simp [isWord] at both
  | punct q =>
      cases u with
      | punct q' => rw [Punct.eq_of_fits same fits fits']
      | number literal =>
          have negative := (Punct.eq_minus fits'.1 same).2
          simp [isPlain, negative] at plain'
      | malformed literal tail => simp [isPlain] at plain'
      | _ => simp [isWord] at both
  | number literal =>
      cases u with
      | punct q =>
          have negative := (Punct.eq_minus fits.1 same.symm).2
          simp [isPlain, negative] at plain
      | number literal' =>
          have read := fits.1.read? fits.2
          have read' := fits'.1.read? fits'.2
          rw [show literal.chars ++ after = literal'.chars ++ after' from same, read'] at read
          rw [(Prod.mk.inj (Option.some.inj read)).1]
      | malformed literal' tail => simp [isPlain] at plain'
      | _ => simp [isWord] at both
  | malformed literal tail => simp [isPlain] at plain

end Token

/-- Terminals stand for plain tokens. -/
theorem Terminal.Accepts.isPlain {t : Terminal} {token : Token} (accepts : t.Accepts token) :
    token.isPlain = true := by
  cases t with
  | keyword k => obtain rfl := accepts; rfl
  | punct q => obtain rfl := accepts; rfl
  | identifier => obtain ⟨name, rfl⟩ := accepts; rfl

namespace Piece.At

variable {x y : Piece} {p : Position}

/-- A token has one piece at a place. -/
theorem eq_of_token (here : x.At p) (here' : y.At p) (same : x.token = y.token) : x = y := by
  obtain ⟨after, rest_eq, -, lexeme_eq⟩ := here
  obtain ⟨after', rest_eq', -, lexeme_eq'⟩ := here'
  obtain ⟨token, lexeme, text_eq⟩ := x
  obtain ⟨token', lexeme', text_eq'⟩ := y
  obtain rfl : token = token' := same
  obtain rfl : after = after' := List.append_cancel_left (rest_eq.symm.trans rest_eq')
  obtain rfl : lexeme = lexeme' := lexeme_eq.trans lexeme_eq'.symm
  rfl

/-- Only one plain piece stands at a place. -/
theorem eq_of_isPlain (here : x.At p) (here' : y.At p) (plain : x.token.isPlain = true)
    (plain' : y.token.isPlain = true) : x = y := by
  refine here.eq_of_token here' ?_
  obtain ⟨after, rest_eq, fits, -⟩ := here
  obtain ⟨after', rest_eq', fits', -⟩ := here'
  exact Token.eq_of_fits (rest_eq.symm.trans rest_eq') fits fits' plain plain'

end Piece.At

namespace Spelled

variable {p q r : Position} {xs ys : List Piece}

theorem nil_of_same (spelled : Spelled p xs p) : xs = [] := by
  by_contra nonempty
  exact absurd (spelled.length_lt nonempty) (Nat.lt_irrefl _)

/-- Only one row of plain pieces stands between two places. -/
theorem eq_of_isPlain (spelled : Spelled p xs q) (spelled' : Spelled p ys q)
    (plain : ∀ x ∈ xs, x.token.isPlain = true) (plain' : ∀ y ∈ ys, y.token.isPlain = true) :
    xs = ys := by
  induction xs generalizing p ys with
  | nil =>
      obtain rfl := spelled
      exact (nil_of_same spelled').symm
  | cons x xs ih =>
      cases ys with
      | nil =>
          obtain rfl : p = q := spelled'
          exact nil_of_same spelled
      | cons y ys =>
          obtain rfl : x = y := spelled.1.eq_of_isPlain spelled'.1 (plain x (by simp))
            (plain' y (by simp))
          rw [ih spelled.2 spelled'.2 (fun z member => plain z (by simp [member]))
            (fun z member => plain' z (by simp [member]))]

/-- The same tokens from one place lead to one place. -/
theorem eq_of_tokens (spelled : Spelled p xs q) (spelled' : Spelled p ys r)
    (same : xs.map Piece.token = ys.map Piece.token) : q = r := by
  induction xs generalizing p ys with
  | nil =>
      obtain rfl : ys = [] := List.map_eq_nil_iff.mp same.symm
      exact spelled.unique spelled'
  | cons x xs ih =>
      cases ys with
      | nil => simp at same
      | cons y ys =>
          simp only [List.map_cons, List.cons.injEq] at same
          obtain rfl : x = y := spelled.1.eq_of_token spelled'.1 same.1
          exact ih spelled.2 spelled'.2 same.2

end Spelled

/-! ## Numbers among plain pieces -/

/-- The literal of a number. -/
def Token.literal? : Token → Option Literal
  | .number literal => some literal
  | _ => none

theorem Token.isPlain_of_literal?_eq_none {t : Token} (sound : t.isSound = true)
    (no_number : t.literal? = none) : t.isPlain = true := by
  cases t with
  | number literal => simp [literal?] at no_number
  | malformed literal tail => simp [isSound] at sound
  | _ => rfl

/-- Only a number starts with a digit, and only a number or a minus sign with a sign. -/
theorem Token.Writable.nextIs_number {t : Token} (writable : t.Writable)
    (other : t.literal? = none) (after : List Char) :
    nextIs Char.isDigit (t.chars ++ after) = false ∧
      (t ≠ .punct .minus → nextIs (· == '-') (t.chars ++ after) = false) := by
  cases is_word : t.isWord with
  | true =>
      obtain ⟨starts, -⟩ := writable.word is_word
      cases chars_eq : t.chars with
      | nil => simp [chars_eq, nextIs] at starts
      | cons c cs =>
          rw [chars_eq] at starts
          obtain ⟨no_digit, -, -, no_sign⟩ := wordStart_spec starts
          exact ⟨no_digit, fun _ => by simpa [nextIs] using no_sign⟩
  | false =>
      cases t with
      | punct q => cases q <;> simp [chars, Punct.chars, Punct.text, nextIs, Char.isDigit]
      | number literal => simp [literal?] at other
      | malformed literal tail => exact writable.elim
      | _ => simp [isWord] at is_word

theorem Literal.read?_eq_none {text : List Char}
    (absent : nextIs Char.isDigit (if nextIs (· == '-') text then text.drop 1 else text) = false) :
    read? text = none := by
  have no_digits : (if nextIs (· == '-') text then text.drop 1 else text).takeWhile Char.isDigit =
      [] := by
    cases unsigned : if nextIs (· == '-') text then text.drop 1 else text with
    | nil => rfl
    | cons c cs =>
        rw [unsigned] at absent
        rw [List.takeWhile_cons_of_neg]
        exact Bool.eq_false_iff.mp absent
  simp only [read?, no_digits]

/-- Where a token other than a number stands, a negative number does not, unless a digit follows. -/
theorem Token.isPlain_of_fits {t u : Token} {after after' : List Char}
    (same : t.chars ++ after = u.chars ++ after') (fits : t.Fits after) (fits' : u.Fits after')
    (sound : t.isSound = true) (no_number : t.literal? = none) (sound' : u.isSound = true)
    (no_digit : nextIs Char.isDigit after = false) : u.isPlain = true := by
  by_contra signed
  cases u with
  | number literal =>
      have negative : literal.negative = true := by simpa [isPlain] using signed
      have not_word : t.isWord = false :=
        (fits.writable sound).isWord_eq (fits'.writable sound') same
      cases t with
      | punct q =>
          obtain ⟨rfl, -⟩ := Punct.eq_minus fits'.1 same
          obtain ⟨d, ds, digit, chars_eq⟩ := fits'.1.chars_eq
          simp only [chars, chars_eq, negative, if_true] at same
          obtain rfl : after = d :: (ds ++ after') := (List.cons.inj same).2
          exact absurd (digit.symm.trans no_digit) (by simp)
      | number literal => simp [literal?] at no_number
      | malformed literal tail => simp [isSound] at sound
      | _ => simp [isWord] at not_word
  | malformed literal tail => simp [isSound] at sound'
  | _ => simp [isPlain] at signed

namespace SpellsRest

variable {tokens tokens' : List Token} {text : List Char}

/-- No gap comes before the tokens. -/
theorem piece? (spells : SpellsRest tokens text) (sound : ∀ t ∈ tokens, t.isSound = true) :
    Gap.piece? text = none := by
  cases tokens with
  | nil =>
      obtain rfl := spells
      rfl
  | cons t tokens =>
      obtain ⟨after, rest, rfl, fits, -⟩ := spells
      exact (fits.writable (sound t (by simp))).piece? fits

theorem nextIs_digit (spells : SpellsRest tokens text) (sound : ∀ t ∈ tokens, t.isSound = true)
    (none : tokens.head?.bind Token.literal? = none) : nextIs Char.isDigit text = false := by
  cases tokens with
  | nil =>
      obtain rfl := spells
      rfl
  | cons t tokens =>
      obtain ⟨after, rest, rfl, fits, -⟩ := spells
      exact ((fits.writable (sound t (by simp))).nextIs_number (by simpa using none) after).1

/-- A text that is read as tokens without numbers is not read otherwise. -/
theorem eq_of_no_number (spells : SpellsRest tokens text) (spells' : SpellsRest tokens' text)
    (sound : ∀ t ∈ tokens, t.isSound = true) (no_number : ∀ t ∈ tokens, t.literal? = none)
    (sound' : ∀ t ∈ tokens', t.isSound = true) : tokens = tokens' := by
  induction tokens generalizing tokens' text with
  | nil =>
      obtain rfl := spells
      cases tokens' with
      | nil => rfl
      | cons t' tokens' =>
          obtain ⟨after', rest', text_eq, fits', -⟩ := spells'
          exact absurd (List.append_eq_nil_iff.mp text_eq.symm).1 (Token.chars_ne_nil fits')
  | cons t tokens ih =>
      obtain ⟨after, rest, rfl, fits, skips, others⟩ := spells
      obtain ⟨t_sound, tail_sound⟩ := List.forall_mem_cons.mp sound
      obtain ⟨t_none, tail_none⟩ := List.forall_mem_cons.mp no_number
      cases tokens' with
      | nil => exact absurd (List.append_eq_nil_iff.mp spells').1 (Token.chars_ne_nil fits)
      | cons t' tokens' =>
          obtain ⟨after', rest', text_eq, fits', skips', others'⟩ := spells'
          obtain ⟨t'_sound, tail_sound'⟩ := List.forall_mem_cons.mp sound'
          have no_digit : nextIs Char.isDigit after = false := by
            by_cases same : after = rest
            · rw [same]
              refine others.nextIs_digit tail_sound ?_
              cases tokens with
              | nil => rfl
              | cons u tokens => exact tail_none u (by simp)
            · exact (skips.nextIs same).1
          have plain := Token.isPlain_of_literal?_eq_none t_sound t_none
          have plain' := Token.isPlain_of_fits text_eq fits fits' t_sound t_none t'_sound no_digit
          obtain rfl := Token.eq_of_fits text_eq fits fits' plain plain'
          obtain rfl := List.append_cancel_left text_eq
          have rest_eq : rest = rest' :=
            (skips.rest_skipFrom (others.piece? tail_sound) .start).symm.trans
              (skips'.rest_skipFrom (others'.piece? tail_sound') .start)
          rw [ih others (rest_eq ▸ others') tail_sound tail_none tail_sound']

end SpellsRest

/-- Whether no gap stands between a piece and a later one. -/
def Piece.touches (x : Piece) : Bool :=
  x.lexeme.next.cursor == x.lexeme.stop || x.lexeme.next.isEnd

theorem Lexeme.touches_ofChars (p : Position) (text after : List Char) :
    (ofChars p text after).next.cursor = (ofChars p text after).stop ↔
      (ofChars p text after).next.rest = after := by
  obtain ⟨gap, after_eq, cursor_eq⟩ :=
    Position.leadsTo_skipGap ⟨p.cursor.advance text, after⟩
  simp only [ofChars] at *
  constructor
  · intro same
    have none : gap = [] := by
      by_contra nonempty
      have later := Cursor.offset_lt_advance (p.cursor.advance text) nonempty
      rw [← cursor_eq, same] at later
      exact Nat.lt_irrefl _ later
    rw [none] at after_eq
    exact after_eq.symm
  · intro same
    have none : gap = [] := by
      rw [same] at after_eq
      exact List.self_eq_append_left.mp after_eq
    rw [cursor_eq, none, Cursor.advance_nil]

/-- The number that pieces start with, its sign included, and how many pieces it takes. -/
def Piece.number? : List Piece → Option (Literal × Nat)
  | [] => none
  | x :: xs =>
    match x.token with
    | .number literal => some (literal, 1)
    | .punct .minus =>
      if x.touches then
        (xs.head?.bind (·.token.literal?)).map fun l => ({ l with negative := true }, 2)
      else none
    | _ => none

/-- A number that stands at a position is found there. -/
theorem Piece.At.number_eq {x : Piece} {p : Position} {literal : Literal} (here : x.At p)
    (token_eq : x.token = .number literal) : p.number = .number literal.value x.lexeme := by
  obtain ⟨after, rest_eq, fits, lexeme_eq⟩ := here
  rw [token_eq] at rest_eq fits lexeme_eq
  simp only [Token.chars] at rest_eq lexeme_eq
  simp only [Position.number, rest_eq, fits.1.read? fits.2, fits.2, lexeme_eq]
  rfl

/-- A minus sign that touches a number is found as the sign of the number. -/
theorem Piece.At.number_of_minus {x y : Piece} {p : Position} {literal : Literal} (here : x.At p)
    (next : y.At x.lexeme.next) (minus : x.token = .punct .minus) (touches : x.touches = true)
    (token_eq : y.token = .number literal) (plain : literal.negative = false) :
    ∃ lexeme, lexeme.next = y.lexeme.next ∧
      p.number = .number ({ literal with negative := true } : Literal).value lexeme := by
  obtain ⟨after, rest_eq, -, lexeme_eq⟩ := here
  obtain ⟨after', rest_eq', fits', lexeme_eq'⟩ := next
  rw [minus] at rest_eq lexeme_eq
  rw [token_eq] at rest_eq' fits' lexeme_eq'
  have more : x.lexeme.next.isEnd = false := by
    have nonempty := Token.chars_ne_nil fits'
    simp [Position.isEnd, rest_eq', nonempty]
  have stop_eq : x.lexeme.next.cursor = x.lexeme.stop := by
    simpa [Piece.touches, more] using touches
  have after_eq : x.lexeme.next.rest = after := by
    rw [lexeme_eq] at stop_eq ⊢
    exact (Lexeme.touches_ofChars ..).mp stop_eq
  let signed : Literal := { literal with negative := true }
  have chars_eq : signed.chars = '-' :: literal.chars := by simp [signed, Literal.chars, plain]
  have text_eq : p.rest = signed.chars ++ after' := by
    rw [rest_eq, ← after_eq, rest_eq', chars_eq]
    rfl
  have unspoiled : signed.spoiledBy after' = false := fits'.2
  refine ⟨Lexeme.ofChars p signed.chars after', ?_, ?_⟩
  · have cursor_eq : x.lexeme.next.cursor = p.cursor.step '-' := by
      rw [stop_eq, lexeme_eq]
      rfl
    rw [lexeme_eq', chars_eq]
    simp only [Lexeme.ofChars, Token.chars, Cursor.advance_cons, cursor_eq]
  · have formed : signed.WellFormed := fits'.1
    simp only [Position.number, text_eq, formed.read? unspoiled, unspoiled]
    rfl

namespace Spelled

variable {p e : Position} {xs : List Piece}

/-- The number that pieces start with is found. -/
theorem number_of_some (spelled : Spelled p xs e) (plain : ∀ x ∈ xs, x.token.isPlain = true)
    {literal : Literal} {count : Nat} (found : Piece.number? xs = some (literal, count)) :
    ∃ lexeme, p.number = .number literal.value lexeme ∧ Spelled p (xs.take count) lexeme.next := by
  fun_cases Piece.number? xs with
  | case1 => simp [Piece.number?] at found
  | case2 x xs l token_eq =>
      simp only [Piece.number?, token_eq, Option.some.injEq, Prod.mk.injEq] at found
      obtain ⟨rfl, rfl⟩ := found
      exact ⟨x.lexeme, spelled.1.number_eq token_eq, spelled.1, rfl⟩
  | case3 x xs token_eq touches =>
      simp only [Piece.number?, token_eq, touches, if_true, Option.map_eq_some_iff,
        Option.bind_eq_some_iff] at found
      obtain ⟨l, ⟨y, head_eq, literal_eq⟩, both⟩ := found
      obtain ⟨rfl, rfl⟩ := Prod.mk.inj both
      obtain ⟨ys, rfl⟩ := List.head?_eq_some_iff.mp head_eq
      have number : y.token = .number l := by
        cases token : y.token <;> simp_all [Token.literal?]
      have unsigned : l.negative = false := by
        have y_plain := plain y (by simp)
        simpa [number, Token.isPlain] using y_plain
      obtain ⟨lexeme, next_eq, number_eq⟩ :=
        spelled.1.number_of_minus spelled.2.1 token_eq touches number unsigned
      exact ⟨lexeme, number_eq, spelled.1, spelled.2.1, next_eq.symm⟩
  | case4 x xs token_eq apart => simp [Piece.number?, token_eq, apart] at found
  | case5 x xs no_number no_minus =>
      unfold Piece.number? at found
      split at found
      · exact absurd ‹_› (no_number _)
      · exact absurd ‹_› no_minus
      · simp at found

/-- Where pieces start with no digit, the text does not. -/
theorem nextIs_digit (spelled : Spelled p xs e) (ends : e.rest = [])
    (plain : ∀ x ∈ xs, x.token.isPlain = true)
    (none : xs.head?.bind (·.token.literal?) = none) : nextIs Char.isDigit p.rest = false := by
  cases xs with
  | nil =>
      obtain rfl := spelled
      rw [ends]
      rfl
  | cons x xs =>
      obtain ⟨after, rest_eq, fits, -⟩ := spelled.1
      have writable := fits.writable (Token.isSound_of_isPlain (plain x (by simp)))
      rw [rest_eq]
      exact (writable.nextIs_number (by simpa using none) after).1

/-- Where pieces start with no number, none is found. -/
theorem number_of_none (spelled : Spelled p xs e) (ends : e.rest = [])
    (plain : ∀ x ∈ xs, x.token.isPlain = true) (none : Piece.number? xs = none) :
    p.number = .absent := by
  have absent : Literal.read? p.rest = Option.none := by
    cases xs with
    | nil =>
        obtain rfl := spelled
        rw [ends]
        rfl
    | cons x xs =>
        obtain ⟨here, others⟩ := spelled
        have others_plain : ∀ y ∈ xs, y.token.isPlain = true := fun y member =>
          plain y (by simp [member])
        obtain ⟨after, rest_eq, fits, lexeme_eq⟩ := here
        have writable := fits.writable (Token.isSound_of_isPlain (plain x (by simp)))
        by_cases minus : x.token = .punct .minus
        · -- The sign stands alone: a gap follows it, or another token than a number.
          have no_digit : nextIs Char.isDigit after = false := by
            by_cases same : after = x.lexeme.next.rest
            · have stop_eq := (Lexeme.touches_ofChars p x.token.chars after).mpr
                (lexeme_eq ▸ same.symm)
              rw [← lexeme_eq] at stop_eq
              simp only [Piece.number?, minus, Piece.touches, stop_eq, beq_self_eq_true,
                Bool.true_or, if_true, Option.map_eq_none_iff] at none
              rw [same]
              exact others.nextIs_digit ends others_plain none
            · rw [lexeme_eq] at same
              exact ((Position.skips_skipGap ⟨_, after⟩).nextIs same).1
          rw [rest_eq, minus]
          exact Literal.read?_eq_none no_digit
        · have other : x.token.literal? = Option.none := by
            cases token_eq : x.token <;> simp_all [Token.literal?, Piece.number?]
          obtain ⟨no_digit, no_sign⟩ := writable.nextIs_number other after
          rw [rest_eq]
          refine Literal.read?_eq_none ?_
          rw [no_sign minus]
          exact no_digit
  simp only [Position.number, absent]

end Spelled

/-! ## Texts with the same lexemes -/

/-- Two plain pieces of the same token, both or neither with a gap after it. -/
structure Piece.Like (x y : Piece) : Prop where
  token : x.token = y.token
  touches : x.touches = y.touches
  plain : x.token.isPlain = true

theorem Piece.Like.symm {x y : Piece} (like : x.Like y) : y.Like x :=
  ⟨like.token.symm, like.touches.symm, like.token ▸ like.plain⟩

section Like

variable {xs ys : List Piece}

theorem plain_of_like (like : List.Forall₂ Piece.Like xs ys) :
    ∀ x ∈ xs, x.token.isPlain = true := by
  induction like with
  | nil => simp
  | cons head _ ih => simpa [head.plain] using ih

theorem symm_of_like (like : List.Forall₂ Piece.Like xs ys) : List.Forall₂ Piece.Like ys xs :=
  (like.imp fun _ _ => Piece.Like.symm).flip

theorem tokens_of_like (like : List.Forall₂ Piece.Like xs ys) :
    xs.map Piece.token = ys.map Piece.token := by
  induction like with
  | nil => rfl
  | cons head _ ih => simp [head.token, ih]

theorem number?_of_like (like : List.Forall₂ Piece.Like xs ys) :
    Piece.number? xs = Piece.number? ys := by
  cases like with
  | nil => rfl
  | @cons x y xs ys head tail =>
      have next_eq : xs.head?.bind (·.token.literal?) = ys.head?.bind (·.token.literal?) := by
        cases tail with
        | nil => rfl
        | cons head' _ => simp [head'.token]
      simp only [Piece.number?, head.token, head.touches, next_eq]

end Like

/-- Plain pieces lead from the start of a text to a position, and from there to its end. -/
structure Cut (start p : Position) (xs ys : List Piece) : Prop where
  before : Spelled start xs p
  after : ∃ e, Spelled p ys e ∧ e.rest = []

theorem Cut.move {start p q : Position} {xs ys : List Piece} (cut : Cut start p xs ys) (count : Nat)
    (read : Spelled p (ys.take count) q) : Cut start q (xs ++ ys.take count) (ys.drop count) := by
  obtain ⟨e, spelled, ends⟩ := cut.after
  rw [← List.take_append_drop count ys] at spelled
  obtain ⟨r, first, second⟩ := spelled.split
  obtain rfl := first.unique read
  exact ⟨cut.before.append read, e, second, ends⟩

/-- Like pieces stand before two positions of two texts, and like pieces after them. -/
def Matching (start start' p p' : Position) : Prop :=
  ∃ xs xs' ys ys', Cut start p xs ys ∧ Cut start' p' xs' ys' ∧
    List.Forall₂ Piece.Like xs xs' ∧ List.Forall₂ Piece.Like ys ys'

namespace Matching

variable {start start' p p' q q' : Position}

theorem symm (here : Matching start start' p p') : Matching start' start p' p := by
  obtain ⟨xs, xs', ys, ys', cut, cut', before, after⟩ := here
  exact ⟨xs', xs, ys', ys, cut', cut, symm_of_like before, symm_of_like after⟩

theorem isEnd (here : Matching start start' p p') : p.isEnd = p'.isEnd := by
  obtain ⟨-, -, ys, ys', ⟨-, e, spelled, ends⟩, ⟨-, e', spelled', ends'⟩, -, after⟩ := here
  have more {p : Position} {x : Piece} (here : x.At p) : p.isEnd = false := by
    have positive := here.length_lt
    cases rest_eq : p.rest with
    | nil => simp [rest_eq] at positive
    | cons c rest => simp [Position.isEnd, rest_eq]
  cases after with
  | nil =>
      obtain rfl := spelled
      obtain rfl := spelled'
      simp [Position.isEnd, ends, ends']
  | cons => rw [more spelled.1, more spelled'.1]

theorem terminal (here : Matching start start' p p') (t : Terminal) :
    Option.Rel (fun l l' => l.text = l'.text ∧ Matching start start' l.next l'.next)
      (t.match? p) (t.match? p') := by
  obtain ⟨xs, xs', ys, ys', cut, cut', before, after⟩ := here
  -- A terminal finds the piece that stands there or nothing.
  have only {p : Position} {x : Piece} (here : x.At p) (plain : x.token.isPlain = true)
      (refused : ¬ t.Accepts x.token) : t.match? p = none := by
    by_contra present
    obtain ⟨lexeme, found⟩ := Option.ne_none_iff_exists'.mp present
    obtain ⟨z, accepts, -, there⟩ := Terminal.match?_spec found
    obtain rfl : z = x := there.eq_of_isPlain here accepts.isPlain plain
    exact refused accepts
  cases after with
  | nil =>
      obtain ⟨e, spelled, ends⟩ := cut.after
      obtain ⟨e', spelled', ends'⟩ := cut'.after
      obtain rfl := spelled
      obtain rfl := spelled'
      rw [t.match?_nil ends, t.match?_nil ends']
      exact .none
  | @cons y y' ys ys' head tail =>
      obtain ⟨e, spelled, -⟩ := cut.after
      obtain ⟨e', spelled', -⟩ := cut'.after
      by_cases accepts : t.Accepts y.token
      · rw [t.match?_of_at accepts spelled.1, t.match?_of_at (head.token ▸ accepts) spelled'.1]
        refine .some ⟨by rw [y.text_eq, y'.text_eq, head.token], ?_⟩
        exact ⟨_, _, _, _, cut.move 1 ⟨spelled.1, rfl⟩, cut'.move 1 ⟨spelled'.1, rfl⟩,
          List.rel_append before (.cons head .nil), tail⟩
      · rw [only spelled.1 head.plain accepts,
          only spelled'.1 head.symm.plain (head.token ▸ accepts)]
        exact .none

theorem number (here : Matching start start' p p') :
    p.number.Parallel (Matching start start') p'.number := by
  obtain ⟨xs, xs', ys, ys', cut, cut', before, after⟩ := here
  obtain ⟨e, spelled, ends⟩ := cut.after
  obtain ⟨e', spelled', ends'⟩ := cut'.after
  have plain := plain_of_like after
  have plain' := plain_of_like (symm_of_like after)
  have same := number?_of_like after
  cases found : Piece.number? ys with
  | none =>
      rw [spelled.number_of_none ends plain found,
        spelled'.number_of_none ends' plain' (same ▸ found)]
      trivial
  | some result =>
      obtain ⟨literal, count⟩ := result
      obtain ⟨lexeme, number_eq, read⟩ := spelled.number_of_some plain found
      obtain ⟨lexeme', number_eq', read'⟩ := spelled'.number_of_some plain' (same ▸ found)
      rw [number_eq, number_eq']
      exact ⟨rfl, _, _, _, _, cut.move count read, cut'.move count read',
        List.rel_append before (List.forall₂_take count after), List.forall₂_drop count after⟩

theorem offset_eq (here : Matching start start' p p') (there : Matching start start' q q')
    (same : p.cursor.offset = q.cursor.offset) : p'.cursor.offset = q'.cursor.offset := by
  obtain ⟨xs, xs', -, -, ⟨before, -⟩, ⟨before', -⟩, like, -⟩ := here
  obtain ⟨zs, zs', -, -, ⟨early, -⟩, ⟨early', -⟩, like', -⟩ := there
  obtain rfl := before.leadsTo.eq_of_offset early.leadsTo same
  obtain rfl := before.eq_of_isPlain early (plain_of_like like) (plain_of_like like')
  rw [before'.eq_of_tokens early' ((tokens_of_like like).symm.trans (tokens_of_like like'))]

/-- Scans find the same in two texts of like pieces. -/
theorem corresponds (start start' : Position) : Corresponds (Matching start start') where
  terminal t here := here.terminal t
  number here := here.number
  offset here there := ⟨here.offset_eq there, here.symm.offset_eq there.symm⟩
  isEnd here := here.isEnd

end Matching

end Formwork
