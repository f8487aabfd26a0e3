import Mathlib.Data.List.TakeWhile
import Formwork.Grammar.Phrase
import Formwork.Proofs.Position
import Formwork.Token.Number

/-!
# Texts as tokens

A piece is a token together with its lexeme. `Spelled p pieces q` says that the pieces stand one
after another from `p` to `q`, each followed by a gap, and `Spells tokens text` says the same of a
whole text without naming places. Every scan that succeeds gives a piece.
-/

namespace Formwork

/-! ## Tokens -/

/-- Digits before a point, if there is one, and digits after it. -/
def Literal.WellFormed (l : Literal) : Prop :=
  l.whole ≠ [] ∧ (∀ c ∈ l.whole, c.isDigit = true) ∧ ∀ c ∈ l.fraction, c.isDigit = true

/-- Whether a word can be used as a name. -/
def isName (word : List Char) : Bool :=
  nextIs isWordStart word && word.all isWordChar && !Keyword.isReserved word

/-- What a text is made of besides gaps. -/
inductive Token where
  | keyword (k : Keyword)
  | punct (q : Punct)
  | identifier (name : String)
  | number (literal : Literal)
  /-- A number literal and the characters that spoil it. -/
  | malformed (literal : Literal) (tail : List Char)

namespace Token

/-- How a token is written. -/
def chars : Token → List Char
  | .keyword k => k.chars
  | .punct q => q.chars
  | .identifier name => name.toList
  | .number literal => literal.chars
  | .malformed literal tail => literal.chars ++ tail

/-- Whether a token can stand in a text right before `after`. -/
def Fits : Token → List Char → Prop
  | .keyword _, after => nextIs isWordChar after = false
  | .punct q, after => nextIs (fun c => q.mustNotFollow.toList.contains c) after = false
  | .identifier name, after => isName name.toList = true ∧ nextIs isWordChar after = false
  | .number literal, after => literal.WellFormed ∧ literal.spoiledBy after = false
  | .malformed literal tail, after =>
      literal.WellFormed ∧ literal.spoiledBy (tail ++ after) = true ∧
        tail = Literal.spoiledTail (tail ++ after)

/-- Whether a token is anything but a malformed number. -/
def isSound : Token → Bool
  | .malformed .. => false
  | _ => true

theorem chars_ne_nil {t : Token} {after : List Char} (fits : t.Fits after) : t.chars ≠ [] := by
  cases t with
  | keyword k => cases k <;> decide
  | punct q => cases q <;> decide
  | identifier name =>
      intro empty
      simp only [chars] at empty
      simp [Fits, isName, empty, nextIs] at fits
  | number literal => simp [chars, Literal.chars, fits.1.1]
  | malformed literal tail => simp [chars, Literal.chars, fits.1.1]

end Token

/-- Whether a terminal stands for a token. -/
def Terminal.Accepts : Terminal → Token → Prop
  | .keyword k, token => token = .keyword k
  | .punct q, token => token = .punct q
  | .identifier, token => ∃ name, token = .identifier name

/-! ## Pieces -/

/-- A token with its lexeme. -/
structure Piece where
  /-- The token. -/
  token : Token
  /-- The token as it stands in a text. -/
  lexeme : Lexeme
  /-- The lexeme has the characters of the token. -/
  text_eq : lexeme.text = String.ofList token.chars

/-- A piece stands at a position. -/
def Piece.At (x : Piece) (p : Position) : Prop :=
  ∃ after,
    p.rest = x.token.chars ++ after ∧ x.token.Fits after ∧
      x.lexeme = Lexeme.ofChars p x.token.chars after

namespace Piece.At

variable {x : Piece} {p : Position}

theorem leadsTo (here : x.At p) : p.LeadsTo x.lexeme.next := by
  obtain ⟨after, rest_eq, -, lexeme_eq⟩ := here
  rw [lexeme_eq]
  exact Position.LeadsTo.trans ⟨x.token.chars, rest_eq, rfl⟩ (Position.leadsTo_skipGap _)

theorem length_lt (here : x.At p) : x.lexeme.next.rest.length < p.rest.length := by
  obtain ⟨after, rest_eq, fits, lexeme_eq⟩ := here
  have positive := List.length_pos_iff.mpr (Token.chars_ne_nil fits)
  have skipped := (Position.leadsTo_skipGap ⟨p.cursor.advance x.token.chars, after⟩).length_le
  rw [lexeme_eq, rest_eq, List.length_append]
  simp only [Lexeme.ofChars] at skipped ⊢
  omega

theorem start_eq (here : x.At p) : x.lexeme.start = p.cursor := by
  obtain ⟨after, -, -, lexeme_eq⟩ := here
  rw [lexeme_eq]
  rfl

end Piece.At

/-- Pieces stand one after another between two positions. -/
def Spelled : Position → List Piece → Position → Prop
  | p, [], q => p = q
  | p, x :: xs, q => x.At p ∧ Spelled x.lexeme.next xs q

namespace Spelled

@[simp]
theorem nil_iff {p q : Position} : Spelled p [] q ↔ p = q := Iff.rfl

@[simp]
theorem singleton_iff {p q : Position} {x : Piece} :
    Spelled p [x] q ↔ x.At p ∧ x.lexeme.next = q := Iff.rfl

theorem append {p q r : Position} {xs ys : List Piece} (first : Spelled p xs q)
    (second : Spelled q ys r) : Spelled p (xs ++ ys) r := by
  induction xs generalizing p with
  | nil =>
      obtain rfl := first
      exact second
  | cons x xs ih => exact ⟨first.1, ih first.2⟩

/-- Pieces lead to one place only. -/
theorem unique {p q r : Position} {xs : List Piece} (first : Spelled p xs q)
    (second : Spelled p xs r) : q = r := by
  induction xs generalizing p with
  | nil => exact first.symm.trans second
  | cons x xs ih => exact ih first.2 second.2

theorem split {p r : Position} {xs ys : List Piece} (both : Spelled p (xs ++ ys) r) :
    ∃ q, Spelled p xs q ∧ Spelled q ys r := by
  induction xs generalizing p with
  | nil => exact ⟨p, rfl, both⟩
  | cons x xs ih =>
      obtain ⟨q, first, second⟩ := ih both.2
      exact ⟨q, ⟨both.1, first⟩, second⟩

theorem leadsTo {p q : Position} {xs : List Piece} (spelled : Spelled p xs q) : p.LeadsTo q := by
  induction xs generalizing p with
  | nil =>
      obtain rfl := spelled
      exact .refl p
  | cons x xs ih => exact spelled.1.leadsTo.trans (ih spelled.2)

theorem length_lt {p q : Position} {xs : List Piece} (spelled : Spelled p xs q)
    (nonempty : xs ≠ []) : q.rest.length < p.rest.length := by
  cases xs with
  | nil => exact absurd rfl nonempty
  | cons x xs =>
      have first := spelled.1.length_lt
      have others := (leadsTo spelled.2).length_le
      omega

end Spelled

/-- Tokens with gaps after them make up a text. -/
def SpellsRest : List Token → List Char → Prop
  | [], text => text = []
  | t :: ts, text =>
      ∃ after rest, text = t.chars ++ after ∧ t.Fits after ∧ Gap.Skips after rest ∧
        SpellsRest ts rest

/-- A text is a gap followed by tokens, each with a gap after it. -/
def Spells (tokens : List Token) (text : List Char) : Prop :=
  ∃ rest, Gap.Skips text rest ∧ SpellsRest tokens rest

theorem Spelled.spellsRest {p q : Position} {xs : List Piece} (spelled : Spelled p xs q)
    (ends : q.rest = []) : SpellsRest (xs.map Piece.token) p.rest := by
  induction xs generalizing p with
  | nil =>
      obtain rfl := spelled
      exact ends
  | cons x xs ih =>
      obtain ⟨⟨after, rest_eq, fits, lexeme_eq⟩, others⟩ := spelled
      refine ⟨after, x.lexeme.next.rest, rest_eq, fits, ?_, ih others⟩
      rw [lexeme_eq]
      exact Position.skips_skipGap ⟨p.cursor.advance x.token.chars, after⟩

/-! ## Scans give pieces -/

theorem Position.literal?_eq_some {p : Position} {wanted : List Char} {barred : Char → Bool}
    {lexeme : Lexeme} :
    p.literal? wanted barred = some lexeme ↔
      ∃ after, p.rest = wanted ++ after ∧ nextIs barred after = false ∧
        lexeme = Lexeme.ofChars p wanted after := by
  unfold Position.literal?
  constructor
  · intro found
    split at found
    · exact absurd found (by simp)
    · rename_i after stripped
      split at found
      · exact absurd found (by simp)
      · rename_i free
        exact ⟨after, stripChars?_eq_some.mp stripped, by simpa using free,
          (Option.some.inj found).symm⟩
  · rintro ⟨after, rest_eq, free, rfl⟩
    rw [stripChars?_eq_some.mpr rest_eq]
    simp [free]

theorem Position.wordChars_spec {p : Position} (found : p.wordChars ≠ []) :
    nextIs isWordStart p.wordChars = true ∧ p.wordChars.all isWordChar = true ∧
      p.rest = p.wordChars ++ p.rest.dropWhile isWordChar := by
  unfold Position.wordChars at *
  split at found
  · rename_i starts
    simp only [starts, if_true]
    refine ⟨?_, List.all_takeWhile, List.takeWhile_append_dropWhile.symm⟩
    cases rest_eq : p.rest with
    | nil => simp [rest_eq, nextIs] at starts
    | cons c rest =>
        rw [rest_eq] at found starts
        rw [List.takeWhile_cons] at found ⊢
        split
        · exact starts
        · simp_all
  · exact absurd rfl found

theorem Position.identifier?_spec {p : Position} {lexeme : Lexeme}
    (found : p.identifier? = some lexeme) :
    ∃ name text_eq, Piece.At ⟨.identifier name, lexeme, text_eq⟩ p := by
  unfold Position.identifier? at found
  split at found
  · exact absurd found (by simp)
  · rename_i nonempty
    split at found
    · exact absurd found (by simp)
    · rename_i free
      obtain ⟨starts, continues, rest_eq⟩ := Position.wordChars_spec nonempty
      refine ⟨String.ofList p.wordChars, ?_, p.rest.dropWhile isWordChar, ?_, ?_, ?_⟩
      · simpa [Token.chars, Lexeme.ofChars] using
          congrArg Lexeme.text (Option.some.inj found).symm
      · simpa [Token.chars] using rest_eq
      · refine ⟨?_, nextIs_dropWhile _ _⟩
        simp only [isName, String.toList_ofList, starts, continues, Bool.and_true, Bool.true_and]
        simpa using free
      · simpa [Token.chars] using (Option.some.inj found).symm

/-- A terminal that is found gives a piece. -/
theorem Terminal.match?_spec {t : Terminal} {p : Position} {lexeme : Lexeme}
    (found : t.match? p = some lexeme) :
    ∃ x : Piece, t.Accepts x.token ∧ x.lexeme = lexeme ∧ x.At p := by
  cases t with
  | keyword k =>
      obtain ⟨after, rest_eq, free, lexeme_eq⟩ := Position.literal?_eq_some.mp found
      exact ⟨⟨.keyword k, lexeme, congrArg Lexeme.text lexeme_eq⟩, rfl, rfl, after, rest_eq, free,
        lexeme_eq⟩
  | punct q =>
      obtain ⟨after, rest_eq, free, lexeme_eq⟩ := Position.literal?_eq_some.mp found
      exact ⟨⟨.punct q, lexeme, congrArg Lexeme.text lexeme_eq⟩, rfl, rfl, after, rest_eq, free,
        lexeme_eq⟩
  | identifier =>
      obtain ⟨name, text_eq, here⟩ := Position.identifier?_spec found
      exact ⟨⟨.identifier name, lexeme, text_eq⟩, ⟨name, rfl⟩, rfl, here⟩

namespace Literal

theorem fraction?_spec (text : List Char) :
    (∀ c ∈ (fraction? text).1, c.isDigit = true) ∧
      text = (if (fraction? text).1.isEmpty then [] else '.' :: (fraction? text).1) ++
        (fraction? text).2 := by
  unfold fraction?
  split
  · rename_i rest
    split
    · simp
    · rename_i digits nonempty
      refine ⟨fun c member => List.mem_takeWhile_imp member, ?_⟩
      have shown : (rest.takeWhile Char.isDigit).isEmpty = false := by
        simpa using nonempty
      simp [shown]
  · simp

/-- The longest literal at the start of a text is well formed. -/
theorem read?_spec {text rest : List Char} {l : Literal} (found : read? text = some (l, rest)) :
    l.WellFormed ∧ text = l.chars ++ rest := by
  unfold read? at found
  simp only at found
  split at found
  · exact absurd found (by simp)
  · rename_i whole nonempty
    obtain ⟨rfl, rfl⟩ := Prod.mk.inj (Option.some.inj found)
    have fraction := fraction?_spec
      ((if nextIs (· == '-') text then text.drop 1 else text).dropWhile Char.isDigit)
    refine ⟨⟨fun none => nonempty none, fun c member => List.mem_takeWhile_imp member,
      fraction.1⟩, ?_⟩
    simp only [chars]
    rw [List.append_assoc, List.append_assoc, ← fraction.2, List.takeWhile_append_dropWhile]
    split
    · rename_i signed
      cases text with
      | nil => simp [nextIs] at signed
      | cons c text =>
          obtain rfl : c = '-' := by simpa [nextIs] using signed
          rfl
    · rfl

end Literal

theorem Literal.spoiledTail_spec (rest : List Char) :
    rest = spoiledTail rest ++ rest.drop (spoiledTail rest).length := by
  fun_induction spoiledTail rest with
  | case1 => rfl
  | case2 c rest _ ih => simpa using ih
  | case3 c rest _ => rfl

/-- A number that is found gives a piece and its value. -/
theorem Position.number_spec {p : Position} {value : Float} {lexeme : Lexeme}
    (found : p.number = .number value lexeme) :
    ∃ literal text_eq, value = literal.value ∧ Piece.At ⟨.number literal, lexeme, text_eq⟩ p := by
  unfold Position.number at found
  split at found
  · exact absurd found (by simp)
  · rename_i literal rest read
    obtain ⟨formed, rest_eq⟩ := Literal.read?_spec read
    split at found
    · exact absurd found (by simp)
    · rename_i unspoiled
      obtain ⟨rfl, rfl⟩ := NumberScan.number.inj found
      exact ⟨literal, rfl, rfl, rest, rest_eq, ⟨formed, by simpa using unspoiled⟩, rfl⟩

/-- A malformed number that is found gives a piece and the place where it goes wrong. -/
theorem Position.malformed_spec {p : Position} {bad : Cursor} {lexeme : Lexeme}
    (found : p.number = .malformed bad lexeme) :
    ∃ literal tail text_eq, bad = p.cursor.advance literal.chars ∧
      Piece.At ⟨.malformed literal tail, lexeme, text_eq⟩ p := by
  unfold Position.number at found
  split at found
  · exact absurd found (by simp)
  · rename_i literal rest read
    obtain ⟨formed, rest_eq⟩ := Literal.read?_spec read
    split at found
    · rename_i spoiled
      obtain ⟨rfl, rfl⟩ := NumberScan.malformed.inj found
      have tail_eq := Literal.spoiledTail_spec rest
      refine ⟨literal, Literal.spoiledTail rest, rfl, rfl,
        rest.drop (Literal.spoiledTail rest).length, ?_, ?_, rfl⟩
      · simp only [Token.chars]
        rw [List.append_assoc, ← tail_eq, rest_eq]
      · simp only [Token.Fits]
        rw [← tail_eq]
        exact ⟨formed, spoiled, rfl⟩
    · exact absurd found (by simp)

end Formwork
