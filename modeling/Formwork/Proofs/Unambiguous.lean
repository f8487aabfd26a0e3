import Formwork.Proofs.Lexemes
import Formwork.Proofs.Recovery

/-!
# Lexemes are unambiguous

No pass cuts a text into tokens: every scan looks for one token at one place. Still no two scans
find something at the same place, but for a minus sign and a number that starts with it
(`Scan.unique`). Punctuation that is found is the longest that starts there, and a word is either a
name or one keyword. So the order in which scans are tried decides nothing else:
`Position.lexemes_unambiguous`.
-/

namespace Formwork

/-- What can be looked for at a position. -/
inductive Scan where
  | terminal (t : Terminal)
  | number
deriving DecidableEq

/-- Whether a lexeme starts with a minus sign. -/
def Lexeme.isSigned (lexeme : Lexeme) : Bool := nextIs (· == '-') lexeme.text.toList

namespace Scan

/-- The lexeme that is found, of a malformed number too. -/
def find? (scan : Scan) (p : Position) : Option Lexeme :=
  match scan with
  | .terminal t => t.match? p
  | .number =>
    match p.number with
    | .absent => none
    | .number _ lexeme | .malformed _ lexeme => some lexeme

/-- The first of several scans that finds something, with its lexeme. -/
def firstOf? (scans : List Scan) (p : Position) : Option (Scan × Lexeme) :=
  scans.findSome? fun scan => (scan.find? p).map fun lexeme => (scan, lexeme)

end Scan

/-! ## Two scans at one place -/

section

variable {p : Position} {lexeme lexeme' : Lexeme}

theorem Literal.WellFormed.isSigned {literal : Literal} (formed : literal.WellFormed)
    (tail : List Char) (text_eq : lexeme.text = String.ofList (literal.chars ++ tail)) :
    lexeme.isSigned = literal.negative := by
  obtain ⟨d, ds, digit, chars_eq⟩ := formed.chars_eq
  have unsigned : (d == '-') = false := by simpa using (digit_spec digit).2.2.2.2
  rw [Lexeme.isSigned, text_eq, String.toList_ofList, chars_eq]
  cases literal.negative with
  | true => rfl
  | false => exact unsigned

/-- A number that is found starts with a literal, whose sign is the sign of the lexeme. -/
theorem Scan.number_spec (found : Scan.number.find? p = some lexeme) :
    ∃ (literal : Literal) (after : List Char), literal.WellFormed ∧
      p.rest = literal.chars ++ after ∧ lexeme.isSigned = literal.negative := by
  simp only [find?] at found
  split at found
  · exact absurd found (by simp)
  · rename_i value _ scanned
    obtain rfl := Option.some.inj found
    obtain ⟨literal, text_eq, -, after, rest_eq, fits, -⟩ := Position.number_spec scanned
    refine ⟨literal, after, fits.1, rest_eq, fits.1.isSigned [] ?_⟩
    rw [List.append_nil]
    exact text_eq
  · rename_i bad _ scanned
    obtain rfl := Option.some.inj found
    obtain ⟨literal, tail, text_eq, -, after, rest_eq, fits, -⟩ := Position.malformed_spec scanned
    refine ⟨literal, tail ++ after, fits.1, ?_, fits.1.isSigned tail text_eq⟩
    rw [← List.append_assoc]
    exact rest_eq

theorem Terminal.eq_of_accepts {t u : Terminal} {token : Token} (accepts : t.Accepts token)
    (accepts' : u.Accepts token) : t = u := by
  cases t <;> cases u <;> simp_all [Accepts]

/-- Only one terminal is found at a place. -/
theorem Terminal.eq_of_match? {t u : Terminal} (found : t.match? p = some lexeme)
    (found' : u.match? p = some lexeme') : t = u := by
  obtain ⟨x, accepts, -, here⟩ := match?_spec found
  obtain ⟨y, accepts', -, there⟩ := match?_spec found'
  obtain rfl := here.eq_of_isPlain there accepts.isPlain accepts'.isPlain
  exact eq_of_accepts accepts accepts'

/-- A terminal that is found where a number is found is the minus sign of the number. -/
theorem Terminal.eq_minus {t : Terminal} (found : t.match? p = some lexeme)
    (number : Scan.number.find? p = some lexeme') :
    t = .punct .minus ∧ lexeme'.isSigned = true := by
  obtain ⟨x, accepts, -, after, rest_eq, fits, -⟩ := match?_spec found
  obtain ⟨literal, after', formed, rest_eq', signed⟩ := Scan.number_spec number
  have same : x.token.chars ++ after = (Token.number literal).chars ++ after' :=
    rest_eq.symm.trans rest_eq'
  have writable : (Token.number literal).Writable := formed
  have no_word : x.token.isWord = false := (accepts.writable fits).isWord_eq writable same
  cases t with
  | keyword k => simp [show x.token = _ from accepts, Token.isWord] at no_word
  | identifier =>
      obtain ⟨name, token_eq⟩ := accepts
      simp [token_eq, Token.isWord] at no_word
  | punct q =>
      rw [show x.token = _ from accepts] at same
      obtain ⟨rfl, negative⟩ := Punct.eq_minus formed same
      exact ⟨rfl, signed.trans negative⟩

/-- Two scans that find something at one place are the same, or a minus sign and its number. -/
theorem Scan.unique {scan scan' : Scan} (found : scan.find? p = some lexeme)
    (found' : scan'.find? p = some lexeme') :
    scan = scan' ∨
      (∃ number, Scan.number.find? p = some number ∧ number.isSigned = true) ∧
        (scan = .number ∧ scan' = .terminal (.punct .minus) ∨
          scan = .terminal (.punct .minus) ∧ scan' = .number) := by
  cases scan with
  | terminal t =>
      cases scan' with
      | terminal u => exact .inl (congrArg _ (Terminal.eq_of_match? found found'))
      | number =>
          obtain ⟨rfl, signed⟩ := Terminal.eq_minus found found'
          exact .inr ⟨⟨_, found', signed⟩, .inr ⟨rfl, rfl⟩⟩
  | number =>
      cases scan' with
      | terminal u =>
          obtain ⟨rfl, signed⟩ := Terminal.eq_minus found' found
          exact .inr ⟨⟨_, found, signed⟩, .inl ⟨rfl, rfl⟩⟩
      | number => exact .inl rfl

/-- The first scan that finds something is the one that does, if there is only one. -/
theorem Scan.firstOf?_eq_some_iff {scans : List Scan} {scan : Scan}
    (only : ∀ a ∈ scans, ∀ b ∈ scans, (a.find? p).isSome = true → (b.find? p).isSome = true →
      a = b) :
    firstOf? scans p = some (scan, lexeme) ↔ scan ∈ scans ∧ scan.find? p = some lexeme := by
  have sound {scan : Scan} {lexeme : Lexeme} (first : firstOf? scans p = some (scan, lexeme)) :
      scan ∈ scans ∧ scan.find? p = some lexeme := by
    obtain ⟨a, member, result⟩ := List.exists_of_findSome?_eq_some first
    obtain ⟨found, find_eq, same⟩ := Option.map_eq_some_iff.mp result
    obtain ⟨rfl, rfl⟩ := Prod.mk.inj same
    exact ⟨member, find_eq⟩
  refine ⟨sound, ?_⟩
  rintro ⟨member, found⟩
  have some_found : (firstOf? scans p).isSome = true := by
    rw [firstOf?, List.findSome?_isSome_iff]
    exact ⟨scan, member, by rw [found]; rfl⟩
  obtain ⟨⟨other, lexeme'⟩, first⟩ := Option.isSome_iff_exists.mp some_found
  obtain ⟨member', found'⟩ := sound first
  obtain rfl := only other member' scan member (by simp [found']) (by simp [found])
  rw [first, Option.some.inj (found'.symm.trans found)]

/-! ## Punctuation and words -/

/-- Punctuation that is found is the longest that starts there. -/
theorem Position.punct?_longest {q : Punct} (found : p.punct? q = some lexeme) :
    q.chars <+: p.rest ∧ ∀ r : Punct, r.chars <+: p.rest → r.chars.length ≤ q.chars.length := by
  obtain ⟨after, rest_eq, free, -⟩ := Position.literal?_eq_some.mp found
  refine ⟨⟨after, rest_eq.symm⟩, fun r starts => ?_⟩
  by_contra shorter
  -- `q` starts the longer `r`, so the next character of `r` bars `q`
  obtain ⟨more, longer⟩ : q.chars <+: r.chars :=
    List.prefix_of_prefix_length_le ⟨after, rest_eq.symm⟩ starts (Nat.le_of_not_le shorter)
  obtain ⟨after', rest_eq'⟩ := starts
  rcases Punct.longer q r ⟨more, longer⟩ with rfl | barred
  · exact shorter le_rfl
  · have after_eq : after = more ++ after' := by
      rw [rest_eq, ← longer, List.append_assoc] at rest_eq'
      exact (List.append_cancel_left rest_eq').symm
    rw [← longer, List.drop_left] at barred
    rw [after_eq, nextIs_append barred] at free
    exact absurd free (by simp)

/-- A word is a name and no keyword, or one keyword and no name. -/
theorem Position.name_or_keyword (starts : nextIs isWordStart p.rest = true) :
    (p.identifier?.isSome = true ∧ ∀ k, p.keyword? k = none) ∨
      (p.identifier? = none ∧ ∃! k, (p.keyword? k).isSome = true) := by
  have nonempty : p.wordChars ≠ [] := by
    cases rest_eq : p.rest with
    | nil => simp [rest_eq, nextIs] at starts
    | cons c rest =>
        rw [rest_eq] at starts
        have continues : isWordChar c = true := isWordChar_iff.mpr (.inl starts)
        simp [wordChars, rest_eq, starts, continues]
  obtain ⟨-, -, rest_eq⟩ := wordChars_spec nonempty
  have name_eq : p.identifier? = if Keyword.isReserved p.wordChars then none
      else some (Lexeme.ofChars p p.wordChars (p.rest.dropWhile isWordChar)) := by
    unfold identifier?
    split
    · rename_i none
      exact absurd none nonempty
    · rfl
  by_cases reserved : Keyword.isReserved p.wordChars = true
  · obtain ⟨k, word_eq⟩ := Keyword.isReserved_iff.mp reserved
    have found := literal?_eq_some.mpr
      ⟨_, word_eq ▸ rest_eq, nextIs_dropWhile isWordChar p.rest, rfl⟩
    refine .inr ⟨by rw [name_eq, if_pos reserved], k, Option.isSome_of_eq_some found, ?_⟩
    intro other present
    obtain ⟨lexeme, found'⟩ := Option.isSome_iff_exists.mp present
    have same_terminal : Terminal.keyword other = .keyword k :=
      Terminal.eq_of_match? found' found
    exact Terminal.keyword.inj same_terminal
  · rw [if_neg reserved] at name_eq
    refine .inl ⟨Option.isSome_of_eq_some name_eq, fun k => ?_⟩
    by_contra present
    obtain ⟨lexeme, found⟩ := Option.ne_none_iff_exists'.mp present
    have same_terminal : Terminal.keyword k = .identifier := Terminal.eq_of_match? found name_eq
    exact absurd same_terminal (by simp)

/-- No punctuation and no number is found where a word starts. -/
theorem Scan.none_of_word (starts : nextIs isWordStart p.rest = true) :
    (∀ q, p.punct? q = none) ∧ Scan.number.find? p = none := by
  obtain ⟨t, lexeme, found, no_punct⟩ : ∃ (t : Terminal) (lexeme : Lexeme),
      t.match? p = some lexeme ∧ ∀ q, t ≠ .punct q := by
    rcases Position.name_or_keyword starts with ⟨name, -⟩ | ⟨-, k, keyword, -⟩
    · obtain ⟨lexeme, found⟩ := Option.isSome_iff_exists.mp name
      exact ⟨.identifier, lexeme, found, by simp⟩
    · obtain ⟨lexeme, found⟩ := Option.isSome_iff_exists.mp keyword
      exact ⟨.keyword k, lexeme, found, by simp⟩
  refine ⟨fun q => ?_, ?_⟩
  · by_contra present
    obtain ⟨lexeme', found'⟩ := Option.ne_none_iff_exists'.mp present
    exact no_punct q (Terminal.eq_of_match? (u := .punct q) found found')
  · by_contra present
    obtain ⟨lexeme', found'⟩ := Option.ne_none_iff_exists'.mp present
    exact no_punct .minus (Terminal.eq_minus found found').1

/-- Scans tried in another order find the same, unless a minus sign and its number are among
them. -/
theorem Scan.firstOf?_eq {scans scans' : List Scan} (same : ∀ scan, scan ∈ scans ↔ scan ∈ scans')
    (apart : .number ∈ scans → .terminal (.punct .minus) ∈ scans →
      ∀ lexeme, Scan.number.find? p = some lexeme → lexeme.isSigned = false) :
    firstOf? scans p = firstOf? scans' p := by
  have only : ∀ a ∈ scans, ∀ b ∈ scans, (a.find? p).isSome = true → (b.find? p).isSome = true →
      a = b := by
    intro a member b member' found found'
    obtain ⟨lexeme, found⟩ := Option.isSome_iff_exists.mp found
    obtain ⟨lexeme', found'⟩ := Option.isSome_iff_exists.mp found'
    rcases Scan.unique found found' with equal | ⟨⟨number, read, signed⟩, pair⟩
    · exact equal
    · have unsigned : number.isSigned = false := by
        rcases pair with ⟨rfl, rfl⟩ | ⟨rfl, rfl⟩
        · exact apart member member' number read
        · exact apart member' member number read
      exact absurd (signed.symm.trans unsigned) (by simp)
  refine Option.ext fun ⟨scan, lexeme⟩ => ?_
  rw [firstOf?_eq_some_iff only, firstOf?_eq_some_iff, same scan]
  exact fun a member b member' => only a ((same a).mpr member) b ((same b).mpr member')

end

/--
Lexemes are unambiguous at every cursor of a source. At most one punctuation token is found, and it
is the longest that starts there. Where a word starts, a name is found and no keyword or one keyword
and no name, and neither punctuation nor a number. Where a number is found, well-formed or not, the
only punctuation that can be found is the minus sign of the number. So scans tried in any order find
the same, unless a number that starts with a minus sign stands there and both are among them.
-/
theorem Position.lexemes_unambiguous (source : Source) (place : Cursor) (before after : List Char)
    (divides : place.Divides source before after) :
    let p := Position.seek source place
    (∀ q, (p.punct? q).isSome = true →
      (∀ r, (p.punct? r).isSome = true → r = q) ∧ q.chars <+: after ∧
        ∀ r : Punct, r.chars <+: after → r.chars.length ≤ q.chars.length) ∧
    (nextIs isWordStart after = true →
      ((p.identifier?.isSome = true ∧ ∀ k, p.keyword? k = none) ∨
        (p.identifier? = none ∧ ∃! k, (p.keyword? k).isSome = true)) ∧
      (∀ q, p.punct? q = none) ∧ Scan.number.find? p = none) ∧
    (∀ lexeme, Scan.number.find? p = some lexeme →
      ∀ q, (p.punct? q).isSome = true → q = .minus ∧ lexeme.isSigned = true) ∧
    ∀ scans scans' : List Scan, (∀ scan, scan ∈ scans ↔ scan ∈ scans') →
      (.number ∈ scans → .terminal (.punct .minus) ∈ scans →
        ∀ lexeme, Scan.number.find? p = some lexeme → lexeme.isSigned = false) →
      Scan.firstOf? scans p = Scan.firstOf? scans' p := by
  intro p
  have rest_eq : p.rest = after := congrArg Position.rest divides.seek_eq
  rw [← rest_eq]
  refine ⟨fun q present => ?_, fun starts => ⟨name_or_keyword starts, Scan.none_of_word starts⟩,
    fun lexeme number q present => ?_, fun scans scans' same apart => Scan.firstOf?_eq same apart⟩
  · obtain ⟨lexeme, found⟩ := Option.isSome_iff_exists.mp present
    refine ⟨fun r present' => ?_, punct?_longest found⟩
    obtain ⟨lexeme', found'⟩ := Option.isSome_iff_exists.mp present'
    have same_terminal : Terminal.punct r = .punct q := Terminal.eq_of_match? found' found
    exact Terminal.punct.inj same_terminal
  · obtain ⟨lexeme', found⟩ := Option.isSome_iff_exists.mp present
    have minus : Terminal.punct q = .punct .minus ∧ lexeme.isSigned = true :=
      Terminal.eq_minus found number
    exact ⟨Terminal.punct.inj minus.1, minus.2⟩

/-- A malformed number with a minus sign, where that sign is the only other token. -/
theorem Position.lexemes_unambiguous_signed :
    let p := Position.seek ⟨"t", "é-1.5.2 fun"⟩ ⟨2, 1, 2⟩
    let minus : Scan := .terminal (.punct .minus)
    (∀ r, (p.punct? r).isSome = true → r = .minus) ∧
      (∃ lexeme, Scan.number.find? p = some lexeme ∧ lexeme.isSigned = true) ∧
      Scan.firstOf? [.number, minus] p ≠ Scan.firstOf? [minus, .number] p ∧
      Scan.firstOf? [.number, .terminal .identifier] p =
        Scan.firstOf? [.terminal .identifier, .number] p := by
  intro p minus
  have divides : Cursor.Divides ⟨2, 1, 2⟩ ⟨"t", "é-1.5.2 fun"⟩ "é".toList "-1.5.2 fun".toList :=
    ⟨by decide, by decide, by decide, by decide⟩
  obtain ⟨punct, -, number, order⟩ := lexemes_unambiguous _ _ _ _ divides
  have found : (p.punct? .minus).isSome = true := by decide
  have number_found : (Scan.number.find? p).isSome = true := by decide +kernel
  obtain ⟨lexeme, read⟩ := Option.isSome_iff_exists.mp number_found
  refine ⟨(punct .minus found).1, ⟨lexeme, read, (number lexeme read .minus found).2⟩,
    by decide +kernel, order _ _ (fun scan => ?_) (by simp)⟩
  simp [or_comm]

end Formwork
