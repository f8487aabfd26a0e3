import Formwork.Json.Reader
import Formwork.Json.Writer
import Mathlib.Data.List.TakeWhile
import Mathlib.Tactic.IntervalCases

/-!
# How documents are spelled

What the texts of a JSON document are, said without a reader: blanks may stand around every token,
numerals and strings have many spellings. `Document.Spelled` follows the document. Every text of a
document is read as that document: `Document.read?_of_spelled`. What is written without blanks is
one of its texts: `Document.Proper.spelled_compactChars`.
-/

namespace Formwork

namespace Json

open Reader

/-! ## Numerals -/

/-- A nonempty run of digits. -/
def IsRun (text : List Char) : Prop := text ≠ [] ∧ ∀ c ∈ text, c.isDigit = true

/-- A text that does not go on with a character of some kind. -/
def StartsNot (p : Char → Prop) (text : List Char) : Prop := ∀ c ∈ text.head?, ¬ p c

/-- The characters that a numeral can go on with. -/
def Continues (c : Char) : Prop := c.isDigit = true ∨ c = '.' ∨ c = 'e' ∨ c = 'E'

/-- The texts of the digits after the point. -/
inductive SpelledFraction : List Char → List Char → Prop
  | absent : SpelledFraction [] []
  | present {digits : List Char} (run : IsRun digits) : SpelledFraction digits ('.' :: digits)

/-- The texts of an exponent. -/
inductive SpelledExponent : Option (Bool × List Char) → List Char → Prop
  | absent : SpelledExponent none []
  | bare {mark : Char} {digits : List Char} (mark_eq : mark = 'e' ∨ mark = 'E')
      (run : IsRun digits) : SpelledExponent (some (false, digits)) (mark :: digits)
  | plus {mark : Char} {digits : List Char} (mark_eq : mark = 'e' ∨ mark = 'E')
      (run : IsRun digits) : SpelledExponent (some (false, digits)) (mark :: '+' :: digits)
  | minus {mark : Char} {digits : List Char} (mark_eq : mark = 'e' ∨ mark = 'E')
      (run : IsRun digits) : SpelledExponent (some (true, digits)) (mark :: '-' :: digits)

/-- The texts of a numeral: no digit may follow a leading zero. -/
structure Numeral.Spelled (n : Numeral) (text : List Char) : Prop where
  whole : IsRun n.whole
  leading : n.whole.head? = some '0' → n.whole = ['0']
  parts : ∃ fraction exponent, SpelledFraction n.fraction fraction ∧
    SpelledExponent n.exponent exponent ∧
    text = (if n.negative then ['-'] else []) ++ (n.whole ++ (fraction ++ exponent))

theorem StartsNot.imp {p q : Char → Prop} {text : List Char} (starts : StartsNot p text)
    (weaker : ∀ c, q c → p c) : StartsNot q text :=
  fun c head holds => starts c head (weaker c holds)

theorem startsNot_cons {p : Char → Prop} {c : Char} {text : List Char} (other : ¬ p c) :
    StartsNot p (c :: text) := by
  rintro d ⟨⟩
  exact other

theorem IsRun.exists_cons {run : List Char} (spelled : IsRun run) :
    ∃ c tail, run = c :: tail ∧ c.isDigit = true := by
  obtain ⟨c, tail, rfl⟩ := List.exists_cons_of_ne_nil spelled.1
  exact ⟨c, tail, rfl, spelled.2 c List.mem_cons_self⟩

theorem digits?_append {run rest : List Char} (spelled : IsRun run)
    (ends : StartsNot (fun c => c.isDigit = true) rest) :
    digits? (run ++ rest) = some (run, rest) := by
  have taken : rest.takeWhile Char.isDigit = [] := by
    cases rest with
    | nil => rfl
    | cons c rest => simp [ends c rfl]
  have left : rest.dropWhile Char.isDigit = rest := by
    cases rest with
    | nil => rfl
    | cons c rest => simp [ends c rfl]
  unfold digits?
  rw [List.takeWhile_append_of_pos spelled.2, List.dropWhile_append_of_pos spelled.2, taken, left,
    List.append_nil]
  obtain ⟨c, tail, rfl, -⟩ := spelled.exists_cons
  rfl

theorem whole?_append {run rest : List Char} (spelled : IsRun run)
    (leading : run.head? = some '0' → run = ['0'])
    (ends : StartsNot (fun c => c.isDigit = true) rest) :
    whole? (run ++ rest) = some (run, rest) := by
  unfold whole?
  rw [digits?_append spelled ends]
  split
  · rename_i found
    obtain ⟨rfl, -⟩ := Prod.mk.inj (Option.some.inj found)
    simpa using leading rfl
  · rfl

theorem SpelledFraction.fraction?_append {fraction text rest : List Char}
    (spelled : SpelledFraction fraction text)
    (ends : StartsNot (fun c => c.isDigit = true ∨ c = '.') rest) :
    fraction? (text ++ rest) = some (fraction, rest) := by
  cases spelled with
  | absent =>
      rw [List.nil_append]
      unfold fraction?
      split
      · exact absurd (.inr rfl) (ends '.' rfl)
      · rfl
  | present run => exact digits?_append run (ends.imp fun _ => .inl)

theorem signed?_append {run rest : List Char} (spelled : IsRun run)
    (ends : StartsNot (fun c => c.isDigit = true) rest) :
    signed? (run ++ rest) = some ((false, run), rest) := by
  have digits := digits?_append spelled ends
  obtain ⟨c, tail, rfl, digit⟩ := spelled.exists_cons
  unfold signed?
  split
  · rename_i start
    obtain ⟨rfl, -⟩ := List.cons.inj start
    simp at digit
  · rename_i start
    obtain ⟨rfl, -⟩ := List.cons.inj start
    simp at digit
  · rw [digits]
    rfl

theorem SpelledExponent.exponent?_append {exponent : Option (Bool × List Char)}
    {text rest : List Char} (spelled : SpelledExponent exponent text)
    (ends : StartsNot Continues rest) : exponent? (text ++ rest) = some (exponent, rest) := by
  have ends' : StartsNot (fun c => c.isDigit = true) rest := ends.imp fun _ => .inl
  cases spelled with
  | absent =>
      rw [List.nil_append]
      unfold exponent?
      split
      · exact absurd (by simp [Continues]) (ends 'e' rfl)
      · exact absurd (by simp [Continues]) (ends 'E' rfl)
      · rfl
  | bare mark_eq run =>
      obtain rfl | rfl := mark_eq <;> simp [exponent?, signed?_append run ends']
  | plus mark_eq run =>
      obtain rfl | rfl := mark_eq <;> simp [exponent?, signed?, digits?_append run ends']
  | minus mark_eq run =>
      obtain rfl | rfl := mark_eq <;> simp [exponent?, signed?, digits?_append run ends']

/-- What follows the digits of a numeral goes on with no digit. -/
theorem SpelledFraction.startsNot {fraction text rest : List Char}
    (spelled : SpelledFraction fraction text)
    (ends : StartsNot (fun c => c.isDigit = true) rest) :
    StartsNot (fun c => c.isDigit = true) (text ++ rest) := by
  cases spelled with
  | absent => exact ends
  | present => exact startsNot_cons (by simp)

theorem SpelledExponent.startsNot {exponent : Option (Bool × List Char)} {text rest : List Char}
    (spelled : SpelledExponent exponent text) (ends : StartsNot Continues rest) :
    StartsNot (fun c => c.isDigit = true ∨ c = '.') (text ++ rest) := by
  have other {mark : Char} (mark_eq : mark = 'e' ∨ mark = 'E') :
      ¬ (mark.isDigit = true ∨ mark = '.') := by
    obtain rfl | rfl := mark_eq <;> simp
  cases spelled with
  | absent => exact ends.imp fun c => Or.imp_right .inl
  | bare mark_eq => exact startsNot_cons (other mark_eq)
  | plus mark_eq => exact startsNot_cons (other mark_eq)
  | minus mark_eq => exact startsNot_cons (other mark_eq)

namespace Numeral.Spelled

variable {n : Numeral} {text rest : List Char}

/-- The first character of a numeral. -/
theorem exists_cons (spelled : n.Spelled text) :
    ∃ c tail, text = c :: tail ∧ (c = '-' ∨ c.isDigit = true) := by
  obtain ⟨whole, -, fraction, exponent, -, -, rfl⟩ := spelled
  obtain ⟨c, tail, same, digit⟩ := whole.exists_cons
  cases n.negative with
  | true => exact ⟨'-', _, rfl, .inl rfl⟩
  | false => exact ⟨c, _, by rw [same]; rfl, .inr digit⟩

theorem numeral?_append (spelled : n.Spelled text) (ends : StartsNot Continues rest) :
    numeral? (text ++ rest) = some (n, rest) := by
  obtain ⟨negative, whole, fraction, exponent⟩ := n
  obtain ⟨run, leading, fractionText, exponentText, fraction_eq, exponent_eq, rfl⟩ := spelled
  dsimp only at run leading fraction_eq exponent_eq
  have after := exponent_eq.startsNot ends
  have read : unsigned? negative (whole ++ (fractionText ++ (exponentText ++ rest))) =
      some (⟨negative, whole, fraction, exponent⟩, rest) := by
    simp [unsigned?, whole?_append run leading (fraction_eq.startsNot (after.imp fun _ => .inl)),
      fraction_eq.fraction?_append after, exponent_eq.exponent?_append ends]
  cases negative with
  | true => simpa [numeral?] using read
  | false =>
      simp only [Bool.false_eq_true, ↓reduceIte, List.nil_append, List.append_assoc]
      unfold numeral?
      split
      · rename_i start
        obtain ⟨c, tail, rfl, digit⟩ := run.exists_cons
        obtain ⟨rfl, -⟩ := List.cons.inj start
        simp at digit
      · exact read

end Numeral.Spelled

/-! ## Strings -/

namespace Text

/-- The texts of the items of a string. -/
inductive Spelled : List Piece → List Char → Prop
  | nil : Spelled [] []
  | char {pieces : List Piece} {text : List Char} {c : Char} (plain : c ≠ '"' ∧ c ≠ '\\')
      (visible : 32 ≤ c.toNat) (rest : Spelled pieces text) :
      Spelled (.char c :: pieces) (c :: text)
  | escape {pieces : List Piece} {text : List Char} {letter c : Char}
      (named : escaped? letter = some c) (rest : Spelled pieces text) :
      Spelled (.char c :: pieces) ('\\' :: letter :: text)
  | unit {pieces : List Piece} {text : List Char} {a b c d : Char} {n : Nat}
      (named : unit? a b c d = some n) (rest : Spelled pieces text) :
      Spelled (.unit n :: pieces) ('\\' :: 'u' :: a :: b :: c :: d :: text)

theorem Spelled.pieces?_append {pieces : List Piece} {text : List Char}
    (spelled : Spelled pieces text) (rest : List Char) :
    pieces? (text ++ '"' :: rest) = some (pieces, rest) := by
  induction spelled with
  | nil => rfl
  | char plain visible _ ih =>
      rw [List.cons_append, pieces?.eq_def]
      split <;> simp_all
  | @escape _ _ letter c named _ ih =>
      have other : letter ≠ 'u' := by
        rintro rfl
        simp [escaped?] at named
      simp [pieces?, other, named, ih]
  | unit named _ ih => simp [pieces?, named, ih]

/-- The texts of a string between its quotes. -/
def Quoted (content : Option String) (text : List Char) : Prop :=
  ∃ pieces body, Spelled pieces body ∧ content = (join? pieces).map String.ofList ∧
    text = '"' :: (body ++ ['"'])

theorem Quoted.exists_cons {content : Option String} {text : List Char}
    (quoted : Quoted content text) :
    ∃ body, text = '"' :: body ∧ ∀ rest, read? (body ++ rest) = some (content, rest) := by
  obtain ⟨pieces, body, spelled, rfl, rfl⟩ := quoted
  refine ⟨body ++ ['"'], rfl, fun rest => ?_⟩
  simp [read?, spelled.pieces?_append]

end Text

/-! ## Documents -/

/-- Nothing but blanks. -/
def IsBlank (text : List Char) : Prop := ∀ c ∈ text, isBlank c = true

/-- A text with blanks around it. -/
def Padded (p : List Char → Prop) (text : List Char) : Prop :=
  ∃ before body after, IsBlank before ∧ p body ∧ IsBlank after ∧ text = before ++ (body ++ after)

/-- The texts of a member whose value has the texts `p`. -/
def SpelledMember (name : Option String) (p : List Char → Prop) (text : List Char) : Prop :=
  ∃ first second, Padded (Text.Quoted name) first ∧ Padded p second ∧ text = first ++ ':' :: second

namespace Document

mutual

/-- The texts of a document. -/
def Spelled : Document → List Char → Prop
  | .null, text => text = ['n', 'u', 'l', 'l']
  | .bool true, text => text = ['t', 'r', 'u', 'e']
  | .bool false, text => text = ['f', 'a', 'l', 's', 'e']
  | .number n, text => n.Spelled text
  | .string content, text => Text.Quoted content text
  | .array items, text => ∃ body, SpelledItems items body ∧ text = '[' :: (body ++ [']'])
  | .object members, text =>
      ∃ body, SpelledMembers members body ∧ text = '\x7b' :: (body ++ ['\x7d'])

/-- The texts of the items of an array. -/
def SpelledItems : List Document → List Char → Prop
  | [], text => IsBlank text
  | [item], text => Padded (Spelled item) text
  | item :: items, text =>
      ∃ first rest, Padded (Spelled item) first ∧ SpelledItems items rest ∧
        text = first ++ ',' :: rest

/-- The texts of the members of an object. -/
def SpelledMembers : List (Option String × Document) → List Char → Prop
  | [], text => IsBlank text
  | [(name, value)], text => SpelledMember name (Spelled value) text
  | (name, value) :: members, text =>
      ∃ first rest, SpelledMember name (Spelled value) first ∧ SpelledMembers members rest ∧
        text = first ++ ',' :: rest

end

/-- What holds of arrays and objects if it holds of what they contain. -/
theorem induct {motive : Document → Prop} (null : motive .null) (bool : ∀ b, motive (.bool b))
    (number : ∀ n, motive (.number n)) (string : ∀ text, motive (.string text))
    (array : ∀ items, (∀ d ∈ items, motive d) → motive (.array items))
    (object : ∀ members, (∀ m ∈ members, motive m.2) → motive (.object members))
    (d : Document) : motive d :=
  @Document.rec motive (fun items => ∀ d ∈ items, motive d)
    (fun members => ∀ m ∈ members, motive m.2) (fun m => motive m.2) null bool number string array
    object (by simp) (fun _ _ first rest => List.forall_mem_cons.mpr ⟨first, rest⟩) (by simp)
    (fun _ _ first rest => List.forall_mem_cons.mpr ⟨first, rest⟩) (fun _ _ value => value) d

end Document

/-! ## Reading -/

theorem trim_append {before : List Char} (blank : IsBlank before) (text : List Char) :
    trim (before ++ text) = trim text :=
  List.dropWhile_append_of_pos blank

theorem trim_cons {c : Char} (visible : isBlank c = false) (text : List Char) :
    trim (c :: text) = c :: text := by
  simp [trim, visible]

/-- Blanks in front make no difference to a value. -/
theorem value?_append {before : List Char} (blank : IsBlank before) (fuel : Nat)
    (text : List Char) : value? fuel (before ++ text) = value? fuel text := by
  cases fuel with
  | zero => rfl
  | succ fuel => rw [value?, value?, trim_append blank]

/-- A numeral does not go on with blanks. -/
theorem IsBlank.startsNot {after rest : List Char} (blank : IsBlank after)
    (ends : StartsNot Continues rest) : StartsNot Continues (after ++ rest) := by
  cases after with
  | nil => exact ends
  | cons b after =>
      refine startsNot_cons ?_
      have first := blank b List.mem_cons_self
      simp only [isBlank, Bool.or_eq_true, beq_iff_eq] at first
      obtain ((rfl | rfl) | rfl) | rfl := first <;> simp [Continues]

namespace Document

/-- Every text of a document starts with a character that is no blank and closes nothing. -/
theorem Spelled.exists_cons {d : Document} {text : List Char} (spelled : d.Spelled text) :
    ∃ c tail, text = c :: tail ∧ isBlank c = false ∧ c ≠ ']' := by
  cases d with
  | null =>
      obtain rfl : text = _ := spelled
      exact ⟨'n', _, rfl, by decide⟩
  | bool b =>
      cases b with
      | true =>
          obtain rfl : text = _ := spelled
          exact ⟨'t', _, rfl, by decide⟩
      | false =>
          obtain rfl : text = _ := spelled
          exact ⟨'f', _, rfl, by decide⟩
  | number n =>
      obtain ⟨c, tail, rfl, start⟩ := Numeral.Spelled.exists_cons spelled
      refine ⟨c, tail, rfl, ?_⟩
      obtain rfl | digit := start
      · decide
      · constructor
        · simp only [isBlank, Bool.or_eq_false_iff, beq_eq_false_iff_ne]
          refine ⟨⟨⟨?_, ?_⟩, ?_⟩, ?_⟩ <;> rintro rfl <;> simp at digit
        · rintro rfl
          simp at digit
  | string content =>
      obtain ⟨body, rfl, -⟩ := Text.Quoted.exists_cons spelled
      exact ⟨'"', _, rfl, by decide⟩
  | array items =>
      obtain ⟨body, -, rfl⟩ := spelled
      exact ⟨'[', _, rfl, by decide⟩
  | object members =>
      obtain ⟨body, -, rfl⟩ := spelled
      exact ⟨'\x7b', _, rfl, by decide⟩

theorem Spelled.exists_fuel {d : Document} {text : List Char} (spelled : d.Spelled text)
    {fuel : Nat} (bound : 2 * text.length ≤ fuel) : ∃ fuel', fuel = fuel' + 1 := by
  obtain ⟨c, tail, rfl, -⟩ := spelled.exists_cons
  exact Nat.exists_eq_add_one_of_ne_zero (by simp at bound; omega)

/--
Every text of a document is read as that document, whatever may follow it. An item takes two steps
of the reader, one for the array around it, and at least one character.
-/
def Reads (d : Document) : Prop :=
  ∀ {fuel : Nat} {text rest : List Char}, d.Spelled text → StartsNot Continues rest →
    2 * text.length ≤ fuel → value? fuel (text ++ rest) = some (d, rest)

/-- The same with blanks around the text, those after it being left. -/
theorem Reads.padded {d : Document} (reads : d.Reads) {text : List Char}
    (spelled : Padded d.Spelled text) (fuel : Nat) (bound : 2 * text.length ≤ fuel) (c : Char)
    (closing : ¬ Continues c) (rest : List Char) :
    ∃ left, value? fuel (text ++ c :: rest) = some (d, left) ∧ trim left = trim (c :: rest) := by
  obtain ⟨before, body, after, blank, spelled, blank', rfl⟩ := spelled
  simp only [List.length_append] at bound
  refine ⟨after ++ c :: rest, ?_, trim_append blank' _⟩
  rw [List.append_assoc, value?_append blank, List.append_assoc]
  exact reads spelled (blank'.startsNot (startsNot_cons closing)) (by omega)

theorem items?_append {items : List Document} (reads : ∀ d ∈ items, d.Reads)
    (nonempty : items ≠ []) {text : List Char} (spelled : SpelledItems items text) (fuel : Nat)
    (bound : 2 * text.length + 1 ≤ fuel) (rest : List Char) :
    items? fuel (text ++ ']' :: rest) = some (items, rest) := by
  induction items generalizing fuel text with
  | nil => exact absurd rfl nonempty
  | cons item items ih =>
      obtain ⟨fuel, rfl⟩ : ∃ fuel', fuel = fuel' + 1 := Nat.exists_eq_add_one_of_ne_zero (by omega)
      obtain ⟨first, others⟩ := List.forall_mem_cons.mp reads
      cases items with
      | nil =>
          obtain ⟨left, read, next⟩ :=
            first.padded spelled fuel (by omega) ']' (by simp [Continues]) rest
          rw [trim_cons (by decide)] at next
          simp [items?, read, next]
      | cons item' items =>
          obtain ⟨text, text', spelled, spelled', rfl⟩ := spelled
          simp only [List.length_append, List.length_cons] at bound
          obtain ⟨left, read, next⟩ :=
            first.padded spelled fuel (by omega) ',' (by simp [Continues]) (text' ++ ']' :: rest)
          rw [trim_cons (by decide)] at next
          have later := ih others (by simp) spelled' fuel (by omega)
          simp [items?, read, next, later]

/-- A member with its value. -/
theorem member_append {name : Option String} {d : Document} (reads : d.Reads) {text : List Char}
    (spelled : SpelledMember name d.Spelled text) (fuel : Nat) (bound : 2 * text.length ≤ fuel)
    (c : Char) (closing : ¬ Continues c) (rest : List Char) :
    ∃ content after value left, trim (text ++ c :: rest) = '"' :: content ∧
      Text.read? content = some (name, after) ∧ trim after = ':' :: value ∧
      value? fuel value = some (d, left) ∧ trim left = trim (c :: rest) := by
  obtain ⟨first, second, ⟨before, quoted, after, blank, spelled, blank', rfl⟩, spelled', rfl⟩ :=
    spelled
  obtain ⟨body, rfl, read⟩ := spelled.exists_cons
  simp only [List.length_append, List.length_cons] at bound
  obtain ⟨left, read', next⟩ := reads.padded spelled' fuel (by omega) c closing rest
  refine ⟨body ++ (after ++ ':' :: (second ++ c :: rest)), _, _, left, ?_, read _, ?_, read', next⟩
  · simp only [List.append_assoc, List.cons_append]
    rw [trim_append blank, trim_cons (by decide)]
  · rw [trim_append blank', trim_cons (by decide)]

theorem members?_append {members : List (Option String × Document)}
    (reads : ∀ m ∈ members, m.2.Reads) (nonempty : members ≠ []) {text : List Char}
    (spelled : SpelledMembers members text) (fuel : Nat) (bound : 2 * text.length + 1 ≤ fuel)
    (rest : List Char) :
    members? fuel (text ++ '\x7d' :: rest) = some (members, rest) := by
  induction members generalizing fuel text with
  | nil => exact absurd rfl nonempty
  | cons member members ih =>
      obtain ⟨name, value⟩ := member
      obtain ⟨fuel, rfl⟩ : ∃ fuel', fuel = fuel' + 1 := Nat.exists_eq_add_one_of_ne_zero (by omega)
      obtain ⟨first, others⟩ := List.forall_mem_cons.mp reads
      cases members with
      | nil =>
          obtain ⟨content, after, text', left, start, read, colon, read', next⟩ :=
            member_append first spelled fuel (by omega) '\x7d' (by simp [Continues]) rest
          rw [trim_cons (by decide)] at next
          simp [members?, start, read, colon, read', next]
      | cons member' members =>
          obtain ⟨text, text', spelled, spelled', rfl⟩ := spelled
          simp only [List.length_append, List.length_cons] at bound
          obtain ⟨content, after, text'', left, start, read, colon, read', next⟩ :=
            member_append first spelled fuel (by omega) ',' (by simp [Continues])
              (text' ++ '\x7d' :: rest)
          rw [trim_cons (by decide)] at next
          have later := ih others (by simp) spelled' fuel (by omega)
          simp [members?, start, read, colon, read', next, later]

theorem reads_number (n : Numeral) : (number n).Reads := by
  intro fuel text rest spelled ends bound
  obtain ⟨fuel, rfl⟩ := spelled.exists_fuel bound
  have read := Numeral.Spelled.numeral?_append spelled ends
  obtain ⟨c, tail, rfl, visible, -⟩ := Spelled.exists_cons spelled
  obtain ⟨_, _, same, start⟩ := Numeral.Spelled.exists_cons spelled
  obtain ⟨rfl, rfl⟩ := List.cons.inj same
  rw [List.cons_append] at read ⊢
  rw [value?, trim_cons visible]
  -- The first character rules out every other kind of value.
  split
  case h_7 => rw [read]; rfl
  all_goals
    rename_i found
    obtain ⟨rfl, -⟩ := List.cons.inj found
    simp at start

/-- After its opening bracket, an array that is not empty does not close at once. -/
theorem SpelledItems.exists_trim {items : List Document} (nonempty : items ≠ [])
    {text : List Char} (spelled : SpelledItems items text) (rest : List Char) :
    ∃ c tail, trim (text ++ rest) = c :: tail ∧ c ≠ ']' := by
  have first {d : Document} {text : List Char} (spelled : Padded d.Spelled text)
      (rest : List Char) : ∃ c tail, trim (text ++ rest) = c :: tail ∧ c ≠ ']' := by
    obtain ⟨before, body, after, blank, spelled, -, rfl⟩ := spelled
    obtain ⟨c, tail, rfl, visible, other⟩ := spelled.exists_cons
    refine ⟨c, tail ++ (after ++ rest), ?_, other⟩
    simp only [List.append_assoc, List.cons_append]
    rw [trim_append blank, trim_cons visible]
  match items, spelled with
  | [], _ => exact absurd rfl nonempty
  | [_], spelled => exact first spelled rest
  | _ :: _ :: _, spelled =>
      obtain ⟨_, _, head, -, rfl⟩ := spelled
      rw [List.append_assoc]
      exact first head _

theorem SpelledMembers.exists_trim {members : List (Option String × Document)}
    (nonempty : members ≠ []) {text : List Char} (spelled : SpelledMembers members text)
    (rest : List Char) : ∃ tail, trim (text ++ rest) = '"' :: tail := by
  have first {name : Option String} {d : Document} {text : List Char}
      (spelled : SpelledMember name d.Spelled text) (rest : List Char) :
      ∃ tail, trim (text ++ rest) = '"' :: tail := by
    obtain ⟨first, second, ⟨before, quoted, after, blank, spelled, -, rfl⟩, -, rfl⟩ := spelled
    obtain ⟨body, rfl, -⟩ := spelled.exists_cons
    refine ⟨body ++ (after ++ ':' :: (second ++ rest)), ?_⟩
    simp only [List.append_assoc, List.cons_append]
    rw [trim_append blank, trim_cons (by decide)]
  match members, spelled with
  | [], _ => exact absurd rfl nonempty
  | [(_, _)], spelled => exact first spelled rest
  | (_, _) :: _ :: _, spelled =>
      obtain ⟨_, _, head, -, rfl⟩ := spelled
      rw [List.append_assoc]
      exact first head _

theorem reads_array {items : List Document} (reads : ∀ d ∈ items, d.Reads) :
    (array items).Reads := by
  rintro fuel _ rest ⟨body, spelled, rfl⟩ - bound
  simp only [List.length_append, List.length_cons] at bound
  obtain ⟨fuel, rfl⟩ : ∃ fuel', fuel = fuel' + 1 := Nat.exists_eq_add_one_of_ne_zero (by omega)
  have opening (text : List Char) : trim ('[' :: text) = '[' :: text := trim_cons (by decide) text
  cases items with
  | nil =>
      have closing : trim (body ++ ']' :: rest) = ']' :: rest := by
        rw [trim_append spelled, trim_cons (by decide)]
      simp [value?, opening, closing]
  | cons item items =>
      have read := items?_append reads (by simp) spelled fuel (by omega) rest
      obtain ⟨c, tail, start, other⟩ := spelled.exists_trim (by simp) (']' :: rest)
      simp [value?, opening, start, other, read]

theorem reads_object {members : List (Option String × Document)}
    (reads : ∀ m ∈ members, m.2.Reads) : (object members).Reads := by
  rintro fuel _ rest ⟨body, spelled, rfl⟩ - bound
  simp only [List.length_append, List.length_cons] at bound
  obtain ⟨fuel, rfl⟩ : ∃ fuel', fuel = fuel' + 1 := Nat.exists_eq_add_one_of_ne_zero (by omega)
  have opening (text : List Char) : trim ('\x7b' :: text) = '\x7b' :: text :=
    trim_cons (by decide) text
  cases members with
  | nil =>
      have closing : trim (body ++ '\x7d' :: rest) = '\x7d' :: rest := by
        rw [trim_append spelled, trim_cons (by decide)]
      simp [value?, opening, closing]
  | cons member members =>
      have read := members?_append reads (by simp) spelled fuel (by omega) rest
      obtain ⟨tail, start⟩ := spelled.exists_trim (by simp) ('\x7d' :: rest)
      simp [value?, opening, start, read]

theorem reads (d : Document) : d.Reads := by
  induction d using Document.induct with
  | null =>
      intro fuel text rest spelled _ bound
      obtain ⟨fuel, rfl⟩ := spelled.exists_fuel bound
      obtain rfl : text = _ := spelled
      simp [value?, trim, isBlank, stripChars?]
  | bool b =>
      intro fuel text rest spelled _ bound
      obtain ⟨fuel, rfl⟩ := spelled.exists_fuel bound
      cases b with
      | true =>
          obtain rfl : text = _ := spelled
          simp [value?, trim, isBlank, stripChars?]
      | false =>
          obtain rfl : text = _ := spelled
          simp [value?, trim, isBlank, stripChars?]
  | number n => exact reads_number n
  | string content =>
      intro fuel text rest spelled _ bound
      obtain ⟨fuel, rfl⟩ := spelled.exists_fuel bound
      obtain ⟨body, rfl, read⟩ := Text.Quoted.exists_cons spelled
      simp [value?, trim, isBlank, read]
  | array items ih => exact reads_array ih
  | object members ih => exact reads_object ih

/-- Every text of a document, with blanks around it, is read as that document. -/
theorem read?_of_spelled {d : Document} {text : List Char} (spelled : Padded d.Spelled text) :
    Document.read? (String.ofList text) = some d := by
  obtain ⟨before, body, after, blank, spelled, blank', rfl⟩ := spelled
  have ends : StartsNot Continues (after ++ []) := blank'.startsNot (by simp [StartsNot])
  rw [List.append_nil] at ends
  have read : value? (2 * (before ++ (body ++ after)).length + 2) (before ++ (body ++ after)) =
      some (d, after) := by
    rw [value?_append blank]
    exact d.reads spelled ends (by simp only [List.length_append]; omega)
  have left : trim after = [] := List.dropWhile_eq_nil_iff.mpr blank'
  simp only [read?, String.toList_ofList, read, left, List.isEmpty_nil, ↓reduceIte]

end Document

/-! ## Writing -/

/-- A digit of a natural number is not a leading zero unless the number is zero. -/
theorem head?_toDigits {n : Nat} (positive : 0 < n) : (Nat.toDigits 10 n).head? ≠ some '0' := by
  induction n using Nat.strongRecOn with
  | _ n ih =>
      rw [Nat.toDigits_eq_if (by decide)]
      split
      · rename_i small
        interval_cases n <;> decide
      · rename_i large
        have first := ih (n / 10) (Nat.div_lt_self positive (by decide)) (by omega)
        obtain ⟨c, tail, same⟩ := List.exists_cons_of_ne_nil (Nat.toDigits_ne_nil (n := n / 10))
        rw [same] at first ⊢
        exact first

theorem Digits.value_ofNat (n : Nat) : Digits.value (Digits.ofNat n) = n :=
  Nat.ofDigitChars_ten_toDigits

theorem Numeral.spelled_ofNat (n : Nat) : (Numeral.ofNat n).Spelled (Numeral.ofNat n).chars where
  whole := ⟨Nat.toDigits_ne_nil, fun _ => Nat.isDigit_of_mem_toDigits (by decide) (by decide)⟩
  leading := by
    intro zero
    cases n with
    | zero => rfl
    | succ n => exact absurd zero (head?_toDigits (by omega))
  parts := ⟨[], [], .absent, .absent, by simp [Numeral.ofNat, Numeral.chars]⟩

namespace Text

theorem unit?_hexDigit {n : Nat} (small : n < 32) :
    unit? '0' '0' (hexDigit (n / 16)) (hexDigit (n % 16)) = some n := by
  interval_cases n <;> decide

/-- A piece is written as the given text and stands for one character. -/
structure Writes (piece : Piece) (text : List Char) (c : Char) : Prop where
  spelled : ∀ {pieces rest}, Spelled pieces rest → Spelled (piece :: pieces) (text ++ rest)
  joined : ∀ pieces, join? (piece :: pieces) = (join? pieces).map (c :: ·)

/-- How a character is written inside a string stands for the character. -/
theorem exists_writes_escapeChar (c : Char) : ∃ piece, Writes piece (escapeChar c) c := by
  have letter {l : Char} (named : escaped? l = some c) : ∃ piece, Writes piece ['\\', l] c :=
    ⟨.char c, .escape named, fun _ => rfl⟩
  unfold escapeChar
  split_ifs with quote slash back tab line form carriage control
  iterate 7
    · subst_vars
      exact letter rfl
  · refine ⟨.unit c.toNat, .unit (unit?_hexDigit control), fun pieces => ?_⟩
    -- A control character is no half of a surrogate pair, so it stands for itself.
    have low : isLow c.toNat = false := by simp [isLow]; omega
    have high : isHigh c.toNat = false := by simp [isHigh]; omega
    rw [join?.eq_def]
    simp [low, high, Char.ofNat_toNat]
  · exact ⟨.char c, .char ⟨quote, slash⟩ (Nat.le_of_not_lt control), fun _ => rfl⟩

theorem quoted_quote (text : String) : Quoted (some text) (quote text) := by
  have all (chars : List Char) :
      ∃ pieces, Spelled pieces (chars.flatMap escapeChar) ∧ join? pieces = some chars := by
    induction chars with
    | nil => exact ⟨[], .nil, rfl⟩
    | cons c chars ih =>
        obtain ⟨pieces, spelled, joined⟩ := ih
        obtain ⟨piece, writes⟩ := exists_writes_escapeChar c
        exact ⟨piece :: pieces, writes.spelled spelled, by rw [writes.joined, joined]; rfl⟩
  obtain ⟨pieces, spelled, joined⟩ := all text.toList
  exact ⟨pieces, _, spelled, by simp [joined], rfl⟩

end Text

/-- A text is one with no blanks around it. -/
theorem padded_self {p : List Char → Prop} {text : List Char} (holds : p text) : Padded p text :=
  ⟨[], text, [], by simp [IsBlank], holds, by simp [IsBlank], by simp⟩

namespace Document

/-- A document that can be written: its numerals are in order and its strings are texts. -/
inductive Proper : Document → Prop
  | null : Proper .null
  | bool (b : Bool) : Proper (.bool b)
  | number {n : Numeral} (spelled : n.Spelled n.chars) : Proper (.number n)
  | string (text : String) : Proper (.string (some text))
  | array {items : List Document} (items_proper : ∀ d ∈ items, Proper d) : Proper (.array items)
  | object {members : List (Option String × Document)} (names : ∀ m ∈ members, m.1.isSome)
      (values : ∀ m ∈ members, Proper m.2) : Proper (.object members)

theorem spelledItems_compactItems {items : List Document}
    (spelled : ∀ d ∈ items, d.Spelled d.compactChars) :
    SpelledItems items (compactItems items) := by
  induction items with
  | nil => simp [SpelledItems, compactItems, IsBlank]
  | cons item items ih =>
      obtain ⟨first, others⟩ := List.forall_mem_cons.mp spelled
      cases items with
      | nil => exact padded_self first
      | cons item' items => exact ⟨_, _, padded_self first, ih others, rfl⟩

theorem spelledMembers_compactMembers {members : List (Option String × Document)}
    (names : ∀ m ∈ members, m.1.isSome) (spelled : ∀ m ∈ members, m.2.Spelled m.2.compactChars) :
    SpelledMembers members (compactMembers members) := by
  induction members with
  | nil => simp [SpelledMembers, compactMembers, IsBlank]
  | cons member members ih =>
      obtain ⟨name, value⟩ := member
      obtain ⟨named, named'⟩ := List.forall_mem_cons.mp names
      obtain ⟨first, others⟩ := List.forall_mem_cons.mp spelled
      obtain ⟨name, rfl⟩ := Option.isSome_iff_exists.mp named
      have member : SpelledMember (some name) value.Spelled
          (quoted (some name) ++ ':' :: value.compactChars) :=
        ⟨_, _, padded_self (Text.quoted_quote name), padded_self first, rfl⟩
      cases members with
      | nil => exact member
      | cons member' members => exact ⟨_, _, member, ih named' others, by simp [compactMembers]⟩

/-- What is written without blanks is one of the texts of the document. -/
theorem Proper.spelled_compactChars {d : Document} (proper : d.Proper) :
    d.Spelled d.compactChars := by
  induction proper with
  | null => rfl
  | bool b => cases b <;> rfl
  | number spelled => exact spelled
  | string text => exact Text.quoted_quote text
  | array _ ih => exact ⟨_, spelledItems_compactItems ih, rfl⟩
  | object names _ ih => exact ⟨_, spelledMembers_compactMembers names ih, rfl⟩

theorem Proper.read?_compact {d : Document} (proper : d.Proper) : read? d.compact = some d :=
  read?_of_spelled (padded_self proper.spelled_compactChars)

end Document

end Json

end Formwork
