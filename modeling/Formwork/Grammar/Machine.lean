import Std.Data.TreeSet
import Formwork.Diagnostic.Basic
import Formwork.Grammar.Rules
import Formwork.Token.Number

/-!
# Reading phrases

`Phrase.run` reads a phrase at a position. Besides the position after the phrase it carries a state:
the operand stack, the malformed numbers met so far, the furthest place where a token was looked for
with all that was looked for there, the depth of nesting, and the places where a rule is known to
fail. A phrase that fails leaves the stack to whoever tried it; `attempt` cuts it down again.

The recursion through rules is bounded by fuel, repetition by the length of the text. The fuel runs
out, or an operand is of the wrong kind, only in the outcome `broken`.
-/

namespace Formwork

/-- A number literal that goes wrong. -/
structure Malformed where
  /-- Where it goes wrong. -/
  place : Cursor
  /-- The whole literal. -/
  text : String
deriving DecidableEq, Repr

/-- A number of its own for each rule at each offset. -/
def Memo.key (memo : Memo) (offset : Nat) : Nat :=
  3 * offset +
    match memo with
    | .args => 0
    | .conditional => 1
    | .lambda => 2

theorem Memo.key_inj {memo other : Memo} {offset place : Nat} :
    memo.key offset = other.key place ↔ memo = other ∧ offset = place := by
  cases memo <;> cases other <;> simp [key] <;> omega

/-- The rules that are known to fail, with the places where they do. -/
structure DeadEnds where
  /-- The numbers of the rules at their places. -/
  keys : Std.TreeSet Nat

namespace DeadEnds

/-- No rule is known to fail anywhere. -/
def empty : DeadEnds := ⟨∅⟩

/-- Whether a rule is known to fail at an offset. -/
def contains (d : DeadEnds) (memo : Memo) (offset : Nat) : Bool := d.keys.contains (memo.key offset)

/-- A rule is known to fail at an offset from now on. -/
def insert (d : DeadEnds) (memo : Memo) (offset : Nat) : DeadEnds :=
  ⟨d.keys.insert (memo.key offset)⟩

@[simp]
theorem contains_empty (memo : Memo) (offset : Nat) : empty.contains memo offset = false := by
  simp [empty, contains]

@[simp]
theorem contains_insert (d : DeadEnds) (memo other : Memo) (offset place : Nat) :
    (d.insert memo offset).contains other place =
      (decide (memo = other ∧ offset = place) || d.contains other place) := by
  rw [Bool.eq_iff_iff]
  simp [contains, insert, Std.TreeSet.contains_insert, Memo.key_inj]

end DeadEnds

/-- What is known while a definition is being read. -/
structure State where
  /-- The operands of the phrases read so far. -/
  operands : Stack
  /-- The malformed numbers of the phrases read so far. -/
  pending : List Malformed
  /-- The malformed numbers of alternatives that failed. -/
  abandoned : List Malformed
  /-- The place right after the last token. -/
  lastEnd : Cursor
  /-- The furthest position where a token was looked for in vain. -/
  furthest : Position
  /-- What was looked for there, in increasing order. -/
  expected : List String
  /-- How deep the current phrase is nested. -/
  depth : Nat
  /-- The rules that are known to fail, with the places where they do. -/
  deadEnds : DeadEnds
  /-- Where nesting first went beyond the limit. -/
  tooDeep : Option Position

namespace State

/-- The state before the first definition. -/
def initial : State :=
  ⟨.empty, [], [], .start, ⟨.start, []⟩, [], 0, .empty, none⟩

/-- The state before a definition at a position: what earlier definitions met is forgotten. -/
def restart (s : State) (p : Position) : State :=
  { s with
    pending := []
    abandoned := []
    furthest := p
    expected := []
    deadEnds := .empty
    tooDeep := none }

/-- Something was looked for in vain; only what was looked for furthest on is kept. -/
def expect (s : State) (p : Position) (label : String) : State :=
  if s.furthest.cursor.precedes p.cursor then { s with furthest := p, expected := [label] }
  else if p.cursor = s.furthest.cursor then
    { s with expected := insertText label s.expected }
  else s

/-- One more operand. -/
def push (s : State) (operand : Operand) : State :=
  { s with operands := s.operands.push operand }

/-- A token was read. -/
def accept (s : State) (lexeme : Lexeme) (operand : Option Operand) : State :=
  let s := { s with lastEnd := lexeme.stop }
  match operand with
  | none => s
  | some operand => s.push operand

end State

/-- What becomes of reading a phrase. -/
inductive Outcome where
  /-- The phrase was read up to a position. -/
  | matched (p : Position) (s : State)
  /-- The phrase does not stand there. -/
  | missed (s : State)
  /-- The operands did not fit, or the fuel ran out. -/
  | broken

/-- How a phrase is read. -/
abbrev Reader := State → Position → Outcome

/-- The limits under which phrases are read. -/
structure Settings where
  /-- How deep expressions and statements may be nested. -/
  maxNesting : Nat
  /-- How often a phrase may be repeated. -/
  repeats : Nat
  /-- Whether failures are remembered. -/
  remember : Bool

/-- Where the phrase of a rule starts. -/
structure Frame where
  /-- The place of its first token. -/
  start : Cursor
  /-- The height of the stack below its operands. -/
  mark : Nat

namespace Reader

/-- Reads a token. -/
def token (t : Terminal) (leaf : Leaf) : Reader := fun s p =>
  match t.match? p with
  | some lexeme => .matched lexeme.next (s.accept lexeme (leaf.operand? lexeme))
  | none => .missed (s.expect p t.label)

/-- Reads a number; a malformed one counts as zero and is noted. -/
def number : Reader := fun s p =>
  match p.number with
  | .number value lexeme =>
    .matched lexeme.next (s.accept lexeme (some (.expr (.number value lexeme.span))))
  | .malformed bad lexeme =>
    let s := { s with pending := s.pending ++ [Malformed.mk bad lexeme.text] }
    .matched lexeme.next (s.accept lexeme (some (.expr (.number 0 lexeme.span))))
  | .absent => .missed (s.expect p "number")

/-- Reads one thing after another. -/
def andThen (first second : Reader) : Reader := fun s p =>
  match first s p with
  | .matched p s => second s p
  | .missed s => .missed s
  | .broken => .broken

/--
Reads something; if it fails, cuts the stack and the malformed numbers down to what they were
before.
-/
def attempt (read : Reader) : Reader := fun s p =>
  let mark := s.operands.height
  let noted := s.pending.length
  let lastEnd := s.lastEnd
  match read s p with
  | .missed s =>
    .missed { s with
      operands := s.operands.truncate mark
      abandoned := s.abandoned ++ s.pending.drop noted
      pending := s.pending.take noted
      lastEnd := lastEnd }
  | outcome => outcome

/-- Attempts one thing, and reads another in its place if it fails. -/
def orElse (first second : Reader) : Reader := fun s p =>
  match attempt first s p with
  | .missed s => second s p
  | outcome => outcome

/-- Attempts something, and goes on without it if it fails. -/
def option (read : Reader) : Reader := fun s p =>
  match attempt read s p with
  | .missed s => .matched p s
  | outcome => outcome

/-- Attempts something again and again, fewer than `limit` times, until it fails. -/
def many (read : Reader) : Nat → Reader
  | 0 => fun _ _ => .broken
  | limit + 1 => fun s p =>
    match attempt read s p with
    | .matched p s => many read limit s p
    | .missed s => .matched p s
    | .broken => .broken

/-- Reads one thing after a token, and another where the token is not next. -/
def branch (t : Terminal) (yes no : Reader) : Reader := fun s p =>
  match token t .nothing s p with
  | .matched p s => yes s p
  | .missed s => no s p
  | .broken => .broken

/-- Reads something one level deeper, up to the limit. -/
def nested (maxNesting : Nat) (read : Reader) : Reader := fun s p =>
  if maxNesting ≤ s.depth then .missed { s with tooDeep := s.tooDeep <|> some p }
  else
    match read { s with depth := s.depth + 1 } p with
    | .matched p s => .matched p { s with depth := s.depth - 1 }
    | .missed s => .missed { s with depth := s.depth - 1 }
    | .broken => .broken

/--
Attempts something, unless it is known to fail here. A failure is remembered unless nesting went
beyond the limit, since it may then succeed where nesting is less deep.
-/
def remembered (memo : Memo) (read : Reader) : Reader := fun s p =>
  if s.deadEnds.contains memo p.cursor.offset then .missed s
  else
    match attempt read s p with
    | .missed s =>
      if s.tooDeep.isNone then
        .missed { s with deadEnds := s.deadEnds.insert memo p.cursor.offset }
      else .missed s
    | outcome => outcome

/-- Reads something or nothing if the newest operand of a phrase is an element, else nothing. -/
def afterIndex (frame : Frame) (read : Reader) : Reader := fun s p =>
  match (s.operands.above frame.mark).getLast? with
  | some (.expr e) => if e.isIndex then option read s p else .matched p s
  | _ => .matched p s

/-- Puts the node built of the operands of a phrase in their place. -/
def reduce (r : Reduction) (frame : Frame) : Reader := fun s p =>
  let mark := frame.mark + r.kept (s.operands.height - frame.mark)
  match r.build? (frame.start.spanTo s.lastEnd) (s.operands.above mark) with
  | some operand => .matched p { s with operands := (s.operands.truncate mark).push operand }
  | none => .broken

end Reader

/-- Reads a phrase, given how rules are read. -/
def Phrase.run (settings : Settings) (rule : Rule → Reader) (frame : Frame) : Phrase → Reader
  | .token t leaf => Reader.token t leaf
  | .number => Reader.number
  | .rule r => rule r
  | .seq first second =>
    Reader.andThen (first.run settings rule frame) (second.run settings rule frame)
  | .choice first second =>
    Reader.orElse (first.run settings rule frame) (second.run settings rule frame)
  | .branch t yes no =>
    Reader.branch t (yes.run settings rule frame) (no.run settings rule frame)
  | .attempt phrase => Reader.attempt (phrase.run settings rule frame)
  | .option phrase => Reader.option (phrase.run settings rule frame)
  | .many phrase => Reader.many (phrase.run settings rule frame) settings.repeats
  | .nested phrase => Reader.nested settings.maxNesting (phrase.run settings rule frame)
  | .remembered memo phrase =>
    if settings.remember then Reader.remembered memo (phrase.run settings rule frame)
    else Reader.attempt (phrase.run settings rule frame)
  | .afterIndex phrase => Reader.afterIndex frame (phrase.run settings rule frame)
  | .reduce r => Reader.reduce r frame

/-- Reads what a rule describes, through at most `fuel` rules inside one another. -/
def Rule.run (settings : Settings) : Nat → Rule → Reader
  | 0, _ => fun _ _ => .broken
  | fuel + 1, r => fun s p =>
    r.phrase.run settings (Rule.run settings fuel) ⟨p.cursor, s.operands.height⟩ s p

end Formwork
