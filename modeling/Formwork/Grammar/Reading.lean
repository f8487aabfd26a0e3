import Formwork.Grammar.Machine
import Formwork.Token.Recovery

/-!
# Reading programs

A program is read definition by definition. A definition that cannot be read is reported where
reading it got furthest, and reading goes on at the next keyword that can start a definition.
`Reading.ofSource` gives the program with all that could be read, and the diagnostics; a program
without diagnostics is accepted.
-/

namespace Formwork

/-- The limits under which programs are read. -/
structure Limits where
  /-- How many diagnostics are stored; reading stops when as many have been found. -/
  maxErrors : Nat := Diagnostics.defaultLimit
  /-- How deep expressions and statements may be nested. -/
  maxNesting : Nat := 64
deriving DecidableEq, Repr, Inhabited

/-- What reading a source gives. -/
structure Reading where
  /-- The program, unless reading stopped at the limit of diagnostics. -/
  program : Option Program
  /-- What was wrong with the source. -/
  diagnostics : Diagnostics

namespace Reading

/-- The keywords that can start a definition after another one. -/
def anchors : List Keyword := [.fun_, .const]

/-- A diagnostic at a place of a source. -/
def diagnose (source : Source) (code : Code) (message : String) (place : Cursor)
    (expected : List String) : Diagnostic :=
  ⟨source.name, code, message, place.point, expected, (source.line? place.line).getD ""⟩

/-- The diagnostic of a malformed number. -/
def diagnoseNumber (source : Source) (m : Malformed) : Diagnostic :=
  diagnose source .malformedNumber s!"malformed number '{m.text}'" m.place []

/-- Puts a malformed number behind those that do not come after it. -/
def insertByPlace (m : Malformed) : List Malformed → List Malformed
  | [] => [m]
  | other :: others =>
    if Span.placeLe other.place.line other.place.col m.place.line m.place.col then
      other :: insertByPlace m others
    else m :: other :: others

/-- Malformed numbers in source order, those at one place in the order they were met. -/
def sortByPlace (ms : List Malformed) : List Malformed :=
  ms.foldl (fun sorted m => insertByPlace m sorted) []

/-- Leaves out every malformed number at the place of the one before it. -/
def dropRepeats : List Malformed → List Malformed
  | [] => []
  | m :: ms => m :: go m ms
where
  /-- What is left after `last`. -/
  go (last : Malformed) : List Malformed → List Malformed
    | [] => []
    | m :: ms => if m.place.point = last.place.point then go last ms else m :: go m ms

/-- A short description of what stands at a position. -/
def describe (p : Position) : String :=
  match p.identifier?, p.peek? with
  | some lexeme, _ => s!"'{lexeme.text}'"
  | none, some c => s!"'{c}'"
  | none, none => "end of input"

/-- Why the definition at `p` could not be read, and how far reading it got. -/
def failure (source : Source) (settings : Settings) (s : State) (p : Position) :
    List Diagnostic × Position :=
  let noted := (dropRepeats (sortByPlace s.abandoned)).map (diagnoseNumber source)
  match s.tooDeep with
  | some deep =>
    let message := s!"nesting exceeds the limit of {settings.maxNesting}"
    (noted ++ [diagnose source .nestingTooDeep message deep.cursor []], deep)
  | none =>
    let code := if s.furthest.cursor = p.cursor then Code.trailingInput else .unexpectedInput
    let message := s!"unexpected {describe s.furthest}"
    (noted ++ [diagnose source code message s.furthest.cursor s.expected], s.furthest)

/-- Where reading goes on after a definition at `p` that could be read up to `furthest` only. -/
def resume (p furthest : Position) : Position :=
  if p.cursor.precedes furthest.cursor && anchors.any fun k => (furthest.keyword? k).isSome then
    furthest
  else (if furthest.cursor.precedes p.cursor then p else furthest).skipToKeyword anchors

/-- What has been read so far. -/
structure Progress where
  /-- The global definitions, newest first. -/
  globals : List VarDef
  /-- The functions, newest first. -/
  functions : List FunctionDef
  /-- What was wrong so far. -/
  diagnostics : Diagnostics
  /-- The state of the machine. -/
  state : State

namespace Progress

/-- The malformed numbers of a definition that was read are reported. -/
def commit (source : Source) (progress : Progress) (s : State) (operands : Stack) : Progress :=
  { progress with
    diagnostics := progress.diagnostics.pushAll (s.pending.map (diagnoseNumber source))
    state := { s with pending := [], operands := operands } }

end Progress

/-- What becomes of one definition. -/
inductive Step where
  /-- Reading goes on at a position. -/
  | next (p : Position) (progress : Progress)
  /-- The operands did not fit, or the fuel ran out. -/
  | broken

/-- The fuel for the rules of a text with `length` characters. -/
def fuelFor (length : Nat) : Nat := Rule.all.length * (length + 2)

/-- Tries a function definition, and reports why neither definition could be read. -/
def functionStep (source : Source) (settings : Settings) (fuel : Nat) (p : Position)
    (progress : Progress) (s : State) : Step :=
  match Reader.attempt (Rule.run settings fuel .funDef) s p with
  | .matched next s =>
    match s.operands.pop? with
    | some (.function definition, operands) =>
      .next next { progress.commit source s operands with
        functions := definition :: progress.functions }
    | _ => .broken
  | .missed s =>
    let s := s.expect p "end of input"
    let (diagnostics, furthest) := failure source settings s p
    .next (resume p furthest)
      { progress with
        diagnostics := progress.diagnostics.pushAll diagnostics
        state := s }
  | .broken => .broken

/-- Reads one definition, a global one only as long as there are no functions. -/
def definitionStep (source : Source) (settings : Settings) (fuel : Nat) (p : Position)
    (progress : Progress) : Step :=
  let s := progress.state.restart p
  if progress.functions.isEmpty then
    match Reader.attempt (Rule.run settings fuel .varDef) s p with
    | .matched next s =>
      match s.operands.pop? with
      | some (.varDef definition, operands) =>
        .next next { progress.commit source s operands with
          globals := definition :: progress.globals }
      | _ => .broken
    | .missed s => functionStep source settings fuel p progress s
    | .broken => .broken
  else functionStep source settings fuel p progress s

/-- Reads at most `steps` definitions, up to the end of the text or the limit of diagnostics. -/
def definitions (source : Source) (settings : Settings) (fuel : Nat) (start : Cursor) :
    Nat → Position → Progress → Option Reading
  | 0, _, _ => none
  | steps + 1, p, progress =>
    if progress.diagnostics.isFull then some ⟨none, progress.diagnostics⟩
    else if p.isEnd then
      let program : Program :=
        ⟨progress.globals.reverse, progress.functions.reverse, start.spanTo p.cursor⟩
      some ⟨some program, progress.diagnostics⟩
    else
      match definitionStep source settings fuel p progress with
      | .next p progress => definitions source settings fuel start steps p progress
      | .broken => none

/-- Reads a source; nothing when operands did not fit or fuel ran out, which never happens. -/
def run? (remember : Bool) (limits : Limits) (source : Source) : Option Reading :=
  let first := Position.ofText source.text
  let length := first.rest.length
  let start := first.skipGap
  definitions source ⟨limits.maxNesting, length + 1, remember⟩ (fuelFor length) start.cursor
    (length + 2) start ⟨[], [], .empty limits.maxErrors, .initial⟩

/-- Reads a source. -/
def ofSource (limits : Limits) (source : Source) : Reading :=
  (run? true limits source).getD ⟨none, .empty limits.maxErrors⟩

/-- The program, if nothing was wrong. -/
def accepted? (reading : Reading) : Option Program :=
  if reading.diagnostics.hasErrors then none else reading.program

end Reading

end Formwork
