import Formwork.Diagnostic.Json
import Formwork.Eval.Budget
import Formwork.Grammar.Reading

/-!
# Configuration

The limits of reading and running programs, and their written form. Whatever a written configuration
leaves out has its default, and members it does not know are passed over.
-/

namespace Formwork

open Json

/-- The limits of reading and running programs. -/
structure Config where
  /-- The limits of reading. -/
  limits : Limits := {}
  /-- The limits of each run. -/
  budget : Budget := {}
deriving DecidableEq, Repr, Inhabited

/-- Why there is no configuration. -/
inductive ConfigError where
  /-- A file cannot be read. -/
  | unreadable (path reason : String)
  /-- A text is not a written configuration. -/
  | invalid
deriving DecidableEq, Repr

/-- How a failure is worded. -/
def ConfigError.message : ConfigError → String
  | .unreadable path reason => s!"cannot read config file {path}: {reason}"
  | .invalid => "invalid config"

/-- A natural number as a field with a default. -/
def natField? (bound default : Nat) : Option Document → Option Nat :=
  Record.orDefault default (Document.natBelow? bound)

namespace Limits

/-- The limits of reading as a JSON object. -/
def toDocument (l : Limits) : Document :=
  .ofMembers [("max_errors", .ofNat l.maxErrors), ("max_nesting", .ofNat l.maxNesting)]

/-- The limits of reading that a document describes. -/
def ofDocument? (document : Document) : Option Limits :=
  let default : Limits := {}
  match Record.fields? ["max_errors", "max_nesting"] document with
  | some [errors, nesting] => do
    return {
      maxErrors := ← natField? bound64 default.maxErrors errors
      maxNesting := ← natField? bound32 default.maxNesting nesting }
  | _ => none

end Limits

namespace Budget

/-- A budget as a JSON object. -/
def toDocument (b : Budget) : Document :=
  .ofMembers [("max_instructions", .ofNat b.maxInstructions),
    ("max_duration_ms", .ofNat b.maxMillis), ("max_call_depth", .ofNat b.maxCallDepth)]

/-- The budget that a document describes. -/
def ofDocument? (document : Document) : Option Budget :=
  let default : Budget := {}
  match Record.fields? ["max_instructions", "max_duration_ms", "max_call_depth"] document with
  | some [instructions, millis, depth] => do
    return {
      maxInstructions := ← natField? bound64 default.maxInstructions instructions
      maxMillis := ← natField? bound64 default.maxMillis millis
      maxCallDepth := ← natField? bound32 default.maxCallDepth depth }
  | _ => none

end Budget

namespace Config

/-- A configuration as a JSON object. -/
def toDocument (c : Config) : Document :=
  .ofMembers [("parser", c.limits.toDocument), ("budget", c.budget.toDocument)]

/-- The configuration that a document describes. -/
def ofDocument? (document : Document) : Option Config :=
  match Record.fields? ["parser", "budget"] document with
  | some [limits, budget] => do
    return {
      limits := ← Record.orDefault {} Limits.ofDocument? limits
      budget := ← Record.orDefault {} Budget.ofDocument? budget }
  | _ => none

/-- A configuration as JSON, one member a line. -/
def toJson (c : Config) : String := c.toDocument.pretty

/-- Reads a configuration. -/
def ofJson (text : String) : Except ConfigError Config :=
  match (Document.read? text).bind ofDocument? with
  | some c => .ok c
  | none => .error .invalid

/-- Reads a configuration from what a file holds, or from the reason why it cannot be read. -/
def ofFile (path : String) : Except String String → Except ConfigError Config
  | .ok text => ofJson text
  | .error reason => .error (.unreadable path reason)

end Config

end Formwork
