import Formwork.Config
import Formwork.Eval.Standard
import Formwork.Script

/-!
# Engines

An engine holds what all scripts of a host have in common: limits and builtin functions.
-/

namespace Formwork

/-- Limits and builtin functions of a host. -/
structure Engine where
  /-- The limits. -/
  config : Config := {}
  /-- The builtin functions. -/
  builtins : Registry := .standard
  /-- The clock that limits each run. -/
  clock : Clock := .steady

namespace Engine

/-- Reads a script within the limits of the engine. -/
def compile (e : Engine) (name text : String) : Except Diagnostics Script :=
  Script.compile e.config.limits name text

/-- Calls a function of a script by its name. -/
def run (e : Engine) (script : Script) (function : String) (bindings : List (String × Value)) :
    Action Value :=
  script.run e.builtins e.config.budget e.clock function bindings

/-- Calls any function of a script. -/
def call (e : Engine) (script : Script) (f : FunctionDef) (bindings : List (String × Value)) :
    Action Value :=
  script.call e.builtins e.config.budget e.clock f bindings

end Engine

end Formwork
