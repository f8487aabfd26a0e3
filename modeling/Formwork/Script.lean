import Formwork.Eval.Run
import Formwork.Grammar.Reading

/-!
# Scripts

A script is a program in which nothing was wrong. Its functions can be called any number of times;
each call starts with fresh global definitions and a fresh meter and shares nothing with earlier
calls but the collections it is given.
-/

namespace Formwork

/-- A program in which nothing was wrong. -/
structure Script where
  /-- The name of its source. -/
  name : String
  /-- The program. -/
  program : Program

namespace Script

/-- Reads a script. -/
def compile (limits : Limits) (name text : String) : Except Diagnostics Script :=
  let reading := Reading.ofSource limits ⟨name, text⟩
  match reading.accepted? with
  | some program => .ok ⟨name, program⟩
  | none => .error reading.diagnostics

/-- The names of the functions in order. -/
def functionNames (s : Script) : List String :=
  s.program.functions.filterMap fun f => f.name.map (·.name)

/-- Calls a function of a script with arguments by name, after the global definitions. -/
def call (s : Script) (builtins : Registry) (budget : Budget) (clock : Clock) (f : FunctionDef)
    (bindings : List (String × Value)) : Action Value := fun world =>
  let (globals, machine) := Machine.start budget clock world
  let context : Context := ⟨builtins, some s.program, globals⟩
  let run : Eval Value := do
    context.defineGlobals
    context.callNamed f globals bindings
  match run machine with
  | .ok v machine => .ok v machine.world
  | .error e machine => .error e machine.world

/-- Calls a function of a script by its name. -/
def run (s : Script) (builtins : Registry) (budget : Budget) (clock : Clock) (function : String)
    (bindings : List (String × Value)) : Action Value :=
  match s.program.function? function with
  | some f => s.call builtins budget clock f bindings
  | none => throw (.nameNotFound function)

end Script

end Formwork
