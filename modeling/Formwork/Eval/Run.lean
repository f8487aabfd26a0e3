import Formwork.Eval.Step

/-!
# Running programs

Expressions and statements are run to any depth that the budget allows. Each level of nesting costs
an instruction, so `Context.parts` never runs out of levels before the instructions are used up.
-/

namespace Formwork

namespace Context

/-- How expressions and statements are run, at most `fuel` levels deep. -/
def parts (context : Context) : Nat → Parts
  | 0 => ⟨fun _ _ => Eval.exhausted, fun _ _ => Eval.exhausted⟩
  | fuel + 1 =>
    { expr := fun e scope => context.expr (context.parts fuel) e scope
      stmt := fun s scope => stmt (context.parts fuel) s scope }

/-- Runs a computation with as many levels as there are instructions. -/
def withParts (context : Context) (run : Parts → Eval α) : Eval α := do
  let levels ← Eval.rounds
  run (context.parts levels)

/-- Evaluates an expression in a scope. -/
def evaluate (context : Context) (e : Expr) (scope : ScopeId) : Eval Value :=
  context.withParts fun parts => parts.expr e scope

/-- Executes a statement in a scope. -/
def execute (context : Context) (s : Stmt) (scope : ScopeId) : Eval Flow :=
  context.withParts fun parts => parts.stmt s scope

/-- Executes a block in a scope made for it. -/
def executeBlock (context : Context) (b : Block) (scope : ScopeId) : Eval Flow :=
  context.withParts fun parts => parts.block b scope

/-- Calls a function with arguments in order. -/
def call (context : Context) (f : FunctionDef) (captured : ScopeId) (args : List Value) :
    Eval Value :=
  context.withParts fun parts => parts.call f captured args

/-- Calls a function with arguments by name. -/
def callNamed (context : Context) (f : FunctionDef) (captured : ScopeId)
    (bindings : List (String × Value)) : Eval Value :=
  context.withParts fun parts => parts.callNamed f captured bindings

/-- Evaluates global definitions in order into the global scope. -/
def defineAll (context : Context) : List VarDef → Eval Unit
  | [] => pure ()
  | definition :: rest => do
    context.withParts fun parts => parts.define definition context.globals
    context.defineAll rest

/-- Evaluates the global definitions of the program. -/
def defineGlobals (context : Context) : Eval Unit :=
  match context.program with
  | some program => context.defineAll program.globals
  | none => pure ()

end Context

/-- The machine at the start of a run, with an empty global scope. -/
def Machine.start (budget : Budget) (clock : Clock) (world : World) : ScopeId × Machine :=
  let (globals, scopes) := Scopes.empty.root
  (globals, ⟨world, scopes, .start budget clock⟩)

end Formwork
