import Formwork.Eval.Machine
import Formwork.Eval.Operation
import Formwork.Eval.Range
import Formwork.Text.Sorted

/-!
# Steps of evaluation

What each kind of expression and statement does, in terms of what its parts do. Every expression and
every statement costs one instruction before anything else; loops and ranges cost one more for each
item.
-/

namespace Formwork

/-- What programs refer to without defining it. -/
structure Context where
  /-- The builtin functions. -/
  builtins : Registry
  /-- The program whose functions can be called from everywhere. -/
  program : Option Program
  /-- The scope of the global definitions. -/
  globals : ScopeId

/-- How a statement ends. -/
inductive Flow where
  /-- The next statement follows. -/
  | normal (value : Value)
  /-- The function returns. -/
  | returned (value : Value)

/-- The value that a statement gives. -/
def Flow.value : Flow → Value
  | .normal v | .returned v => v

/-- How the parts of expressions and statements are run. -/
structure Parts where
  /-- Evaluates an expression in a scope. -/
  expr : Expr → ScopeId → Eval Value
  /-- Executes a statement in a scope. -/
  stmt : Stmt → ScopeId → Eval Flow

namespace Parts

/-- Evaluates expressions in order. -/
def args (parts : Parts) (scope : ScopeId) : List Expr → Eval (List Value)
  | [] => pure []
  | e :: rest => do
    let v ← parts.expr e scope
    let vs ← parts.args scope rest
    return v :: vs

/-- Evaluates an expression that has to be a number. -/
def number (parts : Parts) (e : Expr) (scope : ScopeId) : Eval Float := do
  let v ← parts.expr e scope
  MonadExcept.ofExcept v.number?

/-- Evaluates an expression that has to be a truth value. -/
def bool (parts : Parts) (e : Expr) (scope : ScopeId) : Eval Bool := do
  let v ← parts.expr e scope
  MonadExcept.ofExcept v.bool?

/-- Puts evaluated keys and values into a map, one entry after the other. -/
def entries (parts : Parts) (scope : ScopeId) (acc : Entries) :
    List (Expr × Expr) → Eval Entries
  | [] => pure acc
  | (k, v) :: rest => do
    let key ← parts.expr k scope
    let value ← parts.expr v scope
    let acc ← Eval.act (Action.insert key value acc)
    parts.entries scope acc rest

/-- Evaluates the bounds and the step of a range. -/
def range (parts : Parts) (first last : Expr) (inclusive : Bool) (step : Option Expr)
    (scope : ScopeId) : Eval Range := do
  let x ← parts.number first scope
  let y ← parts.number last scope
  match step with
  | some e => do
    let z ← parts.number e scope
    MonadExcept.ofExcept (Range.make x y z inclusive)
  | none => MonadExcept.ofExcept (Range.make x y (Range.unitStep x y) inclusive)

/-- Executes statements in order until one returns; the last one gives the value. -/
def stmts (parts : Parts) (scope : ScopeId) (last : Value) : List Stmt → Eval Flow
  | [] => pure (.normal last)
  | s :: rest => do
    match ← parts.stmt s scope with
    | .normal v => parts.stmts scope v rest
    | .returned v => return .returned v

/-- Executes a block in a scope made for it. -/
def block (parts : Parts) (b : Block) (scope : ScopeId) : Eval Flow :=
  parts.stmts scope .unit b.stmts

/-- Executes a block in a new scope. -/
def nested (parts : Parts) (b : Block) (scope : ScopeId) : Eval Flow := do
  let inner ← Eval.child scope
  parts.block b inner

/-- Executes one of two blocks. -/
def conditional (parts : Parts) (condition : Expr) (yes : Block) (no : Option Block)
    (scope : ScopeId) : Eval Flow := do
  if ← parts.bool condition scope then parts.nested yes scope
  else
    match no with
    | some b => parts.nested b scope
    | none => return .normal .unit

/-- Evaluates a definition and puts it into a scope. -/
def define (parts : Parts) (definition : VarDef) (scope : ScopeId) : Eval Unit := do
  let v ← parts.expr definition.value scope
  Eval.define scope definition.name.name v definition.constant

/-! ## Loops -/

/-- One round of a loop over items. -/
def forBody (parts : Parts) (item : Ident) (body : Block) (scope : ScopeId) (v : Value) :
    Eval Flow := do
  Eval.tick
  let inner ← Eval.child scope
  Eval.define inner item.name v false
  parts.block body inner

/-- The rounds of a loop over items. -/
def forItems (parts : Parts) (item : Ident) (body : Block) (scope : ScopeId) :
    List Value → Eval Flow
  | [] => pure (.normal .unit)
  | v :: rest => do
    match ← parts.forBody item body scope v with
    | .normal _ => parts.forItems item body scope rest
    | .returned v => return .returned v

/-- At most `rounds` rounds of a loop over a range, from a position on. -/
def forRange (parts : Parts) (item : Ident) (body : Block) (scope : ScopeId) (r : Range) :
    Nat → Nat → Eval Flow
  | 0, _ => Eval.exhausted
  | rounds + 1, i => do
    if r.within (r.value i) then
      match ← parts.forBody item body scope (.number (r.value i)) with
      | .normal _ => parts.forRange item body scope r rounds (i + 1)
      | .returned v => return .returned v
    else return .normal .unit

/-- Executes a loop over the numbers of a range or over the elements of a collection. -/
def for_ (parts : Parts) (item : Ident) (iterable : Expr) (body : Block) (scope : ScopeId) :
    Eval Flow :=
  match iterable with
  | .range first last inclusive step _ => do
    Eval.tick
    let r ← parts.range first last inclusive step scope
    parts.forRange item body scope r (← Eval.rounds) 0
  | iterable => do
    let v ← parts.expr iterable scope
    let items ← Eval.act (itemsOf v)
    parts.forItems item body scope items

/-- Executes at most `rounds` rounds of a loop as long as a condition holds. -/
def while_ (parts : Parts) (condition : Expr) (body : Block) (scope : ScopeId) : Nat → Eval Flow
  | 0 => Eval.exhausted
  | rounds + 1 => do
    Eval.tick
    if ← parts.bool condition scope then
      match ← parts.nested body scope with
      | .normal _ => parts.while_ condition body scope rounds
      | .returned v => return .returned v
    else return .normal .unit

/-- At most `rounds` further numbers of a range, from a position on. -/
def rangeItems (r : Range) : Nat → Nat → Array Value → Eval (Array Value)
  | 0, _, _ => Eval.exhausted
  | rounds + 1, i, acc => do
    if r.within (r.value i) then
      Eval.tick
      rangeItems r rounds (i + 1) (acc.push (.number (r.value i)))
    else return acc

/-! ## Calls -/

/-- Gives each parameter its argument, or its default as seen from where the function was made. -/
def bindParams (parts : Parts) (function : String) (captured scope : ScopeId) :
    List Param → List (Option Value) → Eval Unit
  | p :: params, slot :: slots => do
    let v ←
      match slot, p.default with
      | some v, _ => pure v
      | none, some e => parts.expr e captured
      | none, none => throw (.typeMismatch (.missingArgument p.name.name function))
    Eval.define scope p.name.name v false
    parts.bindParams function captured scope params slots
  | _, _ => pure ()

/-- Calls a function with an argument or none for each parameter. -/
def invoke (parts : Parts) (f : FunctionDef) (captured : ScopeId) (slots : List (Option Value)) :
    Eval Value :=
  Eval.inCall do
    let scope ← Eval.child captured
    parts.bindParams f.displayName captured scope f.params slots
    let flow ← parts.block f.body scope
    return flow.value

/-- Calls a function with arguments in order. -/
def call (parts : Parts) (f : FunctionDef) (captured : ScopeId) (args : List Value) :
    Eval Value :=
  if f.params.length < args.length then
    throw (.typeMismatch (.tooManyArguments f.displayName f.params.length args.length))
  else
    parts.invoke f captured
      (args.map some ++ List.replicate (f.params.length - args.length) none)

/-- Calls a function with arguments by name. -/
def callNamed (parts : Parts) (f : FunctionDef) (captured : ScopeId)
    (bindings : List (String × Value)) : Eval Value :=
  let unknown := bindings.filter fun (name, _) => !f.params.any (·.name.name == name)
  match sortTexts (unknown.map (·.1)) with
  | name :: _ => throw (.nameNotFound name)
  | [] => parts.invoke f captured (f.params.map fun p => bindings.lookup p.name.name)

/-- Calls a value, which has to be a function. -/
def apply (parts : Parts) (callee : Value) (args : List Value) : Eval Value :=
  match callee with
  | .function c => parts.call c.function c.scope args
  | v => throw (.typeMismatch (.call v.kind))

end Parts

namespace Context

/-- The value of a name: that of the nearest scope, else a function of the program. -/
def resolve? (context : Context) (name : String) (scope : ScopeId) : Eval (Option Value) := do
  match ← Eval.meaning scope name with
  | some (.value v) => return some v
  | some (.function definition found) => return some (← Eval.newFunction definition found)
  | none =>
    match context.program.bind (·.function? name) with
    | some definition => return some (← Eval.newFunction definition context.globals)
    | none => return none

/-- Calls what a name stands for; builtin functions come last. -/
def callByName (context : Context) (parts : Parts) (name : String) (args : List Expr)
    (scope : ScopeId) : Eval Value := do
  match ← context.resolve? name scope with
  | some callee => do
    let vs ← parts.args scope args
    parts.apply callee vs
  | none =>
    match context.builtins.find? name with
    | some builtin => do
      let vs ← parts.args scope args
      Eval.act (builtin vs)
    | none => throw (.nameNotFound name)

/-- Calls a builtin function with evaluated arguments. -/
def callBuiltin (context : Context) (name : String) (otherwise : Unsupported)
    (args : List Value) : Eval Value :=
  match context.builtins.find? name with
  | some builtin => Eval.act (builtin args)
  | none => throw (.unsupported otherwise)

/-- Evaluates a binary operator; `and` and `or` look at their second operand only if they must. -/
def binary (parts : Parts) (left : Expr) (op : BinaryOp) (right : Expr) (scope : ScopeId) :
    Eval Value :=
  match op with
  | .and => do
    if ← parts.bool left scope then return .bool (← parts.bool right scope)
    else return .bool false
  | .or => do
    if ← parts.bool left scope then return .bool true
    else return .bool (← parts.bool right scope)
  | op => do
    let x ← parts.expr left scope
    let y ← parts.expr right scope
    Eval.act (op.apply x y)

/-- Evaluates an expression. -/
def expr (context : Context) (parts : Parts) (e : Expr) (scope : ScopeId) : Eval Value := do
  Eval.tick
  match e with
  | .number x _ => return .number x
  | .bool b _ => return .bool b
  | .list items _ => do
    let vs ← parts.args scope items
    Eval.act (Action.newList vs.toArray)
  | .map entries _ => do
    let acc ← parts.entries scope [] entries
    Eval.act (Action.newMap acc)
  | .range first last inclusive step _ => do
    let r ← parts.range first last inclusive step scope
    let vs ← Parts.rangeItems r (← Eval.rounds) 0 #[]
    Eval.act (Action.newList vs)
  | .name name _ => do
    match ← context.resolve? name scope with
    | some v => return v
    | none => throw (.nameNotFound name)
  | .call name args _ => context.callByName parts name.name args scope
  | .apply callee args _ => do
    let f ← parts.expr callee scope
    let vs ← parts.args scope args
    parts.apply f vs
  | .method receiver name args _ => do
    let v ← parts.expr receiver scope
    let vs ← parts.args scope args
    context.callBuiltin name.name (.method name.name) (v :: vs)
  | .create type args _ => do
    let vs ← parts.args scope args
    context.callBuiltin type.name (.create type.name) vs
  | .index target key _ => do
    let t ← parts.expr target scope
    let k ← parts.expr key scope
    Eval.act (elementAt t k)
  | .update target key value _ => do
    let t ← parts.expr target scope
    let k ← parts.expr key scope
    let v ← parts.expr value scope
    Eval.act (setElement t k v)
    return v
  | .binary left op right _ => binary parts left op right scope
  | .unary op operand _ => do
    let v ← parts.expr operand scope
    Eval.act (op.apply v)
  | .conditional condition yes no _ => do
    match ← parts.conditional condition yes no scope with
    | .normal v => return v
    | .returned _ => throw (.unsupported .returnInValue)
  | .function definition => Eval.newFunction definition scope

/-- Executes a statement. An `if` that stands as a statement may return. -/
def stmt (parts : Parts) (s : Stmt) (scope : ScopeId) : Eval Flow := do
  Eval.tick
  match s with
  | .define definition => do
    parts.define definition scope
    return .normal .unit
  | .function definition => do
    Eval.defineFunction scope definition
    return .normal .unit
  | .assign name value _ => do
    let v ← parts.expr value scope
    Eval.assign scope name.name v
    return .normal .unit
  | .expr (.conditional condition yes no _) => do
    Eval.tick
    parts.conditional condition yes no scope
  | .expr value => do
    let v ← parts.expr value scope
    return .normal v
  | .return_ value _ => do
    let v ← parts.expr value scope
    return .returned v
  | .for_ _ item iterable body _ => parts.for_ item iterable body scope
  | .while_ condition body _ => do parts.while_ condition body scope (← Eval.rounds)

end Context

end Formwork
