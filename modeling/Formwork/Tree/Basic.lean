import Formwork.Text.Span
import Formwork.Tree.Operator

/-!
# Syntax trees

A program is a list of global definitions followed by a list of functions. Types are recorded as
they are written and mean nothing further. Every node knows the span of source text it was read
from.
-/

namespace Formwork

/-- A name as it stands in a source text. -/
structure Ident where
  /-- The name. -/
  name : String
  /-- Where it stands. -/
  span : Span
deriving DecidableEq, Repr, Inhabited

/-- A type as it stands in a source text. -/
structure TypeRef where
  /-- The type's name. -/
  name : String
  /-- Where it stands. -/
  span : Span
deriving DecidableEq, Repr, Inhabited

mutual

/-- Expressions. -/
inductive Expr where
  /-- A number. -/
  | number (value : Float) (span : Span)
  /-- A truth value. -/
  | bool (value : Bool) (span : Span)
  /-- A list of items. -/
  | list (items : List Expr) (span : Span)
  /-- A map of keys to values. -/
  | map (entries : List (Expr × Expr)) (span : Span)
  /-- A list of evenly spaced numbers. -/
  | range (first last : Expr) (inclusive : Bool) (step : Option Expr) (span : Span)
  /-- A name that stands for its value. -/
  | name (name : String) (span : Span)
  /-- A call of a function by its name. -/
  | call (name : Ident) (args : List Expr) (span : Span)
  /-- A call of a computed function. -/
  | apply (callee : Expr) (args : List Expr) (span : Span)
  /-- A call of a builtin function on a receiver. -/
  | method (receiver : Expr) (name : Ident) (args : List Expr) (span : Span)
  /-- A call of the builtin function that makes values of a type. -/
  | create (type : TypeRef) (args : List Expr) (span : Span)
  /-- An element of a list or map. -/
  | index (target key : Expr) (span : Span)
  /-- A change of an element of a list or map. -/
  | update (target key value : Expr) (span : Span)
  /-- An operator between two operands. -/
  | binary (left : Expr) (op : BinaryOp) (right : Expr) (span : Span)
  /-- An operator before one operand. -/
  | unary (op : UnaryOp) (operand : Expr) (span : Span)
  /-- A choice between two blocks. -/
  | conditional (condition : Expr) (yes : Block) (no : Option Block) (span : Span)
  /-- A function without a name. -/
  | function (definition : FunctionDef)

/-- Statements. -/
inductive Stmt where
  /-- A definition of a variable or constant. -/
  | define (definition : VarDef)
  /-- A definition of a named function. -/
  | function (definition : FunctionDef)
  /-- A change of a variable. -/
  | assign (name : Ident) (value : Expr) (span : Span)
  /-- An expression whose value is the value of the statement. -/
  | expr (value : Expr)
  /-- The end of a function call with a value. -/
  | return_ (value : Expr) (span : Span)
  /-- A loop over the items of a list or the keys of a map. -/
  | for_ (type : TypeRef) (item : Ident) (iterable : Expr) (body : Block) (span : Span)
  /-- A loop as long as a condition holds. -/
  | while_ (condition : Expr) (body : Block) (span : Span)

/-- A sequence of statements with names of its own. -/
structure Block where
  /-- The statements in order. -/
  stmts : List Stmt
  /-- Where the block stands. -/
  span : Span

/-- A parameter of a function. -/
structure Param where
  /-- The parameter's type. -/
  type : TypeRef
  /-- The parameter's name. -/
  name : Ident
  /-- The value of the parameter when none is given. -/
  default : Option Expr
  /-- Where the parameter stands. -/
  span : Span

/-- A function. -/
structure FunctionDef where
  /-- The function's name, if it has one. -/
  name : Option Ident
  /-- The type of its result. -/
  result : TypeRef
  /-- Its parameters in order. -/
  params : List Param
  /-- What it does. -/
  body : Block
  /-- Where the function stands. -/
  span : Span

/-- A definition of a variable or constant. -/
structure VarDef where
  /-- Its type. -/
  type : TypeRef
  /-- Its name. -/
  name : Ident
  /-- Its first value. -/
  value : Expr
  /-- Whether it can never be changed. -/
  constant : Bool
  /-- Where the definition stands. -/
  span : Span

end

/-- Where an expression stands. -/
def Expr.span : Expr → Span
  | .number _ span | .bool _ span | .list _ span | .map _ span | .range _ _ _ _ span
  | .name _ span | .call _ _ span | .apply _ _ span | .method _ _ _ span | .create _ _ span
  | .index _ _ span | .update _ _ _ span | .binary _ _ _ span | .unary _ _ span
  | .conditional _ _ _ span => span
  | .function definition => definition.span

/-- Whether an expression names an element of a list or map. -/
def Expr.isIndex : Expr → Bool
  | .index .. => true
  | _ => false

/-- The name a function is shown by. -/
def FunctionDef.displayName (f : FunctionDef) : String :=
  match f.name with
  | some name => name.name
  | none => "<lambda>"

/-- A whole program. -/
structure Program where
  /-- The global definitions in order. -/
  globals : List VarDef
  /-- The functions in order. -/
  functions : List FunctionDef
  /-- Where the program stands. -/
  span : Span

/-- The first function with a given name. -/
def Program.function? (program : Program) (name : String) : Option FunctionDef :=
  program.functions.find? fun f => f.name.any (·.name == name)

end Formwork
