import Formwork.Tree.Basic

/-!
# The operand stack

Reading a phrase leaves operands on a stack; a reduction takes the operands of a phrase off the
stack and puts the node built of them in their place. `Reduction.build?` says which operands each
reduction takes, oldest first, and is the only place where nodes are made.
-/

namespace Formwork

/-- What reading a phrase leaves behind. -/
inductive Operand where
  | name (name : Ident)
  | type (type : TypeRef)
  | expr (expr : Expr)
  /-- A key of a map with its value. -/
  | entry (key value : Expr)
  | param (param : Param)
  | stmt (stmt : Stmt)
  | block (block : Block)
  | varDef (definition : VarDef)
  | function (definition : FunctionDef)
  /-- The operator between two operands. -/
  | operator (op : BinaryOp)
  /-- The sign that a definition is constant. -/
  | constant
  /-- Whether a range includes its end. -/
  | bounds (inclusive : Bool)

/-- A stack of operands together with its height. -/
structure Stack where
  /-- The operands, newest first. -/
  items : List Operand
  /-- How many there are. -/
  height : Nat
  /-- The height is the number of operands. -/
  height_eq : height = items.length

namespace Stack

/-- The empty stack. -/
def empty : Stack := ⟨[], 0, rfl⟩

/-- One more operand. -/
def push (s : Stack) (operand : Operand) : Stack :=
  ⟨operand :: s.items, s.height + 1, by simp [s.height_eq]⟩

/-- The newest operand and the stack without it. -/
def pop? (s : Stack) : Option (Operand × Stack) :=
  match s with
  | ⟨[], _, _⟩ => none
  | ⟨operand :: items, height, h⟩ => some (operand, ⟨items, height - 1, by simp [h]⟩)

/-- The operands above a mark, oldest first. -/
def above (s : Stack) (mark : Nat) : List Operand := (s.items.take (s.height - mark)).reverse

/-- The stack cut down to a mark. -/
def truncate (s : Stack) (mark : Nat) : Stack :=
  ⟨s.items.drop (s.height - mark), min s.height mark, by
    rw [List.length_drop, ← s.height_eq]; omega⟩

end Stack

/-- What a phrase becomes once it has been read. -/
inductive Reduction where
  | varDef | param | namedFunction | lambda | returnBody | block | singleton
  | defineStmt | functionStmt | assignStmt | exprStmt | returnStmt | forStmt | whileStmt
  | name | call | apply | method | create | index | update | binary | negate | not | conditional
  | list | entry | map | range
deriving DecidableEq, Repr

namespace Reduction

/-- The number of operands that a reduction takes, unless it takes all of its phrase. -/
def arity? : Reduction → Option Nat
  | .entry => some 2
  | _ => none

/-- How many of the `count` operands of its phrase a reduction leaves alone. -/
def kept (r : Reduction) (count : Nat) : Nat :=
  match r.arity? with
  | none => 0
  | some arity => count - arity

/-- Operands that are all expressions. -/
def exprs? : List Operand → Option (List Expr)
  | [] => some []
  | .expr e :: rest => (exprs? rest).map (e :: ·)
  | _ => none

/-- Operands that are all statements. -/
def stmts? : List Operand → Option (List Stmt)
  | [] => some []
  | .stmt s :: rest => (stmts? rest).map (s :: ·)
  | _ => none

/-- Operands that are all entries of a map. -/
def entries? : List Operand → Option (List (Expr × Expr))
  | [] => some []
  | .entry key value :: rest => (entries? rest).map ((key, value) :: ·)
  | _ => none

/-- Parameters followed by a body. -/
def signature? : List Operand → Option (List Param × Block)
  | [.block body] => some ([], body)
  | .param p :: rest => (signature? rest).map fun (params, body) => (p :: params, body)
  | _ => none

/-- The node that a phrase becomes, given the span it covers and its operands, oldest first. -/
def build? (r : Reduction) (span : Span) (operands : List Operand) : Option Operand :=
  match r, operands with
  | .varDef, [.type type, .name ident, .expr value] =>
    some (.varDef ⟨type, ident, value, false, span⟩)
  | .varDef, [.constant, .type type, .name ident, .expr value] =>
    some (.varDef ⟨type, ident, value, true, span⟩)
  | .param, [.type type, .name ident] => some (.param ⟨type, ident, none, span⟩)
  | .param, [.type type, .name ident, .expr value] =>
    some (.param ⟨type, ident, some value, span⟩)
  | .namedFunction, .type result :: .name ident :: rest =>
    (signature? rest).map fun (params, body) =>
      .function ⟨some ident, result, params, body, span⟩
  | .lambda, .type result :: rest =>
    (signature? rest).map fun (params, body) =>
      .expr (.function ⟨none, result, params, body, span⟩)
  | .returnBody, [.expr value] => some (.block ⟨[.return_ value value.span], value.span⟩)
  | .block, operands => (stmts? operands).map fun stmts => .block ⟨stmts, span⟩
  | .singleton, [.stmt stmt] => some (.block ⟨[stmt], span⟩)
  | .defineStmt, [.varDef definition] => some (.stmt (.define definition))
  | .functionStmt, [.function definition] => some (.stmt (.function definition))
  | .assignStmt, [.name ident, .expr value] => some (.stmt (.assign ident value span))
  | .exprStmt, [.expr value] => some (.stmt (.expr value))
  | .returnStmt, [.expr value] => some (.stmt (.return_ value span))
  | .forStmt, [.type type, .name item, .expr iterable, .block body] =>
    some (.stmt (.for_ type item iterable body span))
  | .whileStmt, [.expr condition, .block body] => some (.stmt (.while_ condition body span))
  | .name, [.name ident] => some (.expr (.name ident.name ident.span))
  | .call, .name ident :: args => (exprs? args).map fun args => .expr (.call ident args span)
  | .apply, .expr callee :: args =>
    (exprs? args).map fun args => .expr (.apply callee args span)
  | .method, .expr receiver :: .name ident :: args =>
    (exprs? args).map fun args => .expr (.method receiver ident args span)
  | .create, .type type :: args => (exprs? args).map fun args => .expr (.create type args span)
  | .index, [.expr target, .expr key] => some (.expr (.index target key span))
  | .update, [.expr (.index target key _), .expr value] =>
    some (.expr (.update target key value span))
  | .binary, [.expr left, .operator op, .expr right] =>
    some (.expr (.binary left op right (left.span.merge right.span)))
  | .negate, [.expr operand] => some (.expr (.unary .neg operand span))
  | .not, [.expr operand] => some (.expr (.unary .not operand span))
  | .conditional, [.expr condition, .block yes] =>
    some (.expr (.conditional condition yes none span))
  | .conditional, [.expr condition, .block yes, .block no] =>
    some (.expr (.conditional condition yes (some no) span))
  | .list, operands => (exprs? operands).map fun items => .expr (.list items span)
  | .entry, [.expr key, .expr value] => some (.entry key value)
  | .map, operands => (entries? operands).map fun entries => .expr (.map entries span)
  | .range, [.expr first, .bounds inclusive, .expr last] =>
    some (.expr (.range first last inclusive none span))
  | .range, [.expr first, .bounds inclusive, .expr last, .expr step] =>
    some (.expr (.range first last inclusive (some step) span))
  | _, _ => none

end Reduction

end Formwork
