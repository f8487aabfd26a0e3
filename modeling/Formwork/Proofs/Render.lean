import Formwork.Proofs.Written
import Formwork.Tree.Basic

/-!
# Writing programs

`Program.tokens` writes a program with every expression in parentheses, every body in braces and a
semicolon after every statement of a block. A number is written by the literal that `literal` gives
for its value and its place. `Program.nesting` is the number of levels around the innermost token:
one for each statement and expression, those in parentheses included, and one for the operand of a
unary operator. `Program.Legal` says that names and numbers can be written at all.
-/

namespace Formwork

/-- Tokens in parentheses. -/
def enclosed (tokens : List Token) : List Token :=
  .punct .lparen :: (tokens ++ [.punct .rparen])

/-- The token of a type. -/
def TypeRef.token (type : TypeRef) : Token :=
  if type.name = "fun" then .keyword .fun_ else .identifier type.name

/-- The token of an operator between two operands. -/
def BinaryOp.token : BinaryOp → Token
  | .or => .keyword .or
  | .xor => .keyword .xor
  | .and => .keyword .and
  | .eq => .punct .eq
  | .notEq => .punct .notEq
  | .less => .punct .less
  | .lessEq => .punct .lessEq
  | .greater => .punct .greater
  | .greaterEq => .punct .greaterEq
  | .add => .punct .plus
  | .sub => .punct .minus
  | .mul => .punct .star
  | .div => .punct .slash
  | .mod => .punct .percent
  | .pow => .punct .caret

/-- The token of an operator before one operand. -/
def UnaryOp.token : UnaryOp → Token
  | .neg => .punct .minus
  | .not => .keyword .not

section Tokens

variable (literal : Float → Span → Literal)

mutual

/-- The tokens of an expression inside its parentheses. -/
def Expr.inner : Expr → List Token
  | .number value span => [.number (literal value span)]
  | .bool value _ => [.keyword (if value then .true_ else .false_)]
  | .list items _ => .punct .lbracket :: (itemTokens items ++ [.punct .rbracket])
  | .map entries _ => .punct .lbracket :: (entryTokens entries ++ [.punct .rbracket])
  | .range first last inclusive step _ =>
      .punct .lbracket :: (enclosed first.inner ++
        .punct (if inclusive then .dotDotDot else .dotDot) :: (enclosed last.inner ++
          (stepTokens step ++ [.punct .rbracket])))
  | .name name _ => [.identifier name]
  | .call name args _ => .identifier name.name :: enclosed (itemTokens args)
  | .apply callee args _ => enclosed callee.inner ++ enclosed (itemTokens args)
  | .method receiver name args _ =>
      enclosed receiver.inner ++
        .punct .dot :: .identifier name.name :: enclosed (itemTokens args)
  | .create type args _ => .keyword .new :: type.token :: enclosed (itemTokens args)
  | .index target key _ =>
      enclosed target.inner ++ .punct .lbracket :: (enclosed key.inner ++ [.punct .rbracket])
  | .update target key value _ =>
      enclosed target.inner ++ .punct .lbracket :: (enclosed key.inner ++
        .punct .rbracket :: .punct .assign :: enclosed value.inner)
  | .binary left op right _ => enclosed left.inner ++ op.token :: enclosed right.inner
  | .unary op operand _ => op.token :: enclosed operand.inner
  | .conditional condition yes no _ =>
      .keyword .if_ :: (enclosed condition.inner ++
        .keyword .then_ :: (yes.tokens ++ elseTokens no))
  | .function definition => definition.tokens

/-- The tokens of expressions with commas between them. -/
def itemTokens : List Expr → List Token
  | [] => []
  | e :: es => enclosed e.inner ++ moreItemTokens es

/-- The tokens of further expressions, each after a comma. -/
def moreItemTokens : List Expr → List Token
  | [] => []
  | e :: es => .punct .comma :: (enclosed e.inner ++ moreItemTokens es)

/-- The tokens of the entries of a map; a colon stands for no entries. -/
def entryTokens : List (Expr × Expr) → List Token
  | [] => [.punct .colon]
  | (key, value) :: es =>
      enclosed key.inner ++ .punct .colon :: (enclosed value.inner ++ moreEntryTokens es)

/-- The tokens of further entries, each after a comma. -/
def moreEntryTokens : List (Expr × Expr) → List Token
  | [] => []
  | (key, value) :: es =>
      .punct .comma :: (enclosed key.inner ++ .punct .colon ::
        (enclosed value.inner ++ moreEntryTokens es))

/-- The tokens of the step of a range, if it has one. -/
def stepTokens : Option Expr → List Token
  | none => []
  | some e => .keyword .step :: enclosed e.inner

/-- The tokens of the second block of a choice, if it has one. -/
def elseTokens : Option Block → List Token
  | none => []
  | some b => .keyword .else_ :: b.tokens

/-- The tokens of a statement. -/
def Stmt.tokens : Stmt → List Token
  | .define definition => definition.tokens
  | .function definition => definition.tokens
  | .assign name value _ => .identifier name.name :: .punct .assign :: enclosed value.inner
  | .expr value => enclosed value.inner
  | .return_ value _ => .keyword .return_ :: enclosed value.inner
  | .for_ type item iterable body _ =>
      .keyword .for_ :: type.token :: .identifier item.name :: .keyword .in_ ::
        (enclosed iterable.inner ++ .keyword .do_ :: body.tokens)
  | .while_ condition body _ =>
      .keyword .while_ :: (enclosed condition.inner ++ .keyword .do_ :: body.tokens)

/-- The tokens of statements, each with a semicolon after it. -/
def stmtTokens : List Stmt → List Token
  | [] => []
  | s :: ss => s.tokens ++ .punct .semi :: stmtTokens ss

/-- The tokens of a block. -/
def Block.tokens : Block → List Token
  | ⟨stmts, _⟩ => .punct .lbrace :: (stmtTokens stmts ++ [.punct .rbrace])

/-- The tokens of a parameter. -/
def Param.tokens : Param → List Token
  | ⟨type, name, value, _⟩ => type.token :: .identifier name.name :: defaultTokens value

/-- The tokens of the default of a parameter, if it has one. -/
def defaultTokens : Option Expr → List Token
  | none => []
  | some e => .punct .assign :: enclosed e.inner

/-- The tokens of parameters with commas between them. -/
def paramTokens : List Param → List Token
  | [] => []
  | p :: ps => p.tokens ++ moreParamTokens ps

/-- The tokens of further parameters, each after a comma. -/
def moreParamTokens : List Param → List Token
  | [] => []
  | p :: ps => .punct .comma :: (p.tokens ++ moreParamTokens ps)

/-- The tokens of a function, with its name if it has one. -/
def FunctionDef.tokens : FunctionDef → List Token
  | ⟨name, result, params, body, _⟩ =>
      .keyword .fun_ :: result.token ::
        ((name.map fun ident => Token.identifier ident.name).toList ++
          (enclosed (paramTokens params) ++ body.tokens))

/-- The tokens of a definition. -/
def VarDef.tokens : VarDef → List Token
  | ⟨type, name, value, constant, _⟩ =>
      (if constant then [.keyword .const] else []) ++
        type.token :: .identifier name.name :: .punct .assign :: enclosed value.inner

end

/-- The tokens of a program: the global definitions before the functions. -/
def Program.tokens (program : Program) : List Token :=
  program.globals.flatMap (VarDef.tokens literal) ++
    program.functions.flatMap (FunctionDef.tokens literal)

/-- The text of a program. -/
def Program.render (program : Program) : String := String.ofList (written (program.tokens literal))

end Tokens

/-! ## Nesting -/

mutual

/-- The levels around the innermost token of an expression, its own parentheses apart. -/
def Expr.depth : Expr → Nat
  | .number .. | .bool .. | .name .. => 0
  | .list items _ => itemsDepth items
  | .map entries _ => entriesDepth entries
  | .range first last _ step _ => max (first.depth + 2) (max (last.depth + 2) (optionDepth step))
  | .call _ args _ => itemsDepth args
  | .apply callee args _ => max (callee.depth + 1) (itemsDepth args)
  | .method receiver _ args _ => max (receiver.depth + 1) (itemsDepth args)
  | .create _ args _ => itemsDepth args
  | .index target key _ => max (target.depth + 1) (key.depth + 2)
  | .update target key value _ =>
      max (target.depth + 1) (max (key.depth + 2) (value.depth + 2))
  | .binary left _ right _ => max (left.depth + 1) (right.depth + 1)
  | .unary _ operand _ => operand.depth + 2
  | .conditional condition yes no _ =>
      max (condition.depth + 1) (max yes.depth (elseDepth no))
  | .function definition => definition.depth

/-- The levels around the innermost token of several expressions. -/
def itemsDepth : List Expr → Nat
  | [] => 0
  | e :: es => max (e.depth + 2) (itemsDepth es)

/-- The levels around the innermost token of the entries of a map. -/
def entriesDepth : List (Expr × Expr) → Nat
  | [] => 0
  | (key, value) :: es => max (key.depth + 2) (max (value.depth + 2) (entriesDepth es))

/-- The levels around the innermost token of an expression that may be absent. -/
def optionDepth : Option Expr → Nat
  | none => 0
  | some e => e.depth + 2

/-- The levels around the innermost token of a block that may be absent. -/
def elseDepth : Option Block → Nat
  | none => 0
  | some b => b.depth

/-- The levels around the innermost token of a statement, its own apart. -/
def Stmt.depth : Stmt → Nat
  | .define definition => definition.depth
  | .function definition => definition.depth
  | .assign _ value _ => value.depth + 2
  | .expr value => value.depth + 2
  | .return_ value _ => value.depth + 2
  | .for_ _ _ iterable body _ => max (iterable.depth + 2) body.depth
  | .while_ condition body _ => max (condition.depth + 1) body.depth

/-- The levels around the innermost token of several statements. -/
def stmtsDepth : List Stmt → Nat
  | [] => 0
  | s :: ss => max (s.depth + 1) (stmtsDepth ss)

/-- The levels around the innermost token of a block. -/
def Block.depth : Block → Nat
  | ⟨stmts, _⟩ => stmtsDepth stmts

/-- The levels around the innermost token of several parameters. -/
def paramsDepth : List Param → Nat
  | [] => 0
  | ⟨_, _, value, _⟩ :: ps => max (optionDepth value) (paramsDepth ps)

/-- The levels around the innermost token of a function. -/
def FunctionDef.depth : FunctionDef → Nat
  | ⟨_, _, params, body, _⟩ => max (paramsDepth params) body.depth

/-- The levels around the innermost token of a definition. -/
def VarDef.depth : VarDef → Nat
  | ⟨_, _, value, _, _⟩ => value.depth + 2

end

/-- The levels around the innermost token of a program. -/
def Program.nesting (program : Program) : Nat :=
  max (program.globals.foldr (fun d depth => max d.depth depth) 0)
    (program.functions.foldr (fun f depth => max f.depth depth) 0)

/-- The depth of several things is at least that of each. -/
theorem le_of_max_cons {α : Type} (one : α → Nat) (several : List α → Nat)
    (step : ∀ x xs, several (x :: xs) = max (one x) (several xs)) {xs : List α} {x : α}
    (member : x ∈ xs) : one x ≤ several xs := by
  induction xs with
  | nil => simp at member
  | cons y ys ih =>
      rw [step]
      rcases List.mem_cons.mp member with rfl | among
      · exact Nat.le_max_left ..
      · exact (ih among).trans (Nat.le_max_right ..)

theorem le_itemsDepth {es : List Expr} {e : Expr} (member : e ∈ es) :
    e.depth + 2 ≤ itemsDepth es :=
  le_of_max_cons (fun e => e.depth + 2) itemsDepth (fun _ _ => rfl) member

theorem le_entriesDepth {es : List (Expr × Expr)} {e : Expr × Expr} (member : e ∈ es) :
    max (e.1.depth + 2) (e.2.depth + 2) ≤ entriesDepth es :=
  le_of_max_cons (fun e => max (e.1.depth + 2) (e.2.depth + 2)) entriesDepth
    (fun _ _ => (Nat.max_assoc ..).symm) member

theorem le_paramsDepth {ps : List Param} {p : Param} (member : p ∈ ps) :
    optionDepth p.default ≤ paramsDepth ps :=
  le_of_max_cons (fun p => optionDepth p.default) paramsDepth (fun ⟨_, _, _, _⟩ _ => rfl) member

theorem Program.depth_le_nesting_of_global (program : Program) {d : VarDef}
    (member : d ∈ program.globals) : d.depth ≤ program.nesting :=
  (le_of_max_cons VarDef.depth (List.foldr (fun d depth => max d.depth depth) 0)
    (fun _ _ => rfl) member).trans (Nat.le_max_left ..)

theorem Program.depth_le_nesting_of_function (program : Program) {f : FunctionDef}
    (member : f ∈ program.functions) : f.depth ≤ program.nesting :=
  (le_of_max_cons FunctionDef.depth (List.foldr (fun f depth => max f.depth depth) 0)
    (fun _ _ => rfl) member).trans (Nat.le_max_right ..)

/-! ## Legal trees -/

/-- A name that is not reserved. -/
def Ident.Legal (name : Ident) : Prop := isName name.name.toList = true

/-- The type of functions, or a name that is not reserved. -/
def TypeRef.Legal (type : TypeRef) : Prop := type.name = "fun" ∨ isName type.name.toList = true

section Legal

variable (literal : Float → Span → Literal)

mutual

/-- Names can be written, and the literals of numbers have their values. -/
def Expr.Legal : Expr → Prop
  | .number value span =>
      (literal value span).WellFormed ∧ (literal value span).value = value
  | .bool .. => True
  | .list items _ => itemsLegal items
  | .map entries _ => entriesLegal entries
  | .range first last _ step _ => first.Legal ∧ last.Legal ∧ optionLegal step
  | .name name _ => isName name.toList = true
  | .call name args _ => name.Legal ∧ itemsLegal args
  | .apply callee args _ => callee.Legal ∧ itemsLegal args
  | .method receiver name args _ => receiver.Legal ∧ name.Legal ∧ itemsLegal args
  | .create type args _ => type.Legal ∧ itemsLegal args
  | .index target key _ => target.Legal ∧ key.Legal
  | .update target key value _ => target.Legal ∧ key.Legal ∧ value.Legal
  | .binary left _ right _ => left.Legal ∧ right.Legal
  | .unary _ operand _ => operand.Legal
  | .conditional condition yes no _ => condition.Legal ∧ yes.Legal ∧ elseLegal no
  | .function definition => definition.name = none ∧ definition.Legal

/-- Several expressions are legal. -/
def itemsLegal : List Expr → Prop
  | [] => True
  | e :: es => e.Legal ∧ itemsLegal es

/-- The entries of a map are legal. -/
def entriesLegal : List (Expr × Expr) → Prop
  | [] => True
  | (key, value) :: es => key.Legal ∧ value.Legal ∧ entriesLegal es

/-- An expression that may be absent is legal. -/
def optionLegal : Option Expr → Prop
  | none => True
  | some e => e.Legal

/-- A block that may be absent is legal. -/
def elseLegal : Option Block → Prop
  | none => True
  | some b => b.Legal

/-- A statement is legal; a function that is a statement has a name. -/
def Stmt.Legal : Stmt → Prop
  | .define definition => definition.Legal
  | .function definition => definition.name.isSome = true ∧ definition.Legal
  | .assign name value _ => name.Legal ∧ value.Legal
  | .expr value => value.Legal
  | .return_ value _ => value.Legal
  | .for_ type item iterable body _ => type.Legal ∧ item.Legal ∧ iterable.Legal ∧ body.Legal
  | .while_ condition body _ => condition.Legal ∧ body.Legal

/-- Several statements are legal. -/
def stmtsLegal : List Stmt → Prop
  | [] => True
  | s :: ss => s.Legal ∧ stmtsLegal ss

/-- A block is legal. -/
def Block.Legal : Block → Prop
  | ⟨stmts, _⟩ => stmtsLegal stmts

/-- Several parameters are legal. -/
def paramsLegal : List Param → Prop
  | [] => True
  | ⟨type, name, value, _⟩ :: ps => type.Legal ∧ name.Legal ∧ optionLegal value ∧ paramsLegal ps

/-- A function is legal. -/
def FunctionDef.Legal : FunctionDef → Prop
  | ⟨name, result, params, body, _⟩ =>
      (∀ ident ∈ name, ident.Legal) ∧ result.Legal ∧ paramsLegal params ∧ body.Legal

/-- A definition is legal. -/
def VarDef.Legal : VarDef → Prop
  | ⟨type, name, value, _, _⟩ => type.Legal ∧ name.Legal ∧ value.Legal

end

/-- A program is legal: its names can be written, and its functions have names. -/
def Program.Legal (program : Program) : Prop :=
  (∀ d ∈ program.globals, d.Legal literal) ∧
    ∀ f ∈ program.functions, f.name.isSome = true ∧ f.Legal literal

end Legal

/-! ## Legal trees can be written -/

/-- All of some tokens can be written. -/
def AllWritable (tokens : List Token) : Prop := ∀ t ∈ tokens, t.Writable

@[simp]
theorem allWritable_nil : AllWritable [] := List.forall_mem_nil _

@[simp]
theorem allWritable_cons {t : Token} {tokens : List Token} :
    AllWritable (t :: tokens) ↔ t.Writable ∧ AllWritable tokens := List.forall_mem_cons

@[simp]
theorem allWritable_append {tokens tokens' : List Token} :
    AllWritable (tokens ++ tokens') ↔ AllWritable tokens ∧ AllWritable tokens' :=
  List.forall_mem_append

@[simp]
theorem Token.writable_keyword (k : Keyword) : (Token.keyword k).Writable := trivial

@[simp]
theorem Token.writable_punct (q : Punct) : (Token.punct q).Writable := trivial

@[simp]
theorem BinaryOp.writable_token (op : BinaryOp) : op.token.Writable := by
  cases op <;> trivial

@[simp]
theorem UnaryOp.writable_token (op : UnaryOp) : op.token.Writable := by
  cases op <;> trivial

@[simp]
theorem allWritable_enclosed {tokens : List Token} :
    AllWritable (enclosed tokens) ↔ AllWritable tokens := by
  simp [enclosed]

theorem Ident.Legal.writable {name : Ident} (legal : name.Legal) :
    (Token.identifier name.name).Writable := legal

theorem TypeRef.Legal.writable {type : TypeRef} (legal : type.Legal) : type.token.Writable := by
  unfold TypeRef.token
  split
  case isTrue => trivial
  case isFalse other => exact legal.resolve_left other

section Writable

variable {literal : Float → Span → Literal}

mutual

theorem Expr.Legal.writable {e : Expr} (legal : e.Legal literal) :
    AllWritable (e.inner literal) := by
  match e, legal with
  | .number .., legal => exact allWritable_cons.mpr ⟨legal.1, allWritable_nil⟩
  | .bool .., _ => simp [Expr.inner]
  | .list .., legal => simpa [Expr.inner] using itemsLegal.writable legal
  | .map .., legal => simpa [Expr.inner] using entriesLegal.writable legal
  | .range .., ⟨first, last, step⟩ =>
      simp [Expr.inner, first.writable, last.writable, optionLegal.writable step]
  | .name .., legal => exact allWritable_cons.mpr ⟨legal, allWritable_nil⟩
  | .call .., ⟨name, args⟩ => simp [Expr.inner, name.writable, itemsLegal.writable args]
  | .apply .., ⟨callee, args⟩ => simp [Expr.inner, callee.writable, itemsLegal.writable args]
  | .method .., ⟨receiver, name, args⟩ =>
      simp [Expr.inner, receiver.writable, name.writable, itemsLegal.writable args]
  | .create .., ⟨type, args⟩ => simp [Expr.inner, type.writable, itemsLegal.writable args]
  | .index .., ⟨target, key⟩ => simp [Expr.inner, target.writable, key.writable]
  | .update .., ⟨target, key, value⟩ =>
      simp [Expr.inner, target.writable, key.writable, value.writable]
  | .binary .., ⟨left, right⟩ => simp [Expr.inner, left.writable, right.writable]
  | .unary _ operand _, legal =>
      have operand_legal : operand.Legal literal := legal
      simpa [Expr.inner] using operand_legal.writable
  | .conditional .., ⟨condition, yes, no⟩ =>
      simp [Expr.inner, condition.writable, yes.writable, elseLegal.writable no]
  | .function _, ⟨_, definition⟩ => simpa [Expr.inner] using definition.writable

theorem itemsLegal.writable {es : List Expr} (legal : itemsLegal literal es) :
    AllWritable (itemTokens literal es) := by
  match es, legal with
  | [], _ => simp [itemTokens]
  | e :: es, ⟨first, others⟩ =>
      simp [itemTokens, first.writable, itemsLegal.writable_more others]

theorem itemsLegal.writable_more {es : List Expr} (legal : itemsLegal literal es) :
    AllWritable (moreItemTokens literal es) := by
  match es, legal with
  | [], _ => simp [moreItemTokens]
  | e :: es, ⟨first, others⟩ =>
      simp [moreItemTokens, first.writable, itemsLegal.writable_more others]

theorem entriesLegal.writable {es : List (Expr × Expr)} (legal : entriesLegal literal es) :
    AllWritable (entryTokens literal es) := by
  match es, legal with
  | [], _ => simp [entryTokens]
  | (_, _) :: _, ⟨key, value, others⟩ =>
      simp [entryTokens, key.writable, value.writable, entriesLegal.writable_more others]

theorem entriesLegal.writable_more {es : List (Expr × Expr)} (legal : entriesLegal literal es) :
    AllWritable (moreEntryTokens literal es) := by
  match es, legal with
  | [], _ => simp [moreEntryTokens]
  | (_, _) :: _, ⟨key, value, others⟩ =>
      simp [moreEntryTokens, key.writable, value.writable, entriesLegal.writable_more others]

theorem optionLegal.writable {e : Option Expr} (legal : optionLegal literal e) :
    AllWritable (stepTokens literal e) ∧ AllWritable (defaultTokens literal e) := by
  match e, legal with
  | none, _ => simp [stepTokens, defaultTokens]
  | some _, legal => simpa [stepTokens, defaultTokens] using Expr.Legal.writable legal

theorem elseLegal.writable {b : Option Block} (legal : elseLegal literal b) :
    AllWritable (elseTokens literal b) := by
  match b, legal with
  | none, _ => simp [elseTokens]
  | some _, legal => simpa [elseTokens] using Block.Legal.writable legal

theorem Stmt.Legal.writable {s : Stmt} (legal : s.Legal literal) :
    AllWritable (s.tokens literal) := by
  match s, legal with
  | .define _, definition => simpa [Stmt.tokens] using VarDef.Legal.writable definition
  | .function _, ⟨_, definition⟩ => simpa [Stmt.tokens] using definition.writable
  | .assign .., ⟨name, value⟩ => simp [Stmt.tokens, name.writable, value.writable]
  | .expr _, value => simpa [Stmt.tokens] using Expr.Legal.writable value
  | .return_ .., value => simpa [Stmt.tokens] using Expr.Legal.writable value
  | .for_ .., ⟨type, item, iterable, body⟩ =>
      simp [Stmt.tokens, type.writable, item.writable, iterable.writable, body.writable]
  | .while_ .., ⟨condition, body⟩ => simp [Stmt.tokens, condition.writable, body.writable]

theorem stmtsLegal.writable {ss : List Stmt} (legal : stmtsLegal literal ss) :
    AllWritable (stmtTokens literal ss) := by
  match ss, legal with
  | [], _ => simp [stmtTokens]
  | _ :: _, ⟨first, others⟩ => simp [stmtTokens, first.writable, stmtsLegal.writable others]

theorem Block.Legal.writable {b : Block} (legal : b.Legal literal) :
    AllWritable (b.tokens literal) := by
  match b, legal with
  | ⟨_, _⟩, stmts => simpa [Block.tokens] using stmtsLegal.writable stmts

theorem paramsLegal.writable {ps : List Param} (legal : paramsLegal literal ps) :
    AllWritable (paramTokens literal ps) := by
  match ps, legal with
  | [], _ => simp [paramTokens]
  | ⟨_, _, _, _⟩ :: _, ⟨type, name, value, others⟩ =>
      simp [paramTokens, Param.tokens, type.writable, name.writable, optionLegal.writable value,
        paramsLegal.writable_more others]

theorem paramsLegal.writable_more {ps : List Param} (legal : paramsLegal literal ps) :
    AllWritable (moreParamTokens literal ps) := by
  match ps, legal with
  | [], _ => simp [moreParamTokens]
  | ⟨_, _, _, _⟩ :: _, ⟨type, name, value, others⟩ =>
      simp [moreParamTokens, Param.tokens, type.writable, name.writable,
        optionLegal.writable value, paramsLegal.writable_more others]

theorem FunctionDef.Legal.writable {f : FunctionDef} (legal : f.Legal literal) :
    AllWritable (f.tokens literal) := by
  match f, legal with
  | ⟨none, _, _, _, _⟩, ⟨_, result, params, body⟩ =>
      simp [FunctionDef.tokens, result.writable, paramsLegal.writable params, body.writable]
  | ⟨some ident, _, _, _, _⟩, ⟨name, result, params, body⟩ =>
      have ident_legal : ident.Legal := name ident rfl
      simp [FunctionDef.tokens, ident_legal.writable, result.writable,
        paramsLegal.writable params, body.writable]

theorem VarDef.Legal.writable {d : VarDef} (legal : d.Legal literal) :
    AllWritable (d.tokens literal) := by
  match d, legal with
  | ⟨_, _, _, constant, _⟩, ⟨type, name, value⟩ =>
      cases constant <;> simp [VarDef.tokens, type.writable, name.writable, value.writable]

end

theorem Program.Legal.writable {program : Program} (legal : program.Legal literal) :
    AllWritable (program.tokens literal) := by
  intro t member
  rw [Program.tokens, List.mem_append, List.mem_flatMap, List.mem_flatMap] at member
  rcases member with ⟨d, among, member⟩ | ⟨f, among, member⟩
  · exact (legal.1 d among).writable t member
  · exact (legal.2 f among).2.writable t member

end Writable

end Formwork
