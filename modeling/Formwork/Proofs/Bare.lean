import Formwork.Grammar.Operand

/-!
# Trees without spans

`bare` puts one and the same span everywhere in a tree, so that two trees are equal up to spans if
they are equal once bare. A node that is built of operands is, once bare, built of the operands once
bare.
-/

namespace Formwork

/-- A name without its place. -/
def Ident.bare (name : Ident) : Ident := ⟨name.name, default⟩

/-- A type without its place. -/
def TypeRef.bare (type : TypeRef) : TypeRef := ⟨type.name, default⟩

mutual

/-- An expression without spans. -/
def Expr.bare : Expr → Expr
  | .number value _ => .number value default
  | .bool value _ => .bool value default
  | .list items _ => .list (bareExprs items) default
  | .map entries _ => .map (bareEntries entries) default
  | .range first last inclusive step _ =>
      .range first.bare last.bare inclusive (bareExpr? step) default
  | .name name _ => .name name default
  | .call name args _ => .call name.bare (bareExprs args) default
  | .apply callee args _ => .apply callee.bare (bareExprs args) default
  | .method receiver name args _ => .method receiver.bare name.bare (bareExprs args) default
  | .create type args _ => .create type.bare (bareExprs args) default
  | .index target key _ => .index target.bare key.bare default
  | .update target key value _ => .update target.bare key.bare value.bare default
  | .binary left op right _ => .binary left.bare op right.bare default
  | .unary op operand _ => .unary op operand.bare default
  | .conditional condition yes no _ =>
      .conditional condition.bare yes.bare (bareBlock? no) default
  | .function definition => .function definition.bare

/-- Expressions without spans. -/
def bareExprs : List Expr → List Expr
  | [] => []
  | e :: es => e.bare :: bareExprs es

/-- The entries of a map without spans. -/
def bareEntries : List (Expr × Expr) → List (Expr × Expr)
  | [] => []
  | (key, value) :: es => (key.bare, value.bare) :: bareEntries es

/-- An expression without spans, if there is one. -/
def bareExpr? : Option Expr → Option Expr
  | none => none
  | some e => some e.bare

/-- A block without spans, if there is one. -/
def bareBlock? : Option Block → Option Block
  | none => none
  | some b => some b.bare

/-- A statement without spans. -/
def Stmt.bare : Stmt → Stmt
  | .define definition => .define definition.bare
  | .function definition => .function definition.bare
  | .assign name value _ => .assign name.bare value.bare default
  | .expr value => .expr value.bare
  | .return_ value _ => .return_ value.bare default
  | .for_ type item iterable body _ =>
      .for_ type.bare item.bare iterable.bare body.bare default
  | .while_ condition body _ => .while_ condition.bare body.bare default

/-- Statements without spans. -/
def bareStmts : List Stmt → List Stmt
  | [] => []
  | s :: ss => s.bare :: bareStmts ss

/-- A block without spans. -/
def Block.bare : Block → Block
  | ⟨stmts, _⟩ => ⟨bareStmts stmts, default⟩

/-- A parameter without spans. -/
def Param.bare : Param → Param
  | ⟨type, name, value, _⟩ => ⟨type.bare, name.bare, bareExpr? value, default⟩

/-- Parameters without spans. -/
def bareParams : List Param → List Param
  | [] => []
  | p :: ps => p.bare :: bareParams ps

/-- A function without spans. -/
def FunctionDef.bare : FunctionDef → FunctionDef
  | ⟨name, result, params, body, _⟩ =>
      ⟨name.map Ident.bare, result.bare, bareParams params, body.bare, default⟩

/-- A definition without spans. -/
def VarDef.bare : VarDef → VarDef
  | ⟨type, name, value, constant, _⟩ => ⟨type.bare, name.bare, value.bare, constant, default⟩

end

/-- A program without spans. -/
def Program.bare (program : Program) : Program :=
  ⟨program.globals.map VarDef.bare, program.functions.map FunctionDef.bare, default⟩

@[simp]
theorem bareExprs_eq_map (es : List Expr) : bareExprs es = es.map Expr.bare := by
  induction es with
  | nil => rfl
  | cons e es ih => rw [bareExprs, ih, List.map_cons]

@[simp]
theorem bareStmts_eq_map (ss : List Stmt) : bareStmts ss = ss.map Stmt.bare := by
  induction ss with
  | nil => rfl
  | cons s ss ih => rw [bareStmts, ih, List.map_cons]

@[simp]
theorem bareParams_eq_map (ps : List Param) : bareParams ps = ps.map Param.bare := by
  induction ps with
  | nil => rfl
  | cons p ps ih => rw [bareParams, ih, List.map_cons]

@[simp]
theorem bareEntries_eq_map (es : List (Expr × Expr)) :
    bareEntries es = es.map fun e => (e.1.bare, e.2.bare) := by
  induction es with
  | nil => rfl
  | cons e es ih => rw [bareEntries, ih, List.map_cons]

/-- An operand without spans. -/
def Operand.bare : Operand → Operand
  | .name n => .name n.bare
  | .type t => .type t.bare
  | .expr e => .expr e.bare
  | .entry k v => .entry k.bare v.bare
  | .param p => .param p.bare
  | .stmt s => .stmt s.bare
  | .block b => .block b.bare
  | .varDef d => .varDef d.bare
  | .function f => .function f.bare
  | .operator op => .operator op
  | .constant => .constant
  | .bounds i => .bounds i

theorem Span.merge_self (s : Span) : s.merge s = s := by
  simp [Span.merge]

@[simp]
theorem Expr.span_bare (e : Expr) : e.bare.span = default := by
  cases e with
  | function definition => cases definition; rfl
  | _ => rfl

@[simp]
theorem Expr.isIndex_bare (e : Expr) : e.bare.isIndex = e.isIndex := by
  cases e <;> rfl

namespace Reduction

theorem exprs?_bare (ops : List Operand) :
    exprs? (ops.map Operand.bare) = (exprs? ops).map fun es => es.map Expr.bare := by
  induction ops with
  | nil => rfl
  | cons op ops ih =>
      cases op <;> simp [exprs?, Operand.bare, ih, Function.comp_def]

theorem stmts?_bare (ops : List Operand) :
    stmts? (ops.map Operand.bare) = (stmts? ops).map fun ss => ss.map Stmt.bare := by
  induction ops with
  | nil => rfl
  | cons op ops ih =>
      cases op <;> simp [stmts?, Operand.bare, ih, Function.comp_def]

theorem entries?_bare (ops : List Operand) :
    entries? (ops.map Operand.bare) =
      (entries? ops).map fun es => es.map fun e => (e.1.bare, e.2.bare) := by
  induction ops with
  | nil => rfl
  | cons op ops ih =>
      cases op <;> simp [entries?, Operand.bare, ih, Function.comp_def]

theorem signature?_bare (ops : List Operand) :
    signature? (ops.map Operand.bare) =
      (signature? ops).map fun s => (s.1.map Param.bare, s.2.bare) := by
  fun_induction signature? ops with
  | case1 body => rfl
  | case2 p rest ih => simp [signature?, Operand.bare, ih, Function.comp_def]
  | case3 ops other other' =>
      rcases ops with _ | ⟨op, _ | ⟨next, rest⟩⟩
      · rfl
      · cases op with
        | block body => exact absurd rfl (other body)
        | _ => rfl
      · cases op with
        | param p => exact absurd rfl (other' p _)
        | _ => rfl

/-- A node, once bare, is what is built of the operands once bare. -/
theorem build?_bare {r : Reduction} {span : Span} {ops : List Operand} {o : Operand}
    (built : r.build? span ops = some o) :
    r.build? default (ops.map Operand.bare) = some o.bare := by
  unfold build? at built
  split at built
  -- Nodes of a list of operands
  case h_5 | h_6 | h_8 | h_18 | h_19 | h_20 | h_21 | h_29 | h_31 =>
    obtain ⟨several, found, rfl⟩ := Option.map_eq_some_iff.mp built
    simp [build?, found, exprs?_bare, stmts?_bare, entries?_bare, signature?_bare, Operand.bare,
      Expr.bare, Block.bare, FunctionDef.bare]
  -- Nodes whose span is that of their operands
  case h_7 | h_24 =>
    obtain rfl := Option.some.inj built
    simp [build?, Operand.bare, Expr.bare, Block.bare, Stmt.bare, Span.merge_self]
  case h_34 => simp at built
  all_goals
    obtain rfl := Option.some.inj built
    rfl

end Reduction

end Formwork
