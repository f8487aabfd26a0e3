import Formwork.Proofs.Climb

/-!
# Reading what is written

Each kind of node is read from its own tokens if its parts are, whatever comes behind. The rules
that are tried before fail at the first token, or at the second where a definition starts like
another statement. The induction over trees in `Expr.Legal.readable` only puts these lemmas
together.
-/

namespace Formwork

/-! ## Expressions -/

/-- Whether an expression in parentheses is whole in front of a token. -/
def closes (next : Option Token) : Bool :=
  Rule.atom.isExpression (some (.punct .lparen)) next

section Expressions

variable (literal : Float → Span → Literal)

/-- An expression is read inside its parentheses. -/
def Expr.Readable (e : Expr) : Prop :=
  ∀ tokens, Rule.expression.Gives (e.depth + 1) (e.inner literal ++ .punct .rparen :: tokens)
    [.expr e.bare] (.punct .rparen :: tokens)

/-- A block is read. -/
def Block.Readable (b : Block) : Prop :=
  ∀ tokens, Rule.block.Gives b.depth (b.tokens literal ++ tokens) [.block b.bare] tokens

end Expressions

variable {literal : Float → Span → Literal} {tokens : List Token}

@[simp]
theorem enclosed_append (inner : List Token) :
    enclosed inner ++ tokens = .punct .lparen :: (inner ++ .punct .rparen :: tokens) := by
  simp [enclosed]

namespace Expr.Readable

variable {e : Expr}

/-- An expression with its parentheses is an operand. -/
theorem atom (readable : e.Readable literal) :
    Rule.atom.Gives (e.depth + 1) (enclosed (e.inner literal) ++ tokens) [.expr e.bare] tokens := by
  rw [enclosed_append]
  -- Five alternatives come before the one that starts with a parenthesis.
  refine .orElse (.of_refuses rfl) <| .orElse (.of_refuses rfl) <| .orElse (.of_refuses rfl) <|
    .orElse (.of_refuses rfl) <| .orElse (.of_refuses rfl) <| .choice ?_
  exact .seq (.sign .lparen) (.seq (.rule (readable tokens)) (.sign .rparen))

/-- An expression with its parentheses is read by each rule that only hands it on. -/
theorem operand (readable : e.Readable literal) {r : Rule}
    (hands : Rule.atom.hands r (some (.punct .lparen)) tokens.head? = true) {depth : Nat}
    (deep : e.depth + 1 ≤ depth) :
    r.Gives depth (enclosed (e.inner literal) ++ tokens) [.expr e.bare] tokens :=
  (readable.atom.climb hands).mono deep

/-- An expression with its parentheses is an expression. -/
theorem item (readable : e.Readable literal) (closing : closes tokens.head? = true) {depth : Nat}
    (deep : e.depth + 2 ≤ depth) {os : List Operand} :
    (Phrase.rule .expression).Passes depth ⟨enclosed (e.inner literal) ++ tokens, os⟩
      ⟨tokens, os ++ [.expr e.bare]⟩ :=
  .rule ((readable.atom.expression closing).mono deep)

end Expr.Readable

/-! ### Items and entries -/

section Items

variable (literal)

theorem moreItemTokens_eq (es : List Expr) :
    moreItemTokens literal es = afterCommas (fun e => enclosed (e.inner literal)) es := by
  induction es with
  | nil => rfl
  | cons e es ih => simp [moreItemTokens, ih, afterCommas]

theorem itemTokens_eq (es : List Expr) :
    itemTokens literal es = separated (fun e => enclosed (e.inner literal)) es := by
  cases es with
  | nil => rfl
  | cons e es => rw [itemTokens, moreItemTokens_eq, separated]

/-- The tokens of an entry of a map. -/
def entryInner (entry : Expr × Expr) : List Token :=
  enclosed (entry.1.inner literal) ++ .punct .colon :: enclosed (entry.2.inner literal)

theorem moreEntryTokens_eq (es : List (Expr × Expr)) :
    moreEntryTokens literal es = afterCommas (entryInner literal) es := by
  induction es with
  | nil => rfl
  | cons e es ih => simp [moreEntryTokens, ih, afterCommas, entryInner]

end Items

/-- Several expressions are read with commas before them. -/
theorem passes_moreItems {es : List Expr} (readable : ∀ e ∈ es, e.Readable literal) {close : Punct}
    (closing : closes (some (.punct close)) = true) (apart : close ≠ .comma) {os : List Operand} :
    (Phrase.many (.seq (.sign .comma) (.rule .expression))).Passes (itemsDepth es)
      ⟨moreItemTokens literal es ++ .punct close :: tokens, os⟩
      ⟨.punct close :: tokens, os ++ es.map fun e => .expr e.bare⟩ := by
  rw [moreItemTokens_eq]
  refine .commas apart fun e member q next ts os => ?_
  refine (readable e member).item ?_ (le_itemsDepth member)
  rcases next with rfl | rfl
  · rfl
  · exact closing

/-- The arguments of a call are read. -/
theorem gives_args {es : List Expr} (readable : ∀ e ∈ es, e.Readable literal) :
    Rule.args.Gives (itemsDepth es) (enclosed (itemTokens literal es) ++ tokens)
      (es.map fun e => .expr e.bare) tokens := by
  rw [enclosed_append, itemTokens_eq]
  refine .remembered (.seq (.sign .lparen) (.seq (.commaList (by decide) rfl ?_) (.sign .rparen)))
  intro e member q next ts os
  refine (readable e member).item ?_ (le_itemsDepth member)
  rcases next with rfl | rfl <;> rfl

/-! ### Operands without spans -/

namespace Reduction

theorem exprs?_map_bare (es : List Expr) :
    exprs? (es.map fun e => .expr e.bare) = some (bareExprs es) := by
  induction es with
  | nil => rfl
  | cons e es ih => rw [List.map_cons, exprs?, ih, bareExprs, Option.map_some]

theorem entries?_map_bare (es : List (Expr × Expr)) :
    entries? (es.map fun e => .entry e.1.bare e.2.bare) = some (bareEntries es) := by
  induction es with
  | nil => rfl
  | cons e es ih => rw [List.map_cons, entries?, ih, bareEntries, Option.map_some]

theorem stmts?_map_bare (ss : List Stmt) :
    stmts? (ss.map fun s => .stmt s.bare) = some (bareStmts ss) := by
  induction ss with
  | nil => rfl
  | cons s ss ih => rw [List.map_cons, stmts?, ih, bareStmts, Option.map_some]

theorem signature?_map_bare (ps : List Param) (body : Block) :
    signature? ((ps.map fun p => .param p.bare) ++ [.block body]) = some (bareParams ps, body) := by
  induction ps with
  | nil => rfl
  | cons p ps ih =>
      rw [List.map_cons, List.cons_append, signature?, ih, bareParams, Option.map_some]

end Reduction

/-! ### Operands -/

namespace Expr.Readable

theorem number {value : Float} {span : Span} (value_eq : (literal value span).value = value) :
    (Expr.number value span).Readable literal := by
  intro tokens
  have gives : Rule.atom.Gives 0
      (.number (literal value span) :: .punct .rparen :: tokens)
      [.expr (.number (literal value span).value default)] (.punct .rparen :: tokens) :=
    .choice .number
  rw [value_eq] at gives
  exact gives.expression rfl

theorem bool (value : Bool) (span : Span) : (Expr.bool value span).Readable literal := by
  intro tokens
  have gives : Rule.atom.Gives 0
      (.keyword (if value then .true_ else .false_) :: .punct .rparen :: tokens)
      [.expr (.bool value default)] (.punct .rparen :: tokens) := by
    cases value with
    | true => exact .orElse (.of_refuses rfl) (.choice (.choice (.token (.bool true) rfl rfl)))
    | false =>
        refine .orElse (.of_refuses rfl) (.choice (.orElse (.of_refuses rfl) ?_))
        exact .token (.bool false) rfl rfl
  cases value <;> exact gives.expression rfl

theorem name (name : String) (span : Span) : (Expr.name name span).Readable literal := by
  intro tokens
  have gives : Rule.atom.Gives 0 (.identifier name :: .punct .rparen :: tokens)
      [.expr (.name name default)] (.punct .rparen :: tokens) := by
    refine .orElse (.of_refuses rfl) <| .orElse (.of_refuses rfl) <| .orElse (.of_refuses rfl) <|
      .orElse (.of_refuses rfl) <| .choice <| .seq (.ident ⟨name, span⟩) ?_
    exact .orElse (.of_refuses rfl) (.reduceAll rfl rfl)
  exact gives.expression rfl

theorem call (name : Ident) {args : List Expr} (span : Span)
    (readable : ∀ e ∈ args, e.Readable literal) : (Expr.call name args span).Readable literal := by
  intro tokens
  have gives : Rule.atom.Gives (itemsDepth args)
      (.identifier name.name :: (enclosed (itemTokens literal args) ++ .punct .rparen :: tokens))
      [.expr (.call name.bare (bareExprs args) default)] (.punct .rparen :: tokens) := by
    refine .orElse (.of_refuses rfl) <| .orElse (.of_refuses rfl) <| .orElse (.of_refuses rfl) <|
      .orElse (.of_refuses rfl) <| .choice <| .seq (.ident name) ?_
    refine .choice (.seq (.rule (gives_args readable)) (.reduceAll rfl ?_))
    simp [Reduction.build?, Reduction.exprs?_map_bare]
  exact gives.expression rfl

theorem create (type : TypeRef) {args : List Expr} (span : Span)
    (readable : ∀ e ∈ args, e.Readable literal) :
    (Expr.create type args span).Readable literal := by
  intro tokens
  have gives : Rule.atom.Gives (itemsDepth args)
      (.keyword .new :: type.token ::
        (enclosed (itemTokens literal args) ++ .punct .rparen :: tokens))
      [.expr (.create type.bare (bareExprs args) default)] (.punct .rparen :: tokens) := by
    refine .orElse (.of_refuses rfl) <| .orElse (.of_refuses rfl) <| .choice ?_
    refine .seq (.word .new) (.seq (.type type) (.seq (.rule (gives_args readable)) ?_))
    refine .reduceAll rfl ?_
    simp [Reduction.build?, Reduction.exprs?_map_bare]
  exact gives.expression rfl

end Expr.Readable

/-! ### Lists, maps and ranges -/

theorem passes_entry {depth : Nat} {os : List Operand} (key value : Expr) :
    (Phrase.reduce .entry).Passes depth ⟨tokens, os ++ [.expr key] ++ [.expr value]⟩
      ⟨tokens, os ++ [.entry key value]⟩ := by
  have passes : (Phrase.reduce .entry).Passes depth
      ⟨tokens, os ++ [.expr key] ++ [.expr value]⟩ _ :=
    .reduce (o := .entry key value) (by simp [Reduction.kept, Reduction.arity?, Reduction.build?])
  simpa [Reduction.kept, Reduction.arity?] using passes

/-- An entry is read from its key on. -/
theorem passes_entryInner {e : Expr × Expr}
    (readable : e.1.Readable literal ∧ e.2.Readable literal)
    (closing : closes tokens.head? = true) {os : List Operand} :
    (Phrase.chain [.rule .expression, .sign .colon, .rule .expression] (.reduce .entry)).Passes
      (max (e.1.depth + 2) (e.2.depth + 2)) ⟨entryInner literal e ++ tokens, os⟩
      ⟨tokens, os ++ [.entry e.1.bare e.2.bare]⟩ := by
  rw [entryInner, List.append_assoc, List.cons_append]
  refine .seq (readable.1.item rfl (Nat.le_max_left ..)) (.seq (.sign .colon) ?_)
  exact .seq (readable.2.item closing (Nat.le_max_right ..)) (passes_entry _ _)

/-- Several entries are read with commas before them. -/
theorem passes_moreEntries {es : List (Expr × Expr)}
    (readable : ∀ e ∈ es, e.1.Readable literal ∧ e.2.Readable literal) {os : List Operand} :
    (Phrase.many (.chain [.sign .comma, .rule .expression, .sign .colon, .rule .expression]
        (.reduce .entry))).Passes (entriesDepth es)
      ⟨moreEntryTokens literal es ++ .punct .rbracket :: tokens, os⟩
      ⟨.punct .rbracket :: tokens, os ++ es.map fun e => .entry e.1.bare e.2.bare⟩ := by
  rw [moreEntryTokens_eq]
  refine .commas (by decide) fun e member q next ts os => ?_
  refine (passes_entryInner (readable e member) ?_).mono (le_entriesDepth member)
  rcases next with rfl | rfl <;> rfl

namespace Expr.Readable

theorem list {items : List Expr} (span : Span) (readable : ∀ e ∈ items, e.Readable literal) :
    (Expr.list items span).Readable literal := by
  intro tokens
  suffices gives : Rule.collection.Gives (itemsDepth items)
      (.punct .lbracket ::
        (itemTokens literal items ++ .punct .rbracket :: .punct .rparen :: tokens))
      [.expr (.list (bareExprs items) default)] (.punct .rparen :: tokens) by
    simpa [Expr.inner, Expr.depth, Expr.bare] using gives.expression rfl
  refine .seq (.sign .lbracket) ?_
  cases items with
  | nil => exact .orElse (.of_refuses rfl) (.yes_ rfl rfl (.reduceAll rfl rfl))
  | cons e es =>
      obtain ⟨first, others⟩ := List.forall_mem_cons.mp readable
      rw [itemTokens, List.append_assoc, itemsDepth]
      refine .orElse (.of_refuses rfl) (.no_ rfl ?_)
      refine .seq (first.item (by cases es <;> rfl) (Nat.le_max_left ..)) ?_
      refine .orElse (.of_refuses (by cases es <;> rfl)) ?_
      refine .orElse (.of_refuses (by cases es <;> rfl)) ?_
      refine .seq ((passes_moreItems others rfl (by decide)).mono (Nat.le_max_right ..)) ?_
      refine .seq (.sign .rbracket) (.reduceAll rfl ?_)
      simp [Reduction.build?, Reduction.exprs?, Reduction.exprs?_map_bare]

theorem map {entries : List (Expr × Expr)} (span : Span)
    (readable : ∀ e ∈ entries, e.1.Readable literal ∧ e.2.Readable literal) :
    (Expr.map entries span).Readable literal := by
  intro tokens
  suffices gives : Rule.collection.Gives (entriesDepth entries)
      (.punct .lbracket ::
        (entryTokens literal entries ++ .punct .rbracket :: .punct .rparen :: tokens))
      [.expr (.map (bareEntries entries) default)] (.punct .rparen :: tokens) by
    simpa [Expr.inner, Expr.depth, Expr.bare] using gives.expression rfl
  refine .seq (.sign .lbracket) ?_
  cases entries with
  | nil => exact .choice (.seq (.sign .colon) (.seq (.sign .rbracket) (.reduceAll rfl rfl)))
  | cons e es =>
      obtain ⟨⟨key, value⟩, others⟩ := List.forall_mem_cons.mp readable
      have key_depth : e.1.depth + 2 ≤ entriesDepth (e :: es) := Nat.le_max_left ..
      have value_depth : e.2.depth + 2 ≤ entriesDepth (e :: es) := by rw [entriesDepth]; omega
      have others_depth : entriesDepth es ≤ entriesDepth (e :: es) := by rw [entriesDepth]; omega
      rw [entryTokens, List.append_assoc, List.cons_append, List.append_assoc]
      refine .orElse (.of_refuses rfl) (.no_ rfl (.seq (key.item rfl key_depth) ?_))
      refine .orElse (.of_refuses rfl) (.choice (.seq (.sign .colon) ?_))
      refine .seq (value.item (by cases es <;> rfl) value_depth) (.seq (passes_entry _ _) ?_)
      refine .seq ((passes_moreEntries others).mono others_depth) ?_
      refine .seq (.sign .rbracket) (.reduceAll rfl ?_)
      simp [Reduction.build?, Reduction.entries?, Reduction.entries?_map_bare]

end Expr.Readable

theorem passes_bounds (inclusive : Bool) {depth : Nat} {os : List Operand} :
    (Phrase.choice (.token (.punct .dotDotDot) (.bounds true))
        (.token (.punct .dotDot) (.bounds false))).Passes depth
      ⟨.punct (if inclusive then .dotDotDot else .dotDot) :: tokens, os⟩
      ⟨tokens, os ++ [.bounds inclusive]⟩ := by
  cases inclusive with
  | true => exact .choice (.token (.bounds true) rfl rfl)
  | false => exact .orElse (.of_refuses rfl) (.token (.bounds false) rfl rfl)

namespace Expr.Readable

theorem range {first last : Expr} (inclusive : Bool) {step : Option Expr} (span : Span)
    (first_readable : first.Readable literal) (last_readable : last.Readable literal)
    (step_readable : ∀ e ∈ step, e.Readable literal) :
    (Expr.range first last inclusive step span).Readable literal := by
  intro tokens
  suffices gives : Rule.collection.Gives (Expr.range first last inclusive step span).depth
      (.punct .lbracket :: (enclosed (first.inner literal) ++
        .punct (if inclusive then .dotDotDot else .dotDot) :: (enclosed (last.inner literal) ++
          (stepTokens literal step ++ .punct .rbracket :: .punct .rparen :: tokens))))
      [.expr (.range first.bare last.bare inclusive (bareExpr? step) default)]
      (.punct .rparen :: tokens) by
    simpa [Expr.inner, Expr.bare] using gives.expression rfl
  have first_depth : first.depth + 2 ≤ (Expr.range first last inclusive step span).depth := by
    rw [Expr.depth]
    omega
  have last_depth : last.depth + 2 ≤ (Expr.range first last inclusive step span).depth := by
    rw [Expr.depth]
    omega
  refine .seq (.sign .lbracket) (.orElse (.of_refuses rfl) (.no_ rfl ?_))
  refine .seq (first_readable.item (by cases inclusive <;> rfl) first_depth) (.choice ?_)
  refine .seq (passes_bounds inclusive) ?_
  refine .seq (last_readable.item (by cases step <;> rfl) last_depth) ?_
  cases step with
  | none =>
      exact .seq (.noOption (.of_refuses rfl)) (.seq (.sign .rbracket) (.reduceAll rfl rfl))
  | some e =>
      have step_depth : e.depth + 2 ≤ (Expr.range first last inclusive (some e) span).depth := by
        rw [Expr.depth, optionDepth]
        omega
      refine .seq (.option (.seq (.word .step) ((step_readable e rfl).item rfl step_depth))) ?_
      exact .seq (.sign .rbracket) (.reduceAll rfl rfl)

end Expr.Readable

/-! ### Operators -/

/-- The rule that reads an operator between two operands. -/
def BinaryOp.rule : BinaryOp → Rule
  | .or | .xor => .boolean
  | .and => .conjunction
  | .eq | .notEq | .less | .lessEq | .greater | .greaterEq => .comparison
  | .add | .sub => .sum
  | .mul | .div | .mod => .product
  | .pow => .power

namespace Expr.Readable

theorem binary {left right : Expr} (op : BinaryOp) (span : Span)
    (left_readable : left.Readable literal) (right_readable : right.Readable literal) :
    (Expr.binary left op right span).Readable literal := by
  intro tokens
  have left_depth : left.depth + 1 ≤ max (left.depth + 1) (right.depth + 1) := Nat.le_max_left ..
  have right_depth : right.depth + 1 ≤ max (left.depth + 1) (right.depth + 1) := Nat.le_max_right ..
  have gives : op.rule.Gives (max (left.depth + 1) (right.depth + 1))
      (enclosed (left.inner literal) ++
        op.token :: (enclosed (right.inner literal) ++ .punct .rparen :: tokens))
      [.expr (.binary left.bare op right.bare default)] (.punct .rparen :: tokens) := by
    cases op with
    | eq | notEq | less | lessEq | greater | greaterEq =>
        refine .seq (.rule (left_readable.operand rfl left_depth)) (.option ?_)
        exact .round rfl (right_readable.operand rfl right_depth)
    | _ =>
        refine .seq (.rule (left_readable.operand rfl left_depth)) ?_
        exact .more (.round rfl (right_readable.operand rfl right_depth)) (.done (.of_refuses rfl))
  have is_expression :
      op.rule.isExpression (some (.punct .lparen)) (some (.punct .rparen)) = true := by
    cases op <;> rfl
  simpa [Expr.inner, Expr.depth, Expr.bare] using gives.expression is_expression

theorem unary {operand : Expr} (op : UnaryOp) (span : Span)
    (readable : operand.Readable literal) : (Expr.unary op operand span).Readable literal := by
  intro tokens
  cases op with
  | neg =>
      have gives : Rule.unary.Gives (operand.depth + 2)
          (.punct .minus :: (enclosed (operand.inner literal) ++ .punct .rparen :: tokens))
          [.expr (.unary .neg operand.bare default)] (.punct .rparen :: tokens) := by
        refine .orElse (.of_refuses rfl) (.seq (.sign .minus) ?_)
        exact .seq (.nested (.rule (readable.operand rfl le_rfl))) (.reduceAll rfl rfl)
      exact gives.expression rfl
  | not =>
      have gives : Rule.negation.Gives (operand.depth + 2)
          (.keyword .not :: (enclosed (operand.inner literal) ++ .punct .rparen :: tokens))
          [.expr (.unary .not operand.bare default)] (.punct .rparen :: tokens) := by
        refine .yes_ rfl rfl ?_
        exact .seq (.nested (.rule (readable.operand rfl le_rfl))) (.reduceAll rfl rfl)
      exact gives.expression rfl

end Expr.Readable

/-! ### Calls, elements and methods -/

/-- What may come after an operand. -/
def suffix : Phrase :=
  .firstOf
    [.seq (.rule .args) (.reduce .apply),
      .chain [.sign .lbracket, .rule .expression, .sign .rbracket] (.reduce .index)]
    (.chain [.sign .dot, .ident, .rule .args] (.reduce .method))

/-- An operand in parentheses with one suffix. -/
theorem gives_suffixed {e : Expr} (readable : e.Readable literal) {depth : Nat}
    (deep : e.depth + 1 ≤ depth) {rest : List Token} {zs : List Operand}
    (passes : suffix.Passes depth ⟨tokens, [.expr e.bare]⟩ ⟨rest, zs⟩)
    (refused : suffix.refusesAt rest.head? = true) :
    Rule.suffixed.Gives depth (enclosed (e.inner literal) ++ tokens) zs rest :=
  .seq (.rule (readable.atom.mono deep)) (.more passes (.done (.of_refuses refused)))

theorem passes_index {target key : Expr} (readable : key.Readable literal) {depth : Nat}
    (deep : key.depth + 2 ≤ depth) :
    suffix.Passes depth
      ⟨.punct .lbracket :: (enclosed (key.inner literal) ++ .punct .rbracket :: tokens),
        [.expr target.bare]⟩ ⟨tokens, [.expr (.index target.bare key.bare default)]⟩ := by
  refine .orElse (.of_refuses rfl) (.choice (.seq (.sign .lbracket) ?_))
  exact .seq (readable.item rfl deep) (.seq (.sign .rbracket) (.reduceAll rfl rfl))

namespace Expr.Readable

theorem apply {callee : Expr} {args : List Expr} (span : Span)
    (callee_readable : callee.Readable literal)
    (args_readable : ∀ e ∈ args, e.Readable literal) :
    (Expr.apply callee args span).Readable literal := by
  intro tokens
  have passes : suffix.Passes (max (callee.depth + 1) (itemsDepth args))
      ⟨enclosed (itemTokens literal args) ++ .punct .rparen :: tokens, [.expr callee.bare]⟩
      ⟨.punct .rparen :: tokens, [.expr (.apply callee.bare (bareExprs args) default)]⟩ := by
    refine .choice (.seq (.rule ((gives_args args_readable).mono (Nat.le_max_right ..))) ?_)
    refine .reduceAll rfl ?_
    simp [Reduction.build?, Reduction.exprs?_map_bare]
  have gives := gives_suffixed callee_readable (Nat.le_max_left ..) passes rfl
  simpa [Expr.inner, Expr.depth, Expr.bare] using gives.expression rfl

theorem method {receiver : Expr} (name : Ident) {args : List Expr} (span : Span)
    (receiver_readable : receiver.Readable literal)
    (args_readable : ∀ e ∈ args, e.Readable literal) :
    (Expr.method receiver name args span).Readable literal := by
  intro tokens
  have passes : suffix.Passes (max (receiver.depth + 1) (itemsDepth args))
      ⟨.punct .dot :: .identifier name.name ::
        (enclosed (itemTokens literal args) ++ .punct .rparen :: tokens), [.expr receiver.bare]⟩
      ⟨.punct .rparen :: tokens,
        [.expr (.method receiver.bare name.bare (bareExprs args) default)]⟩ := by
    refine .orElse (.of_refuses rfl) (.orElse (.of_refuses rfl) (.attempt ?_))
    refine .seq (.sign .dot) (.seq (.ident name) ?_)
    refine .seq (.rule ((gives_args args_readable).mono (Nat.le_max_right ..))) (.reduceAll rfl ?_)
    simp [Reduction.build?, Reduction.exprs?_map_bare]
  have gives := gives_suffixed receiver_readable (Nat.le_max_left ..) passes rfl
  simpa [Expr.inner, Expr.depth, Expr.bare] using gives.expression rfl

theorem index {target key : Expr} (span : Span) (target_readable : target.Readable literal)
    (key_readable : key.Readable literal) : (Expr.index target key span).Readable literal := by
  intro tokens
  have passes : suffix.Passes (max (target.depth + 1) (key.depth + 2)) _
      ⟨.punct .rparen :: tokens, [.expr (.index target.bare key.bare default)]⟩ :=
    passes_index key_readable (Nat.le_max_right ..)
  have gives := gives_suffixed target_readable (Nat.le_max_left ..) passes rfl
  simpa [Expr.inner, Expr.depth, Expr.bare] using gives.expression rfl

theorem update {target key value : Expr} (span : Span) (target_readable : target.Readable literal)
    (key_readable : key.Readable literal) (value_readable : value.Readable literal) :
    (Expr.update target key value span).Readable literal := by
  intro tokens
  have target_depth : target.depth + 1 ≤ (Expr.update target key value span).depth :=
    Nat.le_max_left ..
  have key_depth : key.depth + 2 ≤ (Expr.update target key value span).depth := by
    rw [Expr.depth]
    omega
  have value_depth : value.depth + 2 ≤ (Expr.update target key value span).depth := by
    rw [Expr.depth]
    omega
  have passes : suffix.Passes (Expr.update target key value span).depth _
      ⟨.punct .assign :: (enclosed (value.inner literal) ++ .punct .rparen :: tokens),
        [.expr (.index target.bare key.bare default)]⟩ :=
    passes_index key_readable key_depth
  have element : Rule.boolean.Gives _ _ _ _ :=
    (gives_suffixed target_readable target_depth passes rfl).climb rfl
  have gives : Rule.update.Gives (Expr.update target key value span).depth _
      [.expr (.update target.bare key.bare value.bare default)] (.punct .rparen :: tokens) :=
    .seq (.rule element) <| .afterIndex rfl <|
      .seq (.sign .assign) (.seq (value_readable.item rfl value_depth) (.reduceAll rfl rfl))
  simpa [Expr.inner, Expr.bare] using gives.expression rfl

end Expr.Readable

/-! ### Choices and functions -/

theorem Block.Readable.statements {b : Block} (readable : b.Readable literal) {depth : Nat}
    (deep : b.depth ≤ depth) :
    Rule.statements.Gives depth (b.tokens literal ++ tokens) [.block b.bare] tokens :=
  .choice (.rule ((readable tokens).mono deep))

theorem Expr.Readable.conditional {condition : Expr} {yes : Block} {no : Option Block} (span : Span)
    (condition_readable : condition.Readable literal) (yes_readable : yes.Readable literal)
    (no_readable : ∀ b ∈ no, b.Readable literal) :
    (Expr.conditional condition yes no span).Readable literal := by
  intro tokens
  suffices gives : Rule.conditional.Gives (Expr.conditional condition yes no span).depth
      (.keyword .if_ :: (enclosed (condition.inner literal) ++ .keyword .then_ ::
        (yes.tokens literal ++ (elseTokens literal no ++ .punct .rparen :: tokens))))
      [.expr (.conditional condition.bare yes.bare (bareBlock? no) default)]
      (.punct .rparen :: tokens) by
    simpa [Expr.inner, Expr.bare] using gives.expression rfl
  have condition_depth : condition.depth + 1 ≤ (Expr.conditional condition yes no span).depth :=
    Nat.le_max_left ..
  have yes_depth : yes.depth ≤ (Expr.conditional condition yes no span).depth := by
    rw [Expr.depth]
    omega
  refine .remembered (.seq (.word .if_) ?_)
  refine .seq (.rule (condition_readable.operand rfl condition_depth)) (.seq (.word .then_) ?_)
  refine .seq (.rule (yes_readable.statements yes_depth)) ?_
  cases no with
  | none => exact .seq (.noOption (.of_refuses rfl)) (.reduceAll rfl rfl)
  | some b =>
      have no_depth : b.depth ≤ (Expr.conditional condition yes (some b) span).depth := by
        rw [Expr.depth, elseDepth]
        omega
      have no_read : Rule.statements.Gives _ (b.tokens literal ++ .punct .rparen :: tokens) _ _ :=
        (no_readable b rfl).statements no_depth
      exact .seq (.option (.seq (.word .else_) (.rule no_read))) (.reduceAll rfl rfl)

theorem paramTokens_eq (literal : Float → Span → Literal) (ps : List Param) :
    paramTokens literal ps = separated (Param.tokens literal) ps := by
  have more_eq (ps : List Param) :
      moreParamTokens literal ps = afterCommas (Param.tokens literal) ps := by
    induction ps with
    | nil => rfl
    | cons p ps ih => simp [moreParamTokens, ih, afterCommas]
  cases ps with
  | nil => rfl
  | cons p ps => rw [paramTokens, more_eq, separated]

theorem gives_param {p : Param} (readable : ∀ e ∈ p.default, e.Readable literal) {q : Punct}
    (next : q = .comma ∨ q = .rparen) :
    Rule.param.Gives (optionDepth p.default) (p.tokens literal ++ .punct q :: tokens)
      [.param p.bare] (.punct q :: tokens) := by
  obtain ⟨type, name, value, span⟩ := p
  refine .seq (.type type) (.seq (.ident name) ?_)
  cases value with
  | none =>
      have refused : (Phrase.sign .assign).refusesAt (some (.punct q)) = true := by
        rcases next with rfl | rfl <;> rfl
      exact .seq (.noOption (.first_ (.of_refuses refused))) (.reduceAll rfl rfl)
  | some e =>
      have closing : closes (Token.punct q :: tokens).head? = true := by
        rcases next with rfl | rfl <;> rfl
      have value_read : (Phrase.rule .expression).Passes (e.depth + 2)
          ⟨enclosed (e.inner literal) ++ .punct q :: tokens,
            [.type type.bare, .name name.bare]⟩ _ :=
        (readable e rfl).item closing le_rfl
      exact .seq (.option (.seq (.sign .assign) value_read)) (.reduceAll rfl rfl)

/-- The parameters of a function are read. -/
theorem gives_params {ps : List Param} (readable : ∀ p ∈ ps, ∀ e ∈ p.default, e.Readable literal) :
    Rule.params.Gives (paramsDepth ps) (enclosed (paramTokens literal ps) ++ tokens)
      (ps.map fun p => .param p.bare) tokens := by
  rw [enclosed_append, paramTokens_eq]
  refine .seq (.sign .lparen) (.seq (.commaList (by decide) rfl ?_) (.sign .rparen))
  intro p member q next ts os
  exact .rule ((gives_param (readable p member) next).mono (le_paramsDepth member))

theorem Block.Readable.body {b : Block} (readable : b.Readable literal) {depth : Nat}
    (deep : b.depth ≤ depth) :
    Rule.body.Gives depth (b.tokens literal ++ tokens) [.block b.bare] tokens :=
  .no_ (by cases b; rfl) (.rule ((readable tokens).mono deep))

/-- The parts of a function are read. -/
structure FunctionDef.Readable (literal : Float → Span → Literal) (f : FunctionDef) : Prop where
  params : ∀ p ∈ f.params, ∀ e ∈ p.default, e.Readable literal
  body : f.body.Readable literal

namespace FunctionDef.Readable

/-- The parameters and the body of a function are read one after the other. -/
theorem signature {f : FunctionDef} (readable : f.Readable literal) {os : List Operand}
    {last : Phrase} {b : Scene}
    (passes : last.Passes (max (paramsDepth f.params) f.body.depth)
      ⟨tokens, os ++ (f.params.map fun p => .param p.bare) ++ [.block f.body.bare]⟩ b) :
    (Phrase.chain [.rule .params, .rule .body] last).Passes
      (max (paramsDepth f.params) f.body.depth)
      ⟨enclosed (paramTokens literal f.params) ++ (f.body.tokens literal ++ tokens), os⟩ b := by
  refine .seq (.rule ((gives_params readable.params).mono (Nat.le_max_left ..))) ?_
  exact .seq (.rule (readable.body.body (Nat.le_max_right ..))) passes

theorem lambda {f : FunctionDef} (readable : f.Readable literal) (unnamed : f.name = none) :
    Rule.lambda.Gives f.depth (f.tokens literal ++ tokens) [.expr (.function f.bare)] tokens := by
  obtain ⟨name, result, params, body, span⟩ := f
  obtain rfl : name = none := unnamed
  rw [FunctionDef.tokens, List.cons_append, List.cons_append, List.append_assoc, List.append_assoc]
  refine .remembered (.seq (.word .fun_) (.seq (.type result) (readable.signature ?_)))
  refine .reduceAll rfl ?_
  simp [Reduction.build?, Reduction.signature?_map_bare, FunctionDef.bare]

theorem named {f : FunctionDef} (readable : f.Readable literal) (named : f.name.isSome = true) :
    Rule.funDef.Gives f.depth (f.tokens literal ++ tokens) [.function f.bare] tokens := by
  obtain ⟨name, result, params, body, span⟩ := f
  obtain ⟨ident, rfl⟩ : ∃ ident, name = some ident := Option.isSome_iff_exists.mp named
  rw [FunctionDef.tokens, List.cons_append, List.cons_append, List.append_assoc, List.append_assoc]
  refine .seq (.word .fun_) (.seq (.type result) (.seq (.ident ident) (readable.signature ?_)))
  refine .reduceAll rfl ?_
  simp [Reduction.build?, Reduction.signature?_map_bare, FunctionDef.bare]

end FunctionDef.Readable

theorem Expr.Readable.function {f : FunctionDef} (unnamed : f.name = none)
    (readable : f.Readable literal) : (Expr.function f).Readable literal := by
  intro tokens
  have gives : Rule.lambda.Gives f.depth (f.tokens literal ++ .punct .rparen :: tokens) _ _ :=
    readable.lambda unnamed
  obtain ⟨name, result, params, body, span⟩ := f
  exact gives.expression rfl

/-! ## Definitions and statements -/

theorem VarDef.gives {d : VarDef} (readable : d.value.Readable literal)
    (closing : closes tokens.head? = true) :
    Rule.varDef.Gives d.depth (d.tokens literal ++ tokens) [.varDef d.bare] tokens := by
  obtain ⟨type, name, value, constant, span⟩ := d
  have rest_read {os : List Operand} : (Phrase.rule .expression).Passes (value.depth + 2)
      ⟨enclosed (value.inner literal) ++ tokens, os⟩ _ := readable.item closing le_rfl
  cases constant with
  | false =>
      have refused :
          (Phrase.token (.keyword .const) .constant).refusesAt (some type.token) = true := by
        unfold TypeRef.token
        split <;> rfl
      refine .seq (.noOption (.of_refuses refused)) (.seq (.type type) (.seq (.ident name) ?_))
      exact .seq (.sign .assign) (.seq rest_read (.reduceAll rfl rfl))
  | true =>
      refine .seq (.option (.token .constant rfl rfl)) (.seq (.type type) (.seq (.ident name) ?_))
      exact .seq (.sign .assign) (.seq rest_read (.reduceAll rfl rfl))

/-- A definition of a variable is not read where a named function is. -/
theorem FunctionDef.varDef_fails {f : FunctionDef} (named : f.name.isSome = true)
    {es : List Operand} : (Phrase.rule .varDef).Fails ⟨f.tokens literal ++ tokens, es⟩ := by
  obtain ⟨name, result, params, body, span⟩ := f
  obtain ⟨ident, rfl⟩ : ∃ ident, name = some ident := Option.isSome_iff_exists.mp named
  refine .rule (.seq (.noOption (.of_refuses rfl)) ?_)
  refine .seq (.rule (.choice (.token .type rfl rfl))) ?_
  -- A result type that is a name passes for the name of a variable of functions.
  unfold TypeRef.token
  split
  case isTrue => exact .first_ (.of_refuses rfl)
  case isFalse => exact .seq (.ident ⟨result.name, result.span⟩) (.first_ (.of_refuses rfl))

/-- A definition of a variable is not read where a name is changed. -/
theorem varDef_fails_of_assign (name : String) {es : List Operand} :
    (Phrase.rule .varDef).Fails ⟨.identifier name :: .punct .assign :: tokens, es⟩ := by
  refine .rule (.seq (.noOption (.of_refuses rfl)) ?_)
  refine .seq (.rule (.orElse (.of_refuses rfl) (.token .type ⟨_, rfl⟩ rfl))) ?_
  exact .first_ (.of_refuses rfl)

/-- A statement is read with its semicolon. -/
def Stmt.Readable (literal : Float → Span → Literal) (s : Stmt) : Prop :=
  ∀ tokens, Rule.statement.Gives (s.depth + 1) (s.tokens literal ++ .punct .semi :: tokens)
    [.stmt s.bare] tokens

namespace Stmt.Readable

theorem define {d : VarDef} (readable : d.value.Readable literal) :
    (Stmt.define d).Readable literal := by
  intro tokens
  refine .nested (.seq (.choice ?_) (.option (.sign .semi)))
  exact .seq (.rule (VarDef.gives readable rfl)) (.reduceAll rfl rfl)

theorem function {f : FunctionDef} (named : f.name.isSome = true) (readable : f.Readable literal) :
    (Stmt.function f).Readable literal := by
  intro tokens
  refine .nested (.seq (.orElse (.first_ (f.varDef_fails named)) ?_) (.option (.sign .semi)))
  exact .choice (.seq (.rule (readable.named named)) (.reduceAll rfl rfl))

theorem return_ {value : Expr} (span : Span) (readable : value.Readable literal) :
    (Stmt.return_ value span).Readable literal := by
  intro tokens
  refine .nested (.seq ?_ (.option (.sign .semi)))
  refine .orElse (.of_refuses rfl) (.orElse (.of_refuses rfl) (.choice (.seq (.word .return_) ?_)))
  exact .seq (readable.item rfl le_rfl) (.reduceAll rfl rfl)

theorem for_ (type : TypeRef) (item : Ident) {iterable : Expr} {body : Block} (span : Span)
    (iterable_readable : iterable.Readable literal) (body_readable : body.Readable literal) :
    (Stmt.for_ type item iterable body span).Readable literal := by
  intro tokens
  suffices gives : Rule.statement.Gives (max (iterable.depth + 2) body.depth + 1)
      (.keyword .for_ :: type.token :: .identifier item.name :: .keyword .in_ ::
        (enclosed (iterable.inner literal) ++
          .keyword .do_ :: (body.tokens literal ++ .punct .semi :: tokens)))
      [.stmt (.for_ type.bare item.bare iterable.bare body.bare default)] tokens by
    simpa [Stmt.tokens, Stmt.depth, Stmt.bare] using gives
  refine .nested (.seq ?_ (.option (.sign .semi)))
  refine .orElse (.of_refuses rfl) <| .orElse (.of_refuses rfl) <| .orElse (.of_refuses rfl) <|
    .choice ?_
  refine .seq (.word .for_) (.seq (.type type) (.seq (.ident item) (.seq (.word .in_) ?_)))
  refine .seq (iterable_readable.item rfl (Nat.le_max_left ..)) (.seq (.word .do_) ?_)
  exact .seq (.rule (body_readable.statements (Nat.le_max_right ..))) (.reduceAll rfl rfl)

theorem while_ {condition : Expr} {body : Block} (span : Span)
    (condition_readable : condition.Readable literal) (body_readable : body.Readable literal) :
    (Stmt.while_ condition body span).Readable literal := by
  intro tokens
  suffices gives : Rule.statement.Gives (max (condition.depth + 1) body.depth + 1)
      (.keyword .while_ :: (enclosed (condition.inner literal) ++
        .keyword .do_ :: (body.tokens literal ++ .punct .semi :: tokens)))
      [.stmt (.while_ condition.bare body.bare default)] tokens by
    simpa [Stmt.tokens, Stmt.depth, Stmt.bare] using gives
  refine .nested (.seq ?_ (.option (.sign .semi)))
  refine .orElse (.of_refuses rfl) <| .orElse (.of_refuses rfl) <| .orElse (.of_refuses rfl) <|
    .orElse (.of_refuses rfl) <| .choice <| .seq (.word .while_) ?_
  refine .seq (.rule (condition_readable.operand rfl (Nat.le_max_left ..))) ?_
  refine .seq (.word .do_) (.seq (.rule (body_readable.statements (Nat.le_max_right ..))) ?_)
  exact .reduceAll rfl rfl

theorem assign (name : Ident) {value : Expr} (span : Span) (readable : value.Readable literal) :
    (Stmt.assign name value span).Readable literal := by
  intro tokens
  refine .nested (.seq ?_ (.option (.sign .semi)))
  refine .orElse (.first_ (varDef_fails_of_assign _)) <| .orElse (.of_refuses rfl) <|
    .orElse (.of_refuses rfl) <| .orElse (.of_refuses rfl) <| .orElse (.of_refuses rfl) <|
    .choice <| .seq (.ident name) <| .seq (.sign .assign) ?_
  exact .seq (readable.item rfl le_rfl) (.reduceAll rfl rfl)

theorem expr {value : Expr} (readable : value.Readable literal) :
    (Stmt.expr value).Readable literal := by
  intro tokens
  refine .nested (.seq ?_ (.option (.sign .semi)))
  refine .orElse (.of_refuses rfl) <| .orElse (.of_refuses rfl) <| .orElse (.of_refuses rfl) <|
    .orElse (.of_refuses rfl) <| .orElse (.of_refuses rfl) <| .orElse (.of_refuses rfl) <|
    .attempt ?_
  exact .seq (readable.item rfl le_rfl) (.reduceAll rfl rfl)

end Stmt.Readable

theorem passes_stmts {ss : List Stmt} (readable : ∀ s ∈ ss, s.Readable literal)
    {os : List Operand} :
    (Phrase.many (.rule .statement)).Passes (stmtsDepth ss)
      ⟨stmtTokens literal ss ++ .punct .rbrace :: tokens, os⟩
      ⟨.punct .rbrace :: tokens, os ++ ss.map fun s => .stmt s.bare⟩ := by
  induction ss generalizing os with
  | nil =>
      rw [List.map_nil, List.append_nil]
      exact .done (.of_refuses rfl)
  | cons s ss ih =>
      obtain ⟨first, others⟩ := List.forall_mem_cons.mp readable
      have operands_eq : os ++ (s :: ss).map (fun s => Operand.stmt s.bare) =
          os ++ [.stmt s.bare] ++ ss.map fun s => .stmt s.bare := by simp
      rw [stmtTokens, List.append_assoc, List.cons_append, operands_eq, stmtsDepth]
      refine .more (.rule ((first _).mono (Nat.le_max_left ..))) ?_
      exact (ih others).mono (Nat.le_max_right ..)

theorem Block.Readable.of_stmts {b : Block} (readable : ∀ s ∈ b.stmts, s.Readable literal) :
    b.Readable literal := by
  intro tokens
  obtain ⟨stmts, span⟩ := b
  rw [Block.tokens, List.cons_append, List.append_assoc, List.singleton_append]
  refine .seq (.sign .lbrace) (.seq (passes_stmts readable) (.seq (.sign .rbrace) ?_))
  refine .reduceAll rfl ?_
  simp [Reduction.build?, Reduction.stmts?_map_bare, Block.bare]

/-! ## Legal trees -/

mutual

/-- A legal expression is read inside its parentheses. -/
theorem Expr.Legal.readable {e : Expr} (legal : e.Legal literal) : e.Readable literal := by
  match e, legal with
  | .number .., ⟨_, value_eq⟩ => exact .number value_eq
  | .bool .., _ => exact .bool _ _
  | .list .., items => exact .list _ (itemsLegal.readable items)
  | .map .., entries => exact .map _ (entriesLegal.readable entries)
  | .range .., ⟨first, last, step⟩ =>
      exact .range _ _ first.readable last.readable (optionLegal.readable step)
  | .name .., _ => exact .name _ _
  | .call .., ⟨_, args⟩ => exact .call _ _ (itemsLegal.readable args)
  | .apply .., ⟨callee, args⟩ => exact .apply _ callee.readable (itemsLegal.readable args)
  | .method .., ⟨receiver, _, args⟩ =>
      exact .method _ _ receiver.readable (itemsLegal.readable args)
  | .create .., ⟨_, args⟩ => exact .create _ _ (itemsLegal.readable args)
  | .index .., ⟨target, key⟩ => exact .index _ target.readable key.readable
  | .update .., ⟨target, key, value⟩ =>
      exact .update _ target.readable key.readable value.readable
  | .binary .., ⟨left, right⟩ => exact .binary _ _ left.readable right.readable
  | .unary _ operand _, legal =>
      have operand_legal : operand.Legal literal := legal
      exact .unary _ _ operand_legal.readable
  | .conditional .., ⟨condition, yes, no⟩ =>
      exact .conditional _ condition.readable yes.readable (elseLegal.readable no)
  | .function _, ⟨unnamed, definition⟩ => exact .function unnamed definition.readable

theorem itemsLegal.readable {es : List Expr} (legal : itemsLegal literal es) :
    ∀ e ∈ es, e.Readable literal := by
  match es, legal with
  | [], _ => exact List.forall_mem_nil _
  | _ :: _, ⟨first, others⟩ =>
      exact List.forall_mem_cons.mpr ⟨first.readable, itemsLegal.readable others⟩

theorem entriesLegal.readable {es : List (Expr × Expr)} (legal : entriesLegal literal es) :
    ∀ e ∈ es, e.1.Readable literal ∧ e.2.Readable literal := by
  match es, legal with
  | [], _ => exact List.forall_mem_nil _
  | (_, _) :: _, ⟨key, value, others⟩ =>
      exact List.forall_mem_cons.mpr
        ⟨⟨key.readable, value.readable⟩, entriesLegal.readable others⟩

theorem optionLegal.readable {e : Option Expr} (legal : optionLegal literal e) :
    ∀ e' ∈ e, e'.Readable literal := by
  match e, legal with
  | none, _ => simp
  | some e, legal =>
      rintro e' ⟨⟩
      have e_legal : e.Legal literal := legal
      exact e_legal.readable

theorem elseLegal.readable {b : Option Block} (legal : elseLegal literal b) :
    ∀ b' ∈ b, b'.Readable literal := by
  match b, legal with
  | none, _ => simp
  | some b, legal =>
      rintro b' ⟨⟩
      have b_legal : b.Legal literal := legal
      exact b_legal.readable

theorem Stmt.Legal.readable {s : Stmt} (legal : s.Legal literal) : s.Readable literal := by
  match s, legal with
  | .define _, definition => exact .define (VarDef.Legal.readable definition)
  | .function _, ⟨named, definition⟩ => exact .function named definition.readable
  | .assign .., ⟨_, value⟩ => exact .assign _ _ value.readable
  | .expr _, value => exact .expr (Expr.Legal.readable value)
  | .return_ .., value => exact .return_ _ (Expr.Legal.readable value)
  | .for_ .., ⟨_, _, iterable, body⟩ => exact .for_ _ _ _ iterable.readable body.readable
  | .while_ .., ⟨condition, body⟩ => exact .while_ _ condition.readable body.readable

theorem stmtsLegal.readable {ss : List Stmt} (legal : stmtsLegal literal ss) :
    ∀ s ∈ ss, s.Readable literal := by
  match ss, legal with
  | [], _ => exact List.forall_mem_nil _
  | _ :: _, ⟨first, others⟩ =>
      exact List.forall_mem_cons.mpr ⟨first.readable, stmtsLegal.readable others⟩

theorem Block.Legal.readable {b : Block} (legal : b.Legal literal) : b.Readable literal := by
  match b, legal with
  | ⟨_, _⟩, stmts => exact .of_stmts (stmtsLegal.readable stmts)

theorem paramsLegal.readable {ps : List Param} (legal : paramsLegal literal ps) :
    ∀ p ∈ ps, ∀ e ∈ p.default, e.Readable literal := by
  match ps, legal with
  | [], _ => exact List.forall_mem_nil _
  | ⟨_, _, _, _⟩ :: _, ⟨_, _, value, others⟩ =>
      exact List.forall_mem_cons.mpr ⟨optionLegal.readable value, paramsLegal.readable others⟩

theorem FunctionDef.Legal.readable {f : FunctionDef} (legal : f.Legal literal) :
    f.Readable literal := by
  match f, legal with
  | ⟨_, _, _, _, _⟩, ⟨_, _, params, body⟩ => exact ⟨paramsLegal.readable params, body.readable⟩

theorem VarDef.Legal.readable {d : VarDef} (legal : d.Legal literal) :
    d.value.Readable literal := by
  match d, legal with
  | ⟨_, _, _, _, _⟩, ⟨_, _, value⟩ => exact value.readable

end

end Formwork
