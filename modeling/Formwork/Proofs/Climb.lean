import Formwork.Proofs.Render
import Formwork.Proofs.Scene

/-!
# Rules on written tokens

`r.Gives depth tokens operands rest` says that reading a rule takes the tokens up to `rest` and
leaves the operands. A rule that only hands on what another rule gives, with nothing before it and
nothing after it, gives the same: `Rule.climbs` finds this from the first token and the token
behind, and so an expression in parentheses counts as an operand of every operator. Types, operators
and lists with commas are the phrases that several rules share.
-/

namespace Formwork

/-- Reading a rule takes the tokens up to `rest` and leaves operands. -/
def Rule.Gives (r : Rule) (depth : Nat) (tokens : List Token) (zs : List Operand)
    (rest : List Token) : Prop :=
  r.phrase.Passes depth ⟨tokens, []⟩ ⟨rest, zs⟩

namespace Phrase

/-- Whether a phrase takes nothing in front of a token. -/
def skips (next : Option Token) : Phrase → Bool
  | .option phrase | .many phrase | .afterIndex phrase => phrase.refusesAt next
  | _ => false

/--
Whether a phrase is read by reading one of some rules alone, given the first token and the token
behind.
-/
def forwards (first next : Option Token) (rule : Rule → Bool) : Phrase → Bool
  | .rule r => rule r
  | .seq phrase second => phrase.forwards first next rule && second.skips next
  | .choice one two =>
      one.forwards first next rule || (one.refusesAt first && two.forwards first next rule)
  | .branch t _ no => !first.any t.takes && no.forwards first next rule
  | .attempt phrase => phrase.forwards first next rule
  | _ => false

variable {depth : Nat} {tokens rest : List Token} {es zs : List Operand}

theorem Passes.of_skips {phrase : Phrase} (skips : phrase.skips tokens.head? = true) :
    phrase.Passes depth ⟨tokens, es⟩ ⟨tokens, es⟩ := by
  cases phrase with
  | option phrase => exact .noOption (.of_refuses skips)
  | many phrase => exact .done (.of_refuses skips)
  | afterIndex phrase => exact .noAfterIndex (.of_refuses skips)
  | _ => simp [Phrase.skips] at skips

theorem Passes.of_forwards {rule : Rule → Bool}
    (rules : ∀ r, rule r = true → r.Gives depth tokens zs rest) {phrase : Phrase}
    (forwards : phrase.forwards tokens.head? rest.head? rule = true) :
    phrase.Passes depth ⟨tokens, es⟩ ⟨rest, es ++ zs⟩ := by
  fun_induction Phrase.forwards tokens.head? rest.head? rule phrase with
  | case1 r => exact .rule (rules r forwards)
  | case2 phrase second ih =>
      rw [Bool.and_eq_true] at forwards
      exact .seq (ih forwards.1) (.of_skips forwards.2)
  | case3 one two ih_one ih_two =>
      rw [Bool.or_eq_true, Bool.and_eq_true] at forwards
      rcases forwards with here | ⟨refused, there⟩
      · exact .choice (ih_one here)
      · exact .orElse (.of_refuses refused) (ih_two there)
  | case4 t yes no ih =>
      rw [Bool.and_eq_true, Bool.not_eq_true'] at forwards
      exact .no_ forwards.1 (ih forwards.2)
  | case5 phrase ih => exact .attempt (ih forwards)
  | case6 => simp at forwards

end Phrase

/--
Whether a rule is read by reading the rule `target` alone, through at most `fuel` rules inside one
another.
-/
def Rule.climbs (first next : Option Token) (target : Rule) : Nat → Rule → Bool
  | 0, r => r = target
  | fuel + 1, r => r = target || r.phrase.forwards first next (Rule.climbs first next target fuel)

/-- Whether a rule is read by reading another alone. -/
def Rule.hands (target r : Rule) (first next : Option Token) : Bool :=
  Rule.climbs first next target Rule.all.length r

/-- What an expression is inside its own level. -/
def expressionBody : Phrase := .firstOf [.rule .conditional, .rule .lambda] (.rule .update)

/-- Whether an expression is read by reading a rule alone. -/
def Rule.isExpression (target : Rule) (first next : Option Token) : Bool :=
  expressionBody.forwards first next (Rule.climbs first next target Rule.all.length)

namespace Rule.Gives

variable {target r : Rule} {depth depth' : Nat} {tokens rest : List Token} {zs : List Operand}

theorem mono (gives : r.Gives depth tokens zs rest) (le : depth ≤ depth') :
    r.Gives depth' tokens zs rest :=
  Phrase.Passes.mono gives le

theorem of_climbs (gives : target.Gives depth tokens zs rest) (fuel : Nat)
    (climbs : Rule.climbs tokens.head? rest.head? target fuel r = true) :
    r.Gives depth tokens zs rest := by
  induction fuel generalizing r with
  | zero =>
      obtain rfl : r = target := by simpa [Rule.climbs] using climbs
      exact gives
  | succ fuel ih =>
      rw [Rule.climbs, Bool.or_eq_true, decide_eq_true_eq] at climbs
      rcases climbs with rfl | forwards
      · exact gives
      · exact Phrase.Passes.of_forwards (fun _ => ih) forwards

/-- What one rule gives, a rule that hands it on gives too. -/
theorem climb (gives : target.Gives depth tokens zs rest)
    (hands : target.hands r tokens.head? rest.head? = true) : r.Gives depth tokens zs rest :=
  gives.of_climbs _ hands

/-- An expression is one level deeper than the rule it is read by. -/
theorem expression (gives : target.Gives depth tokens zs rest)
    (is_expression : target.isExpression tokens.head? rest.head? = true) :
    Rule.expression.Gives (depth + 1) tokens zs rest :=
  .nested (.of_forwards (fun _ => gives.of_climbs _) is_expression)

end Rule.Gives

/-! ## Tokens, operators and commas -/

/-- The tokens of several things, each after a comma. -/
def afterCommas {α : Type} (tokensOf : α → List Token) (xs : List α) : List Token :=
  xs.flatMap fun x => .punct .comma :: tokensOf x

/-- The tokens of several things with commas between them. -/
def separated {α : Type} (tokensOf : α → List Token) : List α → List Token
  | [] => []
  | x :: xs => tokensOf x ++ afterCommas tokensOf xs

/-- What comes after a thing in a list starts with a comma or with the closing sign. -/
theorem exists_cons_afterCommas {α : Type} (tokensOf : α → List Token) (xs : List α)
    (close : Punct) (tokens : List Token) :
    ∃ q ts, (q = .comma ∨ q = close) ∧
      afterCommas tokensOf xs ++ .punct close :: tokens = .punct q :: ts := by
  cases xs with
  | nil => exact ⟨close, tokens, .inr rfl, rfl⟩
  | cons x xs => exact ⟨.comma, _, .inl rfl, rfl⟩

namespace Phrase

variable {depth : Nat} {tokens : List Token} {es : List Operand}

theorem Passes.silent {t : Terminal} {head : Token} (accepts : t.Accepts head)
    (sound : head.isSound = true) :
    (Phrase.token t .nothing).Passes depth ⟨head :: tokens, es⟩ ⟨tokens, es⟩ := by
  have passes : (Phrase.token t .nothing).Passes depth ⟨head :: tokens, es⟩ _ :=
    .token .nothing accepts sound
  rwa [Leaf.bare, List.append_nil] at passes

theorem Passes.sign (q : Punct) :
    (Phrase.sign q).Passes depth ⟨.punct q :: tokens, es⟩ ⟨tokens, es⟩ := .silent rfl rfl

theorem Passes.word (k : Keyword) :
    (Phrase.word k).Passes depth ⟨.keyword k :: tokens, es⟩ ⟨tokens, es⟩ := .silent rfl rfl

theorem Passes.ident (name : Ident) :
    Phrase.ident.Passes depth ⟨.identifier name.name :: tokens, es⟩
      ⟨tokens, es ++ [.name name.bare]⟩ := by
  have passes : Phrase.ident.Passes depth ⟨.identifier name.name :: tokens, es⟩ _ :=
    .token .name ⟨_, rfl⟩ rfl
  rwa [Leaf.bare, Token.chars, String.ofList_toList] at passes

theorem Passes.type (type : TypeRef) :
    (Phrase.rule .type).Passes depth ⟨type.token :: tokens, es⟩
      ⟨tokens, es ++ [.type type.bare]⟩ := by
  refine .rule ?_
  unfold TypeRef.token
  split
  case isTrue is_fun =>
      have bare_eq : type.bare = ⟨String.ofList (Token.keyword .fun_).chars, default⟩ := by
        rw [TypeRef.bare, is_fun]
        rfl
      rw [bare_eq]
      exact .choice (.token .type rfl rfl)
  case isFalse =>
      have bare_eq : type.bare = ⟨String.ofList (Token.identifier type.name).chars, default⟩ := by
        rw [Token.chars, String.ofList_toList]
        rfl
      rw [bare_eq]
      exact .orElse (.token .type rfl) (.token .type ⟨_, rfl⟩ rfl)

/-- A scan finds the token itself, unless it finds the sign of a number. -/
theorem accepts_of_takes {t : Terminal} {token : Token} (taken : t.takes token = true)
    (other : token.isNumber = false) : t.Accepts token := by
  cases token with
  | keyword k => cases t <;> simp_all [Terminal.takes, Terminal.Accepts]
  | punct q => cases t <;> simp_all [Terminal.takes, Terminal.Accepts]
  | identifier name => cases t <;> simp_all [Terminal.takes, Terminal.Accepts]
  | number literal => simp [Token.isNumber] at other
  | malformed literal tail => cases t <;> simp [Terminal.takes] at taken

/-- The operator that stands next is the one that is read. -/
theorem Passes.operators {ops : List (Terminal × BinaryOp)} {last : Terminal × BinaryOp}
    {op : BinaryOp}
    (found : ((ops ++ [last]).find? fun o => o.1.takes op.token).map Prod.snd = some op) :
    (Phrase.operators ops last).Passes depth ⟨op.token :: tokens, es⟩
      ⟨tokens, es ++ [.operator op]⟩ := by
  have sound : op.token.isSound = true := by cases op <;> rfl
  have other : op.token.isNumber = false := by cases op <;> rfl
  induction ops with
  | nil =>
      obtain ⟨taken, rfl⟩ : last.1.takes op.token = true ∧ last.2 = op := by
        simpa [List.find?_singleton, Option.map_eq_some_iff] using found
      exact .token (.operator last.2) (accepts_of_takes taken other) sound
  | cons o ops ih =>
      rw [List.cons_append, List.find?_cons] at found
      split at found
      case h_1 taken =>
          obtain rfl : o.2 = op := Option.some.inj found
          exact .choice (.token (.operator o.2) (accepts_of_takes taken other) sound)
      case h_2 absent =>
          refine .orElse (.token _ ?_) (ih found)
          simpa [Terminal.takesNext] using absent

/-- An operator and its right operand. -/
theorem Passes.round {ops : List (Terminal × BinaryOp)} {last : Terminal × BinaryOp}
    {op : BinaryOp} {operand : Rule} {left right : Expr} {rest : List Token}
    (found : ((ops ++ [last]).find? fun o => o.1.takes op.token).map Prod.snd = some op)
    (gives : operand.Gives depth tokens [.expr right.bare] rest) :
    (chain [Phrase.operators ops last, .rule operand] (.reduce .binary)).Passes depth
      ⟨op.token :: tokens, [.expr left.bare]⟩
      ⟨rest, [.expr (.binary left.bare op right.bare default)]⟩ := by
  refine .seq (.operators found) (.seq (.rule gives) (.reduceAll rfl ?_))
  simp [Reduction.build?, Span.merge_self]

section Commas

variable {α : Type} {phrase : Phrase} {tokensOf : α → List Token} {operand : α → Operand}
  {close : Punct}

theorem Passes.commas (apart : close ≠ .comma) {xs : List α}
    (each : ∀ x ∈ xs, ∀ q, q = .comma ∨ q = close → ∀ ts os,
      phrase.Passes depth ⟨tokensOf x ++ .punct q :: ts, os⟩ ⟨.punct q :: ts, os ++ [operand x]⟩) :
    (Phrase.many (.seq (.sign .comma) phrase)).Passes depth
      ⟨afterCommas tokensOf xs ++ .punct close :: tokens, es⟩
      ⟨.punct close :: tokens, es ++ xs.map operand⟩ := by
  induction xs generalizing es with
  | nil =>
      rw [List.map_nil, List.append_nil]
      refine .done (.first_ (.token .nothing ?_))
      simpa [afterCommas, Terminal.takesNext, Terminal.takes] using apart.symm
  | cons x xs ih =>
      obtain ⟨here, later⟩ := List.forall_mem_cons.mp each
      have others : (Phrase.many (.seq (.sign .comma) phrase)).Passes depth
          ⟨afterCommas tokensOf xs ++ .punct close :: tokens, es ++ [operand x]⟩
          ⟨.punct close :: tokens, es ++ [operand x] ++ xs.map operand⟩ :=
        ih later
      rw [List.append_assoc] at others
      have tokens_eq : afterCommas tokensOf (x :: xs) ++ .punct close :: tokens =
          .punct .comma :: (tokensOf x ++ (afterCommas tokensOf xs ++ .punct close :: tokens)) := by
        simp [afterCommas]
      rw [tokens_eq]
      refine .more (.seq (.sign .comma) ?_) others
      obtain ⟨q, ts, next, next_eq⟩ := exists_cons_afterCommas tokensOf xs close tokens
      rw [next_eq]
      exact here q next ts es

/-- A list of things with commas between them, which may be empty. -/
theorem Passes.commaList (apart : close ≠ .comma) (refused : phrase.refusesAt (some (.punct close)))
    {xs : List α}
    (each : ∀ x ∈ xs, ∀ q, q = .comma ∨ q = close → ∀ ts os,
      phrase.Passes depth ⟨tokensOf x ++ .punct q :: ts, os⟩ ⟨.punct q :: ts, os ++ [operand x]⟩) :
    (Phrase.option (.commaList phrase)).Passes depth
      ⟨separated tokensOf xs ++ .punct close :: tokens, es⟩
      ⟨.punct close :: tokens, es ++ xs.map operand⟩ := by
  cases xs with
  | nil =>
      rw [List.map_nil, List.append_nil]
      exact .noOption (.first_ (.of_refuses refused))
  | cons x xs =>
      have operands_eq : es ++ (x :: xs).map operand = es ++ [operand x] ++ xs.map operand := by
        simp
      rw [separated, List.append_assoc, operands_eq]
      obtain ⟨here, later⟩ := List.forall_mem_cons.mp each
      refine .option (.seq ?_ (.commas apart later))
      obtain ⟨q, ts, next, next_eq⟩ := exists_cons_afterCommas tokensOf xs close tokens
      rw [next_eq]
      exact here q next ts es

end Commas

end Phrase

end Formwork
