import Formwork.Proofs.Chaining
import Formwork.Proofs.Layout
import Formwork.Proofs.RoundTrip

/-!
# Precedence

Operators bind on levels: `or` and `xor` most loosely, then `and`, `not`, comparisons, `+` and `-`,
`*`, `/` and `%`, `^`, and unary `-` most tightly. Operators between two operands group to the left,
except that comparisons do not chain. `OpTree.tokens` writes a tree of operators over names with
parentheses only where the levels ask for them, and such a text is read as the tree it was written
for: `OpTree.readsEverywhere` shows this for the rule of every level.
-/

namespace Formwork

/-! ## Levels -/

/-- How tightly an operator between two operands binds. -/
def BinaryOp.level : BinaryOp → Nat
  | .or | .xor => 0
  | .and => 1
  | .eq | .notEq | .less | .lessEq | .greater | .greaterEq => 3
  | .add | .sub => 4
  | .mul | .div | .mod => 5
  | .pow => 6

/-- The level from which on a left operand needs no parentheses: that of a comparison does. -/
def BinaryOp.leftLevel (op : BinaryOp) : Nat := if op.level = 3 then 4 else op.level

/-- How tightly an operator before one operand binds. -/
def UnaryOp.level : UnaryOp → Nat
  | .not => 2
  | .neg => 7

/-! ## Trees of operators -/

/-- A tree of operators over names. -/
inductive OpTree where
  | name (text : String)
  | unary (op : UnaryOp) (operand : OpTree)
  | binary (left : OpTree) (op : BinaryOp) (right : OpTree)

namespace OpTree

/-- How tightly the outermost operator binds; a name binds most tightly. -/
def level : OpTree → Nat
  | .name _ => 8
  | .unary op _ => op.level
  | .binary _ op _ => op.level

/-- Tokens of some level in a place for those from `floor` on. -/
def place (floor level : Nat) (tokens : List Token) : List Token :=
  if level < floor then enclosed tokens else tokens

/-- The tokens of a tree. -/
def tokens : OpTree → List Token
  | .name text => [.identifier text]
  | .unary op operand => op.token :: place op.level operand.level operand.tokens
  | .binary left op right =>
      place op.leftLevel left.level left.tokens ++
        op.token :: place (op.level + 1) right.level right.tokens

/-- The levels around the innermost token, in a place for those from `floor` on. -/
def placeDepth (floor level depth : Nat) : Nat := if level < floor then depth + 1 else depth

/-- The levels of nesting around the innermost token of a tree. -/
def depth : OpTree → Nat
  | .name _ => 0
  | .unary op operand => placeDepth op.level operand.level operand.depth + 1
  | .binary left op right =>
      max (placeDepth op.leftLevel left.level left.depth)
        (placeDepth (op.level + 1) right.level right.depth)

/-- The nesting that a tree asks for: an expression is a level of its own. -/
def nesting (t : OpTree) : Nat := t.depth + 1

/-- The expression of a tree. -/
def expr : OpTree → Expr
  | .name text => .name text default
  | .unary op operand => .unary op operand.expr default
  | .binary left op right => .binary left.expr op right.expr default

/-- No name is reserved. -/
def Legal : OpTree → Prop
  | .name text => isName text.toList = true
  | .unary _ operand => operand.Legal
  | .binary left _ right => left.Legal ∧ right.Legal

/-- The tokens of a tree in a place for those from `floor` on. -/
def tokensAt (floor : Nat) (t : OpTree) : List Token := place floor t.level t.tokens

/-- The levels of nesting around the innermost token of a tree in a place. -/
def depthAt (floor : Nat) (t : OpTree) : Nat := placeDepth floor t.level t.depth

variable {t : OpTree} {floor : Nat}

theorem tokensAt_of_le (le : floor ≤ t.level) : t.tokensAt floor = t.tokens :=
  if_neg (Nat.not_lt.mpr le)

theorem tokensAt_of_lt (lt : t.level < floor) : t.tokensAt floor = enclosed t.tokens := if_pos lt

theorem depthAt_of_le (le : floor ≤ t.level) : t.depthAt floor = t.depth :=
  if_neg (Nat.not_lt.mpr le)

theorem depthAt_of_lt (lt : t.level < floor) : t.depthAt floor = t.depth + 1 := if_pos lt

theorem tokensAt_binary (left : OpTree) (op : BinaryOp) (right : OpTree) :
    (binary left op right).tokensAt op.level =
      left.tokensAt op.leftLevel ++ op.token :: right.tokensAt (op.level + 1) :=
  tokensAt_of_le (t := binary left op right) le_rfl

theorem depthAt_binary (left : OpTree) (op : BinaryOp) (right : OpTree) :
    (binary left op right).depthAt op.level =
      max (left.depthAt op.leftLevel) (right.depthAt (op.level + 1)) :=
  depthAt_of_le (t := binary left op right) le_rfl

/-- Places for neighbouring levels differ on the lower level only. -/
theorem tokensAt_succ (apart : t.level ≠ floor) :
    t.tokensAt (floor + 1) = t.tokensAt floor ∧ t.depthAt (floor + 1) = t.depthAt floor := by
  have same : t.level < floor + 1 ↔ t.level < floor := by omega
  simp only [tokensAt, place, depthAt, placeDepth, same, and_self]

theorem level_le (t : OpTree) : t.level ≤ 8 := by
  cases t with
  | name text => exact le_rfl
  | unary op operand => cases op <;> simp [level, UnaryOp.level]
  | binary left op right => cases op <;> simp [level, BinaryOp.level]

theorem tokens_ne_nil (t : OpTree) : t.tokens ≠ [] := by
  cases t <;> simp [tokens]

theorem Legal.allWritable (legal : t.Legal) : AllWritable t.tokens := by
  have placed {floor level : Nat} {tokens : List Token} (writable : AllWritable tokens) :
      AllWritable (place floor level tokens) := by
    unfold place
    split
    · simpa using writable
    · exact writable
  induction t with
  | name text => simpa [tokens, Token.Writable, Legal] using legal
  | unary op operand ih => simpa [tokens] using placed (ih legal)
  | binary left op right ih_left ih_right =>
      simpa [tokens] using ⟨placed (ih_left legal.1), placed (ih_right legal.2)⟩

end OpTree

/-! ## The rules of the levels -/

/-- The rule that reads operators from a level on. -/
def levelRule : Nat → Rule
  | 0 => .boolean
  | 1 => .conjunction
  | 2 => .negation
  | 3 => .comparison
  | 4 => .sum
  | 5 => .product
  | 6 => .power
  | 7 => .unary
  | _ => .suffixed

/-- The levels whose operators group to the left. -/
def leftLevels : List Nat := [0, 1, 4, 5, 6]

/-- The operators of a level that groups to the left, the last one apart. -/
def levelOperators : Nat → List (Terminal × BinaryOp) × (Terminal × BinaryOp)
  | 0 => ([(.keyword .or, .or)], (.keyword .xor, .xor))
  | 1 => ([], (.keyword .and, .and))
  | 4 => ([(.punct .plus, .add)], (.punct .minus, .sub))
  | 5 => ([(.punct .star, .mul), (.punct .slash, .div)], (.punct .percent, .mod))
  | _ => ([], (.punct .caret, .pow))

/-- An operator of a level that groups to the left, with its right operand. -/
def levelRound (n : Nat) : Phrase :=
  .chain [.operators (levelOperators n).1 (levelOperators n).2, .rule (levelRule (n + 1))]
    (.reduce .binary)

theorem levelRule_phrase {n : Nat} (left : n ∈ leftLevels) :
    (levelRule n).phrase = .seq (.rule (levelRule (n + 1))) (.many (levelRound n)) := by
  simp only [leftLevels, List.mem_cons, List.not_mem_nil, or_false] at left
  rcases left with rfl | rfl | rfl | rfl | rfl <;> rfl

theorem find?_levelOperators {op : BinaryOp} (left : op.level ∈ leftLevels) :
    (((levelOperators op.level).1 ++ [(levelOperators op.level).2]).find?
      fun o => o.1.takes op.token).map Prod.snd = some op := by
  cases op <;> first | rfl | simp [BinaryOp.level, leftLevels] at left

/-- What may follow a tree on a level: the end, a closing parenthesis or a looser operator. -/
inductive Follows (n : Nat) : Option Token → Prop where
  | ends : Follows n none
  | closes : Follows n (some (.punct .rparen))
  | operator {op : BinaryOp} : op.level < n → Follows n (some op.token)

namespace Follows

variable {n m : Nat} {next : Option Token}

theorem mono (follows : Follows n next) (le : n ≤ m) : Follows m next := by
  cases follows with
  | ends => exact .ends
  | closes => exact .closes
  | operator lt => exact .operator (lt.trans_le le)

theorem refuses (follows : Follows n next) {phrase : Phrase} (ends : phrase.refusesAt none = true)
    (closes : phrase.refusesAt (some (.punct .rparen)) = true)
    (operators : ∀ op : BinaryOp, op.level < n → phrase.refusesAt (some op.token) = true) :
    phrase.refusesAt next = true := by
  cases follows with
  | ends => exact ends
  | closes => exact closes
  | operator lt => exact operators _ lt

/-- The operators of the level do not go on. -/
theorem refuses_round (follows : Follows n next) (left : n ∈ leftLevels) :
    (levelRound n).refusesAt next = true := by
  simp only [leftLevels, List.mem_cons, List.not_mem_nil, or_false] at left
  rcases left with rfl | rfl | rfl | rfl | rfl <;>
    refine follows.refuses rfl rfl fun op lt => ?_ <;>
      cases op <;> first | rfl | simp [BinaryOp.level] at lt

end Follows

namespace OpTree

/-- A tree is read by the rule of a level. -/
def Reads (n : Nat) (t : OpTree) : Prop :=
  ∀ rest, Follows n rest.head? →
    (levelRule n).Gives (t.depthAt n) (t.tokensAt n ++ rest) [.expr t.expr.bare] rest

/-- A tree is read by the rule of a level together with what the operators of the level add. -/
def Folds (n : Nat) (t : OpTree) : Prop :=
  ∀ depth rest rest' zs, Follows (n + 1) rest.head? → t.depthAt n ≤ depth →
    (Phrase.many (levelRound n)).Passes depth ⟨rest, [.expr t.expr.bare]⟩ ⟨rest', zs⟩ →
      (levelRule n).Gives depth (t.tokensAt n ++ rest) zs rest'

variable {n : Nat} {t left right : OpTree}

theorem Folds.of_reads (is_left : n ∈ leftLevels) (apart : t.level ≠ n) (reads : t.Reads (n + 1)) :
    t.Folds n := by
  intro depth rest rest' zs follows deep passes
  obtain ⟨tokens_eq, depth_eq⟩ := tokensAt_succ apart
  have gives := reads rest follows
  rw [tokens_eq, depth_eq] at gives
  unfold Rule.Gives
  rw [levelRule_phrase is_left]
  exact .seq (.rule (gives.mono deep)) passes

theorem Folds.reads (is_left : n ∈ leftLevels) (folds : t.Folds n) : t.Reads n := by
  intro rest follows
  exact folds _ rest rest _ (follows.mono n.le_succ) le_rfl
    (.done (.of_refuses (follows.refuses_round is_left)))

/-- What a tree starts with. -/
inductive Starts : Token → Prop where
  | name (text : String) : Starts (.identifier text)
  | opening : Starts (.punct .lparen)
  | minus : Starts (.punct .minus)
  | not : Starts (.keyword .not)

/-- A tree starts with a name, a parenthesis or a sign, and with `not` only on the loose levels. -/
theorem exists_starts (t : OpTree) (n : Nat) :
    ∃ first more, t.tokensAt n = first :: more ∧ Starts first ∧
      (3 ≤ n ∨ 3 ≤ t.level → first ≠ .keyword .not) := by
  by_cases parenthesised : t.level < n
  · exact ⟨_, _, tokensAt_of_lt parenthesised, .opening, by simp⟩
  · rw [tokensAt_of_le (Nat.not_lt.mp parenthesised)]
    cases t with
    | name text => exact ⟨_, _, rfl, .name text, by simp⟩
    | unary op operand =>
        cases op with
        | neg => exact ⟨_, _, rfl, .minus, by simp [UnaryOp.token]⟩
        | not =>
            refine ⟨_, _, rfl, .not, ?_⟩
            simp only [level, UnaryOp.level] at parenthesised ⊢
            omega
    | binary left op right =>
        obtain ⟨first, more, tokens_eq, starts, tight⟩ := exists_starts left op.leftLevel
        refine ⟨first, more ++ op.token :: right.tokensAt (op.level + 1), ?_, starts,
          fun high => tight (Or.inl ?_)⟩
        · simp only [tokens]
          rw [show place op.leftLevel left.level left.tokens = first :: more from tokens_eq]
          rfl
        · simp only [level] at parenthesised high
          unfold BinaryOp.leftLevel
          split <;> omega

/-- On a level without operators of its own a tree is read by the rule of the next. -/
theorem Reads.lower (apart : t.level ≠ n) (small : n < 8) (reads : t.Reads (n + 1)) :
    t.Reads n := by
  by_cases is_left : n ∈ leftLevels
  · exact (Folds.of_reads is_left apart reads).reads is_left
  · intro rest follows
    have gives := reads rest (follows.mono n.le_succ)
    obtain ⟨tokens_eq, depth_eq⟩ := tokensAt_succ apart
    rw [tokens_eq, depth_eq] at gives
    obtain rfl | rfl | rfl : n = 2 ∨ n = 3 ∨ n = 7 := by
      simp only [leftLevels, List.mem_cons, List.not_mem_nil, or_false] at is_left
      omega
    · obtain ⟨first, more, starts_eq, starts, tight⟩ := exists_starts t 3
      refine .no_ ?_ (.rule gives)
      have not_not := tight (Or.inl le_rfl)
      rw [← tokens_eq, starts_eq]
      cases starts <;> first | rfl | exact absurd rfl not_not
    · refine .seq (.rule gives) (.noOption (.of_refuses (follows.refuses rfl rfl fun op lt => ?_)))
      cases op <;> first | rfl | simp [BinaryOp.level] at lt
    · exact .choice (.rule gives)

theorem Reads.down {m : Nat} (reads : t.Reads m) (le : n ≤ m) (small : m ≤ 8)
    (apart : ∀ k, n ≤ k → k < m → t.level ≠ k) : t.Reads n := by
  induction m with
  | zero =>
      obtain rfl : n = 0 := by omega
      exact reads
  | succ m ih =>
      rcases Nat.eq_or_lt_of_le le with rfl | lt
      · exact reads
      · refine ih (reads.lower (apart m (by omega) (by omega)) (by omega)) (by omega) (by omega) ?_
        exact fun k low high => apart k low (by omega)

/-- A tree that is read on the loosest level is an expression. -/
theorem Reads.expression (reads : t.Reads 0) {rest : List Token} (follows : Follows 0 rest.head?) :
    Rule.expression.Gives (t.depth + 1) (t.tokens ++ rest) [.expr t.expr.bare] rest := by
  have gives := reads rest follows
  obtain ⟨first, more, starts_eq, starts, -⟩ := exists_starts t 0
  rw [tokensAt_of_le t.level.zero_le] at gives starts_eq
  rw [depthAt_of_le t.level.zero_le] at gives
  refine gives.expression ?_
  have is_expression {next : Option Token} (follows : Follows 0 next) :
      Rule.boolean.isExpression (some first) next = true := by
    cases follows with
    | ends => cases starts <;> rfl
    | closes => cases starts <;> rfl
    | operator lt => exact absurd lt (Nat.not_lt_zero _)
  rw [starts_eq]
  exact is_expression follows

/-- A tree in parentheses is an operand of every operator. -/
theorem Reads.enclosed (reads : t.Reads 0) (loose : t.level < 8) : t.Reads 8 := by
  intro rest follows
  rw [tokensAt_of_lt loose, depthAt_of_lt loose, enclosed_append]
  refine .seq (.rule ?_)
    (.done (.of_refuses (follows.refuses rfl rfl fun op _ => by cases op <;> rfl)))
  -- Five alternatives come before the one that starts with a parenthesis.
  refine .orElse (.of_refuses rfl) <| .orElse (.of_refuses rfl) <| .orElse (.of_refuses rfl) <|
    .orElse (.of_refuses rfl) <| .orElse (.of_refuses rfl) <| .choice ?_
  exact .seq (.sign .lparen) (.seq (.rule (reads.expression .closes)) (.sign .rparen))

/-- A tree that is read on its own level is read on every level. -/
theorem Reads.all (own : t.Reads t.level) (small : n ≤ 8) : t.Reads n := by
  have below {m : Nat} (le : m ≤ t.level) : t.Reads m :=
    own.down le t.level_le fun k _ lt => Nat.ne_of_gt lt
  by_cases le : n ≤ t.level
  · exact below le
  · have loosest : t.Reads 0 := below t.level.zero_le
    exact (loosest.enclosed (by omega)).down small le_rfl fun k low _ => by omega

/-- A tree is read on every level, alone and together with what follows it on the level. -/
def ReadsEverywhere (t : OpTree) : Prop := (∀ n ≤ 8, t.Reads n) ∧ ∀ n ∈ leftLevels, t.Folds n

/-- Only on its own level a tree is not read by the rule of the next. -/
theorem ReadsEverywhere.of_own (own : t.Reads t.level)
    (own_folds : t.level ∈ leftLevels → t.Folds t.level) : t.ReadsEverywhere := by
  refine ⟨fun n => own.all, fun n is_left => ?_⟩
  by_cases apart : t.level = n
  · exact apart ▸ own_folds (apart ▸ is_left)
  · have small : n + 1 ≤ 8 := by
      simp only [leftLevels, List.mem_cons, List.not_mem_nil, or_false] at is_left
      omega
    exact .of_reads is_left apart (own.all small)

/-! ## Each kind of tree on its own level -/

theorem reads_name (text : String) : (name text).Reads 8 := by
  intro rest follows
  have no_args : (Phrase.seq (.rule .args) (.reduce .call)).refusesAt rest.head? = true :=
    follows.refuses rfl rfl fun op _ => by cases op <;> rfl
  refine .seq (.rule ?_)
    (.done (.of_refuses (follows.refuses rfl rfl fun op _ => by cases op <;> rfl)))
  refine .orElse (.of_refuses rfl) <| .orElse (.of_refuses rfl) <| .orElse (.of_refuses rfl) <|
    .orElse (.of_refuses rfl) <| .choice <| .seq (.ident ⟨text, default⟩) ?_
  exact .orElse (.of_refuses no_args) (.reduceAll rfl rfl)

theorem Reads.neg (reads : t.Reads 7) : (unary .neg t).Reads 7 := by
  intro rest follows
  refine .orElse (.of_refuses rfl) (.seq (.sign .minus) ?_)
  exact .seq (.nested (.rule (reads rest follows))) (.reduceAll rfl rfl)

theorem Reads.not (reads : t.Reads 2) : (unary .not t).Reads 2 := by
  intro rest follows
  exact .yes_ rfl rfl (.seq (.nested (.rule (reads rest follows))) (.reduceAll rfl rfl))

/-- A comparison is read with operands of the next level on both sides. -/
theorem Reads.comparison {op : BinaryOp} (compares : op.level = 3) (left_reads : left.Reads 4)
    (right_reads : right.Reads 4) : (binary left op right).Reads op.level := by
  intro rest follows
  have left_level : op.leftLevel = 4 := if_pos compares
  rw [tokensAt_binary, depthAt_binary, left_level, compares, List.append_assoc]
  have left_gives := left_reads (op.token :: (right.tokensAt 4 ++ rest)) (.operator (by omega))
  have right_gives := right_reads rest (follows.mono (by omega))
  refine .seq (.rule (left_gives.mono (Nat.le_max_left ..))) (.option ?_)
  refine .round ?_ (right_gives.mono (Nat.le_max_right ..))
  cases op <;> first | rfl | simp [BinaryOp.level] at compares

/-- An operator that groups to the left is read after its left operand on the same level. -/
theorem Folds.binary {op : BinaryOp} (is_left : op.level ∈ leftLevels) (folds : left.Folds op.level)
    (reads : right.Reads (op.level + 1)) : (binary left op right).Folds op.level := by
  intro depth rest rest' zs follows deep passes
  have left_level : op.leftLevel = op.level := by
    refine if_neg fun compares => ?_
    simp [compares, leftLevels] at is_left
  rw [depthAt_binary, left_level] at deep
  rw [tokensAt_binary, left_level, List.append_assoc]
  refine folds _ _ _ _ (.operator op.level.lt_succ_self) (by omega) (.more ?_ passes)
  exact .round (find?_levelOperators is_left) ((reads rest follows).mono (by omega))

theorem readsEverywhere (t : OpTree) : t.ReadsEverywhere := by
  induction t with
  | name text => exact .of_own (reads_name text) (by simp [level, leftLevels])
  | unary op operand ih =>
      cases op with
      | neg => exact .of_own (ih.1 7 (by decide)).neg (by simp [level, UnaryOp.level, leftLevels])
      | not => exact .of_own (ih.1 2 (by decide)).not (by simp [level, UnaryOp.level, leftLevels])
  | binary left op right ih_left ih_right =>
      by_cases is_left : op.level ∈ leftLevels
      · have small : op.level + 1 ≤ 8 := by cases op <;> decide
        have folds := (ih_left.2 op.level is_left).binary is_left (ih_right.1 _ small)
        exact .of_own (folds.reads is_left) fun _ => folds
      · have compares : op.level = 3 := by cases op <;> simp_all [BinaryOp.level, leftLevels]
        refine .of_own ?_ fun is_left' => absurd is_left' is_left
        exact .comparison compares (ih_left.1 4 (by decide)) (ih_right.1 4 (by decide))

/-! ## One definition -/

/-- The definition of a variable with the value of a tree. -/
def definition (t : OpTree) : VarDef :=
  ⟨⟨"num", default⟩, ⟨"v", default⟩, t.expr, false, default⟩

/-- What comes before the value. -/
def heading : List Token := [.identifier "num", .identifier "v", .punct .assign]

theorem allWritable_heading : AllWritable heading := by
  simp only [heading, allWritable_cons, allWritable_nil, Token.Writable]
  decide

theorem gives_definition (t : OpTree) :
    Rule.varDef.Gives (t.depth + 1) (heading ++ t.tokens) [.varDef t.definition.bare] [] := by
  have value : Rule.expression.Gives (t.depth + 1) (t.tokens ++ []) [.expr t.expr.bare] [] :=
    (t.readsEverywhere.1 0 (by decide)).expression .ends
  rw [List.append_nil] at value
  refine .seq (.noOption (.of_refuses rfl)) (.seq (.type ⟨"num", default⟩) ?_)
  refine .seq (.ident ⟨"v", default⟩) (.seq (.sign .assign) ?_)
  exact .seq (.rule value) (.reduceAll rfl rfl)

end OpTree

/-! ## Texts -/

/-- The text of tokens with blanks between them. -/
def spaced : List Token → List Char
  | [] => []
  | [t] => t.chars
  | t :: u :: ts => t.chars ++ ' ' :: spaced (u :: ts)

theorem Token.Writable.fits_nil {t : Token} (writable : t.Writable) : t.Fits [] := by
  cases t with
  | keyword k => rfl
  | punct q => rfl
  | identifier name => exact ⟨writable, rfl⟩
  | number literal => exact ⟨writable, rfl⟩
  | malformed literal tail => exact writable.elim

theorem Token.Writable.isSound {t : Token} (writable : t.Writable) : t.isSound = true := by
  cases t with
  | malformed literal tail => exact writable.elim
  | _ => rfl

/-- A blank behind the last token makes no difference. -/
theorem sameLexemes_spaced {ts : List Token} (writable : AllWritable ts) :
    SameLexemes (written ts) (spaced ts) := by
  fun_induction spaced ts with
  | case1 => exact .nil
  | case2 t =>
      have t_writable : t.Writable := (allWritable_cons.mp writable).1
      have ended : SameLexemes (t.chars ++ [' ']) (t.chars ++ []) :=
        .sound t_writable.isSound (t_writable.fits rfl []) t_writable.fits_nil
          (.blank rfl (.done [])) (.done []) (fun more => absurd rfl more) .nil
      simpa using ended
  | case3 t u ts ih =>
      obtain ⟨t_writable, others⟩ := allWritable_cons.mp writable
      rw [written_cons]
      exact .sound t_writable.isSound (t_writable.fits rfl _) (t_writable.fits rfl _)
        (.blank rfl (.done _)) (.blank rfl (.done _))
        (fun _ => iff_of_false (by simp) (by simp)) (ih others)

theorem spellsRest_spaced {ts : List Token} (writable : AllWritable ts) :
    SpellsRest ts (spaced ts) := by
  fun_induction spaced ts with
  | case1 => rfl
  | case2 t =>
      have t_writable : t.Writable := (allWritable_cons.mp writable).1
      exact ⟨[], [], by simp, t_writable.fits_nil, .done [], rfl⟩
  | case3 t u ts ih =>
      obtain ⟨t_writable, others⟩ := allWritable_cons.mp writable
      exact ⟨' ' :: spaced (u :: ts), _, rfl, t_writable.fits rfl _, .blank rfl (.done _),
        ih others⟩

namespace OpTree

/-- The text of the definition of a variable with the value of a tree. -/
def text (t : OpTree) : String := "num v = " ++ String.ofList (spaced t.tokens)

theorem toList_text (t : OpTree) : t.text.toList = spaced (heading ++ t.tokens) := by
  obtain ⟨first, more, tokens_eq⟩ := List.exists_cons_of_ne_nil t.tokens_ne_nil
  simp only [text, String.toList_append, String.toList_ofList, tokens_eq]
  rfl

end OpTree

namespace Reading

/-- A text of one definition is accepted if its rule gives the definition. -/
theorem accepted_of_gives (limits : Limits) (name : String) {d : VarDef} {tokens : List Token}
    {depth : Nat} (gives : Rule.varDef.Gives depth tokens [.varDef d.bare] [])
    (writable : AllWritable tokens) (some_token : tokens ≠ []) (room : 1 ≤ limits.maxErrors)
    (deep : depth ≤ limits.maxNesting) :
    ∃ program, (ofSource limits ⟨name, String.ofList (written tokens)⟩).accepted? = some program ∧
      program.bare = ⟨[d.bare], [], default⟩ := by
  let source : Source := ⟨name, String.ofList (written tokens)⟩
  obtain ⟨reading, read⟩ := Option.isSome_iff_exists.mp (run?_isSome true limits source)
  rw [ofSource, read, Option.getD_some]
  have starts : (Position.ofText source.text).skipGap.rest = written tokens := by
    rw [Position.skipGap, show (Position.ofText source.text).rest = written tokens from
      String.toList_ofList]
    exact Gap.rest_skipFrom writable _
  obtain ⟨repeats, enough⟩ := enough_ahead (Position.leadsTo_skipGap (.ofText source.text))
  have ready : (Position.ofText source.text).skipGap.Ready
      ⟨limits.maxNesting, (Position.ofText source.text).rest.length + 1, true⟩
      (fuelFor (Position.ofText source.text).rest.length) (tokens ++ []) := by
    rw [List.append_nil]
    exact ⟨starts, writable, repeats, enough⟩
  have holds : Progress.Holds limits.maxErrors [] []
      ⟨[], [], .empty limits.maxErrors, .initial⟩ := ⟨rfl, rfl, rfl, rfl⟩
  obtain ⟨q, after, next, rest_eq, holds'⟩ :=
    definitionStep_of_gives source gives (List.append_nil tokens ▸ ready) deep holds
  unfold run? at read
  rw [definitions_succ source ready some_token holds room next] at read
  have no_functions : ∀ f ∈ ([] : List FunctionDef),
      f.name.isSome = true ∧ f.Legal (fun _ _ => default) := List.forall_mem_nil _
  obtain ⟨again, rfl, globals_eq, functions_eq⟩ := definitions_functions source no_functions
    (by simp) room (ready.next rest_eq) holds' read
  refine ⟨again, rfl, ?_⟩
  rw [Program.bare, globals_eq, functions_eq]
  rfl

/--
A tree of operators over names, written with parentheses only where the levels of its operators ask
for them, is accepted as the value of a definition and is read as the same tree. A comparison that
is followed by a second one at the same level is not accepted.
-/
theorem accepted_operators (limits : Limits) (name : String) :
    (∀ t : OpTree, t.Legal → 1 ≤ limits.maxErrors → t.nesting ≤ limits.maxNesting →
      ∃ program, (ofSource limits ⟨name, t.text⟩).accepted? = some program ∧
        program.bare = (⟨[t.definition], [], default⟩ : Program).bare) ∧
    ∀ (text : String) (before middle after : List Token) (first second : BinaryOp),
      first.level = 3 → second.level = 3 → Formula (before ++ middle ++ after) →
      flat 0 middle = true →
      Spells (OpTree.heading ++ (before ++ first.token :: (middle ++ second.token :: after)))
        text.toList →
      (ofSource limits ⟨name, text⟩).accepted? = none := by
  constructor
  · intro t legal room deep
    have writable : AllWritable (OpTree.heading ++ t.tokens) :=
      allWritable_append.mpr ⟨OpTree.allWritable_heading, legal.allWritable⟩
    obtain ⟨program, accepted, bare_eq⟩ := accepted_of_gives limits name t.gives_definition writable
      (by simp [OpTree.heading]) room deep
    have skips : Gap.Skips (String.ofList (written (OpTree.heading ++ t.tokens))).toList
        (written (OpTree.heading ++ t.tokens)) := by
      rw [String.toList_ofList]
      exact .done _
    have skips' : Gap.Skips t.text.toList (spaced (OpTree.heading ++ t.tokens)) := by
      rw [t.toList_text]
      exact .done _
    obtain ⟨program', accepted', same⟩ := accepted_of_sameLexemes limits
      ⟨name, String.ofList (written (OpTree.heading ++ t.tokens))⟩ ⟨name, t.text⟩ skips skips'
      (sameLexemes_spaced writable) accepted
    exact ⟨program', accepted', same.trans bare_eq⟩
  · intro text before middle after first second compares compares' formula is_flat spells
    have comparing {op : BinaryOp} (compares : op.level = 3) :
        op.token.role = .comparing ∧ op.token.isFormula = true := by
      cases op <;> simp_all [BinaryOp.level, BinaryOp.token, Token.role, Token.isFormula]
    refine not_accepted_of_chained limits spells ?_ (comparing compares).1 (comparing compares').1
      is_flat
    simp only [formula_append, formula_cons] at formula ⊢
    exact ⟨formula.1.1, (comparing compares).2, formula.1.2, (comparing compares').2, formula.2⟩

/-- A tree with operators of every level, where one right operand is in parentheses. -/
def mixedTree : OpTree :=
  .binary
    (.binary
      (.unary .not
        (.binary (.name "a") .less (.binary (.unary .neg (.name "b")) .pow (.name "c"))))
      .and
      (.binary (.name "d") .sub (.binary (.name "e") .sub (.name "f"))))
    .xor
    (.binary (.name "g") .mul (.name "h"))

theorem accepted_operators_mixed :
    mixedTree.text = "num v = not a < - b ^ c and d - ( e - f ) xor g * h" ∧
    (∃ program, (ofSource ⟨1, 3⟩ ⟨"mixed", mixedTree.text⟩).accepted? = some program ∧
      program.bare = (⟨[mixedTree.definition], [], default⟩ : Program).bare) ∧
    (ofSource ⟨1, 3⟩ ⟨"mixed", "num v = a < ( b == c ) + d >= e"⟩).accepted? = none := by
  have legal : mixedTree.Legal := by
    simp only [mixedTree, OpTree.Legal]
    decide
  have middle : flat 0 [.punct .lparen, .identifier "b", .punct .eq, .identifier "c",
      .punct .rparen, .punct .plus, .identifier "d"] = true := rfl
  have spells : Spells (OpTree.heading ++ ([.identifier "a"] ++ BinaryOp.less.token ::
      ([.punct .lparen, .identifier "b", .punct .eq, .identifier "c", .punct .rparen,
        .punct .plus, .identifier "d"] ++ BinaryOp.greaterEq.token :: [.identifier "e"])))
      "num v = a < ( b == c ) + d >= e".toList := by
    refine ⟨_, .done _, spellsRest_spaced (allWritable_append.mpr ⟨OpTree.allWritable_heading, ?_⟩)⟩
    simp only [List.cons_append, List.nil_append, allWritable_cons, allWritable_nil, Token.Writable,
      BinaryOp.token]
    decide
  obtain ⟨trees, chains⟩ := accepted_operators ⟨1, 3⟩ "mixed"
  exact ⟨by decide +kernel, trees mixedTree legal le_rfl (by decide),
    chains _ _ _ _ _ _ rfl rfl (by simp [Token.isFormula]) middle spells⟩

end Reading

end Formwork
