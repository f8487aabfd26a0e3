import Formwork.Grammar.Rules
import Formwork.Proofs.Derivation
import Formwork.Proofs.Meaning

/-!
# What each rule yields

`Phrase.Ensures` is a logic for phrases: from tokens and operands before a phrase, the phrase is
safe and everything it takes satisfies a postcondition. With it the phrase of each rule is followed
once, and `Rule.ensures_yields` says of every rule that it leaves the operands of one derivation of
the grammar, never lacks an operand and never comes back to itself without having read a token.
-/

namespace Formwork

/-- The tokens of the pieces. -/
def Yield.tokens (x : Yield) : List Token := x.pieces.map Piece.token

@[simp]
theorem Yield.tokens_append (x y : Yield) : (x.append y).tokens = x.tokens ++ y.tokens :=
  List.map_append

@[simp]
theorem Yield.tokens_read (x : Yield) (piece : Piece) (operands : List Operand) :
    (x.read piece operands).tokens = x.tokens ++ [piece.token] :=
  List.map_append

@[simp]
theorem Yield.operands_read (x : Yield) (piece : Piece) (operands : List Operand) :
    (x.read piece operands).operands = x.operands ++ operands := rfl

theorem Yield.pieces_ne_nil {x : Yield} (some_token : x.tokens ≠ []) : x.pieces ≠ [] := by
  rintro none
  exact some_token (by rw [tokens, none, List.map_nil])

/-- The text of a name is the name. -/
theorem Piece.text_of_identifier {x : Piece} {name : String}
    (token_eq : x.token = .identifier name) :
    x.lexeme.text = name := by
  rw [x.text_eq, token_eq, Token.chars, String.ofList_toList]

/-! ## A logic for phrases -/

/-- What is asked of tokens and operands. -/
abbrev Assertion := List Token → List Operand → Prop

/-- A yield satisfies what is asked of a rule. -/
def Yield.Meets (spec : Rule → Assertion) (r : Rule) (y : Yield) : Prop :=
  spec r y.tokens y.operands

/--
After tokens and operands, a phrase is safe and whatever it takes satisfies `post`, if what rules
take satisfies `spec`.
-/
def Phrase.Ensures (spec : Rule → Assertion) (rank : Rule → Nat) (bound : Nat) (phrase : Phrase)
    (tokens : List Token) (operands : List Operand) (post : Assertion) : Prop :=
  ∀ x : Yield, x.tokens = tokens → x.operands = operands →
    phrase.Safe (Yield.Meets spec) rank bound x ∧
      ∀ y, phrase.Takes (Yield.Meets spec) x y → post y.tokens y.operands

namespace Phrase.Ensures

variable {spec : Rule → Assertion} {rank : Rule → Nat} {bound : Nat} {tokens : List Token}
  {operands : List Operand} {post : Assertion}

theorem token {t : Terminal} {leaf : Leaf}
    (after : ∀ piece : Piece, t.Accepts piece.token →
      post (tokens ++ [piece.token]) (operands ++ (leaf.operand? piece.lexeme).toList)) :
    (Phrase.token t leaf).Ensures spec rank bound tokens operands post := by
  rintro x rfl rfl
  refine ⟨trivial, ?_⟩
  rintro y ⟨piece, accepts, rfl⟩
  simpa using after piece accepts

theorem word {k : Keyword} (after : post (tokens ++ [.keyword k]) operands) :
    (Phrase.word k).Ensures spec rank bound tokens operands post := by
  refine token fun piece accepts => ?_
  simp only [Terminal.Accepts] at accepts
  simpa [accepts, Leaf.operand?] using after

theorem sign {q : Punct} (after : post (tokens ++ [.punct q]) operands) :
    (Phrase.sign q).Ensures spec rank bound tokens operands post := by
  refine token fun piece accepts => ?_
  simp only [Terminal.Accepts] at accepts
  simpa [accepts, Leaf.operand?] using after

theorem ident (after : ∀ name place,
      post (tokens ++ [.identifier name]) (operands ++ [.name ⟨name, place⟩])) :
    Phrase.ident.Ensures spec rank bound tokens operands post := by
  refine token fun piece accepts => ?_
  obtain ⟨name, token_eq⟩ := accepts
  simpa [token_eq, Leaf.operand?, Piece.text_of_identifier token_eq] using
    after name piece.lexeme.span

theorem number (after : ∀ token value span,
      (token.isSound = true → ∃ literal, token = .number literal ∧ value = literal.value) →
      post (tokens ++ [token]) (operands ++ [.expr (.number value span)])) :
    Phrase.number.Ensures spec rank bound tokens operands post := by
  rintro x rfl rfl
  refine ⟨trivial, ?_⟩
  rintro y ⟨piece, ⟨literal, token_eq, rfl⟩ | ⟨literal, tail, token_eq, rfl⟩⟩
  · have read := after piece.token literal.value piece.lexeme.span fun _ => ⟨literal, token_eq, rfl⟩
    simpa using read
  · have read := after piece.token 0 piece.lexeme.span fun sound => by
      simp [token_eq, Token.isSound] at sound
    simpa using read

theorem rule {r : Rule} (low : tokens ≠ [] ∨ rank r < bound)
    (after : ∀ ts os, spec r ts os → post (tokens ++ ts) (operands ++ os)) :
    (Phrase.rule r).Ensures spec rank bound tokens operands post := by
  rintro x rfl rfl
  refine ⟨low.imp_left Yield.pieces_ne_nil, ?_⟩
  rintro y ⟨z, described, rfl⟩
  simpa using after z.tokens z.operands described

theorem seq {first second : Phrase}
    (both : first.Ensures spec rank bound tokens operands fun ts os =>
      second.Ensures spec rank bound ts os post) :
    (Phrase.seq first second).Ensures spec rank bound tokens operands post := by
  rintro x tokens_eq operands_eq
  obtain ⟨safe, takes⟩ := both x tokens_eq operands_eq
  refine ⟨⟨safe, fun y one => (takes y one y rfl rfl).1⟩, ?_⟩
  rintro z ⟨y, one, two⟩
  exact (takes y one y rfl rfl).2 z two

theorem choice {first second : Phrase}
    (one : first.Ensures spec rank bound tokens operands post)
    (two : second.Ensures spec rank bound tokens operands post) :
    (Phrase.choice first second).Ensures spec rank bound tokens operands post := by
  rintro x tokens_eq operands_eq
  obtain ⟨safe, takes⟩ := one x tokens_eq operands_eq
  obtain ⟨safe', takes'⟩ := two x tokens_eq operands_eq
  exact ⟨⟨safe, safe'⟩, fun y => Or.rec (takes y) (takes' y)⟩

theorem branch {t : Terminal} {yes no : Phrase}
    (one : ∀ token, t.Accepts token →
      yes.Ensures spec rank bound (tokens ++ [token]) operands post)
    (two : no.Ensures spec rank bound tokens operands post) :
    (Phrase.branch t yes no).Ensures spec rank bound tokens operands post := by
  rintro x rfl rfl
  have after (piece : Piece) (accepts : t.Accepts piece.token) :=
    one piece.token accepts (x.read piece []) (by simp) (by simp)
  obtain ⟨safe', takes'⟩ := two x rfl rfl
  refine ⟨⟨fun piece accepts => (after piece accepts).1, safe'⟩, ?_⟩
  rintro y (⟨piece, accepts, takes⟩ | takes)
  · exact (after piece accepts).2 y takes
  · exact takes' y takes

theorem attempt {phrase : Phrase} (inner : phrase.Ensures spec rank bound tokens operands post) :
    (Phrase.attempt phrase).Ensures spec rank bound tokens operands post := inner

theorem nested {phrase : Phrase} (inner : phrase.Ensures spec rank bound tokens operands post) :
    (Phrase.nested phrase).Ensures spec rank bound tokens operands post := inner

theorem remembered {memo : Memo} {phrase : Phrase}
    (inner : phrase.Ensures spec rank bound tokens operands post) :
    (Phrase.remembered memo phrase).Ensures spec rank bound tokens operands post := inner

theorem option {phrase : Phrase} (one : phrase.Ensures spec rank bound tokens operands post)
    (none : post tokens operands) :
    (Phrase.option phrase).Ensures spec rank bound tokens operands post := by
  rintro x rfl rfl
  obtain ⟨safe, takes⟩ := one x rfl rfl
  refine ⟨safe, ?_⟩
  rintro y (inner | rfl)
  · exact takes y inner
  · exact none

theorem afterIndex {phrase : Phrase}
    (one : (∃ e, operands.getLast? = some (.expr e) ∧ e.isIndex = true) →
      phrase.Ensures spec rank bound tokens operands post)
    (none : post tokens operands) :
    (Phrase.afterIndex phrase).Ensures spec rank bound tokens operands post := by
  rintro x rfl rfl
  refine ⟨fun ends => (one ends x rfl rfl).1, ?_⟩
  rintro y (⟨ends, inner⟩ | rfl)
  · exact (one ends x rfl rfl).2 y inner
  · exact none

theorem imp {phrase : Phrase} (between : Assertion)
    (inner : phrase.Ensures spec rank bound tokens operands between)
    (weaker : ∀ ts os, between ts os → post ts os) :
    phrase.Ensures spec rank bound tokens operands post := by
  rintro x tokens_eq operands_eq
  obtain ⟨safe, takes⟩ := inner x tokens_eq operands_eq
  exact ⟨safe, fun y taken => weaker _ _ (takes y taken)⟩

/-- A repetition keeps an invariant, if each round does and reads something. -/
theorem many {phrase : Phrase} (invariant : Assertion) (start : invariant tokens operands)
    (round : ∀ ts os, invariant ts os →
      phrase.Ensures spec rank bound ts os fun us qs =>
        invariant us qs ∧ ts.length < us.length)
    (after : ∀ ts os, invariant ts os → post ts os) :
    (Phrase.many phrase).Ensures spec rank bound tokens operands post := by
  rintro x rfl rfl
  have kept {y : Yield}
      (rounds : Relation.ReflTransGen (phrase.Takes (Yield.Meets spec)) x y) :
      invariant y.tokens y.operands := by
    induction rounds with
    | refl => exact start
    | tail _ last earlier => exact ((round _ _ earlier _ rfl rfl).2 _ last).1
  refine ⟨fun y rounds => ?_, fun y rounds => after _ _ (kept rounds)⟩
  obtain ⟨safe, takes⟩ := round _ _ (kept rounds) y rfl rfl
  refine ⟨safe, fun z last => ?_⟩
  simpa [Yield.tokens] using (takes z last).2

/-- A reduction of all operands of its phrase. -/
theorem reduce {r : Reduction} {node : Span → Operand} (started : tokens ≠ [])
    (takes_all : r.arity? = none)
    (builds : ∀ span, r.build? span operands = some (node span))
    (after : ∀ span, post tokens [node span]) :
    (Phrase.reduce r).Ensures spec rank bound tokens operands post := by
  rintro x rfl rfl
  simp only [Phrase.Safe, Phrase.Takes, Reduction.kept, takes_all, List.drop_zero, List.take_zero,
    List.nil_append]
  refine ⟨⟨Yield.pieces_ne_nil started, fun span => by rw [builds span]; rfl⟩, ?_⟩
  rintro y ⟨span, operand, -, built, rfl⟩
  rw [builds span] at built
  obtain rfl := Option.some.inj built
  exact after span

theorem reduceEntry (before : List Operand) {key value : Expr} (started : tokens ≠ [])
    (operands_eq : operands = before ++ [.expr key, .expr value])
    (after : post tokens (before ++ [.entry key value])) :
    (Phrase.reduce .entry).Ensures spec rank bound tokens operands post := by
  subst operands_eq
  rintro x rfl operands_eq
  simp only [Phrase.Safe, Phrase.Takes, operands_eq, Reduction.kept, Reduction.arity?,
    List.length_append, List.length_cons, List.length_nil, Nat.add_sub_cancel, List.drop_left,
    List.take_left]
  refine ⟨⟨Yield.pieces_ne_nil started, fun span => rfl⟩, ?_⟩
  rintro y ⟨span, operand, -, built, rfl⟩
  obtain rfl := Option.some.inj built
  exact after

end Phrase.Ensures

/-! ## What rules yield -/

/-- None of the tokens is a malformed number. -/
def AllSound (tokens : List Token) : Prop := ∀ token ∈ tokens, token.isSound = true

@[simp]
theorem allSound_nil : AllSound [] := by simp [AllSound]

@[simp]
theorem allSound_cons {token : Token} {tokens : List Token} :
    AllSound (token :: tokens) ↔ token.isSound = true ∧ AllSound tokens :=
  List.forall_mem_cons

@[simp]
theorem allSound_append {ts us : List Token} :
    AllSound (ts ++ us) ↔ AllSound ts ∧ AllSound us :=
  List.forall_mem_append

/-- Tokens are derived with a tree, unless one of them is a malformed number. -/
def Gives (n : Nonterminal) (tokens : List Token) (tree : n.Tree) : Prop :=
  AllSound tokens → Derives n tokens tree

/-- At least one token, and the operands that stand for a tree of the tokens. -/
def IsTree (n : Nonterminal) (stand : n.Tree → List Operand) : Assertion := fun ts os =>
  ts ≠ [] ∧ ∃ tree, os = stand tree ∧ Gives n ts tree

/-- At least one token, and an expression of a level that is a target if it is an element. -/
def IsExpr (level : Level) : Assertion := fun ts os =>
  ts ≠ [] ∧ ∃ e, os = [.expr e] ∧ Gives (.expr level) ts e ∧
    (e.isIndex = true → Gives (.expr .target) ts e)

theorem IsExpr.of_plain {level : Level} {ts : List Token} {e : Expr} (some_token : ts ≠ [])
    (plain : e.isIndex = false) (gives : Gives (.expr level) ts e) : IsExpr level ts [.expr e] :=
  ⟨some_token, e, rfl, gives, fun is_index => absurd is_index (by simp [plain])⟩

theorem IsExpr.lift {level below : Level} {ts : List Token} {os : List Operand}
    (member : below ∈ level.alternatives) (is_expr : IsExpr below ts os) : IsExpr level ts os := by
  obtain ⟨some_token, e, rfl, gives, target⟩ := is_expr
  exact ⟨some_token, e, rfl, fun sound => .lift member (gives sound), target⟩

namespace Rule

/-- The level of the expressions that a rule describes. -/
@[simp]
def level : Rule → Level
  | .boolean => .boolean
  | .conjunction => .conjunction
  | .negation => .negation
  | .comparison => .comparison
  | .sum => .sum
  | .product => .product
  | .power => .power
  | .unary => .unary
  | .suffixed => .suffixed
  | .atom => .atom
  | .collection => .collection
  | .conditional => .conditional
  | .lambda => .lambda
  | _ => .expression

/-- What reading a rule gives. -/
def Yields (r : Rule) : Assertion :=
  match r with
  | .varDef => IsTree .varDef fun d => [.varDef d]
  | .funDef => IsTree .funDef fun f => [.function f]
  | .param => IsTree .param fun p => [.param p]
  | .params => IsTree .params (List.map .param)
  | .body => IsTree .body fun b => [.block b]
  | .type => IsTree .type fun t => [.type t]
  | .block => IsTree .block fun b => [.block b]
  | .statements => IsTree .statements fun b => [.block b]
  | .statement => IsTree .statement fun s => [.stmt s]
  | .args => IsTree .args (List.map .expr)
  | _ => IsExpr r.level

/-- How many rules can be entered one inside another before a token is read, at most. -/
def rank : Rule → Nat
  | .type | .block | .lambda | .funDef | .params | .args | .collection | .conditional => 0
  | .param | .varDef | .body | .atom => 1
  | .suffixed => 2
  | .unary => 3
  | .power => 4
  | .product => 5
  | .sum => 6
  | .comparison => 7
  | .negation => 8
  | .conjunction => 9
  | .boolean => 10
  | .update => 11
  | .expression => 12
  | .statement => 13
  | .statements => 14

/-- The phrase of a rule gives what the rule is to give. -/
def IsKept (r : Rule) : Prop := r.phrase.Ensures Yields rank r.rank [] [] r.Yields

end Rule

open Phrase.Ensures

namespace Rule.IsKept

theorem type : Rule.type.IsKept := by
  refine choice (token fun piece accepts => ?_) (token fun piece accepts => ?_)
  · simp only [Terminal.Accepts] at accepts
    refine ⟨by simp, _, rfl, fun _ => ?_⟩
    have text_eq : piece.lexeme.text = "fun" := by rw [piece.text_eq, accepts]; rfl
    simpa [accepts, text_eq] using Derives.funType
  · obtain ⟨name, token_eq⟩ := accepts
    refine ⟨by simp, _, rfl, fun _ => ?_⟩
    simpa [token_eq, Piece.text_of_identifier token_eq] using Derives.namedType

/-- A definition from its type on, after a sign that it is constant or without one. -/
theorem definition {signs : List Token} {marks : List Operand} {constant : Bool}
    (low : signs ≠ [] ∨ Rule.type.rank < Rule.varDef.rank)
    (builds : ∀ span t ident value,
      Reduction.varDef.build? span (marks ++ [.type t, .name ident, .expr value]) =
        some (.varDef ⟨t, ident, value, constant, span⟩))
    (derives : ∀ {ts us t name value place span}, Derives .type ts t →
      Derives (.expr .expression) us value →
      Derives .varDef (signs ++ (ts ++ .identifier name :: .punct .assign :: us))
        ⟨t, ⟨name, place⟩, value, constant, span⟩) :
    (Phrase.chain [.rule .type, .ident, .sign .assign, .rule .expression]
      (.reduce .varDef)).Ensures Yields rank Rule.varDef.rank signs marks Rule.varDef.Yields := by
  refine seq (rule low ?_)
  rintro ts _ ⟨-, t, rfl, type⟩
  refine seq (ident fun name place => seq (sign (seq (rule (.inl (by simp)) ?_))))
  rintro us _ ⟨-, value, rfl, gives, -⟩
  refine reduce (by simp) rfl (fun span => by simpa using builds span t ⟨name, place⟩ value)
    fun span => ?_
  refine ⟨by simp, _, rfl, fun sound => ?_⟩
  simp [Token.isSound] at sound
  simpa using derives (type sound.2.1) (gives sound.2.2)

theorem varDef : Rule.varDef.IsKept := by
  refine seq (option (token fun piece accepts => ?_) ?_)
  · simp only [Terminal.Accepts] at accepts
    rw [accepts]
    exact definition (.inl (by simp)) (fun _ _ _ _ => rfl) .constant
  · exact definition (.inr (by decide)) (fun _ _ _ _ => rfl) .variable

theorem signature? (params : List Param) (body : Block) :
    Reduction.signature? (params.map .param ++ [.block body]) = some (params, body) := by
  induction params with
  | nil => rfl
  | cons p params ih => simp [Reduction.signature?, ih]

theorem stmts? (stmts : List Stmt) : Reduction.stmts? (stmts.map .stmt) = some stmts := by
  induction stmts with
  | nil => rfl
  | cons s stmts ih => simp [Reduction.stmts?, ih]

theorem exprs? (es : List Expr) : Reduction.exprs? (es.map .expr) = some es := by
  induction es with
  | nil => rfl
  | cons e es ih => simp [Reduction.exprs?, ih]

theorem entries? (es : List (Expr × Expr)) :
    Reduction.entries? (es.map fun e => .entry e.1 e.2) = some es := by
  induction es with
  | nil => rfl
  | cons e es ih => simp [Reduction.entries?, ih]

theorem funDef : Rule.funDef.IsKept := by
  refine seq (word (seq (rule (.inl (by simp)) ?_)))
  rintro ts _ ⟨-, t, rfl, type⟩
  refine seq (ident fun name place => seq (rule (.inl (by simp)) ?_))
  rintro us _ ⟨-, params, rfl, gives_params⟩
  refine seq (rule (.inl (by simp)) ?_)
  rintro vs _ ⟨-, body, rfl, gives_body⟩
  refine reduce (by simp) rfl (fun span => by simp [Reduction.build?, signature?]; rfl)
    fun span => ?_
  refine ⟨by simp, _, rfl, fun sound => ?_⟩
  simp [Token.isSound] at sound
  simpa using Derives.funDef (type sound.1) (gives_params sound.2.1) (gives_body sound.2.2)

theorem lambda : Rule.lambda.IsKept := by
  refine remembered (seq (word (seq (rule (.inl (by simp)) ?_))))
  rintro ts _ ⟨-, t, rfl, type⟩
  refine seq (rule (.inl (by simp)) ?_)
  rintro us _ ⟨-, params, rfl, gives_params⟩
  refine seq (rule (.inl (by simp)) ?_)
  rintro vs _ ⟨-, body, rfl, gives_body⟩
  refine reduce (by simp) rfl (fun span => by simp [Reduction.build?, signature?]; rfl)
    fun span => ?_
  refine .of_plain (by simp) rfl fun sound => ?_
  simp [Token.isSound] at sound
  simpa using Derives.lambda (type sound.1) (gives_params sound.2.1) (gives_body sound.2.2)

/-! ### Lists -/

/-- After the tokens `front`, items divided by commas and the operands that stand for them. -/
def Listed {α : Type} (front : List Token) (stand : α → Operand)
    (lists : List Token → List α → Prop) : Assertion := fun ts os =>
  ∃ us items, ts = front ++ us ∧ us ≠ [] ∧ os = items.map stand ∧ (AllSound us → lists us items)

section Listed

variable {α : Type} {r : Rule} {stand : α → Operand} {item : List Token → α → Prop}
  {lists : List Token → List α → Prop} {bound : Nat} {front : List Token} {post : Assertion}

theorem commaTail
    (yields : ∀ ts os, r.Yields ts os → ts ≠ [] ∧ ∃ a, os = [stand a] ∧ (AllSound ts → item ts a))
    (more : ∀ {ts us items a}, lists ts items → item us a →
      lists (ts ++ .punct .comma :: us) (items ++ [a]))
    {ts : List Token} {os : List Operand} (listed : Listed front stand lists ts os)
    (after : ∀ us qs, Listed front stand lists us qs → post us qs) :
    (Phrase.many (.seq (.sign .comma) (.rule r))).Ensures Yields rank bound ts os post := by
  refine many (Listed front stand lists) listed ?_ after
  rintro _ _ ⟨us, items, rfl, some_token, rfl, gives⟩
  refine seq (sign (rule (.inl (by simp)) ?_))
  intro vs os described
  obtain ⟨-, a, rfl, gives_item⟩ := yields vs os described
  refine ⟨⟨us ++ .punct .comma :: vs, items ++ [a], by simp, by simp, by simp, fun sound => ?_⟩,
    by simp⟩
  simp [Token.isSound] at sound
  exact more (gives sound.1) (gives_item sound.2)

theorem commaList
    (yields : ∀ ts os, r.Yields ts os → ts ≠ [] ∧ ∃ a, os = [stand a] ∧ (AllSound ts → item ts a))
    (one : ∀ {ts a}, item ts a → lists ts [a])
    (more : ∀ {ts us items a}, lists ts items → item us a →
      lists (ts ++ .punct .comma :: us) (items ++ [a]))
    (started : front ≠ []) (after : ∀ us qs, Listed front stand lists us qs → post us qs) :
    (Phrase.commaList (.rule r)).Ensures Yields rank bound front [] post := by
  refine seq (rule (.inl started) ?_)
  intro ts os described
  obtain ⟨some_token, a, rfl, gives⟩ := yields ts os described
  exact commaTail yields more ⟨ts, [a], rfl, some_token, rfl, fun sound => one (gives sound)⟩ after

end Listed

theorem expression_yields (ts : List Token) (os : List Operand)
    (described : Rule.expression.Yields ts os) :
    ts ≠ [] ∧ ∃ e, os = [.expr e] ∧ (AllSound ts → Derives (.expr .expression) ts e) := by
  obtain ⟨some_token, e, rfl, gives, -⟩ := described
  exact ⟨some_token, e, rfl, gives⟩

theorem args : Rule.args.IsKept := by
  refine remembered (seq (sign (seq (option ?_ (sign ?_)))))
  · refine commaList expression_yields Derives.oneExpr Derives.moreExprs (by simp) ?_
    rintro _ _ ⟨us, items, rfl, -, rfl, gives⟩
    refine sign ⟨by simp, items, rfl, fun sound => ?_⟩
    simp [Token.isSound] at sound
    simpa using Derives.args (gives sound)
  · exact ⟨by simp, [], rfl, fun _ => .noArgs⟩

theorem params : Rule.params.IsKept := by
  refine seq (sign (seq (option ?_ (sign ?_))))
  · refine commaList (r := .param) (fun ts os described => described) Derives.oneParam
      Derives.moreParams (by simp) ?_
    rintro _ _ ⟨us, items, rfl, -, rfl, gives⟩
    refine sign ⟨by simp, items, rfl, fun sound => ?_⟩
    simp [Token.isSound] at sound
    simpa using Derives.params (gives sound)
  · exact ⟨by simp, [], rfl, fun _ => .noParams⟩

theorem param : Rule.param.IsKept := by
  refine seq (rule (.inr (by decide)) ?_)
  rintro ts _ ⟨-, t, rfl, type⟩
  refine seq (ident fun name place => seq (option (seq (sign (rule (.inl (by simp)) ?_))) ?_))
  · rintro us _ ⟨-, value, rfl, gives, -⟩
    refine reduce (by simp) rfl (fun span => rfl) fun span => ⟨by simp, _, rfl, fun sound => ?_⟩
    simp [Token.isSound] at sound
    simpa using Derives.defaultParam (type sound.1) (gives sound.2)
  · refine reduce (by simp) rfl (fun span => rfl) fun span => ⟨by simp, _, rfl, fun sound => ?_⟩
    simp [Token.isSound] at sound
    simpa using Derives.param (type sound)

theorem body : Rule.body.IsKept := by
  refine branch (fun token accepts => ?_) (rule (.inr (by decide)) ?_)
  · simp only [Terminal.Accepts] at accepts
    subst accepts
    refine seq (rule (.inl (by simp)) ?_)
    rintro ts _ ⟨-, value, rfl, gives, -⟩
    refine reduce (by simp) rfl (fun span => rfl) fun span => ⟨by simp, _, rfl, fun sound => ?_⟩
    simp [Token.isSound] at sound
    exact .valueBody (gives sound)
  · rintro ts _ ⟨some_token, b, rfl, gives⟩
    exact ⟨by simpa using some_token, b, rfl, fun sound => .blockBody (gives sound)⟩

theorem block : Rule.block.IsKept := by
  refine seq (sign (seq (many
    (fun ts os => ∃ us stmts, ts = [.punct .lbrace] ++ us ∧ os = stmts.map .stmt ∧
      Gives .sequence us stmts) ⟨[], [], rfl, rfl, fun _ => .noStatements⟩ ?_ ?_)))
  · rintro _ _ ⟨us, stmts, rfl, rfl, gives⟩
    refine rule (.inl (by simp)) ?_
    rintro vs _ ⟨some_token, stmt, rfl, gives_stmt⟩
    have positive := List.length_pos_iff.mpr some_token
    refine ⟨⟨us ++ vs, stmts ++ [stmt], by simp, by simp, fun sound => ?_⟩, ?_⟩
    · simp at sound
      exact .sequence (gives sound.1) (gives_stmt sound.2)
    · simp only [List.length_append]
      omega
  · rintro _ _ ⟨us, stmts, rfl, rfl, gives⟩
    refine seq (sign (reduce (by simp) rfl (fun span => by simp [Reduction.build?, stmts?]; rfl)
      fun span => ⟨by simp, _, rfl, fun sound => ?_⟩))
    simp [Token.isSound] at sound
    simpa using Derives.block (gives sound)

theorem statements : Rule.statements.IsKept := by
  refine choice (rule (.inr (by decide)) ?_) (seq (rule (.inr (by decide)) ?_))
  · rintro ts _ ⟨some_token, b, rfl, gives⟩
    exact ⟨by simpa using some_token, b, rfl, fun sound => .blockStatements (gives sound)⟩
  · rintro ts _ ⟨some_token, s, rfl, gives⟩
    exact reduce (by simpa using some_token) rfl (fun span => rfl) fun span =>
      ⟨by simpa using some_token, _, rfl, fun sound => .oneStatement (gives sound)⟩

theorem statement : Rule.statement.IsKept := by
  refine nested (seq (imp (IsTree .sentence fun s => [.stmt s]) ?_ ?_))
  · refine choice ?_ (choice ?_ (choice ?_ (choice ?_ (choice ?_ (choice ?_ (attempt ?_))))))
    · refine seq (rule (.inr (by decide)) ?_)
      rintro ts _ ⟨some_token, d, rfl, gives⟩
      exact reduce (by simpa using some_token) rfl (fun span => rfl) fun span =>
        ⟨by simpa using some_token, _, rfl, fun sound => .define (gives sound)⟩
    · refine seq (rule (.inr (by decide)) ?_)
      rintro ts _ ⟨some_token, f, rfl, gives⟩
      exact reduce (by simpa using some_token) rfl (fun span => rfl) fun span =>
        ⟨by simpa using some_token, _, rfl, fun sound => .function (gives sound)⟩
    · refine seq (word (seq (rule (.inl (by simp)) ?_)))
      rintro ts _ ⟨-, value, rfl, gives, -⟩
      refine reduce (by simp) rfl (fun span => rfl) fun span => ⟨by simp, _, rfl, fun sound => ?_⟩
      simp [Token.isSound] at sound
      exact .return_ (gives sound)
    · refine seq (word (seq (rule (.inl (by simp)) ?_)))
      rintro ts _ ⟨-, t, rfl, type⟩
      refine seq (ident fun name place => seq (word (seq (rule (.inl (by simp)) ?_))))
      rintro us _ ⟨-, iterable, rfl, gives, -⟩
      refine seq (word (seq (rule (.inl (by simp)) ?_)))
      rintro vs _ ⟨-, b, rfl, gives_body⟩
      refine reduce (by simp) rfl (fun span => rfl) fun span => ⟨by simp, _, rfl, fun sound => ?_⟩
      simp [Token.isSound] at sound
      simpa using Derives.for_ (type sound.1) (gives sound.2.1) (gives_body sound.2.2)
    · refine seq (word (seq (rule (.inl (by simp)) ?_)))
      rintro ts _ ⟨-, condition, rfl, gives, -⟩
      refine seq (word (seq (rule (.inl (by simp)) ?_)))
      rintro us _ ⟨-, b, rfl, gives_body⟩
      refine reduce (by simp) rfl (fun span => rfl) fun span => ⟨by simp, _, rfl, fun sound => ?_⟩
      simp [Token.isSound] at sound
      simpa using Derives.while_ (gives sound.1) (gives_body sound.2)
    · refine seq (ident fun name place => seq (sign (seq (rule (.inl (by simp)) ?_))))
      rintro ts _ ⟨-, value, rfl, gives, -⟩
      refine reduce (by simp) rfl (fun span => rfl) fun span => ⟨by simp, _, rfl, fun sound => ?_⟩
      simp [Token.isSound] at sound
      exact .assign (gives sound)
    · refine seq (rule (.inr (by decide)) ?_)
      rintro ts _ ⟨some_token, value, rfl, gives, -⟩
      exact reduce (by simpa using some_token) rfl (fun span => rfl) fun span =>
        ⟨by simpa using some_token, _, rfl, fun sound => .expr (gives sound)⟩
  · rintro ts _ ⟨some_token, s, rfl, gives⟩
    refine option (sign ⟨by simp, s, rfl, fun sound => ?_⟩)
      ⟨some_token, s, rfl, fun sound => .statement (gives sound)⟩
    simp [Token.isSound] at sound
    exact .endedStatement (gives sound)

/-! ### Expressions -/

theorem conditional : Rule.conditional.IsKept := by
  refine remembered (seq (word (seq (rule (.inl (by simp)) ?_))))
  rintro ts _ ⟨-, condition, rfl, gives, -⟩
  refine seq (word (seq (rule (.inl (by simp)) ?_)))
  rintro us _ ⟨-, yes, rfl, gives_yes⟩
  refine seq (option (seq (word (rule (.inl (by simp)) ?_))) ?_)
  · rintro vs _ ⟨-, no, rfl, gives_no⟩
    refine reduce (by simp) rfl (fun span => rfl) fun span =>
      .of_plain (by simp) rfl fun sound => ?_
    simp [Token.isSound] at sound
    simpa using Derives.conditionalElse (gives sound.1) (gives_yes sound.2.1) (gives_no sound.2.2)
  · refine reduce (by simp) rfl (fun span => rfl) fun span =>
      .of_plain (by simp) rfl fun sound => ?_
    simp [Token.isSound] at sound
    simpa using Derives.conditional (gives sound.1) (gives_yes sound.2)

theorem expression : Rule.expression.IsKept := by
  refine nested (choice ?_ (choice ?_ (attempt ?_)))
  · exact rule (.inr (by decide)) fun ts os is_expr => .lift (by decide) is_expr
  · exact rule (.inr (by decide)) fun ts os is_expr => .lift (by decide) is_expr
  · exact rule (.inr (by decide)) fun ts os is_expr => is_expr

theorem update : Rule.update.IsKept := by
  refine seq (rule (.inr (by decide)) ?_)
  rintro ts _ ⟨some_token, e, rfl, gives, target⟩
  refine afterIndex ?_ ?_
  · rintro ⟨e', newest, is_index⟩
    obtain rfl : e = e' := by simpa using newest
    refine seq (sign (seq (rule (.inl (by simp)) ?_)))
    rintro us _ ⟨-, value, rfl, gives_value, -⟩
    cases e with
    | index target_expr key place =>
        refine reduce (by simp) rfl (fun span => rfl) fun span =>
          .of_plain (by simp) rfl fun sound => ?_
        simp [Token.isSound] at sound
        refine .lift (show Level.update ∈ Level.alternatives _ by decide) ?_
        simpa using Derives.update (target rfl sound.1) (gives_value sound.2)
    | _ => simp [Expr.isIndex] at is_index
  · exact .lift (show Level.boolean ∈ Level.alternatives _ by decide)
      ⟨some_token, e, rfl, gives, target⟩

/-- One of several operators. -/
theorem operators {ops : List (Terminal × BinaryOp)} {last : Terminal × BinaryOp} {bound : Nat}
    {tokens : List Token} {operands : List Operand} {post : Assertion}
    (after : ∀ entry ∈ last :: ops, ∀ token, entry.1.Accepts token →
      post (tokens ++ [token]) (operands ++ [.operator entry.2])) :
    (Phrase.operators ops last).Ensures Yields rank bound tokens operands post := by
  induction ops with
  | nil => exact token fun piece accepts => after last (by simp) _ accepts
  | cons entry ops ih =>
      refine choice (token fun piece accepts => after entry (by simp) _ accepts) (ih ?_)
      intro other member
      refine after other ?_
      simp only [List.mem_cons] at member ⊢
      tauto

/-- An operator and its right operand, after the left operand. -/
theorem operation (level : Level) {operand : Rule} {ops : List (Terminal × BinaryOp)}
    {last : Terminal × BinaryOp} {bound : Nat} {ts : List Token} {os : List Operand}
    {post : Assertion}
    (operand_yields : operand.Yields = IsExpr level.sides.2)
    (table : ∀ entry ∈ last :: ops, ∀ token, entry.1.Accepts token →
      (token, entry.2) ∈ level.operators)
    (left : IsExpr level.sides.1 ts os)
    (after : ∀ us qs, IsExpr level us qs → ts.length < us.length → post us qs) :
    (Phrase.chain [.operators ops last, .rule operand] (.reduce .binary)).Ensures Yields rank bound
      ts os post := by
  obtain ⟨-, left, rfl, gives, -⟩ := left
  refine seq (operators fun entry member token accepts => seq (rule (.inl (by simp)) ?_))
  rw [operand_yields]
  rintro us _ ⟨-, right, rfl, gives_right, -⟩
  refine reduce (by simp) rfl (fun span => rfl) fun span => ?_
  refine after _ _ (.of_plain (by simp) rfl fun sound => ?_) (by simp)
  simp at sound
  simpa using Derives.binary (table entry member token accepts) (gives sound.1)
    (gives_right sound.2.2)

/-- Operators that group to the left. -/
theorem leftFold {level : Level} {operand : Rule} {ops : List (Terminal × BinaryOp)}
    {last : Terminal × BinaryOp} {bound : Nat} (low : operand.rank < bound)
    (operand_yields : operand.Yields = IsExpr level.sides.2)
    (to_left : level.sides.1 = level) (member : level.sides.2 ∈ level.alternatives)
    (table : ∀ entry ∈ last :: ops, ∀ token, entry.1.Accepts token →
      (token, entry.2) ∈ level.operators) :
    (Phrase.leftFold operand ops last).Ensures Yields rank bound [] [] (IsExpr level) := by
  refine seq (rule (.inr low) ?_)
  rw [operand_yields]
  intro ts os is_operand
  refine many (IsExpr level) (.lift member is_operand) ?_ fun _ _ is_expr => is_expr
  intro us qs left
  refine operation level operand_yields table (by rwa [to_left]) fun _ _ is_expr longer => ?_
  exact ⟨is_expr, longer⟩

theorem boolean : Rule.boolean.IsKept :=
  leftFold (by decide) rfl rfl (by decide) (by simp [Terminal.Accepts, Level.operators])

theorem conjunction : Rule.conjunction.IsKept :=
  leftFold (by decide) rfl rfl (by decide) (by simp [Terminal.Accepts, Level.operators])

theorem sum : Rule.sum.IsKept :=
  leftFold (by decide) rfl rfl (by decide) (by simp [Terminal.Accepts, Level.operators])

theorem product : Rule.product.IsKept :=
  leftFold (by decide) rfl rfl (by decide) (by simp [Terminal.Accepts, Level.operators])

theorem power : Rule.power.IsKept :=
  leftFold (by decide) rfl rfl (by decide) (by simp [Terminal.Accepts, Level.operators])

theorem comparison : Rule.comparison.IsKept := by
  refine seq (rule (.inr (by decide)) ?_)
  intro ts os is_sum
  refine option (operation .comparison rfl ?_ is_sum fun _ _ is_expr _ => is_expr) ?_
  · simp [Terminal.Accepts, Level.operators]
  · exact .lift (show Level.sum ∈ Level.alternatives _ by decide) is_sum

theorem negation : Rule.negation.IsKept := by
  refine branch (fun token accepts => ?_) (rule (.inr (by decide)) ?_)
  · simp only [Terminal.Accepts] at accepts
    subst accepts
    refine seq (nested (rule (.inl (by simp)) ?_))
    rintro ts _ ⟨-, e, rfl, gives, -⟩
    refine reduce (by simp) rfl (fun span => rfl) fun span =>
      .of_plain (by simp) rfl fun sound => ?_
    simp [Token.isSound] at sound
    exact .not (gives sound)
  · exact fun ts os is_expr =>
      .lift (show Level.comparison ∈ Level.alternatives _ by decide) is_expr

theorem unary : Rule.unary.IsKept := by
  refine choice (rule (.inr (by decide)) ?_) (seq (sign (seq (nested (rule (.inl (by simp)) ?_)))))
  · exact fun ts os is_expr => .lift (show Level.suffixed ∈ Level.alternatives _ by decide) is_expr
  · rintro ts _ ⟨-, e, rfl, gives, -⟩
    refine reduce (by simp) rfl (fun span => rfl) fun span =>
      .of_plain (by simp) rfl fun sound => ?_
    simp [Token.isSound] at sound
    exact .negate (gives sound)

theorem suffixed : Rule.suffixed.IsKept := by
  refine seq (rule (.inr (by decide)) ?_)
  intro ts os is_atom
  refine many (IsExpr .suffixed)
    (.lift (show Level.atom ∈ Level.alternatives _ by decide) is_atom) ?_
    fun _ _ is_expr => is_expr
  rintro us _ ⟨some_token, e, rfl, gives, -⟩
  refine choice ?_ (choice ?_ (attempt ?_))
  · refine seq (rule (.inl some_token) ?_)
    rintro vs _ ⟨some_more, args, rfl, gives_args⟩
    refine reduce (by simp [some_token]) rfl (fun span => by simp [Reduction.build?, exprs?]; rfl)
      fun span => ?_
    refine ⟨.of_plain (by simp [some_token]) rfl fun sound => ?_,
      by simpa using List.length_pos_iff.mpr some_more⟩
    simp at sound
    exact .apply (gives sound.1) (gives_args sound.2)
  · refine seq (sign (seq (rule (.inl (by simp)) ?_)))
    rintro vs _ ⟨-, key, rfl, gives_key, -⟩
    refine seq (sign (reduce (by simp) rfl (fun span => rfl) fun span =>
      ⟨⟨by simp, _, rfl, ?_, ?_⟩, ?_⟩))
    · intro sound
      simp [Token.isSound] at sound
      simpa using Derives.index (gives sound.1) (gives_key sound.2)
    · intro _ sound
      simp [Token.isSound] at sound
      simpa using Derives.target (gives sound.1) (gives_key sound.2)
    · simp
  · refine seq (sign (seq (ident fun name place => seq (rule (.inl (by simp)) ?_))))
    rintro vs _ ⟨-, args, rfl, gives_args⟩
    refine reduce (by simp) rfl (fun span => by simp [Reduction.build?, exprs?]; rfl) fun span => ?_
    refine ⟨.of_plain (by simp) rfl fun sound => ?_, by simp⟩
    simp [Token.isSound] at sound
    simpa using Derives.method (gives sound.1) (gives_args sound.2)

theorem atom : Rule.atom.IsKept := by
  refine choice ?_ (choice ?_ (choice ?_ (choice ?_ (choice ?_ (choice ?_ (choice ?_
    (attempt ?_)))))))
  · refine number fun token value span holds => .of_plain (by simp) rfl fun sound => ?_
    simp only [List.nil_append, allSound_cons] at sound
    obtain ⟨literal, rfl, rfl⟩ := holds sound.1
    exact .number
  · refine choice (token fun piece accepts => ?_) (token fun piece accepts => ?_)
    · simp only [Terminal.Accepts] at accepts
      rw [accepts]
      exact .of_plain (by simp) rfl fun _ => .true_
    · simp only [Terminal.Accepts] at accepts
      rw [accepts]
      exact .of_plain (by simp) rfl fun _ => .false_
  · refine seq (word (seq (rule (.inl (by simp)) ?_)))
    rintro ts _ ⟨-, t, rfl, type⟩
    refine seq (rule (.inl (by simp)) ?_)
    rintro us _ ⟨-, args, rfl, gives_args⟩
    refine reduce (by simp) rfl (fun span => by simp [Reduction.build?, exprs?]; rfl) fun span => ?_
    refine .of_plain (by simp) rfl fun sound => ?_
    simp [Token.isSound] at sound
    exact .create (type sound.1) (gives_args sound.2)
  · exact rule (.inr (by decide)) fun ts os is_expr =>
      .lift (show Level.collection ∈ Level.alternatives _ by decide) is_expr
  · refine seq (ident fun name place => choice (seq (rule (.inl (by simp)) ?_)) ?_)
    · rintro ts _ ⟨-, args, rfl, gives_args⟩
      refine reduce (by simp) rfl (fun span => by simp [Reduction.build?, exprs?]; rfl)
        fun span => ?_
      refine .of_plain (by simp) rfl fun sound => ?_
      simp [Token.isSound] at sound
      exact .call (gives_args sound)
    · exact reduce (by simp) rfl (fun span => rfl) fun span =>
        .of_plain (by simp) rfl fun _ => .name
  · refine seq (sign (seq (rule (.inl (by simp)) ?_)))
    rintro ts _ ⟨-, e, rfl, gives, target⟩
    refine sign ⟨by simp, e, rfl, fun sound => ?_, fun is_index sound => ?_⟩
    · simp [Token.isSound] at sound
      exact .group (gives sound)
    · simp [Token.isSound] at sound
      exact .groupedTarget (target is_index sound)
  · exact rule (.inr (by decide)) fun ts os is_expr =>
      .lift (show Level.conditional ∈ Level.alternatives _ by decide) is_expr
  · exact rule (.inr (by decide)) fun ts os is_expr =>
      .lift (show Level.lambda ∈ Level.alternatives _ by decide) is_expr

/-! ### Collections -/

/-- What follows the first expression of a range. -/
theorem rangeTail {ts : List Token} {first : Expr} (gives : Gives (.expr .expression) ts first) :
    (Phrase.chain [.choice (.token (.punct .dotDotDot) (.bounds true))
        (.token (.punct .dotDot) (.bounds false)), .rule .expression,
      .option (.seq (.word .step) (.rule .expression)), .sign .rbracket] (.reduce .range)).Ensures
      Yields rank Rule.collection.rank (.punct .lbracket :: ts) [.expr first]
      (IsExpr .collection) := by
  refine seq (imp (fun us qs => ∃ dots inclusive,
    (dots, inclusive) ∈ [(Punct.dotDot, false), (.dotDotDot, true)] ∧
      us = .punct .lbracket :: (ts ++ [.punct dots]) ∧
        qs = [.expr first, .bounds inclusive]) ?_ ?_)
  · refine choice (token fun piece accepts => ?_) (token fun piece accepts => ?_)
    · exact ⟨.dotDotDot, true, by decide, by simpa [Terminal.Accepts] using accepts, rfl⟩
    · exact ⟨.dotDot, false, by decide, by simpa [Terminal.Accepts] using accepts, rfl⟩
  · rintro _ _ ⟨dots, inclusive, bounds, rfl, rfl⟩
    refine seq (rule (.inl (by simp)) ?_)
    rintro us _ ⟨-, last, rfl, gives_last, -⟩
    refine seq (option (seq (word (rule (.inl (by simp)) ?_))) ?_)
    · rintro vs _ ⟨-, step, rfl, gives_step, -⟩
      refine seq (sign (reduce (by simp) rfl (fun span => rfl) fun span =>
        .of_plain (by simp) rfl fun sound => ?_))
      simp [Token.isSound] at sound
      simpa using Derives.steppedRange bounds (gives sound.1) (gives_last sound.2.1)
        (gives_step sound.2.2)
    · refine seq (sign (reduce (by simp) rfl (fun span => rfl) fun span =>
        .of_plain (by simp) rfl fun sound => ?_))
      simp [Token.isSound] at sound
      simpa using Derives.range bounds (gives sound.1) (gives_last sound.2)

/-- What follows the first key of a map. -/
theorem mapTail {ts : List Token} {key : Expr} (gives : Gives (.expr .expression) ts key) :
    (Phrase.chain [.sign .colon, .rule .expression, .reduce .entry,
      .many (.chain [.sign .comma, .rule .expression, .sign .colon, .rule .expression]
        (.reduce .entry)), .sign .rbracket] (.reduce .map)).Ensures
      Yields rank Rule.collection.rank (.punct .lbracket :: ts) [.expr key]
      (IsExpr .collection) := by
  refine seq (sign (seq (rule (.inl (by simp)) ?_)))
  rintro us _ ⟨-, value, rfl, gives_value, -⟩
  refine seq (reduceEntry [] (by simp) rfl (seq (many
    (fun ts os => ∃ us entries, ts = .punct .lbracket :: us ∧
      os = entries.map (fun e => .entry e.1 e.2) ∧ Gives .entries us entries)
    ⟨_, [(key, value)], rfl, rfl, fun sound => ?_⟩ ?_ ?_)))
  · simp [Token.isSound] at sound
    simpa using Derives.oneEntry (gives sound.1) (gives_value sound.2)
  · rintro _ _ ⟨ts, entries, rfl, rfl, gives⟩
    refine seq (sign (seq (rule (.inl (by simp)) ?_)))
    rintro us _ ⟨-, key, rfl, gives_key, -⟩
    refine seq (sign (seq (rule (.inl (by simp)) ?_)))
    rintro vs _ ⟨-, value, rfl, gives_value, -⟩
    refine reduceEntry _ (by simp) (List.append_assoc ..)
      ⟨⟨ts ++ .punct .comma :: (us ++ .punct .colon :: vs), entries ++ [(key, value)],
        by simp, by simp, fun sound => ?_⟩, by simp⟩
    simp [Token.isSound] at sound
    exact .moreEntries (gives sound.1) (gives_key sound.2.1) (gives_value sound.2.2)
  · rintro _ _ ⟨ts, entries, rfl, rfl, gives⟩
    refine seq (sign (reduce (by simp) rfl (fun span => by simp [Reduction.build?, entries?]; rfl)
      fun span => .of_plain (by simp) rfl fun sound => ?_))
    simp [Token.isSound] at sound
    exact .map (gives sound)

/-- What follows the first item of a list. -/
theorem listTail {ts : List Token} {item : Expr} (some_token : ts ≠ [])
    (gives : Gives (.expr .expression) ts item) :
    (Phrase.chain [.many (.seq (.sign .comma) (.rule .expression)), .sign .rbracket]
      (.reduce .list)).Ensures Yields rank Rule.collection.rank (.punct .lbracket :: ts)
      [.expr item] (IsExpr .collection) := by
  have listed : Listed [.punct .lbracket] .expr (Derives .exprList) (.punct .lbracket :: ts)
      [.expr item] :=
    ⟨ts, [item], rfl, some_token, rfl, fun sound => .oneExpr (gives sound)⟩
  refine seq (commaTail expression_yields Derives.moreExprs listed ?_)
  rintro _ _ ⟨us, items, rfl, -, rfl, gives⟩
  refine seq (sign (reduce (by simp) rfl (fun span => by simp [Reduction.build?, exprs?]; rfl)
    fun span => .of_plain (by simp) rfl fun sound => ?_))
  simp [Token.isSound] at sound
  exact .list (gives sound)

theorem collection : Rule.collection.IsKept := by
  refine seq (sign (choice ?_ (branch (fun token accepts => ?_) (seq (rule (.inl (by simp)) ?_)))))
  · exact seq (sign (seq (sign (reduce (by simp) rfl (fun span => rfl) fun span =>
      .of_plain (by simp) rfl fun _ => .emptyMap))))
  · simp only [Terminal.Accepts] at accepts
    subst accepts
    exact reduce (by simp) rfl (fun span => rfl) fun span =>
      .of_plain (by simp) rfl fun _ => .emptyList
  · rintro ts _ ⟨some_token, e, rfl, gives, -⟩
    exact choice (rangeTail gives) (choice (mapTail gives) (listTail some_token gives))

end Rule.IsKept

/-- Every rule gives what it is to give. -/
theorem Rule.isKept (r : Rule) : r.IsKept := by
  cases r with
  | varDef => exact IsKept.varDef
  | funDef => exact IsKept.funDef
  | param => exact IsKept.param
  | params => exact IsKept.params
  | body => exact IsKept.body
  | type => exact IsKept.type
  | block => exact IsKept.block
  | statements => exact IsKept.statements
  | statement => exact IsKept.statement
  | expression => exact IsKept.expression
  | update => exact IsKept.update
  | boolean => exact IsKept.boolean
  | conjunction => exact IsKept.conjunction
  | negation => exact IsKept.negation
  | comparison => exact IsKept.comparison
  | sum => exact IsKept.sum
  | product => exact IsKept.product
  | power => exact IsKept.power
  | unary => exact IsKept.unary
  | suffixed => exact IsKept.suffixed
  | args => exact IsKept.args
  | atom => exact IsKept.atom
  | collection => exact IsKept.collection
  | conditional => exact IsKept.conditional
  | lambda => exact IsKept.lambda

/-- What the phrase of a rule takes is what the rule is to give. -/
theorem Rule.meets_of_takes (r : Rule) (y : Yield)
    (takes : r.phrase.Takes (Yield.Meets Yields) .empty y) : Yield.Meets Yields r y :=
  (r.isKept .empty rfl rfl).2 y takes

/-- The phrase of a rule is safe. -/
theorem Rule.safe_phrase (r : Rule) :
    r.phrase.Safe (Yield.Meets Yields) rank r.rank .empty :=
  (r.isKept .empty rfl rfl).1

end Formwork
