import Formwork.Proofs.Spans
import Formwork.Proofs.Tracked
import Formwork.Proofs.Written

/-!
# The numbers of a tree and the numbers of a text

`Node.numbers` lists the numbers that a node holds, in the order in which they are written. Reading
makes one number of each number token and of nothing else, and a reduction neither loses nor moves
any, so the numbers of the nodes that a rule leaves are the numbers among its pieces
(`Rule.counted_of_takes`).

`IsNumeral` says that a text is a well-formed literal. What is noted as malformed never is
(`Lasting.noted`): the literal at its start is the longest one, and the characters that spoil it
reach to where nothing spoils any more.
-/

namespace Formwork

/-! ## The numbers of a node -/

namespace Node

theorem sizeOf_lt_of_mem_partsOfExpr {e : Expr} {part : Node} (member : part ∈ partsOfExpr e) :
    sizeOf part < 1 + sizeOf e := by
  cases e with
  | number | bool | name => simp [partsOfExpr] at member
  | list =>
      obtain ⟨item, listed, rfl⟩ := List.mem_map.mp member
      have smaller := List.sizeOf_lt_of_mem listed
      simp; omega
  | map =>
      obtain ⟨⟨key, value⟩, listed, either⟩ := List.mem_flatMap.mp member
      have smaller := List.sizeOf_lt_of_mem listed
      simp at either smaller ⊢
      rcases either with rfl | rfl <;> simp <;> omega
  | call | apply | create =>
      rcases List.mem_cons.mp member with rfl | inner
      · simp; omega
      · obtain ⟨arg, listed, rfl⟩ := List.mem_map.mp inner
        have smaller := List.sizeOf_lt_of_mem listed
        simp; omega
  | method =>
      simp [partsOfExpr] at member
      rcases member with rfl | rfl | ⟨arg, listed, rfl⟩
      · simp; omega
      · simp; omega
      · have smaller := List.sizeOf_lt_of_mem listed
        simp; omega
  | range | conditional =>
      simp [partsOfExpr] at member
      rcases member with rfl | rfl | ⟨e, rfl, rfl⟩ <;> simp <;> omega
  | index | binary | update | unary | function =>
      simp [partsOfExpr] at member
      rcases member with rfl | rfl | rfl <;> simp <;> omega

theorem sizeOf_lt_of_mem_partsOfStmt {s : Stmt} {part : Node} (member : part ∈ partsOfStmt s) :
    sizeOf part < 1 + sizeOf s := by
  cases s <;> simp [partsOfStmt] at member <;>
    rcases member with rfl | rfl | rfl | rfl <;> simp <;> omega

theorem sizeOf_lt_of_mem_parts {node part : Node} (member : part ∈ node.parts) :
    sizeOf part < sizeOf node := by
  cases node with
  | program p =>
      obtain ⟨globals, functions, span⟩ := p
      rcases List.mem_append.mp member with early | late
      · obtain ⟨d, listed, rfl⟩ := List.mem_map.mp early
        have smaller := List.sizeOf_lt_of_mem listed
        simp at smaller ⊢; omega
      · obtain ⟨f, listed, rfl⟩ := List.mem_map.mp late
        have smaller := List.sizeOf_lt_of_mem listed
        simp at smaller ⊢; omega
  | varDef d =>
      obtain ⟨type, name, value, constant, span⟩ := d
      simp [parts] at member
      rcases member with rfl | rfl | rfl <;> simp <;> omega
  | function f =>
      obtain ⟨name, result, params, body, span⟩ := f
      simp [parts] at member
      rcases member with rfl | ⟨x, rfl, rfl⟩ | ⟨p, listed, rfl⟩ | rfl
      · simp; omega
      · simp; omega
      · have smaller := List.sizeOf_lt_of_mem listed
        simp; omega
      · simp; omega
  | param p =>
      obtain ⟨type, name, default, span⟩ := p
      simp [parts] at member
      rcases member with rfl | rfl | ⟨e, rfl, rfl⟩ <;> simp <;> omega
  | block b =>
      obtain ⟨stmts, span⟩ := b
      obtain ⟨s, listed, rfl⟩ := List.mem_map.mp member
      have smaller := List.sizeOf_lt_of_mem listed
      simp at smaller ⊢; omega
  | stmt s => simpa using sizeOf_lt_of_mem_partsOfStmt member
  | expr e => simpa using sizeOf_lt_of_mem_partsOfExpr member
  | name | type => simp [parts] at member

/-- The number that a node is, with its span. -/
def number? : Node → Option (Float × Span)
  | .expr (.number value span) => some (value, span)
  | _ => none

/-- The numbers that a node holds, in the order in which they are written. -/
def numbers (node : Node) : List (Float × Span) :=
  node.number?.toList ++ node.parts.attach.flatMap fun part => part.1.numbers
termination_by sizeOf node
decreasing_by exact sizeOf_lt_of_mem_parts part.2

/-- The numbers of a row of nodes. -/
def numbersOf (nodes : List Node) : List (Float × Span) := nodes.flatMap numbers

@[simp]
theorem numbersOf_nil : numbersOf [] = [] := rfl

@[simp]
theorem numbersOf_append (nodes others : List Node) :
    numbersOf (nodes ++ others) = numbersOf nodes ++ numbersOf others :=
  List.flatMap_append

@[simp]
theorem numbersOf_cons (node : Node) (nodes : List Node) :
    numbersOf (node :: nodes) = node.numbers ++ numbersOf nodes :=
  List.flatMap_cons

theorem numbers_eq (node : Node) :
    node.numbers = node.number?.toList ++ numbersOf node.parts := by
  rw [numbers, numbersOf]
  simp

/-- A node that is no number has the numbers of its parts. -/
theorem numbersOf_whole {node : Node} (other : node.number? = none) :
    numbersOf [node] = numbersOf node.parts := by
  simp [numbers_eq, other]

theorem number?_eq_some {node : Node} {value : Float} {span : Span} :
    node.number? = some (value, span) ↔ node = .expr (.number value span) := by
  constructor
  · intro found
    unfold number? at found
    split at found
    · obtain ⟨rfl, rfl⟩ := Prod.mk.inj (Option.some.inj found)
      rfl
    · exact absurd found (by simp)
  · rintro rfl
    rfl

/-- The numbers of a node are those that it holds. -/
theorem mem_numbers {node : Node} {value : Float} {span : Span} :
    (value, span) ∈ node.numbers ↔ node.Holds (.expr (.number value span)) := by
  induction node using numbers.induct with
  | case1 node ih =>
      rw [numbers_eq, List.mem_append, Option.mem_toList, number?_eq_some,
        numbersOf, List.mem_flatMap]
      constructor
      · rintro (rfl | ⟨part, member, listed⟩)
        · exact .refl
        · exact .head member ((ih ⟨part, member⟩).mp listed)
      · intro held
        rcases held.cases_head with here | ⟨part, member, inner⟩
        · exact Or.inl here
        · exact Or.inr ⟨part, member, (ih ⟨part, member⟩).mpr inner⟩

end Node

/-! ## Reductions keep numbers -/

/-- A reduction has the numbers of its operands. -/
theorem Reduction.numbers_build? {r : Reduction} {span : Span} {operands : List Operand}
    {operand : Operand} (built : r.build? span operands = some operand) :
    Node.numbersOf operand.nodes = Node.numbersOf (operands.flatMap Operand.nodes) := by
  unfold build? at built
  split at built
  -- Named and unnamed functions, whose parameters are read one by one.
  case h_5 =>
    obtain ⟨⟨params, body⟩, found, rfl⟩ := Option.map_eq_some_iff.mp built
    refine (Node.numbersOf_whole rfl).trans ?_
    simp [Operand.nodes, Node.parts, nodes_of_signature? found]
  case h_6 =>
    obtain ⟨⟨params, body⟩, found, rfl⟩ := Option.map_eq_some_iff.mp built
    refine (Node.numbersOf_whole rfl).trans ((Node.numbersOf_whole rfl).trans ?_)
    simp [Operand.nodes, Node.parts, nodes_of_signature? found]
  -- Nodes with any number of parts.
  case h_8 =>
    obtain ⟨stmts, found, rfl⟩ := Option.map_eq_some_iff.mp built
    rw [nodes_of_stmts? found]
    exact Node.numbersOf_whole rfl
  case h_18 | h_19 | h_20 | h_21 =>
    obtain ⟨args, found, rfl⟩ := Option.map_eq_some_iff.mp built
    refine (Node.numbersOf_whole rfl).trans ?_
    simp [Operand.nodes, Node.parts, Node.partsOfExpr, nodes_of_exprs? found]
  case h_29 =>
    obtain ⟨items, found, rfl⟩ := Option.map_eq_some_iff.mp built
    rw [nodes_of_exprs? found]
    exact Node.numbersOf_whole rfl
  case h_31 =>
    obtain ⟨entries, found, rfl⟩ := Option.map_eq_some_iff.mp built
    rw [nodes_of_entries? found]
    exact Node.numbersOf_whole rfl
  -- A body that is returned is a statement in a block, and an update takes an element apart.
  case h_7 =>
    obtain rfl := Option.some.inj built
    exact (Node.numbersOf_whole rfl).trans (Node.numbersOf_whole rfl)
  case h_17 ident =>
    obtain rfl := Option.some.inj built
    have leaf : Node.numbersOf [.name ident] = [] := Node.numbersOf_whole rfl
    exact (Node.numbersOf_whole rfl).trans leaf.symm
  case h_23 target key place value =>
    obtain rfl := Option.some.inj built
    have element : Node.numbersOf [.expr (.index target key place)] =
        Node.numbersOf [.expr target, .expr key] := Node.numbersOf_whole rfl
    refine (Node.numbersOf_whole rfl).trans ?_
    simp [Operand.nodes, Node.parts, Node.partsOfExpr] at element ⊢
    simp [element]
  case h_30 =>
    obtain rfl := Option.some.inj built
    rfl
  case h_34 => exact absurd built (by simp)
  all_goals
    obtain rfl := Option.some.inj built
    exact Node.numbersOf_whole rfl

/-! ## The numbers of pieces -/

/-- The number that a piece is read as, with its span; a malformed one counts as zero. -/
def Piece.numeral? (x : Piece) : Option (Float × Span) :=
  match x.token with
  | .number literal => some (literal.value, x.lexeme.span)
  | .malformed _ _ => some (0, x.lexeme.span)
  | _ => none

theorem Terminal.Accepts.numeral?_eq_none {t : Terminal} {piece : Piece}
    (accepts : t.Accepts piece.token) : piece.numeral? = none := by
  cases t with
  | keyword k => simp only [Terminal.Accepts] at accepts; simp [Piece.numeral?, accepts]
  | punct q => simp only [Terminal.Accepts] at accepts; simp [Piece.numeral?, accepts]
  | identifier =>
      obtain ⟨name, token_eq⟩ := accepts
      simp [Piece.numeral?, token_eq]

namespace Yield

/-- The nodes have the numbers of the pieces, in the same order. -/
def Counted (x : Yield) : Prop := Node.numbersOf x.nodes = x.pieces.filterMap Piece.numeral?

variable {x z : Yield}

theorem Counted.empty : Yield.empty.Counted := rfl

theorem Counted.append (counted : x.Counted) (counted' : z.Counted) : (x.append z).Counted := by
  unfold Counted at counted counted' ⊢
  rw [pieces_append, List.filterMap_append, ← counted, ← counted']
  simp [nodes]

/-- Most tokens are no numbers, and become leaves that are none. -/
theorem Counted.token {t : Terminal} {piece : Piece} (accepts : t.Accepts piece.token)
    (leaf : Leaf) : Counted ⟨[piece], (leaf.operand? piece.lexeme).toList⟩ := by
  have no_number : [piece].filterMap Piece.numeral? = [] := by simp [accepts.numeral?_eq_none]
  unfold Counted
  rw [no_number]
  cases leaf with
  | name | type | bool => exact Node.numbersOf_whole rfl
  | _ => rfl

theorem Counted.number {piece : Piece} {value : Float}
    (read_as : piece.numeral? = some (value, piece.lexeme.span)) :
    Counted ⟨[piece], [.expr (.number value piece.lexeme.span)]⟩ := by
  simp [Counted, nodes, Operand.nodes, read_as, Node.numbers_eq, Node.number?, Node.parts,
    Node.partsOfExpr]

theorem Counted.reduce {r : Reduction} {span : Span} {operand : Operand} (counted : x.Counted)
    (built : r.build? span (x.operands.drop (r.kept x.operands.length)) = some operand) :
    Counted ⟨x.pieces, x.operands.take (r.kept x.operands.length) ++ [operand]⟩ := by
  have same := Reduction.numbers_build? built
  unfold Counted nodes at counted ⊢
  rw [← counted, List.flatMap_append, List.flatMap_singleton, Node.numbersOf_append, same,
    ← Node.numbersOf_append, ← List.flatMap_append, List.take_append_drop]

end Yield

/-- Whatever a phrase takes, each number token is one number. -/
theorem Phrase.Takes.counted {phrase : Phrase} {x y : Yield}
    (takes : phrase.Takes (fun _ z => z.Counted) x y) (counted : x.Counted) : y.Counted := by
  induction phrase generalizing x y with
  | token t leaf =>
      obtain ⟨piece, accepts, rfl⟩ := takes
      exact counted.append (.token accepts leaf)
  | number =>
      obtain ⟨piece, ⟨literal, token_eq, rfl⟩ | ⟨literal, tail, token_eq, rfl⟩⟩ := takes
      · exact counted.append (.number (by simp [Piece.numeral?, token_eq]))
      · exact counted.append (.number (by simp [Piece.numeral?, token_eq]))
  | rule r =>
      obtain ⟨z, counted', rfl⟩ := takes
      exact counted.append counted'
  | seq first second ih_first ih_second =>
      obtain ⟨z, one, two⟩ := takes
      exact ih_second two (ih_first one counted)
  | choice first second ih_first ih_second =>
      rcases takes with one | two
      · exact ih_first one counted
      · exact ih_second two counted
  | branch t yes no ih_yes ih_no =>
      rcases takes with ⟨piece, accepts, one⟩ | two
      · exact ih_yes one (counted.append (.token accepts .nothing))
      · exact ih_no two counted
  | attempt phrase ih => exact ih takes counted
  | option phrase ih =>
      rcases takes with inner | rfl
      · exact ih inner counted
      · exact counted
  | many phrase ih =>
      induction takes with
      | refl => exact counted
      | tail _ last earlier => exact ih last earlier
  | nested phrase ih => exact ih takes counted
  | remembered memo phrase ih => exact ih takes counted
  | afterIndex phrase ih =>
      rcases takes with ⟨-, inner⟩ | rfl
      · exact ih inner counted
      · exact counted
  | reduce r =>
      obtain ⟨span, operand, -, built, rfl⟩ := takes
      exact counted.reduce built

/-- What the phrase of a rule takes is laid out as the rule says, and each number is counted. -/
theorem Rule.counted_of_takes (text : String) (r : Rule) (y : Yield)
    (takes : r.phrase.Takes (fun r z => Rule.Laid text r z ∧ z.Counted) .empty y) :
    Rule.Laid text r y ∧ y.Counted :=
  ⟨Rule.laid_of_takes text r y (takes.imp fun _ _ => And.left),
    (takes.imp fun _ _ => And.right).counted .empty⟩

/-! ## Texts of numbers -/

/-- A text is a well-formed literal. -/
def IsNumeral (text : List Char) : Prop :=
  ∃ literal : Literal, literal.WellFormed ∧ text = literal.chars

/-- A numeral is a literal that leaves nothing. -/
theorem isNumeral_iff {text : List Char} :
    ((Literal.read? text).any fun found => found.2.isEmpty) = true ↔ IsNumeral text := by
  rw [Option.any_eq_true]
  constructor
  · rintro ⟨⟨literal, rest⟩, found, nothing⟩
    obtain ⟨formed, text_eq⟩ := Literal.read?_spec found
    obtain rfl : rest = [] := List.isEmpty_iff.mp nothing
    exact ⟨literal, formed, by rw [text_eq, List.append_nil]⟩
  · rintro ⟨literal, formed, rfl⟩
    have unspoiled : literal.spoiledBy [] = false := rfl
    have found := formed.read? unspoiled
    rw [List.append_nil] at found
    exact ⟨_, found, rfl⟩

instance (text : List Char) : Decidable (IsNumeral text) := decidable_of_iff _ isNumeral_iff

namespace Literal

/-- What is left behind the characters that spoil a literal spoils none. -/
theorem spoiledBy_drop_spoiledTail (literal : Literal) (text : List Char) :
    literal.spoiledBy (text.drop (spoiledTail text).length) = false := by
  fun_induction spoiledTail text with
  | case1 => rfl
  | case2 c rest _ ih => simpa using ih
  | case3 c rest free =>
      simp only [Bool.or_eq_true, Bool.and_eq_true, not_or, not_and, Bool.not_eq_true,
        beq_iff_eq] at free
      obtain ⟨no_word, no_point⟩ := free
      simp only [List.length_nil, List.drop_zero]
      unfold spoiledBy
      split
      · rename_i rest' text_eq
        obtain ⟨rfl, rfl⟩ := List.cons.inj text_eq
        have second := no_point rfl
        cases rest with
        | nil => simp [nextIs] at second
        | cons d rest =>
            obtain rfl : d = '.' := by simpa [nextIs] using second
            simp [nextIs]
      · simpa [nextIs] using no_word

/-- A literal with the characters that spoil it is no numeral. -/
theorem not_isNumeral_of_spoiled {text rest : List Char} {literal : Literal}
    (found : read? text = some (literal, rest)) (spoiled : literal.spoiledBy rest = true) :
    ¬ IsNumeral (literal.chars ++ spoiledTail rest) := by
  rintro ⟨other, formed, chars_eq⟩
  have text_eq : text = other.chars ++ rest.drop (spoiledTail rest).length := by
    rw [(read?_spec found).2, ← chars_eq, List.append_assoc, ← spoiledTail_spec]
  have found' := formed.read? (spoiledBy_drop_spoiledTail other rest)
  rw [← text_eq, found] at found'
  obtain ⟨rfl, -⟩ := Prod.mk.inj (Option.some.inj found')
  exact spoiledTail_ne_nil spoiled (List.self_eq_append_right.mp chars_eq.symm)

end Literal

/-- The text of a malformed number is no numeral. -/
def Malformed.Genuine (m : Malformed) : Prop := ¬ IsNumeral m.text.toList

theorem Position.genuine_of_malformed {p : Position} {bad : Cursor} {lexeme : Lexeme}
    (found : p.number = .malformed bad lexeme) : (Malformed.mk bad lexeme.text).Genuine := by
  unfold Position.number at found
  split at found
  · exact absurd found (by simp)
  · rename_i literal rest read
    split at found
    · rename_i spoiled
      obtain ⟨rfl, rfl⟩ := NumberScan.malformed.inj found
      simpa [Malformed.Genuine, Lexeme.ofChars] using
        Literal.not_isNumeral_of_spoiled read spoiled
    · exact absurd found (by simp)

/-- Only malformed numbers are noted as such. -/
theorem Lasting.noted (start : Position) :
    Lasting start fun s t => (∀ m ∈ s.pending, m.Genuine) → ∀ m ∈ t.pending, m.Genuine where
  refl _ genuine := genuine
  trans first second genuine := second (first genuine)
  expect s label _ genuine := by rwa [State.pending_expect]
  rearrange _ _ _ _ genuine := genuine
  note s _ found genuine := by
    intro m member
    rcases List.mem_append.mp member with old | new
    · exact genuine m old
    · obtain rfl := List.mem_singleton.mp new
      exact Position.genuine_of_malformed found
  giveUp _ _ genuine m member := genuine m (List.mem_of_mem_take member)
  tooDeep _ _ genuine := genuine
  nested kept genuine := kept genuine

end Formwork
