import Formwork.Proofs.Bare
import Formwork.Proofs.Contract
import Formwork.Proofs.Nodes

/-!
# Rows of nodes

While a rule is read, the nodes among its operands stand in a row: one after another, each well
placed with all it holds, between the place where the rule started and the end of the last token.
Reading on makes the row longer, and a reduction puts one node with the same bounds in the place of
its parts (`Reduction.row_build?`). So whatever a rule takes is a row (`Rule.laid_of_takes`).
-/

namespace Formwork

/-! ## Rows -/

/-- Nodes stand one after another from `first` on, before `stop`, and all is well placed. -/
structure Node.Row (text : List Char) (first stop : ℕ ×ₗ ℕ) (nodes : List Node) : Prop where
  inside : ∀ node ∈ nodes, first ≤ node.span.first ∧ node.span.last < stop
  apart : nodes.Pairwise fun a b => a.span.last < b.span.first
  placed : ∀ node ∈ nodes, node.Placed text

/-- A span starts at `first`, and its last place is the one right before `stop`. -/
structure Span.Bounds (span : Span) (first stop : ℕ ×ₗ ℕ) : Prop where
  first_eq : span.first = first
  le_last_iff : ∀ a, a ≤ span.last ↔ a < stop
  nonempty : first < stop

namespace Node.Row

variable {text : List Char} {first stop middle middle' : ℕ ×ₗ ℕ} {nodes others : List Node}
  {node part : Node} {span : Span}

theorem nil : Row text first stop [] where
  inside _ member := absurd member List.not_mem_nil
  apart := .nil
  placed _ member := absurd member List.not_mem_nil

theorem singleton (placed : node.Placed text) (started : first ≤ node.span.first)
    (ended : node.span.last < stop) : Row text first stop [node] where
  inside other member := by
    obtain rfl := List.mem_singleton.mp member
    exact ⟨started, ended⟩
  apart := List.pairwise_singleton _ _
  placed other member := by
    obtain rfl := List.mem_singleton.mp member
    exact placed

theorem append (row : Row text first middle nodes) (row' : Row text middle' stop others)
    (forward : first ≤ middle') (between : middle ≤ middle') (onward : middle ≤ stop) :
    Row text first stop (nodes ++ others) where
  inside node member := by
    rcases List.mem_append.mp member with early | late
    · exact ⟨(row.inside node early).1, (row.inside node early).2.trans_le onward⟩
    · exact ⟨forward.trans (row'.inside node late).1, (row'.inside node late).2⟩
  apart := by
    refine List.pairwise_append.mpr ⟨row.apart, row'.apart, fun a early b late => ?_⟩
    exact (row.inside a early).2.trans_le (between.trans (row'.inside b late).1)
  placed node member := by
    rcases List.mem_append.mp member with early | late
    · exact row.placed node early
    · exact row'.placed node late

theorem mono (row : Row text first middle nodes) (onward : middle ≤ stop) :
    Row text first stop nodes :=
  ⟨fun node member => (row.inside node member).imp_right (·.trans_le onward), row.apart,
    row.placed⟩

/-- A well placed node is not empty, so none stands where there is no room. -/
theorem eq_nil (row : Row text first first nodes) : nodes = [] := by
  refine List.eq_nil_iff_forall_not_mem.mpr fun node member => ?_
  have ordered := (row.placed node member _ .refl).ordered
  have bounds := row.inside node member
  exact (bounds.1.trans ordered).not_gt bounds.2

/-- A node whose parts are a row within its own bounds takes the place of the row. -/
theorem whole (row : Row text first stop node.parts) (bounds : node.span.Bounds first stop)
    (plain : node.isLeaf = false) : Row text first stop [node] := by
  have last_lt : node.span.last < stop := (bounds.le_last_iff _).mp le_rfl
  refine singleton (placed_iff.mpr ⟨⟨?_, fun part member => ?_, row.apart, ?_⟩, row.placed⟩)
    bounds.first_eq.ge last_lt
  · rw [bounds.first_eq, bounds.le_last_iff]
    exact bounds.nonempty
  · rw [bounds.first_eq, bounds.le_last_iff]
    exact row.inside part member
  · simp [plain]

/-- A node with the span of its only part takes the place of that part. -/
theorem wrap (row : Row text first stop [part]) (parts_eq : node.parts = [part])
    (span_eq : node.span = part.span) (plain : node.isLeaf = false) :
    Row text first stop [node] := by
  have placed := row.placed part List.mem_cons_self
  have bounds := row.inside part List.mem_cons_self
  rw [← span_eq] at bounds
  refine singleton (placed_iff.mpr ⟨⟨?_, ?_, ?_, ?_⟩, ?_⟩) bounds.1 bounds.2
  · rw [span_eq]
    exact (placed _ .refl).ordered
  · intro other member
    rw [parts_eq] at member
    obtain rfl := List.mem_singleton.mp member
    exact ⟨span_eq ▸ le_rfl, span_eq ▸ le_rfl⟩
  · rw [parts_eq]
    exact List.pairwise_singleton _ _
  · simp [plain]
  · intro other member
    rw [parts_eq] at member
    obtain rfl := List.mem_singleton.mp member
    exact placed

/-- The parts of the first node may stand in its place. -/
theorem unwrap (row : Row text first stop (node :: nodes)) :
    Row text first stop (node.parts ++ nodes) := by
  obtain ⟨inside, apart, placed⟩ := row
  obtain ⟨before, apart'⟩ := List.pairwise_cons.mp apart
  obtain ⟨here, parts⟩ := placed_iff.mp (placed node List.mem_cons_self)
  have bounds := inside node List.mem_cons_self
  refine ⟨fun part member => ?_, List.pairwise_append.mpr ⟨here.apart, apart', ?_⟩, ?_⟩
  · rcases List.mem_append.mp member with inner | other
    · have within := here.inside part inner
      exact ⟨bounds.1.trans within.1, within.2.trans_lt bounds.2⟩
    · exact inside part (List.mem_cons_of_mem node other)
  · intro a inner b other
    exact (here.inside a inner).2.trans_lt (before b other)
  · intro part member
    rcases List.mem_append.mp member with inner | other
    · exact parts part inner
    · exact placed part (List.mem_cons_of_mem node other)

/-- Two expressions with an operator between them are one. -/
theorem binary {left right : Expr} (op : BinaryOp)
    (row : Row text first stop [.expr left, .expr right]) :
    Row text first stop [.expr (.binary left op right (left.span.merge right.span))] := by
  obtain ⟨inside, apart, placed⟩ := row
  have left_bounds := inside (.expr left) (by simp)
  have right_bounds := inside (.expr right) (by simp)
  have left_ordered : left.span.first ≤ left.span.last :=
    (placed (.expr left) (by simp) _ .refl).ordered
  have right_ordered : right.span.first ≤ right.span.last :=
    (placed (.expr right) (by simp) _ .refl).ordered
  have between : left.span.last < right.span.first :=
    (List.pairwise_cons.mp apart).1 (.expr right) (by simp)
  have forward := left_ordered.trans between.le
  have onward := between.le.trans right_ordered
  have first_eq := Span.first_merge forward
  have last_eq := Span.last_merge onward
  have span_eq : (Node.expr (.binary left op right (left.span.merge right.span))).span =
      left.span.merge right.span := rfl
  refine singleton (placed_iff.mpr ⟨⟨?_, ?_, apart, ?_⟩, placed⟩) ?_ ?_
  · rw [span_eq, first_eq, last_eq]
    exact left_ordered.trans onward
  · intro part member
    rw [span_eq, first_eq, last_eq]
    simp only [parts, partsOfExpr, List.mem_cons, List.not_mem_nil, or_false] at member
    rcases member with rfl | rfl
    · exact ⟨le_rfl, onward⟩
    · exact ⟨forward, le_rfl⟩
  · simp [isLeaf]
  · rw [span_eq, first_eq]
    exact left_bounds.1
  · rw [span_eq, last_eq]
    exact right_bounds.2

/-- A name that stands for its value stands where the name stands. -/
theorem nameExpr {ident : Ident} (row : Row text first stop [.name ident]) :
    Row text first stop [.expr (.name ident.name ident.span)] := by
  have bounds := row.inside (.name ident) List.mem_cons_self
  obtain ⟨⟨ordered, -, -, shown⟩, -⟩ := placed_iff.mp (row.placed _ List.mem_cons_self)
  refine singleton (placed_iff.mpr ⟨⟨ordered, ?_, .nil, shown⟩, ?_⟩) bounds.1 bounds.2
  · exact fun _ member => absurd member List.not_mem_nil
  · exact fun _ member => absurd member List.not_mem_nil

end Node.Row

/-! ## The nodes among operands -/

/-- The nodes of an operand. -/
def Operand.nodes : Operand → List Node
  | .name x => [.name x]
  | .type t => [.type t]
  | .expr e => [.expr e]
  | .entry key value => [.expr key, .expr value]
  | .param p => [.param p]
  | .stmt s => [.stmt s]
  | .block b => [.block b]
  | .varDef d => [.varDef d]
  | .function f => [.function f]
  | .operator _ | .constant | .bounds _ => []

namespace Reduction

theorem nodes_of_exprs? {operands : List Operand} {es : List Expr}
    (found : exprs? operands = some es) :
    operands.flatMap Operand.nodes = es.map .expr := by
  fun_induction exprs? operands generalizing es with
  | case1 =>
      obtain rfl := Option.some.inj found
      rfl
  | case2 e rest ih =>
      obtain ⟨others, found', rfl⟩ := Option.map_eq_some_iff.mp found
      simp [Operand.nodes, ih found']
  | case3 => exact absurd found (by simp)

theorem nodes_of_stmts? {operands : List Operand} {stmts : List Stmt}
    (found : stmts? operands = some stmts) :
    operands.flatMap Operand.nodes = stmts.map .stmt := by
  fun_induction stmts? operands generalizing stmts with
  | case1 =>
      obtain rfl := Option.some.inj found
      rfl
  | case2 s rest ih =>
      obtain ⟨others, found', rfl⟩ := Option.map_eq_some_iff.mp found
      simp [Operand.nodes, ih found']
  | case3 => exact absurd found (by simp)

theorem nodes_of_entries? {operands : List Operand} {entries : List (Expr × Expr)}
    (found : entries? operands = some entries) :
    operands.flatMap Operand.nodes =
      entries.flatMap fun (key, value) => [.expr key, .expr value] := by
  fun_induction entries? operands generalizing entries with
  | case1 =>
      obtain rfl := Option.some.inj found
      rfl
  | case2 key value rest ih =>
      obtain ⟨others, found', rfl⟩ := Option.map_eq_some_iff.mp found
      simp [Operand.nodes, ih found']
  | case3 => exact absurd found (by simp)

theorem nodes_of_signature? {operands : List Operand} {params : List Param} {body : Block}
    (found : signature? operands = some (params, body)) :
    operands.flatMap Operand.nodes = params.map .param ++ [.block body] := by
  fun_induction signature? operands generalizing params with
  | case1 b =>
      obtain ⟨rfl, rfl⟩ := Prod.mk.inj (Option.some.inj found)
      rfl
  | case2 p rest ih =>
      obtain ⟨⟨others, body'⟩, found', pair_eq⟩ := Option.map_eq_some_iff.mp found
      obtain ⟨rfl, rfl⟩ := Prod.mk.inj pair_eq
      simp [Operand.nodes, ih found']
  | case3 => exact absurd found (by simp)

variable {text : List Char} {first stop : ℕ ×ₗ ℕ} {span : Span} {operands : List Operand}
  {operand : Operand}

/-- An entry has the nodes of its operands. -/
theorem nodes_of_entry (built : Reduction.entry.build? span operands = some operand) :
    operand.nodes = operands.flatMap Operand.nodes := by
  unfold build? at built
  split at built <;> try contradiction
  obtain rfl := Option.some.inj built
  rfl

/-- A reduction puts a node within the same bounds in the place of its parts. -/
theorem row_build? {r : Reduction} (bounds : span.Bounds first stop)
    (row : Node.Row text first stop (operands.flatMap Operand.nodes))
    (built : r.build? span operands = some operand) :
    Node.Row text first stop operand.nodes := by
  unfold build? at built
  split at built
  -- Named and unnamed functions, whose parameters are read one by one.
  case h_5 result x rest =>
    obtain ⟨⟨params, body⟩, found, rfl⟩ := Option.map_eq_some_iff.mp built
    refine Node.Row.whole ?_ bounds rfl
    simpa [Operand.nodes, Node.parts, nodes_of_signature? found] using row
  case h_6 result rest =>
    obtain ⟨⟨params, body⟩, found, rfl⟩ := Option.map_eq_some_iff.mp built
    have inner : Node.Row text first stop [.function ⟨none, result, params, body, span⟩] := by
      refine Node.Row.whole ?_ bounds rfl
      simpa [Operand.nodes, Node.parts, nodes_of_signature? found] using row
    exact inner.wrap rfl rfl rfl
  -- Nodes that take over the span of their only part.
  case h_7 value =>
    obtain rfl := Option.some.inj built
    have inner : Node.Row text first stop [.stmt (.return_ value value.span)] :=
      row.wrap rfl rfl rfl
    exact inner.wrap rfl rfl rfl
  case h_10 | h_11 | h_13 =>
    obtain rfl := Option.some.inj built
    exact row.wrap rfl rfl rfl
  case h_17 =>
    obtain rfl := Option.some.inj built
    exact row.nameExpr
  -- Nodes with any number of parts.
  case h_8 =>
    obtain ⟨stmts, found, rfl⟩ := Option.map_eq_some_iff.mp built
    rw [nodes_of_stmts? found] at row
    exact row.whole bounds rfl
  case h_18 | h_19 | h_20 | h_21 =>
    obtain ⟨args, found, rfl⟩ := Option.map_eq_some_iff.mp built
    refine Node.Row.whole ?_ bounds rfl
    simpa [Operand.nodes, Node.parts, Node.partsOfExpr, nodes_of_exprs? found] using row
  case h_29 =>
    obtain ⟨items, found, rfl⟩ := Option.map_eq_some_iff.mp built
    rw [nodes_of_exprs? found] at row
    exact row.whole bounds rfl
  case h_31 =>
    obtain ⟨entries, found, rfl⟩ := Option.map_eq_some_iff.mp built
    rw [nodes_of_entries? found] at row
    exact row.whole bounds rfl
  -- An update takes the parts of the element over, an entry is no node.
  case h_23 =>
    obtain rfl := Option.some.inj built
    exact row.unwrap.whole bounds rfl
  case h_24 op right =>
    obtain rfl := Option.some.inj built
    exact row.binary _
  case h_30 =>
    obtain rfl := Option.some.inj built
    exact row
  case h_34 => exact absurd built (by simp)
  all_goals
    obtain rfl := Option.some.inj built
    exact row.whole bounds rfl

end Reduction

/-! ## What was read from a position on -/

/-- The last token ends behind the place where the first one starts, inside a line. -/
theorem Spelled.last_spec {p q : Position} {xs : List Piece} (spelled : Spelled p xs q)
    (positive : 0 < p.cursor.col) {last : Piece} (is_last : xs.getLast? = some last) :
    p.cursor.offset < last.lexeme.stop.offset ∧ p.cursor.lineCol < last.lexeme.stop.lineCol ∧
      2 ≤ last.lexeme.stop.col ∧ last.lexeme.stop.lineCol ≤ q.cursor.lineCol := by
  induction xs generalizing p with
  | nil => exact absurd is_last (by simp)
  | cons x xs ih =>
      obtain ⟨here, others⟩ := spelled
      cases xs with
      | nil =>
          obtain rfl : x = last := by simpa using is_last
          obtain rfl := others
          exact here.stop_spec positive
      | cons y ys =>
          rw [List.getLast?_cons_cons] at is_last
          obtain ⟨between, -, cursor_eq⟩ := here.leadsTo
          have positive' : 0 < x.lexeme.next.cursor.col :=
            cursor_eq ▸ Cursor.col_pos_advance positive between
          obtain ⟨offset_lt, place_lt, inside, onward⟩ := ih others positive' is_last
          have first_offset := Cursor.offset_le_advance p.cursor between
          have first_place := here.leadsTo.lineCol_le
          rw [← cursor_eq] at first_offset
          exact ⟨first_offset.trans_lt offset_lt, first_place.trans_lt place_lt, inside, onward⟩

namespace Yield

/-- The nodes among the operands. -/
def nodes (x : Yield) : List Node := x.operands.flatMap Operand.nodes

/-- The nodes of what was read from `p` on stand in a row up to the end of the last token. -/
def IsRow (text : String) (p : Position) (x : Yield) : Prop :=
  Node.Row text.toList p.cursor.lineCol (x.stop p.cursor).lineCol x.nodes

variable {text : String} {p q m : Position} {x z : Yield}

theorem stop_append (x z : Yield) (before : Cursor) :
    (x.append z).stop before = z.stop (x.stop before) := by
  simp only [stop, pieces_append, List.getLast?_append]
  cases z.pieces.getLast? with
  | none => rfl
  | some last => rfl

theorem stop_le (spelled : Spelled p x.pieces q) (positive : 0 < p.cursor.col) :
    (x.stop p.cursor).lineCol ≤ q.cursor.lineCol := by
  unfold stop
  split
  · rename_i last is_last
    exact (spelled.last_spec positive is_last).2.2.2
  · exact spelled.leadsTo.lineCol_le

/-- From the start to the end of the last token is the span of what was read. -/
theorem bounds_span (spelled : Spelled p x.pieces q) (positive : 0 < p.cursor.col)
    (some_piece : x.pieces ≠ []) :
    x.span.Bounds p.cursor.lineCol (x.stop p.cursor).lineCol := by
  obtain ⟨first, others, pieces_eq⟩ := List.exists_cons_of_ne_nil some_piece
  obtain ⟨last, is_last⟩ : ∃ last, x.pieces.getLast? = some last :=
    Option.isSome_iff_exists.mp (by simp [some_piece])
  obtain ⟨offset_lt, place_lt, inside, -⟩ := spelled.last_spec positive is_last
  have start_eq : first.lexeme.start = p.cursor := by
    rw [pieces_eq] at spelled
    exact spelled.1.start_eq
  have stop_eq : x.stop p.cursor = last.lexeme.stop := by rw [stop, is_last]
  have span_eq : x.span = p.cursor.spanTo last.lexeme.stop := by
    rw [span, is_last, pieces_eq, ← start_eq]
    rfl
  rw [span_eq, stop_eq]
  exact ⟨Cursor.first_spanTo, fun a => Cursor.le_last_spanTo_iff offset_lt inside, place_lt⟩

theorem IsRow.empty : Yield.empty.IsRow text p := Node.Row.nil

/-- What is read later stands behind what was read before. -/
theorem IsRow.append (positive : 0 < p.cursor.col) (first : Spelled p x.pieces m)
    (second : Spelled m z.pieces q) (row : x.IsRow text p) (row' : z.IsRow text m) :
    (x.append z).IsRow text p := by
  unfold IsRow
  have nodes_eq : (x.append z).nodes = x.nodes ++ z.nodes := List.flatMap_append
  have between := stop_le first positive
  rw [stop_append, nodes_eq]
  cases is_last : z.pieces.getLast? with
  | none =>
      have here (before : Cursor) : z.stop before = before := by rw [stop, is_last]
      unfold IsRow at row'
      rw [here] at row' ⊢
      rw [row'.eq_nil, List.append_nil]
      exact row
  | some last =>
      have there (before : Cursor) : z.stop before = last.lexeme.stop := by rw [stop, is_last]
      obtain ⟨space, -, cursor_eq⟩ := first.leadsTo
      have positive' : 0 < m.cursor.col := cursor_eq ▸ Cursor.col_pos_advance positive space
      have later := (second.last_spec positive' is_last).2.1
      unfold IsRow at row'
      rw [there] at row' ⊢
      exact Node.Row.append row row' first.leadsTo.lineCol_le between (between.trans later.le)

/-- A reduction leaves a row within the same bounds. -/
theorem IsRow.reduce {r : Reduction} {operand : Operand} (positive : 0 < p.cursor.col)
    (spelled : Spelled p x.pieces q) (some_piece : x.pieces ≠ []) (row : x.IsRow text p)
    (built : r.build? x.span (x.operands.drop (r.kept x.operands.length)) = some operand) :
    IsRow text p ⟨x.pieces, x.operands.take (r.kept x.operands.length) ++ [operand]⟩ := by
  have bounds := bounds_span spelled positive some_piece
  unfold IsRow nodes at row ⊢
  cases arity : r.arity? with
  | none =>
      simp only [Reduction.kept, arity, List.drop_zero] at built
      simp only [Reduction.kept, arity, List.take_zero, List.nil_append, List.flatMap_cons,
        List.flatMap_nil, List.append_nil]
      exact r.row_build? bounds row built
  | some count =>
      -- The only reduction that leaves operands alone makes an entry, which has the same nodes.
      obtain rfl : r = .entry := by cases r <;> simp [Reduction.arity?] at arity ⊢
      have same := Reduction.nodes_of_entry built
      rw [List.flatMap_append, List.flatMap_singleton, same, ← List.flatMap_append,
        List.take_append_drop]
      exact row

end Yield

/-! ## Leaves -/

/-- Whether a token may become a leaf, so that the leaf says what the token says. -/
def Leaf.suits : Leaf → Terminal → Bool
  | .name, t => t = .identifier
  | .type, t => t = .identifier || t = .keyword .fun_
  | .bool value, t => t = .keyword (if value then .true_ else .false_)
  | _, _ => true

/-- Whether every token of a phrase suits its leaf. -/
def Phrase.suited : Phrase → Bool
  | .token t leaf => leaf.suits t
  | .number | .rule _ | .reduce _ => true
  | .seq first second | .choice first second => first.suited && second.suited
  | .branch _ yes no => yes.suited && no.suited
  | .attempt phrase | .option phrase | .many phrase | .nested phrase | .remembered _ phrase
  | .afterIndex phrase => phrase.suited

theorem Phrase.suited_phrase (r : Rule) : r.phrase.suited = true := by
  cases r <;> rfl

namespace Yield

variable {text : String} {p : Position} {piece : Piece}

/-- A leaf with the span of its token is a row of its own. -/
theorem IsRow.leaf (node : Node) (here : piece.At p) (ahead : (Position.ofText text).LeadsTo p)
    {operand : Operand} (nodes_eq : operand.nodes = [node])
    (parts_eq : node.parts = []) (span_eq : node.span = piece.lexeme.span)
    (reads : node.ReadFrom piece.token) : IsRow text p ⟨[piece], [operand]⟩ := by
  have positive := ahead.col_pos
  have first_eq := here.first_span
  have last_iff (a : ℕ ×ₗ ℕ) := here.le_last_span_iff positive (a := a)
  unfold IsRow
  simp only [nodes, List.flatMap_cons, List.flatMap_nil, List.append_nil, nodes_eq]
  have ordered : node.span.first ≤ node.span.last := by
    rw [span_eq, first_eq, last_iff]
    exact (here.stop_spec positive).2.1
  have well : node.WellPlaced text.toList :=
    ⟨ordered, by simp [parts_eq], by simp [parts_eq],
      fun _ => ⟨piece.token, reads, span_eq ▸ here.shows ahead⟩⟩
  refine .singleton (Node.placed_iff.mpr ⟨well, by simp [parts_eq]⟩) ?_ ?_
  · rw [span_eq, first_eq]
  · rw [span_eq]
    exact (last_iff _).mp le_rfl

theorem IsRow.none (operands : List Operand)
    (no_nodes : operands.flatMap Operand.nodes = []) : IsRow text p ⟨[piece], operands⟩ := by
  unfold IsRow nodes
  rw [no_nodes]
  exact Node.Row.nil

/-- A token is a row of its own, whatever leaf it becomes. -/
theorem IsRow.token {t : Terminal} {leaf : Leaf} (suits : leaf.suits t = true)
    (accepts : t.Accepts piece.token) (here : piece.At p)
    (ahead : (Position.ofText text).LeadsTo p) :
    IsRow text p ⟨[piece], (leaf.operand? piece.lexeme).toList⟩ := by
  cases leaf with
  | nothing | operator op | constant | bounds inclusive => exact IsRow.none _ rfl
  | name =>
      obtain rfl : t = .identifier := by simpa [Leaf.suits] using suits
      obtain ⟨name, token_eq⟩ := accepts
      refine IsRow.leaf (.name ⟨piece.lexeme.text, piece.lexeme.span⟩) here ahead rfl rfl rfl ?_
      rw [Node.ReadFrom, token_eq, Piece.text_of_identifier token_eq]
  | type =>
      have either : t = .identifier ∨ t = .keyword .fun_ := by simpa [Leaf.suits] using suits
      refine IsRow.leaf (.type ⟨piece.lexeme.text, piece.lexeme.span⟩) here ahead rfl rfl rfl ?_
      rcases either with rfl | rfl
      · obtain ⟨name, token_eq⟩ := accepts
        exact Or.inl (by rw [token_eq, Piece.text_of_identifier token_eq])
      · exact Or.inr ⟨accepts, by rw [piece.text_eq, accepts]; rfl⟩
  | bool value =>
      obtain rfl : t = .keyword (if value then .true_ else .false_) := by
        simpa [Leaf.suits] using suits
      exact IsRow.leaf (.expr (.bool value piece.lexeme.span)) here ahead rfl rfl rfl accepts

/-- A number is a row of its own. -/
theorem IsRow.number {value : Float} (here : piece.At p)
    (ahead : (Position.ofText text).LeadsTo p)
    (reads : (Node.expr (.number value piece.lexeme.span)).ReadFrom piece.token) :
    IsRow text p ⟨[piece], [.expr (.number value piece.lexeme.span)]⟩ :=
  IsRow.leaf _ here ahead rfl rfl rfl reads

end Yield

/-! ## What rules take -/

/-- What a phrase takes it also takes where rules are described more loosely. -/
theorem Phrase.Takes.imp {spec spec' : Rule → Yield → Prop} (weaker : ∀ r z, spec r z → spec' r z)
    {phrase : Phrase} {x y : Yield} (takes : phrase.Takes spec x y) : phrase.Takes spec' x y := by
  induction phrase generalizing x y with
  | token t leaf => exact takes
  | number => exact takes
  | rule r =>
      obtain ⟨z, described, rfl⟩ := takes
      exact ⟨z, weaker r z described, rfl⟩
  | seq first second ih_first ih_second =>
      obtain ⟨z, one, two⟩ := takes
      exact ⟨z, ih_first one, ih_second two⟩
  | choice first second ih_first ih_second => exact Or.imp ih_first ih_second takes
  | branch t yes no ih_yes ih_no =>
      rcases takes with ⟨piece, accepts, one⟩ | two
      · exact Or.inl ⟨piece, accepts, ih_yes one⟩
      · exact Or.inr (ih_no two)
  | attempt phrase ih => exact ih takes
  | option phrase ih => exact Or.imp_left ih takes
  | many phrase ih => exact Relation.ReflTransGen.mono (fun _ _ => ih) x y takes
  | nested phrase ih => exact ih takes
  | remembered memo phrase ih => exact ih takes
  | afterIndex phrase ih => exact Or.imp_left (And.imp_right ih) takes
  | reduce r => exact takes

theorem Spelled.of_prefix {p q : Position} {xs ys : List Piece} (spelled : Spelled p ys q)
    (ahead : xs <+: ys) : ∃ m, Spelled p xs m := by
  obtain ⟨more, rfl⟩ := ahead
  obtain ⟨m, first, -⟩ := spelled.split
  exact ⟨m, first⟩

/-- What a rule yields, as a row wherever it stands in a text. -/
def Rule.Laid (text : String) (r : Rule) (z : Yield) : Prop :=
  Yield.Meets Rule.Yields r z ∧
    ∀ p q, (Position.ofText text).LeadsTo p → Spelled p z.pieces q → z.IsRow text p

section Takes

variable {text : String} {p q : Position} {bound : Nat} {x y : Yield}

theorem Yield.IsRow.read {piece : Piece} {operands : List Operand}
    (ahead : (Position.ofText text).LeadsTo p) (row : x.IsRow text p)
    (spelled : Spelled p (x.read piece operands).pieces q)
    (row' : ∀ m, piece.At m → (Position.ofText text).LeadsTo m →
      IsRow text m ⟨[piece], operands⟩) :
    (x.read piece operands).IsRow text p := by
  obtain ⟨m, first, second⟩ := Spelled.split spelled
  exact row.append ahead.col_pos first second (row' m second.1 (ahead.trans first.leadsTo))

/-- Whatever a phrase takes makes a row longer, or puts nodes in the place of their parts. -/
theorem Phrase.Takes.isRow {phrase : Phrase} (ahead : (Position.ofText text).LeadsTo p)
    (suited : phrase.suited = true)
    (safe : phrase.Safe (Yield.Meets Rule.Yields) Rule.rank bound x)
    (takes : phrase.Takes (Rule.Laid text) x y) (spelled : Spelled p y.pieces q)
    (row : x.IsRow text p) : y.IsRow text p := by
  have looser : ∀ r z, Rule.Laid text r z → Yield.Meets Rule.Yields r z := fun _ _ => And.left
  induction phrase generalizing x y q with
  | token t leaf =>
      obtain ⟨piece, accepts, rfl⟩ := takes
      exact row.read ahead spelled fun m here ahead' => .token suited accepts here ahead'
  | number =>
      obtain ⟨piece, ⟨literal, token_eq, rfl⟩ | ⟨literal, tail, token_eq, rfl⟩⟩ := takes
      · exact row.read ahead spelled fun m here ahead' =>
          .number here ahead' (Or.inl ⟨literal, token_eq, rfl⟩)
      · exact row.read ahead spelled fun m here ahead' =>
          .number here ahead' (Or.inr ⟨literal, tail, token_eq, rfl⟩)
  | rule r =>
      obtain ⟨z, ⟨-, laid⟩, rfl⟩ := takes
      obtain ⟨m, first, second⟩ := Spelled.split spelled
      exact row.append ahead.col_pos first second (laid m q (ahead.trans first.leadsTo) second)
  | seq first second ih_first ih_second =>
      obtain ⟨suited_first, suited_second⟩ := Bool.and_eq_true_iff.mp suited
      obtain ⟨z, one, two⟩ := takes
      obtain ⟨m, spelled_first⟩ := spelled.of_prefix two.pieces
      exact ih_second suited_second (safe.2 z (one.imp looser)) two spelled
        (ih_first suited_first safe.1 one spelled_first row)
  | choice first second ih_first ih_second =>
      obtain ⟨suited_first, suited_second⟩ := Bool.and_eq_true_iff.mp suited
      rcases takes with one | two
      · exact ih_first suited_first safe.1 one spelled row
      · exact ih_second suited_second safe.2 two spelled row
  | branch t yes no ih_yes ih_no =>
      obtain ⟨suited_yes, suited_no⟩ := Bool.and_eq_true_iff.mp suited
      rcases takes with ⟨piece, accepts, one⟩ | two
      · obtain ⟨m, spelled_first⟩ := spelled.of_prefix one.pieces
        refine ih_yes suited_yes (safe.1 piece accepts) one spelled ?_
        exact row.read ahead spelled_first fun m here ahead' => .none [] rfl
      · exact ih_no suited_no safe.2 two spelled row
  | attempt phrase ih => exact ih suited safe takes spelled row
  | option phrase ih =>
      rcases takes with inner | rfl
      · exact ih suited safe inner spelled row
      · exact row
  | many phrase ih =>
      induction takes generalizing q with
      | refl => exact row
      | tail earlier last ih_rounds =>
          obtain ⟨m, spelled_before⟩ := spelled.of_prefix last.pieces
          have rounds := Relation.ReflTransGen.mono (fun _ _ => Takes.imp looser) _ _ earlier
          have safe_last := (safe _ rounds).1
          exact ih suited safe_last last spelled (ih_rounds spelled_before)
  | nested phrase ih => exact ih suited safe takes spelled row
  | remembered memo phrase ih => exact ih suited safe takes spelled row
  | afterIndex phrase ih =>
      rcases takes with ⟨ends, inner⟩ | rfl
      · exact ih suited (safe ends) inner spelled row
      · exact row
  | reduce r =>
      obtain ⟨span, operand, span_eq, built, rfl⟩ := takes
      obtain rfl := span_eq safe.1
      exact row.reduce ahead.col_pos spelled safe.1 built

end Takes

/-- What the phrase of a rule takes is what the rule yields, as a row. -/
theorem Rule.laid_of_takes (text : String) (r : Rule) (y : Yield)
    (takes : r.phrase.Takes (Rule.Laid text) .empty y) : Rule.Laid text r y := by
  refine ⟨r.meets_of_takes y (takes.imp fun _ _ => And.left), fun p q ahead spelled => ?_⟩
  exact takes.isRow ahead (Phrase.suited_phrase r) r.safe_phrase spelled .empty

end Formwork
