import Mathlib.Logic.Relation
import Formwork.Proofs.Piece
import Formwork.Proofs.Places
import Formwork.Tree.Basic

/-!
# Nodes and the text they stand for

`Node` is any part of a syntax tree, with its span and its parts. `Node.WellPlaced` says that a node
stands where its span says: the span is not empty, the parts lie inside it one after another, and a
leaf covers exactly the token it was read from. `Piece.At.covers` is the last of these for a single
token: the characters between the first and the last place of a lexeme are the lexeme.
-/

namespace Formwork

/-! ## Spans as places -/

namespace Span

/-- Line and column of the first character. -/
def first (s : Span) : ℕ ×ₗ ℕ := toLex (s.startLine, s.startCol)

/-- Line and column of the last character. -/
def last (s : Span) : ℕ ×ₗ ℕ := toLex (s.endLine, s.endCol)

/-- Whether the character at a place belongs to a span. -/
def holds (s : Span) (place : Cursor) : Bool :=
  placeLe s.startLine s.startCol place.line place.col &&
    placeLe place.line place.col s.endLine s.endCol

/-- The characters of a text that belong to a span, where the text starts at a place. -/
def coveredFrom (s : Span) : Cursor → List Char → List Char
  | _, [] => []
  | place, c :: text =>
    if s.holds place then c :: s.coveredFrom (place.step c) text
    else s.coveredFrom (place.step c) text

/-- The characters of a whole text that belong to a span. -/
def covered (s : Span) (text : List Char) : List Char := s.coveredFrom .start text

theorem holds_iff {s : Span} {place : Cursor} :
    s.holds place = true ↔ s.first ≤ place.lineCol ∧ place.lineCol ≤ s.last := by
  simp [holds, placeLe, first, last, Cursor.lineCol, Prod.Lex.toLex_le_toLex]

theorem first_merge {a b : Span} (ordered : a.first ≤ b.first) : (a.merge b).first = a.first := by
  have before : placeLe a.startLine a.startCol b.startLine b.startCol = true := by
    simpa [placeLe, first, Prod.Lex.toLex_le_toLex] using ordered
  simp [merge, first, before]

theorem last_merge {a b : Span} (ordered : a.last ≤ b.last) : (a.merge b).last = b.last := by
  have before : placeLe a.endLine a.endCol b.endLine b.endCol = true := by
    simpa [placeLe, last, Prod.Lex.toLex_le_toLex] using ordered
  simp [merge, last, before]

theorem coveredFrom_append (s : Span) (place : Cursor) (xs ys : List Char) :
    s.coveredFrom place (xs ++ ys) =
      s.coveredFrom place xs ++ s.coveredFrom (place.advance xs) ys := by
  induction xs generalizing place with
  | nil => rfl
  | cons c xs ih =>
      simp only [List.cons_append, coveredFrom, Cursor.advance_cons, ih]
      split <;> rfl

theorem coveredFrom_before {s : Span} {place : Cursor} {text : List Char}
    (before : (place.advance text).lineCol ≤ s.first) : s.coveredFrom place text = [] := by
  induction text generalizing place with
  | nil => rfl
  | cons c text ih =>
      have early : place.lineCol < s.first :=
        (Cursor.lineCol_lt_advance place (List.cons_ne_nil c text)).trans_le before
      have outside : ¬ s.holds place = true := fun inside =>
        early.not_ge (holds_iff.mp inside).1
      simp only [coveredFrom, outside]
      exact ih before

theorem coveredFrom_behind {s : Span} {place : Cursor} {text : List Char}
    (behind : s.last < place.lineCol) : s.coveredFrom place text = [] := by
  induction text generalizing place with
  | nil => rfl
  | cons c text ih =>
      have outside : ¬ s.holds place = true := fun inside =>
        behind.not_ge (holds_iff.mp inside).2
      simp only [coveredFrom, outside]
      exact ih (behind.trans (Cursor.lineCol_lt_step place c))

theorem coveredFrom_inside {s : Span} {place : Cursor} {text : List Char}
    (started : s.first ≤ place.lineCol)
    (open_ : ∀ a, a < (place.advance text).lineCol → a ≤ s.last) :
    s.coveredFrom place text = text := by
  induction text generalizing place with
  | nil => rfl
  | cons c text ih =>
      have early := Cursor.lineCol_lt_advance place (List.cons_ne_nil c text)
      have inside : s.holds place = true := holds_iff.mpr ⟨started, open_ _ early⟩
      simp only [coveredFrom, inside, if_true]
      rw [ih (started.trans (Cursor.lineCol_lt_step place c).le) open_]

end Span

/-! ## Spans between two cursors -/

namespace Cursor

variable {p q : Cursor}

theorem first_spanTo : (p.spanTo q).first = p.lineCol := by
  unfold spanTo
  split <;> rfl

/-- The last place of a span that ends inside a line is the one right before its end. -/
theorem le_last_spanTo_iff (nonempty : p.offset < q.offset) (inside : 2 ≤ q.col)
    {a : ℕ ×ₗ ℕ} : a ≤ (p.spanTo q).last ↔ a < q.lineCol := by
  obtain ⟨line, col⟩ := a
  have forward : ¬ q.offset ≤ p.offset := by omega
  simp only [spanTo, forward, if_false, Span.last, lineCol]
  change toLex (line, col) ≤ _ ↔ toLex (line, col) < _
  rw [Prod.Lex.toLex_le_toLex, Prod.Lex.toLex_lt_toLex]
  simp only
  omega

theorem le_last_spanTo (forward : p.offset < q.offset) {a : ℕ ×ₗ ℕ} (before : a < q.lineCol) :
    a ≤ (p.spanTo q).last := by
  obtain ⟨line, col⟩ := a
  have forward : ¬ q.offset ≤ p.offset := by omega
  change toLex (line, col) < _ at before
  simp only [spanTo, forward, if_false, Span.last, lineCol, Prod.Lex.toLex_lt_toLex] at before ⊢
  change toLex (line, col) ≤ _
  rw [Prod.Lex.toLex_le_toLex]
  simp only
  omega

/-- Without a newline the line stays and each character is a column. -/
theorem advance_of_no_newline {text : List Char} (one_line : '\n' ∉ text) :
    (p.advance text).line = p.line ∧ (p.advance text).col = p.col + text.length := by
  induction text generalizing p with
  | nil => exact ⟨rfl, rfl⟩
  | cons c text ih =>
      rw [List.mem_cons, not_or] at one_line
      obtain ⟨other, one_line'⟩ := one_line
      have step_eq : p.step c = ⟨p.offset + c.utf8Size, p.line, p.col + 1⟩ := by
        simp [step, Ne.symm other]
      obtain ⟨line_eq, col_eq⟩ := ih (p := p.step c) one_line'
      rw [advance_cons, line_eq, col_eq, step_eq, List.length_cons]
      exact ⟨rfl, by simp only; omega⟩

theorem col_pos_advance (positive : 0 < p.col) (text : List Char) : 0 < (p.advance text).col := by
  induction text generalizing p with
  | nil => exact positive
  | cons c text ih =>
      refine ih ?_
      unfold step
      split
      · exact Nat.one_pos
      · exact Nat.succ_pos _

end Cursor

theorem Position.LeadsTo.col_pos {text : String} {p : Position}
    (ahead : (Position.ofText text).LeadsTo p) : 0 < p.cursor.col := by
  obtain ⟨between, -, cursor_eq⟩ := ahead
  rw [cursor_eq]
  exact Cursor.col_pos_advance Nat.one_pos between

/-! ## What a token covers -/

theorem newline_not_mem_word {word : List Char} (letters : ∀ c ∈ word, isWordChar c = true) :
    '\n' ∉ word := by
  intro member
  exact absurd (letters _ member) (by decide)

theorem Literal.newline_not_mem {literal : Literal} (formed : literal.WellFormed) :
    '\n' ∉ literal.chars := by
  have no_digit : Char.isDigit '\n' = false := by decide
  obtain ⟨-, whole, fraction⟩ := formed
  intro member
  simp only [Literal.chars, List.mem_append] at member
  rcases member with (sign | digits) | point
  · split at sign <;> simp at sign
  · have digit := whole _ digits
    simp [no_digit] at digit
  · split at point
    · simp at point
    · rcases List.mem_cons.mp point with point | digits
      · exact absurd point (by decide)
      · have digit := fraction _ digits
        simp [no_digit] at digit

theorem Literal.newline_not_mem_spoiledTail (text : List Char) : '\n' ∉ spoiledTail text := by
  fun_induction spoiledTail text with
  | case1 => simp
  | case2 c rest dragged ih =>
      intro member
      rcases List.mem_cons.mp member with rfl | member
      · revert dragged
        simp [isWordChar]
      · exact ih member
  | case3 => simp

/-- A token stands in one line. -/
theorem Token.newline_not_mem {token : Token} {after : List Char} (fits : token.Fits after) :
    '\n' ∉ token.chars := by
  cases token with
  | keyword k => cases k <;> decide
  | punct q => cases q <;> decide
  | identifier name =>
      obtain ⟨named, -⟩ := fits
      simp only [isName, Bool.and_eq_true, List.all_eq_true] at named
      exact newline_not_mem_word named.1.2
  | number literal => exact Literal.newline_not_mem fits.1
  | malformed literal tail =>
      obtain ⟨formed, -, tail_eq⟩ := fits
      simp only [chars, List.mem_append, not_or]
      refine ⟨Literal.newline_not_mem formed, ?_⟩
      rw [tail_eq]
      exact Literal.newline_not_mem_spoiledTail _

namespace Piece.At

variable {x : Piece} {p : Position}

/-- Where a token ends: in the line and behind the column where it starts. -/
theorem stop_spec (here : x.At p) (positive : 0 < p.cursor.col) :
    p.cursor.offset < x.lexeme.stop.offset ∧ p.cursor.lineCol < x.lexeme.stop.lineCol ∧
      2 ≤ x.lexeme.stop.col ∧ x.lexeme.stop.lineCol ≤ x.lexeme.next.cursor.lineCol := by
  obtain ⟨after, -, fits, lexeme_eq⟩ := here
  have nonempty := Token.chars_ne_nil fits
  have length := List.length_pos_iff.mpr nonempty
  have col_eq := (Cursor.advance_of_no_newline (p := p.cursor) (Token.newline_not_mem fits)).2
  rw [lexeme_eq]
  refine ⟨Cursor.offset_lt_advance _ nonempty, Cursor.lineCol_lt_advance _ nonempty, ?_,
    (Position.leadsTo_skipGap ⟨_, after⟩).lineCol_le⟩
  simp only [Lexeme.ofChars, col_eq]
  omega

theorem first_span (here : x.At p) : x.lexeme.span.first = p.cursor.lineCol := by
  rw [Lexeme.span, Cursor.first_spanTo, here.start_eq]

theorem le_last_span_iff (here : x.At p) (positive : 0 < p.cursor.col) {a : ℕ ×ₗ ℕ} :
    a ≤ x.lexeme.span.last ↔ a < x.lexeme.stop.lineCol := by
  obtain ⟨offset_lt, -, inside, -⟩ := here.stop_spec positive
  rw [Lexeme.span, here.start_eq]
  exact Cursor.le_last_spanTo_iff offset_lt inside

end Piece.At

/-- A whole token of a text stands where a span says, and the span covers just this token. -/
def Span.Shows (s : Span) (text : List Char) (token : Token) : Prop :=
  ∃ before after, text = before ++ token.chars ++ after ∧ token.Fits after ∧
    (Cursor.start.advance before).lineCol = s.first ∧ s.covered text = token.chars

/-- The span of a lexeme covers its token. -/
theorem Piece.At.shows {text : String} {x : Piece} {p : Position} (here : x.At p)
    (ahead : (Position.ofText text).LeadsTo p) : x.lexeme.span.Shows text.toList x.token := by
  have first_eq := here.first_span
  have last_iff := fun a => here.le_last_span_iff ahead.col_pos (a := a)
  obtain ⟨before, text_eq, cursor_eq⟩ := ahead
  obtain ⟨after, rest_eq, fits, lexeme_eq⟩ := here
  have whole : text.toList = before ++ x.token.chars ++ after := by
    have split : text.toList = before ++ p.rest := text_eq
    rw [split, rest_eq, List.append_assoc]
  have place_eq : Cursor.start.advance before = p.cursor := cursor_eq.symm
  have stop_eq : x.lexeme.stop = p.cursor.advance x.token.chars := by rw [lexeme_eq]; rfl
  refine ⟨before, after, whole, fits, by rw [place_eq, first_eq], ?_⟩
  have none_before : x.lexeme.span.coveredFrom .start before = [] :=
    Span.coveredFrom_before (by rw [place_eq, first_eq])
  have all_inside : x.lexeme.span.coveredFrom p.cursor x.token.chars = x.token.chars :=
    Span.coveredFrom_inside first_eq.le fun a early => (last_iff a).mpr (stop_eq ▸ early)
  have none_behind : x.lexeme.span.coveredFrom (p.cursor.advance x.token.chars) after = [] := by
    refine Span.coveredFrom_behind ?_
    rw [← stop_eq, ← last_iff]
  rw [Span.covered, whole, Span.coveredFrom_append, Span.coveredFrom_append,
    Cursor.advance_append, place_eq, none_before, all_inside, none_behind]
  simp

/-! ## Nodes -/

/-- A part of a syntax tree. -/
inductive Node where
  | program (program : Program)
  | varDef (definition : VarDef)
  | function (definition : FunctionDef)
  | param (param : Param)
  | block (block : Block)
  | stmt (stmt : Stmt)
  | expr (expr : Expr)
  | name (name : Ident)
  | type (type : TypeRef)

/-- Where a statement stands. -/
def Stmt.span : Stmt → Span
  | .define definition => definition.span
  | .function definition => definition.span
  | .expr value => value.span
  | .assign _ _ span | .return_ _ span | .for_ _ _ _ _ span | .while_ _ _ span => span

namespace Node

/-- Where a node stands. -/
def span : Node → Span
  | .program p => p.span
  | .varDef d => d.span
  | .function f => f.span
  | .param p => p.span
  | .block b => b.span
  | .stmt s => s.span
  | .expr e => e.span
  | .name x => x.span
  | .type t => t.span

/-- The parts of an expression, in the order in which they are written. -/
def partsOfExpr : Expr → List Node
  | .number .. | .bool .. | .name .. => []
  | .list items _ => items.map .expr
  | .map entries _ => entries.flatMap fun (key, value) => [.expr key, .expr value]
  | .range first last _ step _ => [.expr first, .expr last] ++ step.toList.map .expr
  | .call x args _ => .name x :: args.map .expr
  | .apply callee args _ => .expr callee :: args.map .expr
  | .method receiver x args _ => .expr receiver :: .name x :: args.map .expr
  | .create t args _ => .type t :: args.map .expr
  | .index target key _ => [.expr target, .expr key]
  | .update target key value _ => [.expr target, .expr key, .expr value]
  | .binary left _ right _ => [.expr left, .expr right]
  | .unary _ operand _ => [.expr operand]
  | .conditional condition yes no _ => [.expr condition, .block yes] ++ no.toList.map .block
  | .function f => [.function f]

/-- The parts of a statement, in the order in which they are written. -/
def partsOfStmt : Stmt → List Node
  | .define d => [.varDef d]
  | .function f => [.function f]
  | .assign x value _ => [.name x, .expr value]
  | .expr value => [.expr value]
  | .return_ value _ => [.expr value]
  | .for_ t item iterable body _ => [.type t, .name item, .expr iterable, .block body]
  | .while_ condition body _ => [.expr condition, .block body]

/--
The parts of a node, in the order in which they are written: the type of a function's result comes
before its name.
-/
def parts : Node → List Node
  | .program p => p.globals.map .varDef ++ p.functions.map .function
  | .varDef d => [.type d.type, .name d.name, .expr d.value]
  | .function f =>
    .type f.result :: (f.name.toList.map .name ++ (f.params.map .param ++ [.block f.body]))
  | .param p => [.type p.type, .name p.name] ++ p.default.toList.map .expr
  | .block b => b.stmts.map .stmt
  | .stmt s => partsOfStmt s
  | .expr e => partsOfExpr e
  | .name _ | .type _ => []

/-- Whether a node is a name, a type, a truth value or a number. -/
def isLeaf : Node → Bool
  | .name _ | .type _ => true
  | .expr (.number ..) | .expr (.bool ..) | .expr (.name ..) => true
  | _ => false

/-- What a leaf says about the token it was read from; a malformed number counts as zero. -/
def ReadFrom : Node → Token → Prop
  | .name x, token => token = .identifier x.name
  | .type t, token =>
      token = .identifier t.name ∨ token = .keyword .fun_ ∧ t.name = Keyword.fun_.text
  | .expr (.name x _), token => token = .identifier x
  | .expr (.bool value _), token => token = .keyword (if value then .true_ else .false_)
  | .expr (.number value _), token =>
      (∃ literal, token = .number literal ∧ value = literal.value) ∨
        ∃ literal tail, token = .malformed literal tail ∧ value = 0
  | _, _ => False

/-- A node stands in a text where its span says, and so do its parts inside it. -/
structure WellPlaced (text : List Char) (node : Node) : Prop where
  ordered : node.span.first ≤ node.span.last
  inside : ∀ part ∈ node.parts,
    node.span.first ≤ part.span.first ∧ part.span.last ≤ node.span.last
  apart : node.parts.Pairwise fun a b => a.span.last < b.span.first
  shown : node.isLeaf = true → ∃ token, node.ReadFrom token ∧ node.span.Shows text token

/-- One node is a part of another, of one of its parts, and so on. -/
def Holds : Node → Node → Prop := Relation.ReflTransGen fun whole part => part ∈ whole.parts

/-- All that a node holds is well placed. -/
def Placed (text : List Char) (node : Node) : Prop := ∀ part, node.Holds part → part.WellPlaced text

theorem placed_iff {text : List Char} {node : Node} :
    node.Placed text ↔ node.WellPlaced text ∧ ∀ part ∈ node.parts, part.Placed text := by
  constructor
  · intro placed
    refine ⟨placed node .refl, fun part member inner held => placed inner ?_⟩
    exact .head member held
  · rintro ⟨here, parts⟩ inner held
    rcases held.cases_head with rfl | ⟨part, member, held⟩
    · exact here
    · exact parts part member inner held

end Node

end Formwork
