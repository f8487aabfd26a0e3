import Mathlib.Logic.Relation
import Formwork.Grammar.Machine
import Formwork.Proofs.Piece

/-!
# What phrases describe

`Phrase.Takes` is the meaning of a phrase without a machine: from the pieces read and the operands
left since a rule started, to those after the phrase. Alternatives are unordered here and nothing
can be looked for in vain. `Phrase.Safe` says that a phrase never lacks an operand and never comes
back to a rule without having read something; both are relative to what rules describe.
-/

namespace Formwork

/-- The pieces read and the operands left, oldest first. -/
structure Yield where
  /-- The pieces in order. -/
  pieces : List Piece
  /-- The operands in order. -/
  operands : List Operand

namespace Yield

/-- Nothing read yet. -/
def empty : Yield := ⟨[], []⟩

/-- One yield after another. -/
def append (x y : Yield) : Yield := ⟨x.pieces ++ y.pieces, x.operands ++ y.operands⟩

/-- One more piece, with the operands it becomes. -/
def read (x : Yield) (piece : Piece) (operands : List Operand) : Yield :=
  x.append ⟨[piece], operands⟩

@[simp]
theorem pieces_append (x y : Yield) : (x.append y).pieces = x.pieces ++ y.pieces := rfl

@[simp]
theorem operands_append (x y : Yield) : (x.append y).operands = x.operands ++ y.operands := rfl

@[simp]
theorem empty_append (x : Yield) : empty.append x = x := rfl

/-- The stretch of text from the first piece to the last. -/
def span (x : Yield) : Span :=
  match x.pieces.head?, x.pieces.getLast? with
  | some first, some last => first.lexeme.start.spanTo last.lexeme.stop
  | _, _ => default

end Yield

/-- The malformed number that a piece is. -/
def Piece.malformed? (x : Piece) : Option Malformed :=
  match x.token with
  | .malformed literal _ => some ⟨x.lexeme.start.advance literal.chars, x.lexeme.text⟩
  | _ => none

/-- The malformed numbers among the pieces. -/
def Yield.malformed (x : Yield) : List Malformed := x.pieces.filterMap Piece.malformed?

/-- The place after the last piece, or else `before`. -/
def Yield.stop (x : Yield) (before : Cursor) : Cursor :=
  match x.pieces.getLast? with
  | some last => last.lexeme.stop
  | none => before

/-- The newest operand is an element of a list or map. -/
def Yield.EndsInIndex (x : Yield) : Prop :=
  ∃ e, x.operands.getLast? = some (.expr e) ∧ e.isIndex = true

namespace Phrase

/-- What reading a phrase adds, given what each rule adds. -/
def Takes (spec : Rule → Yield → Prop) : Phrase → Yield → Yield → Prop
  | .token t leaf => fun x y =>
      ∃ piece : Piece, t.Accepts piece.token ∧
        y = x.read piece (leaf.operand? piece.lexeme).toList
  | .number => fun x y =>
      ∃ piece : Piece,
        (∃ literal, piece.token = .number literal ∧
          y = x.read piece [.expr (.number literal.value piece.lexeme.span)]) ∨
        ∃ literal tail, piece.token = .malformed literal tail ∧
          y = x.read piece [.expr (.number 0 piece.lexeme.span)]
  | .rule r => fun x y => ∃ z, spec r z ∧ y = x.append z
  | .seq first second => fun x y => ∃ z, first.Takes spec x z ∧ second.Takes spec z y
  | .choice first second => fun x y => first.Takes spec x y ∨ second.Takes spec x y
  | .branch t yes no => fun x y =>
      (∃ piece : Piece, t.Accepts piece.token ∧ yes.Takes spec (x.read piece []) y) ∨
        no.Takes spec x y
  | .attempt phrase => phrase.Takes spec
  | .option phrase => fun x y => phrase.Takes spec x y ∨ y = x
  | .many phrase => Relation.ReflTransGen (phrase.Takes spec)
  | .nested phrase => phrase.Takes spec
  | .remembered _ phrase => phrase.Takes spec
  | .afterIndex phrase => fun x y => (x.EndsInIndex ∧ phrase.Takes spec x y) ∨ y = x
  | .reduce r => fun x y =>
      ∃ span operand, (x.pieces ≠ [] → span = x.span) ∧
        r.build? span (x.operands.drop (r.kept x.operands.length)) = some operand ∧
          y = ⟨x.pieces, x.operands.take (r.kept x.operands.length) ++ [operand]⟩

/--
A phrase finds the operands it needs, each round of a repetition reads something, a reduction comes
only after a piece, and so does a rule unless its rank is below `bound`.
-/
def Safe (spec : Rule → Yield → Prop) (rank : Rule → Nat) (bound : Nat) : Phrase → Yield → Prop
  | .token .. | .number => fun _ => True
  | .rule r => fun x => x.pieces ≠ [] ∨ rank r < bound
  | .seq first second => fun x =>
      first.Safe spec rank bound x ∧
        ∀ y, first.Takes spec x y → second.Safe spec rank bound y
  | .choice first second => fun x => first.Safe spec rank bound x ∧ second.Safe spec rank bound x
  | .branch t yes no => fun x =>
      (∀ piece : Piece, t.Accepts piece.token → yes.Safe spec rank bound (x.read piece [])) ∧
        no.Safe spec rank bound x
  | .attempt phrase => phrase.Safe spec rank bound
  | .option phrase => phrase.Safe spec rank bound
  | .many phrase => fun x =>
      ∀ y, Relation.ReflTransGen (phrase.Takes spec) x y →
        phrase.Safe spec rank bound y ∧
          ∀ z, phrase.Takes spec y z → y.pieces.length < z.pieces.length
  | .nested phrase => phrase.Safe spec rank bound
  | .remembered _ phrase => phrase.Safe spec rank bound
  | .afterIndex phrase => fun x => x.EndsInIndex → phrase.Safe spec rank bound x
  | .reduce r => fun x =>
      x.pieces ≠ [] ∧
        ∀ span, (r.build? span (x.operands.drop (r.kept x.operands.length))).isSome = true

/-! ## What a failure leaves behind -/

/-- Whether a phrase has no reduction of its own, so that it only adds operands. -/
def adds : Phrase → Bool
  | .token .. | .number | .rule _ => true
  | .seq first second | .choice first second => first.adds && second.adds
  | .branch _ yes no => yes.adds && no.adds
  | .attempt phrase | .option phrase | .many phrase | .nested phrase | .remembered _ phrase
  | .afterIndex phrase => phrase.adds
  | .reduce _ => false

/-- Whether a phrase never fails. -/
def sure : Phrase → Bool
  | .option _ | .many _ | .afterIndex _ | .reduce _ => true
  | .seq first second => first.sure && second.sure
  | .choice _ second => second.sure
  | .branch _ yes no => yes.sure && no.sure
  | .attempt phrase => phrase.sure
  | _ => false

/-- Whether a failure leaves the operands before the phrase alone. -/
def clean : Phrase → Bool
  | .seq first second => first.clean && (second.sure || first.adds && second.clean)
  | .choice first second => first.clean && second.clean
  | .branch _ yes no => yes.clean && no.clean
  | .attempt phrase | .nested phrase | .remembered _ phrase => phrase.clean
  | _ => true

/-- Whether two tokens cannot stand at the same place because they start differently. -/
def differ : Terminal → Terminal → Bool
  | .punct q, .punct r => q.chars.head? != r.chars.head?
  | _, _ => false

/-- Whether a repetition and the token after it fail wherever the token of a phrase stands. -/
def excludes : Phrase → Phrase → Bool
  | .seq (.token t _) _, .seq (.many (.seq (.token other _) _)) (.seq (.token closing _) _) =>
      differ t other && differ t closing
  | _, _ => false

/-- Whether every failure that reading goes on after leaves the operands alone. -/
def tidy : Phrase → Bool
  | .token .. | .number | .rule _ | .reduce _ => true
  | .seq first second => first.tidy && second.tidy
  | .choice first second =>
      first.tidy && second.tidy && (first.clean || first.excludes second)
  | .branch _ yes no => yes.tidy && no.tidy
  | .attempt phrase | .nested phrase | .remembered _ phrase => phrase.tidy
  | .option phrase | .many phrase | .afterIndex phrase => phrase.tidy && phrase.clean

/-- Every rule of the grammar is tidy. -/
theorem tidy_phrase (r : Rule) : r.phrase.tidy = true := by
  cases r <;> rfl

/--
What lasts through adding pieces and operands lasts through a phrase, unless the phrase has
reductions of its own that it does not last through.
-/
theorem Takes.lasts {spec : Rule → Yield → Prop} {P : Yield → Yield → Prop}
    (refl : ∀ x, P x x) (trans : ∀ {x y z}, P x y → P y z → P x z)
    (append : ∀ x y, P x (x.append y)) {phrase : Phrase}
    (reduce : phrase.adds = true ∨ ∀ x operands, P x ⟨Yield.pieces x, operands⟩) {x y : Yield}
    (takes : phrase.Takes spec x y) : P x y := by
  induction phrase generalizing x y with
  | token t leaf =>
      obtain ⟨piece, -, rfl⟩ := takes
      exact append x _
  | number =>
      obtain ⟨piece, ⟨literal, -, rfl⟩ | ⟨literal, tail, -, rfl⟩⟩ := takes
      · exact append x _
      · exact append x _
  | rule r =>
      obtain ⟨z, -, rfl⟩ := takes
      exact append x z
  | seq first second ih_first ih_second =>
      simp only [adds, Bool.and_eq_true] at reduce
      obtain ⟨z, one, two⟩ := takes
      exact trans (ih_first (reduce.imp_left And.left) one)
        (ih_second (reduce.imp_left And.right) two)
  | choice first second ih_first ih_second =>
      simp only [adds, Bool.and_eq_true] at reduce
      rcases takes with one | two
      · exact ih_first (reduce.imp_left And.left) one
      · exact ih_second (reduce.imp_left And.right) two
  | branch t yes no ih_yes ih_no =>
      simp only [adds, Bool.and_eq_true] at reduce
      rcases takes with ⟨piece, -, one⟩ | two
      · exact trans (append x _) (ih_yes (reduce.imp_left And.left) one)
      · exact ih_no (reduce.imp_left And.right) two
  | attempt phrase ih => exact ih reduce takes
  | option phrase ih =>
      rcases takes with inner | rfl
      · exact ih reduce inner
      · exact refl _
  | many phrase ih =>
      induction takes with
      | refl => exact refl _
      | tail _ last earlier => exact trans earlier (ih reduce last)
  | nested phrase ih => exact ih reduce takes
  | remembered memo phrase ih => exact ih reduce takes
  | afterIndex phrase ih =>
      rcases takes with ⟨-, inner⟩ | rfl
      · exact ih reduce inner
      · exact refl _
  | reduce r =>
      obtain ⟨span, operand, -, -, rfl⟩ := takes
      exact (reduce.resolve_left Bool.false_ne_true) x _

/-- Pieces are only added. -/
theorem Takes.pieces {spec : Rule → Yield → Prop} {phrase : Phrase} {x y : Yield}
    (takes : phrase.Takes spec x y) : x.pieces <+: y.pieces :=
  takes.lasts (P := fun x y => x.pieces <+: y.pieces) (fun _ => List.prefix_refl _)
    (fun first second => first.trans second) (fun _ _ => List.prefix_append _ _)
    (Or.inr fun _ _ => List.prefix_refl _)

/-- Operands are only added, reductions apart. -/
theorem Takes.operands {spec : Rule → Yield → Prop} {phrase : Phrase} {x y : Yield}
    (takes : phrase.Takes spec x y) (adds : phrase.adds = true) : x.operands <+: y.operands :=
  takes.lasts (P := fun x y => x.operands <+: y.operands) (fun _ => List.prefix_refl _)
    (fun first second => first.trans second) (fun _ _ => List.prefix_append _ _) (Or.inl adds)

end Phrase

end Formwork
