import Formwork.Proofs.Bare
import Formwork.Proofs.BigStep
import Formwork.Proofs.Contract
import Formwork.Proofs.Written

/-!
# Phrases on written tokens

A scene is a list of tokens still to be read together with the operands left so far, without spans.
`phrase.Passes depth a b` says that reading a phrase leads from one scene to another, with all its
tokens at most `depth` levels deep, and `phrase.Fails a` that it fails, having read tokens on the
outermost level only. Both are built up phrase by phrase. `Phrase.refuses` finds many failures by
the first token alone.
-/

namespace Formwork

/-- Tokens still to be read, and the bare operands left so far. -/
structure Scene where
  /-- The tokens to be read. -/
  ahead : List Token
  /-- The operands, oldest first. -/
  operands : List Operand

/-- A yield and a position are those of a scene. -/
structure Scene.Holds (a : Scene) (x : Yield) (p : Position) : Prop where
  rest : p.rest = written a.ahead
  writable : ∀ t ∈ a.ahead, t.Writable
  sound : x.malformed = []
  operands : x.operands.map Operand.bare = a.operands

/-- The bare operands that a token becomes. -/
def Leaf.bare (leaf : Leaf) (token : Token) : List Operand :=
  match leaf with
  | .nothing => []
  | .name => [.name ⟨String.ofList token.chars, default⟩]
  | .type => [.type ⟨String.ofList token.chars, default⟩]
  | .bool value => [.expr (.bool value default)]
  | .operator op => [.operator op]
  | .constant => [.constant]
  | .bounds inclusive => [.bounds inclusive]

theorem Leaf.map_bare_operand? (leaf : Leaf) (piece : Piece) :
    (leaf.operand? piece.lexeme).toList.map Operand.bare = leaf.bare piece.token := by
  cases leaf <;>
    simp [Leaf.operand?, Leaf.bare, Operand.bare, Ident.bare, TypeRef.bare, Expr.bare,
      piece.text_eq]

/-- Whether a terminal can be found at the first of some tokens. -/
def Terminal.takesNext (t : Terminal) (tokens : List Token) : Bool := tokens.head?.any t.takes

namespace Scene.Holds

variable {tokens : List Token} {token : Token} {es : List Operand} {x : Yield} {p : Position}

theorem match?_eq_none (holds : Holds ⟨tokens, es⟩ x p) {t : Terminal}
    (absent : t.takesNext tokens = false) : t.match? p = none := by
  cases tokens with
  | nil => exact t.match?_nil holds.rest
  | cons token tokens =>
      refine Terminal.match?_written holds.rest (holds.writable token (by simp)) ?_
      simpa [Terminal.takesNext] using absent

/-- One token further on, with the operands it becomes. -/
theorem read (holds : Holds ⟨token :: tokens, es⟩ x p) (sound : token.isSound = true)
    (operands : List Operand) :
    Holds ⟨tokens, es ++ operands.map Operand.bare⟩
      (x.read (Piece.ofToken token p (' ' :: written tokens)) operands)
      (Piece.ofToken token p (' ' :: written tokens)).lexeme.next where
  rest := Piece.next_ofToken fun t member => holds.writable t (by simp [member])
  writable t member := holds.writable t (by simp [member])
  sound := by
    have not_malformed : (Piece.ofToken token p (' ' :: written tokens)).malformed? = none := by
      cases token <;> simp_all [Piece.malformed?, Piece.ofToken, Token.isSound]
    have before := holds.sound
    simp only [Yield.malformed] at before
    simp [Yield.malformed, Yield.read, not_malformed, before]
  operands := by simp [Yield.read, holds.operands]

end Scene.Holds

namespace Phrase

/-- Reading a phrase leads from one scene to another. -/
def Passes (depth : Nat) (phrase : Phrase) (a b : Scene) : Prop :=
  ∀ (bound : Nat) (x : Yield) (p : Position),
    phrase.Safe (Yield.Meets Rule.Yields) Rule.rank bound x → a.Holds x p →
      ∃ y q l, phrase.Reads x p (.matched y q) l ∧ b.Holds y q ∧ l.reach ≤ depth + 1

/-- Reading a phrase fails, and tokens are read on the outermost level only. -/
def Fails (phrase : Phrase) (a : Scene) : Prop :=
  ∀ (bound : Nat) (x : Yield) (p : Position),
    phrase.Safe (Yield.Meets Rule.Yields) Rule.rank bound x → a.Holds x p →
      ∃ pending l, phrase.Reads x p (.missed pending) l ∧ l.reach ≤ 1

namespace Passes

variable {depth depth' : Nat} {phrase first second yes no : Phrase} {a b c : Scene}
  {tokens rest : List Token} {head : Token} {es zs : List Operand} {t : Terminal}

theorem mono (passes : phrase.Passes depth a b) (le : depth ≤ depth') :
    phrase.Passes depth' a b := by
  intro bound x p safe holds
  obtain ⟨y, q, l, reads, after, reach⟩ := passes _ _ _ safe holds
  exact ⟨y, q, l, reads, after, by omega⟩

theorem token (leaf : Leaf) (accepts : t.Accepts head) (sound : head.isSound = true) :
    (Phrase.token t leaf).Passes depth ⟨head :: tokens, es⟩ ⟨tokens, es ++ leaf.bare head⟩ := by
  intro bound x p _ holds
  have here := Piece.at_ofToken (holds.writable head (by simp)) holds.rest
  have found := Terminal.match?_of_at accepts here
  refine ⟨_, _, _, .token found accepts here, ?_, by simp [Log.read]⟩
  have after := holds.read sound
    (leaf.operand? (Piece.ofToken head p (' ' :: written tokens)).lexeme).toList
  rw [Leaf.map_bare_operand?] at after
  exact after

theorem number {literal : Literal} :
    Phrase.number.Passes depth ⟨.number literal :: tokens, es⟩
      ⟨tokens, es ++ [.expr (.number literal.value default)]⟩ := by
  intro bound x p _ holds
  have formed : literal.WellFormed := holds.writable (.number literal) (by simp)
  have read_eq : Literal.read? p.rest = some (literal, ' ' :: written tokens) := by
    rw [holds.rest, written_cons]
    exact formed.read? rfl
  exact ⟨_, _, _, .number read_eq rfl, holds.read rfl [.expr (.number literal.value _)],
    by simp [Log.read]⟩

/-- A rule adds its operands to those before it. -/
theorem rule {r : Rule} (passes : r.phrase.Passes depth ⟨tokens, []⟩ ⟨rest, zs⟩) :
    (Phrase.rule r).Passes depth ⟨tokens, es⟩ ⟨rest, es ++ zs⟩ := by
  intro bound x p _ holds
  obtain ⟨z, q, l, reads, after, reach⟩ :=
    passes _ _ _ r.safe_phrase ⟨holds.rest, holds.writable, rfl, rfl⟩
  refine ⟨_, q, l, .rule reads, ⟨after.rest, after.writable, ?_, ?_⟩, reach⟩
  · have left := holds.sound
    have right := after.sound
    simp only [Yield.malformed] at left right
    simp [Yield.malformed, left, right]
  · simp [holds.operands, after.operands]

theorem seq (one : first.Passes depth a b) (two : second.Passes depth b c) :
    (Phrase.seq first second).Passes depth a c := by
  intro bound x p safe holds
  obtain ⟨y, q, l, reads, between, reach⟩ := one _ _ _ safe.1 holds
  obtain ⟨z, r, m, reads', after, reach'⟩ :=
    two _ _ _ (safe.2 y (reads.takes Rule.meets_of_takes rfl)) between
  exact ⟨z, r, _, .seq reads reads', after, by simp only [Log.append]; omega⟩

theorem choice (one : first.Passes depth a b) : (Phrase.choice first second).Passes depth a b := by
  intro bound x p safe holds
  obtain ⟨y, q, l, reads, after, reach⟩ := one _ _ _ safe.1 holds
  exact ⟨y, q, l, .first reads, after, reach⟩

theorem orElse (one : first.Fails a) (two : second.Passes depth a b) :
    (Phrase.choice first second).Passes depth a b := by
  intro bound x p safe holds
  obtain ⟨pending, l, reads, reach⟩ := one _ _ _ safe.1 holds
  obtain ⟨y, q, m, reads', after, reach'⟩ := two _ _ _ safe.2 holds
  exact ⟨y, q, _, .second reads reads', after, by simp only [Log.append, Log.abandoned]; omega⟩

theorem yes_ (accepts : t.Accepts head) (sound : head.isSound = true)
    (inner : yes.Passes depth ⟨tokens, es⟩ b) :
    (Phrase.branch t yes no).Passes depth ⟨head :: tokens, es⟩ b := by
  intro bound x p safe holds
  have here := Piece.at_ofToken (holds.writable head (by simp)) holds.rest
  have found := Terminal.match?_of_at accepts here
  have between := holds.read sound []
  rw [List.map_nil, List.append_nil] at between
  obtain ⟨y, q, l, reads, after, reach⟩ := inner _ _ _ (safe.1 _ accepts) between
  exact ⟨y, q, _, .yes found accepts here reads, after, by simp only [Log.append, Log.read]; omega⟩

theorem no_ (absent : t.takesNext tokens = false) (inner : no.Passes depth ⟨tokens, es⟩ b) :
    (Phrase.branch t yes no).Passes depth ⟨tokens, es⟩ b := by
  intro bound x p safe holds
  obtain ⟨y, q, l, reads, after, reach⟩ := inner _ _ _ safe.2 holds
  exact ⟨y, q, _, .no (holds.match?_eq_none absent) reads, after,
    by simp only [Log.append, Log.sought]; omega⟩

theorem attempt (inner : phrase.Passes depth a b) : (Phrase.attempt phrase).Passes depth a b := by
  intro bound x p safe holds
  obtain ⟨y, q, l, reads, after, reach⟩ := inner _ _ _ safe holds
  exact ⟨y, q, l, .attempt reads, after, reach⟩

theorem option (inner : phrase.Passes depth a b) : (Phrase.option phrase).Passes depth a b := by
  intro bound x p safe holds
  obtain ⟨y, q, l, reads, after, reach⟩ := inner _ _ _ safe holds
  exact ⟨y, q, l, .option reads, after, reach⟩

theorem noOption (fails : phrase.Fails a) : (Phrase.option phrase).Passes depth a a := by
  intro bound x p safe holds
  obtain ⟨pending, l, reads, reach⟩ := fails _ _ _ safe holds
  exact ⟨x, p, _, .noOption reads, holds, by simp only [Log.append, Log.abandoned]; omega⟩

theorem more (one : phrase.Passes depth a b) (others : (Phrase.many phrase).Passes depth b c) :
    (Phrase.many phrase).Passes depth a c := by
  intro bound x p safe holds
  obtain ⟨y, q, l, reads, between, reach⟩ := one _ _ _ (safe x .refl).1 holds
  have takes := reads.takes Rule.meets_of_takes rfl
  obtain ⟨z, r, m, reads', after, reach'⟩ :=
    others _ _ _ (fun z rounds => safe z (.head takes rounds)) between
  exact ⟨z, r, _, .more reads reads', after, by simp only [Log.append]; omega⟩

theorem done (fails : phrase.Fails a) : (Phrase.many phrase).Passes depth a a := by
  intro bound x p safe holds
  obtain ⟨pending, l, reads, reach⟩ := fails _ _ _ (safe x .refl).1 holds
  exact ⟨x, p, _, .done reads, holds, by simp only [Log.append, Log.abandoned]; omega⟩

theorem nested (inner : phrase.Passes depth a b) :
    (Phrase.nested phrase).Passes (depth + 1) a b := by
  intro bound x p safe holds
  obtain ⟨y, q, l, reads, after, reach⟩ := inner _ _ _ safe holds
  refine ⟨y, q, _, .nested reads, after, ?_⟩
  simp only [Log.deeper]
  split <;> omega

theorem remembered {memo : Memo} (inner : phrase.Passes depth a b) :
    (Phrase.remembered memo phrase).Passes depth a b := by
  intro bound x p safe holds
  obtain ⟨y, q, l, reads, after, reach⟩ := inner _ _ _ safe holds
  exact ⟨y, q, l, .remembered (.attempt reads), after, reach⟩

theorem afterIndex {e : Expr} (is_index : e.isIndex = true)
    (inner : phrase.Passes depth ⟨tokens, es ++ [.expr e]⟩ b) :
    (Phrase.afterIndex phrase).Passes depth ⟨tokens, es ++ [.expr e]⟩ b := by
  intro bound x p safe holds
  have ends : x.EndsInIndex := by
    have newest := congrArg List.getLast? holds.operands
    rw [List.getLast?_map, List.getLast?_concat, Option.map_eq_some_iff] at newest
    obtain ⟨o, last, bare_eq⟩ := newest
    cases o with
    | expr e' =>
        obtain rfl := Operand.expr.inj bare_eq
        exact ⟨e', last, by rwa [Expr.isIndex_bare] at is_index⟩
    | _ => simp [Operand.bare] at bare_eq
  obtain ⟨y, q, l, reads, after, reach⟩ := inner _ _ _ (safe ends) holds
  exact ⟨y, q, l, .afterIndex ends (.option reads), after, reach⟩

/-- Without the token that goes on after an element nothing happens, element or not. -/
theorem noAfterIndex (fails : phrase.Fails a) : (Phrase.afterIndex phrase).Passes depth a a := by
  intro bound x p safe holds
  by_cases ends : x.EndsInIndex
  · obtain ⟨pending, l, reads, reach⟩ := fails _ _ _ (safe ends) holds
    exact ⟨x, p, _, .afterIndex ends (.noOption reads), holds,
      by simp only [Log.append, Log.abandoned]; omega⟩
  · exact ⟨x, p, _, .notAfterIndex ends, holds, by simp [Log.empty]⟩

/-- A reduction puts in place of its operands what is built of them. -/
theorem reduce {r : Reduction} {o : Operand}
    (built : r.build? default (es.drop (r.kept es.length)) = some o) :
    (Phrase.reduce r).Passes depth ⟨tokens, es⟩
      ⟨tokens, es.take (r.kept es.length) ++ [o]⟩ := by
  intro bound x p safe holds
  have operands_eq : x.operands.map Operand.bare = es := holds.operands
  have length_eq : x.operands.length = es.length := by rw [← operands_eq, List.length_map]
  obtain ⟨o', built'⟩ := Option.isSome_iff_exists.mp (safe.2 x.span)
  have bare_eq : o'.bare = o := by
    have bare_built := Reduction.build?_bare built'
    rw [List.map_drop, operands_eq, length_eq, built] at bare_built
    exact (Option.some.inj bare_built).symm
  refine ⟨_, p, _, .reduce safe.1 built', ⟨holds.rest, holds.writable, holds.sound, ?_⟩,
    by simp [Log.empty]⟩
  rw [List.map_append, List.map_take, operands_eq, length_eq, List.map_singleton, bare_eq]

/-- A reduction of all operands. -/
theorem reduceAll {r : Reduction} {o : Operand} (all : r.arity? = none)
    (built : r.build? default es = some o) :
    (Phrase.reduce r).Passes depth ⟨tokens, es⟩ ⟨tokens, [o]⟩ := by
  have none_kept : r.kept es.length = 0 := by simp [Reduction.kept, all]
  have passes : (Phrase.reduce r).Passes depth ⟨tokens, es⟩ _ :=
    reduce (by rw [none_kept]; exact built)
  rwa [none_kept] at passes

end Passes

/-! ## Failures -/

namespace Fails

variable {phrase first second yes no : Phrase} {a b : Scene} {tokens : List Token}
  {es : List Operand} {t : Terminal}

theorem token (leaf : Leaf) (absent : t.takesNext tokens = false) :
    (Phrase.token t leaf).Fails ⟨tokens, es⟩ := by
  intro bound x p _ holds
  exact ⟨_, _, .noToken (holds.match?_eq_none absent), by simp [Log.sought]⟩

theorem first_ (fails : first.Fails a) : (Phrase.seq first second).Fails a := by
  intro bound x p safe holds
  obtain ⟨pending, l, reads, reach⟩ := fails _ _ _ safe.1 holds
  exact ⟨pending, l, .noSeq reads, reach⟩

theorem seq (one : first.Passes 0 a b) (fails : second.Fails b) :
    (Phrase.seq first second).Fails a := by
  intro bound x p safe holds
  obtain ⟨y, q, l, reads, between, reach⟩ := one _ _ _ safe.1 holds
  obtain ⟨pending, m, reads', reach'⟩ :=
    fails _ _ _ (safe.2 y (reads.takes Rule.meets_of_takes rfl)) between
  exact ⟨pending, _, .seq reads reads', by simp only [Log.append]; omega⟩

theorem rule {r : Rule} (fails : r.phrase.Fails ⟨tokens, []⟩) :
    (Phrase.rule r).Fails ⟨tokens, es⟩ := by
  intro bound x p _ holds
  obtain ⟨pending, l, reads, reach⟩ :=
    fails _ _ _ r.safe_phrase ⟨holds.rest, holds.writable, rfl, rfl⟩
  exact ⟨_, l, .noRule reads, reach⟩

end Fails

end Phrase

/-! ## Failures at the first token -/

/-- Whether a token is a number. -/
def Token.isNumber : Token → Bool
  | .number _ => true
  | _ => false

namespace Phrase

/--
Whether a phrase fails at its first token, given that token, or none at the end, and whether each
rule does.
-/
def refuses (rule : Rule → Bool) (next : Option Token) : Phrase → Bool
  | .token t _ => !next.any t.takes
  | .number => !next.any Token.isNumber
  | .rule r => rule r
  | .seq (.option inner) second => inner.refuses rule next && second.refuses rule next
  | .seq first _ => first.refuses rule next
  | .choice first second => first.refuses rule next && second.refuses rule next
  | .branch t _ no => !next.any t.takes && no.refuses rule next
  | .attempt phrase | .nested phrase | .remembered _ phrase => phrase.refuses rule next
  | .option _ | .many _ | .afterIndex _ | .reduce _ => false

end Phrase

/-- Whether a rule fails at its first token, through at most `fuel` rules inside one another. -/
def Rule.refuses (next : Option Token) : Nat → Rule → Bool
  | 0, _ => false
  | fuel + 1, r => r.phrase.refuses (Rule.refuses next fuel) next

namespace Phrase

/-- A phrase that refuses the first token fails there, if the rules do. -/
theorem exists_missed_of_refuses {rule : Rule → Bool} {tokens : List Token} {p : Position}
    (rest_eq : p.rest = written tokens) (writable : ∀ t ∈ tokens, t.Writable)
    (rules : ∀ r x, rule r = true →
      ∃ pending l, (Phrase.rule r).Reads x p (.missed pending) l ∧ l.reach = 0) {phrase : Phrase}
    (refused : phrase.refuses rule tokens.head? = true) (x : Yield) :
    ∃ pending l, phrase.Reads x p (.missed pending) l ∧ l.reach = 0 := by
  have absent {t : Terminal} (none_taken : (!tokens.head?.any t.takes) = true) :
      t.match? p = none := by
    have holds : Scene.Holds ⟨tokens, []⟩ .empty p := ⟨rest_eq, writable, rfl, rfl⟩
    exact holds.match?_eq_none (by simpa [Terminal.takesNext] using none_taken)
  fun_induction Phrase.refuses rule tokens.head? phrase with
  | case1 t leaf => exact ⟨_, _, .noToken (absent refused), rfl⟩
  | case2 =>
      have no_number : Literal.read? p.rest = none := by
        rw [rest_eq]
        cases tokens with
        | nil => rfl
        | cons token tokens =>
            refine Literal.read?_written (writable token (by simp)) ?_
            rintro literal rfl
            simp [Token.isNumber] at refused
      exact ⟨_, _, .noNumber no_number, rfl⟩
  | case3 r => exact rules r x refused
  | case4 inner second ih_inner ih_second =>
      simp only [Bool.and_eq_true] at refused
      obtain ⟨pending, l, reads, still⟩ := ih_inner refused.1
      obtain ⟨pending', m, reads', still'⟩ := ih_second refused.2
      refine ⟨pending', _, .seq (.noOption reads) reads', ?_⟩
      simp [Log.append, Log.abandoned, still, still']
  | case5 first second other ih =>
      obtain ⟨pending, l, reads, still⟩ := ih refused
      exact ⟨pending, l, .noSeq reads, still⟩
  | case6 first second ih_first ih_second =>
      simp only [Bool.and_eq_true] at refused
      obtain ⟨pending, l, reads, still⟩ := ih_first refused.1
      obtain ⟨pending', m, reads', still'⟩ := ih_second refused.2
      refine ⟨pending', _, .second reads reads', ?_⟩
      simp [Log.append, Log.abandoned, still, still']
  | case7 t yes no ih =>
      simp only [Bool.and_eq_true] at refused
      obtain ⟨pending, l, reads, still⟩ := ih refused.2
      refine ⟨pending, _, .no (absent refused.1) reads, ?_⟩
      simp [Log.append, Log.sought, still]
  | case8 phrase ih =>
      obtain ⟨pending, l, reads, still⟩ := ih refused
      refine ⟨_, _, .noAttempt reads, ?_⟩
      simp [Log.append, Log.abandoned, still]
  | case9 phrase ih =>
      obtain ⟨pending, l, reads, still⟩ := ih refused
      exact ⟨_, _, .nested reads, Log.reach_deeper_eq_zero.mpr still⟩
  | case10 memo phrase ih =>
      obtain ⟨pending, l, reads, still⟩ := ih refused
      refine ⟨_, _, .remembered (.noAttempt reads), ?_⟩
      simp [Log.append, Log.abandoned, still]
  | case11 => simp at refused
  | case12 => simp at refused
  | case13 => simp at refused
  | case14 => simp at refused

end Phrase

/-- A rule that refuses the first token fails there. -/
theorem Rule.exists_missed_of_refuses {tokens : List Token} {p : Position}
    (rest_eq : p.rest = written tokens) (writable : ∀ t ∈ tokens, t.Writable) (fuel : Nat)
    (r : Rule) (x : Yield) (refused : Rule.refuses tokens.head? fuel r = true) :
    ∃ pending l, (Phrase.rule r).Reads x p (.missed pending) l ∧ l.reach = 0 := by
  induction fuel generalizing r x with
  | zero => simp [Rule.refuses] at refused
  | succ fuel ih =>
      obtain ⟨pending, l, reads, still⟩ :=
        Phrase.exists_missed_of_refuses rest_eq writable ih refused .empty
      exact ⟨_, l, .noRule reads, still⟩

/-- Whether a phrase fails at its first token. -/
def Phrase.refusesAt (phrase : Phrase) (next : Option Token) : Bool :=
  phrase.refuses (Rule.refuses next Rule.all.length) next

/-- A phrase that refuses the first token fails. -/
theorem Phrase.Fails.of_refuses {phrase : Phrase} {tokens : List Token} {es : List Operand}
    (refused : phrase.refusesAt tokens.head? = true) : phrase.Fails ⟨tokens, es⟩ := by
  intro bound x p _ holds
  obtain ⟨pending, l, reads, still⟩ := Phrase.exists_missed_of_refuses holds.rest holds.writable
    (Rule.exists_missed_of_refuses holds.rest holds.writable Rule.all.length) refused x
  exact ⟨pending, l, reads, by omega⟩

end Formwork
