import Formwork.Proofs.Accepted
import Formwork.Proofs.Lexemes

/-!
# Comparisons do not chain

Tokens of operators, names and parentheses are read with one flag for each open parenthesis: whether
a comparison stands at its level since it was opened, or since the last `and`, `or` or `xor`. The
flags of every expression that the grammar derives stay in order (`Derives.flags`), so a comparison
is never followed by a second one at the same level.
-/

namespace Formwork

/-! ## Flags -/

/-- What a token does to the flags. -/
inductive Role where
  | opening | closing | joining | comparing | other
deriving DecidableEq

/-- The role of a token. -/
def Token.role : Token → Role
  | .punct .lparen => .opening
  | .punct .rparen => .closing
  | .keyword .or | .keyword .xor | .keyword .and => .joining
  | .punct .eq | .punct .notEq | .punct .less | .punct .lessEq | .punct .greater
  | .punct .greaterEq => .comparing
  | _ => .other

/-- Whether a token is a name, a parenthesis or an operator. -/
def Token.isFormula : Token → Bool
  | .identifier _ => true
  | .keyword k => k ∈ [.or, .xor, .and, .not]
  | .punct q =>
      q ∈ [.lparen, .rparen, .eq, .notEq, .less, .lessEq, .greater, .greaterEq, .plus, .minus,
        .star, .slash, .percent, .caret]
  | _ => false

/-- Tokens of operators, names and parentheses. -/
def Formula (ts : List Token) : Prop := ∀ t ∈ ts, t.isFormula = true

@[simp]
theorem formula_nil : Formula [] := List.forall_mem_nil _

@[simp]
theorem formula_cons {t : Token} {ts : List Token} :
    Formula (t :: ts) ↔ t.isFormula = true ∧ Formula ts := List.forall_mem_cons

@[simp]
theorem formula_append {ts us : List Token} : Formula (ts ++ us) ↔ Formula ts ∧ Formula us :=
  List.forall_mem_append

/-- The flags after a token; none if a second comparison follows a first. -/
def Role.flags : Role → List Bool → Option (List Bool)
  | _, [] => none
  | .opening, seen :: outer => some (false :: seen :: outer)
  | .closing, _ :: outer => some outer
  | .joining, _ :: outer => some (false :: outer)
  | .comparing, seen :: outer => if seen then none else some (true :: outer)
  | .other, seen :: outer => some (seen :: outer)

/-- The flags after tokens. -/
def flagsAfter : List Token → List Bool → Option (List Bool)
  | [], flags => some flags
  | t :: ts, flags => (t.role.flags flags).bind (flagsAfter ts)

theorem flagsAfter_append (ts us : List Token) (flags : List Bool) :
    flagsAfter (ts ++ us) flags = (flagsAfter ts flags).bind (flagsAfter us) := by
  induction ts generalizing flags with
  | nil => rfl
  | cons t ts ih =>
      simp only [List.cons_append, flagsAfter, Option.bind_assoc]
      exact Option.bind_congr fun flags _ => ih flags

/-- Tokens that leave the flags as they are. -/
def KeepsFlags (ts : List Token) : Prop :=
  ∀ seen outer, flagsAfter ts (seen :: outer) = some (seen :: outer)

/-- Tokens with at most one comparison at a time. -/
def ComparesOnce (ts : List Token) : Prop :=
  ∀ outer, ∃ seen, flagsAfter ts (false :: outer) = some (seen :: outer)

theorem KeepsFlags.comparesOnce {ts : List Token} (keeps : KeepsFlags ts) : ComparesOnce ts :=
  fun outer => ⟨false, keeps false outer⟩

theorem KeepsFlags.append {ts us : List Token} (first : KeepsFlags ts) (second : KeepsFlags us) :
    KeepsFlags (ts ++ us) := by
  intro seen outer
  rw [flagsAfter_append, first]
  exact second seen outer

theorem KeepsFlags.cons {t : Token} {ts : List Token} (role : t.role = .other)
    (keeps : KeepsFlags ts) : KeepsFlags (t :: ts) := by
  intro seen outer
  simp only [flagsAfter, role, Role.flags, Option.bind_some]
  exact keeps seen outer

theorem KeepsFlags.nil : KeepsFlags [] := fun _ _ => rfl

/-- What is inside parentheses does not matter outside. -/
theorem ComparesOnce.enclosed {ts : List Token} (once : ComparesOnce ts) :
    KeepsFlags (.punct .lparen :: (ts ++ [.punct .rparen])) := by
  intro seen outer
  obtain ⟨inner, flags_eq⟩ := once (seen :: outer)
  simp [flagsAfter, Token.role, Role.flags, flagsAfter_append, flags_eq]

/-! ## Derivations keep the flags -/

/-- Whether comparisons stand in parentheses only. -/
def Level.isTight : Level → Bool
  | .expression | .boolean | .conjunction | .negation | .comparison => false
  | _ => true

/-- What the tokens derived from a nonterminal do to the flags. -/
def Nonterminal.Flagged : Nonterminal → List Token → Prop
  | .expr level, ts => if level.isTight then KeepsFlags ts else ComparesOnce ts
  | .args, ts => KeepsFlags ts
  | .exprList, ts => ComparesOnce ts
  | _, _ => True

theorem Level.flagged_of_keeps {level : Level} {ts : List Token} (keeps : KeepsFlags ts) :
    (Nonterminal.expr level).Flagged ts := by
  cases tight : level.isTight with
  | true => simpa [Nonterminal.Flagged, tight] using keeps
  | false => simpa [Nonterminal.Flagged, tight] using keeps.comparesOnce

theorem Level.flagged_lift {level below : Level} {ts : List Token}
    (member : below ∈ level.alternatives) (flagged : (Nonterminal.expr below).Flagged ts) :
    (Nonterminal.expr level).Flagged ts := by
  cases tight : below.isTight with
  | true =>
      simp only [Nonterminal.Flagged, tight, if_true] at flagged
      exact flagged_of_keeps flagged
  | false =>
      have loose : level.isTight = false := by
        cases level <;> cases below <;> simp_all [alternatives, isTight]
      simp only [Nonterminal.Flagged, tight, loose] at flagged ⊢
      exact flagged

theorem Level.flagged_binary {level : Level} {token : Token} {op : BinaryOp} {ts us : List Token}
    (member : (token, op) ∈ level.operators)
    (left : (Nonterminal.expr level.sides.1).Flagged ts)
    (right : (Nonterminal.expr level.sides.2).Flagged us) :
    (Nonterminal.expr level).Flagged (ts ++ token :: us) := by
  have joins (role : token.role = .joining) (left : ComparesOnce ts) (right : ComparesOnce us) :
      ComparesOnce (ts ++ token :: us) := by
    intro outer
    obtain ⟨seen, left_eq⟩ := left outer
    obtain ⟨seen', right_eq⟩ := right outer
    exact ⟨seen', by simp [flagsAfter_append, left_eq, flagsAfter, role, Role.flags, right_eq]⟩
  have compares (role : token.role = .comparing) (left : KeepsFlags ts) (right : KeepsFlags us) :
      ComparesOnce (ts ++ token :: us) := by
    intro outer
    refine ⟨true, ?_⟩
    simp [flagsAfter_append, left false outer, flagsAfter, role, Role.flags, right true outer]
  have operates (role : token.role = .other) (left : KeepsFlags ts) (right : KeepsFlags us) :
      KeepsFlags (ts ++ token :: us) := left.append (right.cons role)
  cases level <;> simp only [operators, List.mem_cons, Prod.mk.injEq, List.not_mem_nil, or_false]
    at member
  case boolean => rcases member with ⟨rfl, -⟩ | ⟨rfl, -⟩ <;> exact joins rfl left right
  case conjunction => obtain ⟨rfl, -⟩ := member; exact joins rfl left right
  case comparison =>
    rcases member with ⟨rfl, -⟩ | ⟨rfl, -⟩ | ⟨rfl, -⟩ | ⟨rfl, -⟩ | ⟨rfl, -⟩ | ⟨rfl, -⟩ <;>
      exact compares rfl left right
  case sum => rcases member with ⟨rfl, -⟩ | ⟨rfl, -⟩ <;> exact operates rfl left right
  case product =>
    rcases member with ⟨rfl, -⟩ | ⟨rfl, -⟩ | ⟨rfl, -⟩ <;> exact operates rfl left right
  case power => obtain ⟨rfl, -⟩ := member; exact operates rfl left right

/-- The flags of derived tokens stay in order. -/
theorem Derives.flags {n : Nonterminal} {ts : List Token} {tree : n.Tree}
    (derives : Derives n ts tree) (formula : Formula ts) : n.Flagged ts := by
  induction derives with
  | lift member _ ih => exact Level.flagged_lift member (ih formula)
  | binary member _ _ ih_left ih_right =>
      rw [formula_append, formula_cons] at formula
      exact Level.flagged_binary member (ih_left formula.1) (ih_right formula.2.2)
  | not _ ih =>
      intro outer
      exact ih (formula_cons.mp formula).2 outer
  | negate _ ih => exact .cons rfl (ih (formula_cons.mp formula).2)
  | groupedTarget _ ih =>
      rw [formula_cons, formula_append] at formula
      exact ComparesOnce.enclosed (KeepsFlags.comparesOnce (ih formula.2.1))
  | apply _ _ ih_callee ih_args =>
      rw [formula_append] at formula
      exact KeepsFlags.append (ih_callee formula.1) (ih_args formula.2)
  | call _ ih => exact .cons rfl (ih (formula_cons.mp formula).2)
  | name => exact .cons rfl .nil
  | group _ ih =>
      rw [formula_cons, formula_append] at formula
      exact ComparesOnce.enclosed (ih formula.2.1)
  | noArgs => exact ComparesOnce.enclosed (KeepsFlags.comparesOnce .nil)
  | args _ ih =>
      rw [formula_cons, formula_append] at formula
      exact ComparesOnce.enclosed (ih formula.2.1)
  | oneExpr _ ih => exact ih formula
  -- What is left has a token of another kind, or no flags.
  | _ => first | exact True.intro | simp [Token.isFormula] at formula

/-! ## Two comparisons at one level -/

/--
Whether all parentheses are closed again, and no `and`, `or` or `xor` stands outside them, given the
number of those that are open.
-/
def flat : Nat → List Token → Bool
  | depth, [] => depth == 0
  | depth, t :: ts =>
    match t.role, depth with
    | .opening, depth => flat (depth + 1) ts
    | .closing, 0 => false
    | .closing, depth + 1 => flat depth ts
    | .joining, 0 => false
    | _, depth => flat depth ts

/-- After a comparison and a flat middle the comparison is still there. -/
theorem flagsAfter_flat {ts : List Token} {inner outer : List Bool}
    (is_flat : flat inner.length ts = true) :
    flagsAfter ts (inner ++ true :: outer) = none ∨
      flagsAfter ts (inner ++ true :: outer) = some (true :: outer) := by
  induction ts generalizing inner with
  | nil =>
      obtain rfl : inner = [] := by simpa [flat] using is_flat
      exact Or.inr rfl
  | cons t ts ih =>
      cases inner with
      | nil =>
          cases role : t.role <;> simp [flat, role] at is_flat
          case opening => simpa [flagsAfter, role, Role.flags] using @ih [false] is_flat
          case comparing => simp [flagsAfter, role, Role.flags]
          case other => simpa [flagsAfter, role, Role.flags] using @ih [] is_flat
      | cons seen inner =>
          cases role : t.role <;> simp [flat, role] at is_flat
          case opening =>
            simpa [flagsAfter, role, Role.flags] using @ih (false :: seen :: inner) is_flat
          case closing => simpa [flagsAfter, role, Role.flags] using @ih inner is_flat
          case joining =>
            simpa [flagsAfter, role, Role.flags] using @ih (false :: inner) is_flat
          case comparing =>
            cases seen with
            | true => simp [flagsAfter, role, Role.flags]
            | false =>
                simpa [flagsAfter, role, Role.flags] using @ih (true :: inner) is_flat
          case other => simpa [flagsAfter, role, Role.flags] using @ih (seen :: inner) is_flat

/-- A second comparison at the level of a first one leaves no flags. -/
theorem flagsAfter_chained {before middle after : List Token} {first second : Token}
    (compares : first.role = .comparing) (compares' : second.role = .comparing)
    (is_flat : flat 0 middle = true) (flags : List Bool) :
    flagsAfter (before ++ first :: (middle ++ second :: after)) flags = none := by
  rw [flagsAfter_append]
  cases flagsAfter before flags with
  | none => rfl
  | some flags =>
      cases flags with
      | nil => simp [flagsAfter, compares, Role.flags]
      | cons seen outer =>
          cases seen with
          | true => simp [flagsAfter, compares, Role.flags]
          | false =>
              simp only [Option.bind_some, flagsAfter, compares, Role.flags, Bool.false_eq_true,
                if_false, flagsAfter_append]
              rcases @flagsAfter_flat middle [] outer is_flat with none_left | still_there
              · rw [List.nil_append] at none_left
                rw [none_left]
                rfl
              · rw [List.nil_append] at still_there
                simp [still_there, compares']

/-! ## One definition -/

theorem Derives.varDef_assigns {ts : List Token} {d : VarDef} (derives : Derives .varDef ts d) :
    .punct .assign ∈ ts := by
  cases derives <;> simp

theorem Derives.no_globals {ts : List Token} {ds : List VarDef} (derives : Derives .globals ts ds)
    (formula : Formula ts) : ts = [] := by
  cases derives with
  | noGlobals => rfl
  | globals first =>
      have assigns := formula _ (List.mem_append_left _ first.varDef_assigns)
      simp [Token.isFormula] at assigns

theorem Derives.no_functions {ts : List Token} {fs : List FunctionDef}
    (derives : Derives .functions ts fs) (formula : Formula ts) : ts = [] := by
  cases derives with
  | noFunctions => rfl
  | functions first =>
      cases first
      simp [Token.isFormula] at formula

/-- A text of one definition, whose value is written with operators, names and parentheses. -/
theorem Derives.value_of_program {type name : String} {body : List Token} {program : Program}
    (derives : Derives .program (.identifier type :: .identifier name :: .punct .assign :: body)
      program) (formula : Formula body) : ∃ value, Derives (.expr .expression) body value := by
  generalize tokens_eq :
    Token.identifier type :: .identifier name :: .punct .assign :: body = tokens at derives
  cases derives with
  | program globals functions =>
      cases globals with
      | noGlobals =>
          cases functions with
          | noFunctions => simp at tokens_eq
          | functions first => cases first; simp at tokens_eq
      | globals first others =>
          cases first with
          | constant => simp at tokens_eq
          | «variable» is_type value =>
              cases is_type with
              | funType => simp at tokens_eq
              | namedType =>
                  simp only [List.cons_append, List.nil_append, List.cons.injEq] at tokens_eq
                  obtain ⟨-, -, -, rfl⟩ := tokens_eq
                  simp only [formula_append] at formula
                  obtain rfl := others.no_globals formula.1.2
                  obtain rfl := functions.no_functions formula.2
                  exact ⟨_, by simpa using value⟩

/-- Tokens of operators, names and parentheses are neither malformed nor numbers. -/
theorem Token.isSound_of_isFormula {t : Token} (formula : t.isFormula = true) :
    t.isSound = true ∧ t.literal? = none := by
  cases t <;> simp_all [isFormula, isSound, literal?]

namespace Reading

/-- The tokens of an accepted source derive its program. -/
theorem exists_derivation {limits : Limits} {source : Source} {program : Program}
    (accepted : (ofSource limits source).accepted? = some program) :
    ∃ tokens, SpellsRest tokens (Position.ofText source.text).skipGap.rest ∧ AllSound tokens ∧
      Derives .program tokens program := by
  obtain ⟨reading, read⟩ := Option.isSome_iff_exists.mp (run?_isSome true limits source)
  rw [ofSource, read, Option.getD_some] at accepted
  obtain ⟨repeats, enough⟩ := enough_ahead (Position.leadsTo_skipGap (.ofText source.text))
  unfold run? at read
  obtain ⟨-, ⟨pieces, stop, before, after, globals, functions, spelled, ends, tokens_eq, sound,
    derives_globals, derives_functions, -, rfl⟩⟩ :=
      definitions_accepted repeats enough read accepted
  refine ⟨before ++ after, ?_, sound, .program derives_globals derives_functions⟩
  rw [← tokens_eq]
  exact spelled.spellsRest ends

/-- A comparison that is followed by a second one at the same level is not accepted. -/
theorem not_accepted_of_chained (limits : Limits) {source : Source} {type name : String}
    {before middle after : List Token} {first second : Token}
    (spells : Spells (.identifier type :: .identifier name :: .punct .assign ::
      (before ++ first :: (middle ++ second :: after))) source.text.toList)
    (formula : Formula (before ++ first :: (middle ++ second :: after)))
    (compares : first.role = .comparing) (compares' : second.role = .comparing)
    (is_flat : flat 0 middle = true) : (ofSource limits source).accepted? = none := by
  by_contra present
  obtain ⟨program, accepted⟩ := Option.ne_none_iff_exists'.mp present
  obtain ⟨tokens, spells', sound', derives⟩ := exists_derivation accepted
  obtain ⟨text, skips, spells⟩ := spells
  have plain : ∀ t ∈ Token.identifier type :: .identifier name :: .punct .assign ::
      (before ++ first :: (middle ++ second :: after)),
      t.isSound = true ∧ t.literal? = none := by
    simp only [List.forall_mem_cons]
    exact ⟨⟨rfl, rfl⟩, ⟨rfl, rfl⟩, ⟨rfl, rfl⟩,
      fun t member => Token.isSound_of_isFormula (formula t member)⟩
  have starts : (Position.ofText source.text).skipGap.rest = text :=
    skips.rest_skipFrom (spells.piece? fun t member => (plain t member).1) _
  rw [starts] at spells'
  obtain rfl := spells.eq_of_no_number spells' (fun t member => (plain t member).1)
    (fun t member => (plain t member).2) sound'
  obtain ⟨value, derives_value⟩ := derives.value_of_program formula
  obtain ⟨seen, flags_eq⟩ : ∃ seen, flagsAfter _ [false] = some [seen] :=
    derives_value.flags formula []
  rw [flagsAfter_chained compares compares' is_flat] at flags_eq
  exact absurd flags_eq (by simp)

end Reading

end Formwork
