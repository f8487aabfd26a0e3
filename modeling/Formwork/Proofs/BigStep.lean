import Formwork.Proofs.Meaning
import Formwork.Proofs.Record

/-!
# Reading without a state

`Phrase.Reads phrase x p v log` says what reading a phrase comes to, as far as the text decides it:
from the pieces and operands `x` and the position `p` to the verdict `v`, with a log of what a
failure would report and of how deep the phrase nests. There is no stack, no limit, no fuel and
nothing remembered. The verdict and the log are determined (`Phrase.Reads.unique`), and what is
matched is what the phrase describes (`Phrase.Reads.takes`).
-/

namespace Formwork

/-- What reading a phrase comes to. -/
inductive Verdict where
  /-- The phrase was read, to these pieces and operands and up to a position. -/
  | matched (y : Yield) (q : Position)
  /-- The phrase does not stand there; the malformed numbers read until it failed. -/
  | missed (pending : List Malformed)

/-- What happens on the way. -/
structure Log where
  /-- What a failure may report, in order. -/
  events : List Event
  /-- How many levels of nesting are entered one inside another. -/
  depth : Nat
  /-- One more than the number of levels around the innermost token read, or zero if none is. -/
  reach : Nat
  /-- Tokens are read only where levels are entered. -/
  reach_le : reach ≤ depth + 1

namespace Log

/-- Nothing happens. -/
def empty : Log := ⟨[], 0, 0, Nat.zero_le _⟩

/-- A token is read. -/
def read : Log := ⟨[], 0, 1, le_rfl⟩

/-- A token is looked for in vain. -/
def sought (p : Position) (label : String) : Log := ⟨[.sought p label], 0, 0, Nat.zero_le _⟩

/-- An attempt from `x` fails with the malformed numbers `pending`. -/
def abandoned (x : Yield) (pending : List Malformed) : Log :=
  ⟨(pending.drop x.malformed.length).map .dropped, 0, 0, Nat.zero_le _⟩

/-- One after another. -/
def append (l m : Log) : Log where
  events := l.events ++ m.events
  depth := max l.depth m.depth
  reach := max l.reach m.reach
  reach_le := by
    have left := l.reach_le
    have right := m.reach_le
    omega

/-- One level deeper. -/
def deeper (l : Log) : Log where
  events := l.events
  depth := l.depth + 1
  reach := if l.reach = 0 then 0 else l.reach + 1
  reach_le := by
    have inside := l.reach_le
    split <;> omega

/-- Tokens stand within the limit where all nesting is within it. -/
theorem reach_within {l : Log} {depth limit : Nat} (within : depth + l.depth ≤ limit) :
    depth + l.reach ≤ limit + 1 := by
  have inside := l.reach_le
  omega

end Log

/-- The piece of a well-formed number. -/
def Piece.number (p : Position) (literal : Literal) (after : List Char) : Piece :=
  ⟨.number literal, Lexeme.ofChars p literal.chars after, rfl⟩

/-- The piece of a malformed number. -/
def Piece.malformed (p : Position) (literal : Literal) (after : List Char) : Piece :=
  let tail := Literal.spoiledTail after
  ⟨.malformed literal tail, Lexeme.ofChars p (literal.chars ++ tail) (after.drop tail.length), rfl⟩

/-- What reading a phrase comes to, from what was read since its rule started. -/
inductive Phrase.Reads : Phrase → Yield → Position → Verdict → Log → Prop where
  | token {t : Terminal} {leaf : Leaf} {x : Yield} {p : Position} {piece : Piece} :
      t.match? p = some piece.lexeme → t.Accepts piece.token → piece.At p →
      Reads (.token t leaf) x p
        (.matched (x.read piece (leaf.operand? piece.lexeme).toList) piece.lexeme.next) .read
  | noToken {t : Terminal} {leaf : Leaf} {x : Yield} {p : Position} :
      t.match? p = none →
      Reads (.token t leaf) x p (.missed x.malformed) (.sought p t.label)
  | number {x : Yield} {p : Position} {literal : Literal} {after : List Char} :
      Literal.read? p.rest = some (literal, after) → literal.spoiledBy after = false →
      Reads .number x p
        (.matched (x.read (.number p literal after)
          [.expr (.number literal.value (Piece.number p literal after).lexeme.span)])
          (Piece.number p literal after).lexeme.next) .read
  | malformed {x : Yield} {p : Position} {literal : Literal} {after : List Char} :
      Literal.read? p.rest = some (literal, after) → literal.spoiledBy after = true →
      Reads .number x p
        (.matched (x.read (.malformed p literal after)
          [.expr (.number 0 (Piece.malformed p literal after).lexeme.span)])
          (Piece.malformed p literal after).lexeme.next) .read
  | noNumber {x : Yield} {p : Position} :
      Literal.read? p.rest = none →
      Reads .number x p (.missed x.malformed) (.sought p "number")
  | rule {r : Rule} {x z : Yield} {p q : Position} {l : Log} :
      Reads r.phrase .empty p (.matched z q) l →
      Reads (.rule r) x p (.matched (x.append z) q) l
  | noRule {r : Rule} {x : Yield} {p : Position} {pending : List Malformed} {l : Log} :
      Reads r.phrase .empty p (.missed pending) l →
      Reads (.rule r) x p (.missed (x.malformed ++ pending)) l
  | seq {first second : Phrase} {x y : Yield} {p q : Position} {v : Verdict} {l m : Log} :
      Reads first x p (.matched y q) l → Reads second y q v m →
      Reads (.seq first second) x p v (l.append m)
  | noSeq {first second : Phrase} {x : Yield} {p : Position} {pending : List Malformed} {l : Log} :
      Reads first x p (.missed pending) l →
      Reads (.seq first second) x p (.missed pending) l
  | first {first second : Phrase} {x y : Yield} {p q : Position} {l : Log} :
      Reads first x p (.matched y q) l →
      Reads (.choice first second) x p (.matched y q) l
  | second {first second : Phrase} {x : Yield} {p : Position} {pending : List Malformed}
      {v : Verdict} {l m : Log} :
      Reads first x p (.missed pending) l → Reads second x p v m →
      Reads (.choice first second) x p v (l.append ((Log.abandoned x pending).append m))
  | yes {t : Terminal} {yes no : Phrase} {x : Yield} {p : Position} {piece : Piece} {v : Verdict}
      {l : Log} :
      t.match? p = some piece.lexeme → t.Accepts piece.token → piece.At p →
      Reads yes (x.read piece []) piece.lexeme.next v l →
      Reads (.branch t yes no) x p v (Log.read.append l)
  | no {t : Terminal} {yes no : Phrase} {x : Yield} {p : Position} {v : Verdict} {l : Log} :
      t.match? p = none → Reads no x p v l →
      Reads (.branch t yes no) x p v ((Log.sought p t.label).append l)
  | attempt {phrase : Phrase} {x y : Yield} {p q : Position} {l : Log} :
      Reads phrase x p (.matched y q) l → Reads (.attempt phrase) x p (.matched y q) l
  | noAttempt {phrase : Phrase} {x : Yield} {p : Position} {pending : List Malformed} {l : Log} :
      Reads phrase x p (.missed pending) l →
      Reads (.attempt phrase) x p (.missed x.malformed) (l.append (.abandoned x pending))
  | option {phrase : Phrase} {x y : Yield} {p q : Position} {l : Log} :
      Reads phrase x p (.matched y q) l → Reads (.option phrase) x p (.matched y q) l
  | noOption {phrase : Phrase} {x : Yield} {p : Position} {pending : List Malformed} {l : Log} :
      Reads phrase x p (.missed pending) l →
      Reads (.option phrase) x p (.matched x p) (l.append (.abandoned x pending))
  | more {phrase : Phrase} {x y : Yield} {p q : Position} {v : Verdict} {l m : Log} :
      Reads phrase x p (.matched y q) l → Reads (.many phrase) y q v m →
      Reads (.many phrase) x p v (l.append m)
  | done {phrase : Phrase} {x : Yield} {p : Position} {pending : List Malformed} {l : Log} :
      Reads phrase x p (.missed pending) l →
      Reads (.many phrase) x p (.matched x p) (l.append (.abandoned x pending))
  | nested {phrase : Phrase} {x : Yield} {p : Position} {v : Verdict} {l : Log} :
      Reads phrase x p v l → Reads (.nested phrase) x p v l.deeper
  | remembered {memo : Memo} {phrase : Phrase} {x : Yield} {p : Position} {v : Verdict} {l : Log} :
      Reads (.attempt phrase) x p v l → Reads (.remembered memo phrase) x p v l
  | afterIndex {phrase : Phrase} {x : Yield} {p : Position} {v : Verdict} {l : Log} :
      x.EndsInIndex → Reads (.option phrase) x p v l → Reads (.afterIndex phrase) x p v l
  | notAfterIndex {phrase : Phrase} {x : Yield} {p : Position} :
      ¬ x.EndsInIndex → Reads (.afterIndex phrase) x p (.matched x p) .empty
  | reduce {r : Reduction} {x : Yield} {p : Position} {operand : Operand} :
      x.pieces ≠ [] →
      r.build? x.span (x.operands.drop (r.kept x.operands.length)) = some operand →
      Reads (.reduce r) x p
        (.matched ⟨x.pieces, x.operands.take (r.kept x.operands.length) ++ [operand]⟩ p) .empty

namespace Phrase.Reads

/-- What is matched is what the phrase describes. -/
theorem takes {spec : Rule → Yield → Prop}
    (closed : ∀ r y, r.phrase.Takes spec .empty y → spec r y) {phrase : Phrase} {x : Yield}
    {p : Position} {v : Verdict} {l : Log} (reads : phrase.Reads x p v l) {y : Yield}
    {q : Position} (matched : v = .matched y q) : phrase.Takes spec x y := by
  induction reads generalizing y q with
  | token _ accepts _ =>
      obtain ⟨rfl, -⟩ := Verdict.matched.inj matched
      exact ⟨_, accepts, rfl⟩
  | number _ _ =>
      obtain ⟨rfl, -⟩ := Verdict.matched.inj matched
      exact ⟨_, Or.inl ⟨_, rfl, rfl⟩⟩
  | malformed _ _ =>
      obtain ⟨rfl, -⟩ := Verdict.matched.inj matched
      exact ⟨_, Or.inr ⟨_, _, rfl, rfl⟩⟩
  | @rule r _ z _ _ _ _ ih =>
      obtain ⟨rfl, -⟩ := Verdict.matched.inj matched
      exact ⟨z, closed r z (ih rfl), rfl⟩
  | seq _ _ ih_first ih_second => exact ⟨_, ih_first rfl, ih_second matched⟩
  | first _ ih => exact Or.inl (ih matched)
  | second _ _ _ ih => exact Or.inr (ih matched)
  | yes _ accepts _ _ ih => exact Or.inl ⟨_, accepts, ih matched⟩
  | no _ _ ih => exact Or.inr (ih matched)
  | attempt _ ih => exact ih matched
  | option _ ih => exact Or.inl (ih matched)
  | noOption _ _ =>
      obtain ⟨rfl, -⟩ := Verdict.matched.inj matched
      exact Or.inr rfl
  | more _ _ ih_first ih_others => exact .head (ih_first rfl) (ih_others matched)
  | done _ _ =>
      obtain ⟨rfl, -⟩ := Verdict.matched.inj matched
      exact .refl
  | nested _ ih => exact ih matched
  | remembered _ ih => exact ih matched
  | afterIndex ends _ ih => exact (ih matched).imp_left fun inner => ⟨ends, inner⟩
  | notAfterIndex _ =>
      obtain ⟨rfl, -⟩ := Verdict.matched.inj matched
      exact Or.inr rfl
  | reduce _ built =>
      obtain ⟨rfl, -⟩ := Verdict.matched.inj matched
      exact ⟨_, _, fun _ => rfl, built, rfl⟩
  | _ => exact absurd matched (by simp)

/-- What is matched has all pieces read before, and more. -/
theorem pieces {phrase : Phrase} {x y : Yield} {p q : Position} {l : Log}
    (reads : phrase.Reads x p (.matched y q) l) : x.pieces <+: y.pieces := by
  have described : phrase.Takes (fun _ _ => True) x y := reads.takes (fun _ _ _ => trivial) rfl
  exact described.pieces

/-- A failure gives up no number that was read before. -/
theorem pending {phrase : Phrase} {x : Yield} {p : Position} {v : Verdict} {l : Log}
    (reads : phrase.Reads x p v l) {pending : List Malformed} (missed : v = .missed pending) :
    x.malformed <+: pending := by
  have longer {x y : Yield} (more : x.pieces <+: y.pieces) : x.malformed <+: y.malformed :=
    more.filterMap _
  induction reads with
  | noToken _ => obtain rfl := Verdict.missed.inj missed; exact List.prefix_refl _
  | noNumber _ => obtain rfl := Verdict.missed.inj missed; exact List.prefix_refl _
  | noRule _ _ => obtain rfl := Verdict.missed.inj missed; exact List.prefix_append _ _
  | seq first _ _ ih => exact (longer first.pieces).trans (ih missed)
  | noSeq _ ih => exact ih missed
  | second _ _ _ ih => exact ih missed
  | yes _ _ _ _ ih => exact (longer (List.prefix_append _ _)).trans (ih missed)
  | no _ _ ih => exact ih missed
  | noAttempt _ _ => obtain rfl := Verdict.missed.inj missed; exact List.prefix_refl _
  | more first _ _ ih => exact (longer first.pieces).trans (ih missed)
  | nested _ ih => exact ih missed
  | remembered _ ih => exact ih missed
  | afterIndex _ _ ih => exact ih missed
  | _ => exact absurd missed (by simp)

end Phrase.Reads

/-! ## Readings without a token -/

namespace Phrase

/-- Whether a phrase matches only where a token can be read. -/
def consumes : Phrase → Bool
  | .token .. | .number | .rule _ => true
  | .seq first second => first.consumes || second.consumes
  | .choice first second => first.consumes && second.consumes
  | .branch _ _ no => no.consumes
  | .attempt phrase | .nested phrase | .remembered _ phrase => phrase.consumes
  | .option _ | .many _ | .afterIndex _ | .reduce _ => false

theorem consumes_phrase (r : Rule) : r.phrase.consumes = true := by
  cases r <;> rfl

end Phrase

/-- What a verdict says if no token was read: nothing was added, and nothing was to be read. -/
def Verdict.Still (phrase : Phrase) (x : Yield) : Verdict → Prop
  | .matched y _ => y.pieces = x.pieces ∧ phrase.consumes = false
  | .missed pending => pending = x.malformed

theorem Log.reach_append_eq_zero {l m : Log} :
    (l.append m).reach = 0 ↔ l.reach = 0 ∧ m.reach = 0 := by
  simp only [Log.append]
  omega

theorem Log.reach_deeper_eq_zero {l : Log} : l.deeper.reach = 0 ↔ l.reach = 0 := by
  simp [Log.deeper]

/-- A reading without a token adds nothing. -/
theorem Phrase.Reads.still {phrase : Phrase} {x : Yield} {p : Position} {v : Verdict} {l : Log}
    (reads : phrase.Reads x p v l) (still : l.reach = 0) : v.Still phrase x := by
  have malformed_eq {x y : Yield} (same : y.pieces = x.pieces) : y.malformed = x.malformed := by
    rw [Yield.malformed, Yield.malformed, same]
  induction reads with
  | token _ _ _ => exact absurd still (by simp [Log.read])
  | number _ _ => exact absurd still (by simp [Log.read])
  | malformed _ _ => exact absurd still (by simp [Log.read])
  | noToken _ => rfl
  | noNumber _ => rfl
  | @rule r _ _ _ _ _ _ ih =>
      have consumes := (ih still).2
      rw [consumes_phrase r] at consumes
      exact absurd consumes (by simp)
  | noRule _ ih =>
      rw [Verdict.Still, ih still]
      exact List.append_nil _
  | @seq first second x y p q v l m _ _ ih_first ih_second =>
      obtain ⟨still_first, still_second⟩ := Log.reach_append_eq_zero.mp still
      obtain ⟨same, none_first⟩ := ih_first still_first
      have rest := ih_second still_second
      cases v with
      | matched z _ => exact ⟨rest.1.trans same, by simp [consumes, none_first, rest.2]⟩
      | missed pending => exact Eq.trans rest (malformed_eq same)
  | noSeq _ ih => exact ih still
  | first _ ih => exact ⟨(ih still).1, by simp [consumes, (ih still).2]⟩
  | @second first second x p pending v l m _ _ _ ih_second =>
      have still_second := (Log.reach_append_eq_zero.mp (Log.reach_append_eq_zero.mp still).2).2
      have rest := ih_second still_second
      cases v with
      | matched z _ => exact ⟨rest.1, by simp [consumes, rest.2]⟩
      | missed pending => exact rest
  | yes _ _ _ _ _ =>
      have read := (Log.reach_append_eq_zero.mp still).1
      exact absurd read (by simp [Log.read])
  | @no t yes no x p v l _ _ ih =>
      have rest := ih (Log.reach_append_eq_zero.mp still).2
      cases v with
      | matched z _ => exact rest
      | missed pending => exact rest
  | attempt _ ih => exact ih still
  | noAttempt _ _ => rfl
  | option _ ih => exact ⟨(ih still).1, rfl⟩
  | noOption _ _ => exact ⟨rfl, rfl⟩
  | @more phrase x y p q v l m _ _ ih_first ih_others =>
      obtain ⟨still_first, still_others⟩ := Log.reach_append_eq_zero.mp still
      obtain ⟨same, -⟩ := ih_first still_first
      have rest := ih_others still_others
      cases v with
      | matched z _ => exact ⟨rest.1.trans same, rfl⟩
      | missed pending => exact Eq.trans rest (malformed_eq same)
  | done _ _ => exact ⟨rfl, rfl⟩
  | @nested phrase x p v l _ ih =>
      have inside := ih (Log.reach_deeper_eq_zero.mp still)
      cases v with
      | matched z _ => exact inside
      | missed pending => exact inside
  | @remembered memo phrase x p v l _ ih =>
      have inside := ih still
      cases v with
      | matched z _ => exact inside
      | missed pending => exact inside
  | @afterIndex phrase x p v l _ _ ih =>
      have inside := ih still
      cases v with
      | matched z _ => exact ⟨inside.1, rfl⟩
      | missed pending => exact inside
  | notAfterIndex _ => exact ⟨rfl, rfl⟩
  | reduce _ _ => exact ⟨rfl, rfl⟩

/-- A terminal gives one piece at a place. -/
theorem Terminal.Accepts.unique {t : Terminal} {piece other : Piece}
    (accepts : t.Accepts piece.token) (accepts' : t.Accepts other.token)
    (same : piece.lexeme = other.lexeme) : piece = other := by
  have token_eq : piece.token = other.token := by
    cases t with
    | keyword k => exact Eq.trans accepts (Eq.symm accepts')
    | punct q => exact Eq.trans accepts (Eq.symm accepts')
    | identifier =>
        obtain ⟨name, name_eq⟩ := accepts
        obtain ⟨name', name_eq'⟩ := accepts'
        have text_eq := piece.text_eq
        have text_eq' := other.text_eq
        rw [name_eq, Token.chars, String.ofList_toList] at text_eq
        rw [name_eq', Token.chars, String.ofList_toList] at text_eq'
        rw [name_eq, name_eq', ← text_eq, ← text_eq', same]
  obtain ⟨token, lexeme, text_eq⟩ := piece
  obtain ⟨token', lexeme', text_eq'⟩ := other
  simp only at token_eq same
  subst token_eq same
  rfl

/-- The text decides what reading a phrase comes to. -/
theorem Phrase.Reads.unique {phrase : Phrase} {x : Yield} {p : Position} {v w : Verdict}
    {l m : Log} (one : phrase.Reads x p v l) (two : phrase.Reads x p w m) : v = w ∧ l = m := by
  induction one generalizing w m with
  | token found accepts here =>
      cases two with
      | token found' accepts' here' =>
          have same := Option.some.inj (found.symm.trans found')
          rw [accepts.unique accepts' same]
          exact ⟨rfl, rfl⟩
      | noToken absent => simp [absent] at found
  | noToken absent =>
      cases two with
      | token found _ _ => simp [absent] at found
      | noToken _ => exact ⟨rfl, rfl⟩
  | number read sound =>
      cases two with
      | number read' _ =>
          obtain ⟨rfl, rfl⟩ := Prod.mk.inj (Option.some.inj (read.symm.trans read'))
          exact ⟨rfl, rfl⟩
      | malformed read' spoiled =>
          obtain ⟨rfl, rfl⟩ := Prod.mk.inj (Option.some.inj (read.symm.trans read'))
          simp [sound] at spoiled
      | noNumber absent => simp [absent] at read
  | malformed read spoiled =>
      cases two with
      | number read' sound =>
          obtain ⟨rfl, rfl⟩ := Prod.mk.inj (Option.some.inj (read.symm.trans read'))
          simp [sound] at spoiled
      | malformed read' _ =>
          obtain ⟨rfl, rfl⟩ := Prod.mk.inj (Option.some.inj (read.symm.trans read'))
          exact ⟨rfl, rfl⟩
      | noNumber absent => simp [absent] at read
  | noNumber absent =>
      cases two with
      | number read _ => simp [absent] at read
      | malformed read _ => simp [absent] at read
      | noNumber _ => exact ⟨rfl, rfl⟩
  | rule _ ih =>
      cases two with
      | rule inner =>
          obtain ⟨same, rfl⟩ := ih inner
          obtain ⟨rfl, rfl⟩ := Verdict.matched.inj same
          exact ⟨rfl, rfl⟩
      | noRule inner => simpa using (ih inner).1
  | noRule _ ih =>
      cases two with
      | rule inner => simpa using (ih inner).1
      | noRule inner =>
          obtain ⟨same, rfl⟩ := ih inner
          obtain rfl := Verdict.missed.inj same
          exact ⟨rfl, rfl⟩
  | seq _ _ ih_first ih_second =>
      cases two with
      | seq first second =>
          obtain ⟨same, rfl⟩ := ih_first first
          obtain ⟨rfl, rfl⟩ := Verdict.matched.inj same
          obtain ⟨rfl, rfl⟩ := ih_second second
          exact ⟨rfl, rfl⟩
      | noSeq first => simpa using (ih_first first).1
  | noSeq _ ih =>
      cases two with
      | seq first _ => simpa using (ih first).1
      | noSeq first => exact ih first
  | first _ ih =>
      cases two with
      | first inner => exact ih inner
      | second inner _ => simpa using (ih inner).1
  | second _ _ ih_first ih_second =>
      cases two with
      | first inner => simpa using (ih_first inner).1
      | second first second =>
          obtain ⟨same, rfl⟩ := ih_first first
          obtain rfl := Verdict.missed.inj same
          obtain ⟨rfl, rfl⟩ := ih_second second
          exact ⟨rfl, rfl⟩
  | yes found accepts _ _ ih =>
      cases two with
      | yes found' accepts' _ inner =>
          obtain rfl := accepts.unique accepts' (Option.some.inj (found.symm.trans found'))
          obtain ⟨rfl, rfl⟩ := ih inner
          exact ⟨rfl, rfl⟩
      | no absent _ => simp [absent] at found
  | no absent _ ih =>
      cases two with
      | yes found _ _ _ => simp [absent] at found
      | no _ inner =>
          obtain ⟨rfl, rfl⟩ := ih inner
          exact ⟨rfl, rfl⟩
  | attempt _ ih =>
      cases two with
      | attempt inner => exact ih inner
      | noAttempt inner => simpa using (ih inner).1
  | noAttempt _ ih =>
      cases two with
      | attempt inner => simpa using (ih inner).1
      | noAttempt inner =>
          obtain ⟨same, rfl⟩ := ih inner
          obtain rfl := Verdict.missed.inj same
          exact ⟨rfl, rfl⟩
  | option _ ih =>
      cases two with
      | option inner => exact ih inner
      | noOption inner => simpa using (ih inner).1
  | noOption _ ih =>
      cases two with
      | option inner => simpa using (ih inner).1
      | noOption inner =>
          obtain ⟨same, rfl⟩ := ih inner
          obtain rfl := Verdict.missed.inj same
          exact ⟨rfl, rfl⟩
  | more _ _ ih_first ih_others =>
      cases two with
      | more first others =>
          obtain ⟨same, rfl⟩ := ih_first first
          obtain ⟨rfl, rfl⟩ := Verdict.matched.inj same
          obtain ⟨rfl, rfl⟩ := ih_others others
          exact ⟨rfl, rfl⟩
      | done first => simpa using (ih_first first).1
  | done _ ih =>
      cases two with
      | more first _ => simpa using (ih first).1
      | done first =>
          obtain ⟨same, rfl⟩ := ih first
          obtain rfl := Verdict.missed.inj same
          exact ⟨rfl, rfl⟩
  | nested _ ih =>
      cases two with
      | nested inner =>
          obtain ⟨rfl, rfl⟩ := ih inner
          exact ⟨rfl, rfl⟩
  | remembered _ ih =>
      cases two with
      | remembered inner => exact ih inner
  | afterIndex ends _ ih =>
      cases two with
      | afterIndex _ inner => exact ih inner
      | notAfterIndex not_ends => exact absurd ends not_ends
  | notAfterIndex not_ends =>
      cases two with
      | afterIndex ends _ => exact absurd ends not_ends
      | notAfterIndex _ => exact ⟨rfl, rfl⟩
  | reduce _ built =>
      cases two with
      | reduce _ built' =>
          obtain rfl := Option.some.inj (built.symm.trans built')
          exact ⟨rfl, rfl⟩

end Formwork
