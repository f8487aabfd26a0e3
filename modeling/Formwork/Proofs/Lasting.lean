import Formwork.Grammar.Machine
import Formwork.Proofs.Piece

/-!
# What lasts while a phrase is read

Reading a phrase changes the state in few ways: it notes what was looked for in vain, it notes
malformed numbers and gives them up, it notes where nesting went too deep, and it rearranges
operands and dead ends. A relation between states that each of these respects (`Lasting`) holds
between the state before and the state after any phrase. Depth, places and the record of failures
are instances.
-/

namespace Formwork

/-- A relation from earlier to later states that each step of reading from `start` on respects. -/
structure Lasting (start : Position) (R : State → State → Prop) : Prop where
  refl : ∀ s, R s s
  trans : ∀ {s t u}, R s t → R t u → R s u
  expect : ∀ {p} (s label), start.LeadsTo p → R s (s.expect p label)
  /-- Operands, the last place and dead ends do not matter. -/
  rearrange : ∀ (s : State) operands lastEnd deadEnds, R s { s with operands, lastEnd, deadEnds }
  note : ∀ {p : Position} {bad lexeme} (s : State), start.LeadsTo p →
    p.number = .malformed bad lexeme →
    R s { s with pending := s.pending ++ [⟨bad, lexeme.text⟩] }
  giveUp : ∀ (s : State) kept, R s
    { s with abandoned := s.abandoned ++ s.pending.drop kept, pending := s.pending.take kept }
  tooDeep : ∀ {p} (s : State), start.LeadsTo p →
    R s { s with tooDeep := s.tooDeep <|> some p }
  nested : ∀ {s t : State},
    R { s with depth := s.depth + 1 } t → R s { t with depth := t.depth - 1 }

/-- The outcome stands ahead of `start` and its state is related to the state before. -/
def Outcome.Keeps (start : Position) (R : State → State → Prop) (s : State) : Outcome → Prop
  | .matched p t => start.LeadsTo p ∧ R s t
  | .missed t => R s t
  | .broken => True

/-- A reader respects a relation between states. -/
def Reader.Keeps (start : Position) (R : State → State → Prop) (read : Reader) : Prop :=
  ∀ s p, start.LeadsTo p → (read s p).Keeps start R s

namespace Lasting

variable {start : Position} {R : State → State → Prop} (lasting : Lasting start R)
include lasting

theorem accept (s : State) (lexeme : Lexeme) (operand : Option Operand) :
    R s (s.accept lexeme operand) := by
  cases operand with
  | none => exact lasting.rearrange s s.operands lexeme.stop s.deadEnds
  | some operand =>
      exact lasting.rearrange s (s.operands.push operand) lexeme.stop s.deadEnds

theorem outcome_trans {s t : State} {o : Outcome} (first : R s t) (second : o.Keeps start R t) :
    o.Keeps start R s := by
  cases o with
  | matched p u => exact ⟨second.1, lasting.trans first second.2⟩
  | missed u => exact lasting.trans first second
  | broken => trivial

theorem token (t : Terminal) (leaf : Leaf) : Reader.Keeps start R (Reader.token t leaf) := by
  intro s p ahead
  unfold Reader.token
  split
  · rename_i lexeme found
    obtain ⟨piece, -, rfl, here⟩ := Terminal.match?_spec found
    exact ⟨ahead.trans here.leadsTo, lasting.accept s piece.lexeme _⟩
  · exact lasting.expect s t.label ahead

theorem number : Reader.Keeps start R Reader.number := by
  intro s p ahead
  unfold Reader.number
  split
  · rename_i value lexeme found
    obtain ⟨literal, text_eq, -, here⟩ := Position.number_spec found
    exact ⟨ahead.trans here.leadsTo, lasting.accept s lexeme _⟩
  · rename_i bad lexeme found
    obtain ⟨literal, tail, text_eq, -, here⟩ := Position.malformed_spec found
    exact ⟨ahead.trans here.leadsTo, lasting.trans (lasting.note s ahead found)
      (lasting.accept _ lexeme _)⟩
  · exact lasting.expect s "number" ahead

theorem andThen {first second : Reader} (keeps_first : first.Keeps start R)
    (keeps_second : second.Keeps start R) : (first.andThen second).Keeps start R := by
  intro s p ahead
  have one := keeps_first s p ahead
  unfold Reader.andThen
  cases outcome : first s p with
  | matched q t =>
      rw [outcome] at one
      exact lasting.outcome_trans one.2 (keeps_second t q one.1)
  | missed t =>
      rw [outcome] at one
      exact one
  | broken => trivial

theorem attempt {read : Reader} (keeps : read.Keeps start R) : read.attempt.Keeps start R := by
  intro s p ahead
  have inner := keeps s p ahead
  unfold Reader.attempt
  cases outcome : read s p with
  | matched q t =>
      rw [outcome] at inner
      exact inner
  | missed t =>
      rw [outcome] at inner
      refine lasting.trans inner (lasting.trans (lasting.giveUp t s.pending.length) ?_)
      exact lasting.rearrange _ _ _ t.deadEnds
  | broken => trivial

theorem orElse {first second : Reader} (keeps_first : first.Keeps start R)
    (keeps_second : second.Keeps start R) : (first.orElse second).Keeps start R := by
  intro s p ahead
  have one := lasting.attempt keeps_first s p ahead
  unfold Reader.orElse
  cases outcome : first.attempt s p with
  | matched q t =>
      rw [outcome] at one
      exact one
  | missed t =>
      rw [outcome] at one
      exact lasting.outcome_trans one (keeps_second t p ahead)
  | broken => trivial

theorem option {read : Reader} (keeps : read.Keeps start R) : read.option.Keeps start R := by
  intro s p ahead
  have inner := lasting.attempt keeps s p ahead
  unfold Reader.option
  cases outcome : read.attempt s p with
  | matched q t =>
      rw [outcome] at inner
      exact inner
  | missed t =>
      rw [outcome] at inner
      exact ⟨ahead, inner⟩
  | broken => trivial

theorem many {read : Reader} (keeps : read.Keeps start R) (limit : Nat) :
    (read.many limit).Keeps start R := by
  induction limit with
  | zero => exact fun _ _ _ => trivial
  | succ limit ih =>
      intro s p ahead
      have inner := lasting.attempt keeps s p ahead
      unfold Reader.many
      cases outcome : read.attempt s p with
      | matched q t =>
          rw [outcome] at inner
          exact lasting.outcome_trans inner.2 (ih t q inner.1)
      | missed t =>
          rw [outcome] at inner
          exact ⟨ahead, inner⟩
      | broken => trivial

theorem branch (t : Terminal) {yes no : Reader} (keeps_yes : yes.Keeps start R)
    (keeps_no : no.Keeps start R) : (Reader.branch t yes no).Keeps start R := by
  intro s p ahead
  have one := lasting.token t .nothing s p ahead
  unfold Reader.branch
  cases outcome : Reader.token t .nothing s p with
  | matched q u =>
      rw [outcome] at one
      exact lasting.outcome_trans one.2 (keeps_yes u q one.1)
  | missed u =>
      rw [outcome] at one
      exact lasting.outcome_trans one (keeps_no u p ahead)
  | broken => trivial

theorem nest {read : Reader} (keeps : read.Keeps start R) (maxNesting : Nat) :
    (Reader.nested maxNesting read).Keeps start R := by
  intro s p ahead
  unfold Reader.nested
  split
  · exact lasting.tooDeep s ahead
  · have inner := keeps { s with depth := s.depth + 1 } p ahead
    cases outcome : read { s with depth := s.depth + 1 } p with
    | matched q t =>
        rw [outcome] at inner
        exact ⟨inner.1, lasting.nested inner.2⟩
    | missed t =>
        rw [outcome] at inner
        exact lasting.nested inner
    | broken => trivial

theorem remembered (memo : Memo) {read : Reader} (keeps : read.Keeps start R) :
    (Reader.remembered memo read).Keeps start R := by
  intro s p ahead
  unfold Reader.remembered
  split
  · exact lasting.refl s
  · have inner := lasting.attempt keeps s p ahead
    cases outcome : read.attempt s p with
    | matched q t =>
        rw [outcome] at inner
        exact inner
    | missed t =>
        rw [outcome] at inner
        simp only
        split
        · exact lasting.trans inner (lasting.rearrange t t.operands t.lastEnd _)
        · exact inner
    | broken => trivial

theorem afterIndex (frame : Frame) {read : Reader} (keeps : read.Keeps start R) :
    (Reader.afterIndex frame read).Keeps start R := by
  intro s p ahead
  unfold Reader.afterIndex
  split
  · split
    · exact lasting.option keeps s p ahead
    · exact ⟨ahead, lasting.refl s⟩
  · exact ⟨ahead, lasting.refl s⟩

theorem reduce (r : Reduction) (frame : Frame) : (Reader.reduce r frame).Keeps start R := by
  intro s p ahead
  unfold Reader.reduce
  simp only
  split
  · exact ⟨ahead, lasting.rearrange s _ s.lastEnd s.deadEnds⟩
  · trivial

/-- What lasts through the rules lasts through every phrase. -/
theorem phrase (settings : Settings) {rule : Rule → Reader}
    (rules : ∀ r, (rule r).Keeps start R) (frame : Frame) (phrase : Phrase) :
    (phrase.run settings rule frame).Keeps start R := by
  induction phrase with
  | token t leaf => exact lasting.token t leaf
  | number => exact lasting.number
  | rule r => exact rules r
  | seq first second ih_first ih_second => exact lasting.andThen ih_first ih_second
  | choice first second ih_first ih_second => exact lasting.orElse ih_first ih_second
  | branch t yes no ih_yes ih_no => exact lasting.branch t ih_yes ih_no
  | attempt phrase ih => exact lasting.attempt ih
  | option phrase ih => exact lasting.option ih
  | many phrase ih => exact lasting.many ih settings.repeats
  | nested phrase ih => exact lasting.nest ih settings.maxNesting
  | remembered memo phrase ih =>
      unfold Phrase.run
      split
      · exact lasting.remembered memo ih
      · exact lasting.attempt ih
  | afterIndex phrase ih => exact lasting.afterIndex frame ih
  | reduce r => exact lasting.reduce r frame

/-- A lasting relation lasts through every rule. -/
theorem rule (settings : Settings) (fuel : Nat) (r : Rule) :
    (Rule.run settings fuel r).Keeps start R := by
  induction fuel generalizing r with
  | zero => exact fun _ _ _ => trivial
  | succ fuel ih =>
      intro s p ahead
      exact lasting.phrase settings ih _ r.phrase s p ahead

end Lasting

/-! ## Instances -/

/-- The depth after a phrase is the depth before it. -/
theorem Lasting.depth (start : Position) : Lasting start fun s t => t.depth = s.depth where
  refl _ := rfl
  trans first second := second.trans first
  expect s label ahead := by
    unfold State.expect
    split
    · rfl
    · split <;> rfl
  rearrange _ _ _ _ := rfl
  note _ _ _ := rfl
  giveUp _ _ := rfl
  tooDeep _ _ := rfl
  nested same := by simp only at same ⊢; omega

/-- Where nesting first went too deep is not forgotten. -/
theorem Lasting.overrun (start : Position) :
    Lasting start fun s t => t.tooDeep = none → s.tooDeep = none where
  refl _ free := free
  trans first second free := first (second free)
  expect s label ahead free := by
    unfold State.expect at free
    split at free
    · exact free
    · split at free <;> exact free
  rearrange _ _ _ _ free := free
  note _ _ _ free := free
  giveUp _ _ free := free
  tooDeep s ahead free := by
    simp only at free
    cases deep : s.tooDeep with
    | none => rfl
    | some q => simp [deep] at free
  nested kept := kept

/-- The places noted in a state stand ahead of a position. -/
def State.Within (s : State) (start : Position) : Prop :=
  start.LeadsTo s.furthest ∧ ∀ p ∈ s.tooDeep, start.LeadsTo p

/-- Places are noted only ahead of where reading started. -/
theorem Lasting.within (start : Position) :
    Lasting start fun s t => s.Within start → t.Within start where
  refl _ inside := inside
  trans first second inside := second (first inside)
  expect s label ahead inside := by
    unfold State.expect
    split
    · exact ⟨ahead, inside.2⟩
    · split <;> exact inside
  rearrange _ _ _ _ inside := inside
  note _ _ _ inside := inside
  giveUp _ _ inside := inside
  tooDeep s ahead inside := by
    refine ⟨inside.1, ?_⟩
    intro q noted
    cases deep : s.tooDeep with
    | none =>
        simp only [deep, Option.mem_def] at noted
        obtain rfl := Option.some.inj noted
        exact ahead
    | some other =>
        simp only [deep, Option.mem_def] at noted
        exact inside.2 q (by simpa [deep] using noted)
  nested kept inside := kept inside

end Formwork
