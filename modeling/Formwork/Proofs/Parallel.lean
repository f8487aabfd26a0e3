import Mathlib.Data.Option.Basic
import Formwork.Proofs.Bare
import Formwork.Proofs.Sound

/-!
# One grammar on two texts

Two machines read two texts. If their positions correspond, so that scans find the same on both
sides and go on at corresponding positions, then both come to the same: the same phrases match, the
operands are equal up to spans, and a rule is known to fail on one side where it is on the other.
The fuel and the number of repetitions need not be the same, so one of the two may be `broken` where
the other is not.
-/

namespace Formwork

/-! ## Corresponding positions -/

/-- Two scans for a number find the same. -/
def NumberScan.Parallel (R : Position → Position → Prop) : NumberScan → NumberScan → Prop
  | .absent, .absent => True
  | .number value lexeme, .number value' lexeme' => value = value' ∧ R lexeme.next lexeme'.next
  | .malformed _ lexeme, .malformed _ lexeme' => R lexeme.next lexeme'.next
  | _, _ => False

/-- Scans find the same at corresponding positions, and go on at corresponding positions. -/
structure Corresponds (R : Position → Position → Prop) : Prop where
  terminal : ∀ {p p'} (t : Terminal), R p p' →
    Option.Rel (fun l l' => l.text = l'.text ∧ R l.next l'.next) (t.match? p) (t.match? p')
  number : ∀ {p p'}, R p p' → p.number.Parallel R p'.number
  offset : ∀ {p p' q q'}, R p p' → R q q' →
    (p.cursor.offset = q.cursor.offset ↔ p'.cursor.offset = q'.cursor.offset)
  isEnd : ∀ {p p'}, R p p' → p.isEnd = p'.isEnd

/-! ## States and outcomes -/

/-- Two states that differ in places only. -/
structure State.Parallel (R : Position → Position → Prop) (s s' : State) : Prop where
  operands : s.operands.items.map Operand.bare = s'.operands.items.map Operand.bare
  pending : s.pending.length = s'.pending.length
  depth : s.depth = s'.depth
  deadEnds : ∀ memo q q', R q q' →
    s.deadEnds.contains memo q.cursor.offset = s'.deadEnds.contains memo q'.cursor.offset
  tooDeep : s.tooDeep.isNone = s'.tooDeep.isNone

/-- Two outcomes that differ in places only, unless one of them is broken. -/
def Outcome.Parallel (R : Position → Position → Prop) : Outcome → Outcome → Prop
  | .matched p s, .matched p' s' => R p p' ∧ s.Parallel R s'
  | .missed s, .missed s' => s.Parallel R s'
  | .broken, _ => True
  | _, .broken => True
  | _, _ => False

/-- What becomes of an outcome if reading goes on after it. -/
def Outcome.fold (o : Outcome) (matched : Position → State → Outcome)
    (missed : State → Outcome) : Outcome :=
  match o with
  | .matched p s => matched p s
  | .missed s => missed s
  | .broken => .broken

/-- Two readers do the same in parallel states at corresponding positions. -/
def Reader.Parallel (R : Position → Position → Prop) (read read' : Reader) : Prop :=
  ∀ s s' p p', s.Parallel R s' → R p p' → (read s p).Parallel R (read' s' p')

variable {R : Position → Position → Prop}

namespace Outcome.Parallel

theorem broken_right (o : Outcome) : o.Parallel R .broken := by
  cases o <;> trivial

theorem fold {o o' : Outcome} {matched matched' : Position → State → Outcome}
    {missed missed' : State → Outcome} (parallel : o.Parallel R o')
    (on_match : ∀ p p' s s', R p p' → s.Parallel R s' →
      (matched p s).Parallel R (matched' p' s'))
    (on_miss : ∀ s s', s.Parallel R s' → (missed s).Parallel R (missed' s')) :
    (o.fold matched missed).Parallel R (o'.fold matched' missed') := by
  cases o with
  | matched p s =>
      cases o' with
      | matched p' s' => exact on_match p p' s s' parallel.1 parallel.2
      | missed s' => exact parallel.elim
      | broken => exact broken_right _
  | missed s =>
      cases o' with
      | matched p' s' => exact parallel.elim
      | missed s' => exact on_miss s s' parallel
      | broken => exact broken_right _
  | broken => trivial

/-- Outcomes that are not broken are both matches or both failures. -/
theorem cases {o o' : Outcome} (parallel : o.Parallel R o') (unbroken : o ≠ .broken)
    (unbroken' : o' ≠ .broken) :
    (∃ p p' s s', o = .matched p s ∧ o' = .matched p' s' ∧ R p p' ∧ s.Parallel R s') ∨
      ∃ s s', o = .missed s ∧ o' = .missed s' ∧ s.Parallel R s' := by
  cases o <;> cases o' <;> simp_all [Outcome.Parallel]

end Outcome.Parallel

/-- Whether an operand is an element of a list or map. -/
def Operand.isElement : Operand → Bool
  | .expr e => e.isIndex
  | _ => false

/-! ## Stacks -/

namespace Stack

variable {s s' : Stack}

theorem height_of_bare (same : s.items.map Operand.bare = s'.items.map Operand.bare) :
    s.height = s'.height := by
  rw [s.height_eq, s'.height_eq, ← List.length_map Operand.bare, same, List.length_map]

theorem above_of_bare (same : s.items.map Operand.bare = s'.items.map Operand.bare) (mark : Nat) :
    (s.above mark).map Operand.bare = (s'.above mark).map Operand.bare := by
  rw [above, above, List.map_reverse, List.map_reverse, List.map_take, List.map_take, same,
    height_of_bare same]

theorem truncate_of_bare (same : s.items.map Operand.bare = s'.items.map Operand.bare)
    (mark : Nat) :
    (s.truncate mark).items.map Operand.bare = (s'.truncate mark).items.map Operand.bare := by
  simp only [truncate]
  rw [List.map_drop, List.map_drop, same, height_of_bare same]

end Stack

namespace State.Parallel

variable {s s' t t' : State} {p p' : Position}

theorem expect (parallel : s.Parallel R s') (label : String) :
    (s.expect p label).Parallel R (s'.expect p' label) := by
  have kept (s : State) (p : Position) : (s.expect p label).operands = s.operands ∧
      (s.expect p label).pending = s.pending ∧ (s.expect p label).depth = s.depth ∧
        (s.expect p label).deadEnds = s.deadEnds ∧
          (s.expect p label).tooDeep = s.tooDeep := by
    unfold State.expect
    split
    · exact ⟨rfl, rfl, rfl, rfl, rfl⟩
    · split <;> exact ⟨rfl, rfl, rfl, rfl, rfl⟩
  obtain ⟨operands_eq, pending_eq, depth_eq, deadEnds_eq, tooDeep_eq⟩ := kept s p
  obtain ⟨operands_eq', pending_eq', depth_eq', deadEnds_eq', tooDeep_eq'⟩ := kept s' p'
  constructor
  · rw [operands_eq, operands_eq', parallel.operands]
  · rw [pending_eq, pending_eq', parallel.pending]
  · rw [depth_eq, depth_eq', parallel.depth]
  · rw [deadEnds_eq, deadEnds_eq']
    exact parallel.deadEnds
  · rw [tooDeep_eq, tooDeep_eq', parallel.tooDeep]

theorem accept (parallel : s.Parallel R s') (lexeme lexeme' : Lexeme)
    {operand operand' : Option Operand}
    (same : operand.map Operand.bare = operand'.map Operand.bare) :
    (s.accept lexeme operand).Parallel R (s'.accept lexeme' operand') := by
  obtain ⟨operands, pending, depth, deadEnds, tooDeep⟩ := parallel
  cases operand with
  | none =>
      obtain rfl : operand' = none := by simpa using same.symm
      exact ⟨operands, pending, depth, deadEnds, tooDeep⟩
  | some operand =>
      obtain ⟨operand', rfl, bare_eq⟩ := Option.map_eq_some_iff.mp same.symm
      refine ⟨?_, pending, depth, deadEnds, tooDeep⟩
      simp [State.accept, State.push, Stack.push, operands, bare_eq]

theorem retreat (parallel : s.Parallel R s') (after : t.Parallel R t') :
    (s.retreat t).Parallel R (s'.retreat t') where
  operands := by
    simp only [State.retreat]
    rw [Stack.height_of_bare parallel.operands]
    exact Stack.truncate_of_bare after.operands _
  pending := by
    simp only [State.retreat, List.length_take]
    rw [parallel.pending, after.pending]
  depth := after.depth
  deadEnds := after.deadEnds
  tooDeep := after.tooDeep

end State.Parallel

/-! ## Readers -/

namespace Reader.Parallel

variable (corresponds : Corresponds R)

include corresponds in
theorem token (t : Terminal) (leaf : Leaf) :
    Reader.Parallel R (Reader.token t leaf) (Reader.token t leaf) := by
  intro s s' p p' parallel here
  have scans := corresponds.terminal t here
  unfold Reader.token
  cases found : t.match? p with
  | none =>
      rw [found] at scans
      cases found' : t.match? p' with
      | none => exact parallel.expect t.label
      | some lexeme' => rw [found'] at scans; cases scans
  | some lexeme =>
      rw [found] at scans
      cases found' : t.match? p' with
      | none => rw [found'] at scans; cases scans
      | some lexeme' =>
          rw [found'] at scans
          cases scans with
          | some both =>
              obtain ⟨text_eq, next⟩ := both
              refine ⟨next, parallel.accept lexeme lexeme' ?_⟩
              cases leaf <;>
                simp [Leaf.operand?, Operand.bare, Ident.bare, TypeRef.bare, Expr.bare, text_eq]

include corresponds in
theorem number : Reader.Parallel R Reader.number Reader.number := by
  intro s s' p p' parallel here
  have scans := corresponds.number here
  unfold Reader.number
  cases found : p.number <;> cases found' : p'.number <;>
    simp only [found, found', NumberScan.Parallel] at scans
  case absent.absent => exact parallel.expect "number"
  case number.number value lexeme value' lexeme' =>
      obtain ⟨rfl, next⟩ := scans
      exact ⟨next, parallel.accept lexeme lexeme' rfl⟩
  case malformed.malformed bad lexeme bad' lexeme' =>
      refine ⟨scans, State.Parallel.accept ?_ lexeme lexeme' rfl⟩
      refine ⟨parallel.operands, ?_, parallel.depth, parallel.deadEnds, parallel.tooDeep⟩
      simp [parallel.pending]

theorem andThen {first second first' second' : Reader} (one : first.Parallel R first')
    (two : second.Parallel R second') :
    (first.andThen second).Parallel R (first'.andThen second') := by
  intro s s' p p' parallel here
  have as_fold (first second : Reader) (s : State) (p : Position) : first.andThen second s p =
      (first s p).fold (fun q t => second t q) .missed := by
    unfold Reader.andThen Outcome.fold
    cases first s p <;> rfl
  rw [as_fold, as_fold]
  exact (one s s' p p' parallel here).fold
    (fun q q' t t' next after => two t t' q q' after next) fun _ _ after => after

theorem attempt {read read' : Reader} (both : read.Parallel R read') :
    read.attempt.Parallel R read'.attempt := by
  intro s s' p p' parallel here
  have as_fold (read : Reader) (s : State) (p : Position) : read.attempt s p =
      (read s p).fold .matched fun t => .missed (s.retreat t) := by
    rw [Reader.attempt_eq]
    cases read s p <;> rfl
  rw [as_fold, as_fold]
  exact (both s s' p p' parallel here).fold (fun _ _ _ _ next after => ⟨next, after⟩)
    fun _ _ after => parallel.retreat after

theorem orElse {first second first' second' : Reader} (one : first.Parallel R first')
    (two : second.Parallel R second') :
    (first.orElse second).Parallel R (first'.orElse second') := by
  intro s s' p p' parallel here
  have as_fold (first second : Reader) (s : State) (p : Position) : first.orElse second s p =
      (first.attempt s p).fold .matched fun t => second t p := by
    unfold Reader.orElse Outcome.fold
    cases first.attempt s p <;> rfl
  rw [as_fold, as_fold]
  exact (one.attempt s s' p p' parallel here).fold (fun _ _ _ _ next after => ⟨next, after⟩)
    fun t t' after => two t t' p p' after here

theorem option {read read' : Reader} (both : read.Parallel R read') :
    read.option.Parallel R read'.option := by
  intro s s' p p' parallel here
  have as_fold (read : Reader) (s : State) (p : Position) : read.option s p =
      (read.attempt s p).fold .matched (.matched p) := by
    unfold Reader.option Outcome.fold
    cases read.attempt s p <;> rfl
  rw [as_fold, as_fold]
  exact (both.attempt s s' p p' parallel here).fold (fun _ _ _ _ next after => ⟨next, after⟩)
    fun _ _ after => ⟨here, after⟩

theorem many {read read' : Reader} (both : read.Parallel R read') (limit limit' : Nat) :
    (read.many limit).Parallel R (read'.many limit') := by
  have as_fold (read : Reader) (limit : Nat) (s : State) (p : Position) :
      read.many (limit + 1) s p =
        (read.attempt s p).fold (fun q t => read.many limit t q) (.matched p) := by
    cases outcome : read.attempt s p <;> simp only [Reader.many, Outcome.fold, outcome]
  induction limit generalizing limit' with
  | zero => exact fun _ _ _ _ _ _ => trivial
  | succ limit ih =>
      intro s s' p p' parallel here
      cases limit' with
      | zero => exact Outcome.Parallel.broken_right _
      | succ limit' =>
          rw [as_fold, as_fold]
          exact (both.attempt s s' p p' parallel here).fold
            (fun q q' t t' next after => ih limit' t t' q q' after next)
            fun _ _ after => ⟨here, after⟩

include corresponds in
theorem branch (t : Terminal) {yes no yes' no' : Reader} (one : yes.Parallel R yes')
    (two : no.Parallel R no') :
    (Reader.branch t yes no).Parallel R (Reader.branch t yes' no') := by
  intro s s' p p' parallel here
  have as_fold (yes no : Reader) (s : State) (p : Position) : Reader.branch t yes no s p =
      (Reader.token t .nothing s p).fold (fun q u => yes u q) fun u => no u p := by
    unfold Reader.branch Outcome.fold
    cases Reader.token t .nothing s p <;> rfl
  rw [as_fold, as_fold]
  exact (token corresponds t .nothing s s' p p' parallel here).fold
    (fun q q' u u' next after => one u u' q q' after next)
    fun u u' after => two u u' p p' after here

theorem nested (maxNesting : Nat) {read read' : Reader} (both : read.Parallel R read') :
    (Reader.nested maxNesting read).Parallel R (Reader.nested maxNesting read') := by
  intro s s' p p' parallel here
  obtain ⟨operands, pending, depth, deadEnds, tooDeep⟩ := parallel
  have as_fold (read : Reader) (s : State) (p : Position) : Reader.nested maxNesting read s p =
      if maxNesting ≤ s.depth then .missed { s with tooDeep := s.tooDeep <|> some p }
      else (read { s with depth := s.depth + 1 } p).fold
        (fun q t => .matched q { t with depth := t.depth - 1 })
        fun t => .missed { t with depth := t.depth - 1 } := by
    unfold Reader.nested Outcome.fold
    split
    · rfl
    · cases read { s with depth := s.depth + 1 } p <;> rfl
  have shallower {t t' : State} (after : t.Parallel R t') :
      State.Parallel R { t with depth := t.depth - 1 } { t' with depth := t'.depth - 1 } :=
    ⟨after.operands, after.pending, congrArg (· - 1) after.depth, after.deadEnds, after.tooDeep⟩
  rw [as_fold, as_fold]
  by_cases deep : maxNesting ≤ s.depth
  · rw [if_pos deep, if_pos (depth ▸ deep)]
    refine ⟨operands, pending, depth, deadEnds, ?_⟩
    cases s.tooDeep <;> cases s'.tooDeep <;> rfl
  · rw [if_neg deep, if_neg (depth ▸ deep)]
    have deeper : State.Parallel R { s with depth := s.depth + 1 }
        { s' with depth := s'.depth + 1 } :=
      ⟨operands, pending, congrArg (· + 1) depth, deadEnds, tooDeep⟩
    exact (both _ _ p p' deeper here).fold
      (fun _ _ _ _ next after => ⟨next, shallower after⟩) fun _ _ after => shallower after

/-- A failure is remembered on both sides or on neither. -/
theorem remember {s s' : State} {p p' : Position} (corresponds : Corresponds R)
    (parallel : s.Parallel R s') (here : R p p') (memo : Memo) :
    State.Parallel R { s with deadEnds := s.deadEnds.insert memo p.cursor.offset }
      { s' with deadEnds := s'.deadEnds.insert memo p'.cursor.offset } := by
  refine ⟨parallel.operands, parallel.pending, parallel.depth, ?_, parallel.tooDeep⟩
  intro other q q' there
  simp only [DeadEnds.contains_insert]
  rw [parallel.deadEnds other q q' there, decide_eq_decide.mpr
    (and_congr_right fun _ => corresponds.offset here there)]

include corresponds in
theorem remembered (memo : Memo) {read read' : Reader} (both : read.Parallel R read') :
    (Reader.remembered memo read).Parallel R (Reader.remembered memo read') := by
  intro s s' p p' parallel here
  have as_fold (read : Reader) (s : State) (p : Position) : Reader.remembered memo read s p =
      if s.deadEnds.contains memo p.cursor.offset then .missed s
      else (read.attempt s p).fold .matched fun t => if t.tooDeep.isNone then
        .missed { t with deadEnds := t.deadEnds.insert memo p.cursor.offset } else .missed t := by
    unfold Reader.remembered Outcome.fold
    split
    · rfl
    · cases read.attempt s p <;> rfl
  rw [as_fold, as_fold, ← parallel.deadEnds memo p p' here]
  split
  · exact parallel
  · refine (both.attempt s s' p p' parallel here).fold
      (fun _ _ _ _ next after => ⟨next, after⟩) fun t t' after => ?_
    rw [← after.tooDeep]
    split
    · exact remember corresponds after here memo
    · exact after

theorem afterIndex (start start' : Cursor) (mark : Nat) {read read' : Reader}
    (both : read.Parallel R read') :
    (Reader.afterIndex ⟨start, mark⟩ read).Parallel R (Reader.afterIndex ⟨start', mark⟩ read') := by
  intro s s' p p' parallel here
  have as_fold (start : Cursor) (read : Reader) (s : State) (p : Position) :
      Reader.afterIndex ⟨start, mark⟩ read s p =
        if ((s.operands.above mark).map Operand.bare).getLast?.any Operand.isElement
        then read.option s p else .matched p s := by
    unfold Reader.afterIndex
    rw [List.getLast?_map]
    cases (s.operands.above mark).getLast? with
    | none => rfl
    | some operand => cases operand <;> simp [Operand.isElement, Operand.bare]
  rw [as_fold, as_fold, Stack.above_of_bare parallel.operands]
  split
  · exact both.option s s' p p' parallel here
  · exact ⟨here, parallel⟩

theorem reduce (r : Reduction) (start start' : Cursor) (mark : Nat) :
    (Reader.reduce r ⟨start, mark⟩).Parallel R (Reader.reduce r ⟨start', mark⟩) := by
  intro s s' p p' parallel here
  unfold Reader.reduce
  simp only
  rw [← Stack.height_of_bare parallel.operands]
  generalize mark + r.kept (s.operands.height - mark) = mark
  cases built : r.build? (start.spanTo s.lastEnd) (s.operands.above mark) with
  | none => trivial
  | some operand =>
      cases built' : r.build? (start'.spanTo s'.lastEnd) (s'.operands.above mark) with
      | none => exact Outcome.Parallel.broken_right _
      | some operand' =>
          have bare := Reduction.build?_bare built
          have bare' := Reduction.build?_bare built'
          rw [Stack.above_of_bare parallel.operands, bare'] at bare
          refine ⟨here, ?_, parallel.pending, parallel.depth, parallel.deadEnds,
            parallel.tooDeep⟩
          simp only [Stack.push, List.map_cons]
          rw [Stack.truncate_of_bare parallel.operands, Option.some.inj bare]

include corresponds in
/-- Every phrase does the same on both sides if the rules do. -/
theorem phrase {settings settings' : Settings}
    (nesting : settings.maxNesting = settings'.maxNesting)
    (remember : settings.remember = settings'.remember) {rule rule' : Rule → Reader}
    (rules : ∀ r, (rule r).Parallel R (rule' r)) (start start' : Cursor) (mark : Nat)
    (phrase : Phrase) :
    (phrase.run settings rule ⟨start, mark⟩).Parallel R
      (phrase.run settings' rule' ⟨start', mark⟩) := by
  induction phrase with
  | token t leaf => exact token corresponds t leaf
  | number => exact number corresponds
  | rule r => exact rules r
  | seq first second ih_first ih_second => exact andThen ih_first ih_second
  | choice first second ih_first ih_second => exact orElse ih_first ih_second
  | branch t yes no ih_yes ih_no => exact branch corresponds t ih_yes ih_no
  | attempt phrase ih => exact attempt ih
  | option phrase ih => exact option ih
  | many phrase ih => exact many ih _ _
  | nested phrase ih =>
      unfold Phrase.run
      rw [← nesting]
      exact nested settings.maxNesting ih
  | remembered memo phrase ih =>
      unfold Phrase.run
      rw [← remember]
      split
      · exact remembered corresponds memo ih
      · exact attempt ih
  | afterIndex phrase ih => exact afterIndex start start' mark ih
  | reduce r => exact reduce r start start' mark

include corresponds in
/-- Every rule does the same on both sides. -/
theorem rule {settings settings' : Settings} (nesting : settings.maxNesting = settings'.maxNesting)
    (remember : settings.remember = settings'.remember) (fuel fuel' : Nat) (r : Rule) :
    (Rule.run settings fuel r).Parallel R (Rule.run settings' fuel' r) := by
  induction fuel generalizing fuel' r with
  | zero => exact fun _ _ _ _ _ _ => trivial
  | succ fuel ih =>
      intro s s' p p' parallel here
      cases fuel' with
      | zero => exact Outcome.Parallel.broken_right _
      | succ fuel' =>
          have same := phrase corresponds nesting remember (ih fuel') p.cursor p'.cursor
            s.operands.height r.phrase s s' p p' parallel here
          rw [Stack.height_of_bare parallel.operands] at same
          simpa only [Rule.run, Stack.height_of_bare parallel.operands] using same

end Reader.Parallel

end Formwork
