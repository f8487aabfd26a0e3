import Formwork.Proofs.Lasting
import Formwork.Proofs.Places
import Formwork.Proofs.Sound

/-!
# Where failures and malformed numbers are noted

While a definition is read, malformed numbers are noted between its start and the place where
reading stands. A phrase that fails has looked for a token where it was tried or further on, and
behind every number it noted, so what is given up with it lies before the furthest failure.
`State.Tracked` is what holds of the state all along; nesting beyond the limit is the only failure
that looks for nothing, so some of it holds only while nothing was nested too deep.
-/

namespace Formwork

/-! ## Malformed numbers -/

theorem Literal.spoiledTail_ne_nil {literal : Literal} {text : List Char}
    (spoiled : literal.spoiledBy text = true) : spoiledTail text ≠ [] := by
  cases text with
  | nil => simp [spoiledBy, nextIs] at spoiled
  | cons c text =>
      have dragged : (isWordChar c || (c == '.' && !nextIs (· == '.') text)) = true := by
        unfold spoiledBy at spoiled
        split at spoiled
        · rename_i rest text_eq
          obtain ⟨rfl, rfl⟩ := List.cons.inj text_eq
          cases text with
          | nil => simp [nextIs]
          | cons d text =>
              have digit : d.isDigit = true → d ≠ '.' := by rintro found rfl; simp at found
              simp only [nextIs, Bool.or_eq_true, Bool.and_eq_true] at spoiled ⊢
              rcases spoiled with found | ⟨-, free⟩
              · simp [digit found]
              · simp_all
        · simp only [nextIs] at spoiled
          simp [spoiled]
      simp [spoiledTail, dragged]

/-- A malformed number goes wrong strictly inside its lexeme. -/
theorem Piece.At.malformed?_inside {x : Piece} {p : Position} (here : x.At p) {m : Malformed}
    (bad : x.malformed? = some m) :
    p.cursor.lineCol < m.place.lineCol ∧ m.place.lineCol < x.lexeme.stop.lineCol := by
  have start_eq := here.start_eq
  obtain ⟨after, -, fits, lexeme_eq⟩ := here
  unfold malformed? at bad
  split at bad
  · rename_i literal tail token_eq
    obtain rfl := Option.some.inj bad
    rw [token_eq] at fits lexeme_eq
    obtain ⟨formed, spoiled, tail_eq⟩ := fits
    have chars_ne : literal.chars ≠ [] := by simp [Literal.chars, formed.1]
    have tail_ne : tail ≠ [] := tail_eq ▸ Literal.spoiledTail_ne_nil spoiled
    have stop_eq : x.lexeme.stop = (p.cursor.advance literal.chars).advance tail := by
      rw [lexeme_eq, ← Cursor.advance_append]
      rfl
    rw [start_eq, stop_eq]
    exact ⟨Cursor.lineCol_lt_advance _ chars_ne, Cursor.lineCol_lt_advance _ tail_ne⟩
  · exact absurd bad (by simp)

theorem Piece.At.malformed?_between {x : Piece} {p : Position} (here : x.At p) {m : Malformed}
    (bad : x.malformed? = some m) :
    p.cursor.lineCol < m.place.lineCol ∧ m.place.lineCol < x.lexeme.next.cursor.lineCol := by
  obtain ⟨later, earlier⟩ := here.malformed?_inside bad
  obtain ⟨after, -, -, lexeme_eq⟩ := here
  refine ⟨later, earlier.trans_le ?_⟩
  rw [lexeme_eq]
  exact (Position.leadsTo_skipGap ⟨_, after⟩).lineCol_le

/-- All numbers of a list go wrong strictly between two places. -/
def Malformed.AllBetween (first last : Cursor) (ms : List Malformed) : Prop :=
  ∀ m ∈ ms, first.lineCol < m.place.lineCol ∧ m.place.lineCol < last.lineCol

/-- The malformed numbers of a text stand in source order, inside the text. -/
theorem Spelled.malformed_ascending {p q : Position} {xs : List Piece} (spelled : Spelled p xs q) :
    (xs.filterMap Piece.malformed?).Pairwise (fun m n => m.place.lineCol < n.place.lineCol) ∧
      Malformed.AllBetween p.cursor q.cursor (xs.filterMap Piece.malformed?) := by
  induction xs generalizing p with
  | nil => exact ⟨.nil, by simp [Malformed.AllBetween]⟩
  | cons x xs ih =>
      obtain ⟨here, others⟩ := spelled
      obtain ⟨ascending, inside⟩ := ih others
      have passed := here.leadsTo.lineCol_lt here.length_lt
      have onward := others.leadsTo.lineCol_le
      cases bad : x.malformed? with
      | none =>
          rw [List.filterMap_cons_none bad]
          exact ⟨ascending, fun m member => ⟨passed.trans (inside m member).1, (inside m member).2⟩⟩
      | some m =>
          rw [List.filterMap_cons_some bad]
          have within := here.malformed?_between bad
          refine ⟨List.pairwise_cons.mpr ⟨fun n member => ?_, ascending⟩, fun n member => ?_⟩
          · exact within.2.trans (inside n member).1
          · rcases List.mem_cons.mp member with rfl | member
            · exact ⟨within.1, within.2.trans_le onward⟩
            · exact ⟨passed.trans (inside n member).1, (inside n member).2⟩

/-! ## States -/

namespace State

theorem furthest_expect (s : State) (p : Position) (label : String) :
    (s.expect p label).furthest =
      if s.furthest.cursor.precedes p.cursor then p else s.furthest := by
  unfold expect
  split
  · rfl
  · split <;> rfl

theorem kept_expect (s : State) (p : Position) (label : String) :
    (s.expect p label).abandoned = s.abandoned ∧ (s.expect p label).tooDeep = s.tooDeep ∧
      (s.expect p label).deadEnds = s.deadEnds := by
  unfold expect
  split
  · exact ⟨rfl, rfl, rfl⟩
  · split <;> exact ⟨rfl, rfl, rfl⟩

/-- What holds of the state while the definition at `start` is read. -/
structure Tracked (start : Position) (s : State) : Prop where
  within : start.LeadsTo s.furthest
  abandoned_after : ∀ m ∈ s.abandoned, start.cursor.lineCol < m.place.lineCol
  abandoned_before : s.tooDeep = none →
    ∀ m ∈ s.abandoned, m.place.lineCol < s.furthest.cursor.lineCol
  /-- No rule is known to fail behind the furthest failure. -/
  deadEnds : ∀ memo p, start.LeadsTo p → s.deadEnds.contains memo p.cursor.offset = true →
    p.LeadsTo s.furthest

/-- Something was looked for in vain at `p` or further on, and behind every number noted so far. -/
structure Reached (start p : Position) (s : State) : Prop where
  pending_after : ∀ m ∈ s.pending, start.cursor.lineCol < m.place.lineCol
  pending_before : s.tooDeep = none →
    ∀ m ∈ s.pending, m.place.lineCol < s.furthest.cursor.lineCol
  furthest : s.tooDeep = none → p.LeadsTo s.furthest

theorem tracked_restart (s : State) (p : Position) : (s.restart p).Tracked p where
  within := .refl p
  abandoned_after m member := absurd member List.not_mem_nil
  abandoned_before _ m member := absurd member List.not_mem_nil
  deadEnds memo q ahead known := by simp [restart] at known

variable {start p q : Position} {s t : State}

/-- The furthest failure only moves on. -/
theorem leadsTo_furthest_expect (within : start.LeadsTo s.furthest) (ahead : start.LeadsTo p)
    (label : String) :
    s.furthest.LeadsTo (s.expect p label).furthest ∧ p.LeadsTo (s.expect p label).furthest := by
  rw [furthest_expect]
  split
  · rename_i early
    refine ⟨.of_not_precedes within ahead ?_, .refl p⟩
    by_contra late
    rw [Bool.not_eq_false] at late
    have loop := Cursor.precedes_trans early late
    rw [Cursor.precedes_irrefl] at loop
    exact Bool.noConfusion loop
  · rename_i late
    exact ⟨.refl _, .of_not_precedes ahead within (by simpa using late)⟩

theorem Tracked.expect (tracked : s.Tracked start) (ahead : start.LeadsTo p) (label : String) :
    (s.expect p label).Tracked start := by
  obtain ⟨abandoned_eq, tooDeep_eq, deadEnds_eq⟩ := s.kept_expect p label
  have moved := (leadsTo_furthest_expect tracked.within ahead label).1
  refine ⟨tracked.within.trans moved, ?_, ?_, ?_⟩
  · rw [abandoned_eq]
    exact tracked.abandoned_after
  · rw [abandoned_eq, tooDeep_eq]
    intro shallow m member
    exact (tracked.abandoned_before shallow m member).trans_le moved.lineCol_le
  · rw [deadEnds_eq]
    intro memo q ahead_q known
    exact (tracked.deadEnds memo q ahead_q known).trans moved

/-- A token that is looked for in vain at `p` is looked for behind all numbers noted before. -/
theorem Tracked.reached_expect (tracked : s.Tracked start) (ahead : start.LeadsTo p)
    (noted : Malformed.AllBetween start.cursor p.cursor s.pending) (label : String) :
    (s.expect p label).Reached start p := by
  have moved := (leadsTo_furthest_expect tracked.within ahead label).2
  refine ⟨?_, ?_, fun _ => moved⟩
  · rw [pending_expect]
    exact fun m member => (noted m member).1
  · rw [pending_expect]
    exact fun _ m member => (noted m member).2.trans_le moved.lineCol_le

theorem Tracked.accept (tracked : s.Tracked start) (lexeme : Lexeme) (operand : Option Operand) :
    (s.accept lexeme operand).Tracked start := by
  obtain ⟨within, after, before, deadEnds⟩ := tracked
  cases operand <;> exact ⟨within, after, before, deadEnds⟩

/-- What is given up with a failed attempt lies before the furthest failure. -/
theorem Tracked.retreat (tracked : t.Tracked start) (reached : t.Reached start p) :
    (s.retreat t).Tracked start := by
  refine ⟨tracked.within, ?_, ?_, tracked.deadEnds⟩
  · intro m member
    rcases List.mem_append.mp member with old | given_up
    · exact tracked.abandoned_after m old
    · exact reached.pending_after m (List.mem_of_mem_drop given_up)
  · intro shallow m member
    rcases List.mem_append.mp member with old | given_up
    · exact tracked.abandoned_before shallow m old
    · exact reached.pending_before shallow m (List.mem_of_mem_drop given_up)

theorem Reached.retreat (reached : t.Reached start p) : (s.retreat t).Reached start p where
  pending_after m member := reached.pending_after m (List.mem_of_mem_take member)
  pending_before shallow m member :=
    reached.pending_before shallow m (List.mem_of_mem_take member)
  furthest := reached.furthest

theorem Reached.mono (reached : t.Reached start q) (ahead : p.LeadsTo q) : t.Reached start p where
  pending_after := reached.pending_after
  pending_before := reached.pending_before
  furthest shallow := ahead.trans (reached.furthest shallow)

/-- Where nothing is nested too deep, a failure may be remembered. -/
theorem Tracked.remember (tracked : t.Tracked start) (ahead : start.LeadsTo p)
    (passed : p.LeadsTo t.furthest) (memo : Memo) :
    Tracked start { t with deadEnds := t.deadEnds.insert memo p.cursor.offset } := by
  refine ⟨tracked.within, tracked.abandoned_after, tracked.abandoned_before, ?_⟩
  intro other q ahead_q known
  rw [DeadEnds.contains_insert, Bool.or_eq_true] at known
  rcases known with here | before
  · obtain rfl := ahead.eq_of_offset ahead_q (of_decide_eq_true here).2
    exact passed
  · exact tracked.deadEnds other q ahead_q before

end State

/-! ## Readers -/

/-- What an outcome says about the places noted, where reading began at `p` in state `s`. -/
def Outcome.Tracked (start p : Position) (s : State) : Outcome → Prop
  | .matched q t =>
      t.Tracked start ∧ s.pending <+: t.pending ∧ p.LeadsTo q ∧
        Malformed.AllBetween start.cursor q.cursor t.pending
  | .missed t => t.Tracked start ∧ s.pending <+: t.pending ∧ t.Reached start p
  | .broken => True

/-- A reader keeps the places it notes in order. -/
def Reader.Tracked (start : Position) (read : Reader) : Prop :=
  ∀ s p, start.LeadsTo p → s.Tracked start →
    Malformed.AllBetween start.cursor p.cursor s.pending → (read s p).Tracked start p s

namespace Reader.Tracked

variable {start : Position}

/-- An outcome from a later state and position is one from an earlier state and position. -/
theorem outcome_trans {s t : State} {p q : Position} {o : Outcome} (later : o.Tracked start q t)
    (noted : s.pending <+: t.pending) (ahead : p.LeadsTo q) : o.Tracked start p s := by
  cases o with
  | matched r u => exact ⟨later.1, noted.trans later.2.1, ahead.trans later.2.2.1, later.2.2.2⟩
  | missed u => exact ⟨later.1, noted.trans later.2.1, later.2.2.mono ahead⟩
  | broken => trivial

theorem expect {s : State} {p : Position} (ahead : start.LeadsTo p) (tracked : s.Tracked start)
    (noted : Malformed.AllBetween start.cursor p.cursor s.pending) (label : String) :
    (Outcome.missed (s.expect p label)).Tracked start p s :=
  ⟨tracked.expect ahead label, by rw [State.pending_expect],
    tracked.reached_expect ahead noted label⟩

/-- A piece that is accepted is stepped over, and noted if it is a malformed number. -/
theorem accept {s : State} {p : Position} {x : Piece} (here : x.At p) (ahead : start.LeadsTo p)
    (tracked : s.Tracked start) (noted : Malformed.AllBetween start.cursor p.cursor s.pending)
    (operand : Option Operand) :
    (Outcome.matched x.lexeme.next
      ({ s with pending := s.pending ++ x.malformed?.toList }.accept x.lexeme operand)).Tracked
        start p s := by
  have pending_eq :
      ({ s with pending := s.pending ++ x.malformed?.toList }.accept x.lexeme operand).pending =
        s.pending ++ x.malformed?.toList := by
    cases operand <;> rfl
  have moved :
      State.Tracked start { s with pending := s.pending ++ x.malformed?.toList } :=
    ⟨tracked.within, tracked.abandoned_after, tracked.abandoned_before, tracked.deadEnds⟩
  refine ⟨moved.accept x.lexeme operand, ?_, here.leadsTo, ?_⟩
  · rw [pending_eq]
    exact List.prefix_append _ _
  · rw [pending_eq]
    intro m member
    rcases List.mem_append.mp member with old | new
    · exact ⟨(noted m old).1, (noted m old).2.trans_le here.leadsTo.lineCol_le⟩
    · have within := here.malformed?_between (Option.mem_toList.mp new)
      exact ⟨ahead.lineCol_le.trans_lt within.1, within.2⟩

theorem token (t : Terminal) (leaf : Leaf) : (Reader.token t leaf).Tracked start := by
  intro s p ahead tracked noted
  unfold Reader.token
  split
  · rename_i lexeme found
    obtain ⟨x, accepts, rfl, here⟩ := Terminal.match?_spec found
    have sound := accepts.malformed?_eq_none
    simpa [sound] using accept here ahead tracked noted (leaf.operand? x.lexeme)
  · exact expect ahead tracked noted t.label

theorem number : Reader.number.Tracked start := by
  intro s p ahead tracked noted
  unfold Reader.number
  split
  · rename_i value lexeme found
    obtain ⟨literal, text_eq, rfl, here⟩ := Position.number_spec found
    simpa [Piece.malformed?] using accept here ahead tracked noted (some _)
  · rename_i bad lexeme found
    obtain ⟨literal, tail, text_eq, rfl, here⟩ := Position.malformed_spec found
    have start_eq : lexeme.start = p.cursor := here.start_eq
    simpa [Piece.malformed?, start_eq] using accept here ahead tracked noted (some _)
  · exact expect ahead tracked noted "number"

theorem andThen {first second : Reader} (tracked_first : first.Tracked start)
    (tracked_second : second.Tracked start) : (first.andThen second).Tracked start := by
  intro s p ahead tracked noted
  have one := tracked_first s p ahead tracked noted
  unfold Reader.andThen
  cases outcome : first s p with
  | matched q t =>
      rw [outcome] at one
      obtain ⟨tracked', more, onward, noted'⟩ := one
      exact outcome_trans (tracked_second t q (ahead.trans onward) tracked' noted') more onward
  | missed t =>
      rw [outcome] at one
      exact one
  | broken => trivial

/-- A failed attempt leaves the numbers noted before it. -/
theorem attempt_missed {read : Reader} (tracked_read : read.Tracked start) {s t : State}
    {p : Position} (ahead : start.LeadsTo p) (tracked : s.Tracked start)
    (noted : Malformed.AllBetween start.cursor p.cursor s.pending)
    (missed : read.attempt s p = .missed t) :
    t.Tracked start ∧ t.pending = s.pending ∧ t.Reached start p := by
  have inner := tracked_read s p ahead tracked noted
  rw [Reader.attempt_eq] at missed
  cases outcome : read s p with
  | matched q u =>
      rw [outcome] at missed
      exact absurd missed (by simp)
  | missed u =>
      rw [outcome] at missed inner
      obtain rfl := Outcome.missed.inj missed
      obtain ⟨tracked', more, reached⟩ := inner
      exact ⟨tracked'.retreat reached, State.pending_retreat more, reached.retreat⟩
  | broken =>
      rw [outcome] at missed
      exact absurd missed (by simp)

theorem attempt {read : Reader} (tracked_read : read.Tracked start) :
    read.attempt.Tracked start := by
  intro s p ahead tracked noted
  have inner := tracked_read s p ahead tracked noted
  cases outcome : read.attempt s p with
  | matched q t =>
      rw [Reader.attempt_eq] at outcome
      cases outcome' : read s p with
      | matched q' t' =>
          rw [outcome'] at outcome inner
          obtain ⟨rfl, rfl⟩ := Outcome.matched.inj outcome
          exact inner
      | missed t' =>
          rw [outcome'] at outcome
          exact absurd outcome (by simp)
      | broken =>
          rw [outcome'] at outcome
          exact absurd outcome (by simp)
  | missed t =>
      obtain ⟨tracked', pending_eq, reached⟩ :=
        attempt_missed tracked_read ahead tracked noted outcome
      exact ⟨tracked', pending_eq ▸ List.prefix_rfl, reached⟩
  | broken => trivial

theorem orElse {first second : Reader} (tracked_first : first.Tracked start)
    (tracked_second : second.Tracked start) : (first.orElse second).Tracked start := by
  intro s p ahead tracked noted
  have one := attempt tracked_first s p ahead tracked noted
  unfold Reader.orElse
  cases outcome : first.attempt s p with
  | matched q t =>
      rw [outcome] at one
      exact one
  | missed t =>
      obtain ⟨tracked', pending_eq, -⟩ := attempt_missed tracked_first ahead tracked noted outcome
      have two := tracked_second t p ahead tracked' (pending_eq ▸ noted)
      exact outcome_trans two (pending_eq ▸ List.prefix_rfl) (.refl p)
  | broken => trivial

/-- Where an attempt fails and nothing is read in its place, reading goes on as before. -/
theorem matched_of_missed {read : Reader} (tracked_read : read.Tracked start) {s t : State}
    {p : Position} (ahead : start.LeadsTo p) (tracked : s.Tracked start)
    (noted : Malformed.AllBetween start.cursor p.cursor s.pending)
    (missed : read.attempt s p = .missed t) : (Outcome.matched p t).Tracked start p s := by
  obtain ⟨tracked', pending_eq, -⟩ := attempt_missed tracked_read ahead tracked noted missed
  exact ⟨tracked', pending_eq ▸ List.prefix_rfl, .refl p, pending_eq ▸ noted⟩

theorem option {read : Reader} (tracked_read : read.Tracked start) :
    read.option.Tracked start := by
  intro s p ahead tracked noted
  have inner := attempt tracked_read s p ahead tracked noted
  unfold Reader.option
  cases outcome : read.attempt s p with
  | matched q t =>
      rw [outcome] at inner
      exact inner
  | missed t => exact matched_of_missed tracked_read ahead tracked noted outcome
  | broken => trivial

theorem many {read : Reader} (tracked_read : read.Tracked start) (limit : Nat) :
    (read.many limit).Tracked start := by
  induction limit with
  | zero => exact fun _ _ _ _ _ => trivial
  | succ limit ih =>
      intro s p ahead tracked noted
      have inner := attempt tracked_read s p ahead tracked noted
      unfold Reader.many
      cases outcome : read.attempt s p with
      | matched q t =>
          rw [outcome] at inner
          obtain ⟨tracked', more, onward, noted'⟩ := inner
          exact outcome_trans (ih t q (ahead.trans onward) tracked' noted') more onward
      | missed t => exact matched_of_missed tracked_read ahead tracked noted outcome
      | broken => trivial

theorem branch (t : Terminal) {yes no : Reader} (tracked_yes : yes.Tracked start)
    (tracked_no : no.Tracked start) : (Reader.branch t yes no).Tracked start := by
  intro s p ahead tracked noted
  have one := token t .nothing s p ahead tracked noted
  unfold Reader.branch
  cases outcome : Reader.token t .nothing s p with
  | matched q u =>
      rw [outcome] at one
      obtain ⟨tracked', more, onward, noted'⟩ := one
      exact outcome_trans (tracked_yes u q (ahead.trans onward) tracked' noted') more onward
  | missed u =>
      obtain rfl := Reader.token_missed outcome
      have two := tracked_no _ p ahead (tracked.expect ahead t.label)
        (by rw [State.pending_expect]; exact noted)
      exact outcome_trans two (by rw [State.pending_expect]) (.refl p)
  | broken => trivial

theorem nested {read : Reader} (tracked_read : read.Tracked start) (maxNesting : Nat) :
    (Reader.nested maxNesting read).Tracked start := by
  intro s p ahead tracked noted
  unfold Reader.nested
  split
  · -- From here on the state says no more than that the numbers lie behind the start.
    have deep : (s.tooDeep <|> some p) ≠ none := by cases s.tooDeep <;> simp
    refine ⟨⟨tracked.within, tracked.abandoned_after, fun none => absurd none deep,
      tracked.deadEnds⟩, List.prefix_rfl, ?_⟩
    exact ⟨fun m member => (noted m member).1, fun none => absurd none deep,
      fun none => absurd none deep⟩
  · have deeper : State.Tracked start { s with depth := s.depth + 1 } :=
      ⟨tracked.within, tracked.abandoned_after, tracked.abandoned_before, tracked.deadEnds⟩
    have inner := tracked_read { s with depth := s.depth + 1 } p ahead deeper noted
    cases outcome : read { s with depth := s.depth + 1 } p with
    | matched q t =>
        rw [outcome] at inner
        obtain ⟨⟨within, after, before, deadEnds⟩, more, onward, noted'⟩ := inner
        exact ⟨⟨within, after, before, deadEnds⟩, more, onward, noted'⟩
    | missed t =>
        rw [outcome] at inner
        obtain ⟨⟨within, after, before, deadEnds⟩, more, reached⟩ := inner
        exact ⟨⟨within, after, before, deadEnds⟩, more, reached.1, reached.2, reached.3⟩
    | broken => trivial

theorem remembered (memo : Memo) {read : Reader} (tracked_read : read.Tracked start) :
    (Reader.remembered memo read).Tracked start := by
  intro s p ahead tracked noted
  unfold Reader.remembered
  split
  · rename_i known
    have passed := tracked.deadEnds memo p ahead known
    refine ⟨tracked, List.prefix_rfl, fun m member => (noted m member).1, fun _ m member => ?_,
      fun _ => passed⟩
    exact (noted m member).2.trans_le passed.lineCol_le
  · have inner := attempt tracked_read s p ahead tracked noted
    cases outcome : read.attempt s p with
    | matched q t =>
        rw [outcome] at inner
        exact inner
    | missed t =>
        rw [outcome] at inner
        obtain ⟨tracked', more, reached⟩ := inner
        simp only
        split
        · rename_i shallow
          have passed := reached.furthest (Option.isNone_iff_eq_none.mp shallow)
          exact ⟨tracked'.remember ahead passed memo, more, reached.1, reached.2, reached.3⟩
        · exact ⟨tracked', more, reached⟩
    | broken => trivial

/-- Where nothing is read, reading goes on as before. -/
theorem skip {s : State} {p : Position} (tracked : s.Tracked start)
    (noted : Malformed.AllBetween start.cursor p.cursor s.pending) :
    (Outcome.matched p s).Tracked start p s :=
  ⟨tracked, List.prefix_rfl, .refl p, noted⟩

theorem afterIndex (frame : Frame) {read : Reader} (tracked_read : read.Tracked start) :
    (Reader.afterIndex frame read).Tracked start := by
  intro s p ahead tracked noted
  unfold Reader.afterIndex
  split
  · split
    · exact option tracked_read s p ahead tracked noted
    · exact skip tracked noted
  · exact skip tracked noted

theorem reduce (r : Reduction) (frame : Frame) : (Reader.reduce r frame).Tracked start := by
  intro s p ahead tracked noted
  unfold Reader.reduce
  simp only
  split
  · exact ⟨⟨tracked.within, tracked.abandoned_after, tracked.abandoned_before,
      tracked.deadEnds⟩, List.prefix_rfl, .refl p, noted⟩
  · trivial

/-- Every phrase keeps the places it notes in order if the rules do. -/
theorem phrase (settings : Settings) {rule : Rule → Reader} (rules : ∀ r, (rule r).Tracked start)
    (frame : Frame) (phrase : Phrase) : (phrase.run settings rule frame).Tracked start := by
  induction phrase with
  | token t leaf => exact token t leaf
  | number => exact number
  | rule r => exact rules r
  | seq first second ih_first ih_second => exact andThen ih_first ih_second
  | choice first second ih_first ih_second => exact orElse ih_first ih_second
  | branch t yes no ih_yes ih_no => exact branch t ih_yes ih_no
  | attempt phrase ih => exact attempt ih
  | option phrase ih => exact option ih
  | many phrase ih => exact many ih settings.repeats
  | nested phrase ih => exact nested ih settings.maxNesting
  | remembered memo phrase ih =>
      unfold Phrase.run
      split
      · exact remembered memo ih
      · exact attempt ih
  | afterIndex phrase ih => exact afterIndex frame ih
  | reduce r => exact reduce r frame

/-- Every rule keeps the places it notes in order. -/
theorem rule (start : Position) (settings : Settings) (fuel : Nat) (r : Rule) :
    (Rule.run settings fuel r).Tracked start := by
  induction fuel generalizing r with
  | zero => exact fun _ _ _ _ _ => trivial
  | succ fuel ih =>
      intro s p ahead tracked noted
      exact phrase settings ih _ r.phrase s p ahead tracked noted

end Reader.Tracked

end Formwork
