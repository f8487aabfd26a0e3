import Formwork.Proofs.BigStep
import Formwork.Proofs.Totality

/-!
# The machine follows the text

`Phrase.Reads.follows`: whatever reading a phrase comes to without a state, the machine comes to as
well, as long as every token that is read stands within the limit of nesting. It does so with or
without remembered failures, since a failure is remembered only where the text has it fail. If all
nesting stays within the limit, even where nothing is read, the machine also reports the same, since
a failure is remembered together with everything it reported.
-/

namespace Formwork

/-! ## Sane states -/

/-- The rule that a failure is remembered of. -/
def Memo.rule : Memo → Rule
  | .args => .args
  | .conditional => .conditional
  | .lambda => .lambda

/-- Each remembered failure is a failure of which `known` holds. -/
def State.Recalled (start : Position) (s : State) (known : Log → Prop) : Prop :=
  ∀ memo offset, s.deadEnds.contains memo offset = true →
    ∃ p pending l, start.LeadsTo p ∧ p.cursor.offset = offset ∧
      memo.rule.phrase.Reads .empty p (.missed pending) l ∧ known l

/-- Each remembered failure is a failure. -/
abbrev State.Justified (start : Position) (s : State) : Prop := s.Recalled start fun _ => True

/--
Nesting stayed within the limit, and each remembered failure is a failure all of whose events are
known.
-/
structure State.Sane (start : Position) (s : State) : Prop where
  shallow : s.tooDeep = none
  ordered : s.record.Ordered
  recalled : s.Recalled start fun l => ∀ event ∈ l.events, s.record.Knows event

/-- The events of a log happened between two states. -/
structure State.After (start : Position) (s : State) (l : Log) (t : State) : Prop where
  record_eq : t.record = s.record.replay l.events
  depth_eq : t.depth = s.depth
  sane : t.Sane start

/--
A state comes after another one, and the events of a log happened in between unless they are nested
beyond the limit.
-/
structure State.Passed (start : Position) (limit : Nat) (s : State) (l : Log) (t : State) :
    Prop where
  depth_eq : t.depth = s.depth
  justified : t.Justified start
  exact : s.Sane start → s.depth + l.depth ≤ limit → s.After start l t

namespace State

variable {start : Position} {limit : Nat} {s t u : State}

theorem Sane.justified (sane : s.Sane start) : s.Justified start := by
  intro memo offset known
  obtain ⟨p, pending, l, ahead, offset_eq, reads, -⟩ := sane.recalled memo offset known
  exact ⟨p, pending, l, ahead, offset_eq, reads, trivial⟩

/-- Events keep a state sane. -/
theorem Sane.replay (sane : s.Sane start) (events : List Event)
    (record_eq : t.record = s.record.replay events) (shallow : t.tooDeep = none)
    (deadEnds_eq : t.deadEnds = s.deadEnds) : t.Sane start where
  shallow := shallow
  ordered := record_eq ▸ sane.ordered.replay events
  recalled memo offset known := by
    rw [deadEnds_eq] at known
    obtain ⟨p, pending, l, ahead, offset_eq, reads, knows⟩ := sane.recalled memo offset known
    refine ⟨p, pending, l, ahead, offset_eq, reads, fun event member => ?_⟩
    rw [record_eq]
    exact (knows event member).replay events

theorem After.trans {l m : Log} (first : After start s l t) (second : After start t m u) :
    After start s (l.append m) u where
  record_eq := by
    rw [second.record_eq, first.record_eq, Log.append, Record.replay_append]
  depth_eq := second.depth_eq.trans first.depth_eq
  sane := second.sane

theorem Passed.of_events (justified : s.Justified start) (l : Log)
    (record_eq : t.record = s.record.replay l.events) (depth_eq : t.depth = s.depth)
    (tooDeep_eq : t.tooDeep = s.tooDeep) (deadEnds_eq : t.deadEnds = s.deadEnds) :
    Passed start limit s l t where
  depth_eq := depth_eq
  justified memo offset known := justified memo offset (deadEnds_eq ▸ known)
  exact sane _ := ⟨record_eq, depth_eq,
    sane.replay l.events record_eq (tooDeep_eq.trans sane.shallow) deadEnds_eq⟩

theorem Passed.refl (justified : s.Justified start) : Passed start limit s .empty s :=
  .of_events justified _ rfl rfl rfl rfl

theorem Passed.trans {l m : Log} (first : Passed start limit s l t)
    (second : Passed start limit t m u) : Passed start limit s (l.append m) u where
  depth_eq := second.depth_eq.trans first.depth_eq
  justified := second.justified
  exact sane deep := by
    simp only [Log.append] at deep
    have after := first.exact sane (by omega)
    exact after.trans (second.exact after.sane (by rw [first.depth_eq]; omega))

theorem Passed.expect (justified : s.Justified start) (p : Position) (label : String) :
    Passed start limit s (.sought p label) (s.expect p label) := by
  refine .of_events justified _ (s.record_expect p label) ?_ ?_ ?_ <;>
  · unfold State.expect
    split
    · rfl
    · split <;> rfl

theorem Passed.accept (justified : s.Justified start) (noted : List Malformed) (lexeme : Lexeme)
    (operand : Option Operand) :
    Passed start limit s .read ({ s with pending := noted }.accept lexeme operand) := by
  cases operand with
  | none => exact .of_events justified _ rfl rfl rfl rfl
  | some operand => exact .of_events justified _ rfl rfl rfl rfl

/-- An attempt that read no number gives none up. -/
theorem Passed.retreat (justified : t.Justified start) (pending_eq : t.pending = s.pending)
    (x : Yield) : Passed start limit t (.abandoned x x.malformed) (s.retreat t) := by
  refine .of_events justified _ ?_ rfl rfl rfl
  simp [State.record, State.retreat, pending_eq, Log.abandoned]

theorem After.expect (sane : s.Sane start) (p : Position) (label : String) :
    After start s (.sought p label) (s.expect p label) := by
  have passed : Passed start s.depth s _ _ := .expect sane.justified p label
  exact passed.exact sane le_rfl

theorem After.accept (sane : s.Sane start) (noted : List Malformed) (lexeme : Lexeme)
    (operand : Option Operand) :
    After start s .read ({ s with pending := noted }.accept lexeme operand) := by
  have passed : Passed start s.depth s _ _ := .accept sane.justified noted lexeme operand
  exact passed.exact sane le_rfl

/-- A failure may be remembered once all that it reports has been reported. -/
theorem Passed.remember {memo : Memo} {p : Position} {pending : List Malformed} {l : Log}
    (passed : Passed start limit s l t) (ahead : start.LeadsTo p)
    (reads : memo.rule.phrase.Reads .empty p (.missed pending) l) :
    Passed start limit s l { t with deadEnds := t.deadEnds.insert memo p.cursor.offset } := by
  have recalled {known : Log → Prop} (before : t.Recalled start known) (now : known l) :
      Recalled start { t with deadEnds := t.deadEnds.insert memo p.cursor.offset } known := by
    intro other offset contained
    rw [DeadEnds.contains_insert, Bool.or_eq_true, decide_eq_true_eq] at contained
    rcases contained with ⟨rfl, rfl⟩ | contained
    · exact ⟨p, pending, l, ahead, rfl, reads, now⟩
    · exact before other offset contained
  refine ⟨passed.depth_eq, recalled passed.justified trivial, fun sane deep => ?_⟩
  have after := passed.exact sane deep
  refine ⟨after.record_eq, after.depth_eq, after.sane.shallow, after.sane.ordered, ?_⟩
  refine recalled after.sane.recalled fun event member => ?_
  change t.record.Knows event
  rw [after.record_eq]
  exact Record.knows_replay _ member

end State

/-! ## Following -/

/-- An outcome is what a verdict says, on top of what was there before, or nothing came out. -/
def Outcome.Follows (start : Position) (limit : Nat) (s₀ : State) (p₀ : Position) (s : State)
    (v : Verdict) (l : Log) : Outcome → Prop
  | .matched q t => ∃ y, v = .matched y q ∧ Stands s₀ p₀ y t q ∧ s.Passed start limit l t
  | .missed t =>
      ∃ pending, v = .missed pending ∧ t.pending = s₀.pending ++ pending ∧
        s.Passed start limit l t
  | .broken => True

namespace Outcome.Follows

variable {start : Position} {limit : Nat} {s₀ s t : State} {p₀ p q : Position} {x y : Yield}
  {v : Verdict} {l m : Log} {pending : List Malformed} {outcome : Outcome}

theorem matched (follows : outcome.Follows start limit s₀ p₀ s (.matched y q) l) :
    (∃ t, outcome = .matched q t ∧ Stands s₀ p₀ y t q ∧ s.Passed start limit l t) ∨
      outcome = .broken := by
  cases outcome with
  | matched q' t =>
      obtain ⟨y', same, stands, after⟩ := follows
      obtain ⟨rfl, rfl⟩ := Verdict.matched.inj same
      exact Or.inl ⟨t, rfl, stands, after⟩
  | missed t =>
      obtain ⟨_, same, -⟩ := follows
      exact absurd same (by simp)
  | broken => exact Or.inr rfl

theorem missed (follows : outcome.Follows start limit s₀ p₀ s (.missed pending) l) :
    (∃ t, outcome = .missed t ∧ t.pending = s₀.pending ++ pending ∧ s.Passed start limit l t) ∨
      outcome = .broken := by
  cases outcome with
  | matched q t =>
      obtain ⟨_, same, -⟩ := follows
      exact absurd same (by simp)
  | missed t =>
      obtain ⟨pending', same, pending_eq, after⟩ := follows
      obtain rfl := Verdict.missed.inj same
      exact Or.inl ⟨t, rfl, pending_eq, after⟩
  | broken => exact Or.inr rfl

/-- What is read from a place on comes after what was read up to there. -/
theorem onto (stands : Stands s₀ p₀ x s p)
    (follows : outcome.Follows start limit s p s (.matched y q) l) :
    outcome.Follows start limit s₀ p₀ s (.matched (x.append y) q) l := by
  rcases follows.matched with ⟨t, rfl, stands', after⟩ | rfl
  · exact ⟨_, rfl, stands.trans stands', after⟩
  · trivial

theorem noOnto (stands : Stands s₀ p₀ x s p)
    (follows : outcome.Follows start limit s p s (.missed pending) l) :
    outcome.Follows start limit s₀ p₀ s (.missed (x.malformed ++ pending)) l := by
  rcases follows.missed with ⟨t, rfl, pending_eq, after⟩ | rfl
  · refine ⟨_, rfl, ?_, after⟩
    rw [pending_eq, stands.pending, List.append_assoc]
  · trivial

/-- What happened before can be put in front. -/
theorem after (first : s.Passed start limit l t)
    (follows : outcome.Follows start limit s₀ p₀ t v m) :
    outcome.Follows start limit s₀ p₀ s v (l.append m) := by
  cases outcome with
  | matched q u =>
      obtain ⟨y, same, stands, second⟩ := follows
      exact ⟨y, same, stands, first.trans second⟩
  | missed u =>
      obtain ⟨pending, same, pending_eq, second⟩ := follows
      exact ⟨pending, same, pending_eq, first.trans second⟩
  | broken => trivial

end Outcome.Follows

/-- A reader follows a verdict wherever the tokens read stand within the limit. -/
def Reader.Follows (start : Position) (limit : Nat) (s₀ : State) (p₀ : Position) (x : Yield)
    (p : Position) (v : Verdict) (l : Log) (read : Reader) : Prop :=
  ∀ s, Stands s₀ p₀ x s p → s.Justified start → s.depth + l.reach ≤ limit + 1 →
    (read s p).Follows start limit s₀ p₀ s v l

namespace Reader.Follows

variable {start : Position} {limit : Nat} {s₀ : State} {p₀ p q : Position} {x y : Yield}
  {v : Verdict} {l m : Log} {read read' : Reader} {pending : List Malformed} {literal : Literal}
  {rest : List Char}

theorem token {t : Terminal} (leaf : Leaf) {piece : Piece}
    (found : t.match? p = some piece.lexeme) (accepts : t.Accepts piece.token)
    (here : piece.At p) :
    (Reader.token t leaf).Follows start limit s₀ p₀ x p
      (.matched (x.read piece (leaf.operand? piece.lexeme).toList) piece.lexeme.next) .read := by
  intro s stands justified _
  simp only [Reader.token, found]
  refine ⟨_, rfl, ?_, .accept justified s.pending piece.lexeme _⟩
  exact stands.accept here _ s.pending (by simp [accepts.malformed?_eq_none])

theorem noToken {t : Terminal} (leaf : Leaf) (absent : t.match? p = none) :
    (Reader.token t leaf).Follows start limit s₀ p₀ x p (.missed x.malformed)
      (.sought p t.label) := by
  intro s stands justified _
  rw [Reader.token_of_none leaf s absent]
  exact ⟨_, rfl, by rw [State.pending_expect, stands.pending], .expect justified p t.label⟩

theorem andThen (first : read.Follows start limit s₀ p₀ x p (.matched y q) l)
    (second : read'.Follows start limit s₀ p₀ y q v m) :
    (read.andThen read').Follows start limit s₀ p₀ x p v (l.append m) := by
  intro s stands justified deep
  simp only [Log.append] at deep
  rcases (first s stands justified (by omega)).matched with ⟨t, outcome, between, after⟩ | outcome
  · simp only [Reader.andThen, outcome]
    exact (second t between after.justified (by rw [after.depth_eq]; omega)).after after
  · simp only [Reader.andThen, outcome]
    trivial

theorem noAndThen (first : read.Follows start limit s₀ p₀ x p (.missed pending) l) :
    (read.andThen read').Follows start limit s₀ p₀ x p (.missed pending) l := by
  intro s stands justified deep
  rcases (first s stands justified deep).missed with ⟨t, outcome, pending_eq, after⟩ | outcome
  · simp only [Reader.andThen, outcome]
    exact ⟨_, rfl, pending_eq, after⟩
  · simp only [Reader.andThen, outcome]
    trivial

theorem attempt (inner : read.Follows start limit s₀ p₀ x p (.matched y q) l) :
    read.attempt.Follows start limit s₀ p₀ x p (.matched y q) l := by
  intro s stands justified deep
  rcases (inner s stands justified deep).matched with ⟨t, outcome, stands', after⟩ | outcome
  · simp only [Reader.attempt_eq, outcome]
    exact ⟨y, rfl, stands', after⟩
  · simp only [Reader.attempt_eq, outcome]
    trivial

/-- A failed attempt gives its malformed numbers up and goes back to those before. -/
theorem retreat (inner : read.Follows start limit s₀ p₀ x p (.missed pending) l) {s : State}
    (stands : Stands s₀ p₀ x s p) (justified : s.Justified start)
    (deep : s.depth + l.reach ≤ limit + 1)
    (before : x.malformed <+: pending) :
    (∃ t, read.attempt s p = .missed t ∧ t.pending = s.pending ∧
        s.Passed start limit (l.append (.abandoned x pending)) t) ∨
      read.attempt s p = .broken := by
  rcases (inner s stands justified deep).missed with ⟨t, outcome, pending_eq, after⟩ | outcome
  · left
    obtain ⟨more, rfl⟩ := before
    have dropped : t.pending.drop s.pending.length = more := by
      rw [pending_eq, stands.pending, ← List.append_assoc, List.drop_left]
    refine ⟨s.retreat t, by rw [Reader.attempt_eq, outcome], ?_, after.trans ?_⟩
    · exact State.pending_retreat ⟨more, by rw [pending_eq, stands.pending, List.append_assoc]⟩
    · refine .of_events after.justified _ ?_ rfl rfl rfl
      have recorded := t.record_abandon more
      rw [Log.abandoned, List.drop_left]
      simpa only [State.record, State.retreat, dropped] using recorded
  · right
    rw [Reader.attempt_eq, outcome]

theorem noAttempt (inner : read.Follows start limit s₀ p₀ x p (.missed pending) l)
    (before : x.malformed <+: pending) :
    read.attempt.Follows start limit s₀ p₀ x p (.missed x.malformed)
      (l.append (.abandoned x pending)) := by
  intro s stands justified deep
  have deep' : s.depth + l.reach ≤ limit + 1 := by
    simp only [Log.append, Log.abandoned] at deep
    omega
  rcases inner.retreat stands justified deep' before with ⟨t, outcome, pending_eq, after⟩ | outcome
  · rw [outcome]
    exact ⟨_, rfl, pending_eq.trans stands.pending, after⟩
  · rw [outcome]
    trivial

theorem orElse (first : read.Follows start limit s₀ p₀ x p (.matched y q) l) :
    (read.orElse read').Follows start limit s₀ p₀ x p (.matched y q) l := by
  intro s stands justified deep
  rcases (first.attempt s stands justified deep).matched with ⟨t, outcome, stands', after⟩ | outcome
  · simp only [Reader.orElse, outcome]
    exact ⟨y, rfl, stands', after⟩
  · simp only [Reader.orElse, outcome]
    trivial

/-- The second alternative is read from where the first one started, or it fails as the log says. -/
theorem orElse_second (first : read.Follows start limit s₀ p₀ x p (.missed pending) l)
    (before : x.malformed <+: pending)
    (second : ∀ s t, Stands s₀ p₀ x s p → read.attempt s p = .missed t →
      t.pending = s.pending → t.Justified start → t.depth + m.reach ≤ limit + 1 →
      (read' t p).Follows start limit s₀ p₀ t v m) :
    (read.orElse read').Follows start limit s₀ p₀ x p v
      (l.append ((Log.abandoned x pending).append m)) := by
  intro s stands justified deep
  simp only [Log.append, Log.abandoned] at deep
  rcases first.retreat stands justified (by omega) before with
    ⟨t, outcome, pending_eq, after⟩ | outcome
  · have two := second s t stands outcome pending_eq after.justified (by rw [after.depth_eq]; omega)
    simp only [Reader.orElse, outcome]
    have joined := two.after after
    simpa only [Log.append, List.append_assoc, Nat.max_assoc] using joined
  · simp only [Reader.orElse, outcome]
    trivial

/-- A phrase that is barred fails whatever operands there are. -/
theorem barred {second : Phrase} (barred : second.Barred p) (reads : second.Reads x p v m)
    {settings : Settings} (positive : 0 < settings.repeats) (rule : Rule → Reader)
    (frame : Frame) {t : State} (pending_eq : t.pending = s₀.pending ++ x.malformed)
    (justified : t.Justified start) :
    (second.run settings rule frame t p).Follows start limit s₀ p₀ t v m := by
  obtain @⟨opening, closing, _, _, _, _, absent, unclosed⟩ := barred
  obtain ⟨rfl, rfl⟩ := reads.unique
    (.seq (.done (.noSeq (.noToken absent))) (.noSeq (.noToken unclosed)))
  rw [Phrase.run_of_absent _ _ _ _ absent unclosed positive]
  have first : t.Passed start limit _ _ := .expect justified p opening.label
  have between := first.trans
    (State.Passed.retreat first.justified (State.pending_expect t p opening.label) x)
  refine ⟨_, rfl, ?_, between.trans (State.Passed.expect between.justified p _)⟩
  rw [State.pending_expect, State.pending_retreat (by rw [State.pending_expect]), pending_eq]

theorem option (inner : read.Follows start limit s₀ p₀ x p (.matched y q) l) :
    read.option.Follows start limit s₀ p₀ x p (.matched y q) l := by
  intro s stands justified deep
  rcases (inner.attempt s stands justified deep).matched with ⟨t, outcome, stands', after⟩ | outcome
  · simp only [Reader.option, outcome]
    exact ⟨y, rfl, stands', after⟩
  · simp only [Reader.option, outcome]
    trivial

theorem noOption {spec : Rule → Yield → Prop} {phrase : Phrase}
    (sound : read.Sound spec phrase s₀ p₀) (is_clean : phrase.clean = true)
    (inner : read.Follows start limit s₀ p₀ x p (.missed pending) l)
    (before : x.malformed <+: pending) :
    read.option.Follows start limit s₀ p₀ x p (.matched x p)
      (l.append (.abandoned x pending)) := by
  intro s stands justified deep
  simp only [Log.append, Log.abandoned] at deep
  rcases inner.retreat stands justified (by omega) before with
    ⟨t, outcome, pending_eq, after⟩ | outcome
  · simp only [Reader.option, outcome]
    exact ⟨x, rfl, sound.retreat stands outcome is_clean, after⟩
  · simp only [Reader.option, outcome]
    trivial

theorem more (first : read.Follows start limit s₀ p₀ x p (.matched y q) l)
    (others : ∀ rounds, (read.many rounds).Follows start limit s₀ p₀ y q v m) (rounds : Nat) :
    (read.many rounds).Follows start limit s₀ p₀ x p v (l.append m) := by
  intro s stands justified deep
  simp only [Log.append] at deep
  cases rounds with
  | zero => trivial
  | succ rounds =>
      rcases (first.attempt s stands justified (by omega)).matched with
        ⟨t, outcome, between, after⟩ | outcome
      · simp only [Reader.many, outcome]
        exact (others rounds t between after.justified (by rw [after.depth_eq]; omega)).after after
      · simp only [Reader.many, outcome]
        trivial

theorem done {spec : Rule → Yield → Prop} {phrase : Phrase}
    (sound : read.Sound spec phrase s₀ p₀) (is_clean : phrase.clean = true)
    (inner : read.Follows start limit s₀ p₀ x p (.missed pending) l)
    (before : x.malformed <+: pending) (rounds : Nat) :
    (read.many rounds).Follows start limit s₀ p₀ x p (.matched x p)
      (l.append (.abandoned x pending)) := by
  intro s stands justified deep
  simp only [Log.append, Log.abandoned] at deep
  cases rounds with
  | zero => trivial
  | succ rounds =>
      rcases inner.retreat stands justified (by omega) before with
        ⟨t, outcome, pending_eq, after⟩ | outcome
      · simp only [Reader.many, outcome]
        exact ⟨x, rfl, sound.retreat stands outcome is_clean, after⟩
      · simp only [Reader.many, outcome]
        trivial

theorem yes {t : Terminal} {piece : Piece} (found : t.match? p = some piece.lexeme)
    (accepts : t.Accepts piece.token) (here : piece.At p)
    (inner : read.Follows start limit s₀ p₀ (x.read piece []) piece.lexeme.next v l) :
    (Reader.branch t read read').Follows start limit s₀ p₀ x p v (Log.read.append l) := by
  intro s stands justified deep
  have one : (Reader.token t .nothing).Follows start limit s₀ p₀ x p _ _ :=
    token .nothing found accepts here
  have both := one.andThen inner s stands justified deep
  simp only [Reader.andThen, Reader.token, found] at both
  simp only [Reader.branch, Reader.token, found]
  exact both

theorem no {t : Terminal} (absent : t.match? p = none)
    (inner : read'.Follows start limit s₀ p₀ x p v l) :
    (Reader.branch t read read').Follows start limit s₀ p₀ x p v
      ((Log.sought p t.label).append l) := by
  intro s stands justified deep
  simp only [Log.append, Log.sought] at deep
  have after : s.Passed start limit _ _ := .expect justified p t.label
  simp only [Reader.branch, Reader.token_of_none .nothing s absent]
  refine (inner _ (stands.expect p t.label) after.justified ?_).after after
  rw [after.depth_eq]
  omega

/-- A level beyond the limit fails at once, as it does if no token is to be read in it. -/
theorem nested (inner : read.Follows start limit s₀ p₀ x p v l)
    (still : l.reach = 0 → v = .missed x.malformed) :
    (Reader.nested limit read).Follows start limit s₀ p₀ x p v l.deeper := by
  intro s stands justified deep
  by_cases full : limit ≤ s.depth
  · have unread : l.reach = 0 := by
      by_contra token
      simp only [Log.deeper, token, if_false] at deep
      omega
    simp only [Reader.nested, full, if_true]
    refine ⟨_, still unread, stands.pending, rfl, justified, fun _ low => ?_⟩
    simp only [Log.deeper] at low
    omega
  · have deep' : s.depth + 1 + l.reach ≤ limit + 1 := by
      simp only [Log.deeper] at deep
      split at deep <;> omega
    have inside := inner _ (stands.deeper (s.depth + 1)) justified deep'
    have lowered {t : State}
        (passed : State.Passed start limit { s with depth := s.depth + 1 } l t) :
        s.Passed start limit l.deeper { t with depth := t.depth - 1 } := by
      have depth_eq : t.depth - 1 = s.depth := by rw [passed.depth_eq, Nat.add_sub_cancel]
      refine ⟨depth_eq, passed.justified, fun sane low => ?_⟩
      have after := passed.exact (sane.replay [] rfl sane.shallow rfl)
        (by simp only [Log.deeper] at low ⊢; omega)
      exact ⟨after.record_eq, depth_eq, after.sane.replay [] rfl after.sane.shallow rfl⟩
    simp only [Reader.nested, full, if_false]
    cases outcome : read { s with depth := s.depth + 1 } p with
    | matched q t =>
        rw [outcome] at inside
        obtain ⟨y, same, stands', passed⟩ := inside
        exact ⟨y, same, stands'.deeper _, lowered passed⟩
    | missed t =>
        rw [outcome] at inside
        obtain ⟨pending, same, pending_eq, passed⟩ := inside
        exact ⟨pending, same, pending_eq, lowered passed⟩
    | broken => trivial

/-- A remembered failure is the failure that would come out again. -/
theorem remembered {memo : Memo} {inner : Phrase}
    (phrase_eq : memo.rule.phrase = .remembered memo inner)
    (reads : (Phrase.remembered memo inner).Reads .empty p v l) (ahead : start.LeadsTo p)
    (attempted : read.attempt.Follows start limit s₀ p₀ .empty p v l) :
    (Reader.remembered memo read).Follows start limit s₀ p₀ .empty p v l := by
  intro s stands justified deep
  unfold Reader.remembered
  split
  · rename_i known
    have same {pending' : List Malformed} {p' : Position} {l' : Log} (ahead' : start.LeadsTo p')
        (offset_eq : p'.cursor.offset = p.cursor.offset)
        (reads' : memo.rule.phrase.Reads .empty p' (.missed pending') l') :
        v = .missed pending' ∧ l = l' := by
      obtain rfl := Position.LeadsTo.eq_of_offset ahead' ahead offset_eq
      rw [phrase_eq] at reads'
      exact reads.unique reads'
    obtain ⟨p', pending, l', ahead', offset_eq, reads', -⟩ := justified memo _ known
    obtain ⟨rfl, rfl⟩ := same ahead' offset_eq reads'
    have none_pending : pending = [] := by
      cases reads with
      | remembered inner =>
          cases inner with
          | noAttempt _ => rfl
    refine ⟨pending, rfl, by rw [none_pending]; exact stands.pending, rfl, justified, ?_⟩
    intro sane _
    obtain ⟨p', pending', l', ahead', offset_eq, reads', knows⟩ := sane.recalled memo _ known
    obtain ⟨-, rfl⟩ := same ahead' offset_eq reads'
    exact ⟨(Record.replay_of_knows sane.ordered knows).symm, rfl, sane⟩
  · have outcome_follows := attempted s stands justified deep
    cases outcome : read.attempt s p with
    | matched q t =>
        rw [outcome] at outcome_follows
        exact outcome_follows
    | missed t =>
        rw [outcome] at outcome_follows
        obtain ⟨pending, rfl, pending_eq, passed⟩ := outcome_follows
        simp only
        split
        · exact ⟨pending, rfl, pending_eq, passed.remember ahead (phrase_eq ▸ reads)⟩
        · exact ⟨pending, rfl, pending_eq, passed⟩
    | broken => trivial

theorem number (read_eq : Literal.read? p.rest = some (literal, rest))
    (sound : literal.spoiledBy rest = false) :
    Reader.number.Follows start limit s₀ p₀ x p
      (.matched (x.read (.number p literal rest)
        [.expr (.number literal.value (Piece.number p literal rest).lexeme.span)])
        (Piece.number p literal rest).lexeme.next) .read := by
  intro s stands justified _
  have scan : p.number = .number literal.value (Piece.number p literal rest).lexeme := by
    simp [Position.number, read_eq, sound, Piece.number]
  have here : (Piece.number p literal rest).At p := by
    obtain ⟨wellFormed, rest_eq⟩ := Literal.read?_spec read_eq
    exact ⟨rest, rest_eq, ⟨wellFormed, sound⟩, rfl⟩
  simp only [Reader.number, scan]
  refine ⟨_, rfl, ?_, .accept justified s.pending _ _⟩
  exact stands.accept here (some _) s.pending (by simp [Piece.malformed?, Piece.number])

theorem malformed (read_eq : Literal.read? p.rest = some (literal, rest))
    (spoiled : literal.spoiledBy rest = true) :
    Reader.number.Follows start limit s₀ p₀ x p
      (.matched (x.read (.malformed p literal rest)
        [.expr (.number 0 (Piece.malformed p literal rest).lexeme.span)])
        (Piece.malformed p literal rest).lexeme.next) .read := by
  intro s stands justified _
  have scan : p.number = .malformed (p.cursor.advance literal.chars)
      (Piece.malformed p literal rest).lexeme := by
    simp [Position.number, read_eq, spoiled, Piece.malformed]
  have split_rest := Literal.spoiledTail_spec rest
  have here : (Piece.malformed p literal rest).At p := by
    obtain ⟨wellFormed, rest_eq⟩ := Literal.read?_spec read_eq
    refine ⟨rest.drop (Literal.spoiledTail rest).length, ?_, ⟨wellFormed, ?_, ?_⟩, rfl⟩
    · simp only [Piece.malformed, Token.chars, List.append_assoc, ← split_rest, rest_eq]
    · rwa [← split_rest]
    · rw [← split_rest]
  simp only [Reader.number, scan]
  refine ⟨_, rfl, ?_, .accept justified _ _ _⟩
  exact stands.accept here (some _) _ (by simp [Piece.malformed?, Piece.malformed, Lexeme.ofChars])

theorem noNumber (absent : Literal.read? p.rest = none) :
    Reader.number.Follows start limit s₀ p₀ x p (.missed x.malformed) (.sought p "number") := by
  intro s stands justified _
  have scan : p.number = .absent := by simp [Position.number, absent]
  simp only [Reader.number, scan]
  exact ⟨_, rfl, by rw [State.pending_expect, stands.pending], .expect justified p "number"⟩

theorem afterIndex {frame : Frame} (mark_eq : frame.mark = s₀.operands.height)
    (ends : x.EndsInIndex) (inner : read.option.Follows start limit s₀ p₀ x p v l) :
    (Reader.afterIndex frame read).Follows start limit s₀ p₀ x p v l := by
  intro s stands justified deep
  obtain ⟨e, newest, is_index⟩ := ends
  simp only [Reader.afterIndex, mark_eq, stands.above, newest, is_index, if_true]
  exact inner s stands justified deep

theorem notAfterIndex {frame : Frame} (mark_eq : frame.mark = s₀.operands.height)
    (not_ends : ¬ x.EndsInIndex) :
    (Reader.afterIndex frame read).Follows start limit s₀ p₀ x p (.matched x p) .empty := by
  intro s stands justified _
  have follows : (Outcome.matched p s).Follows start limit s₀ p₀ s (.matched x p) .empty :=
    ⟨x, rfl, stands, .refl justified⟩
  simp only [Reader.afterIndex, mark_eq, stands.above]
  split
  · rename_i e newest
    split
    · rename_i is_index
      exact absurd ⟨e, newest, is_index⟩ not_ends
    · exact follows
  · exact follows

theorem reduce {r : Reduction} {operand : Operand} (some_piece : x.pieces ≠ [])
    (built : r.build? x.span (x.operands.drop (r.kept x.operands.length)) = some operand) :
    (Reader.reduce r ⟨p₀.cursor, s₀.operands.height⟩).Follows start limit s₀ p₀ x p
      (.matched ⟨x.pieces, x.operands.take (r.kept x.operands.length) ++ [operand]⟩ p) .empty := by
  intro s stands justified _
  simp only [Reader.reduce, stands.count, stands.above_add, stands.spanTo some_piece, built]
  refine ⟨_, rfl, ⟨stands.spelled, ?_, stands.pending, stands.lastEnd⟩, ?_⟩
  · rw [Stack.items_push, stands.items_truncate_add]
    simp
  · exact .of_events justified _ rfl rfl rfl rfl

end Reader.Follows

/-! ## Phrases -/

namespace Phrase

/-- Whether no failure inside a phrase is remembered, and each level of it reads something. -/
def plain : Phrase → Bool
  | .token .. | .number | .rule _ | .reduce _ => true
  | .seq first second | .choice first second => first.plain && second.plain
  | .branch _ yes no => yes.plain && no.plain
  | .attempt phrase | .option phrase | .many phrase | .afterIndex phrase => phrase.plain
  | .nested phrase => phrase.plain && phrase.consumes
  | .remembered .. => false

/-- A phrase is part of a rule, or it is the whole of a rule of which nothing was read yet. -/
def Proper (phrase : Phrase) (x : Yield) : Prop :=
  phrase.plain = true ∨ x = .empty ∧ ∃ r : Rule, phrase = r.phrase

/-- A rule is plain, or remembered as a whole. -/
theorem plain_phrase (r : Rule) :
    r.phrase.plain = true ∨
      ∃ memo inner, r = memo.rule ∧ r.phrase = .remembered memo inner ∧ inner.plain = true := by
  cases r with
  | args => exact Or.inr ⟨.args, _, rfl, rfl, rfl⟩
  | conditional => exact Or.inr ⟨.conditional, _, rfl, rfl, rfl⟩
  | lambda => exact Or.inr ⟨.lambda, _, rfl, rfl, rfl⟩
  | _ => exact Or.inl rfl

theorem Proper.remembered {memo : Memo} {inner : Phrase} {x : Yield}
    (proper : (Phrase.remembered memo inner).Proper x) :
    x = .empty ∧ memo.rule.phrase = .remembered memo inner ∧ inner.plain = true := by
  rcases proper with is_plain | ⟨rfl, r, phrase_eq⟩
  · simp [Phrase.plain] at is_plain
  · rcases plain_phrase r with is_plain | ⟨memo', inner', rfl, phrase_eq', is_plain⟩
    · rw [← phrase_eq] at is_plain
      simp [Phrase.plain] at is_plain
    · rw [← phrase_eq, Phrase.remembered.injEq] at phrase_eq'
      obtain ⟨rfl, rfl⟩ := phrase_eq'
      exact ⟨rfl, phrase_eq.symm, is_plain⟩

theorem Proper.plain {phrase : Phrase} {x : Yield} (proper : phrase.Proper x)
    (other : ∀ memo inner, phrase ≠ .remembered memo inner) : phrase.plain = true := by
  rcases proper with is_plain | ⟨-, r, rfl⟩
  · exact is_plain
  · rcases plain_phrase r with is_plain | ⟨memo, inner, -, phrase_eq, -⟩
    · exact is_plain
    · exact absurd phrase_eq (other memo inner)

/-- Reading a phrase, with a number of rounds of its own if it is a repetition. -/
def runRounds (settings : Settings) (rule : Rule → Reader) (frame : Frame) (rounds : Nat) :
    Phrase → Reader
  | .many phrase => (phrase.run settings rule frame).many rounds
  | phrase => phrase.run settings rule frame

theorem runRounds_repeats (settings : Settings) (rule : Rule → Reader) (frame : Frame)
    (phrase : Phrase) :
    phrase.runRounds settings rule frame settings.repeats = phrase.run settings rule frame := by
  cases phrase <;> rfl

/-- Where a phrase follows a verdict with any number of rounds, it does so when it is read. -/
theorem follows_of_rounds {settings : Settings} {rule : Rule → Reader} {frame : Frame}
    {start : Position} {limit : Nat} {s₀ : State} {p₀ p : Position} {x : Yield} {v : Verdict}
    {l : Log} {phrase : Phrase}
    (every : ∀ rounds, (phrase.runRounds settings rule frame rounds).Follows start limit s₀ p₀ x p
      v l) :
    (phrase.run settings rule frame).Follows start limit s₀ p₀ x p v l := by
  have repeated := every settings.repeats
  rwa [runRounds_repeats] at repeated

theorem Reads.runRounds_follows {settings : Settings} (positive : 0 < settings.repeats)
    {start : Position} {phrase : Phrase} {x : Yield} {p : Position} {v : Verdict} {l : Log}
    (reads : phrase.Reads x p v l) (proper : phrase.Proper x) (is_tidy : phrase.tidy = true)
    (fuel : Nat) (s₀ : State) {p₀ : Position} (ahead : start.LeadsTo p₀) (rounds : Nat) :
    (phrase.runRounds settings (Rule.run settings fuel) ⟨p₀.cursor, s₀.operands.height⟩
      rounds).Follows start settings.maxNesting s₀ p₀ x p v l := by
  have sound (fuel : Nat) (s₀ : State) (p₀ : Position) {phrase : Phrase}
      (is_tidy : phrase.tidy = true) :=
    Phrase.run_sound positive (Rule.run_sound Rule.meets_of_takes positive fuel) s₀ p₀ is_tidy
  induction reads generalizing fuel s₀ p₀ rounds with
  | token found accepts here => exact .token _ found accepts here
  | noToken absent => exact .noToken _ absent
  | number read_eq sound => exact .number read_eq sound
  | malformed read_eq spoiled => exact .malformed read_eq spoiled
  | noNumber absent => exact .noNumber absent
  | @rule r x z p q l _ ih =>
      intro s stands justified deep
      cases fuel with
      | zero => trivial
      | succ fuel =>
          have inner := follows_of_rounds (ih (Or.inr ⟨rfl, r, rfl⟩) (tidy_phrase r) fuel s
            (ahead.trans stands.spelled.leadsTo))
          exact (inner s (.refl s p) justified deep).onto stands
  | @noRule r x p pending l _ ih =>
      intro s stands justified deep
      cases fuel with
      | zero => trivial
      | succ fuel =>
          have inner := follows_of_rounds (ih (Or.inr ⟨rfl, r, rfl⟩) (tidy_phrase r) fuel s
            (ahead.trans stands.spelled.leadsTo))
          exact (inner s (.refl s p) justified deep).noOnto stands
  | seq _ _ ih_first ih_second =>
      have is_plain := proper.plain (by simp)
      simp only [plain, tidy, Bool.and_eq_true] at is_plain is_tidy
      have one := follows_of_rounds (ih_first (Or.inl is_plain.1) is_tidy.1 fuel s₀ ahead)
      exact one.andThen
        (follows_of_rounds (ih_second (Or.inl is_plain.2) is_tidy.2 fuel s₀ ahead))
  | noSeq _ ih =>
      have is_plain := proper.plain (by simp)
      simp only [plain, tidy, Bool.and_eq_true] at is_plain is_tidy
      exact (follows_of_rounds (ih (Or.inl is_plain.1) is_tidy.1 fuel s₀ ahead)).noAndThen
  | first _ ih =>
      have is_plain := proper.plain (by simp)
      simp only [plain, tidy, Bool.and_eq_true] at is_plain is_tidy
      exact (follows_of_rounds (ih (Or.inl is_plain.1) is_tidy.1.1 fuel s₀ ahead)).orElse
  | second reads_first reads_second ih_first ih_second =>
      have is_plain := proper.plain (by simp)
      have both := is_tidy
      simp only [plain, tidy, Bool.and_eq_true] at is_plain both
      have one := follows_of_rounds (ih_first (Or.inl is_plain.1) both.1.1 fuel s₀ ahead)
      have two := follows_of_rounds (ih_second (Or.inl is_plain.2) both.1.2 fuel s₀ ahead)
      refine one.orElse_second (reads_first.pending rfl)
        fun s t stands outcome pending_eq sane deep => ?_
      rcases stands.settled is_tidy (sound fuel s₀ p₀ both.1.1) outcome with again | ⟨-, barred⟩
      · exact two t again sane deep
      · exact Reader.Follows.barred barred reads_second positive _ _
          (pending_eq.trans stands.pending) sane
  | yes found accepts here _ ih =>
      have is_plain := proper.plain (by simp)
      simp only [plain, tidy, Bool.and_eq_true] at is_plain is_tidy
      exact .yes found accepts here
        (follows_of_rounds (ih (Or.inl is_plain.1) is_tidy.1 fuel s₀ ahead))
  | no absent _ ih =>
      have is_plain := proper.plain (by simp)
      simp only [plain, tidy, Bool.and_eq_true] at is_plain is_tidy
      exact .no absent (follows_of_rounds (ih (Or.inl is_plain.2) is_tidy.2 fuel s₀ ahead))
  | attempt _ ih =>
      exact (follows_of_rounds
        (ih (Or.inl (proper.plain (by simp))) is_tidy fuel s₀ ahead)).attempt
  | noAttempt reads ih =>
      have inner := follows_of_rounds (ih (Or.inl (proper.plain (by simp))) is_tidy fuel s₀ ahead)
      exact inner.noAttempt (reads.pending rfl)
  | option _ ih =>
      simp only [tidy, Bool.and_eq_true] at is_tidy
      exact (follows_of_rounds
        (ih (Or.inl (proper.plain (by simp))) is_tidy.1 fuel s₀ ahead)).option
  | noOption reads ih =>
      simp only [tidy, Bool.and_eq_true] at is_tidy
      have inner :=
        follows_of_rounds (ih (Or.inl (proper.plain (by simp))) is_tidy.1 fuel s₀ ahead)
      exact inner.noOption (sound fuel s₀ p₀ is_tidy.1) is_tidy.2 (reads.pending rfl)
  | more _ _ ih_first ih_others =>
      have is_plain := proper.plain (by simp)
      have both := is_tidy
      simp only [tidy, Bool.and_eq_true] at both
      have one := follows_of_rounds (ih_first (Or.inl is_plain) both.1 fuel s₀ ahead)
      exact one.more (ih_others (Or.inl is_plain) is_tidy fuel s₀ ahead) rounds
  | done reads ih =>
      simp only [tidy, Bool.and_eq_true] at is_tidy
      have inner :=
        follows_of_rounds (ih (Or.inl (proper.plain (by simp))) is_tidy.1 fuel s₀ ahead)
      exact inner.done (sound fuel s₀ p₀ is_tidy.1) is_tidy.2 (reads.pending rfl) rounds
  | @nested _ _ _ v _ reads ih =>
      have is_plain := proper.plain (by simp)
      simp only [plain, Bool.and_eq_true] at is_plain
      have inner := follows_of_rounds (ih (Or.inl is_plain.1) is_tidy fuel s₀ ahead)
      refine inner.nested fun unread => ?_
      have still := reads.still unread
      cases v with
      | matched y q => simp [still.2] at is_plain
      | missed pending => rw [show pending = _ from still]
  | remembered reads ih =>
      obtain ⟨rfl, phrase_eq, is_plain⟩ := proper.remembered
      have inner := follows_of_rounds (ih (Or.inl is_plain) is_tidy fuel s₀ ahead)
      intro s stands justified deep
      simp only [runRounds, Phrase.run]
      split
      · have here := ahead.trans stands.spelled.leadsTo
        exact Reader.Follows.remembered phrase_eq (.remembered reads) here inner s stands justified
          deep
      · exact inner s stands justified deep
  | afterIndex ends _ ih =>
      exact .afterIndex rfl ends
        (follows_of_rounds (ih (Or.inl (proper.plain (by simp))) is_tidy fuel s₀ ahead))
  | notAfterIndex not_ends => exact .notAfterIndex rfl not_ends
  | reduce some_piece built => exact .reduce some_piece built

/-- The machine comes to what reading the phrase comes to. -/
theorem Reads.follows {settings : Settings} (positive : 0 < settings.repeats)
    {start : Position} {phrase : Phrase} {x : Yield} {p : Position} {v : Verdict} {l : Log}
    (reads : phrase.Reads x p v l) (proper : phrase.Proper x) (is_tidy : phrase.tidy = true)
    (fuel : Nat) (s₀ : State) {p₀ : Position} (ahead : start.LeadsTo p₀) :
    (phrase.run settings (Rule.run settings fuel) ⟨p₀.cursor, s₀.operands.height⟩).Follows start
      settings.maxNesting s₀ p₀ x p v l := by
  exact follows_of_rounds (reads.runRounds_follows positive proper is_tidy fuel s₀ ahead)

end Phrase

end Formwork
