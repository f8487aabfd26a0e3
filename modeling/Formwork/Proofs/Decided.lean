import Formwork.Proofs.Faithful
import Formwork.Proofs.Lasting

/-!
# Every reading within the limit is decided by the text

`Rule.decided`: where the machine reads a rule without remembering failures and without
nesting beyond the limit, the text decides what reading the phrase comes to, and the nesting that it
takes is within the limit. Together with `Phrase.Reads.follows` this makes readings comparable that
differ in what they remember.
-/

namespace Formwork

/-- Something came out, and nesting stayed within the limit. -/
def Outcome.Shallow : Outcome → Prop
  | .matched _ t => t.tooDeep = none
  | .missed t => t.tooDeep = none
  | .broken => False

namespace Reader

variable {start : Position} {read read' : Reader} {s : State} {p : Position}

/-- Nesting beyond the limit is not forgotten. -/
abbrev Recalls (start : Position) (read : Reader) : Prop :=
  read.Keeps start fun s t => t.tooDeep = none → s.tooDeep = none

/-- What stays within the limit to the end did so from the start. -/
theorem Recalls.shallow (recalls : read.Recalls start) (ahead : start.LeadsTo p)
    (shallow : (read s p).Shallow) : s.tooDeep = none := by
  have kept := recalls s p ahead
  cases outcome : read s p with
  | matched q t => rw [outcome] at kept shallow; exact kept.2 shallow
  | missed t => rw [outcome] at kept shallow; exact kept shallow
  | broken => rw [outcome] at shallow; exact shallow.elim

theorem shallow_attempt : (read.attempt s p).Shallow ↔ (read s p).Shallow := by
  rw [attempt_eq]
  cases read s p <;> rfl

/-- The first of two readings stays within the limit if both do. -/
theorem Recalls.first (first : read.Recalls start) (second : read'.Recalls start)
    (ahead : start.LeadsTo p) (shallow : (read.andThen read' s p).Shallow) :
    (read s p).Shallow := by
  have kept := first s p ahead
  unfold Reader.andThen at shallow
  cases outcome : read s p with
  | matched q t => rw [outcome] at kept shallow; exact second.shallow kept.1 shallow
  | missed t => rw [outcome] at shallow; exact shallow
  | broken => rw [outcome] at shallow; exact shallow

/-- The first of two alternatives stays within the limit if both do. -/
theorem Recalls.alternative (second : read'.Recalls start) (ahead : start.LeadsTo p)
    (shallow : (read.orElse read' s p).Shallow) : (read s p).Shallow := by
  rw [← shallow_attempt]
  unfold Reader.orElse at shallow
  cases outcome : read.attempt s p with
  | matched q t => rw [outcome] at shallow; exact shallow
  | missed t => rw [outcome] at shallow; exact second.shallow ahead shallow
  | broken => rw [outcome] at shallow; exact shallow

theorem shallow_option (shallow : (read.option s p).Shallow) : (read s p).Shallow := by
  rw [← shallow_attempt]
  unfold Reader.option at shallow
  cases outcome : read.attempt s p with
  | matched q t => rw [outcome] at shallow; exact shallow
  | missed t => rw [outcome] at shallow; exact shallow
  | broken => rw [outcome] at shallow; exact shallow

/-- The first round stays within the limit if all do. -/
theorem Recalls.round (recalls : read.Recalls start) (ahead : start.LeadsTo p) {rounds : Nat}
    (shallow : (read.many (rounds + 1) s p).Shallow) : (read s p).Shallow := by
  have kept := (Lasting.overrun start).attempt recalls s p ahead
  rw [← shallow_attempt]
  unfold Reader.many at shallow
  cases outcome : read.attempt s p with
  | matched q t =>
      rw [outcome] at kept shallow
      exact Recalls.shallow ((Lasting.overrun start).many recalls rounds) kept.1 shallow
  | missed t => rw [outcome] at shallow; exact shallow
  | broken => rw [outcome] at shallow; exact shallow

end Reader

/-! ## What the machine answers -/

section Answers

variable {settings : Settings} {start : Position} {s₀ s : State} {p₀ p : Position} {x : Yield}
  {phrase : Phrase} {read : Reader}

/-- The text decides what reading a phrase comes to, with nesting within the limit. -/
def Phrase.Decided (settings : Settings) (phrase : Phrase) (x : Yield) (s : State)
    (p : Position) : Prop :=
  ∃ v l, phrase.Reads x p v l ∧ s.depth + l.depth ≤ settings.maxNesting

/-- Whatever reading a phrase comes to, a reader comes to as well. -/
abbrev Reader.Obeys (start : Position) (limit : Nat) (s₀ : State) (p₀ : Position)
    (phrase : Phrase) (read : Reader) : Prop :=
  ∀ ⦃x p v l⦄, phrase.Reads x p v l → read.Follows start limit s₀ p₀ x p v l

/-- Where the text decides and something came out, it is what the text decides. -/
theorem Phrase.Decided.answers (decided : phrase.Decided settings x s p)
    (obeys : read.Obeys start settings.maxNesting s₀ p₀ phrase)
    (stands : Stands s₀ p₀ x s p) (sane : s.Sane start) (shallow : (read s p).Shallow) :
    (∃ q t y l, read s p = .matched q t ∧ phrase.Reads x p (.matched y q) l ∧
        s.depth + l.depth ≤ settings.maxNesting ∧ Stands s₀ p₀ y t q ∧ s.After start l t) ∨
      ∃ t pending l, read s p = .missed t ∧ phrase.Reads x p (.missed pending) l ∧
        s.depth + l.depth ≤ settings.maxNesting ∧ s.After start l t := by
  obtain ⟨v, l, reads, deep⟩ := decided
  have followed := obeys reads s stands sane.justified (Log.reach_within deep)
  cases outcome : read s p with
  | matched q t =>
      rw [outcome] at followed
      obtain ⟨y, rfl, stands', passed⟩ := followed
      exact Or.inl ⟨q, t, y, l, rfl, reads, deep, stands', passed.exact sane deep⟩
  | missed t =>
      rw [outcome] at followed
      obtain ⟨pending, rfl, -, passed⟩ := followed
      exact Or.inr ⟨t, pending, l, rfl, reads, deep, passed.exact sane deep⟩
  | broken => rw [outcome] at shallow; exact shallow.elim

/-- Where a reader stays within the limit, the text decides what reading a phrase comes to. -/
def Reader.Decides (settings : Settings) (start : Position) (s₀ : State) (p₀ : Position)
    (phrase : Phrase) (x : Yield) (p : Position) (read : Reader) : Prop :=
  ∀ s, Stands s₀ p₀ x s p → s.Sane start → s.depth ≤ settings.maxNesting → (read s p).Shallow →
    phrase.Decided settings x s p

end Answers

namespace Reader.Decides

variable {settings : Settings} {start : Position} {s₀ : State} {p₀ p : Position} {x : Yield}
  {phrase first second : Phrase} {read read' : Reader}

theorem token (t : Terminal) (leaf : Leaf) :
    (Reader.token t leaf).Decides settings start s₀ p₀ (.token t leaf) x p := by
  intro s _ _ low _
  cases found : t.match? p with
  | none => exact ⟨_, _, .noToken found, by simpa [Log.sought] using low⟩
  | some lexeme =>
      obtain ⟨piece, accepts, rfl, here⟩ := Terminal.match?_spec found
      exact ⟨_, _, .token found accepts here, by simpa [Log.read] using low⟩

theorem number : Reader.number.Decides settings start s₀ p₀ .number x p := by
  intro s _ _ low _
  cases found : Literal.read? p.rest with
  | none => exact ⟨_, _, .noNumber found, by simpa [Log.sought] using low⟩
  | some both =>
      cases spoiled : both.1.spoiledBy both.2 with
      | false => exact ⟨_, _, .number found spoiled, by simpa [Log.read] using low⟩
      | true => exact ⟨_, _, .malformed found spoiled, by simpa [Log.read] using low⟩

/-- The second phrase is decided where the first one leads to. -/
theorem andThen (recalls : read.Recalls start) (recalls' : read'.Recalls start)
    (ahead : start.LeadsTo p₀) (obeys : read.Obeys start settings.maxNesting s₀ p₀ first)
    (one : read.Decides settings start s₀ p₀ first x p)
    (two : ∀ y q, first.Takes (Yield.Meets Rule.Yields) x y →
      read'.Decides settings start s₀ p₀ second y q) :
    (read.andThen read').Decides settings start s₀ p₀ (.seq first second) x p := by
  intro s stands sane low shallow
  have here := recalls.first recalls' (ahead.trans stands.spelled.leadsTo) shallow
  rcases (one s stands sane low here).answers obeys stands sane here with
    ⟨q, t, y, l, outcome, reads, deep, between, after⟩ |
      ⟨t, pending, l, outcome, reads, deep, after⟩
  · simp only [Reader.andThen, outcome] at shallow
    obtain ⟨w, m, others, deep'⟩ := two y q (reads.takes Rule.meets_of_takes rfl) t between
      after.sane (by rw [after.depth_eq]; exact low) shallow
    rw [after.depth_eq] at deep'
    exact ⟨w, _, .seq reads others, by simp only [Log.append]; omega⟩
  · exact ⟨_, _, .noSeq reads, deep⟩

/-- After the first alternative failed, the second one is decided or cannot start. -/
theorem orElse (recalls' : read'.Recalls start) (ahead : start.LeadsTo p₀)
    (obeys : read.Obeys start settings.maxNesting s₀ p₀ first)
    (settled : ∀ s t, Stands s₀ p₀ x s p → read.attempt s p = .missed t →
      Stands s₀ p₀ x t p ∨ second.Barred p)
    (one : read.Decides settings start s₀ p₀ first x p)
    (two : read'.Decides settings start s₀ p₀ second x p) :
    (read.orElse read').Decides settings start s₀ p₀ (.choice first second) x p := by
  intro s stands sane low shallow
  have here := recalls'.alternative (ahead.trans stands.spelled.leadsTo) shallow
  rcases (one s stands sane low here).answers obeys stands sane here with
    ⟨q, t, y, l, outcome, reads, deep, between, after⟩ |
      ⟨t, pending, l, outcome, reads, deep, after⟩
  · exact ⟨_, _, .first reads, deep⟩
  · obtain ⟨u, failed, -, passed⟩ := ((obeys reads).retreat stands sane.justified
      (Log.reach_within deep) (reads.pending rfl)).resolve_right (by simp [outcome])
    have after' := passed.exact sane (by simpa [Log.append, Log.abandoned] using deep)
    have deepest {m : Log} (deep' : s.depth + m.depth ≤ settings.maxNesting) :
        s.depth + (l.append ((Log.abandoned x pending).append m)).depth ≤
          settings.maxNesting := by
      simp only [Log.append, Log.abandoned]
      omega
    rcases settled s u stands failed with again | ⟨absent, unclosed⟩
    · simp only [Reader.orElse, failed] at shallow
      obtain ⟨w, m, other, deep'⟩ :=
        two u again after'.sane (by rw [after'.depth_eq]; exact low) shallow
      rw [after'.depth_eq] at deep'
      exact ⟨w, _, .second reads other, deepest deep'⟩
    · exact ⟨_, _, .second reads
        (.seq (.done (.noSeq (.noToken absent))) (.noSeq (.noToken unclosed))), deepest low⟩

theorem branch {t : Terminal} {yes no : Phrase}
    (found_decides : ∀ piece : Piece, t.Accepts piece.token →
      read.Decides settings start s₀ p₀ yes (x.read piece []) piece.lexeme.next)
    (absent_decides : read'.Decides settings start s₀ p₀ no x p) :
    (Reader.branch t read read').Decides settings start s₀ p₀ (.branch t yes no) x p := by
  intro s stands sane low shallow
  cases found : t.match? p with
  | none =>
      simp only [Reader.branch, Reader.token_of_none .nothing s found] at shallow
      have after := State.After.expect sane p t.label
      obtain ⟨w, m, other, deep⟩ := absent_decides _ (stands.expect p t.label) after.sane
        (by rw [after.depth_eq]; exact low) shallow
      rw [after.depth_eq] at deep
      exact ⟨w, _, .no found other, by simp only [Log.append, Log.sought]; omega⟩
  | some lexeme =>
      obtain ⟨piece, accepts, rfl, here⟩ := Terminal.match?_spec found
      simp only [Reader.branch, Reader.token, found] at shallow
      have after := State.After.accept sane s.pending piece.lexeme none
      obtain ⟨w, m, other, deep⟩ := found_decides piece accepts _
        (stands.accept here none s.pending (by simp [accepts.malformed?_eq_none])) after.sane
        (by rw [after.depth_eq]; exact low) shallow
      rw [after.depth_eq] at deep
      exact ⟨w, _, .yes found accepts here other, by simpa [Log.append, Log.read] using deep⟩

theorem attempt (inner : read.Decides settings start s₀ p₀ phrase x p) :
    read.attempt.Decides settings start s₀ p₀ (.attempt phrase) x p := by
  intro s stands sane low shallow
  obtain ⟨v, l, reads, deep⟩ := inner s stands sane low (Reader.shallow_attempt.mp shallow)
  cases v with
  | matched y q => exact ⟨_, l, .attempt reads, deep⟩
  | missed pending =>
      exact ⟨_, _, .noAttempt reads, by simpa [Log.append, Log.abandoned] using deep⟩

theorem option (inner : read.Decides settings start s₀ p₀ phrase x p) :
    read.option.Decides settings start s₀ p₀ (.option phrase) x p := by
  intro s stands sane low shallow
  obtain ⟨v, l, reads, deep⟩ := inner s stands sane low (Reader.shallow_option shallow)
  cases v with
  | matched y q => exact ⟨_, l, .option reads, deep⟩
  | missed pending => exact ⟨_, _, .noOption reads, by simpa [Log.append, Log.abandoned] using deep⟩

/-- A repetition is decided if each round is. -/
theorem many (recalls : read.Recalls start) (ahead : start.LeadsTo p₀)
    (obeys : read.Obeys start settings.maxNesting s₀ p₀ phrase)
    (each : ∀ y q, (Phrase.many phrase).Takes (Yield.Meets Rule.Yields) x y →
      read.Decides settings start s₀ p₀ phrase y q) (rounds : Nat) :
    (read.many rounds).Decides settings start s₀ p₀ (.many phrase) x p := by
  intro s stands sane low shallow
  induction rounds generalizing x s p with
  | zero => exact shallow.elim
  | succ rounds ih =>
      have here := recalls.round (ahead.trans stands.spelled.leadsTo) shallow
      rcases (each x p .refl s stands sane low here).answers obeys stands sane here with
        ⟨q, t, y, l, outcome, reads, deep, between, after⟩ |
          ⟨t, pending, l, outcome, reads, deep, after⟩
      · have takes := reads.takes Rule.meets_of_takes rfl
        simp only [Reader.many, Reader.attempt_eq, outcome] at shallow
        obtain ⟨w, m, others, deep'⟩ := ih (fun z q more => each z q (.head takes more)) t between
          after.sane (by rw [after.depth_eq]; exact low) shallow
        rw [after.depth_eq] at deep'
        exact ⟨w, _, .more reads others, by simp only [Log.append]; omega⟩
      · exact ⟨_, _, .done reads, by simp only [Log.append, Log.abandoned]; omega⟩

/-- A level that is entered is one below the limit. -/
theorem nested (inner : read.Decides settings start s₀ p₀ phrase x p) :
    (Reader.nested settings.maxNesting read).Decides settings start s₀ p₀ (.nested phrase) x p := by
  intro s stands sane low shallow
  by_cases full : settings.maxNesting ≤ s.depth
  · simp [Reader.nested, full, Outcome.Shallow, sane.shallow] at shallow
  · simp only [Reader.nested, full, if_false] at shallow
    obtain ⟨v, l, reads, deep⟩ := inner _ (stands.deeper (s.depth + 1))
      (sane.replay [] rfl sane.shallow rfl) (by simp only; omega)
      (by split at shallow <;> simp_all [Outcome.Shallow])
    exact ⟨v, _, .nested reads, by simp only [Log.deeper] at deep ⊢; omega⟩

theorem afterIndex {frame : Frame} (mark_eq : frame.mark = s₀.operands.height)
    (inner : x.EndsInIndex → read.Decides settings start s₀ p₀ phrase x p) :
    (Reader.afterIndex frame read).Decides settings start s₀ p₀ (.afterIndex phrase) x p := by
  intro s stands sane low shallow
  by_cases ends : x.EndsInIndex
  · have newest := ends
    obtain ⟨e, newest, is_index⟩ := newest
    simp only [Reader.afterIndex, mark_eq, stands.above, newest, is_index, if_true] at shallow
    obtain ⟨w, m, optional, deep⟩ := (inner ends).option s stands sane low shallow
    exact ⟨w, m, .afterIndex ends optional, deep⟩
  · exact ⟨_, _, .notAfterIndex ends, by simpa [Log.empty] using low⟩

end Reader.Decides

/-! ## Phrases and rules -/

section Decided

variable {settings : Settings} {start : Position} {fuel : Nat}

/-- What stays within the limit is decided, if that is so of the rules. -/
theorem Phrase.run_decides (positive : 0 < settings.repeats)
    (forgetful : settings.remember = false)
    (rules : ∀ r s p, start.LeadsTo p → s.Sane start → s.depth ≤ settings.maxNesting →
      (Rule.run settings fuel r s p).Shallow → (Phrase.rule r).Decided settings .empty s p)
    {s₀ : State} {p₀ : Position} (ahead : start.LeadsTo p₀) {bound : Nat} {phrase : Phrase}
    (is_tidy : phrase.tidy = true) {x : Yield} (proper : phrase.Proper x) {p : Position}
    (safe : phrase.Safe (Yield.Meets Rule.Yields) Rule.rank bound x) :
    (phrase.run settings (Rule.run settings fuel) ⟨p₀.cursor, s₀.operands.height⟩).Decides settings
      start s₀ p₀ phrase x p := by
  have recalls (phrase : Phrase) : Reader.Recalls start (phrase.run settings
      (Rule.run settings fuel) ⟨p₀.cursor, s₀.operands.height⟩) :=
    (Lasting.overrun start).phrase settings ((Lasting.overrun start).rule settings fuel) _ phrase
  have obeys {phrase : Phrase} (is_tidy : phrase.tidy = true) (is_plain : phrase.plain = true) :
      Reader.Obeys start settings.maxNesting s₀ p₀ phrase (phrase.run settings
        (Rule.run settings fuel) ⟨p₀.cursor, s₀.operands.height⟩) :=
    fun _ _ _ _ reads => reads.follows positive (Or.inl is_plain) is_tidy fuel s₀ ahead
  have sound {phrase : Phrase} (is_tidy : phrase.tidy = true) :=
    Phrase.run_sound positive (Rule.run_sound Rule.meets_of_takes positive fuel) s₀ p₀ is_tidy
  induction phrase generalizing x p with
  | token t leaf => exact .token t leaf
  | number => exact .number
  | rule r =>
      intro s stands sane low shallow
      obtain ⟨v, l, reads, deep⟩ :=
        rules r s p (ahead.trans stands.spelled.leadsTo) sane low shallow
      cases reads with
      | rule inner => exact ⟨_, _, .rule inner, deep⟩
      | noRule inner => exact ⟨_, _, .noRule inner, deep⟩
  | seq first second ih_first ih_second =>
      have is_plain := proper.plain (by simp)
      simp only [plain, tidy, Bool.and_eq_true] at is_plain is_tidy
      exact .andThen (recalls first) (recalls second) ahead (obeys is_tidy.1 is_plain.1)
        (ih_first is_tidy.1 (Or.inl is_plain.1) safe.1)
        fun y _ takes => ih_second is_tidy.2 (Or.inl is_plain.2) (safe.2 y takes)
  | choice first second ih_first ih_second =>
      have is_plain := proper.plain (by simp)
      have both := is_tidy
      simp only [plain, tidy, Bool.and_eq_true] at is_plain both
      refine .orElse (recalls second) ahead (obeys both.1.1 is_plain.1)
        (fun s t stands missed => ?_) (ih_first both.1.1 (Or.inl is_plain.1) safe.1)
        (ih_second both.1.2 (Or.inl is_plain.2) safe.2)
      exact (stands.settled is_tidy (sound both.1.1) missed).imp_right And.right
  | branch t yes no ih_yes ih_no =>
      have is_plain := proper.plain (by simp)
      simp only [plain, tidy, Bool.and_eq_true] at is_plain is_tidy
      exact .branch
        (fun piece accepts => ih_yes is_tidy.1 (Or.inl is_plain.1) (safe.1 piece accepts))
        (ih_no is_tidy.2 (Or.inl is_plain.2) safe.2)
  | attempt phrase ih => exact (ih is_tidy (Or.inl (proper.plain (by simp))) safe).attempt
  | option phrase ih =>
      simp only [tidy, Bool.and_eq_true] at is_tidy
      exact (ih is_tidy.1 (Or.inl (proper.plain (by simp))) safe).option
  | many phrase ih =>
      have is_plain := proper.plain (by simp)
      simp only [tidy, Bool.and_eq_true] at is_tidy
      exact .many (recalls phrase) ahead (obeys is_tidy.1 is_plain)
        (fun y _ rounds => ih is_tidy.1 (Or.inl is_plain) (safe y rounds).1) settings.repeats
  | nested phrase ih =>
      have is_plain := proper.plain (by simp)
      simp only [plain, Bool.and_eq_true] at is_plain
      exact (ih is_tidy (Or.inl is_plain.1) safe).nested
  | remembered memo phrase ih =>
      obtain ⟨rfl, -, is_plain⟩ := proper.remembered
      intro s stands sane low shallow
      simp only [Phrase.run, forgetful, Bool.false_eq_true, if_false] at shallow
      obtain ⟨w, m, attempted, deep⟩ :=
        (ih is_tidy (Or.inl is_plain) safe).attempt s stands sane low shallow
      exact ⟨w, m, .remembered attempted, deep⟩
  | afterIndex phrase ih =>
      have is_plain := proper.plain (by simp)
      simp only [tidy, Bool.and_eq_true] at is_tidy
      exact .afterIndex rfl fun ends => ih is_tidy.1 (Or.inl is_plain) (safe ends)
  | reduce r =>
      intro s stands sane low shallow
      obtain ⟨operand, built⟩ := Option.isSome_iff_exists.mp (safe.2 x.span)
      exact ⟨_, _, .reduce safe.1 built, by simpa [Log.empty] using low⟩

/-- What a rule without remembered failures comes to within the limit is decided by the text. -/
theorem Rule.decided (positive : 0 < settings.repeats) (forgetful : settings.remember = false)
    (fuel : Nat) (r : Rule) (s : State) (p : Position) (ahead : start.LeadsTo p)
    (sane : s.Sane start) (low : s.depth ≤ settings.maxNesting)
    (shallow : (Rule.run settings fuel r s p).Shallow) :
    (Phrase.rule r).Decided settings .empty s p := by
  induction fuel generalizing r s p with
  | zero => exact shallow.elim
  | succ fuel ih =>
      obtain ⟨v, l, reads, deep⟩ := Phrase.run_decides positive forgetful ih ahead
        (Phrase.tidy_phrase r) (Or.inr ⟨rfl, r, rfl⟩) r.safe_phrase s (.refl s p) sane low shallow
      cases v with
      | matched y q => exact ⟨_, l, .rule reads, deep⟩
      | missed pending => exact ⟨_, l, .noRule reads, deep⟩

end Decided

end Formwork
