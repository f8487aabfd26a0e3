import Formwork.Proofs.BigStep
import Formwork.Proofs.Definitions

/-!
# What is begun while a phrase is read

`Phrase.visits` lists the phrases that are begun while a phrase is read: each with the state and the
position where it is begun, with what becomes of it, and with the rules that are at work around it.
`Phrase.mem_visits` says once what a phrase can begin, and `Rule.mem_visits` follows by induction on
the fuel: every phrase finds the operands it needs, whatever has to consume a token does so, and the
rules at work descend, by what is left of the text and then by rank.
-/

namespace Formwork

/-- A rule at work, with the position where it was started. -/
structure Activation where
  rule : Rule
  position : Position

/-- A phrase that is begun. -/
structure Visit where
  /-- The rules at work, the newest first. -/
  active : List Activation
  /-- Where the phrase of the newest one starts. -/
  frame : Frame
  phrase : Phrase
  state : State
  position : Position
  /-- What becomes of the phrase. -/
  outcome : Outcome

/-- What is begun from a state and a position on. -/
abbrev Trace := State → Position → List Visit

/-- Whether a phrase was read. -/
def Outcome.isMatched : Outcome → Bool
  | .matched .. => true
  | _ => false

/-- What is begun after something was read. -/
def Outcome.andThen (next : Trace) : Outcome → List Visit
  | .matched q t => next t q
  | _ => []

/-- What is begun at a position after something else did not stand there. -/
def Outcome.orElse (next : Trace) (p : Position) : Outcome → List Visit
  | .missed t => next t p
  | _ => []

@[simp]
theorem Outcome.mem_andThen {next : Trace} {o : Outcome} {v : Visit} :
    v ∈ o.andThen next ↔ ∃ q t, o = .matched q t ∧ v ∈ next t q := by
  cases o <;> simp [andThen]

@[simp]
theorem Outcome.mem_orElse {next : Trace} {p : Position} {o : Outcome} {v : Visit} :
    v ∈ o.orElse next p ↔ ∃ t, o = .missed t ∧ v ∈ next t p := by
  cases o <;> simp [orElse]

/-- What is begun in at most `limit` rounds of a repetition. -/
def Reader.rounds (read : Reader) (round : Trace) : Nat → Trace
  | 0 => fun _ _ => []
  | limit + 1 => fun s p =>
    round s p ++ (read.attempt s p).andThen (read.rounds round limit)

/-- The phrases begun while a phrase is read, given how rules are read and what they begin. -/
def Phrase.visits (settings : Settings) (rule : Rule → Reader) (inside : Rule → Trace)
    (active : List Activation) (frame : Frame) (phrase : Phrase) : Trace := fun s p =>
  ⟨active, frame, phrase, s, p, phrase.run settings rule frame s p⟩ ::
    match phrase with
    | .token .. | .number | .reduce _ => []
    | .rule r => inside r s p
    | .seq first second =>
      first.visits settings rule inside active frame s p ++
        (first.run settings rule frame s p).andThen
          (second.visits settings rule inside active frame)
    | .choice first second =>
      first.visits settings rule inside active frame s p ++
        ((first.run settings rule frame).attempt s p).orElse
          (second.visits settings rule inside active frame) p
    | .branch t yes no =>
      (Reader.token t .nothing s p).andThen (yes.visits settings rule inside active frame) ++
        (Reader.token t .nothing s p).orElse (no.visits settings rule inside active frame) p
    | .attempt phrase | .option phrase => phrase.visits settings rule inside active frame s p
    | .many phrase =>
      (phrase.run settings rule frame).rounds (phrase.visits settings rule inside active frame)
        settings.repeats s p
    | .nested phrase =>
      if settings.maxNesting ≤ s.depth then []
      else phrase.visits settings rule inside active frame { s with depth := s.depth + 1 } p
    | .remembered memo phrase =>
      if settings.remember && s.deadEnds.contains memo p.cursor.offset then []
      else phrase.visits settings rule inside active frame s p
    | .afterIndex phrase =>
      match (s.operands.above frame.mark).getLast? with
      | some (.expr e) =>
        if e.isIndex then phrase.visits settings rule inside active frame s p else []
      | _ => []

/-- The phrases begun while a rule is read, through at most `fuel` rules inside one another. -/
def Rule.visits (settings : Settings) : Nat → List Activation → Rule → Trace
  | 0, _, _ => fun _ _ => []
  | fuel + 1, active, r => fun s p =>
    r.phrase.visits settings (Rule.run settings fuel)
      (Rule.visits settings fuel (⟨r, p⟩ :: active)) (⟨r, p⟩ :: active)
      ⟨p.cursor, s.operands.height⟩ s p

/-- The operands that a reduction takes, oldest first. -/
def Visit.operands (v : Visit) (r : Reduction) : List Operand :=
  v.state.operands.above (v.frame.mark + r.kept (v.state.operands.height - v.frame.mark))

/-- The stretch of text from the start of the rule up to the phrase. -/
def Visit.span (v : Visit) : Span := v.frame.start.spanTo v.state.lastEnd

/-- What holds of every phrase that is begun after `start`. -/
structure Visit.Sound (start : Position) (v : Visit) : Prop where
  ahead : start.LeadsTo v.position
  /-- A reduction finds the operands it takes. -/
  fits : ∀ r, v.phrase = .reduce r → (r.build? v.span (v.operands r)).isSome = true
  /-- What matches only where a token can be read moves on. -/
  advances : v.phrase.consumes = true → ∀ q t, v.outcome = .matched q t →
    v.position.LeadsTo q ∧ q.rest.length < v.position.rest.length

theorem Visit.Sound.trans {start p : Position} {v : Visit} (to_p : start.LeadsTo p)
    (sound : v.Sound p) : v.Sound start :=
  ⟨to_p.trans sound.ahead, sound.fits, sound.advances⟩

/-- If the phrase fails, it fails with operands, pending numbers and depth as they were. -/
def Visit.Idle (v : Visit) : Prop :=
  ∀ u, v.outcome = .missed u →
    u.operands = v.state.operands ∧ u.pending = v.state.pending ∧ u.depth = v.state.depth

/-! ## Phrases -/

/-- A phrase that consumes a token adds a piece, if every rule does. -/
theorem Phrase.Takes.length_lt {spec : Rule → Yield → Prop}
    (nonempty : ∀ r z, spec r z → z.pieces ≠ []) {phrase : Phrase} {x y : Yield}
    (takes : phrase.Takes spec x y) (consumes : phrase.consumes = true) :
    x.pieces.length < y.pieces.length := by
  induction phrase generalizing x y with
  | token t leaf =>
      obtain ⟨piece, -, rfl⟩ := takes
      simp [Yield.read]
  | number =>
      obtain ⟨piece, ⟨literal, -, rfl⟩ | ⟨literal, tail, -, rfl⟩⟩ := takes
      · simp [Yield.read]
      · simp [Yield.read]
  | rule r =>
      obtain ⟨z, described, rfl⟩ := takes
      have positive := List.length_pos_iff.mpr (nonempty r z described)
      rw [Yield.pieces_append, List.length_append]
      omega
  | seq first second ih_first ih_second =>
      obtain ⟨z, one, two⟩ := takes
      simp only [Phrase.consumes, Bool.or_eq_true] at consumes
      rcases consumes with here | there
      · exact (ih_first one here).trans_le two.pieces.length_le
      · exact one.pieces.length_le.trans_lt (ih_second two there)
  | choice first second ih_first ih_second =>
      simp only [Phrase.consumes, Bool.and_eq_true] at consumes
      rcases takes with one | two
      · exact ih_first one consumes.1
      · exact ih_second two consumes.2
  | branch t yes no ih_yes ih_no =>
      rcases takes with ⟨piece, -, one⟩ | two
      · have more := one.pieces.length_le
        simp only [Yield.read, Yield.pieces_append, List.length_append, List.length_singleton]
          at more
        omega
      · exact ih_no two consumes
  | attempt phrase ih => exact ih takes consumes
  | option phrase ih => exact absurd consumes (by simp [Phrase.consumes])
  | many phrase ih => exact absurd consumes (by simp [Phrase.consumes])
  | nested phrase ih => exact ih takes consumes
  | remembered memo phrase ih => exact ih takes consumes
  | afterIndex phrase ih => exact absurd consumes (by simp [Phrase.consumes])
  | reduce r => exact absurd consumes (by simp [Phrase.consumes])

/-- More pieces lead on. -/
theorem Stands.leadsTo {s₀ s t : State} {p₀ p q : Position} {x y : Yield}
    (before : Stands s₀ p₀ x s p) (after : Stands s₀ p₀ y t q) (more : x.pieces <+: y.pieces) :
    p.LeadsTo q := by
  obtain ⟨added, pieces_eq⟩ := more
  have spelled := after.spelled
  rw [← pieces_eq] at spelled
  obtain ⟨p', first, second⟩ := spelled.split
  obtain rfl := first.unique before.spelled
  exact second.leadsTo

section Phrases

variable {spec : Rule → Yield → Prop} {rank : Rule → Nat} {bound : Nat} {s₀ : State}
  {p₀ : Position} {settings : Settings} {rule : Rule → Reader} {inside : Rule → Trace}
  {active : List Activation}

/-- A phrase that is safe where it is begun finds its operands and moves on. -/
theorem Visit.sound_of_stands (active : List Activation) (positive : 0 < settings.repeats)
    (reads : ∀ r s p, (rule r s p).Sound spec (.rule r) s p .empty s)
    (nonempty : ∀ r z, spec r z → z.pieces ≠ []) {phrase : Phrase}
    (is_tidy : phrase.tidy = true) {x : Yield} {s : State} {p : Position}
    (stands : Stands s₀ p₀ x s p) (safe : phrase.Safe spec rank bound x) :
    Visit.Sound p₀ ⟨active, ⟨p₀.cursor, s₀.operands.height⟩, phrase, s, p,
      phrase.run settings rule ⟨p₀.cursor, s₀.operands.height⟩ s p⟩ where
  ahead := stands.spelled.leadsTo
  fits := by
    rintro r rfl
    simp only [Visit.operands, stands.count, stands.above_add]
    exact safe.2 _
  advances := by
    intro consumes q t matched
    simp only at matched
    have sound := Phrase.run_sound positive reads s₀ p₀ is_tidy x s p stands
    rw [matched] at sound
    obtain ⟨y, takes, after⟩ := sound
    have longer := takes.length_lt nonempty consumes
    exact ⟨stands.leadsTo after takes.pieces, stands.length_lt after takes.pieces longer⟩

/-- A phrase that misses its first token begins nothing that finds a token or needs an operand. -/
theorem Phrase.mem_visits_of_absent {t : Terminal} {p : Position} (absent : t.match? p = none)
    (ahead : p₀.LeadsTo p) {frame : Frame} {leaf : Leaf} {later : Phrase} {s : State} {v : Visit}
    (visited :
      v ∈ (Phrase.seq (.token t leaf) later).visits settings rule inside active frame s p) :
    v.active = active ∧ v.Sound p₀ ∧ v.Idle := by
  have missed := Reader.token_of_none leaf s absent
  simp only [visits, run, Reader.andThen, missed, Outcome.andThen, List.append_nil, List.mem_cons,
    List.not_mem_nil, or_false] at visited
  have idle : ∀ u, Outcome.missed (s.expect p t.label) = .missed u →
      u.operands = s.operands ∧ u.pending = s.pending ∧ u.depth = s.depth := by
    rintro u ⟨⟩
    simp
  obtain rfl | rfl := visited
  · exact ⟨rfl, ⟨ahead, by simp, by simp⟩, idle⟩
  · exact ⟨rfl, ⟨ahead, by simp, by simp⟩, idle⟩

/-- The same of a phrase that cannot start. -/
theorem Phrase.Barred.mem_visits {phrase : Phrase} {p : Position} (barred : phrase.Barred p)
    (ahead : p₀.LeadsTo p) (positive : 0 < settings.repeats) {frame : Frame} {s : State}
    {v : Visit} (visited : v ∈ phrase.visits settings rule inside active frame s p) :
    v.active = active ∧ v.Sound p₀ ∧ v.Idle := by
  obtain ⟨limit, limit_eq⟩ := Nat.exists_eq_succ_of_ne_zero positive.ne'
  obtain @⟨t, closing, leaf, leaf', item, last, absent, unclosed⟩ := barred
  have whole := run_of_absent leaf leaf' item last absent unclosed positive rule frame s
  have stops : ((Phrase.seq (.token t leaf) item).run settings rule frame).attempt s p =
      .missed (s.retreat (s.expect p t.label)) := by
    simp only [Reader.attempt_eq, run, Reader.andThen, Reader.token_of_none leaf s absent]
  have stays : (Phrase.many (.seq (.token t leaf) item)).run settings rule frame s p =
      .matched p (s.retreat (s.expect p t.label)) := by
    rw [run, limit_eq]
    unfold Reader.many
    rw [stops]
  unfold visits at visited
  simp only [List.mem_cons, List.mem_append, Outcome.mem_andThen] at visited
  obtain rfl | rounds | ⟨q, u, matched, closes⟩ := visited
  · refine ⟨rfl, ⟨ahead, by simp, by simp [whole]⟩, fun u missed => ?_⟩
    obtain rfl := Outcome.missed.inj (whole.symm.trans missed)
    refine ⟨?_, ?_, ?_⟩
    · rw [State.operands_expect]
      exact State.operands_retreat (by rw [State.operands_expect])
    · rw [State.pending_expect]
      exact State.pending_retreat (by rw [State.pending_expect])
    · rw [State.depth_expect]
      exact State.depth_expect s p t.label
  · unfold visits at rounds
    simp only [limit_eq, Reader.rounds, stops, Outcome.andThen, List.append_nil, List.mem_cons]
      at rounds
    obtain rfl | round := rounds
    · exact ⟨rfl, ⟨ahead, by simp, by simp [consumes]⟩, fun u missed =>
        absurd (stays.symm.trans missed) (by simp)⟩
    · exact mem_visits_of_absent absent ahead round
  · obtain ⟨rfl, -⟩ := Outcome.matched.inj (stays.symm.trans matched)
    exact mem_visits_of_absent unclosed ahead closes

/-- A repetition begins its phrase where the rounds before have led. -/
theorem Reader.mem_rounds {phrase : Phrase} {read : Reader}
    (sound : read.Sound spec phrase s₀ p₀) {round : Trace} {limit : Nat} {x : Yield} {s : State}
    {p : Position} (stands : Stands s₀ p₀ x s p)
    (safe : (Phrase.many phrase).Safe spec rank bound x) {v : Visit}
    (visited : v ∈ read.rounds round limit s p) :
    ∃ y t q, Stands s₀ p₀ y t q ∧ phrase.Safe spec rank bound y ∧ v ∈ round t q := by
  induction limit generalizing x s p with
  | zero => exact absurd visited List.not_mem_nil
  | succ limit ih =>
      simp only [rounds, List.mem_append, Outcome.mem_andThen] at visited
      obtain here | ⟨q, t, matched, later⟩ := visited
      · exact ⟨x, s, p, stands, (safe x .refl).1, here⟩
      · have inner := sound.attempt x s p stands
        rw [matched] at inner
        obtain ⟨y, takes, after⟩ := inner
        exact ih after (fun z more => safe z (.head takes more)) later

/--
What a phrase begins: phrases of its own where they are safe, phrases that cannot start, and what
the rules it enters begin. Those are entered further on, or where it started with a rank below its
bound.
-/
theorem Phrase.mem_visits (positive : 0 < settings.repeats)
    (reads : ∀ r s p, (rule r s p).Sound spec (.rule r) s p .empty s) {phrase : Phrase}
    (is_tidy : phrase.tidy = true) {x : Yield} {s : State} {p : Position}
    (stands : Stands s₀ p₀ x s p) (safe : phrase.Safe spec rank bound x) {v : Visit}
    (visited : v ∈ phrase.visits settings rule inside active
      ⟨p₀.cursor, s₀.operands.height⟩ s p) :
    (∃ (part : Phrase) (y : Yield) (t : State) (q : Position),
        v = ⟨active, ⟨p₀.cursor, s₀.operands.height⟩, part, t, q,
          part.run settings rule ⟨p₀.cursor, s₀.operands.height⟩ t q⟩ ∧
        part.tidy = true ∧ Stands s₀ p₀ y t q ∧ part.Safe spec rank bound y) ∨
      (v.active = active ∧ v.Sound p₀ ∧ v.Idle) ∨
      ∃ r t q, v ∈ inside r t q ∧ p₀.LeadsTo q ∧
        (q.rest.length < p₀.rest.length ∨ q = p₀ ∧ rank r < bound) := by
  have sound {phrase : Phrase} (is_tidy : phrase.tidy = true) :=
    Phrase.run_sound positive reads s₀ p₀ is_tidy
  induction phrase generalizing x s p with
    (unfold visits at visited
     rw [List.mem_cons] at visited
     obtain rfl | visited := visited
     · exact Or.inl ⟨_, x, s, p, rfl, is_tidy, stands, safe⟩)
  | token t leaf => exact absurd visited List.not_mem_nil
  | number => exact absurd visited List.not_mem_nil
  | rule r =>
      exact Or.inr (Or.inr ⟨r, s, p, visited, stands.spelled.leadsTo, stands.enters safe⟩)
  | seq first second ih_first ih_second =>
      simp only [tidy, Bool.and_eq_true] at is_tidy
      simp only [List.mem_append, Outcome.mem_andThen] at visited
      obtain one | ⟨q, t, matched, two⟩ := visited
      · exact ih_first is_tidy.1 stands safe.1 one
      · have inner := sound is_tidy.1 x s p stands
        rw [matched] at inner
        obtain ⟨y, takes, after⟩ := inner
        exact ih_second is_tidy.2 after (safe.2 y takes) two
  | choice first second ih_first ih_second =>
      have both := is_tidy
      simp only [tidy, Bool.and_eq_true] at both
      simp only [List.mem_append, Outcome.mem_orElse] at visited
      obtain one | ⟨t, missed, two⟩ := visited
      · exact ih_first both.1.1 stands safe.1 one
      · obtain again | ⟨-, barred⟩ := stands.settled is_tidy (sound both.1.1) missed
        · exact ih_second both.1.2 again safe.2 two
        · exact Or.inr (Or.inl (barred.mem_visits stands.spelled.leadsTo positive two))
  | branch t yes no ih_yes ih_no =>
      simp only [tidy, Bool.and_eq_true] at is_tidy
      simp only [List.mem_append, Outcome.mem_andThen, Outcome.mem_orElse] at visited
      obtain ⟨q, u, matched, one⟩ | ⟨u, missed, two⟩ := visited
      · have token : (Reader.token t .nothing s p).Sound spec (.token t .nothing) s₀ p₀ x s :=
          Reader.Sound.token t .nothing x s p stands
        rw [matched] at token
        obtain ⟨y, ⟨piece, accepts, rfl⟩, after⟩ := token
        exact ih_yes is_tidy.1 after (safe.1 piece accepts) one
      · refine ih_no is_tidy.2 ?_ safe.2 two
        rw [Reader.token_missed missed]
        exact stands.expect p t.label
  | attempt phrase ih => exact ih is_tidy stands safe visited
  | option phrase ih =>
      simp only [tidy, Bool.and_eq_true] at is_tidy
      exact ih is_tidy.1 stands safe visited
  | many phrase ih =>
      simp only [tidy, Bool.and_eq_true] at is_tidy
      obtain ⟨y, t, q, stands', safe', round⟩ :=
        Reader.mem_rounds (sound is_tidy.1) stands safe visited
      exact ih is_tidy.1 stands' safe' round
  | nested phrase ih =>
      simp only at visited
      split at visited
      · exact absurd visited List.not_mem_nil
      · exact ih is_tidy (stands.deeper (s.depth + 1)) safe visited
  | remembered memo phrase ih =>
      simp only at visited
      split at visited
      · exact absurd visited List.not_mem_nil
      · exact ih is_tidy stands safe visited
  | afterIndex phrase ih =>
      simp only [tidy, Bool.and_eq_true] at is_tidy
      simp only [stands.above] at visited
      split at visited
      · rename_i e newest
        split at visited
        · rename_i is_index
          exact ih is_tidy.1 stands (safe ⟨e, newest, is_index⟩) visited
        · exact absurd visited List.not_mem_nil
      · exact absurd visited List.not_mem_nil
  | reduce r => exact absurd visited List.not_mem_nil

end Phrases

/-! ## Rules -/

theorem Rule.pieces_ne_nil (r : Rule) (z : Yield) (described : Yield.Meets Yields r z) :
    z.pieces ≠ [] := by
  refine Yield.pieces_ne_nil ?_
  cases r <;> exact described.1

/-- One activation comes inside another: further on in the text, or there with a lower rank. -/
def Activation.Inside (a b : Activation) : Prop :=
  b.position.LeadsTo a.position ∧
    (a.position.rest.length < b.position.rest.length ∨
      a.position = b.position ∧ a.rule.rank < b.rule.rank)

theorem Activation.Inside.trans {a b c : Activation} (first : a.Inside b) (second : b.Inside c) :
    a.Inside c := by
  obtain ⟨to_a, later⟩ := first
  obtain ⟨to_b, later'⟩ := second
  refine ⟨to_b.trans to_a, ?_⟩
  rcases later with shorter | ⟨same, lower⟩
  · exact Or.inl (shorter.trans_le to_b.length_le)
  · rw [same]
    exact later'.imp_right fun ⟨same', lower'⟩ => ⟨same', lower.trans lower'⟩

/--
Whatever is begun while a rule is read is sound, and the rules at work around it come one inside
another.
-/
theorem Rule.mem_visits {settings : Settings} (positive : 0 < settings.repeats) {fuel : Nat}
    {active : List Activation} {r : Rule} {s : State} {p : Position}
    (nested : (⟨r, p⟩ :: active).Pairwise Activation.Inside) {v : Visit}
    (visited : v ∈ Rule.visits settings fuel active r s p) :
    v.Sound p ∧ v.active.Pairwise Activation.Inside := by
  induction fuel generalizing active r s p with
  | zero => exact absurd visited List.not_mem_nil
  | succ fuel ih =>
      have reads := Rule.run_sound Rule.meets_of_takes positive fuel
      obtain ⟨part, y, t, q, rfl, is_tidy, stands, safe⟩ | ⟨active_eq, sound, -⟩ |
          ⟨other, t, q, within, ahead, later⟩ :=
        Phrase.mem_visits positive reads (Phrase.tidy_phrase r) (Stands.refl s p) r.safe_phrase
          visited
      · refine ⟨?_, nested⟩
        exact Visit.sound_of_stands _ positive reads Rule.pieces_ne_nil is_tidy stands safe
      · exact ⟨sound, active_eq ▸ nested⟩
      · have inside : Activation.Inside ⟨other, q⟩ ⟨r, p⟩ := ⟨ahead, later⟩
        have nested' : (⟨other, q⟩ :: ⟨r, p⟩ :: active).Pairwise Activation.Inside := by
          refine List.pairwise_cons.mpr ⟨?_, nested⟩
          intro outer member
          obtain rfl | member := List.mem_cons.mp member
          · exact inside
          · exact inside.trans ((List.pairwise_cons.mp nested).1 outer member)
        obtain ⟨sound, nested''⟩ := ih nested' within
        exact ⟨sound.trans ahead, nested''⟩

end Formwork
