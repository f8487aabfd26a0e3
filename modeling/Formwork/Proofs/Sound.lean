import Formwork.Proofs.Meaning

/-!
# Reading follows the meaning

`Phrase.run_sound`: whatever a phrase is read to is what the phrase describes, on top of the
operands and pending numbers that were there before, and a failure leaves those alone. It holds of
every tidy phrase, under any limits and with or without remembered failures. `Rule.run_sound` is the
same of rules, for every description `spec` that the phrases of the rules keep to.
-/

namespace Formwork

/-! ## Stacks and retreats -/

namespace Stack

theorem eq_of_items {s t : Stack} (same : s.items = t.items) : s = t := by
  obtain ⟨items, height, height_eq⟩ := s
  obtain ⟨items', height', height_eq'⟩ := t
  simp only at same
  subst same height_eq height_eq'
  rfl

@[simp]
theorem items_push (s : Stack) (operand : Operand) :
    (s.push operand).items = operand :: s.items := rfl

@[simp]
theorem items_truncate (s : Stack) (mark : Nat) :
    (s.truncate mark).items = s.items.drop (s.items.length - mark) := by
  simp [truncate, s.height_eq]

theorem truncate_of_suffix {s t : Stack} (below : s.items <:+ t.items) :
    t.truncate s.height = s := by
  obtain ⟨above, split⟩ := below
  apply eq_of_items
  rw [items_truncate, s.height_eq, ← split]
  simp

theorem suffix_truncate {base : List Operand} {t : Stack} {mark : Nat}
    (below : base <:+ t.items) (low : base.length ≤ mark) : base <:+ (t.truncate mark).items := by
  obtain ⟨above, split⟩ := below
  rw [items_truncate, ← split, List.length_append, List.drop_append]
  have none_dropped : above.length + base.length - mark - above.length = 0 := by omega
  rw [none_dropped, List.drop_zero]
  exact List.suffix_append _ _

end Stack

namespace State

/-- The state that an attempt from `s` goes on with when it fails in state `t`. -/
def retreat (s t : State) : State :=
  { t with
    operands := t.operands.truncate s.operands.height
    abandoned := t.abandoned ++ t.pending.drop s.pending.length
    pending := t.pending.take s.pending.length
    lastEnd := s.lastEnd }

variable {s t : State}

theorem operands_retreat (below : s.operands.items <:+ t.operands.items) :
    (s.retreat t).operands = s.operands :=
  Stack.truncate_of_suffix below

theorem pending_retreat (before : s.pending <+: t.pending) :
    (s.retreat t).pending = s.pending := by
  obtain ⟨more, split⟩ := before
  simp [retreat, ← split]

end State

theorem Reader.attempt_eq (read : Reader) (s : State) (p : Position) :
    read.attempt s p =
      match read s p with
      | .missed t => .missed (s.retreat t)
      | outcome => outcome := rfl

theorem Reader.token_missed {t : Terminal} {leaf : Leaf} {s u : State} {p : Position}
    (missed : Reader.token t leaf s p = .missed u) : u = s.expect p t.label := by
  unfold Reader.token at missed
  split at missed
  · exact absurd missed (by simp)
  · exact (Outcome.missed.inj missed).symm

/-! ## Standing -/

/-- A state and a position stand where reading `x` leads to from `s₀` and `p₀`. -/
structure Stands (s₀ : State) (p₀ : Position) (x : Yield) (s : State) (p : Position) : Prop where
  spelled : Spelled p₀ x.pieces p
  operands : s.operands.items = x.operands.reverse ++ s₀.operands.items
  pending : s.pending = s₀.pending ++ x.malformed
  lastEnd : s.lastEnd = x.stop s₀.lastEnd

namespace Stands

variable {s₀ s t : State} {p₀ p q : Position} {x y : Yield}

theorem refl (s : State) (p : Position) : Stands s p .empty s p where
  spelled := rfl
  operands := rfl
  pending := (List.append_nil _).symm
  lastEnd := rfl

theorem trans (first : Stands s₀ p₀ x s p) (second : Stands s p y t q) :
    Stands s₀ p₀ (x.append y) t q where
  spelled := first.spelled.append second.spelled
  operands := by
    rw [second.operands, first.operands, Yield.operands_append, List.reverse_append,
      List.append_assoc]
  pending := by
    rw [second.pending, first.pending, List.append_assoc]
    simp [Yield.malformed]
  lastEnd := by
    rw [second.lastEnd, first.lastEnd]
    simp only [Yield.stop, Yield.pieces_append, List.getLast?_append]
    cases y.pieces.getLast? with
    | none => rfl
    | some last => rfl

theorem height (stands : Stands s₀ p₀ x s p) :
    s.operands.height = s₀.operands.height + x.operands.length := by
  rw [s.operands.height_eq, s₀.operands.height_eq, stands.operands, List.length_append,
    List.length_reverse, Nat.add_comm]

/-- The operands left since the start are counted by the height of the stack. -/
theorem count (stands : Stands s₀ p₀ x s p) :
    s.operands.height - s₀.operands.height = x.operands.length := by
  rw [stands.height, Nat.add_sub_cancel_left]

/-- A mark among the operands left since the start divides them into older and newer ones. -/
theorem above_add (stands : Stands s₀ p₀ x s p) (kept : Nat) :
    s.operands.above (s₀.operands.height + kept) = x.operands.drop kept := by
  have count : s.operands.height - (s₀.operands.height + kept) = x.operands.length - kept := by
    rw [stands.height]
    omega
  rw [Stack.above, count, stands.operands, List.take_append_of_le_length (by simp),
    List.take_reverse, List.reverse_reverse]
  by_cases low : kept ≤ x.operands.length
  · rw [Nat.sub_sub_self low]
  · rw [List.drop_eq_nil_of_le (by omega), List.drop_eq_nil_of_le (by omega)]

theorem above (stands : Stands s₀ p₀ x s p) :
    s.operands.above s₀.operands.height = x.operands :=
  stands.above_add 0

theorem items_truncate_add (stands : Stands s₀ p₀ x s p) (kept : Nat) :
    (s.operands.truncate (s₀.operands.height + kept)).items =
      (x.operands.take kept).reverse ++ s₀.operands.items := by
  have count :
      s.operands.items.length - (s₀.operands.height + kept) = x.operands.length - kept := by
    rw [← s.operands.height_eq, stands.height]
    omega
  rw [Stack.items_truncate, count, stands.operands, List.drop_append_of_le_length (by simp),
    List.drop_reverse]
  by_cases low : kept ≤ x.operands.length
  · rw [Nat.sub_sub_self low]
  · rw [List.take_of_length_le (by omega), List.take_of_length_le (by omega)]

theorem below (stands : Stands s₀ p₀ x s p) : s₀.operands.items <:+ s.operands.items :=
  ⟨x.operands.reverse, stands.operands.symm⟩

theorem expect (stands : Stands s₀ p₀ x s p) (place : Position) (label : String) :
    Stands s₀ p₀ x (s.expect place label) p := by
  obtain ⟨spelled, operands, pending, lastEnd⟩ := stands
  unfold State.expect
  split
  · exact ⟨spelled, operands, pending, lastEnd⟩
  · split <;> exact ⟨spelled, operands, pending, lastEnd⟩

/-- After a failure that left operands and pending numbers alone, an attempt stands as before. -/
theorem retreat (stands : Stands s₀ p₀ x s p) (below : s.operands.items <:+ t.operands.items)
    (before : s.pending <+: t.pending) : Stands s₀ p₀ x (s.retreat t) p where
  spelled := stands.spelled
  operands := by rw [State.operands_retreat below, stands.operands]
  pending := by rw [State.pending_retreat before, stands.pending]
  lastEnd := stands.lastEnd

theorem deeper (stands : Stands s₀ p₀ x s p) (depth : Nat) :
    Stands s₀ p₀ x { s with depth := depth } p :=
  ⟨stands.spelled, stands.operands, stands.pending, stands.lastEnd⟩

/-- From the start to the last token is the stretch of the pieces. -/
theorem spanTo (stands : Stands s₀ p₀ x s p) (read : x.pieces ≠ []) :
    p₀.cursor.spanTo s.lastEnd = x.span := by
  obtain ⟨spelled, -, -, lastEnd⟩ := stands
  rw [lastEnd, Yield.stop, Yield.span]
  cases pieces : x.pieces with
  | nil => exact absurd pieces read
  | cons first others =>
      rw [pieces] at spelled
      rw [List.head?_cons, List.getLast?_cons, ← spelled.1.start_eq]

/-- A piece that is accepted is read. -/
theorem accept (stands : Stands s₀ p₀ x s p) {piece : Piece} (here : piece.At p)
    (operand : Option Operand) (noted : List Malformed)
    (noted_eq : noted = s.pending ++ piece.malformed?.toList) :
    Stands s₀ p₀ (x.read piece operand.toList)
      ({ s with pending := noted }.accept piece.lexeme operand) piece.lexeme.next := by
  subst noted_eq
  refine stands.trans ⟨⟨here, rfl⟩, ?_, ?_, ?_⟩
  · cases operand <;> rfl
  · cases operand <;> cases found : piece.malformed? <;>
      simp [State.accept, State.push, Yield.malformed, found]
  · cases operand <;> rfl

end Stands

theorem Terminal.Accepts.malformed?_eq_none {t : Terminal} {piece : Piece}
    (accepts : t.Accepts piece.token) : piece.malformed? = none := by
  cases t with
  | keyword k => simp only [Terminal.Accepts] at accepts; simp [Piece.malformed?, accepts]
  | punct q => simp only [Terminal.Accepts] at accepts; simp [Piece.malformed?, accepts]
  | identifier =>
      obtain ⟨name, token_eq⟩ := accepts
      simp [Piece.malformed?, token_eq]

/-! ## Outcomes -/

/-- What an outcome of reading a phrase in a state `s` says, where `x` was read before. -/
def Outcome.Sound (spec : Rule → Yield → Prop) (phrase : Phrase) (s₀ : State) (p₀ : Position)
    (x : Yield) (s : State) : Outcome → Prop
  | .matched q t => ∃ y, phrase.Takes spec x y ∧ Stands s₀ p₀ y t q
  | .missed t =>
      phrase.sure = false ∧ s₀.operands.items <:+ t.operands.items ∧ s.pending <+: t.pending ∧
        (phrase.clean = true → s.operands.items <:+ t.operands.items)
  | .broken => True

/-- A reader reads what a phrase describes. -/
def Reader.Sound (spec : Rule → Yield → Prop) (phrase : Phrase) (s₀ : State) (p₀ : Position)
    (read : Reader) : Prop :=
  ∀ x s p, Stands s₀ p₀ x s p → (read s p).Sound spec phrase s₀ p₀ x s

namespace Reader.Sound

variable {spec : Rule → Yield → Prop} {s₀ : State} {p₀ : Position}

theorem token (t : Terminal) (leaf : Leaf) :
    (Reader.token t leaf).Sound spec (.token t leaf) s₀ p₀ := by
  intro x s p stands
  unfold Reader.token
  split
  · rename_i lexeme found
    obtain ⟨piece, accepts, rfl, here⟩ := Terminal.match?_spec found
    have sound_piece := accepts.malformed?_eq_none
    refine ⟨_, ⟨piece, accepts, rfl⟩, ?_⟩
    exact stands.accept here (leaf.operand? piece.lexeme) s.pending (by simp [sound_piece])
  · have after := stands.expect p t.label
    refine ⟨rfl, after.below, ?_, fun _ => ?_⟩
    · rw [after.pending, stands.pending]
    · rw [after.operands, stands.operands]

theorem number : Reader.number.Sound spec .number s₀ p₀ := by
  intro x s p stands
  unfold Reader.number
  split
  · rename_i value lexeme found
    obtain ⟨literal, text_eq, rfl, here⟩ := Position.number_spec found
    refine ⟨_, ⟨⟨.number literal, lexeme, text_eq⟩, Or.inl ⟨literal, rfl, rfl⟩⟩, ?_⟩
    exact stands.accept here (some _) s.pending (by simp [Piece.malformed?])
  · rename_i bad lexeme found
    obtain ⟨literal, tail, text_eq, rfl, here⟩ := Position.malformed_spec found
    refine ⟨_, ⟨⟨.malformed literal tail, lexeme, text_eq⟩,
      Or.inr ⟨literal, tail, rfl, rfl⟩⟩, ?_⟩
    have start_eq : lexeme.start = p.cursor := here.start_eq
    exact stands.accept here (some _) _ (by simp [Piece.malformed?, start_eq])
  · have after := stands.expect p "number"
    refine ⟨rfl, after.below, ?_, fun _ => ?_⟩
    · rw [after.pending, stands.pending]
    · rw [after.operands, stands.operands]

theorem rule {read : Reader} {r : Rule}
    (reads : ∀ s p, (read s p).Sound spec (.rule r) s p .empty s) :
    read.Sound spec (.rule r) s₀ p₀ := by
  intro x s p stands
  have inner := reads s p
  cases outcome : read s p with
  | matched q t =>
      rw [outcome] at inner
      obtain ⟨y, ⟨z, described, rfl⟩, after⟩ := inner
      exact ⟨_, ⟨z, described, rfl⟩, stands.trans after⟩
  | missed t =>
      rw [outcome] at inner
      obtain ⟨unsure, below, before, -⟩ := inner
      exact ⟨unsure, stands.below.trans below, before, fun _ => below⟩
  | broken => trivial

theorem andThen {first second : Phrase} {read read' : Reader}
    (sound_first : read.Sound spec first s₀ p₀) (sound_second : read'.Sound spec second s₀ p₀) :
    (read.andThen read').Sound spec (.seq first second) s₀ p₀ := by
  intro x s p stands
  have one := sound_first x s p stands
  unfold Reader.andThen
  cases outcome : read s p with
  | matched q t =>
      rw [outcome] at one
      obtain ⟨y, takes, between⟩ := one
      have two := sound_second y t q between
      change (read' t q).Sound spec (.seq first second) s₀ p₀ x s
      cases outcome' : read' t q with
      | matched q' u =>
          rw [outcome'] at two
          obtain ⟨z, takes', after⟩ := two
          exact ⟨z, ⟨y, takes, takes'⟩, after⟩
      | missed u =>
          rw [outcome'] at two
          obtain ⟨unsure, below, before, clean⟩ := two
          refine ⟨by simp [Phrase.sure, unsure], below, ?_, fun is_clean => ?_⟩
          · refine List.IsPrefix.trans ?_ before
            obtain ⟨more, more_eq⟩ := takes.pieces
            rw [stands.pending, between.pending, Yield.malformed, Yield.malformed, ← more_eq,
              List.filterMap_append, ← List.append_assoc]
            exact List.prefix_append _ _
          · -- The second phrase can fail, so the first one only added operands.
            simp only [Phrase.clean, unsure, Bool.false_or, Bool.and_eq_true] at is_clean
            refine List.IsSuffix.trans ?_ (clean is_clean.2.2)
            obtain ⟨more, more_eq⟩ := takes.operands is_clean.2.1
            rw [stands.operands, between.operands, ← more_eq, List.reverse_append,
              List.append_assoc]
            exact List.suffix_append _ _
      | broken => trivial
  | missed t =>
      rw [outcome] at one
      obtain ⟨unsure, below, before, clean⟩ := one
      refine ⟨by simp [Phrase.sure, unsure], below, before, fun is_clean => ?_⟩
      simp only [Phrase.clean, Bool.and_eq_true] at is_clean
      exact clean is_clean.1
  | broken => trivial

/-- A failed attempt leaves everything as it was, if the phrase is clean. -/
theorem retreat {phrase : Phrase} {read : Reader} (sound : read.Sound spec phrase s₀ p₀)
    {x : Yield} {s t : State} {p : Position} (stands : Stands s₀ p₀ x s p)
    (missed : read.attempt s p = .missed t) (is_clean : phrase.clean = true) :
    Stands s₀ p₀ x t p := by
  have inner := sound x s p stands
  rw [Reader.attempt_eq] at missed
  cases outcome : read s p with
  | matched q u => simp [outcome] at missed
  | missed u =>
      rw [outcome] at inner missed
      obtain ⟨-, -, before, clean⟩ := inner
      obtain rfl := Outcome.missed.inj missed
      exact stands.retreat (clean is_clean) before
  | broken => simp [outcome] at missed

theorem attempt {phrase : Phrase} {read : Reader} (sound : read.Sound spec phrase s₀ p₀) :
    read.attempt.Sound spec (.attempt phrase) s₀ p₀ := by
  intro x s p stands
  have inner := sound x s p stands
  rw [Reader.attempt_eq]
  cases outcome : read s p with
  | matched q t =>
      rw [outcome] at inner
      exact inner
  | missed t =>
      rw [outcome] at inner
      obtain ⟨unsure, below, before, clean⟩ := inner
      refine ⟨unsure, Stack.suffix_truncate below ?_, ?_, fun is_clean => ?_⟩
      · rw [s.operands.height_eq]
        exact stands.below.length_le
      · rw [State.pending_retreat before]
      · rw [State.operands_retreat (clean is_clean)]
  | broken => trivial

/--
After the first alternative failed, either everything is as it was, or the second one fails too and
changes neither operands nor pending numbers.
-/
theorem orElse {first second : Phrase} {read read' : Reader}
    (sound_first : read.Sound spec first s₀ p₀) (sound_second : read'.Sound spec second s₀ p₀)
    (settled : ∀ x s t p, Stands s₀ p₀ x s p → read.attempt s p = .missed t →
      Stands s₀ p₀ x t p ∨
        (first.clean = false ∧ second.sure = false ∧
          ∃ u, read' t p = .missed u ∧ u.operands = t.operands ∧ u.pending = t.pending)) :
    (read.orElse read').Sound spec (.choice first second) s₀ p₀ := by
  intro x s p stands
  have one := sound_first.attempt x s p stands
  unfold Reader.orElse
  cases outcome : read.attempt s p with
  | matched q t =>
      rw [outcome] at one
      obtain ⟨y, takes, after⟩ := one
      exact ⟨y, Or.inl takes, after⟩
  | missed t =>
      rw [outcome] at one
      change (read' t p).Sound spec (.choice first second) s₀ p₀ x s
      rcases settled x s t p stands outcome with
        again | ⟨unclean, unsure, u, missed, operands_eq, pending_eq⟩
      · have two := sound_second x t p again
        cases outcome' : read' t p with
        | matched q u =>
            rw [outcome'] at two
            obtain ⟨y, takes, after⟩ := two
            exact ⟨y, Or.inr takes, after⟩
        | missed u =>
            rw [outcome'] at two
            obtain ⟨unsure, below, before, clean⟩ := two
            refine ⟨unsure, below, ?_, fun is_clean => ?_⟩
            · rwa [stands.pending, ← again.pending]
            · simp only [Phrase.clean, Bool.and_eq_true] at is_clean
              rw [stands.operands, ← again.operands]
              exact clean is_clean.2
        | broken => trivial
      · obtain ⟨-, below, before, -⟩ := one
        rw [missed]
        refine ⟨unsure, by rwa [operands_eq], by rwa [pending_eq], fun is_clean => ?_⟩
        simp [Phrase.clean, unclean] at is_clean
  | broken => trivial

theorem option {phrase : Phrase} {read : Reader} (sound : read.Sound spec phrase s₀ p₀)
    (is_clean : phrase.clean = true) : read.option.Sound spec (.option phrase) s₀ p₀ := by
  intro x s p stands
  have inner := sound.attempt x s p stands
  unfold Reader.option
  cases outcome : read.attempt s p with
  | matched q t =>
      rw [outcome] at inner
      obtain ⟨y, takes, after⟩ := inner
      exact ⟨y, Or.inl takes, after⟩
  | missed t => exact ⟨x, Or.inr rfl, sound.retreat stands outcome is_clean⟩
  | broken => trivial

theorem many {phrase : Phrase} {read : Reader} (sound : read.Sound spec phrase s₀ p₀)
    (is_clean : phrase.clean = true) (limit : Nat) :
    (read.many limit).Sound spec (.many phrase) s₀ p₀ := by
  induction limit with
  | zero => exact fun _ _ _ _ => trivial
  | succ limit ih =>
      intro x s p stands
      have inner := sound.attempt x s p stands
      unfold Reader.many
      cases outcome : read.attempt s p with
      | matched q t =>
          rw [outcome] at inner
          obtain ⟨y, takes, between⟩ := inner
          have others := ih y t q between
          change (read.many limit t q).Sound spec (.many phrase) s₀ p₀ x s
          cases outcome' : read.many limit t q with
          | matched q' u =>
              rw [outcome'] at others
              obtain ⟨z, more, after⟩ := others
              exact ⟨z, Relation.ReflTransGen.head takes more, after⟩
          | missed u =>
              rw [outcome'] at others
              exact absurd others.1 (by simp [Phrase.sure])
          | broken => trivial
      | missed t => exact ⟨x, .refl, sound.retreat stands outcome is_clean⟩
      | broken => trivial

theorem branch (t : Terminal) {yes no : Phrase} {read read' : Reader}
    (sound_yes : read.Sound spec yes s₀ p₀) (sound_no : read'.Sound spec no s₀ p₀) :
    (Reader.branch t read read').Sound spec (.branch t yes no) s₀ p₀ := by
  intro x s p stands
  have one : (Reader.token t .nothing s p).Sound spec (.token t .nothing) s₀ p₀ x s :=
    token t .nothing x s p stands
  unfold Reader.branch
  cases outcome : Reader.token t .nothing s p with
  | matched q u =>
      rw [outcome] at one
      obtain ⟨y, ⟨piece, accepts, rfl⟩, between⟩ := one
      have two := sound_yes _ u q between
      change (read u q).Sound spec (.branch t yes no) s₀ p₀ x s
      cases outcome' : read u q with
      | matched q' v =>
          rw [outcome'] at two
          obtain ⟨z, takes, after⟩ := two
          exact ⟨z, Or.inl ⟨piece, accepts, takes⟩, after⟩
      | missed v =>
          rw [outcome'] at two
          obtain ⟨unsure, below, before, clean⟩ := two
          refine ⟨by simp [Phrase.sure, unsure], below, ?_, fun is_clean => ?_⟩
          · refine List.IsPrefix.trans ?_ before
            rw [stands.pending, between.pending]
            simp [Yield.malformed, Yield.read]
          · simp only [Phrase.clean, Bool.and_eq_true] at is_clean
            refine List.IsSuffix.trans ?_ (clean is_clean.1)
            rw [stands.operands, between.operands]
            simp [Yield.read, Leaf.operand?]
      | broken => trivial
  | missed u =>
      rw [outcome] at one
      obtain ⟨-, -, before, clean⟩ := one
      have again : Stands s₀ p₀ x u p := by
        rw [Reader.token_missed outcome]
        exact stands.expect p t.label
      have two := sound_no x u p again
      change (read' u p).Sound spec (.branch t yes no) s₀ p₀ x s
      cases outcome' : read' u p with
      | matched q' v =>
          rw [outcome'] at two
          obtain ⟨z, takes, after⟩ := two
          exact ⟨z, Or.inr takes, after⟩
      | missed v =>
          rw [outcome'] at two
          obtain ⟨unsure, below, before', clean'⟩ := two
          refine ⟨by simp [Phrase.sure, unsure], below, before.trans before', fun is_clean => ?_⟩
          simp only [Phrase.clean, Bool.and_eq_true] at is_clean
          exact (clean rfl).trans (clean' is_clean.2)
      | broken => trivial
  | broken => trivial

theorem nested {phrase : Phrase} {read : Reader} (sound : read.Sound spec phrase s₀ p₀)
    (maxNesting : Nat) : (Reader.nested maxNesting read).Sound spec (.nested phrase) s₀ p₀ := by
  intro x s p stands
  unfold Reader.nested
  split
  · exact ⟨rfl, stands.below, List.prefix_refl _, fun _ => List.suffix_refl _⟩
  · have inner := sound x _ p (stands.deeper (s.depth + 1))
    cases outcome : read { s with depth := s.depth + 1 } p with
    | matched q t =>
        rw [outcome] at inner
        obtain ⟨y, takes, after⟩ := inner
        exact ⟨y, takes, after.deeper _⟩
    | missed t =>
        rw [outcome] at inner
        obtain ⟨-, below, before, clean⟩ := inner
        exact ⟨rfl, below, before, clean⟩
    | broken => trivial

theorem remembered (memo : Memo) {phrase : Phrase} {read : Reader}
    (sound : read.Sound spec phrase s₀ p₀) :
    (Reader.remembered memo read).Sound spec (.remembered memo phrase) s₀ p₀ := by
  intro x s p stands
  unfold Reader.remembered
  split
  · exact ⟨rfl, stands.below, List.prefix_refl _, fun _ => List.suffix_refl _⟩
  · have inner := sound.attempt x s p stands
    cases outcome : read.attempt s p with
    | matched q t =>
        rw [outcome] at inner
        exact inner
    | missed t =>
        rw [outcome] at inner
        obtain ⟨-, below, before, clean⟩ := inner
        simp only
        split
        · exact ⟨rfl, below, before, clean⟩
        · exact ⟨rfl, below, before, clean⟩
    | broken => trivial

theorem afterIndex {frame : Frame} (mark_eq : frame.mark = s₀.operands.height) {phrase : Phrase}
    {read : Reader} (sound : read.Sound spec phrase s₀ p₀) (is_clean : phrase.clean = true) :
    (Reader.afterIndex frame read).Sound spec (.afterIndex phrase) s₀ p₀ := by
  intro x s p stands
  unfold Reader.afterIndex
  rw [mark_eq, stands.above]
  split
  · rename_i e newest
    split
    · rename_i is_index
      have inner := sound.option is_clean x s p stands
      cases outcome : read.option s p with
      | matched q t =>
          rw [outcome] at inner
          obtain ⟨y, takes | rfl, after⟩ := inner
          · exact ⟨y, Or.inl ⟨⟨e, newest, is_index⟩, takes⟩, after⟩
          · exact ⟨_, Or.inr rfl, after⟩
      | missed t =>
          rw [outcome] at inner
          exact absurd inner.1 (by simp [Phrase.sure])
      | broken => trivial
    · exact ⟨x, Or.inr rfl, stands⟩
  · exact ⟨x, Or.inr rfl, stands⟩

theorem reduce (r : Reduction) {frame : Frame} (mark_eq : frame.mark = s₀.operands.height)
    (start_eq : frame.start = p₀.cursor) :
    (Reader.reduce r frame).Sound spec (.reduce r) s₀ p₀ := by
  intro x s p stands
  unfold Reader.reduce
  simp only [mark_eq, stands.count, start_eq, stands.above_add]
  split
  · rename_i operand built
    refine ⟨_, ⟨_, operand, ?_, built, rfl⟩, stands.spelled, ?_, stands.pending, stands.lastEnd⟩
    · exact fun read => stands.spanTo read
    · rw [Stack.items_push, stands.items_truncate_add]
      simp
  · trivial

end Reader.Sound

/-! ## Alternatives that exclude each other -/

theorem Phrase.differ_spec {t other : Terminal} (apart : differ t other = true) {p : Position}
    {lexeme : Lexeme} (found : t.match? p = some lexeme) : other.match? p = none := by
  cases t with
  | punct q =>
      cases other with
      | punct r =>
          by_contra present
          obtain ⟨lexeme', found'⟩ := Option.ne_none_iff_exists'.mp present
          obtain ⟨piece, accepts, -, after, rest_eq, fits, -⟩ := Terminal.match?_spec found
          obtain ⟨piece', accepts', -, after', rest_eq', fits', -⟩ := Terminal.match?_spec found'
          have nonempty := Token.chars_ne_nil fits
          have nonempty' := Token.chars_ne_nil fits'
          simp only [Terminal.Accepts] at accepts accepts'
          rw [accepts, Token.chars] at nonempty rest_eq
          rw [accepts', Token.chars] at nonempty' rest_eq'
          have head_eq : q.chars.head? = r.chars.head? := by
            rw [← List.head?_append_of_ne_nil _ nonempty, ← List.head?_append_of_ne_nil _ nonempty']
            exact congrArg List.head? (rest_eq.symm.trans rest_eq')
          simp [differ, head_eq] at apart
      | keyword k => simp [differ] at apart
      | identifier => simp [differ] at apart
  | keyword k => simp [differ] at apart
  | identifier => simp [differ] at apart

theorem Reader.token_of_none {t : Terminal} (leaf : Leaf) {p : Position} (s : State)
    (absent : t.match? p = none) : Reader.token t leaf s p = .missed (s.expect p t.label) := by
  simp [Reader.token, absent]

@[simp]
theorem State.operands_expect (s : State) (p : Position) (label : String) :
    (s.expect p label).operands = s.operands := by
  unfold State.expect
  split
  · rfl
  · split <;> rfl

@[simp]
theorem State.pending_expect (s : State) (p : Position) (label : String) :
    (s.expect p label).pending = s.pending := by
  unfold State.expect
  split
  · rfl
  · split <;> rfl

@[simp]
theorem State.depth_expect (s : State) (p : Position) (label : String) :
    (s.expect p label).depth = s.depth := by
  unfold State.expect
  split
  · rfl
  · split <;> rfl

/-- A repetition and the token after it, where neither the repetition nor the token can start. -/
inductive Phrase.Barred (p : Position) : Phrase → Prop where
  | intro {t closing : Terminal} {leaf leaf' : Leaf} {item last : Phrase} :
      t.match? p = none → closing.match? p = none →
      Barred p (.seq (.many (.seq (.token t leaf) item)) (.seq (.token closing leaf') last))

/-- Such a phrase fails at once, having looked for two tokens. -/
theorem Phrase.run_of_absent {p : Position} {t closing : Terminal} (leaf leaf' : Leaf)
    (item last : Phrase) (absent : t.match? p = none) (unclosed : closing.match? p = none)
    {settings : Settings} (positive : 0 < settings.repeats) (rule : Rule → Reader)
    (frame : Frame) (s : State) :
    (Phrase.seq (.many (.seq (.token t leaf) item)) (.seq (.token closing leaf') last)).run settings
      rule frame s p = .missed ((s.retreat (s.expect p t.label)).expect p closing.label) := by
  obtain ⟨limit, limit_eq⟩ := Nat.exists_eq_succ_of_ne_zero positive.ne'
  have stops (item : Reader) : ((Reader.token t leaf).andThen item).attempt s p =
      .missed (s.retreat (s.expect p t.label)) := by
    rw [Reader.attempt_eq, Reader.andThen, Reader.token_of_none leaf s absent]
  simp only [Phrase.run, limit_eq, Reader.andThen, Reader.many, stops,
    Reader.token_of_none leaf' _ unclosed]

/-- After an alternative that excludes the second one, nothing changed or the second one fails. -/
theorem Stands.settled_of_excludes {s₀ : State} {p₀ : Position} {settings : Settings}
    {rule : Rule → Reader} {frame : Frame} {first second : Phrase}
    (excludes : first.excludes second = true) {x : Yield} {s t : State} {p : Position}
    (stands : Stands s₀ p₀ x s p)
    (missed : (first.run settings rule frame).attempt s p = .missed t) :
    Stands s₀ p₀ x t p ∨ second.Barred p := by
  unfold Phrase.excludes at excludes
  split at excludes
  · rename_i token leaf others other otherLeaf item closing closingLeaf last
    obtain ⟨apart, apart'⟩ := Bool.and_eq_true_iff.mp excludes
    cases found : token.match? p with
    | none =>
        left
        rw [Reader.attempt_eq, Phrase.run, Phrase.run, Reader.andThen,
          Reader.token_of_none leaf s found] at missed
        obtain rfl := Outcome.missed.inj missed
        exact stands.retreat (by rw [State.operands_expect]) (by rw [State.pending_expect])
    | some lexeme =>
        exact Or.inr ⟨Phrase.differ_spec apart found, Phrase.differ_spec apart' found⟩
  · simp at excludes

/-- After a first alternative failed, nothing changed or the second one fails as well. -/
theorem Stands.settled {s₀ : State} {p₀ : Position} {settings : Settings}
    {rule : Rule → Reader} {frame : Frame} {first second : Phrase}
    (is_tidy : (Phrase.choice first second).tidy = true) {spec : Rule → Yield → Prop}
    (sound : (first.run settings rule frame).Sound spec first s₀ p₀) {x : Yield} {s t : State}
    {p : Position} (stands : Stands s₀ p₀ x s p)
    (missed : (first.run settings rule frame).attempt s p = .missed t) :
    Stands s₀ p₀ x t p ∨ first.clean = false ∧ second.Barred p := by
  simp only [Phrase.tidy, Bool.and_eq_true, Bool.or_eq_true] at is_tidy
  by_cases is_clean : first.clean = true
  · exact Or.inl (sound.retreat stands missed is_clean)
  · exact (stands.settled_of_excludes (is_tidy.2.resolve_left is_clean) missed).imp_right
      fun barred => ⟨Bool.not_eq_true _ ▸ is_clean, barred⟩

/-! ## Phrases and rules -/

/-- What a tidy phrase is read to is what it describes, if that is so of the rules. -/
theorem Phrase.run_sound {spec : Rule → Yield → Prop} {settings : Settings}
    (positive : 0 < settings.repeats) {rule : Rule → Reader}
    (reads : ∀ r s p, (rule r s p).Sound spec (.rule r) s p .empty s) (s₀ : State)
    (p₀ : Position) {phrase : Phrase} (is_tidy : phrase.tidy = true) :
    (phrase.run settings rule ⟨p₀.cursor, s₀.operands.height⟩).Sound spec phrase s₀ p₀ := by
  induction phrase with
  | token t leaf => exact Reader.Sound.token t leaf
  | number => exact Reader.Sound.number
  | rule r => exact Reader.Sound.rule (reads r)
  | seq first second ih_first ih_second =>
      simp only [tidy, Bool.and_eq_true] at is_tidy
      exact (ih_first is_tidy.1).andThen (ih_second is_tidy.2)
  | choice first second ih_first ih_second =>
      have both := is_tidy
      simp only [tidy, Bool.and_eq_true] at both
      have sound_first := ih_first both.1.1
      refine sound_first.orElse (ih_second both.1.2) fun x s t p stands missed => ?_
      refine (stands.settled is_tidy sound_first missed).imp_right ?_
      rintro ⟨unclean, barred⟩
      obtain ⟨absent, unclosed⟩ := barred
      refine ⟨unclean, rfl, _, run_of_absent _ _ _ _ absent unclosed positive rule _ t, ?_, ?_⟩
      · rw [State.operands_expect]
        exact State.operands_retreat (by rw [State.operands_expect])
      · rw [State.pending_expect]
        exact State.pending_retreat (by rw [State.pending_expect])
  | branch t yes no ih_yes ih_no =>
      simp only [tidy, Bool.and_eq_true] at is_tidy
      exact Reader.Sound.branch t (ih_yes is_tidy.1) (ih_no is_tidy.2)
  | attempt phrase ih => exact (ih is_tidy).attempt
  | option phrase ih =>
      simp only [tidy, Bool.and_eq_true] at is_tidy
      exact (ih is_tidy.1).option is_tidy.2
  | many phrase ih =>
      simp only [tidy, Bool.and_eq_true] at is_tidy
      exact (ih is_tidy.1).many is_tidy.2 settings.repeats
  | nested phrase ih => exact (ih is_tidy).nested settings.maxNesting
  | remembered memo phrase ih =>
      unfold Phrase.run
      split
      · exact (ih is_tidy).remembered memo
      · have attempted := (ih is_tidy).attempt
        intro x s p stands
        have inner := attempted x s p stands
        cases outcome : Reader.attempt _ s p with
        | matched q t => rw [outcome] at inner; exact inner
        | missed t => rw [outcome] at inner; exact ⟨rfl, inner.2⟩
        | broken => trivial
  | afterIndex phrase ih =>
      simp only [tidy, Bool.and_eq_true] at is_tidy
      exact Reader.Sound.afterIndex rfl (ih is_tidy.1) is_tidy.2
  | reduce r => exact Reader.Sound.reduce r rfl rfl

/-- What a rule is read to is what it describes, if its phrase keeps to the description. -/
theorem Rule.run_sound {spec : Rule → Yield → Prop}
    (closed : ∀ r y, r.phrase.Takes spec .empty y → spec r y) {settings : Settings}
    (positive : 0 < settings.repeats) (fuel : Nat) (r : Rule) (s : State) (p : Position) :
    (Rule.run settings fuel r s p).Sound spec (.rule r) s p .empty s := by
  induction fuel generalizing r s p with
  | zero => trivial
  | succ fuel ih =>
      have inner : (r.phrase.run settings (Rule.run settings fuel)
          ⟨p.cursor, s.operands.height⟩ s p).Sound spec r.phrase s p .empty s :=
        Phrase.run_sound positive ih s p (Phrase.tidy_phrase r) .empty s p (.refl s p)
      unfold Rule.run
      cases outcome : r.phrase.run settings (Rule.run settings fuel)
          ⟨p.cursor, s.operands.height⟩ s p with
      | matched q t =>
          rw [outcome] at inner
          obtain ⟨y, takes, after⟩ := inner
          exact ⟨y, ⟨y, closed r y takes, rfl⟩, after⟩
      | missed t =>
          rw [outcome] at inner
          obtain ⟨-, below, before, -⟩ := inner
          exact ⟨rfl, below, before, fun _ => below⟩
      | broken => trivial

end Formwork
