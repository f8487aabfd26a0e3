import Formwork.Proofs.Contract
import Formwork.Proofs.Sound

/-!
# Reading never breaks

A phrase that is safe never lacks an operand, and enough fuel never runs out: a rule is entered
again only after a token or with a lower rank, so `fuelFor` covers all rules between two tokens.
`Rule.run_ne_broken` says so of every rule.
-/

namespace Formwork

namespace Reader

@[simp]
theorem attempt_eq_broken {read : Reader} {s : State} {p : Position} :
    read.attempt s p = .broken ↔ read s p = .broken := by
  rw [attempt_eq]
  cases read s p <;> simp

theorem token_ne_broken (t : Terminal) (leaf : Leaf) (s : State) (p : Position) :
    Reader.token t leaf s p ≠ .broken := by
  unfold Reader.token
  split <;> simp

theorem number_ne_broken (s : State) (p : Position) : Reader.number s p ≠ .broken := by
  unfold Reader.number
  split <;> simp

variable {read read' : Reader} {s : State} {p : Position}

theorem andThen_ne_broken (unbroken : read s p ≠ .broken)
    (later : ∀ q t, read s p = .matched q t → read' t q ≠ .broken) :
    read.andThen read' s p ≠ .broken := by
  unfold andThen
  cases outcome : read s p with
  | matched q t => exact later q t outcome
  | missed t => simp
  | broken => exact absurd outcome unbroken

theorem orElse_ne_broken (unbroken : read s p ≠ .broken)
    (other : ∀ t, read.attempt s p = .missed t → read' t p ≠ .broken) :
    read.orElse read' s p ≠ .broken := by
  unfold orElse
  cases outcome : read.attempt s p with
  | matched q t => simp
  | missed t => exact other t outcome
  | broken => exact absurd (attempt_eq_broken.mp outcome) unbroken

theorem branch_ne_broken {t : Terminal}
    (yes : ∀ q u, token t .nothing s p = .matched q u → read u q ≠ .broken)
    (no : read' (s.expect p t.label) p ≠ .broken) : branch t read read' s p ≠ .broken := by
  unfold branch
  cases outcome : token t .nothing s p with
  | matched q u => exact yes q u outcome
  | missed u =>
      obtain rfl := token_missed outcome
      exact no
  | broken => exact absurd outcome (token_ne_broken t .nothing s p)

theorem option_ne_broken (unbroken : read s p ≠ .broken) : read.option s p ≠ .broken := by
  unfold option
  cases outcome : read.attempt s p with
  | matched q t => simp
  | missed t => simp
  | broken => exact absurd (attempt_eq_broken.mp outcome) unbroken

theorem nested_ne_broken {limit : Nat}
    (unbroken : read { s with depth := s.depth + 1 } p ≠ .broken) :
    nested limit read s p ≠ .broken := by
  unfold nested
  split
  · simp
  · cases outcome : read { s with depth := s.depth + 1 } p with
    | matched q t => simp
    | missed t => simp
    | broken => exact absurd outcome unbroken

theorem remembered_ne_broken {memo : Memo} (unbroken : read s p ≠ .broken) :
    remembered memo read s p ≠ .broken := by
  unfold remembered
  split
  · simp
  · cases outcome : read.attempt s p with
    | matched q t => simp
    | missed t => simp only; split <;> simp
    | broken => exact absurd (attempt_eq_broken.mp outcome) unbroken

end Reader

/-- More pieces lead further on. -/
theorem Stands.length_lt {s₀ s t : State} {p₀ p q : Position} {x y : Yield}
    (before : Stands s₀ p₀ x s p) (after : Stands s₀ p₀ y t q) (more : x.pieces <+: y.pieces)
    (longer : x.pieces.length < y.pieces.length) : q.rest.length < p.rest.length := by
  obtain ⟨added, pieces_eq⟩ := more
  have spelled := after.spelled
  rw [← pieces_eq] at spelled longer
  obtain ⟨p', first, second⟩ := spelled.split
  obtain rfl := first.unique before.spelled
  refine second.length_lt ?_
  rintro rfl
  simp at longer

/-- A rule is entered further on than its phrase started, or there with a rank below the bound. -/
theorem Stands.enters {spec : Rule → Yield → Prop} {rank : Rule → Nat} {bound : Nat} {r : Rule}
    {s₀ s : State} {p₀ p : Position} {x : Yield} (stands : Stands s₀ p₀ x s p)
    (safe : (Phrase.rule r).Safe spec rank bound x) :
    p.rest.length < p₀.rest.length ∨ p = p₀ ∧ rank r < bound := by
  by_cases read : x.pieces = []
  · have spelled := stands.spelled
    rw [read] at spelled
    exact Or.inr ⟨spelled.symm, safe.resolve_left fun some_piece => some_piece read⟩
  · exact Or.inl (stands.spelled.length_lt read)

section Unbroken

variable {spec : Rule → Yield → Prop} {rank : Rule → Nat} {bound : Nat} {s₀ : State}
  {p₀ : Position}

/-- A repetition of a phrase that reads something in each round ends before its limit. -/
theorem Reader.many_ne_broken {phrase : Phrase} {read : Reader}
    (sound : read.Sound spec phrase s₀ p₀)
    (unbroken : ∀ x s p, Stands s₀ p₀ x s p → phrase.Safe spec rank bound x →
      read s p ≠ .broken) {limit : Nat} {x : Yield} {s : State} {p : Position}
    (stands : Stands s₀ p₀ x s p) (safe : (Phrase.many phrase).Safe spec rank bound x)
    (enough : p.rest.length < limit) : read.many limit s p ≠ .broken := by
  induction limit generalizing x s p with
  | zero => exact absurd enough (Nat.not_lt_zero _)
  | succ limit ih =>
      obtain ⟨safe_now, progress⟩ := safe x .refl
      have inner := sound.attempt x s p stands
      unfold Reader.many
      cases outcome : read.attempt s p with
      | matched q t =>
          rw [outcome] at inner
          obtain ⟨y, takes, after⟩ := inner
          have shorter := stands.length_lt after takes.pieces (progress y takes)
          exact ih after (fun z rounds => safe z (.head takes rounds)) (by omega)
      | missed t => simp
      | broken =>
          exact absurd (Reader.attempt_eq_broken.mp outcome) (unbroken x s p stands safe_now)

variable {settings : Settings} {rule : Rule → Reader}

/-- A safe phrase does not break, if the rules it enters do not. -/
theorem Phrase.run_ne_broken (enough : p₀.rest.length < settings.repeats)
    (reads : ∀ r s p, (rule r s p).Sound spec (.rule r) s p .empty s)
    (unbroken : ∀ r s p,
      p.rest.length < p₀.rest.length ∨ p = p₀ ∧ rank r < bound → rule r s p ≠ .broken)
    {phrase : Phrase} (is_tidy : phrase.tidy = true) {x : Yield} {s : State} {p : Position}
    (stands : Stands s₀ p₀ x s p) (safe : phrase.Safe spec rank bound x) :
    phrase.run settings rule ⟨p₀.cursor, s₀.operands.height⟩ s p ≠ .broken := by
  have positive : 0 < settings.repeats := Nat.zero_lt_of_lt enough
  have sound {phrase : Phrase} (is_tidy : phrase.tidy = true) :=
    Phrase.run_sound positive reads s₀ p₀ is_tidy
  induction phrase generalizing x s p with
  | token t leaf => exact Reader.token_ne_broken t leaf s p
  | number => exact Reader.number_ne_broken s p
  | rule r => exact unbroken r s p (stands.enters safe)
  | seq first second ih_first ih_second =>
      simp only [tidy, Bool.and_eq_true] at is_tidy
      refine Reader.andThen_ne_broken (ih_first is_tidy.1 stands safe.1) fun q t matched => ?_
      have one := sound is_tidy.1 x s p stands
      rw [matched] at one
      obtain ⟨y, takes, after⟩ := one
      exact ih_second is_tidy.2 after (safe.2 y takes)
  | choice first second ih_first ih_second =>
      have both := is_tidy
      simp only [tidy, Bool.and_eq_true] at both
      refine Reader.orElse_ne_broken (ih_first both.1.1 stands safe.1) fun t missed => ?_
      rcases stands.settled is_tidy (sound both.1.1) missed with again | ⟨-, barred⟩
      · exact ih_second both.1.2 again safe.2
      · obtain ⟨absent, unclosed⟩ := barred
        simp [run_of_absent _ _ _ _ absent unclosed positive]
  | branch t yes no ih_yes ih_no =>
      simp only [tidy, Bool.and_eq_true] at is_tidy
      refine Reader.branch_ne_broken (fun q u matched => ?_)
        (ih_no is_tidy.2 (stands.expect p t.label) safe.2)
      have one : (Reader.token t .nothing s p).Sound spec (.token t .nothing) s₀ p₀ x s :=
        Reader.Sound.token t .nothing x s p stands
      rw [matched] at one
      obtain ⟨y, ⟨piece, accepts, rfl⟩, after⟩ := one
      exact ih_yes is_tidy.1 after (safe.1 piece accepts)
  | attempt phrase ih =>
      exact fun outcome => ih is_tidy stands safe (Reader.attempt_eq_broken.mp outcome)
  | option phrase ih =>
      simp only [tidy, Bool.and_eq_true] at is_tidy
      exact Reader.option_ne_broken (ih is_tidy.1 stands safe)
  | many phrase ih =>
      simp only [tidy, Bool.and_eq_true] at is_tidy
      have near := stands.spelled.leadsTo.length_le
      exact Reader.many_ne_broken (sound is_tidy.1)
        (fun x s p stands safe => ih is_tidy.1 stands safe) stands safe (by omega)
  | nested phrase ih =>
      exact Reader.nested_ne_broken (ih is_tidy (stands.deeper (s.depth + 1)) safe)
  | remembered memo phrase ih =>
      have unbroken_inner := ih is_tidy stands safe
      unfold Phrase.run
      split
      · exact Reader.remembered_ne_broken unbroken_inner
      · exact fun outcome => unbroken_inner (Reader.attempt_eq_broken.mp outcome)
  | afterIndex phrase ih =>
      simp only [tidy, Bool.and_eq_true] at is_tidy
      unfold Phrase.run Reader.afterIndex
      simp only [stands.above]
      split
      · rename_i e newest
        split
        · rename_i is_index
          exact Reader.option_ne_broken (ih is_tidy.1 stands (safe ⟨e, newest, is_index⟩))
        · simp
      · simp
  | reduce r =>
      unfold Phrase.run Reader.reduce
      simp only [stands.count, stands.above_add]
      have built := safe.2 (p₀.cursor.spanTo s.lastEnd)
      obtain ⟨operand, operand_eq⟩ := Option.isSome_iff_exists.mp built
      simp [operand_eq]

end Unbroken

theorem Rule.rank_lt (r : Rule) : r.rank < Rule.all.length := by
  cases r <;> decide

/-- With enough fuel no rule breaks. -/
theorem Rule.run_ne_broken {settings : Settings} {fuel : Nat} (r : Rule) (s : State)
    {p : Position} (repeats : p.rest.length < settings.repeats)
    (enough : Rule.all.length * p.rest.length + r.rank < fuel) :
    Rule.run settings fuel r s p ≠ .broken := by
  induction fuel generalizing r s p with
  | zero => exact absurd enough (Nat.not_lt_zero _)
  | succ fuel ih =>
      have positive : 0 < settings.repeats := Nat.zero_lt_of_lt repeats
      refine Phrase.run_ne_broken repeats
        (Rule.run_sound Rule.meets_of_takes positive fuel) ?_ (Phrase.tidy_phrase r)
        (Stands.refl s p) r.safe_phrase
      rintro other t q (shorter | ⟨rfl, lower⟩)
      · have rank_lt := other.rank_lt
        have step : Rule.all.length * (q.rest.length + 1) ≤ Rule.all.length * p.rest.length :=
          Nat.mul_le_mul_left _ shorter
        rw [Nat.mul_add] at step
        exact ih other t (by omega) (by omega)
      · exact ih other t repeats (by omega)

end Formwork
