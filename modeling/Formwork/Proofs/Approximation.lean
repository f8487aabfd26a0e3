import Formwork.Value.Equality
import Mathlib.Data.List.Forall2

/-!
# Computations that may go on forever

A comparison goes on forever, has an answer, or is broken off. One computation approximates another
one when the other does the same, unless the first goes on forever.

Walks through collections do not care what kind of computation their tests are: if relations between
answers can be lifted to computations of two kinds, then walks with tests that are related are
related as well (`Lifting.allPairs`, `Lifting.findKey?`, `Lifting.allEntries` and
`Lifting.insertKey`).
-/

namespace Formwork

/-! ## Walks with related tests -/

/-- A way to lift relations between answers to computations of two kinds. -/
structure Lifting (m n : Type → Type) [Monad m] [Monad n] where
  Rel {α β : Type} (S : α → β → Prop) : m α → n β → Prop
  pure {α β : Type} {S : α → β → Prop} {a : α} {b : β} (related : S a b) :
    Rel S (Pure.pure a) (Pure.pure b)
  bind {α β γ δ : Type} {S : α → β → Prop} {T : γ → δ → Prop} {x : m α} {y : n β} {f : α → m γ}
    {g : β → n δ} (first : Rel S x y) (later : ∀ a b, S a b → Rel T (f a) (g b)) :
    Rel T (x >>= f) (y >>= g)

namespace Lifting

variable {m n : Type → Type} [Monad m] [Monad n] (lift : Lifting m n) {K R : Value → Value → Prop}
  {sameKey test : Value → Value → m Bool} {sameKey' test' : Value → Value → n Bool}

theorem allPairs {xs xs' ys ys' : List Value} (left : List.Forall₂ K xs xs')
    (right : List.Forall₂ R ys ys')
    (tests : ∀ x x' y y', K x x' → R y y' → lift.Rel Eq (test x y) (test' x' y')) :
    lift.Rel Eq (allPairs test xs ys) (Formwork.allPairs test' xs' ys') := by
  induction left generalizing ys ys' with
  | nil => exact lift.pure rfl
  | cons first _ ih =>
      cases right with
      | nil => exact lift.pure rfl
      | cons first' others =>
          refine lift.bind (tests _ _ _ _ first first') ?_
          rintro b _ rfl
          cases b with
          | false => exact lift.pure rfl
          | true => exact ih others

theorem findKey? {key key' : Value} {entries entries' : Entries}
    (related : List.Forall₂ (fun x y => K x.1 y.1 ∧ R x.2 y.2) entries entries')
    (keys : ∀ k k', K k k' → lift.Rel Eq (sameKey k key) (sameKey' k' key')) :
    lift.Rel (Option.Rel R) (findKey? sameKey key entries)
      (Formwork.findKey? sameKey' key' entries') := by
  induction related with
  | nil => exact lift.pure .none
  | cons first _ ih =>
      refine lift.bind (keys _ _ first.1) ?_
      rintro b _ rfl
      cases b with
      | true => exact lift.pure (.some first.2)
      | false => exact ih

theorem allEntries {others others' entries entries' : Entries} {L T : Value → Value → Prop}
    (right : List.Forall₂ (fun x y => L x.1 y.1 ∧ T x.2 y.2) others others')
    (left : List.Forall₂ (fun x y => K x.1 y.1 ∧ R x.2 y.2) entries entries')
    (keys : ∀ l l' k k', L l l' → K k k' → lift.Rel Eq (sameKey l k) (sameKey' l' k'))
    (values : ∀ v v' w w', R v v' → T w w' → lift.Rel Eq (test v w) (test' v' w')) :
    lift.Rel Eq (allEntries sameKey test others entries)
      (Formwork.allEntries sameKey' test' others' entries') := by
  induction left with
  | nil => exact lift.pure rfl
  | cons first _ ih =>
      refine lift.bind (lift.findKey? right fun l l' known => keys l l' _ _ known first.1) ?_
      rintro _ _ (found | _)
      · refine lift.bind (values _ _ _ _ first.2 found) ?_
        rintro b _ rfl
        cases b with
        | false => exact lift.pure rfl
        | true => exact ih
      · exact lift.pure rfl

theorem insertKey {key key' value value' : Value} {entries entries' : Entries}
    (known : K key key') (given : R value value')
    (related : List.Forall₂ (fun x y => K x.1 y.1 ∧ R x.2 y.2) entries entries')
    (keys : ∀ k k', K k k' → lift.Rel Eq (sameKey k key) (sameKey' k' key')) :
    lift.Rel (List.Forall₂ fun x y => K x.1 y.1 ∧ R x.2 y.2)
      (insertKey sameKey key value entries) (Formwork.insertKey sameKey' key' value' entries') := by
  induction related with
  | nil => exact lift.pure (.cons ⟨known, given⟩ .nil)
  | cons first others ih =>
      refine lift.bind (keys _ _ first.1) ?_
      rintro b _ rfl
      cases b with
      | true => exact lift.pure (.cons ⟨first.1, given⟩ others)
      | false => exact lift.bind ih fun _ _ rest => lift.pure (.cons first rest)

end Lifting

/-! ## Computations with and without an answer -/

section Laws

variable {m : Type → Type} [Monad m] [Endless m] {α β γ δ : Type}

/-- A computation was broken off, so that nothing comes after it. -/
def BrokenOff (x : m α) : Prop :=
  ∀ {γ : Type} (f g : α → m γ),
    x >>= f = x >>= g ∧ x >>= f ≠ endless ∧ ∀ c, x >>= f ≠ pure c

/-- Computations that go on forever, have an answer, or are broken off. -/
class LawfulEndless (m : Type → Type) [Monad m] [Endless m] : Prop extends LawfulMonad m where
  pure_inj {α : Type} {a b : α} (same : (pure a : m α) = pure b) : a = b
  pure_ne_endless {α : Type} (a : α) : (pure a : m α) ≠ endless
  endless_bind {α β : Type} (f : α → m β) : (endless : m α) >>= f = endless
  cases {α : Type} (x : m α) : x = endless ∨ (∃ a, x = pure a) ∨ BrokenOff x

instance : LawfulEndless Option where
  pure_inj := Option.some.inj
  pure_ne_endless _ := Option.some_ne_none _
  endless_bind _ := rfl
  cases
    | none => .inl rfl
    | some a => .inr (.inl ⟨a, rfl⟩)

instance : LawfulEndless (Except Halt) where
  pure_inj := Except.ok.inj
  pure_ne_endless _ := nofun
  endless_bind _ := rfl
  cases
    | .error .endless => .inl rfl
    | .ok a => .inr (.inl ⟨a, rfl⟩)
    | .error .locked => .inr (.inr fun _ _ => ⟨rfl, nofun, nofun⟩)

variable [LawfulEndless m]

open LawfulEndless

theorem bind_eq_endless {x : m α} {f : α → m β} (forever : x >>= f = endless) :
    x = endless ∨ ∃ a, x = pure a ∧ f a = endless := by
  obtain rfl | ⟨a, rfl⟩ | broken := cases x
  · exact .inl rfl
  · rw [pure_bind] at forever
    exact .inr ⟨a, rfl, forever⟩
  · exact absurd forever (broken f f).2.1

theorem bind_eq_pure {x : m α} {f : α → m β} {b : β} (answer : x >>= f = pure b) :
    ∃ a, x = pure a ∧ f a = pure b := by
  obtain rfl | ⟨a, rfl⟩ | broken := cases x
  · rw [endless_bind] at answer
    exact absurd answer.symm (pure_ne_endless b)
  · rw [pure_bind] at answer
    exact ⟨a, rfl, answer⟩
  · exact absurd answer ((broken f f).2.2 b)

/-- The second computation does what the first one does, unless that one goes on forever. -/
inductive Approximates (S : α → β → Prop) : m α → m β → Prop
  | endless (y : m β) : Approximates S endless y
  | answer {a : α} {b : β} (related : S a b) : Approximates S (pure a) (pure b)
  | brokenOff {x : m α} {y : m β} (broken : BrokenOff x)
      (alike : ∀ {γ : Type} (f : α → m γ) (g : β → m γ), x >>= f = y >>= g) : Approximates S x y

namespace Approximates

theorem bind {S : α → β → Prop} {T : γ → δ → Prop} {x : m α} {y : m β} {f : α → m γ}
    {g : β → m δ} (first : Approximates S x y)
    (later : ∀ a b, S a b → Approximates T (f a) (g b)) :
    Approximates T (x >>= f) (y >>= g) := by
  cases first with
  | endless y =>
      rw [endless_bind]
      exact .endless _
  | answer related =>
      rw [pure_bind, pure_bind]
      exact later _ _ related
  | brokenOff broken alike =>
      refine .brokenOff (fun f' g' => ?_) fun f' g' => ?_
      · simpa only [bind_assoc] using broken (fun a => f a >>= f') fun a => f a >>= g'
      · simpa only [bind_assoc] using alike (fun a => f a >>= f') fun b => g b >>= g'

omit [LawfulEndless m] in
theorem imp {S T : α → β → Prop} {x : m α} {y : m β} (approximates : Approximates S x y)
    (weaker : ∀ a b, S a b → T a b) : Approximates T x y := by
  cases approximates with
  | endless y => exact .endless y
  | answer related => exact .answer (weaker _ _ related)
  | brokenOff broken alike => exact .brokenOff broken alike

/-- For two computations of the same kind of answer. -/
theorem eq_iff {x y : m α} : Approximates Eq x y ↔ (x ≠ Endless.endless → y = x) := by
  constructor
  · intro approximates ends
    cases approximates with
    | endless => exact absurd rfl ends
    | answer related => rw [related]
    | brokenOff _ alike => simpa only [bind_pure] using (alike pure pure).symm
  · intro same
    obtain rfl | ⟨a, rfl⟩ | broken := cases x
    · exact .endless y
    · rw [same (pure_ne_endless a)]
      exact .answer rfl
    · have ends : x ≠ Endless.endless := by simpa only [bind_pure] using (broken pure pure).2.1
      rw [same ends]
      exact .brokenOff broken fun f g => (broken f g).1

/-- Walks with tests that approximate approximate. -/
def lifting : Lifting m m := ⟨Approximates, .answer, bind⟩

protected theorem refl (x : m α) : Approximates Eq x x := eq_iff.mpr fun _ => rfl

theorem eq {x y : m α} (approximates : Approximates Eq x y) (ends : x ≠ Endless.endless) : y = x :=
  eq_iff.mp approximates ends

theorem eq_pure {x y : m α} {a : α} (approximates : Approximates Eq x y) (answer : x = pure a) :
    y = pure a :=
  (approximates.eq (answer ▸ pure_ne_endless a)).trans answer

theorem eq_endless {S : α → β → Prop} {x : m α} {y : m β} (approximates : Approximates S x y)
    (forever : y = Endless.endless) : x = Endless.endless := by
  cases approximates with
  | endless => rfl
  | answer related => exact absurd forever (pure_ne_endless _)
  | brokenOff broken alike =>
      have same := alike (fun _ => pure ()) fun _ => pure ()
      rw [forever, endless_bind] at same
      exact absurd same (broken _ fun _ => pure ()).2.1

end Approximates

/-! ## Walks -/

section Walks

variable {sameKey sameKey' test test' : Value → Value → m Bool}

theorem Approximates.findKey?_self (keys : ∀ x y, Approximates Eq (sameKey x y) (sameKey' x y))
    {key : Value} {entries : Entries} :
    Approximates Eq (Formwork.findKey? sameKey key entries)
      (Formwork.findKey? sameKey' key entries) := by
  have related : List.Forall₂ (fun x y : Value × Value => x.1 = y.1 ∧ x.2 = y.2) entries entries :=
    List.forall₂_same.mpr fun _ _ => ⟨rfl, rfl⟩
  have walk : Approximates (Option.Rel Eq) (Formwork.findKey? sameKey key entries)
      (Formwork.findKey? sameKey' key entries) :=
    lifting.findKey? related (by rintro k _ rfl; exact keys k key)
  refine walk.imp fun a b same => ?_
  cases same with
  | some same => rw [same]
  | none => rfl

theorem exists_of_findKey?_eq_pure {key v : Value} {entries : Entries}
    (found : findKey? sameKey key entries = pure (some v)) :
    ∃ k, (k, v) ∈ entries ∧ sameKey k key = pure true := by
  induction entries with
  | nil => cases pure_inj found
  | cons entry rest ih =>
      obtain ⟨k, w⟩ := entry
      obtain ⟨b, first, found⟩ := bind_eq_pure found
      cases b with
      | true =>
          obtain rfl : w = v := Option.some.inj (pure_inj found)
          exact ⟨k, by simp, first⟩
      | false =>
          obtain ⟨k', mem, same⟩ := ih found
          exact ⟨k', by simp [mem], same⟩

/-- A key that is put in replaces the value of the first key that matches, or comes last. -/
theorem insertKey_eq_pure {key value : Value} {entries entries' : Entries}
    (inserted : insertKey sameKey key value entries = pure entries') :
    (∃ before k v after, entries = before ++ (k, v) :: after ∧
        entries' = before ++ (k, value) :: after) ∨
      entries' = entries ++ [(key, value)] ∧
        ∀ entry ∈ entries, sameKey entry.1 key = pure false := by
  induction entries generalizing entries' with
  | nil =>
      obtain rfl := pure_inj inserted
      exact .inr ⟨rfl, by simp⟩
  | cons entry rest ih =>
      obtain ⟨k, v⟩ := entry
      obtain ⟨b, first, inserted⟩ := bind_eq_pure inserted
      cases b with
      | true =>
          obtain rfl := pure_inj inserted
          exact .inl ⟨[], k, v, rest, rfl, rfl⟩
      | false =>
          obtain ⟨rest', later, whole⟩ := bind_eq_pure inserted
          obtain rfl := pure_inj whole
          obtain ⟨before, k', v', after, rfl, rfl⟩ | ⟨rfl, others⟩ := ih later
          · exact .inl ⟨(k, v) :: before, k', v', after, rfl, rfl⟩
          · exact .inr ⟨rfl, List.forall_mem_cons.mpr ⟨first, others⟩⟩

/-! ### Walks that go on forever -/

/-- A walk that goes on forever does so at one pair, and with a better test not before it. -/
theorem exists_of_allPairs_eq_endless (better : ∀ x y, Approximates Eq (test x y) (test' x y))
    {xs ys : List Value} (walk : allPairs test xs ys = endless) :
    ∃ x ∈ xs, ∃ y ∈ ys, test x y = endless ∧
      (test' x y = endless → allPairs test' xs ys = endless) := by
  induction xs generalizing ys with
  | nil => exact absurd walk (pure_ne_endless true)
  | cons x xs ih =>
      cases ys with
      | nil => exact absurd walk (pure_ne_endless true)
      | cons y ys =>
          obtain forever | ⟨b, first, rest⟩ := bind_eq_endless walk
          · refine ⟨x, by simp, y, by simp, forever, fun forever' => ?_⟩
            rw [allPairs, forever', endless_bind]
          · cases b with
            | false => exact absurd rest (pure_ne_endless false)
            | true =>
                obtain ⟨x', mem, y', mem', forever, later⟩ := ih rest
                refine ⟨x', by simp [mem], y', by simp [mem'], forever, fun forever' => ?_⟩
                rw [allPairs, (better x y).eq_pure first, pure_bind]
                exact later forever'

theorem exists_of_findKey?_eq_endless
    (better : ∀ x y, Approximates Eq (sameKey x y) (sameKey' x y)) {key : Value}
    {entries : Entries} (walk : findKey? sameKey key entries = endless) :
    ∃ entry ∈ entries, sameKey entry.1 key = endless ∧
      (sameKey' entry.1 key = endless → findKey? sameKey' key entries = endless) := by
  induction entries with
  | nil => exact absurd walk (pure_ne_endless none)
  | cons entry rest ih =>
      obtain forever | ⟨b, first, walk⟩ := bind_eq_endless walk
      · refine ⟨entry, by simp, forever, fun forever' => ?_⟩
        rw [findKey?, forever', endless_bind]
      · cases b with
        | true => exact absurd walk (pure_ne_endless (some entry.2))
        | false =>
            obtain ⟨other, mem, forever, later⟩ := ih walk
            refine ⟨other, by simp [mem], forever, fun forever' => ?_⟩
            rw [findKey?, (better entry.1 key).eq_pure first, pure_bind]
            exact later forever'

theorem exists_of_allEntries_eq_endless
    (keys : ∀ x y, Approximates Eq (sameKey x y) (sameKey' x y))
    (values : ∀ x y, Approximates Eq (test x y) (test' x y)) {others entries : Entries}
    (walk : allEntries sameKey test others entries = endless) :
    ∃ entry ∈ entries, ∃ other ∈ others,
      (sameKey other.1 entry.1 = endless ∧
        (sameKey' other.1 entry.1 = endless →
          allEntries sameKey' test' others entries = endless)) ∨
      (test entry.2 other.2 = endless ∧
        (test' entry.2 other.2 = endless →
          allEntries sameKey' test' others entries = endless)) := by
  induction entries with
  | nil => exact absurd walk (pure_ne_endless true)
  | cons entry rest ih =>
      obtain ⟨k, v⟩ := entry
      obtain forever | ⟨place, found, walk⟩ := bind_eq_endless walk
      · obtain ⟨other, mem, forever, later⟩ := exists_of_findKey?_eq_endless keys forever
        refine ⟨(k, v), by simp, other, mem, .inl ⟨forever, fun forever' => ?_⟩⟩
        rw [allEntries, later forever', endless_bind]
      · cases place with
        | none => exact absurd walk (pure_ne_endless false)
        | some w =>
            have found' := (Approximates.findKey?_self keys).eq_pure found
            obtain ⟨l, mem, -⟩ := exists_of_findKey?_eq_pure found
            obtain forever | ⟨b, same, walk⟩ := bind_eq_endless walk
            · refine ⟨(k, v), by simp, (l, w), mem, .inr ⟨forever, fun forever' => ?_⟩⟩
              rw [allEntries, found', pure_bind]
              simp only [forever', endless_bind]
            · cases b with
              | false => exact absurd walk (pure_ne_endless false)
              | true =>
                  obtain ⟨entry, mem, other, mem', missing⟩ := ih walk
                  have step : allEntries sameKey' test' others ((k, v) :: rest) =
                      allEntries sameKey' test' others rest := by
                    rw [allEntries, found', pure_bind]
                    simp only [(values v w).eq_pure same, pure_bind, if_true]
                  rw [step]
                  exact ⟨entry, by simp [mem], other, mem', missing⟩

theorem exists_of_insertKey_eq_endless {key value : Value} {entries : Entries}
    (walk : insertKey sameKey key value entries = endless) :
    ∃ entry ∈ entries, sameKey entry.1 key = endless := by
  induction entries with
  | nil => exact absurd walk (pure_ne_endless _)
  | cons entry rest ih =>
      obtain forever | ⟨b, -, walk⟩ := bind_eq_endless walk
      · exact ⟨entry, by simp, forever⟩
      · cases b with
        | true => exact absurd walk (pure_ne_endless _)
        | false =>
            obtain forever | ⟨_, -, walk⟩ := bind_eq_endless walk
            · obtain ⟨other, mem, forever⟩ := ih forever
              exact ⟨other, by simp [mem], forever⟩
            · exact absurd walk (pure_ne_endless _)

end Walks

end Laws

end Formwork
