import Formwork.Proofs.Comparison

/-!
# Equality as bisimilarity

Two values are equal when some relation holds of them and, wherever it holds of two collections,
also of what they contain: `Heap.equal?_eq_true_iff`. Meeting a pair again inside its own comparison
decides nothing, which is why such a relation is all that an answer needs.
-/

namespace Formwork

/-! ## Walks that find no difference -/

theorem allPairs_eq_true_iff {test : Value → Value → Option Bool} {xs ys : List Value}
    (same : xs.length = ys.length) :
    allPairs test xs ys = some true ↔
      ∀ (n : Nat) x y, xs[n]? = some x → ys[n]? = some y → test x y = some true := by
  induction xs generalizing ys with
  | nil =>
      obtain rfl := List.length_eq_zero_iff.mp same.symm
      simp [allPairs]
  | cons x xs ih =>
      cases ys with
      | nil => simp at same
      | cons y ys =>
          have tail := ih (Nat.succ.inj same)
          constructor
          · intro walk n
            obtain ⟨b, first, walk⟩ := bind_eq_pure walk
            cases b with
            | false => cases walk
            | true =>
                cases n with
                | zero => simpa using first
                | succ n => simpa using tail.mp walk n
          · intro all
            have first : test x y = some true := all 0 x y rfl rfl
            rw [allPairs, first]
            exact tail.mpr fun n => all (n + 1)

theorem allPairs_ne_false {test : Value → Value → Option Bool} {xs ys : List Value}
    (all : ∀ (n : Nat) x y, xs[n]? = some x → ys[n]? = some y → test x y ≠ some false) :
    allPairs test xs ys ≠ some false := by
  induction xs generalizing ys with
  | nil => simp [allPairs]
  | cons x xs ih =>
      cases ys with
      | nil => simp [allPairs]
      | cons y ys =>
          intro walk
          obtain ⟨b, first, walk⟩ := bind_eq_pure walk
          cases b with
          | false => exact all 0 x y rfl rfl first
          | true => exact ih (fun n => all (n + 1)) walk

theorem allEntries_eq_true_iff {sameKey test : Value → Value → Option Bool}
    {others entries : Entries} :
    allEntries sameKey test others entries = some true ↔
      ∀ entry ∈ entries, ∃ w, findKey? sameKey entry.1 others = some (some w) ∧
        test entry.2 w = some true := by
  induction entries with
  | nil => simp [allEntries]
  | cons entry rest ih =>
      obtain ⟨k, v⟩ := entry
      rw [List.forall_mem_cons, ← ih]
      constructor
      · intro walk
        obtain ⟨place, found, walk⟩ := bind_eq_pure walk
        cases place with
        | none => cases walk
        | some w =>
            obtain ⟨b, same, walk⟩ := bind_eq_pure walk
            cases b with
            | false => cases walk
            | true => exact ⟨⟨w, found, same⟩, walk⟩
      · rintro ⟨⟨w, found, same⟩, walk⟩
        simpa [allEntries, found, same] using walk

theorem allEntries_ne_false {sameKey test : Value → Value → Option Bool}
    {others entries : Entries}
    (all : ∀ entry ∈ entries, ∃ w, findKey? sameKey entry.1 others = some (some w) ∧
      test entry.2 w ≠ some false) :
    allEntries sameKey test others entries ≠ some false := by
  induction entries with
  | nil => simp [allEntries]
  | cons entry rest ih =>
      obtain ⟨k, v⟩ := entry
      obtain ⟨⟨w, found, same⟩, later⟩ := List.forall_mem_cons.mp all
      intro walk
      rw [allEntries, found, Option.bind_eq_bind, Option.bind_some] at walk
      obtain ⟨b, answer, walk⟩ := bind_eq_pure walk
      cases b with
      | false => exact same answer
      | true => exact ih later walk

namespace Heap

variable (h : Heap) (sameKey : Value → Value → Option Bool)

/-- Two values match when they have the same shape and what they contain is related. -/
inductive Matches (R : Value → Value → Prop) : Value → Value → Prop
  /-- Equal numbers or truth values, the same function, or the same collection. -/
  | settled {a b : Value} (same : a.settled? [] b = some true) : Matches R a b
  | list {i j : Nat} (size_eq : (h.items i).size = (h.items j).size)
      (items : ∀ (n : Nat) x y, (h.items i)[n]? = some x → (h.items j)[n]? = some y → R x y) :
      Matches R (.list i) (.list j)
  | map {i j : Nat} (length_eq : (h.entries i).length = (h.entries j).length)
      (entries : ∀ entry ∈ h.entries i, ∃ w,
        findKey? sameKey entry.1 (h.entries j) = some (some w) ∧ R entry.2 w) :
      Matches R (.map i) (.map j)

theorem Matches.mono {h : Heap} {sameKey : Value → Value → Option Bool}
    {R S : Value → Value → Prop} (le : ∀ x y, R x y → S x y) {a b : Value}
    (matching : h.Matches sameKey R a b) : h.Matches sameKey S a b := by
  cases matching with
  | settled same => exact .settled same
  | list size_eq items =>
      exact .list size_eq fun n x y left right => le x y (items n x y left right)
  | map length_eq entries =>
      refine .map length_eq fun entry mem => ?_
      obtain ⟨w, found, related⟩ := entries entry mem
      exact ⟨w, found, le _ _ related⟩

/-- A relation that holds only of values that match. -/
def Bisimulation (R : Value → Value → Prop) : Prop := ∀ x y, R x y → h.Matches sameKey R x y

/-- Some bisimulation relates two values. -/
def Bisimilar (a b : Value) : Prop := ∃ R, h.Bisimulation sameKey R ∧ R a b

theorem Bisimilar.matching {h : Heap} {sameKey : Value → Value → Option Bool} {a b : Value}
    (similar : h.Bisimilar sameKey a b) : h.Matches sameKey (h.Bisimilar sameKey) a b := by
  obtain ⟨R, bisimulation, related⟩ := similar
  exact (bisimulation a b related).mono fun x y related => ⟨R, bisimulation, related⟩

/-! ## Answers and bisimulations -/

/-- Two values name a pair of collections being visited. -/
def Met (visiting : List (Handle × Handle)) (a b : Value) : Prop :=
  ∃ c d, a.handle? = some c ∧ b.handle? = some d ∧ (c, d) ∈ visiting

/-- Some relation is a bisimulation but for pairs being visited, and relates two values. -/
def Supported (visiting : List (Handle × Handle)) (a b : Value) : Prop :=
  ∃ R : Value → Value → Prop,
    (∀ x y, R x y → Met visiting x y ∨ h.Matches sameKey R x y) ∧ R a b

variable {h sameKey} {visiting : List (Handle × Handle)} {a b : Value}

theorem settled_or_met (settled : a.settled? visiting b = some true) :
    a.settled? [] b = some true ∨ Met visiting a b := by
  cases a with
  | list i =>
      cases b with
      | list j =>
          by_cases same : i = j
          · exact .inl (by simp [Value.settled?, same])
          · exact .inr ⟨_, _, rfl, rfl, by simpa [Value.settled?, same] using settled⟩
      | _ => exact .inl settled
  | map i =>
      cases b with
      | map j =>
          by_cases same : i = j
          · exact .inl (by simp [Value.settled?, same])
          · exact .inr ⟨_, _, rfl, rfl, by simpa [Value.settled?, same] using settled⟩
      | _ => exact .inl settled
  | _ => cases b <;> exact .inl settled

theorem supported_of_settled (settled : a.settled? visiting b = some true) :
    h.Supported sameKey visiting a b := by
  refine ⟨fun x y => x = a ∧ y = b, ?_, rfl, rfl⟩
  rintro x y ⟨rfl, rfl⟩
  exact (settled_or_met settled).symm.imp_right .settled

/--
What two collections contain may rest on the two themselves: where the pair is met again, the
relation that supports the contents already holds of it.
-/
theorem Supported.close {c d : Handle} (left : a.handle? = some c) (right : b.handle? = some d)
    (contents : h.Matches sameKey (h.Supported sameKey ((c, d) :: visiting)) a b) :
    h.Supported sameKey visiting a b := by
  refine ⟨fun x y => (x = a ∧ y = b) ∨ h.Supported sameKey ((c, d) :: visiting) x y, ?_,
    .inl ⟨rfl, rfl⟩⟩
  have here : h.Matches sameKey
      (fun x y => (x = a ∧ y = b) ∨ h.Supported sameKey ((c, d) :: visiting) x y) a b :=
    contents.mono fun x y supported => .inr supported
  rintro x y (⟨rfl, rfl⟩ | ⟨R, bisimulation, related⟩)
  · exact .inr here
  · obtain ⟨c', d', left', right', met⟩ | matching := bisimulation x y related
    · obtain same | old := List.mem_cons.mp met
      · obtain ⟨rfl, rfl⟩ := Prod.mk.inj same
        obtain rfl := Value.eq_of_handle? left left'
        obtain rfl := Value.eq_of_handle? right right'
        exact .inr here
      · exact .inl ⟨c', d', left', right', old⟩
    · exact .inr (matching.mono fun x y related => .inr ⟨R, bisimulation, related⟩)

/-- Whatever is found equal is supported. -/
theorem supported_of_equalWithin {fuel : Nat}
    (answer : h.equalWithin lookFreely sameKey fuel visiting a b = some true) :
    h.Supported sameKey visiting a b := by
  induction fuel generalizing visiting a b with
  | zero =>
      cases settled : a.settled? visiting b with
      | none => simp [equalWithin_zero settled] at answer
      | some s =>
          rw [equalWithin_of_settled settled] at answer
          exact supported_of_settled (settled.trans answer)
  | succ fuel ih =>
      obtain ⟨s, settled⟩ | ⟨i, j, rfl, rfl, new⟩ | ⟨i, j, rfl, rfl, new⟩ :=
        a.settled?_cases visiting b
      · rw [equalWithin_of_settled settled] at answer
        exact supported_of_settled (settled.trans answer)
      · rw [equalWithin_list new, listAnswer] at answer
        split at answer
        · rename_i size_eq
          have all := (allPairs_eq_true_iff (by simpa using size_eq)).mp answer
          refine .close rfl rfl (.list size_eq fun n x y left right => ih (all n x y ?_ ?_))
          · simpa using left
          · simpa using right
        · simp at answer
      · rw [equalWithin_freely_map new, mapAnswer] at answer
        split at answer
        · rename_i length_eq
          refine .close rfl rfl (.map length_eq fun entry mem => ?_)
          obtain ⟨w, found, same⟩ := allEntries_eq_true_iff.mp answer entry mem
          exact ⟨w, found, ih same⟩
        · simp at answer

theorem Matches.settled?_ne_false {R : Value → Value → Prop}
    (matching : h.Matches sameKey R a b) (visiting : List (Handle × Handle)) :
    a.settled? visiting b ≠ some false := by
  cases matching with
  | settled same => cases a <;> cases b <;> simp_all [Value.settled?]
  | list => simp [Value.settled?]
  | map => simp [Value.settled?]

/-- No difference is ever found between values that a bisimulation relates. -/
theorem Bisimulation.equalWithin_ne_false {R : Value → Value → Prop}
    (bisimulation : h.Bisimulation sameKey R) {fuel : Nat} (related : R a b) :
    h.equalWithin lookFreely sameKey fuel visiting a b ≠ some false := by
  induction fuel generalizing visiting a b with
  | zero =>
      have open_ := (bisimulation a b related).settled?_ne_false visiting
      cases settled : a.settled? visiting b with
      | none => simp [equalWithin_zero settled]
      | some s =>
          rw [equalWithin_of_settled settled]
          exact fun answer => open_ (settled.trans answer)
  | succ fuel ih =>
      have matching := bisimulation a b related
      obtain ⟨s, settled⟩ | ⟨i, j, rfl, rfl, new⟩ | ⟨i, j, rfl, rfl, new⟩ :=
        a.settled?_cases visiting b
      · rw [equalWithin_of_settled settled]
        exact fun answer => matching.settled?_ne_false visiting (settled.trans answer)
      · rw [equalWithin_list new, listAnswer]
        cases matching with
        | settled same => simp_all [Value.settled?]
        | list size_eq items =>
            rw [if_pos size_eq]
            refine allPairs_ne_false fun n x y left right => ih (items n x y ?_ ?_)
            · simpa using left
            · simpa using right
      · rw [equalWithin_freely_map new, mapAnswer]
        cases matching with
        | settled same => simp_all [Value.settled?]
        | map length_eq entries =>
            rw [if_pos length_eq]
            refine allEntries_ne_false fun entry mem => ?_
            obtain ⟨w, found, related⟩ := entries entry mem
            exact ⟨w, found, ih related⟩

/-- Values found equal are bisimilar, where keys are compared the same way. -/
theorem bisimilar_of_equal? (answer : h.equal? a b = some true) : h.Bisimilar h.equal? a b := by
  rw [equal?_eq] at answer
  obtain ⟨R, bisimulation, related⟩ := supported_of_equalWithin answer
  refine ⟨R, fun x y related => ?_, related⟩
  obtain ⟨c, d, -, -, met⟩ | matching := bisimulation x y related
  · simp at met
  · exact matching

/-- A comparison that ends tells whether two values are bisimilar. -/
theorem equal?_eq_true_iff (ends : h.equal? a b ≠ none) :
    h.equal? a b = some true ↔ h.Bisimilar h.equal? a b := by
  constructor
  · exact bisimilar_of_equal?
  · rintro ⟨R, bisimulation, related⟩
    have no_difference : h.equal? a b ≠ some false := by
      rw [equal?_eq]
      exact bisimulation.equalWithin_ne_false related
    cases answer : h.equal? a b with
    | none => exact absurd answer ends
    | some r => cases r <;> simp_all

end Heap

end Formwork
