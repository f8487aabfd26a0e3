import Formwork.Proofs.Reach

/-!
# A state with one list more

Two states may differ by one list that nothing leads to. It takes a number, so the lists made after
it have other numbers, and all that names them is written with these: `Machine.Inserts`. Two runs
that begin with such a list on one side only, and otherwise agree, end in states that differ in the
same way: `Machine.Evolves.inserts`.
-/

namespace Formwork

/-! ## What is named under new numbers -/

theorem Value.exists_of_names_renumber {f : Thing → Nat → Nat} {v : Value} {k : Thing} {j : Nat}
    (names : (v.renumber f).Names k j) : ∃ i, j = f k i := by
  cases v with
  | list i =>
      cases names
      exact ⟨i, rfl⟩
  | map i =>
      cases names
      exact ⟨i, rfl⟩
  | function c =>
      cases names with
      | function => exact ⟨c.id, rfl⟩
      | home => exact ⟨c.scope.index, rfl⟩
  | _ => cases names

theorem Contents.exists_of_holds_renumber {f : Thing → Nat → Nat} {c : Contents} {v : Value}
    (holds : (c.renumber f).Holds v) : ∃ u : Value, v = u.renumber f := by
  cases c with
  | scope frame =>
      obtain ⟨name, constant, mem⟩ := holds_scope_iff.mp holds
      obtain ⟨⟨other, b⟩, -, same⟩ := List.mem_map.mp mem
      cases b with
      | value u _ =>
          simp only [Binding.renumber, Prod.mk.injEq, Binding.value.injEq] at same
          exact ⟨u, same.2.1.symm⟩
      | function definition => simp [Binding.renumber] at same
  | list items =>
      have mem := holds_list_iff.mp holds
      rw [Array.toList_map] at mem
      obtain ⟨u, -, rfl⟩ := List.mem_map.mp mem
      exact ⟨u, rfl⟩
  | map entries =>
      obtain ⟨entry, mem, rfl | rfl⟩ := holds_map_iff.mp holds
      · obtain ⟨⟨key, u⟩, -, rfl⟩ := List.mem_map.mp mem
        exact ⟨key, rfl⟩
      · obtain ⟨⟨key, u⟩, -, rfl⟩ := List.mem_map.mp mem
        exact ⟨u, rfl⟩
  | function => cases holds

/-- What is written with new numbers names things by their new numbers. -/
theorem Contents.exists_of_names_renumber {f : Thing → Nat → Nat} {c : Contents} {k : Thing}
    {j : Nat} (names : (c.renumber f).Names k j) : ∃ i, j = f k i := by
  generalize same : c.renumber f = c' at names
  cases names with
  | held holds names =>
      subst same
      obtain ⟨u, rfl⟩ := exists_of_holds_renumber holds
      exact Value.exists_of_names_renumber names
  | parent nested =>
      cases c with
      | scope frame =>
          cases same
          obtain ⟨p, -, rfl⟩ := Option.map_eq_some_iff.mp nested
          exact ⟨p.index, rfl⟩
      | _ => cases same

/-! ## The list that is put in -/

/-- The numbers of things where one more list is put in, which gets a number of its own. -/
def Thing.besides (id : Nat) (k : Thing) (i : Nat) : Nat := if k = .list ∧ id ≤ i then i + 1 else i

theorem Thing.exists_besides {id : Nat} {k : Thing} {i : Nat} :
    (∃ j, i = k.besides id j) ↔ ¬ (k = .list ∧ i = id) := by
  unfold besides
  constructor
  · rintro ⟨j, rfl⟩
    split <;> grind
  · intro other
    by_cases later : k = .list ∧ id < i
    · refine ⟨i - 1, ?_⟩
      rw [if_pos ⟨later.1, by omega⟩]
      omega
    · refine ⟨i, ?_⟩
      rw [if_neg (by grind)]

namespace Machine

variable {m n n' : Machine} {id : Nat} {items : Array Value}

/-- The state with one more list. -/
def withList (m : Machine) (items : Array Value) : Machine :=
  { m with world := ⟨(m.world.heap.newList items).2, m.world.printed⟩ }

theorem adds_withList (m : Machine) (items : Array Value) :
    m.Adds .list (.list items) (m.withList items) := m.adds_newList items

/-- With one more list, all that there was can stand for itself. -/
theorem Closed.alike_withList (closed : m.Closed) (items : Array Value) :
    m.Alike (.on fun k i => i < m.count k) (m.withList items) := by
  refine closed.alike (fun _ _ there => there) (fun _ _ _ _ _ _ => closed.known) ?_ rfl
  intro k i there
  rw [(m.adds_withList items).content, if_neg]
  rintro ⟨rfl, rfl⟩
  exact Nat.lt_irrefl _ there

/-- A state is another one with one list more, which may have come before others. -/
structure Inserts (id : Nat) (items : Array Value) (m n : Machine) : Prop where
  content (k : Thing) (i : Nat) :
    n.content? k (k.besides id i) = (m.content? k i).map (Contents.renumber (Thing.besides id))
  inserted : n.content? .list id = some (.list items)
  count (k : Thing) : n.count k = m.count k + if k = .list then 1 else 0
  printed : n.world.printed = m.world.printed

/-- Where the list holds nothing but numbers and no value names it, it cannot be reached. -/
theorem Inserts.not_reach (inserts : m.Inserts id items n)
    (numbers : ∀ v ∈ items, ∃ x, v = .number x) {scopes : List ScopeId} {values : List Value}
    (known : ∀ v ∈ values, ∃ u : Value, v = u.renumber (Thing.besides id)) :
    ¬ n.Reach scopes values .list id := by
  have apart {j : Nat} : id ≠ Thing.list.besides id j :=
    fun same => Thing.exists_besides.mp ⟨j, same⟩ ⟨rfl, rfl⟩
  intro reach
  cases reach with
  | value mem names =>
      obtain ⟨u, rfl⟩ := known _ mem
      obtain ⟨j, same⟩ := Value.exists_of_names_renumber names
      exact apart same
  | @inside k _ i _ c _ found names =>
      by_cases new : k = .list ∧ i = id
      · obtain ⟨rfl, rfl⟩ := new
        obtain rfl := Option.some.inj (inserts.inserted.symm.trans found)
        cases names with
        | held holds names =>
            obtain ⟨x, rfl⟩ := numbers _ (by simpa using Contents.holds_list_iff.mp holds)
            cases names
      · obtain ⟨j, rfl⟩ := Thing.exists_besides.mpr new
        rw [inserts.content] at found
        obtain ⟨c, -, rfl⟩ := Option.map_eq_some_iff.mp found
        obtain ⟨j, same⟩ := Contents.exists_of_names_renumber names
        exact apart same

namespace Evolves

variable {σ : Pairing}
  (evolves : Evolves (.on fun k i => i < m.count k) m (m.withList items) σ n n')

include evolves

/-- Where one of two runs begins with one list more, the lists they make differ by one number. -/
theorem renumbers : σ.Renumbers (Thing.besides (m.count .list)) := by
  intro k i j paired
  unfold Thing.besides
  obtain ⟨old, rfl⟩ | ⟨d, rfl, rfl, -⟩ := (evolves.pairs k i j).mp paired
  · have before : i < m.count k := old
    rw [if_neg]
    rintro ⟨rfl, le⟩
    omega
  · rw [(m.adds_withList items).count]
    by_cases list : k = .list
    · subst list
      simp [Nat.add_right_comm]
    · simp [list]

theorem count_eq (k : Thing) : n'.count k = n.count k + if k = .list then 1 else 0 := by
  have made := (evolves.made k).2
  have counts := (m.adds_withList items).count k
  omega

theorem inserts : n.Inserts (m.count .list) items n' where
  content k i := by
    by_cases there : i < n.count k
    · obtain ⟨j, paired⟩ : ∃ j, σ k i j := by
        simp only [evolves.pairs]
        by_cases old : i < m.count k
        · exact ⟨i, .inl ⟨old, rfl⟩⟩
        · exact ⟨_, .inr ⟨i - m.count k, by omega, rfl, there⟩⟩
      obtain ⟨c, c', found, found', related⟩ := evolves.alike.contents paired
      rw [← evolves.renumbers paired, found, found', related.eq_renumber evolves.renumbers]
      rfl
    · have beyond : n'.count k ≤ k.besides (m.count .list) i := by
        have older := (evolves.made k).1
        rw [evolves.count_eq, Thing.besides]
        split <;> grind
      rw [content?_eq_none (Nat.le_of_not_lt there), content?_eq_none beyond]
      rfl
  inserted := by
    have adds := m.adds_withList items
    refine (evolves.kept' (by simp [adds.count]) ?_).trans (by simp [adds.content])
    rintro i ⟨old, rfl⟩
    exact Nat.lt_irrefl _ old
  count := evolves.count_eq
  printed := by
    obtain ⟨lines, printed, printed'⟩ := evolves.printed
    rw [printed, printed']
    rfl

end Evolves

end Machine

end Formwork
