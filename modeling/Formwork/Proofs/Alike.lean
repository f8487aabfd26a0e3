import Formwork.Proofs.Frames
import Formwork.Proofs.Pairing

/-!
# States that are alike

Two states of the machine are alike under a pairing when paired things have related contents and the
meters stand alike; whatever is not paired may be anything. A step of the machine either adds a
thing or changes one, and when two states that are alike take the same step, what they lead to is
alike again (`Machine.Alike.add`, `Machine.Alike.change`). `Machine.Evolves` says what has happened
on both sides between two such moments: the things made since are paired in the order they were
made, nothing else has come to be paired, and nothing that was not paired has changed.
-/

namespace Formwork

/-- What a thing consists of; a function value has no parts. -/
inductive Contents where
  | scope (frame : Scope)
  | list (items : Array Value)
  | map (entries : Entries)
  | function

namespace Contents

/-- Changes the contents of scopes. -/
def onScope (f : Scope → Scope) : Contents → Contents
  | .scope frame => .scope (f frame)
  | c => c

/-- Changes the contents of lists. -/
def onItems (f : Array Value → Array Value) : Contents → Contents
  | .list items => .list (f items)
  | c => c

/-- Changes the contents of maps. -/
def onEntries (f : Entries → Entries) : Contents → Contents
  | .map entries => .map (f entries)
  | c => c

end Contents

namespace Machine

/-- How many things of a kind have been made. -/
def count (m : Machine) : Thing → Nat
  | .scope => m.scopes.frames.size
  | .list => m.world.heap.lists.size
  | .map => m.world.heap.maps.size
  | .function => m.world.heap.functions

/-- The contents of the thing of a kind with a given number. -/
def content? (m : Machine) : Thing → Nat → Option Contents
  | .scope, i => m.scopes.frames[i]?.map .scope
  | .list, i => m.world.heap.lists[i]?.map .list
  | .map, i => m.world.heap.maps[i]?.map .map
  | .function, i => if i < m.world.heap.functions then some .function else none

theorem lt_count_iff {m : Machine} {k : Thing} {i : Nat} :
    i < m.count k ↔ ∃ c, m.content? k i = some c := by
  rw [← Option.isSome_iff_exists]
  cases k with
  | function =>
      simp only [count, content?]
      split <;> simp [*]
  | _ => simp [count, content?]

theorem content?_eq_none {m : Machine} {k : Thing} {i : Nat} (beyond : m.count k ≤ i) :
    m.content? k i = none := by
  rw [Option.eq_none_iff_forall_ne_some]
  exact not_exists.mp (mt lt_count_iff.mpr (Nat.not_lt.mpr beyond))

/-! ## What a step does to the things there are -/

/-- A state becomes another one by one new thing. -/
structure Adds (kind : Thing) (c : Contents) (m n : Machine) : Prop where
  content (k : Thing) (i : Nat) :
    n.content? k i = if k = kind ∧ i = m.count kind then some c else m.content? k i
  count (k : Thing) : n.count k = m.count k + if k = kind then 1 else 0
  printed : n.world.printed = m.world.printed
  meter : n.meter = m.meter

/-- A state becomes another one by a change of one thing. -/
structure Changes (kind : Thing) (id : Nat) (f : Contents → Contents) (m n : Machine) : Prop where
  content (k : Thing) (i : Nat) :
    n.content? k i = if k = kind ∧ i = id then (m.content? k i).map f else m.content? k i
  count (k : Thing) : n.count k = m.count k
  printed : n.world.printed = m.world.printed
  meter : n.meter = m.meter

theorem Adds.count_le {kind : Thing} {c : Contents} {m n : Machine} (adds : m.Adds kind c n)
    (k : Thing) : m.count k ≤ n.count k :=
  adds.count k ▸ Nat.le_add_right _ _

theorem Changes.count_le {kind : Thing} {id : Nat} {f : Contents → Contents} {m n : Machine}
    (changes : m.Changes kind id f n) (k : Thing) : m.count k ≤ n.count k :=
  changes.count k ▸ Nat.le_refl _

theorem adds_child (m : Machine) (parent : ScopeId) :
    m.Adds .scope (.scope ⟨[], some parent⟩) { m with scopes := (m.scopes.child parent).2 } where
  content k i := by
    cases k with
    | scope =>
        simp only [content?, Machine.count, Scopes.child, Scopes.make, Array.getElem?_push]
        split <;> simp [*]
    | _ => rfl
  count k := by cases k <;> simp [Machine.count, Scopes.child, Scopes.make]
  printed := rfl
  meter := rfl

theorem adds_newList (m : Machine) (items : Array Value) :
    m.Adds .list (.list items)
      { m with world := ⟨(m.world.heap.newList items).2, m.world.printed⟩ } where
  content k i := by
    cases k with
    | list =>
        simp only [content?, Machine.count, Heap.newList, Array.getElem?_push]
        split <;> simp [*]
    | _ => rfl
  count k := by cases k <;> simp [Machine.count, Heap.newList]
  printed := rfl
  meter := rfl

theorem adds_newMap (m : Machine) (entries : Entries) :
    m.Adds .map (.map entries)
      { m with world := ⟨(m.world.heap.newMap entries).2, m.world.printed⟩ } where
  content k i := by
    cases k with
    | map =>
        simp only [content?, Machine.count, Heap.newMap, Array.getElem?_push]
        split <;> simp [*]
    | _ => rfl
  count k := by cases k <;> simp [Machine.count, Heap.newMap]
  printed := rfl
  meter := rfl

theorem adds_newFunction (m : Machine) (definition : FunctionDef) (scope : ScopeId) :
    m.Adds .function .function
      { m with world := ⟨(m.world.heap.newFunction definition scope).2, m.world.printed⟩ } where
  content k i := by
    cases k with
    | function =>
        simp only [content?, Machine.count, Heap.newFunction]
        grind
    | _ => rfl
  count k := by cases k <;> simp [Machine.count, Heap.newFunction]
  printed := rfl
  meter := rfl

theorem changes_bind (m : Machine) (scope : ScopeId) (name : String) (binding : Binding) :
    m.Changes .scope scope.index
      (.onScope fun frame => { frame with bindings := Scope.bind name binding frame.bindings })
      { m with scopes := m.scopes.bind scope name binding } where
  content k i := by
    cases k with
    | scope =>
        simp only [content?, Scopes.getElem?_bind]
        split <;> simp_all [Function.comp_def, Contents.onScope, eq_comm]
    | _ => rfl
  count k := by cases k <;> simp [Machine.count, Scopes.size_bind]
  printed := rfl
  meter := rfl

theorem changes_modify (m : Machine) (id : Nat) (f : Array Value → Array Value) :
    m.Changes .list id (.onItems f)
      { m with world :=
        ⟨{ m.world.heap with lists := m.world.heap.lists.modify id f }, m.world.printed⟩ } where
  content k i := by
    cases k with
    | list =>
        simp only [content?, Array.getElem?_modify]
        split <;> simp_all [Function.comp_def, Contents.onItems, eq_comm]
    | _ => rfl
  count k := by cases k <;> simp [Machine.count]
  printed := rfl
  meter := rfl

theorem changes_setEntries (m : Machine) (id : Nat) (entries : Entries) :
    m.Changes .map id (.onEntries fun _ => entries)
      { m with world := ⟨m.world.heap.setEntries id entries, m.world.printed⟩ } where
  content k i := by
    cases k with
    | map =>
        simp only [content?, Heap.setEntries, Array.getElem?_setIfInBounds]
        grind [Contents.onEntries]
    | _ => rfl
  count k := by cases k <;> simp [Machine.count, Heap.setEntries]
  printed := rfl
  meter := rfl

end Machine

namespace Pairing

/-- Names that stand for related values or for the same function. -/
inductive RelatesBinding (ρ : Pairing) : Binding → Binding → Prop
  | value {v v' : Value} (related : ρ.Relates v v') (constant : Bool) :
      RelatesBinding ρ (.value v constant) (.value v' constant)
  | function (definition : FunctionDef) :
      RelatesBinding ρ (.function definition) (.function definition)

/-- The same name, bound to what is related. -/
def RelatesName (ρ : Pairing) (x y : String × Binding) : Prop :=
  x.1 = y.1 ∧ ρ.RelatesBinding x.2 y.2

/-- Scopes that bind the same names and are nested in paired scopes, both older than they. -/
structure RelatesScope (ρ : Pairing) (i j : Nat) (s s' : Scope) : Prop where
  bindings : List.Forall₂ ρ.RelatesName s.bindings s'.bindings
  parent : Option.Rel (fun p q : ScopeId => (p.index < i ∧ q.index < j) ∧ ρ .scope p.index q.index)
    s.parent s'.parent

/-- Related contents of the things with the numbers `i` and `j`. -/
inductive RelatesContent (ρ : Pairing) (i j : Nat) : Contents → Contents → Prop
  | scope {s s' : Scope} (related : ρ.RelatesScope i j s s') :
      RelatesContent ρ i j (.scope s) (.scope s')
  | list {xs ys : Array Value} (related : List.Forall₂ ρ.Relates xs.toList ys.toList) :
      RelatesContent ρ i j (.list xs) (.list ys)
  | map {xs ys : Entries} (related : List.Forall₂ ρ.RelatesEntry xs ys) :
      RelatesContent ρ i j (.map xs) (.map ys)
  | function : RelatesContent ρ i j .function .function

variable {ρ σ : Pairing} {i j : Nat}

theorem RelatesBinding.mono (more : ρ ≤ σ) {b b' : Binding} (related : ρ.RelatesBinding b b') :
    σ.RelatesBinding b b' := by
  cases related with
  | value related constant => exact .value (related.mono more) constant
  | function definition => exact .function definition

theorem RelatesScope.mono (more : ρ ≤ σ) {s s' : Scope} (related : ρ.RelatesScope i j s s') :
    σ.RelatesScope i j s s' where
  bindings := related.bindings.imp fun _ _ both => ⟨both.1, both.2.mono more⟩
  parent := optionRel_imp (fun _ _ both => ⟨both.1, more both.2⟩) related.parent

theorem RelatesContent.mono (more : ρ ≤ σ) {c c' : Contents} (related : ρ.RelatesContent i j c c') :
    σ.RelatesContent i j c c' := by
  cases related with
  | scope related => exact .scope (related.mono more)
  | list related => exact .list (related.imp fun _ _ => Relates.mono more)
  | map related => exact .map (related.imp fun _ _ => RelatesEntry.mono more)
  | function => exact .function

section Changes

variable {c c' : Contents} (related : ρ.RelatesContent i j c c')

include related

theorem RelatesContent.onScope {f f' : Scope → Scope}
    (same : ∀ {s s'}, ρ.RelatesScope i j s s' → ρ.RelatesScope i j (f s) (f' s')) :
    ρ.RelatesContent i j (c.onScope f) (c'.onScope f') := by
  cases related with
  | scope related => exact .scope (same related)
  | list related => exact .list related
  | map related => exact .map related
  | function => exact .function

theorem RelatesContent.onItems {f f' : Array Value → Array Value}
    (same : ∀ {xs ys : Array Value}, List.Forall₂ ρ.Relates xs.toList ys.toList →
      List.Forall₂ ρ.Relates (f xs).toList (f' ys).toList) :
    ρ.RelatesContent i j (c.onItems f) (c'.onItems f') := by
  cases related with
  | scope related => exact .scope related
  | list related => exact .list (same related)
  | map related => exact .map related
  | function => exact .function

theorem RelatesContent.onEntries {xs ys : Entries} (same : List.Forall₂ ρ.RelatesEntry xs ys) :
    ρ.RelatesContent i j (c.onEntries fun _ => xs) (c'.onEntries fun _ => ys) := by
  cases related with
  | scope related => exact .scope related
  | list related => exact .list related
  | map related => exact .map same
  | function => exact .function

end Changes

/-- Related scopes bind a name to what is related, or neither binds it. -/
theorem RelatesScope.find? {s s' : Scope} (related : ρ.RelatesScope i j s s') (name : String) :
    Option.Rel ρ.RelatesBinding (s.find? name) (s'.find? name) :=
  forall₂_lookup related.bindings name

/-- Binding the same name to what is related keeps scopes related. -/
theorem RelatesScope.bind {s s' : Scope} (related : ρ.RelatesScope i j s s') (name : String)
    {b b' : Binding} (bound : ρ.RelatesBinding b b') :
    ρ.RelatesScope i j { s with bindings := Scope.bind name b s.bindings }
      { s' with bindings := Scope.bind name b' s'.bindings } where
  parent := related.parent
  bindings := by
    obtain ⟨bindings, -⟩ := related
    generalize s.bindings = xs at bindings ⊢
    generalize s'.bindings = ys at bindings ⊢
    induction bindings with
    | nil => exact .cons ⟨rfl, bound⟩ .nil
    | @cons x y xs ys first others ih =>
        simp only [Scope.bind, ← first.1]
        split
        · exact .cons ⟨rfl, bound⟩ others
        · exact .cons ⟨rfl, first.2⟩ ih

end Pairing

/-- Meters of the same budget that stand alike; where their clocks differ, neither is late. -/
structure Meter.Agrees (a b : Meter) : Prop where
  budget : a.budget = b.budget
  used : a.used = b.used
  depth : a.depth = b.depth
  deepest : a.deepest = b.deepest
  clock (n : Nat) : a.clock n = b.clock n ∨
    a.clock n ≤ a.budget.maxMillis * nanosPerMilli ∧ b.clock n ≤ a.budget.maxMillis * nanosPerMilli

theorem Meter.Agrees.refl (a : Meter) : a.Agrees a := ⟨rfl, rfl, rfl, rfl, fun _ => .inl rfl⟩

theorem Meter.Agrees.eq {a b : Meter} (agrees : a.Agrees b) (clocks : a.clock = b.clock) :
    a = b := by
  obtain ⟨budget, clock, used, depth, deepest⟩ := a
  obtain ⟨rfl, rfl, rfl, rfl, -⟩ := agrees
  obtain rfl := clocks
  rfl

namespace Machine

/-- Paired things exist and have related contents, and the meters stand alike. -/
structure Alike (ρ : Pairing) (m m' : Machine) : Prop where
  contents {k : Thing} {i j : Nat} (paired : ρ k i j) :
    ∃ c c', m.content? k i = some c ∧ m'.content? k j = some c' ∧ ρ.RelatesContent i j c c'
  meters : m.meter.Agrees m'.meter

/--
Two states alike under `ρ` have become two others alike under `σ`. The things made since are paired
in the order they were made, what was not paired has stayed as it was, and the same was printed.
-/
structure Evolves (ρ : Pairing) (m m' : Machine) (σ : Pairing) (n n' : Machine) : Prop where
  alike : n.Alike σ n'
  made (k : Thing) : m.count k ≤ n.count k ∧ n.count k + m'.count k = n'.count k + m.count k
  pairs (k : Thing) (i j : Nat) :
    σ k i j ↔ ρ k i j ∨ ∃ d, i = m.count k + d ∧ j = m'.count k + d ∧ i < n.count k
  kept {k : Thing} {i : Nat} (old : i < m.count k) (unpaired : ∀ j, ¬ ρ k i j) :
    n.content? k i = m.content? k i
  kept' {k : Thing} {j : Nat} (old : j < m'.count k) (unpaired : ∀ i, ¬ ρ k i j) :
    n'.content? k j = m'.content? k j
  printed : ∃ lines, n.world.printed = m.world.printed ++ lines ∧
    n'.world.printed = m'.world.printed ++ lines

variable {ρ σ τ : Pairing} {m m' n n' p p' : Machine}

theorem Alike.lt_count (alike : m.Alike ρ m') {k : Thing} {i j : Nat} (paired : ρ k i j) :
    i < m.count k ∧ j < m'.count k := by
  obtain ⟨c, c', found, found', -⟩ := alike.contents paired
  exact ⟨lt_count_iff.mpr ⟨c, found⟩, lt_count_iff.mpr ⟨c', found'⟩⟩

theorem Alike.heaps (alike : m.Alike ρ m') : ρ.Heaps m.world.heap m'.world.heap where
  lists {i j} paired := by
    refine ⟨alike.lt_count paired, ?_⟩
    obtain ⟨c, c', found, found', related⟩ := alike.contents paired
    obtain ⟨xs, at_i, rfl⟩ := Option.map_eq_some_iff.mp found
    obtain ⟨ys, at_j, rfl⟩ := Option.map_eq_some_iff.mp found'
    cases related with
    | list related => simpa [Heap.items, at_i, at_j] using related
  maps {i j} paired := by
    refine ⟨alike.lt_count paired, ?_⟩
    obtain ⟨c, c', found, found', related⟩ := alike.contents paired
    obtain ⟨xs, at_i, rfl⟩ := Option.map_eq_some_iff.mp found
    obtain ⟨ys, at_j, rfl⟩ := Option.map_eq_some_iff.mp found'
    cases related with
    | map related => simpa [Heap.entries, at_i, at_j] using related
  functions paired := alike.lt_count paired

theorem Alike.frames (alike : m.Alike ρ m') {i j : Nat} (paired : ρ .scope i j) :
    ∃ s s', m.scopes.frames[i]? = some s ∧ m'.scopes.frames[j]? = some s' ∧
      ρ.RelatesScope i j s s' := by
  obtain ⟨c, c', found, found', related⟩ := alike.contents paired
  obtain ⟨s, at_i, rfl⟩ := Option.map_eq_some_iff.mp found
  obtain ⟨s', at_j, rfl⟩ := Option.map_eq_some_iff.mp found'
  cases related with
  | scope related => exact ⟨s, s', at_i, at_j, related⟩

namespace Evolves

theorem more (evolves : Evolves ρ m m' σ n n') : ρ ≤ σ :=
  fun k i j paired => (evolves.pairs k i j).mpr (.inl paired)

/-- Things that were there and are paired were paired before. -/
theorem old (evolves : Evolves ρ m m' σ n n') {k : Thing} {i j : Nat} (paired : σ k i j)
    (there : i < m.count k ∨ j < m'.count k) : ρ k i j := by
  obtain before | ⟨d, rfl, rfl, -⟩ := (evolves.pairs k i j).mp paired
  · exact before
  · omega

theorem refl (alike : m.Alike ρ m') : Evolves ρ m m' ρ m m' where
  alike := alike
  made k := ⟨Nat.le_refl _, Nat.add_comm _ _⟩
  pairs k i j := ⟨.inl, fun paired => paired.resolve_right fun ⟨d, at_i, _, lt⟩ => by omega⟩
  kept _ _ := rfl
  kept' _ _ := rfl
  printed := ⟨#[], by simp⟩

theorem trans (first : Evolves ρ m m' σ n n') (second : Evolves σ n n' τ p p') :
    Evolves ρ m m' τ p p' where
  alike := second.alike
  made k := by
    have := first.made k
    have := second.made k
    omega
  pairs k i j := by
    have made := first.made k
    have made' := second.made k
    rw [second.pairs, first.pairs, or_assoc]
    refine or_congr_right ⟨?_, ?_⟩
    · rintro (⟨d, at_i, at_j, lt⟩ | ⟨d, at_i, at_j, lt⟩)
      · exact ⟨d, at_i, at_j, by omega⟩
      · exact ⟨n.count k - m.count k + d, by omega, by omega, lt⟩
    · rintro ⟨d, at_i, at_j, lt⟩
      by_cases early : i < n.count k
      · exact .inl ⟨d, at_i, at_j, early⟩
      · exact .inr ⟨i - n.count k, by omega, by omega, lt⟩
  kept {k i} old unpaired := by
    have unpaired' (j : Nat) : ¬ σ k i j := fun paired =>
      unpaired j (first.old paired (.inl old))
    exact (second.kept (Nat.lt_of_lt_of_le old (first.made k).1) unpaired').trans
      (first.kept old unpaired)
  kept' {k j} old unpaired := by
    have unpaired' (i : Nat) : ¬ σ k i j := fun paired =>
      unpaired i (first.old paired (.inr old))
    have made := first.made k
    exact (second.kept' (by omega) unpaired').trans (first.kept' old unpaired)
  printed := by
    obtain ⟨lines, left, right⟩ := first.printed
    obtain ⟨lines', left', right'⟩ := second.printed
    exact ⟨lines ++ lines', by simp [left, left'], by simp [right, right']⟩

end Evolves

namespace Alike

variable {kind : Thing}

/-- The pairing in which the next things made on both sides are paired too. -/
def next (alike : m.Alike ρ m') (kind : Thing) : Pairing :=
  ρ.add kind (m.count kind) (m'.count kind)
    (fun _ paired => Nat.lt_irrefl _ (alike.lt_count paired).1)
    (fun _ paired => Nat.lt_irrefl _ (alike.lt_count paired).2)

theorem le_next (alike : m.Alike ρ m') (kind : Thing) : ρ ≤ alike.next kind := ρ.le_add _ _

theorem next_self (alike : m.Alike ρ m') (kind : Thing) :
    alike.next kind kind (m.count kind) (m'.count kind) := ρ.add_self _ _

/-- Two new things with related contents are paired from now on. -/
theorem add (alike : m.Alike ρ m') {c c' : Contents} (left : m.Adds kind c n)
    (right : m'.Adds kind c' n')
    (related : (alike.next kind).RelatesContent (m.count kind) (m'.count kind) c c') :
    Evolves ρ m m' (alike.next kind) n n' where
  alike :=
    { contents := by
        rintro k i j (paired | ⟨rfl, rfl, rfl⟩)
        · obtain ⟨lt, lt'⟩ := alike.lt_count paired
          obtain ⟨d, d', found, found', related⟩ := alike.contents paired
          refine ⟨d, d', ?_, ?_, related.mono (alike.le_next kind)⟩
          · rw [left.content, if_neg (by rintro ⟨rfl, rfl⟩; omega), found]
          · rw [right.content, if_neg (by rintro ⟨rfl, rfl⟩; omega), found']
        · exact ⟨c, c', by simp [left.content], by simp [right.content], related⟩
      meters := by
        rw [left.meter, right.meter]
        exact alike.meters }
  made k := by
    rw [left.count, right.count]
    omega
  pairs k i j := by
    refine or_congr_right ⟨?_, ?_⟩
    · rintro ⟨rfl, rfl, rfl⟩
      exact ⟨0, rfl, rfl, by simp [left.count]⟩
    · rintro ⟨d, at_i, at_j, lt⟩
      rw [left.count] at lt
      split at lt
      · rename_i same
        subst same
        exact ⟨rfl, by omega, by omega⟩
      · omega
  kept {k i} old _ := by rw [left.content, if_neg (by rintro ⟨rfl, rfl⟩; omega)]
  kept' {k j} old _ := by rw [right.content, if_neg (by rintro ⟨rfl, rfl⟩; omega)]
  printed := ⟨#[], by simp [left.printed, right.printed]⟩

/-- A change of two paired things that keeps their contents related. -/
theorem change (alike : m.Alike ρ m') {id id' : Nat} (paired : ρ kind id id')
    {f f' : Contents → Contents} (left : m.Changes kind id f n) (right : m'.Changes kind id' f' n')
    (same : ∀ {c c'}, ρ.RelatesContent id id' c c' → ρ.RelatesContent id id' (f c) (f' c')) :
    Evolves ρ m m' ρ n n' where
  alike :=
    { contents := by
        intro k i j others
        obtain ⟨c, c', found, found', related⟩ := alike.contents others
        by_cases here : k = kind ∧ i = id
        · obtain ⟨rfl, rfl⟩ := here
          obtain rfl := (ρ.oneToOne paired others).mp rfl
          exact ⟨f c, f' c', by simp [left.content, found], by simp [right.content, found'],
            same related⟩
        · have there : ¬ (k = kind ∧ j = id') := by
            rintro ⟨rfl, rfl⟩
            exact here ⟨rfl, ((ρ.oneToOne paired others).mpr rfl).symm⟩
          exact ⟨c, c', by rw [left.content, if_neg here, found],
            by rw [right.content, if_neg there, found'], related⟩
      meters := by
        rw [left.meter, right.meter]
        exact alike.meters }
  made k := by
    rw [left.count, right.count]
    omega
  pairs k i j := by
    refine ⟨.inl, fun paired => paired.resolve_right fun ⟨d, at_i, _, lt⟩ => ?_⟩
    rw [left.count] at lt
    omega
  kept {k i} _ unpaired := by
    rw [left.content, if_neg (by rintro ⟨rfl, rfl⟩; exact unpaired _ paired)]
  kept' {k j} _ unpaired := by
    rw [right.content, if_neg (by rintro ⟨rfl, rfl⟩; exact unpaired _ paired)]
  printed := ⟨#[], by simp [left.printed, right.printed]⟩

/-- Neither side has made or changed a thing. -/
theorem still (alike : m.Alike ρ m') (same : n.world.heap = m.world.heap ∧ n.scopes = m.scopes)
    (same' : n'.world.heap = m'.world.heap ∧ n'.scopes = m'.scopes)
    (meters : n.meter.Agrees n'.meter) (lines : Array String)
    (printed : n.world.printed = m.world.printed ++ lines)
    (printed' : n'.world.printed = m'.world.printed ++ lines) : Evolves ρ m m' ρ n n' := by
  have content : n.content? = m.content? := by
    funext k i
    cases k <;> simp [content?, same]
  have content' : n'.content? = m'.content? := by
    funext k i
    cases k <;> simp [content?, same']
  have count : n.count = m.count := by
    funext k
    cases k <;> simp [Machine.count, same]
  have count' : n'.count = m'.count := by
    funext k
    cases k <;> simp [Machine.count, same']
  exact
    { alike := ⟨by rw [content, content']; exact alike.contents, meters⟩
      made := fun k => by
        rw [count, count']
        omega
      pairs := fun k i j => by
        rw [count]
        exact ⟨.inl, fun paired => paired.resolve_right fun ⟨d, at_i, _, lt⟩ => by omega⟩
      kept := fun _ _ => by rw [content]
      kept' := fun _ _ => by rw [content']
      printed := ⟨lines, printed, printed'⟩ }

theorem withMeters (alike : m.Alike ρ m') {a b : Meter} (agrees : a.Agrees b) :
    Evolves ρ m m' ρ { m with meter := a } { m' with meter := b } :=
  alike.still ⟨rfl, rfl⟩ ⟨rfl, rfl⟩ agrees #[] (by simp) (by simp)

theorem counted (alike : m.Alike ρ m') : Evolves ρ m m' ρ m.counted m'.counted := by
  obtain ⟨budget, used, depth, deepest, clock⟩ := alike.meters
  exact alike.withMeters ⟨budget, congrArg (· + 1) used, depth, deepest, clock⟩

theorem entered (alike : m.Alike ρ m') : Evolves ρ m m' ρ m.entered m'.entered := by
  obtain ⟨budget, used, depth, deepest, clock⟩ := alike.meters
  exact alike.withMeters ⟨budget, used, congrArg (· + 1) depth, by simp [depth, deepest], clock⟩

theorem left (alike : m.Alike ρ m') : Evolves ρ m m' ρ m.left m'.left := by
  obtain ⟨budget, used, depth, deepest, clock⟩ := alike.meters
  exact alike.withMeters ⟨budget, used, congrArg (· - 1) depth, deepest, clock⟩

/-- A name is found in paired scopes, where it stands for what is related, or in none. -/
theorem nearest? (alike : m.Alike ρ m') {scope scope' : ScopeId}
    (paired : ρ .scope scope.index scope'.index) (name : String) :
    Option.Rel (fun x y : ScopeId × Binding =>
        ρ .scope x.1.index y.1.index ∧ ρ.RelatesBinding x.2 y.2)
      (m.scopes.nearest? scope name) (m'.scopes.nearest? scope' name) := by
  obtain ⟨enough, enough'⟩ := alike.lt_count paired
  unfold Scopes.nearest?
  simp only [Machine.count] at enough enough'
  generalize m.scopes.frames.size = fuel at enough ⊢
  generalize m'.scopes.frames.size = fuel' at enough' ⊢
  induction fuel generalizing fuel' scope scope' with
  | zero => omega
  | succ fuel ih =>
      cases fuel' with
      | zero => omega
      | succ fuel' =>
          obtain ⟨s, s', at_i, at_j, related⟩ := alike.frames paired
          have bound := related.find? name
          simp only [Scopes.nearestWithin, at_i, at_j]
          generalize s.find? name = b at bound ⊢
          generalize s'.find? name = b' at bound ⊢
          cases bound with
          | some bound => exact .some ⟨paired, bound⟩
          | none =>
              have nested := related.parent
              generalize s.parent = p at nested ⊢
              generalize s'.parent = q at nested ⊢
              cases nested with
              | none => exact .none
              | some both => exact ih both.2 (by omega) _ (by omega)

end Alike

end Machine

end Formwork
