import Formwork.Proofs.Renumbering

/-!
# What can be reached

A value names the collection that it is, or the function value that it is and the scope where that
was made. From scopes and values on, the scopes, collections and function values are reached that
are named there, in the contents of those, and so on: `Machine.Reach`. A state is closed when all
that is named in it exists; then each thing within reach can stand for itself in any other state
with the same contents there (`Machine.Closed.alike`).
-/

namespace Formwork

/-- The things that a value names itself. -/
inductive Value.Names : Value → Thing → Nat → Prop
  | list (i : Nat) : Names (.list i) .list i
  | map (i : Nat) : Names (.map i) .map i
  | function (c : Closure) : Names (.function c) .function c.id
  | home (c : Closure) : Names (.function c) .scope c.scope.index

namespace Contents

/-- The values that stand in a scope or a collection. -/
inductive Holds : Contents → Value → Prop
  | bound {frame : Scope} {name : String} {v : Value} {constant : Bool}
      (mem : (name, .value v constant) ∈ frame.bindings) : Holds (.scope frame) v
  | item {items : Array Value} {v : Value} (mem : v ∈ items.toList) : Holds (.list items) v
  | key {entries : Entries} {entry : Value × Value} (mem : entry ∈ entries) :
      Holds (.map entries) entry.1
  | value {entries : Entries} {entry : Value × Value} (mem : entry ∈ entries) :
      Holds (.map entries) entry.2

/-- The things that are named by what stands in a thing, or by where a scope is nested. -/
inductive Names : Contents → Thing → Nat → Prop
  | held {c : Contents} {v : Value} {k : Thing} {i : Nat} (holds : c.Holds v)
      (names : v.Names k i) : Names c k i
  | parent {frame : Scope} {p : ScopeId} (nested : frame.parent = some p) :
      Names (.scope frame) .scope p.index

variable {v : Value}

theorem holds_scope_iff {frame : Scope} :
    (Contents.scope frame).Holds v ↔
      ∃ name constant, (name, .value v constant) ∈ frame.bindings := by
  constructor
  · rintro ⟨mem⟩
    exact ⟨_, _, mem⟩
  · rintro ⟨name, constant, mem⟩
    exact .bound mem

theorem holds_list_iff {items : Array Value} :
    (Contents.list items).Holds v ↔ v ∈ items.toList := by
  constructor
  · rintro (_ | mem)
    exact mem
  · exact .item

theorem holds_map_iff {entries : Entries} :
    (Contents.map entries).Holds v ↔ ∃ entry ∈ entries, v = entry.1 ∨ v = entry.2 := by
  constructor
  · rintro (_ | _ | mem | mem)
    · exact ⟨_, mem, .inl rfl⟩
    · exact ⟨_, mem, .inr rfl⟩
  · rintro ⟨entry, mem, rfl | rfl⟩
    · exact .key mem
    · exact .value mem

end Contents

namespace Pairing

/-- Each of some things stands for itself. -/
def on (P : Thing → Nat → Prop) : Pairing where
  rel k i j := P k i ∧ i = j
  oneToOne := by
    rintro k i j i' j' ⟨-, rfl⟩ ⟨-, rfl⟩
    rfl

variable {P : Thing → Nat → Prop} {ρ : Pairing} {i j : Nat}

theorem relates_on {v : Value} (all : ∀ k i, v.Names k i → P k i) : (on P).Relates v v := by
  cases v with
  | number x => exact .number x
  | bool b => exact .bool b
  | unit => exact .unit
  | list i => exact .list ⟨all _ _ (.list i), rfl⟩
  | map i => exact .map ⟨all _ _ (.map i), rfl⟩
  | function c => exact .function c.function ⟨all _ _ (.function c), rfl⟩ ⟨all _ _ (.home c), rfl⟩

theorem relatesContent_on {c : Contents} (all : ∀ k j, c.Names k j → P k j)
    (older : ∀ frame p, c = .scope frame → frame.parent = some p → p.index < i) :
    (on P).RelatesContent i i c c := by
  have held {v : Value} (holds : c.Holds v) : (on P).Relates v v :=
    relates_on fun k i names => all k i (.held holds names)
  cases c with
  | scope frame =>
      refine .scope ⟨List.forall₂_same.mpr fun x mem => ⟨rfl, ?_⟩, ?_⟩
      · obtain ⟨name, b⟩ := x
        cases b with
        | value v constant => exact .value (held (.bound mem)) constant
        | function definition => exact .function definition
      · cases nested : frame.parent with
        | none => exact .none
        | some p =>
            have before := older frame p rfl nested
            exact .some ⟨⟨before, before⟩, all _ _ (.parent nested), rfl⟩
  | list items => exact .list (List.forall₂_same.mpr fun v mem => held (.item mem))
  | map entries =>
      exact .map (List.forall₂_same.mpr fun entry mem => ⟨held (.key mem), held (.value mem)⟩)
  | function => exact .function

/-- What is named by values and contents that are related is paired. -/
theorem Relates.exists_of_names {v v' : Value} (related : ρ.Relates v v') {k : Thing}
    (names : v.Names k i) : ∃ j, ρ k i j := by
  cases related with
  | list paired =>
      cases names
      exact ⟨_, paired⟩
  | map paired =>
      cases names
      exact ⟨_, paired⟩
  | function definition paired home =>
      cases names with
      | function => exact ⟨_, paired⟩
      | home => exact ⟨_, home⟩
  | _ => cases names

theorem RelatesContent.exists_of_names {c c' : Contents} (related : ρ.RelatesContent i j c c')
    {k : Thing} {a : Nat} (names : c.Names k a) : ∃ b, ρ k a b := by
  cases names with
  | held holds names =>
      cases related with
      | scope related =>
          obtain ⟨name, constant, mem⟩ := Contents.holds_scope_iff.mp holds
          obtain ⟨y, -, -, bound⟩ := exists_partner related.bindings mem
          generalize y.2 = b at bound
          cases bound with
          | value related => exact related.exists_of_names names
      | list related =>
          obtain ⟨y, -, related⟩ := exists_partner related (Contents.holds_list_iff.mp holds)
          exact related.exists_of_names names
      | map related =>
          obtain ⟨entry, mem, rfl | rfl⟩ := Contents.holds_map_iff.mp holds
          · obtain ⟨y, -, related⟩ := exists_partner related mem
            exact related.1.exists_of_names names
          · obtain ⟨y, -, related⟩ := exists_partner related mem
            exact related.2.exists_of_names names
      | function => cases holds
  | parent nested =>
      cases related with
      | @scope s s' related =>
          have parents := related.parent
          rw [nested] at parents
          generalize s'.parent = q at parents
          cases parents with
          | some both => exact ⟨_, both.2⟩

/-- Things stand only for those with the same number. -/
def Identical (ρ : Pairing) : Prop := ∀ ⦃k i j⦄, ρ k i j → i = j

theorem Identical.renumbers (identical : ρ.Identical) : ρ.Renumbers fun _ i => i :=
  fun _ _ _ paired => (identical paired).symm

theorem RelatesContent.eq (identical : ρ.Identical) {c c' : Contents}
    (related : ρ.RelatesContent i j c c') : c = c' := by
  rw [related.eq_renumber identical.renumbers, Contents.renumber_same]

theorem RelatesFlow.eq (identical : ρ.Identical) {flow flow' : Flow}
    (related : ρ.RelatesFlow flow flow') : flow = flow' := by
  rw [related.eq_renumber identical.renumbers, Flow.renumber_same]

end Pairing

namespace Machine

variable {m m' n : Machine}

/-- All that is named in a state exists, and scopes are nested in older ones. -/
structure Closed (m : Machine) : Prop where
  known {k k' : Thing} {i j : Nat} {c : Contents} (found : m.content? k i = some c)
    (names : c.Names k' j) : j < m.count k'
  older {i : Nat} {frame : Scope} {p : ScopeId}
    (found : m.content? .scope i = some (.scope frame)) (nested : frame.parent = some p) :
    p.index < i

/-- All that a value names exists. -/
def Knows (m : Machine) (v : Value) : Prop := ∀ ⦃k i⦄, v.Names k i → i < m.count k

/-- The things that are reached from scopes and values. -/
inductive Reach (m : Machine) (scopes : List ScopeId) (values : List Value) : Thing → Nat → Prop
  | scope {s : ScopeId} (mem : s ∈ scopes) : Reach m scopes values .scope s.index
  | value {v : Value} {k : Thing} {i : Nat} (mem : v ∈ values) (names : v.Names k i) :
      Reach m scopes values k i
  | inside {k k' : Thing} {i j : Nat} {c : Contents} (outer : Reach m scopes values k i)
      (found : m.content? k i = some c) (names : c.Names k' j) : Reach m scopes values k' j

theorem Closed.lt_count {scopes : List ScopeId} {values : List Value} (closed : m.Closed)
    (here : ∀ s ∈ scopes, m.Allocated s) (knows : ∀ v ∈ values, m.Knows v) {k : Thing} {i : Nat}
    (reach : m.Reach scopes values k i) : i < m.count k := by
  induction reach with
  | scope mem => exact here _ mem
  | value mem names => exact knows _ mem names
  | inside _ found names _ => exact closed.known found names

/-- Where things lead only to one another, each of them can stand for itself. -/
theorem Closed.alike {P : Thing → Nat → Prop} (closed : m.Closed)
    (there : ∀ ⦃k i⦄, P k i → i < m.count k)
    (inside : ∀ ⦃k i c k' j⦄, P k i → m.content? k i = some c → c.Names k' j → P k' j)
    (agrees : ∀ ⦃k i⦄, P k i → m'.content? k i = m.content? k i) (meters : m'.meter = m.meter) :
    m.Alike (.on P) m' where
  contents := by
    rintro k i _ ⟨within, rfl⟩
    obtain ⟨c, found⟩ := lt_count_iff.mp (there within)
    refine ⟨c, c, found, (agrees within).trans found, Pairing.relatesContent_on
      (fun k' j names => inside within found names) ?_⟩
    rintro frame p rfl nested
    cases k with
    | scope => exact closed.older found nested
    | _ => simp [content?] at found
  meters := meters ▸ .refl _

/-- A run that keeps paired all that there is ends in a closed state. -/
theorem Evolves.closed {σ : Pairing} (evolves : Evolves (.on fun k i => i < m.count k) m m σ n n) :
    n.Closed := by
  have paired {k : Thing} {i : Nat} (there : i < n.count k) : σ k i i := by
    rw [evolves.pairs]
    by_cases old : i < m.count k
    · exact .inl ⟨old, rfl⟩
    · exact .inr ⟨i - m.count k, by omega, by omega, there⟩
  have related {k : Thing} {i : Nat} {c : Contents} (found : n.content? k i = some c) :
      ∃ c', σ.RelatesContent i i c c' := by
    obtain ⟨d, d', found', -, related⟩ :=
      evolves.alike.contents (paired (lt_count_iff.mpr ⟨c, found⟩))
    obtain rfl := Option.some.inj (found.symm.trans found')
    exact ⟨d', related⟩
  constructor
  · intro k k' i j c found names
    obtain ⟨c', related⟩ := related found
    obtain ⟨b, paired⟩ := related.exists_of_names names
    exact (evolves.alike.lt_count paired).1
  · intro i frame p found nested
    obtain ⟨c', related⟩ := related found
    cases related with
    | @scope _ s' related =>
        have parents := related.parent
        rw [nested] at parents
        generalize s'.parent = q at parents
        cases parents with
        | some both => exact both.1.1

theorem Closed.knows (closed : m.Closed) {k : Thing} {i : Nat} {c : Contents}
    (found : m.content? k i = some c) {v : Value} (holds : c.Holds v) : m.Knows v :=
  fun _ _ names => closed.known found (.held holds names)

/-- A new thing that holds known values, nested in a scope there is, leaves a state closed. -/
theorem Adds.closed {kind : Thing} {c : Contents} (adds : m.Adds kind c n) (closed : m.Closed)
    (held : ∀ ⦃v⦄, c.Holds v → m.Knows v)
    (nested : ∀ ⦃frame p⦄, c = .scope frame → frame.parent = some p → m.Allocated p) :
    n.Closed := by
  constructor
  · intro k k' i j c' found names
    refine Nat.lt_of_lt_of_le ?_ (adds.count_le k')
    rw [adds.content] at found
    split at found
    · obtain rfl := Option.some.inj found
      cases names with
      | held holds names => exact held holds names
      | parent inner => exact nested rfl inner
    · exact closed.known found names
  · intro i frame p found inner
    rw [adds.content] at found
    split at found
    · rename_i new
      obtain ⟨rfl, rfl⟩ := new
      exact nested (Option.some.inj found) inner
    · exact closed.older found inner

/-- A change after which a thing holds known values, and is nested as before, leaves it closed. -/
theorem Changes.closed {kind : Thing} {id : Nat} {f : Contents → Contents}
    (changes : m.Changes kind id f n) (closed : m.Closed)
    (held : ∀ ⦃c v⦄, m.content? kind id = some c → (f c).Holds v → m.Knows v)
    (nested : ∀ ⦃c frame⦄, f c = .scope frame →
      ∃ frame', c = .scope frame' ∧ frame'.parent = frame.parent) : n.Closed := by
  constructor
  · intro k k' i j c found names
    rw [changes.count]
    rw [changes.content] at found
    split at found
    · rename_i here
      obtain ⟨rfl, rfl⟩ := here
      obtain ⟨d, before, rfl⟩ := Option.map_eq_some_iff.mp found
      generalize same : f d = c at names
      cases names with
      | held holds names => exact held before (same ▸ holds) names
      | parent inner =>
          obtain ⟨frame', rfl, parents⟩ := nested same
          exact closed.known before (.parent (parents.trans inner))
    · exact closed.known found names
  · intro i frame p found inner
    rw [changes.content] at found
    split at found
    · obtain ⟨d, before, same⟩ := Option.map_eq_some_iff.mp found
      obtain ⟨frame', rfl, parents⟩ := nested same
      exact closed.older before (parents.trans inner)
    · exact closed.older found inner

end Machine

end Formwork
