import Formwork.Proofs.Frames

/-!
# Lexical environments

Scopes are made one inside another, and a name means what the nearest scope around says that binds
it. `Scopes.First` is the nearest scope with a property, without a bound on how far away it is.
However scopes came about, going outwards ends, looking up finds the nearest binding, and the effect
of a definition or an assignment is the same for every scope that sees the binding and none for all
others: `Scopes.Grown.lexical`.
-/

namespace Formwork

/-- A name that stands for this cannot be given another value. -/
def Binding.IsConstant : Binding → Prop
  | .value _ constant => constant = true
  | .function _ => False

/-- What a name means that a scope binds. -/
def Binding.meaning (home : ScopeId) : Binding → Meaning
  | .value v _ => .value v
  | .function f => .function f home

namespace Scopes

theorem lookup?_eq (s : Scopes) (scope : ScopeId) (name : String) :
    s.lookup? scope name = (s.nearest? scope name).map fun place => place.2.meaning place.1 := by
  unfold lookup?
  split <;> rename_i found <;> rw [found] <;> rfl

/-- A scope exists. -/
def Allocated (s : Scopes) (scope : ScopeId) : Prop := scope.index < s.frames.size

instance (s : Scopes) (scope : ScopeId) : Decidable (s.Allocated scope) :=
  inferInstanceAs (Decidable (_ < _))

/-- What a scope itself binds a name to. -/
def bound? (s : Scopes) (scope : ScopeId) (name : String) : Option Binding :=
  s.frames[scope.index]?.bind (·.find? name)

/-- The scope that another one is nested in. -/
def parent? (s : Scopes) (scope : ScopeId) : Option ScopeId :=
  s.frames[scope.index]?.bind Scope.parent

/-- A scope itself binds a name. -/
def Binds (s : Scopes) (name : String) (scope : ScopeId) : Prop :=
  ∃ binding, s.bound? scope name = some binding

/-- The scopes that one meets going outwards from a scope, the scope itself included. -/
def Around (s : Scopes) : ScopeId → ScopeId → Prop :=
  Relation.ReflTransGen fun inner outer => s.parent? inner = some outer

/-- The first scope with a property that one meets going outwards. -/
inductive First (parent? : ScopeId → Option ScopeId) (p : ScopeId → Prop) :
    ScopeId → ScopeId → Prop
  | here {scope : ScopeId} (holds : p scope) : First parent? p scope scope
  | outwards {scope outer found : ScopeId} (fails : ¬ p scope)
      (nested : parent? scope = some outer) (first : First parent? p outer found) :
      First parent? p scope found

/-- A scope is the nearest one that binds a name. -/
abbrev Nearest (s : Scopes) (name : String) : ScopeId → ScopeId → Prop :=
  First s.parent? (s.Binds name)

/-- Scopes that come about by making scopes, defining names and giving variables other values. -/
inductive Grown : Scopes → Prop
  | empty : Grown .empty
  | root {s : Scopes} (grown : Grown s) : Grown s.root.2
  | child {s : Scopes} (grown : Grown s) {parent : ScopeId} (here : s.Allocated parent) :
      Grown (s.child parent).2
  | define {s : Scopes} (grown : Grown s) {scope : ScopeId} (here : s.Allocated scope)
      (name : String) (value : Value) (constant : Bool) :
      Grown (s.define scope name value constant)
  | defineFunction {s : Scopes} (grown : Grown s) {scope : ScopeId} (here : s.Allocated scope)
      (definition : FunctionDef) : Grown (s.defineFunction scope definition)
  | assign {s : Scopes} (grown : Grown s) {scope : ScopeId} (here : s.Allocated scope)
      (name : String) (value : Value) : Grown (s.assign scope name value).2

/--
What looking up comes to when a name is made to stand for `meaning` in the scope `home`: scopes for
which `home` is the first with the property `p` see the new meaning, and nothing else changes.
-/
def Sees (before after : Scopes) (p : ScopeId → Prop) (home : ScopeId) (name : String)
    (meaning : Meaning) : Prop :=
  ∀ t m, (m = name ∧ First before.parent? p t home → after.lookup? t m = some meaning) ∧
    (¬ (m = name ∧ First before.parent? p t home) → after.lookup? t m = before.lookup? t m)

/-- Scopes are lexical environments. -/
structure Lexical (s : Scopes) : Prop where
  /-- Going outwards ends, and so does every search for a name. -/
  ends : WellFounded fun outer inner => s.parent? inner = some outer
  /-- A variable or constant has the value of the nearest binding. -/
  value : ∀ t name v, s.lookup? t name = some (.value v) ↔
    ∃ home constant, s.Nearest name t home ∧ s.bound? home name = some (.value v constant)
  /-- A function belongs to the scope where it is found. -/
  function : ∀ t name f home, s.lookup? t name = some (.function f home) ↔
    s.Nearest name t home ∧ s.bound? home name = some (.function f)
  /-- A name has no meaning only where no scope around binds it. -/
  unbound : ∀ t name, s.lookup? t name = none ↔ ∀ u, s.Around t u → ¬ s.Binds name u
  /-- A definition is seen where its scope is now the nearest that binds the name. -/
  define : ∀ home, s.Allocated home → ∀ name v constant,
    s.Sees (s.define home name v constant) (fun u => u = home ∨ s.Binds name u) home name (.value v)
  /-- The same for functions. -/
  defineFunction : ∀ home, s.Allocated home → ∀ f : FunctionDef,
    s.Sees (s.defineFunction home f) (fun u => u = home ∨ s.Binds f.displayName u) home
      f.displayName (.function f home)
  /-- An assignment succeeds where the nearest binding is not a constant. -/
  assignable : ∀ scope name v, (s.assign scope name v).1 = none ↔
    ∃ home binding, s.Nearest name scope home ∧ s.bound? home name = some binding ∧
      ¬ binding.IsConstant
  /-- It is seen where the same binding is the nearest. -/
  assigned : ∀ scope name v home, (s.assign scope name v).1 = none → s.Nearest name scope home →
    s.Sees (s.assign scope name v).2 (s.Binds name) home name (.value v)
  /-- An assignment that is refused changes nothing. -/
  refused : ∀ scope name v, (s.assign scope name v).1 ≠ none →
    ∀ t m, (s.assign scope name v).2.lookup? t m = s.lookup? t m
  /-- It is refused for want of a name where no scope around binds the name. -/
  undefined : ∀ scope name v, (s.assign scope name v).1 = some .undefined ↔
    ∀ u, s.Around scope u → ¬ s.Binds name u

/-! ## The nearest scope -/

namespace First

variable {parent? : ScopeId → Option ScopeId} {p q : ScopeId → Prop} {scope home found : ScopeId}

theorem holds (first : First parent? p scope found) : p found := by
  induction first with
  | here holds => exact holds
  | outwards _ _ _ ih => exact ih

theorem unique (first : First parent? p scope home) (first' : First parent? p scope found) :
    home = found := by
  induction first with
  | here holds =>
      cases first' with
      | here => rfl
      | outwards fails => exact absurd holds fails
  | outwards fails nested _ ih =>
      cases first' with
      | here holds => exact absurd holds fails
      | outwards _ nested' first' =>
          obtain rfl := Option.some.inj (nested.symm.trans nested')
          exact ih first'

/-- What counts on the way may change as long as it says the same of every scope. -/
theorem congr (same : ∀ u, p u ↔ q u) (first : First parent? p scope found) :
    First parent? q scope found := by
  obtain rfl : p = q := funext fun u => propext (same u)
  exact first

/-- A scope that counts in addition makes no difference where it is not met first. -/
theorem of_ne (first : First parent? (fun u => u = home ∨ p u) scope found)
    (other : found ≠ home) : First parent? p scope found := by
  induction first with
  | here holds => exact .here (holds.resolve_left other)
  | outwards fails nested _ ih => exact .outwards (fun here => fails (.inr here)) nested (ih other)

theorem around {s : Scopes} (first : First s.parent? p scope found) : s.Around scope found := by
  induction first with
  | here => exact .refl
  | outwards _ nested _ ih => exact .head nested ih

end First

/-! ## Older scopes -/

variable {s : Scopes} {scope t u home : ScopeId} {name m : String}

/-- Every scope is nested in an older one. -/
def Ordered (s : Scopes) : Prop :=
  ∀ inner outer, s.parent? inner = some outer → outer.index < inner.index

theorem allocated_of_parent? {outer : ScopeId} (nested : s.parent? scope = some outer) :
    s.Allocated scope := by
  obtain ⟨frame, here, -⟩ := Option.bind_eq_some_iff.mp nested
  exact (Array.getElem?_eq_some_iff.mp here).1

theorem allocated_of_binds (binds : s.Binds name scope) : s.Allocated scope := by
  obtain ⟨b, bound⟩ := binds
  obtain ⟨frame, here, -⟩ := Option.bind_eq_some_iff.mp bound
  exact (Array.getElem?_eq_some_iff.mp here).1

/-- A new scope is nested as said, and all others as before. -/
theorem parent?_make (parent : Option ScopeId) :
    (s.make parent).2.parent? scope =
      if scope.index = s.frames.size then parent else s.parent? scope := by
  simp only [make, parent?, Array.getElem?_push]
  split <;> rfl

theorem parent?_bind (binding : Binding) :
    (s.bind home name binding).parent? = s.parent? := by
  funext scope
  simp only [parent?, getElem?_bind]
  split
  · cases s.frames[scope.index]? <;> rfl
  · rfl

theorem bound?_bind (here : s.Allocated home) (binding : Binding) :
    (s.bind home name binding).bound? u m =
      if u = home ∧ m = name then some binding else s.bound? u m := by
  have index : home.index = u.index ↔ u = home := by
    cases u; cases home; simp [eq_comm]
  simp only [bound?, getElem?_bind, index]
  by_cases same : u = home
  · subst same
    obtain ⟨frame, found⟩ : ∃ frame, s.frames[u.index]? = some frame :=
      ⟨_, Array.getElem?_eq_getElem here⟩
    by_cases named : m = name
    · simp [found, named, Scope.find?]
    · simp [found, named, Scope.find?, Scope.lookup_bind_of_ne named]
  · simp [same]

theorem binds_bind (here : s.Allocated home) (binding : Binding) :
    (s.bind home name binding).Binds name u ↔ u = home ∨ s.Binds name u := by
  unfold Binds
  rw [bound?_bind here]
  by_cases same : u = home <;> simp [same]

theorem Ordered.make (ordered : s.Ordered) {parent : Option ScopeId}
    (here : ∀ outer, parent = some outer → s.Allocated outer) : (s.make parent).2.Ordered := by
  intro inner outer nested
  rw [parent?_make] at nested
  split at nested
  · rename_i last
    exact last ▸ here outer nested
  · exact ordered inner outer nested

theorem Ordered.bind (ordered : s.Ordered) (binding : Binding) :
    (s.bind home name binding).Ordered := by
  unfold Ordered
  rw [parent?_bind]
  exact ordered

/-- An assignment binds a name anew, or changes nothing. -/
theorem assign_cases (s : Scopes) (scope : ScopeId) (name : String) (v : Value) :
    (s.nearest? scope name = none ∧ s.assign scope name v = (some .undefined, s)) ∨
      (∃ home w, s.nearest? scope name = some (home, .value w true) ∧
        s.assign scope name v = (some .constant, s)) ∨
      ∃ home b, s.nearest? scope name = some (home, b) ∧ ¬ b.IsConstant ∧
        s.assign scope name v = (none, s.bind home name (.value v false)) := by
  unfold assign
  split
  · rename_i found
    exact .inl ⟨found, rfl⟩
  · rename_i home w found
    exact .inr (.inl ⟨home, w, found, rfl⟩)
  · rename_i home b variable_ found
    refine .inr (.inr ⟨home, b, found, ?_, rfl⟩)
    intro constant
    cases b with
    | value w c => exact variable_ w (by rw [show c = true from constant])
    | function f => exact constant

theorem Grown.ordered (grown : s.Grown) : s.Ordered := by
  induction grown with
  | empty =>
      intro inner outer nested
      simp [parent?, Scopes.empty] at nested
  | root _ ih => exact ih.make (by simp)
  | child _ here ih =>
      refine ih.make fun outer nested => ?_
      obtain rfl := Option.some.inj nested
      exact here
  | define _ _ _ _ _ ih => exact ih.bind _
  | defineFunction _ _ _ ih => exact ih.bind _
  | @assign s _ scope _ name v ih =>
      obtain ⟨-, same⟩ | ⟨-, -, -, same⟩ | ⟨home, b, -, -, same⟩ := s.assign_cases scope name v
      · rwa [same]
      · rwa [same]
      · rw [same]
        exact ih.bind _

/-! ## Looking up -/

/-- One step of the search. -/
theorem nearestWithin_succ (s : Scopes) (name : String) (fuel : Nat) (scope : ScopeId) :
    s.nearestWithin name (fuel + 1) scope =
      match s.bound? scope name with
      | some binding => some (scope, binding)
      | none => (s.parent? scope).bind (s.nearestWithin name fuel) := by
  rw [nearestWithin, bound?, parent?]
  cases s.frames[scope.index]? with
  | none => rfl
  | some frame =>
      cases bound : frame.find? name with
      | some binding => simp [bound]
      | none => cases nested : frame.parent <;> simp [bound, nested]

/-- The search with enough fuel finds the nearest binding, and nothing only if there is none. -/
theorem Ordered.nearestWithin_spec (ordered : s.Ordered) {fuel : Nat}
    (enough : s.Allocated scope → scope.index < fuel) :
    match s.nearestWithin name fuel scope with
    | some (home, binding) => s.Nearest name scope home ∧ s.bound? home name = some binding
    | none => ∀ u, s.Around scope u → ¬ s.Binds name u := by
  -- Each step outwards leads to an older scope, so the number of the scope bounds the steps.
  induction fuel generalizing scope with
  | zero =>
      have missing : ¬ s.Allocated scope := fun here => absurd (enough here) (by omega)
      intro u around binds
      obtain rfl | ⟨outer, nested, -⟩ := around.cases_head
      · exact missing (allocated_of_binds binds)
      · exact missing (allocated_of_parent? nested)
  | succ fuel ih =>
      rw [nearestWithin_succ]
      cases bound : s.bound? scope name with
      | some binding => exact ⟨.here ⟨binding, bound⟩, bound⟩
      | none =>
          have unbound : ¬ s.Binds name scope := by simp [Binds, bound]
          cases nested : s.parent? scope with
          | none =>
              intro u around
              obtain rfl | ⟨outer, nested', -⟩ := around.cases_head
              · exact unbound
              · simp [nested] at nested'
          | some outer =>
              have older := ordered scope outer nested
              have left := enough (allocated_of_parent? nested)
              have rest := ih fun _ : s.Allocated outer => by omega
              simp only [Option.bind_some]
              cases found : s.nearestWithin name fuel outer with
              | some place =>
                  rw [found] at rest
                  exact ⟨.outwards unbound nested rest.1, rest.2⟩
              | none =>
                  rw [found] at rest
                  intro u around
                  obtain rfl | ⟨outer', nested', around⟩ := around.cases_head
                  · exact unbound
                  · obtain rfl := Option.some.inj (nested.symm.trans nested')
                    exact rest u around

namespace Ordered

variable (ordered : s.Ordered)

include ordered

theorem nearest?_spec (t : ScopeId) (name : String) :
    match s.nearest? t name with
    | some (home, binding) => s.Nearest name t home ∧ s.bound? home name = some binding
    | none => ∀ u, s.Around t u → ¬ s.Binds name u :=
  ordered.nearestWithin_spec fun here => here

theorem nearest?_eq_none_iff :
    s.nearest? t name = none ↔ ∀ u, s.Around t u → ¬ s.Binds name u := by
  have spec := ordered.nearest?_spec t name
  cases found : s.nearest? t name with
  | none => simpa [found] using spec
  | some place =>
      rw [found] at spec
      simp only [reduceCtorEq, false_iff]
      intro unbound
      exact unbound _ spec.1.around spec.1.holds

theorem nearest?_eq_some_iff {binding : Binding} :
    s.nearest? t name = some (home, binding) ↔
      s.Nearest name t home ∧ s.bound? home name = some binding := by
  constructor
  · intro found
    have spec := ordered.nearest?_spec t name
    rwa [found] at spec
  · rintro ⟨nearest, bound⟩
    cases found : s.nearest? t name with
    | none =>
        exact absurd nearest.holds (ordered.nearest?_eq_none_iff.mp found home nearest.around)
    | some place =>
        have spec := ordered.nearest?_spec t name
        rw [found] at spec
        obtain rfl := nearest.unique spec.1
        obtain rfl := Option.some.inj (bound.symm.trans spec.2)
        rfl

theorem lookup?_eq_value_iff {v : Value} :
    s.lookup? t name = some (.value v) ↔
      ∃ home constant, s.Nearest name t home ∧ s.bound? home name = some (.value v constant) := by
  simp only [← ordered.nearest?_eq_some_iff, lookup?_eq, Option.map_eq_some_iff]
  constructor
  · rintro ⟨⟨home, _ | _⟩, found, same⟩
    · obtain rfl := Meaning.value.inj same
      exact ⟨home, _, found⟩
    · cases same
  · rintro ⟨home, constant, found⟩
    exact ⟨_, found, rfl⟩

theorem lookup?_eq_function_iff {f : FunctionDef} :
    s.lookup? t name = some (.function f home) ↔
      s.Nearest name t home ∧ s.bound? home name = some (.function f) := by
  simp only [← ordered.nearest?_eq_some_iff, lookup?_eq, Option.map_eq_some_iff]
  constructor
  · rintro ⟨⟨home, _ | _⟩, found, same⟩
    · cases same
    · obtain ⟨rfl, rfl⟩ := Meaning.function.inj same
      exact found
  · intro found
    exact ⟨_, found, rfl⟩

theorem lookup?_eq_none_iff :
    s.lookup? t name = none ↔ ∀ u, s.Around t u → ¬ s.Binds name u := by
  rw [lookup?_eq, Option.map_eq_none_iff, ordered.nearest?_eq_none_iff]

/-! ## The effect of binding a name -/

/-- Other names are found where they were. -/
theorem nearest?_bind_of_ne (here : s.Allocated home) (binding : Binding) (other : m ≠ name) :
    (s.bind home name binding).nearest? t m = s.nearest? t m := by
  have bound (u : ScopeId) : (s.bind home name binding).bound? u m = s.bound? u m := by
    simp [bound?_bind here, other]
  have binds : (s.bind home name binding).Binds m = s.Binds m :=
    funext fun u => by simp only [Binds, bound]
  ext ⟨u, b⟩
  rw [(ordered.bind binding).nearest?_eq_some_iff, ordered.nearest?_eq_some_iff, Nearest, binds,
    parent?_bind, bound]

/-- The name is found in its scope where that is the nearest now. -/
theorem nearest?_bind (here : s.Allocated home) (binding : Binding)
    (first : First s.parent? (fun u => u = home ∨ s.Binds name u) t home) :
    (s.bind home name binding).nearest? t name = some (home, binding) := by
  refine (ordered.bind binding).nearest?_eq_some_iff.mpr ⟨?_, by simp [bound?_bind here]⟩
  rw [Nearest, parent?_bind]
  exact first.congr fun u => (binds_bind here binding).symm

/-- Elsewhere it is found where it was, or still nowhere. -/
theorem nearest?_bind_of_not_first (here : s.Allocated home) (binding : Binding)
    (hidden : ¬ First s.parent? (fun u => u = home ∨ s.Binds name u) t home) :
    (s.bind home name binding).nearest? t name = s.nearest? t name := by
  have ordered' : (s.bind home name binding).Ordered := ordered.bind binding
  cases found : (s.bind home name binding).nearest? t name with
  | some place =>
      obtain ⟨u, b⟩ := place
      obtain ⟨nearest, bound⟩ := ordered'.nearest?_eq_some_iff.mp found
      rw [Nearest, parent?_bind] at nearest
      have first := nearest.congr fun u => binds_bind here binding
      have other : u ≠ home := fun same => hidden (same ▸ first)
      rw [bound?_bind here, if_neg fun same => other same.1] at bound
      exact (ordered.nearest?_eq_some_iff.mpr ⟨first.of_ne other, bound⟩).symm
  | none =>
      refine (ordered.nearest?_eq_none_iff.mpr fun u around binds => ?_).symm
      have binds' := (binds_bind here binding).mpr (.inr binds)
      refine ordered'.nearest?_eq_none_iff.mp found u ?_ binds'
      rwa [Around, parent?_bind]

/-- Binding a name is seen where its scope is the nearest now, and nowhere else. -/
theorem sees_bind (here : s.Allocated home) (binding : Binding) :
    s.Sees (s.bind home name binding) (fun u => u = home ∨ s.Binds name u) home name
      (binding.meaning home) := by
  intro t m
  simp only [lookup?_eq]
  constructor
  · rintro ⟨rfl, first⟩
    rw [ordered.nearest?_bind here binding first, Option.map_some]
  · intro elsewhere
    by_cases named : m = name
    · subst named
      rw [ordered.nearest?_bind_of_not_first here binding fun first => elsewhere ⟨rfl, first⟩]
    · rw [ordered.nearest?_bind_of_ne here binding named]

/-! ## Assignments -/

theorem assign_eq_none_iff {v : Value} :
    (s.assign scope name v).1 = none ↔
      ∃ home binding, s.Nearest name scope home ∧ s.bound? home name = some binding ∧
        ¬ binding.IsConstant := by
  simp only [← and_assoc, ← ordered.nearest?_eq_some_iff]
  obtain ⟨unbound, same⟩ | ⟨home, w, found, same⟩ | ⟨home, b, found, variable_, same⟩ :=
    s.assign_cases scope name v
  · simp [same, unbound]
  · simp [same, found, Binding.IsConstant]
  · simp [same, found, variable_]

theorem assign_eq_undefined_iff {v : Value} :
    (s.assign scope name v).1 = some .undefined ↔ ∀ u, s.Around scope u → ¬ s.Binds name u := by
  rw [← ordered.nearest?_eq_none_iff]
  obtain ⟨unbound, same⟩ | ⟨home, w, found, same⟩ | ⟨home, b, found, -, same⟩ :=
    s.assign_cases scope name v
  · simp [same, unbound]
  · simp [same, found]
  · simp [same, found]

/-- An assignment binds the name anew where it was bound before. -/
theorem sees_assign {v : Value} (succeeds : (s.assign scope name v).1 = none)
    (nearest : s.Nearest name scope home) :
    s.Sees (s.assign scope name v).2 (s.Binds name) home name (.value v) := by
  obtain ⟨-, same⟩ | ⟨-, -, -, same⟩ | ⟨home', b, found, -, same⟩ := s.assign_cases scope name v
  · simp [same] at succeeds
  · simp [same] at succeeds
  · obtain rfl := nearest.unique (ordered.nearest?_eq_some_iff.mp found).1
    have counted : (fun u => u = home ∨ s.Binds name u) = s.Binds name :=
      funext fun u => propext (or_iff_right_of_imp fun here => here ▸ nearest.holds)
    rw [same, ← counted]
    exact ordered.sees_bind (allocated_of_binds nearest.holds) (.value v false)

/-- Each step outwards leads to an older scope. -/
theorem wellFounded : WellFounded fun outer inner => s.parent? inner = some outer :=
  Subrelation.wf (fun {outer inner} nested => ordered inner outer nested)
    (measure ScopeId.index).wf

end Ordered

theorem assign_of_refused {v : Value} (refused : (s.assign scope name v).1 ≠ none) :
    (s.assign scope name v).2 = s := by
  obtain ⟨-, same⟩ | ⟨-, -, -, same⟩ | ⟨_, _, -, -, same⟩ := s.assign_cases scope name v
  · rw [same]
  · rw [same]
  · simp [same] at refused

/-- However scopes came about, they are lexical environments. -/
theorem Grown.lexical (s : Scopes) (grown : s.Grown) : s.Lexical :=
  have ordered := grown.ordered
  { ends := ordered.wellFounded
    value := fun _ _ _ => ordered.lookup?_eq_value_iff
    function := fun _ _ _ _ => ordered.lookup?_eq_function_iff
    unbound := fun _ _ => ordered.lookup?_eq_none_iff
    define := fun _ here _ v constant => ordered.sees_bind here (.value v constant)
    defineFunction := fun _ here f => ordered.sees_bind here (.function f)
    assignable := fun _ _ _ => ordered.assign_eq_none_iff
    assigned := fun _ _ _ _ => ordered.sees_assign
    refused := fun _ _ _ refused _ _ => by rw [assign_of_refused refused]
    undefined := fun _ _ _ => ordered.assign_eq_undefined_iff }

/-- A scope with a constant, one in it with a variable of the same name, and one in that. -/
def shadowed : Scopes :=
  let outer := Scopes.empty.root.2.define ⟨0⟩ "k" .unit true
  (((outer.child ⟨0⟩).2.define ⟨1⟩ "k" (.bool true) false).child ⟨1⟩).2

theorem Grown.lexical_shadowed :
    shadowed.Grown ∧ (shadowed.assign ⟨2⟩ "k" (.bool false)).1 = none ∧
      (shadowed.assign ⟨2⟩ "k" (.bool false)).2.lookup? ⟨1⟩ "k" = some (.value (.bool false)) ∧
      (shadowed.assign ⟨2⟩ "k" (.bool false)).2.lookup? ⟨0⟩ "k" = shadowed.lookup? ⟨0⟩ "k" ∧
      (shadowed.assign ⟨0⟩ "k" (.bool false)).1 ≠ none := by
  have grown : shadowed.Grown :=
    .child (.define (.child (.define (.root .empty) (by decide) _ _ _) (by decide)) (by decide)
      _ _ _) (by decide)
  have lexical := Grown.lexical shadowed grown
  have outer : shadowed.bound? ⟨0⟩ "k" = some (.value .unit true) := rfl
  have middle : shadowed.bound? ⟨1⟩ "k" = some (.value (.bool true) false) := rfl
  have alone {u : ScopeId} (first : shadowed.Nearest "k" ⟨0⟩ u) : u = ⟨0⟩ :=
    first.unique (.here ⟨_, outer⟩)
  have nearest : shadowed.Nearest "k" ⟨2⟩ ⟨1⟩ :=
    .outwards (fun binds => by cases binds.choose_spec) rfl (.here ⟨_, middle⟩)
  have succeeds : (shadowed.assign ⟨2⟩ "k" (.bool false)).1 = none :=
    (lexical.assignable _ _ _).mpr ⟨_, _, nearest, middle, by simp [Binding.IsConstant]⟩
  have sees := lexical.assigned _ _ _ _ succeeds nearest
  refine ⟨grown, succeeds, (sees _ _).1 ⟨rfl, .here ⟨_, middle⟩⟩, (sees _ _).2 ?_, ?_⟩
  · rintro ⟨-, first⟩
    exact absurd (alone first) (by decide)
  · intro assigned
    obtain ⟨u, b, first, bound, variable_⟩ := (lexical.assignable _ _ _).mp assigned
    obtain rfl := alone first
    obtain rfl := Option.some.inj (outer.symm.trans bound)
    exact variable_ rfl

end Scopes

end Formwork
