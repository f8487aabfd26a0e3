import Formwork.Value.Basic

/-!
# Scopes

A scope binds names and may be nested in another one. Scopes are numbered in the order they are made
and are never given up, so that a function can refer to the scope it was made in. A name means what
the nearest scope that binds it says: `Scopes.nearest?`.
-/

namespace Formwork

/-- What a name stands for in a scope. -/
inductive Binding where
  /-- A variable or constant. -/
  | value (value : Value) (constant : Bool)
  /-- A function defined in the scope. -/
  | function (definition : FunctionDef)

/-- One scope. -/
structure Scope where
  /-- The names it binds. -/
  bindings : List (String × Binding)
  /-- The scope it is nested in. -/
  parent : Option ScopeId
deriving Inhabited

namespace Scope

/-- What a scope itself binds a name to. -/
def find? (s : Scope) (name : String) : Option Binding := s.bindings.lookup name

/-- Bindings where a name stands for something, whatever it stood for before. -/
def bind (name : String) (binding : Binding) :
    List (String × Binding) → List (String × Binding)
  | [] => [(name, binding)]
  | (other, b) :: rest =>
    if name == other then (name, binding) :: rest else (other, b) :: bind name binding rest

@[simp]
theorem lookup_bind (name : String) (binding : Binding) (bindings : List (String × Binding)) :
    (bind name binding bindings).lookup name = some binding := by
  induction bindings with
  | nil => simp [bind]
  | cons entry rest ih =>
    obtain ⟨other, b⟩ := entry
    by_cases h : name = other
    · simp [bind, h]
    · simp [bind, List.lookup_cons, beq_eq_false_iff_ne.2 h, ih]

theorem lookup_bind_of_ne {name other : String} (hne : other ≠ name) (binding : Binding)
    (bindings : List (String × Binding)) :
    (bind name binding bindings).lookup other = bindings.lookup other := by
  induction bindings with
  | nil => simp [bind, List.lookup_cons, beq_eq_false_iff_ne.2 hne]
  | cons entry rest ih =>
    obtain ⟨key, b⟩ := entry
    by_cases h : name = key
    · subst h
      simp [bind, List.lookup_cons, beq_eq_false_iff_ne.2 hne]
    · simp [bind, List.lookup_cons, beq_eq_false_iff_ne.2 h, ih]

end Scope

/-- All scopes of one run. -/
structure Scopes where
  /-- The scopes in the order they were made. -/
  frames : Array Scope
deriving Inhabited

/-- What a name stands for where it is used. -/
inductive Meaning where
  /-- The value of a variable or constant. -/
  | value (value : Value)
  /-- A function and the scope it is defined in. -/
  | function (definition : FunctionDef) (scope : ScopeId)

/-- Why a name cannot be given another value. -/
inductive AssignError where
  | undefined
  | constant
deriving DecidableEq, Repr

namespace Scopes

/-- No scopes. -/
def empty : Scopes := ⟨#[]⟩

/-- A new scope. -/
def make (s : Scopes) (parent : Option ScopeId) : ScopeId × Scopes :=
  (⟨s.frames.size⟩, ⟨s.frames.push ⟨[], parent⟩⟩)

/-- A new scope that is nested in no other. -/
def root (s : Scopes) : ScopeId × Scopes := s.make none

/-- A new scope nested in another one. -/
def child (s : Scopes) (parent : ScopeId) : ScopeId × Scopes := s.make (some parent)

/-- A name stands for something in a scope from now on. -/
def bind (s : Scopes) (scope : ScopeId) (name : String) (binding : Binding) : Scopes :=
  ⟨s.frames.modify scope.index fun frame =>
    { frame with bindings := Scope.bind name binding frame.bindings }⟩

/-- Defines a variable or constant. -/
def define (s : Scopes) (scope : ScopeId) (name : String) (value : Value) (constant : Bool) :
    Scopes :=
  s.bind scope name (.value value constant)

/-- Defines a function under its own name. -/
def defineFunction (s : Scopes) (scope : ScopeId) (definition : FunctionDef) : Scopes :=
  s.bind scope definition.displayName (.function definition)

/-- The first scope that binds a name, going outwards through at most `fuel` scopes. -/
def nearestWithin (s : Scopes) (name : String) : Nat → ScopeId → Option (ScopeId × Binding)
  | 0, _ => none
  | fuel + 1, scope =>
    match s.frames[scope.index]? with
    | none => none
    | some frame =>
      match frame.find? name with
      | some binding => some (scope, binding)
      | none =>
        match frame.parent with
        | none => none
        | some parent => nearestWithin s name fuel parent

/-- The nearest scope that binds a name, and what it binds the name to. -/
def nearest? (s : Scopes) (scope : ScopeId) (name : String) : Option (ScopeId × Binding) :=
  s.nearestWithin name s.frames.size scope

/-- What a name stands for in a scope and those around it. -/
def lookup? (s : Scopes) (scope : ScopeId) (name : String) : Option Meaning :=
  match s.nearest? scope name with
  | none => none
  | some (_, .value value _) => some (.value value)
  | some (found, .function definition) => some (.function definition found)

/-- Gives the nearest variable of a name another value; nothing changes when it is refused. -/
def assign (s : Scopes) (scope : ScopeId) (name : String) (value : Value) :
    Option AssignError × Scopes :=
  match s.nearest? scope name with
  | none => (some .undefined, s)
  | some (_, .value _ true) => (some .constant, s)
  | some (found, _) => (none, s.bind found name (.value value false))

end Scopes

end Formwork
