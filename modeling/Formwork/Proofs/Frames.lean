import Formwork.Proofs.Passing
import Formwork.Script

/-!
# Scopes in order

A state of the machine is sane when every scope is nested in an older one, every function value
within reach was made in a scope that exists, and calls are not nested deeper than allowed. A safe
computation leads from sane states to sane ones, and leaves the scopes that it found as they are but
for the names it is free to define; variables may get other values.
-/

namespace Formwork

namespace Scopes

variable {s : Scopes} {scope : ScopeId} {name : String}

/-- The scope that binds a name exists, and it is bound there to what is found. -/
theorem nearest?_spec {found : ScopeId} {binding : Binding}
    (nearest : s.nearest? scope name = some (found, binding)) :
    ∃ frame, s.frames[found.index]? = some frame ∧ frame.find? name = some binding := by
  unfold nearest? at nearest
  generalize s.frames.size = fuel at nearest
  induction fuel generalizing scope with
  | zero => simp [nearestWithin] at nearest
  | succ fuel ih =>
      unfold nearestWithin at nearest
      split at nearest
      · cases nearest
      · rename_i frame at_scope
        split at nearest
        · rename_i b bound
          cases nearest
          exact ⟨frame, at_scope, bound⟩
        · split at nearest
          · cases nearest
          · exact ih nearest

theorem size_bind (s : Scopes) (scope : ScopeId) (name : String) (binding : Binding) :
    (s.bind scope name binding).frames.size = s.frames.size := by
  simp [bind]

theorem getElem?_bind (s : Scopes) (scope : ScopeId) (name : String) (binding : Binding) (i : Nat) :
    (s.bind scope name binding).frames[i]? =
      if scope.index = i then
        s.frames[i]?.map fun frame =>
          { frame with bindings := Scope.bind name binding frame.bindings }
      else s.frames[i]? := by
  simp [bind, Array.getElem?_modify]

end Scopes

/--
A scope has the same place and binds the same names as before, and its constants are the same, but
for the names in `free`, which may have been bound anew.
-/
structure Scope.Kept (free : String → Prop) (before after : Scope) : Prop where
  parent : after.parent = before.parent
  bound : ∀ name, ¬ free name → ((after.find? name).isSome ↔ (before.find? name).isSome)
  stays : ∀ name, (before.find? name).isSome → (after.find? name).isSome
  constant : ∀ name v, ¬ free name → before.find? name = some (.value v true) →
    after.find? name = some (.value v true)

namespace Scope.Kept

variable {free free' : String → Prop} {a b c : Scope}

theorem refl (free : String → Prop) (a : Scope) : a.Kept free a :=
  ⟨rfl, fun _ _ => Iff.rfl, fun _ bound => bound, fun _ _ _ constant => constant⟩

theorem trans (first : a.Kept free b) (second : b.Kept free c) : a.Kept free c where
  parent := second.parent.trans first.parent
  bound name kept := (second.bound name kept).trans (first.bound name kept)
  stays name bound := second.stays name (first.stays name bound)
  constant name v kept constant := second.constant name v kept (first.constant name v kept constant)

theorem mono (kept : a.Kept free b) (subset : ∀ name, free name → free' name) :
    a.Kept free' b where
  parent := kept.parent
  bound name closed := kept.bound name fun open_ => closed (subset name open_)
  stays := kept.stays
  constant name v closed := kept.constant name v fun open_ => closed (subset name open_)

/-- Binding a name keeps a scope if the name is free, or bound to something that is not constant. -/
theorem bind {name : String} {binding : Binding}
    (allowed : free name ∨ ∃ b, a.find? name = some b ∧ ∀ v, b ≠ .value v true) :
    a.Kept free { a with bindings := Scope.bind name binding a.bindings } := by
  have here : ({ a with bindings := Scope.bind name binding a.bindings } : Scope).find? name =
      some binding := lookup_bind name binding a.bindings
  have there {other : String} (ne : other ≠ name) :
      ({ a with bindings := Scope.bind name binding a.bindings } : Scope).find? other =
        a.find? other := lookup_bind_of_ne ne binding a.bindings
  refine ⟨rfl, fun other closed => ?_, fun other bound => ?_, fun other v closed constant => ?_⟩
  · by_cases same : other = name
    · subst same
      obtain ⟨b, bound, -⟩ := allowed.resolve_left closed
      simp [here, bound]
    · rw [there same]
  · by_cases same : other = name
    · subst same
      simp [here]
    · rwa [there same]
  · by_cases same : other = name
    · subst same
      obtain ⟨b, bound, variable_⟩ := allowed.resolve_left closed
      exact (variable_ v (Option.some.inj (bound.symm.trans constant))).elim
    · rwa [there same]

end Scope.Kept

namespace Machine

/-- A scope exists. -/
def Allocated (m : Machine) (scope : ScopeId) : Prop := scope.index < m.scopes.frames.size

/-- The function values that a value carries were made in scopes that exist. -/
def Sound (m : Machine) (v : Value) : Prop := ∀ c, m.world.heap.Carries v c → m.Allocated c.scope

/-- A state in which scopes, function values and calls are in order. -/
structure Sane (globals : ScopeId) (m : Machine) : Prop where
  home : m.Allocated globals
  ordered : ∀ {i : Nat} {frame : Scope}, m.scopes.frames[i]? = some frame →
    ∀ parent, frame.parent = some parent → parent.index < i
  held : ∀ {i : Nat} {frame : Scope}, m.scopes.frames[i]? = some frame →
    ∀ name v constant, frame.find? name = some (.value v constant) → m.Sound v
  depth : m.meter.depth ≤ m.meter.budget.maxCallDepth
  deepest : m.meter.deepest ≤ m.meter.budget.maxCallDepth

/-- What exists and what is sound stays so. -/
structure Extends (m m' : Machine) : Prop where
  allocated {scope : ScopeId} (here : m.Allocated scope) : m'.Allocated scope
  sound {v : Value} (sound : m.Sound v) : m'.Sound v

/-- The scopes that exist are kept, each but for the names that are free in it. -/
structure Kept (free : Nat → String → Prop) (m m' : Machine) : Prop where
  frames : ∀ (i : Nat) (frame : Scope), m.scopes.frames[i]? = some frame →
    ∃ frame' : Scope, m'.scopes.frames[i]? = some frame' ∧ frame.Kept (free i) frame'
  depth : m'.meter.depth = m.meter.depth

/-- From one state to a later one everything stays in order. -/
structure Proceeds (globals : ScopeId) (free : Nat → String → Prop) (m m' : Machine) : Prop where
  sane : m'.Sane globals
  later : m.Extends m'
  kept : m.Kept free m'

variable {globals : ScopeId} {free : Nat → String → Prop} {m m' m'' : Machine}

theorem Extends.refl (m : Machine) : m.Extends m := ⟨fun here => here, fun sound => sound⟩

theorem Extends.trans (first : m.Extends m') (second : m'.Extends m'') : m.Extends m'' :=
  ⟨fun here => second.allocated (first.allocated here),
    fun sound => second.sound (first.sound sound)⟩

theorem Kept.refl (free : Nat → String → Prop) (m : Machine) : m.Kept free m :=
  ⟨fun _ frame at_i => ⟨frame, at_i, .refl _ frame⟩, rfl⟩

theorem Kept.trans (first : m.Kept free m') (second : m'.Kept free m'') : m.Kept free m'' where
  frames i frame at_i := by
    obtain ⟨frame', at_i', kept⟩ := first.frames i frame at_i
    obtain ⟨frame'', at_i'', kept'⟩ := second.frames i frame' at_i'
    exact ⟨frame'', at_i'', kept.trans kept'⟩
  depth := second.depth.trans first.depth

theorem Sane.entered (sane : m.Sane globals)
    (shallow : m.meter.depth < m.meter.budget.maxCallDepth) : m.entered.Sane globals :=
  ⟨sane.home, sane.ordered, sane.held, shallow, Nat.max_le.mpr ⟨sane.deepest, shallow⟩⟩

namespace Proceeds

theorem refl (sane : m.Sane globals) : m.Proceeds globals free m := ⟨sane, .refl m, .refl free m⟩

theorem trans (first : m.Proceeds globals free m') (second : m'.Proceeds globals free m'') :
    m.Proceeds globals free m'' :=
  ⟨second.sane, first.later.trans second.later, first.kept.trans second.kept⟩

theorem counted (sane : m.Sane globals) : m.Proceeds globals free m.counted :=
  ⟨⟨sane.home, sane.ordered, sane.held, sane.depth, sane.deepest⟩,
    ⟨fun here => here, fun sound => sound⟩, ⟨fun _ frame at_i => ⟨frame, at_i, .refl _ frame⟩, rfl⟩⟩

/-- A call that is entered and left again leaves the depth of calls as it was. -/
theorem ofCall (body : m.entered.Proceeds globals free m') : m.Proceeds globals free m'.left where
  sane :=
    { home := body.sane.home
      ordered := body.sane.ordered
      held := body.sane.held
      depth := Nat.le_trans (Nat.sub_le _ _) body.sane.depth
      deepest := body.sane.deepest }
  later := ⟨body.later.allocated, body.later.sound⟩
  kept :=
    { frames := body.kept.frames
      depth := by
        show m'.meter.depth - 1 = m.meter.depth
        rw [body.kept.depth]
        rfl }

/-- An action that makes no function values leaves everything in order. -/
theorem ofWorld {w : World} {given : List Value} (sane : m.Sane globals)
    (passes : Heap.PassesOn given m.world.heap w.heap) (sound : ∀ u ∈ given, m.Sound u) :
    m.Proceeds globals free { m with world := w } := by
  have stays {v : Value} (old : m.Sound v) : ({ m with world := w } : Machine).Sound v := by
    intro c carries
    obtain before | ⟨u, mem, before⟩ := passes v c carries
    · exact old c before
    · exact sound u mem c before
  exact ⟨⟨sane.home, sane.ordered, fun at_i name v constant bound =>
      stays (sane.held at_i name v constant bound), sane.depth, sane.deepest⟩,
    ⟨fun here => here, stays⟩, ⟨fun _ frame at_i => ⟨frame, at_i, .refl _ frame⟩, rfl⟩⟩

/-- A new scope is nested in one that exists. -/
theorem child {parent : ScopeId} (sane : m.Sane globals) (here : m.Allocated parent) :
    m.Proceeds globals free { m with scopes := (m.scopes.child parent).2 } := by
  have at_i (i : Nat) : (m.scopes.child parent).2.frames[i]? =
      if i = m.scopes.frames.size then some ⟨[], some parent⟩ else m.scopes.frames[i]? :=
    Array.getElem?_push
  have size : (m.scopes.child parent).2.frames.size = m.scopes.frames.size + 1 :=
    Array.size_push _
  have allocated {scope : ScopeId} (here : m.Allocated scope) :
      ({ m with scopes := (m.scopes.child parent).2 } : Machine).Allocated scope := by
    simpa only [Allocated, size] using Nat.lt_succ_of_lt here
  refine ⟨⟨allocated sane.home, ?_, ?_, sane.depth, sane.deepest⟩,
    ⟨allocated, fun sound c carries => allocated (sound c carries)⟩, ⟨?_, rfl⟩⟩
  · intro i frame found p nested
    rw [at_i] at found
    split at found
    · rename_i last
      cases found
      cases nested
      exact last ▸ here
    · exact sane.ordered found p nested
  · intro i frame found name v constant bound c carries
    rw [at_i] at found
    split at found
    · cases found
      simp [Scope.find?] at bound
    · exact allocated (sane.held found name v constant bound c carries)
  · intro i frame found
    have old : i ≠ m.scopes.frames.size :=
      Nat.ne_of_lt (Array.getElem?_eq_some_iff.mp found).1
    exact ⟨frame, by simpa only [at_i, if_neg old] using found, .refl _ frame⟩

/-- A name is bound to a sound value or to a function, where it is free or not a constant. -/
theorem bind {scope : ScopeId} {name : String} {binding : Binding} (sane : m.Sane globals)
    (sound : ∀ v constant, binding = .value v constant → m.Sound v)
    (allowed : ∀ frame : Scope, m.scopes.frames[scope.index]? = some frame →
      free scope.index name ∨ ∃ b, frame.find? name = some b ∧ ∀ v, b ≠ .value v true) :
    m.Proceeds globals free { m with scopes := m.scopes.bind scope name binding } := by
  have size := m.scopes.size_bind scope name binding
  have at_i := m.scopes.getElem?_bind scope name binding
  have allocated {other : ScopeId} (here : m.Allocated other) :
      ({ m with scopes := m.scopes.bind scope name binding } : Machine).Allocated other := by
    simpa only [Allocated, size] using here
  refine ⟨⟨allocated sane.home, ?_, ?_, sane.depth, sane.deepest⟩,
    ⟨allocated, fun sound c carries => allocated (sound c carries)⟩, ⟨?_, rfl⟩⟩
  · intro i frame found p nested
    rw [at_i] at found
    split at found
    · obtain ⟨old, here, rfl⟩ := Option.map_eq_some_iff.mp found
      exact sane.ordered here p nested
    · exact sane.ordered found p nested
  · intro i frame found other v constant bound c carries
    refine allocated ?_
    rw [at_i] at found
    split at found
    · obtain ⟨old, here, rfl⟩ := Option.map_eq_some_iff.mp found
      by_cases same : other = name
      · subst same
        have new : binding = .value v constant :=
          Option.some.inj ((Scope.lookup_bind other binding old.bindings).symm.trans bound)
        exact sound v constant new c carries
      · have kept : old.find? other = some (.value v constant) :=
          (Scope.lookup_bind_of_ne same binding old.bindings).symm.trans bound
        exact sane.held here other v constant kept c carries
    · exact sane.held found other v constant bound c carries
  · intro i frame found
    show ∃ frame', (m.scopes.bind scope name binding).frames[i]? = some frame' ∧ _
    rw [at_i]
    split
    · rename_i same
      subst same
      exact ⟨_, by rw [found]; rfl, .bind (allowed frame found)⟩
    · exact ⟨frame, found, .refl _ frame⟩

end Proceeds

end Machine

end Formwork
