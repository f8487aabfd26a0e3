import Formwork.Proofs.Budget
import Formwork.Proofs.Locality
import Formwork.Proofs.Safe

/-!
# Scope discipline

However a program is run, and however it ends, scopes stay in order: expressions define nothing,
statements define only what they say and only where they stand, constants stay what they are, every
scope is nested in an older one, and every function value refers to a scope that exists.
`Machine.Reached` are the states that running programs leads to. Those that arise from a closed
start with the standard builtin functions are among them, unless calls were nested too deep:
`Machine.Arises.reached`.
-/

namespace Formwork

/-- No name is free in any scope. -/
def nowhere : Nat → String → Prop := fun _ _ => False

/-- Every name is free in every scope. -/
def anywhere : Nat → String → Prop := fun _ _ => True

/-- Some names are free in one scope. -/
def only (scope : ScopeId) (names : List String) : Nat → String → Prop :=
  fun i name => i = scope.index ∧ name ∈ names

namespace Context

variable {context : Context} {free : Nat → String → Prop} {base : Machine}
  {scope globals : ScopeId}

/-- A context for programs that run in a given global scope. -/
structure Fits (context : Context) (globals : ScopeId) : Prop where
  globals : context.globals = globals
  passing : context.builtins.Passing

theorem Fits.evaluate (fits : context.Fits globals) (e : Expr) (here : base.Allocated scope) :
    (context.evaluate e scope).Safe globals free base fun v m => m.Sound v := by
  obtain ⟨rfl, passing⟩ := fits
  exact withParts_safe passing fun _ safe => safe.expr e here

theorem Fits.execute (fits : context.Fits globals) (s : Stmt) (here : base.Allocated scope)
    (allowed : ∀ name ∈ s.defined, free scope.index name) :
    (context.execute s scope).Safe globals free base fun flow m => m.Sound flow.value := by
  obtain ⟨rfl, passing⟩ := fits
  exact withParts_safe passing fun _ safe => safe.stmt s here allowed

theorem Fits.executeBlock (fits : context.Fits globals) (b : Block) (here : base.Allocated scope)
    (allowed : ∀ name ∈ b.defined, free scope.index name) :
    (context.executeBlock b scope).Safe globals free base fun flow m => m.Sound flow.value := by
  obtain ⟨rfl, passing⟩ := fits
  exact withParts_safe passing fun _ safe => safe.block b here allowed

theorem Fits.call (fits : context.Fits globals) (f : FunctionDef) {captured : ScopeId}
    (args : List Value) (home : base.Allocated captured) (sound : ∀ v ∈ args, base.Sound v) :
    (context.call f captured args).Safe globals free base fun v m => m.Sound v := by
  obtain ⟨rfl, passing⟩ := fits
  exact withParts_safe passing fun _ safe => safe.call f args home sound

theorem Fits.callNamed (fits : context.Fits globals) (f : FunctionDef) {captured : ScopeId}
    (bindings : List (String × Value)) (home : base.Allocated captured)
    (sound : ∀ binding ∈ bindings, base.Sound binding.2) :
    (context.callNamed f captured bindings).Safe globals free base fun v m => m.Sound v := by
  obtain ⟨rfl, passing⟩ := fits
  exact withParts_safe passing fun _ safe => safe.callNamed f bindings home sound

end Context

namespace Job

variable {context : Context} {globals : ScopeId} {base : Machine}

/-- A job for a given global scope whose scopes exist and whose values are sound. -/
structure Suits (job : Job) (context : Context) (globals : ScopeId) (m : Machine) : Prop where
  fits : context.Fits globals
  here : ∀ s ∈ job.scopes, m.Allocated s
  sound : ∀ v ∈ job.values, m.Sound v

/-- Whatever is run, everything stays in order, and what is given out is sound. -/
theorem Suits.run {job : Job} (suits : job.Suits context globals base)
    (home : base.Allocated globals) :
    (job.run context).Safe globals anywhere base fun flow m => m.Sound flow.value := by
  have ofValue {x : Eval Value} (safe : x.Safe globals anywhere base fun v m => m.Sound v) :
      Eval.Safe globals anywhere base (do return Flow.normal (← x) : Eval Flow)
        fun flow m => m.Sound flow.value :=
    .bind safe fun _ _ _ sound => .pure fun _ later => later.sound sound
  obtain ⟨fits, here, sound⟩ := suits
  cases job with
  | evaluate e scope => exact ofValue (fits.evaluate e (here scope (by simp [scopes])))
  | execute s scope => exact fits.execute s (here scope (by simp [scopes])) fun _ _ => trivial
  | executeBlock b scope =>
      exact fits.executeBlock b (here scope (by simp [scopes])) fun _ _ => trivial
  | call f captured args =>
      exact ofValue (fits.call f args (here captured (by simp [scopes])) sound)
  | callNamed f captured bindings =>
      exact ofValue (fits.callNamed f bindings (here captured (by simp [scopes]))
        fun binding mem => sound binding.2 (List.mem_map_of_mem mem))
  | defineGlobals =>
      obtain ⟨rfl, passing⟩ := fits
      refine .bind (Context.defineGlobals_safe passing home fun _ _ _ _ => trivial)
        fun _ _ _ _ => .pure fun m _ c carries => ?_
      exact absurd carries (Heap.not_carries_unit c)

end Job

namespace Machine

/-- The value that a run gives out, unless it fails. -/
def results : Except EvalError Flow → List Value
  | .ok flow => [flow.value]
  | .error _ => []

/--
The states that running programs leads to, from the start of a machine on, with the values that were
given out on the way. Programs are run in scopes that exist, and are given only values whose
functions were made in scopes that exist. Runs may fail, and states in the middle of a run count,
where calls are nested no deeper than allowed.
-/
inductive Reached : ScopeId → List Value → Machine → Prop
  | start (budget : Budget) (clock : Clock) (world : World) :
      Reached (start budget clock world).1 [] (start budget clock world).2
  | run {globals : ScopeId} {vs : List Value} {m m' : Machine} {context : Context} {job : Job}
      {r : Except EvalError Flow} (reached : Reached globals vs m)
      (suits : job.Suits context globals m) (ends : (job.run context).Ends m r m') :
      Reached globals (results r ++ vs) m'
  | move {globals : ScopeId} {vs : List Value} {m m' : Machine} (reached : Reached globals vs m)
      (move : Move Sound m m') (shallow : m'.meter.depth ≤ m'.meter.budget.maxCallDepth) :
      Reached globals vs m'

variable {globals : ScopeId} {vs : List Value} {m m' : Machine}

theorem start_sane (budget : Budget) (clock : Clock) (world : World) :
    (start budget clock world).2.Sane (start budget clock world).1 := by
  have frame {i : Nat} {frame : Scope}
      (found : (start budget clock world).2.scopes.frames[i]? = some frame) :
      frame = ⟨[], none⟩ := by
    cases i with
    | zero => exact (Option.some.inj found).symm
    | succ i => simp [start, Scopes.root, Scopes.make, Scopes.empty] at found
  refine ⟨Nat.zero_lt_one, ?_, ?_, Nat.zero_le _, Nat.zero_le _⟩
  · intro i scope found parent nested
    rw [frame found] at nested
    cases nested
  · intro i scope found name v constant bound
    rw [frame found] at bound
    cases bound

/-- A move leaves a sane state sane, unless a call is entered too deep. -/
theorem Move.sane (move : Move Sound m m') (sane : m.Sane globals)
    (shallow : m'.meter.depth ≤ m'.meter.budget.maxCallDepth) :
    m'.Sane globals ∧ m.Extends m' := by
  have proceeds {m'} (proceeds : m.Proceeds globals anywhere m') :
      m'.Sane globals ∧ m.Extends m' := ⟨proceeds.sane, proceeds.later⟩
  have entries_sound {entries : Entries}
      (given : ∀ entry ∈ entries, m.Sound entry.1 ∧ m.Sound entry.2) (v : Value)
      (mem : v ∈ entryValues entries) : m.Sound v := by
    obtain ⟨entry, listed, rfl | rfl⟩ := mem_entryValues.mp mem
    · exact (given entry listed).1
    · exact (given entry listed).2
  cases move with
  | count => exact proceeds (.counted sane)
  | enter => exact ⟨sane.entered shallow, fun here => here, fun sound => sound⟩
  | leave =>
      exact ⟨⟨sane.home, sane.ordered, sane.held, Nat.le_trans (Nat.sub_le _ _) sane.depth,
        sane.deepest⟩, fun here => here, fun sound => sound⟩
  | child here => exact proceeds (.child sane here)
  | bind scope name given => exact proceeds (.bind sane given fun _ _ => .inl trivial)
  | newList given => exact proceeds (.ofWorld sane (Heap.adds_newList _).passesOn given)
  | newMap given =>
      exact proceeds (.ofWorld sane (Heap.adds_newMap _).passesOn (entries_sound given))
  | newFunction definition scope =>
      exact proceeds (.ofWorld sane (Heap.adds_newFunction definition scope).passesOn (by simp))
  | pushItem id given =>
      exact proceeds (.ofWorld sane (Heap.adds_pushItem id _).passesOn (by simpa using given))
  | setItem id index given =>
      exact proceeds (.ofWorld sane (Heap.adds_setItem id index _).passesOn (by simpa using given))
  | setEntries id given =>
      exact proceeds (.ofWorld sane (Heap.adds_setEntries id _).passesOn (entries_sound given))
  | print line => exact proceeds (.ofWorld sane (.refl [] _) (by simp))

/-- In every reached state all is in order, and all values that were given out are sound. -/
theorem Reached.sane (reached : Reached globals vs m) :
    m.Sane globals ∧ ∀ v ∈ vs, m.Sound v := by
  induction reached with
  | start budget clock world => exact ⟨start_sane budget clock world, by simp⟩
  | @run _ _ _ _ _ _ r _ suits ends ih =>
      obtain ⟨sane, sounds⟩ := ih
      obtain ⟨proceeds, result⟩ := suits.run sane.home (.refl _) sane ends
      refine ⟨proceeds.sane, fun v mem => ?_⟩
      obtain new | old := List.mem_append.mp mem
      · cases r with
        | error e => cases new
        | ok flow =>
            obtain rfl := List.mem_singleton.mp new
            exact result flow rfl
      · exact proceeds.later.sound (sounds v old)
  | move _ move shallow ih =>
      obtain ⟨sane, later⟩ := move.sane ih.1 shallow
      exact ⟨sane, fun v mem => later.sound (ih.2 v mem)⟩

/--
Scope discipline. In every state that running programs leads to, each scope is nested in an older
one, all function values within reach of a scope or of a value that was given out were made in
scopes that exist, and calls are and were nested no deeper than allowed. From there, whatever the
outcome, evaluating an expression keeps all scopes and the depth of calls, and executing a statement
or a block keeps them but for the names that it defines in its own scope.
-/
theorem Reached.discipline (reached : Reached globals vs m) :
    (∀ (i : Nat) (frame : Scope), m.scopes.frames[i]? = some frame →
      ∀ parent, frame.parent = some parent → parent.index < i) ∧
    (∀ (i : Nat) (frame : Scope), m.scopes.frames[i]? = some frame →
      ∀ name v constant, frame.find? name = some (.value v constant) →
        ∀ c, m.world.heap.Carries v c → m.Allocated c.scope) ∧
    (∀ v ∈ vs, ∀ c, m.world.heap.Carries v c → m.Allocated c.scope) ∧
    m.meter.depth ≤ m.meter.budget.maxCallDepth ∧
    m.meter.deepest ≤ m.meter.budget.maxCallDepth ∧
    ∀ context : Context, context.Fits globals → ∀ scope, m.Allocated scope →
      (∀ e r m', (context.evaluate e scope).Ends m r m' → m.Kept nowhere m') ∧
      (∀ s r m', (context.execute s scope).Ends m r m' → m.Kept (only scope s.defined) m') ∧
      (∀ b r m', (context.executeBlock b scope).Ends m r m' →
        m.Kept (only scope b.defined) m') := by
  obtain ⟨sane, sounds⟩ := reached.sane
  refine ⟨fun i frame => sane.ordered, fun i frame => sane.held, sounds, sane.depth, sane.deepest,
    fun context fits scope here => ⟨fun e r m' ends => ?_, fun s r m' ends => ?_,
      fun b r m' ends => ?_⟩⟩
  · exact (fits.evaluate e here (.refl m) sane ends).1.kept
  · exact (fits.execute s here (fun name mem => ⟨rfl, mem⟩) (.refl m) sane ends).1.kept
  · exact (fits.executeBlock b here (fun name mem => ⟨rfl, mem⟩) (.refl m) sane ends).1.kept

/-- The definition of a constant. -/
def constantDefinition : Stmt :=
  .define ⟨⟨"bool", default⟩, ⟨"k", default⟩, .bool true default, true, default⟩

theorem Reached.discipline_constant :
    ∃ m, Reached ⟨0⟩ [.unit] m ∧
      ∀ e r m', (Context.evaluate ⟨.standard, none, ⟨0⟩⟩ e ⟨0⟩).Ends m r m' →
        ∃ frame, m'.scopes.frames[0]? = some frame ∧
          frame.find? "k" = some (.value (.bool true) true) := by
  have fits : Context.Fits ⟨.standard, none, ⟨0⟩⟩ ⟨0⟩ := ⟨rfl, Registry.standard_passing⟩
  have first : Reached ⟨0⟩ [] (Machine.start ⟨10, 0, 1⟩ (fun _ => 0) ⟨.empty, #[]⟩).2 :=
    .start ⟨10, 0, 1⟩ (fun _ => 0) ⟨.empty, #[]⟩
  obtain ⟨m, ends, bound⟩ : ∃ m,
      (Context.execute ⟨.standard, none, ⟨0⟩⟩ constantDefinition ⟨0⟩).Ends
        (Machine.start ⟨10, 0, 1⟩ (fun _ => 0) ⟨.empty, #[]⟩).2 (.ok (.normal .unit)) m ∧
      m.scopes.frames[0]? = some ⟨[("k", .value (.bool true) true)], none⟩ := ⟨_, rfl, rfl⟩
  have suits : (Job.execute constantDefinition ⟨0⟩).Suits ⟨.standard, none, ⟨0⟩⟩ ⟨0⟩
      (Machine.start ⟨10, 0, 1⟩ (fun _ => 0) ⟨.empty, #[]⟩).2 :=
    ⟨fits, List.forall_mem_singleton.mpr Nat.zero_lt_one, by simp [Job.values]⟩
  have reached : Reached ⟨0⟩ [.unit] m := first.run suits ends
  refine ⟨m, reached, fun e r m' ends => ?_⟩
  obtain ⟨-, -, -, -, -, kept⟩ := reached.discipline
  have here : m.Allocated ⟨0⟩ := (Array.getElem?_eq_some_iff.mp bound).1
  obtain ⟨frame, found, same⟩ := ((kept _ fits ⟨0⟩ here).1 e r m' ends).frames 0 _ bound
  exact ⟨frame, found, same.constant "k" _ (fun free => free) rfl⟩

/-! ## States that arise -/

theorem content?_of_mem_items {i : Nat} {v : Value} (mem : v ∈ m.world.heap.items i) :
    m.content? .list i = some (.list (m.world.heap.items i)) := by
  cases at_i : m.world.heap.lists[i]? with
  | none => simp [Heap.items, at_i] at mem
  | some items => simp [content?, Heap.items, at_i]

theorem content?_of_mem_entries {i : Nat} {entry : Value × Value}
    (mem : entry ∈ m.world.heap.entries i) :
    m.content? .map i = some (.map (m.world.heap.entries i)) := by
  cases at_i : m.world.heap.maps[i]? with
  | none => simp [Heap.entries, at_i] at mem
  | some entries => simp [content?, Heap.entries, at_i]

/-- Where all that is named exists, so does all that what stands in a collection names. -/
theorem Closed.knows_inside (closed : m.Closed) {v x : Value} (inside : m.world.heap.Inside v x) :
    m.Knows x := by
  cases inside with
  | item mem =>
      exact closed.knows (content?_of_mem_items mem) (.item (Array.mem_toList_iff.mpr mem))
  | key mem => exact closed.knows (content?_of_mem_entries mem) (.key mem)
  | value mem => exact closed.knows (content?_of_mem_entries mem) (.value mem)

/-- Where all that is named exists, the functions of a value were made in scopes that exist. -/
theorem Closed.sound (closed : m.Closed) {v : Value} (knows : m.Knows v) : m.Sound v := by
  intro c carries
  induction carries with
  | self c => exact knows (.home c)
  | inside inside _ ih => exact ih (closed.knows_inside inside)

end Machine

theorem Job.run_inStep (job : Job) {context : Context} {left right : Nat}
    (quiet : context.builtins.All fun builtin => ∀ args, (builtin args).Quiet) :
    Eval.InStep left right (job.run context) (job.run context) := by
  have ofValue {x : Eval Value} (step : Eval.InStep left right x x) :
      Eval.InStep left right (do return Flow.normal (← x) : Eval Flow) (do return .normal (← x)) :=
    .bind step fun v => .pure (Flow.normal v)
  cases job with
  | evaluate e scope =>
      exact ofValue (Context.withParts_inStep quiet fun step => step.expr e scope)
  | execute s scope => exact Context.withParts_inStep quiet fun step => step.stmt s scope
  | executeBlock b scope =>
      exact Context.withParts_inStep quiet fun step => step.stmts scope .unit b.stmts
  | call f captured args =>
      exact ofValue (Context.withParts_inStep quiet fun step => step.call f captured args)
  | callNamed f captured bindings =>
      exact ofValue (Context.callNamed_inStep quiet f captured bindings)
  | defineGlobals =>
      exact .bind (Context.defineGlobals_inStep quiet) fun _ => .pure (Flow.normal .unit)

/-- Whatever is run, it only counts upwards. -/
theorem Job.Fits.progress {job : Job} {context : Context} {globals : ScopeId} {m m' : Machine}
    {r : Except EvalError Flow} (fits : job.Fits context globals m)
    (ends : (job.run context).Ends m r m') : m.Progress m' := by
  have step : Eval.InStep (m.meter.remaining + 1) 0 (job.run context) (job.run context) :=
    job.run_inStep (fits.standard ▸ Registry.standard_quiet)
  exact step.progress (Nat.lt_succ_self _) ends

namespace Machine

theorem Arises.depth_le_deepest (arises : Arises globals m) :
    m.meter.depth ≤ m.meter.deepest := by
  induction arises with
  | start => exact Nat.le_refl 0
  | run _ fits ends ih =>
      have progress := fits.progress ends
      rw [progress.depth]
      exact Nat.le_trans ih progress.deepest
  | move _ move ih => exact move.depth_le_deepest ih

/-- A state that arises is reached, unless calls were nested too deep on the way. -/
theorem Arises.reached (arises : Arises globals m)
    (shallow : m.meter.deepest ≤ m.meter.budget.maxCallDepth) : ∃ vs, Reached globals vs m := by
  induction arises with
  | start => exact ⟨[], .start _ _ _⟩
  | @run globals m n context job r arises fits ends ih =>
      have progress := fits.progress ends
      obtain ⟨vs, reached⟩ := ih (progress.budget ▸ Nat.le_trans progress.deepest shallow)
      have suits : job.Suits context globals m :=
        ⟨⟨fits.globals, fits.standard ▸ Registry.standard_passing⟩, fits.here,
          fun v mem => arises.closed.1.sound (fits.known v mem)⟩
      exact ⟨_, reached.run suits ends⟩
  | @move globals m n arises move ih =>
      obtain ⟨le, budget⟩ := move.deepest_le
      obtain ⟨vs, reached⟩ := ih (budget ▸ Nat.le_trans le shallow)
      have within : n.meter.depth ≤ n.meter.deepest := (arises.move move).depth_le_deepest
      exact ⟨vs, reached.move (move.mono fun _ => arises.closed.1.sound)
        (Nat.le_trans within shallow)⟩

end Machine

end Formwork
