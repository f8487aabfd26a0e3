import Formwork.Proofs.Jobs
import Formwork.Proofs.Reach

/-!
# Lexical scoping as locality

Running something in a scope depends on what can be reached from that scope, the global scope and
the values that are given, and it changes nothing else. `Machine.Arises` are the states that running
programs leads to, states in the middle of a run among them; all of them are closed, since a run
that keeps each thing paired with itself also keeps whatever it makes. Locality is then the same
statement about runs that agree, for the pairing of all that is within reach.
-/

namespace Formwork

namespace Job

/-- What is reached from the scopes and values that a job is given and from the global scope. -/
def Reach (job : Job) (globals : ScopeId) (m : Machine) : Thing → Nat → Prop :=
  m.Reach (globals :: job.scopes) job.values

/-- A job with the standard builtin functions whose scopes and values exist. -/
structure Fits (job : Job) (context : Context) (globals : ScopeId) (m : Machine) : Prop where
  standard : context.builtins = .standard
  globals : context.globals = globals
  here : ∀ s ∈ job.scopes, m.Allocated s
  known : ∀ v ∈ job.values, m.Knows v

/-- A job has the same outcome where its scopes and values stand for themselves. -/
theorem run_agree (job : Job) {context : Context} (builtins : context.builtins.Impartial)
    {ρ : Pairing} (home : ρ .scope context.globals.index context.globals.index)
    (here : ∀ s ∈ job.scopes, ρ .scope s.index s.index)
    (related : ∀ v ∈ job.values, ρ.Relates v v) :
    (job.run context).Agree ρ (job.run context) Pairing.RelatesFlow := by
  have ofValue {x : Eval Value} (agree : x.Agree ρ x Pairing.Relates) :
      Eval.Agree ρ (do return .normal (← x)) (do return .normal (← x)) Pairing.RelatesFlow :=
    .bind agree fun _ _ _ _ related => .pure fun _ more => .normal (related.mono more)
  cases job with
  | evaluate e scope =>
      exact ofValue (Context.withParts_agree builtins fun parts impartial =>
        impartial.expr e ⟨home, here scope (by simp [scopes])⟩)
  | execute s scope =>
      exact Context.withParts_agree builtins fun parts impartial =>
        impartial.stmt s ⟨home, here scope (by simp [scopes])⟩
  | executeBlock b scope =>
      exact Context.withParts_agree builtins fun parts impartial =>
        impartial.block b ⟨home, here scope (by simp [scopes])⟩
  | call f captured args =>
      exact ofValue (Context.withParts_agree builtins fun parts impartial =>
        impartial.call f ⟨home, here captured (by simp [scopes])⟩ (List.forall₂_same.mpr related))
  | callNamed f captured bindings =>
      refine ofValue (Context.withParts_agree builtins fun parts impartial =>
        impartial.callNamed f ⟨home, here captured (by simp [scopes])⟩ ?_)
      exact List.forall₂_same.mpr fun binding mem =>
        ⟨rfl, related binding.2 (List.mem_map_of_mem mem)⟩
  | defineGlobals =>
      exact .bind (Context.defineGlobals_agree builtins home) fun _ _ _ _ _ =>
        .pure fun _ _ => .normal .unit

end Job

theorem Scope.mem_bind {name : String} {binding : Binding} {x : String × Binding}
    {bindings : List (String × Binding)} (mem : x ∈ Scope.bind name binding bindings) :
    x = (name, binding) ∨ x ∈ bindings := by
  induction bindings with
  | nil => exact .inl (List.mem_singleton.mp mem)
  | cons first rest ih =>
      unfold Scope.bind at mem
      split at mem
      · exact (List.mem_cons.mp mem).imp_right (List.mem_cons_of_mem first)
      · obtain rfl | mem := List.mem_cons.mp mem
        · exact .inr (by simp)
        · exact (ih mem).imp_right (List.mem_cons_of_mem first)

namespace Machine

variable {globals : ScopeId} {m m' n n' : Machine} {context : Context} {job : Job}

/-- A job runs alike in states that agree on things which lead only to one another. -/
theorem Closed.job_evolves {P : Thing → Nat → Prop} (closed : m.Closed)
    (fits : job.Fits context globals m) (there : ∀ ⦃k i⦄, P k i → i < m.count k)
    (inside : ∀ ⦃k i c k' j⦄, P k i → m.content? k i = some c → c.Names k' j → P k' j)
    (roots : ∀ s ∈ globals :: job.scopes, P .scope s.index)
    (names : ∀ v ∈ job.values, ∀ k i, v.Names k i → P k i)
    (agrees : ∀ ⦃k i⦄, P k i → m'.content? k i = m.content? k i) (meters : m'.meter = m.meter)
    {r r' : Except EvalError Flow} (ends : (job.run context).Ends m r n)
    (ends' : (job.run context).Ends m' r' n') :
    ∃ σ, Evolves (.on P) m m' σ n n' ∧ SameOutcome σ.RelatesFlow r r' := by
  obtain ⟨standard, rfl, -, -⟩ := fits
  have builtins : context.builtins.Impartial := standard ▸ Registry.standard_impartial
  have self (s : ScopeId) (mem : s ∈ context.globals :: job.scopes) :
      Pairing.on P .scope s.index s.index := ⟨roots s mem, rfl⟩
  exact job.run_agree builtins (self _ (by simp)) (fun s mem => self s (by simp [mem]))
    (fun v mem => Pairing.relates_on (names v mem)) (le_refl _)
    (closed.alike there inside agrees meters) ends ends'

/--
The states that running programs leads to, from the start of a machine on, whose collections may
hold anything that exists. Runs may fail, and states in the middle of a run count.
-/
inductive Arises : ScopeId → Machine → Prop
  | start {budget : Budget} {clock : Clock} {world : World}
      (closed : (start budget clock world).2.Closed) :
      Arises (start budget clock world).1 (start budget clock world).2
  | run {globals : ScopeId} {m n : Machine} {context : Context} {job : Job}
      {r : Except EvalError Flow} (arises : Arises globals m) (fits : job.Fits context globals m)
      (ends : (job.run context).Ends m r n) : Arises globals n
  | move {globals : ScopeId} {m n : Machine} (arises : Arises globals m)
      (move : Move Knows m n) : Arises globals n

/-- A move leaves a closed state closed. -/
theorem Move.closed (move : Move Knows m n) (closed : m.Closed) : n.Closed := by
  have changed {id : Nat} {f : Array Value → Array Value} {v : Value} (known : m.Knows v)
      (adds : ∀ xs u, u ∈ (f xs).toList → u ∈ xs.toList ∨ u = v) :
      Closed { m with world :=
        ⟨{ m.world.heap with lists := m.world.heap.lists.modify id f }, m.world.printed⟩ } := by
    refine (m.changes_modify id f).closed closed (fun c u found holds => ?_) fun c frame same => ?_
    · obtain ⟨xs, -, rfl⟩ := Option.map_eq_some_iff.mp found
      obtain old | rfl := adds xs u (Contents.holds_list_iff.mp holds)
      · exact closed.knows found (.item old)
      · exact known
    · cases c <;> cases same
      exact ⟨_, rfl, rfl⟩
  cases move with
  | count => exact ⟨closed.known, closed.older⟩
  | enter => exact ⟨closed.known, closed.older⟩
  | leave => exact ⟨closed.known, closed.older⟩
  | print line => exact ⟨closed.known, closed.older⟩
  | child here =>
      refine (m.adds_child _).closed closed (fun v holds => ?_) fun frame p same nested => ?_
      · simp [Contents.holds_scope_iff] at holds
      · cases same
        cases nested
        exact here
  | bind scope name known =>
      refine (m.changes_bind scope name _).closed closed (fun c v found holds => ?_)
        fun c frame same => ?_
      · obtain ⟨frame, -, rfl⟩ := Option.map_eq_some_iff.mp found
        obtain ⟨other, constant, mem⟩ := Contents.holds_scope_iff.mp holds
        obtain new | old := Scope.mem_bind mem
        · exact known v constant (Prod.mk.inj new).2.symm
        · exact closed.knows found (.bound old)
      · cases c <;> cases same
        exact ⟨_, rfl, rfl⟩
  | newList known =>
      exact (m.adds_newList _).closed closed
        (fun v holds => known v (Contents.holds_list_iff.mp holds)) fun _ _ same => by cases same
  | newMap known =>
      refine (m.adds_newMap _).closed closed (fun v holds => ?_) fun _ _ same => by cases same
      obtain ⟨entry, mem, rfl | rfl⟩ := Contents.holds_map_iff.mp holds
      · exact (known entry mem).1
      · exact (known entry mem).2
  | newFunction definition scope =>
      exact (m.adds_newFunction definition scope).closed closed (fun v holds => by cases holds)
        fun _ _ same => by cases same
  | pushItem id known => exact changed known (by simp)
  | setItem id index known =>
      refine changed known fun xs u mem => ?_
      rw [Array.toList_setIfInBounds] at mem
      exact List.mem_or_eq_of_mem_set mem
  | setEntries id known =>
      refine (m.changes_setEntries id _).closed closed (fun c v found holds => ?_)
        fun c frame same => ?_
      · obtain ⟨entries, -, rfl⟩ := Option.map_eq_some_iff.mp found
        obtain ⟨entry, mem, rfl | rfl⟩ := Contents.holds_map_iff.mp holds
        · exact (known entry mem).1
        · exact (known entry mem).2
      · cases c <;> cases same
        exact ⟨_, rfl, rfl⟩

/-- A move keeps all the things there are. -/
theorem Move.count_le {proper : Machine → Value → Prop} (move : Move proper m n) (k : Thing) :
    m.count k ≤ n.count k := by
  cases move with
  | child => exact (m.adds_child _).count_le k
  | bind scope name => exact (m.changes_bind scope name _).count_le k
  | newList => exact (m.adds_newList _).count_le k
  | newMap => exact (m.adds_newMap _).count_le k
  | newFunction definition scope => exact (m.adds_newFunction definition scope).count_le k
  | pushItem id => exact (m.changes_modify id _).count_le k
  | setItem id => exact (m.changes_modify id _).count_le k
  | setEntries id => exact (m.changes_setEntries id _).count_le k
  | _ => exact Nat.le_refl _

/-- In every state that running programs leads to, all that is named exists. -/
theorem Arises.closed (arises : Arises globals m) : m.Closed ∧ m.Allocated globals := by
  induction arises with
  | start closed => exact ⟨closed, Nat.zero_lt_one⟩
  | @run globals m n context job r _ fits ends ih =>
      obtain ⟨closed, home⟩ := ih
      -- The run is compared with itself, where all that there is stands for itself.
      obtain ⟨σ, evolves, -⟩ := closed.job_evolves (P := fun k i => i < m.count k) fits
        (fun _ _ there => there) (fun _ _ _ _ _ _ found names => closed.known found names)
        (List.forall_mem_cons.mpr ⟨home, fits.here⟩) (fun v mem _ _ names => fits.known v mem names)
        (fun _ _ _ => rfl) rfl ends ends
      exact ⟨evolves.closed, Nat.lt_of_lt_of_le home (evolves.made .scope).1⟩
  | move _ move ih => exact ⟨move.closed ih.1, Nat.lt_of_lt_of_le ih.2 (move.count_le .scope)⟩

/-- The state where a scope is another one. -/
def withScope (m : Machine) (i : Nat) (frame : Scope) : Machine :=
  { m with scopes := ⟨m.scopes.frames.setIfInBounds i frame⟩ }

theorem content?_withScope (m : Machine) (i : Nat) (frame : Scope) (k : Thing) (j : Nat)
    (other : ¬ (k = .scope ∧ j = i)) : (m.withScope i frame).content? k j = m.content? k j := by
  cases k with
  | scope =>
      have apart : i ≠ j := fun same => other ⟨rfl, same.symm⟩
      simp [content?, withScope, apart]
  | _ => rfl

theorem count_withScope (m : Machine) (i : Nat) (frame : Scope) :
    (m.withScope i frame).count = m.count := by
  funext k
  cases k <;> simp [count, withScope]

/-- States with the same numbers of things: those made later have the same numbers too. -/
theorem Evolves.identical {P : Thing → Nat → Prop} {σ : Pairing}
    (evolves : Evolves (.on P) m m' σ n n') (counts : m'.count = m.count) : σ.Identical := by
  intro k i j paired
  obtain ⟨-, same⟩ | ⟨d, at_i, at_j, -⟩ := (evolves.pairs k i j).mp paired
  · exact same
  · rw [at_i, at_j, counts]

/-- Begun with the same numbers of things, two runs leave the same where they found the same. -/
theorem Evolves.content?_eq {P : Thing → Nat → Prop} {σ : Pairing}
    (evolves : Evolves (.on P) m m' σ n n') (counts : m'.count = m.count) {k : Thing} {j : Nat}
    (same : m'.content? k j = m.content? k j) : n'.content? k j = n.content? k j := by
  have made := evolves.made k
  rw [counts] at made
  by_cases paired : σ k j j
  · obtain ⟨c, c', found, found', related⟩ := evolves.alike.contents paired
    rw [found, found', related.eq (evolves.identical counts)]
  · have unpaired : ∀ i, ¬ Pairing.on P k j i := by
      rintro i ⟨within, rfl⟩
      exact paired (evolves.more ⟨within, rfl⟩)
    have unpaired' : ∀ i, ¬ Pairing.on P k i j := by
      rintro i ⟨within, rfl⟩
      exact paired (evolves.more ⟨within, rfl⟩)
    by_cases old : j < m.count k
    · rw [evolves.kept old unpaired, evolves.kept' (by rwa [counts]) unpaired', same]
    · have beyond : n.count k ≤ j := by
        refine Nat.le_of_not_lt fun there => ?_
        rw [evolves.pairs, counts] at paired
        exact paired (.inr ⟨j - m.count k, by omega, by omega, there⟩)
      have beyond' : n'.count k ≤ j := by omega
      rw [content?_eq_none beyond, content?_eq_none beyond']

theorem heap_eq (lists : ∀ j, m'.content? .list j = m.content? .list j)
    (maps : ∀ j, m'.content? .map j = m.content? .map j)
    (functions : m'.count .function = m.count .function) : m'.world.heap = m.world.heap := by
  have same_lists : m'.world.heap.lists = m.world.heap.lists :=
    Array.ext_getElem? fun j => Option.map_injective (fun _ _ => Contents.list.inj) (lists j)
  have same_maps : m'.world.heap.maps = m.world.heap.maps :=
    Array.ext_getElem? fun j => Option.map_injective (fun _ _ => Contents.map.inj) (maps j)
  have same_functions : m'.world.heap.functions = m.world.heap.functions := functions
  calc m'.world.heap
      = ⟨m'.world.heap.lists, m'.world.heap.maps, m'.world.heap.functions⟩ := rfl
    _ = m.world.heap := by rw [same_lists, same_maps, same_functions]

/-- Two runs, begun in states that differ only in a scope out of reach, end with the same result. -/
theorem Evolves.withScope_eq {P : Thing → Nat → Prop} {σ : Pairing} {i : Nat} {frame : Scope}
    (evolves : Evolves (.on P) m (m.withScope i frame) σ n n') (there : i < m.count .scope)
    (apart : ¬ P .scope i) {r r' : Except EvalError Flow}
    (outcome : SameOutcome σ.RelatesFlow r r') :
    r' = r ∧ n'.world = n.world ∧
      ∀ j, n'.scopes.frames[j]? = if j = i then some frame else n.scopes.frames[j]? := by
  have counts := m.count_withScope i frame
  have identical := evolves.identical counts
  have contents {k : Thing} {j : Nat} (other : ¬ (k = .scope ∧ j = i)) :
      n'.content? k j = n.content? k j :=
    evolves.content?_eq counts (m.content?_withScope i frame k j other)
  have frames : Function.Injective (Option.map Contents.scope) :=
    Option.map_injective fun _ _ => Contents.scope.inj
  refine ⟨?_, ?_, fun j => ?_⟩
  · cases outcome with
    | failed e => rfl
    | answered related => rw [related.eq identical]
  · have made := evolves.made .function
    rw [counts] at made
    have heap : n'.world.heap = n.world.heap :=
      heap_eq (fun j => contents (by simp)) (fun j => contents (by simp)) (by omega)
    obtain ⟨lines, printed, printed'⟩ := evolves.printed
    calc n'.world
        = ⟨n'.world.heap, n'.world.printed⟩ := rfl
      _ = ⟨n.world.heap, n.world.printed⟩ := by rw [heap, printed', printed]; rfl
  · split
    · rename_i here
      subst here
      have unpaired (a : Nat) : ¬ Pairing.on P .scope a j :=
        fun paired => apart (paired.2 ▸ paired.1)
      have kept := evolves.kept' (by rwa [counts]) unpaired
      refine frames (kept.trans ?_)
      have within : j < m.scopes.frames.size := there
      simp [content?, withScope, within]
    · rename_i other
      exact frames (contents (k := .scope) fun both => other both.2)

/--
Lexical scoping as a frame property. In every state that running programs leads to, whatever is run
ends, and of the scopes and collections that exist only those are changed that can be reached from
the global scope and from the scopes and values that the job is given. In any other state that has
the same meter and the same contents within reach it ends alike: the same is printed, the outcome is
the same up to the numbers of what was made on the way, and so are the contents of all that was
within reach. In particular a scope that cannot be reached is neither read nor changed, such as that
of a caller when no function made there, or in a scope nested in it, can be reached from the
arguments, from the global scope or from where the function called was made.
-/
theorem Arises.confined (arises : Arises globals m) (fits : job.Fits context globals m) :
    ∃ r n, (job.run context).Ends m r n ∧
      (∀ k i, i < m.count k → ¬ job.Reach globals m k i → n.content? k i = m.content? k i) ∧
      (∀ m' : Machine, m'.meter = m.meter →
        (∀ k i, job.Reach globals m k i → m'.content? k i = m.content? k i) →
        ∃ r' n' σ, (job.run context).Ends m' r' n' ∧
          Evolves (.on (job.Reach globals m)) m m' σ n n' ∧ SameOutcome σ.RelatesFlow r r') ∧
      ∀ i frame, i < m.count .scope → ¬ job.Reach globals m .scope i →
        ∃ n', (job.run context).Ends (m.withScope i frame) r n' ∧ n'.world = n.world ∧
          ∀ j, n'.scopes.frames[j]? = if j = i then some frame else n.scopes.frames[j]? := by
  obtain ⟨closed, home⟩ := arises.closed
  have roots : ∀ s ∈ globals :: job.scopes, m.Allocated s :=
    List.forall_mem_cons.mpr ⟨home, fits.here⟩
  obtain ⟨r, n, ends⟩ := EStateM.exists_ends (job.run context) m
  have elsewhere (m' : Machine) (meters : m'.meter = m.meter)
      (agrees : ∀ k i, job.Reach globals m k i → m'.content? k i = m.content? k i) :
      ∃ r' n' σ, (job.run context).Ends m' r' n' ∧
        Evolves (.on (job.Reach globals m)) m m' σ n n' ∧ SameOutcome σ.RelatesFlow r r' := by
    obtain ⟨r', n', ends'⟩ := EStateM.exists_ends (job.run context) m'
    obtain ⟨σ, evolves, outcome⟩ := closed.job_evolves fits
      (fun _ _ reach => closed.lt_count roots fits.known reach)
      (fun _ _ _ _ _ reach found names => .inside reach found names) (fun _ mem => .scope mem)
      (fun _ mem _ _ names => .value mem names) agrees meters ends ends'
    exact ⟨r', n', σ, ends', evolves, outcome⟩
  refine ⟨r, n, ends, fun k i old apart => ?_, elsewhere, fun i frame there apart => ?_⟩
  · obtain ⟨r', n', σ, ends', evolves, -⟩ := elsewhere m rfl fun _ _ _ => rfl
    exact evolves.kept old fun j paired => apart paired.1
  · have agrees (k : Thing) (j : Nat) (reach : job.Reach globals m k j) :
        (m.withScope i frame).content? k j = m.content? k j :=
      m.content?_withScope i frame k j fun same => apart (same.1 ▸ same.2 ▸ reach)
    obtain ⟨r', n', σ, ends', evolves, outcome⟩ := elsewhere (m.withScope i frame) rfl agrees
    obtain ⟨rfl, world, frames⟩ := evolves.withScope_eq there apart outcome
    exact ⟨n', ends', world, frames⟩

/-- A function that reads a variable it does not define. -/
def peeking : FunctionDef :=
  ⟨none, default, [], ⟨[.expr (.name "secret" default)], default⟩, default⟩

/-- The start of a run in an empty world. -/
def fresh : Machine := ⟨⟨.empty, #[]⟩, ⟨#[⟨[], none⟩]⟩, .start ⟨10, 0, 1⟩ fun _ => 0⟩

/-- A state in the middle of a run, where a scope nested in the global one binds a variable. -/
def calling : Machine :=
  { fresh with scopes :=
    ⟨#[⟨[], none⟩, ⟨[("secret", .value (.bool true) false)], some ⟨0⟩⟩]⟩ }

theorem fresh_closed : fresh.Closed := by
  have only {k : Thing} {i : Nat} {c : Contents} (found : fresh.content? k i = some c) :
      c = .scope ⟨[], none⟩ := by
    cases k with
    | scope =>
        obtain ⟨frame, at_i, rfl⟩ := Option.map_eq_some_iff.mp found
        obtain rfl := List.mem_singleton.mp (List.mem_of_getElem? (Array.getElem?_toList ▸ at_i))
        rfl
    | _ => simp [content?, fresh, Heap.empty] at found
  constructor
  · intro k k' i j c found names
    obtain rfl := only found
    obtain ⟨holds, -⟩ | ⟨⟨⟩⟩ := names
    simp [Contents.holds_scope_iff] at holds
  · intro i frame p found nested
    cases only found
    cases nested

theorem Arises.confined_caller :
    Arises ⟨0⟩ calling ∧
      ∀ frame, ∃ n, ((Job.call peeking ⟨0⟩ []).run ⟨.standard, none, ⟨0⟩⟩).Ends
        (calling.withScope 1 frame) (.error (.nameNotFound "secret")) n ∧
        n.scopes.frames[1]? = some frame := by
  have first : Arises ⟨0⟩ fresh := .start fresh_closed
  have nested : Arises ⟨0⟩ { fresh with scopes := (fresh.scopes.child ⟨0⟩).2 } :=
    first.move (.child Nat.zero_lt_one)
  have known (v : Value) (constant : Bool)
      (same : Binding.value (.bool true) false = .value v constant) :
      Knows { fresh with scopes := (fresh.scopes.child ⟨0⟩).2 } v := by
    cases same
    rintro _ _ ⟨⟩
  have arises : Arises ⟨0⟩ calling := nested.move (.bind ⟨1⟩ "secret" known)
  have fits : (Job.call peeking ⟨0⟩ []).Fits ⟨.standard, none, ⟨0⟩⟩ ⟨0⟩ calling :=
    ⟨rfl, rfl, by simp [Job.scopes, Allocated, calling], by simp [Job.values]⟩
  have global {k : Thing} {i : Nat} (reach : (Job.call peeking ⟨0⟩ []).Reach ⟨0⟩ calling k i) :
      k = .scope ∧ i = 0 := by
    induction reach with
    | scope mem => simp_all [Job.scopes]
    | value mem => cases mem
    | inside _ found names ih =>
        obtain ⟨rfl, rfl⟩ := ih
        have empty : calling.content? .scope 0 = some (.scope ⟨[], none⟩) := rfl
        obtain rfl := Option.some.inj (empty.symm.trans found)
        obtain ⟨holds, -⟩ | ⟨⟨⟩⟩ := names
        simp [Contents.holds_scope_iff] at holds
  obtain ⟨r, n, ends, -, -, unread⟩ := arises.confined fits
  have failed : ((Job.call peeking ⟨0⟩ []).run ⟨.standard, none, ⟨0⟩⟩).Ends calling
      (.error (.nameNotFound "secret")) _ := rfl
  obtain ⟨rfl, -⟩ := ends.unique failed
  refine ⟨arises, fun frame => ?_⟩
  obtain ⟨n', ends', -, frames⟩ := unread 1 frame (by decide) fun reach => by cases (global reach).2
  exact ⟨n', ends', by simpa using frames 1⟩

end Machine

end Formwork
