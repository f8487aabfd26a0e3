import Formwork.Engine
import Formwork.Proofs.Impartial
import Formwork.Proofs.InStep

/-!
# Independent runs

What a run answers depends on what it is given and not on the numbers of the collections it is given
or on what else there is. `Script.run_alike` says this of two runs that are given collections of the
same shape. A sequence of requests to an engine is a `Session`; there every run that is given no
collections answers as if nothing had been run before, which `Engine.Session.answer_alone` says.
-/

namespace Formwork

/-- At each instruction two clocks show the same, or neither shows that the time is up. -/
def Clock.Alike (budget : Budget) (clock clock' : Clock) : Prop :=
  ∀ n, clock n = clock' n ∨
    clock n ≤ budget.maxMillis * nanosPerMilli ∧ clock' n ≤ budget.maxMillis * nanosPerMilli

namespace Pairing

/-- The pairing in which nothing is paired. -/
def nothing : Pairing := ⟨fun _ _ _ => False, fun paired => paired.elim⟩

/-- Only lists and maps are paired. -/
def Data (ρ : Pairing) : Prop := ∀ i j, ¬ ρ .scope i j ∧ ¬ ρ .function i j

/-- The same name with related values. -/
def RelatesArgument (ρ : Pairing) (x y : String × Value) : Prop := x.1 = y.1 ∧ ρ.Relates x.2 y.2

theorem nothing_heaps (h h' : Heap) : nothing.Heaps h h' :=
  ⟨fun paired => paired.elim, fun paired => paired.elim, fun paired => paired.elim⟩

variable {ρ : Pairing}

/-- The pairing at the start of a run, in which the global scopes are paired too. -/
def Data.withGlobals (data : ρ.Data) : Pairing :=
  ρ.add .scope 0 0 (fun j => (data 0 j).1) (fun i => (data i 0).1)

theorem Heaps.start_alike {w w' : World} (heaps : ρ.Heaps w.heap w'.heap) (data : ρ.Data)
    {budget : Budget} {clock clock' : Clock} (clocks : clock.Alike budget clock') :
    (Machine.start budget clock w).2.Alike data.withGlobals (Machine.start budget clock' w').2 where
  contents := by
    have more : ρ ≤ data.withGlobals := ρ.le_add _ _
    rintro k i j (paired | ⟨rfl, rfl, rfl⟩)
    · cases k with
      | scope => exact absurd paired (data i j).1
      | function => exact absurd paired (data i j).2
      | list =>
          obtain ⟨⟨left, right⟩, related⟩ := heaps.lists paired
          refine ⟨_, _, by simp [Machine.content?, Machine.start, left]; rfl,
            by simp [Machine.content?, Machine.start, right]; rfl, .list ?_⟩
          simpa [Heap.items, left, right] using related.imp fun _ _ => Relates.mono more
      | map =>
          obtain ⟨⟨left, right⟩, related⟩ := heaps.maps paired
          refine ⟨_, _, by simp [Machine.content?, Machine.start, left]; rfl,
            by simp [Machine.content?, Machine.start, right]; rfl, .map ?_⟩
          simpa [Heap.entries, left, right] using related.imp fun _ _ => RelatesEntry.mono more
    · exact ⟨_, _, rfl, rfl, .scope ⟨.nil, .none⟩⟩
  meters := ⟨rfl, rfl, rfl, rfl, clocks⟩

end Pairing

namespace Script

/-- What a script computes for related arguments has the same outcome. -/
theorem computation_agree {ρ : Pairing} {builtins : Registry} (impartial : builtins.Impartial)
    (s : Script) {globals : ScopeId} (home : ρ .scope globals.index globals.index)
    (function : String) {bindings bindings' : List (String × Value)}
    (related : List.Forall₂ ρ.RelatesArgument bindings bindings') :
    (s.computation builtins globals function bindings).Agree ρ
      (s.computation builtins globals function bindings') Pairing.Relates := by
  unfold computation
  cases s.program.function? function with
  | none => exact .throw _
  | some f =>
      refine .bind (Context.defineGlobals_agree impartial home) fun _ _ σ more _ => ?_
      refine Context.withParts_agree impartial fun parts impartial => ?_
      exact impartial.callNamed f ⟨more home, more home⟩
        (related.imp fun _ _ both => ⟨both.1, both.2.mono more⟩)

/--
Two runs, begun in worlds `w` and `w'` whose collections are paired by `ρ`, end in `u` and `u'` with
the same outcome. What is paired then was paired before or is new on both sides.
-/
structure EndsAlike (ρ σ : Pairing) (w w' : World) (r r' : Except EvalError Value) (u u' : World) :
    Prop where
  more : ρ ≤ σ
  lists (i j : Nat) (paired : σ .list i j) :
    ρ .list i j ∨ w.heap.lists.size ≤ i ∧ w'.heap.lists.size ≤ j
  maps (i j : Nat) (paired : σ .map i j) :
    ρ .map i j ∨ w.heap.maps.size ≤ i ∧ w'.heap.maps.size ≤ j
  outcome : SameOutcome (fun v v' => σ.Relates v v' ∧ u.heap.text v = u'.heap.text v' ∧
    u.heap.inspect v = u'.heap.inspect v') r r'
  printed : ∃ lines, u.printed = w.printed ++ lines ∧ u'.printed = w'.printed ++ lines
  heaps : σ.Heaps u.heap u'.heap

/--
Two runs that are given collections of the same shape have the same outcome: the same error, or
values that are related and shown alike. They print the same, and collections that stood for one
another, or were made at the same moment, have related contents afterwards.
-/
theorem run_alike (s : Script) {builtins : Registry} (impartial : builtins.Impartial)
    {budget : Budget} {clock clock' : Clock} (clocks : clock.Alike budget clock')
    (function : String) {ρ : Pairing} (data : ρ.Data) {w w' : World}
    (heaps : ρ.Heaps w.heap w'.heap) {bindings bindings' : List (String × Value)}
    (related : List.Forall₂ ρ.RelatesArgument bindings bindings') :
    ∃ r u r' u' σ, (s.run builtins budget clock function bindings).Ends w r u ∧
      (s.run builtins budget clock' function bindings').Ends w' r' u' ∧
      EndsAlike ρ σ w w' r r' u u' := by
  have more : ρ ≤ data.withGlobals := ρ.le_add _ _
  have home : data.withGlobals .scope 0 0 := ρ.add_self _ _
  obtain ⟨r, m, ends⟩ := EStateM.exists_ends (s.computation builtins ⟨0⟩ function bindings)
    (Machine.start budget clock w).2
  obtain ⟨r', m', ends'⟩ := EStateM.exists_ends (s.computation builtins ⟨0⟩ function bindings')
    (Machine.start budget clock' w').2
  obtain ⟨σ, evolves, outcome⟩ := s.computation_agree impartial home function
    (related.imp fun _ _ both => ⟨both.1, both.2.mono more⟩) (le_refl _)
    (heaps.start_alike data clocks) ends ends'
  have run : s.Ends builtins budget clock function bindings w r m := ends
  have run' : s.Ends builtins budget clock' function bindings' w' r' m' := ends'
  -- The only scope paired at the start is the global one, so collections are paired as before.
  have fresh (k : Thing) (other : k ≠ .scope) {i j : Nat} (paired : σ k i j) :
      ρ k i j ∨ (Machine.start budget clock w).2.count k ≤ i ∧
        (Machine.start budget clock' w').2.count k ≤ j := by
    obtain (old | new) | ⟨d, rfl, rfl, -⟩ := (evolves.pairs k i j).mp paired
    · exact .inl old
    · exact absurd new.1 other
    · exact .inr ⟨Nat.le_add_right _ _, Nat.le_add_right _ _⟩
  have after := evolves.alike.heaps
  have shown : SameOutcome (fun v v' => σ.Relates v v' ∧
      m.world.heap.text v = m'.world.heap.text v' ∧
      m.world.heap.inspect v = m'.world.heap.inspect v') r r' := by
    cases outcome with
    | failed e => exact .failed e
    | answered holds => exact .answered ⟨holds, after.text_eq holds, after.inspect_eq holds⟩
  exact ⟨r, m.world, r', m'.world, σ, run.run, run'.run, more.trans evolves.more,
    fun _ _ => fresh .list (by simp), fun _ _ => fresh .map (by simp), shown, evolves.printed,
    after⟩

end Script

namespace Engine

/-- What a host asks of an engine. -/
inductive Request where
  /-- To read a script, which is known by its name from then on if nothing is wrong in it. -/
  | compile (name text : String)
  /-- To call a function of the script that was last read under a name. -/
  | run (name function : String) (bindings : List (String × Value))

/-- What an engine answers. -/
inductive Answer where
  | compiled (result : Except Diagnostics Script)
  /-- How a run ended, its value as it is shown in both ways, and what it printed. -/
  | ran (outcome : Except EvalError (String × String)) (printed : List String)
  /-- No script is known by the name. -/
  | unknown

/-- The scripts that an engine has read, the last one first, and the world that its runs share. -/
structure Session where
  scripts : List Script
  world : World

namespace Request

/-- Whether a request is one to read a script. -/
def isCompile : Request → Bool
  | .compile .. => true
  | .run .. => false

/-- A run is given no collections and no functions. -/
def Scalar : Request → Prop
  | .compile .. => True
  | .run _ _ bindings => ∀ binding ∈ bindings, binding.2.kind ∈ [Kind.number, .bool, .unit]

end Request

namespace Session

/-- How a run ended for those who see only its texts, begun in a world and left in another one. -/
def ran (before : World) : EStateM.Result EvalError World Value → Answer
  | .ok v after =>
    .ran (.ok (after.heap.text v, after.heap.inspect v))
      (after.printed.toList.drop before.printed.size)
  | .error e after => .ran (.error e) (after.printed.toList.drop before.printed.size)

/-- The world in which a run ended. -/
def left : EStateM.Result EvalError World Value → World
  | .ok _ after | .error _ after => after

/-- The answer to a request, and the session after it. -/
def answer (e : Engine) (s : Session) : Request → Answer × Session
  | .compile name text =>
    match e.compile name text with
    | .ok script => (.compiled (.ok script), { s with scripts := script :: s.scripts })
    | .error diagnostics => (.compiled (.error diagnostics), s)
  | .run name function bindings =>
    match s.scripts.find? (·.name == name) with
    | some script =>
      let result := e.run script function bindings s.world
      (ran s.world result, { s with world := left result })
    | none => (.unknown, s)

/-- The session after requests made one after the other. -/
def after (e : Engine) (s : Session) : List Request → Session
  | [] => s
  | q :: rest => after e (s.answer e q).2 rest

variable {e : Engine} {s s' : Session}

/-- Runs leave the scripts as they are, and what is read depends on no run. -/
theorem scripts_after (same : s.scripts = s'.scripts) (requests : List Request) :
    (s.after e requests).scripts = (s'.after e (requests.filter Request.isCompile)).scripts := by
  induction requests generalizing s s' with
  | nil => exact same
  | cons q rest ih =>
      cases q with
      | compile name text =>
          have same' : (s.answer e (.compile name text)).2.scripts =
              (s'.answer e (.compile name text)).2.scripts := by
            simp only [answer]
            split
            · exact congrArg (_ :: ·) same
            · exact same
          exact ih same'
      | run name function bindings =>
          have kept : (s.answer e (.run name function bindings)).2.scripts = s.scripts := by
            simp only [answer]
            split <;> rfl
          exact ih (kept.trans same)

/-- A run that is given no collections is answered the same in any two worlds. -/
theorem ran_eq (impartial : e.builtins.Impartial) (script : Script) (function : String)
    {bindings : List (String × Value)}
    (scalar : ∀ binding ∈ bindings, binding.2.kind ∈ [Kind.number, .bool, .unit]) (w w' : World) :
    ran w (e.run script function bindings w) = ran w' (e.run script function bindings w') := by
  have related : List.Forall₂ Pairing.nothing.RelatesArgument bindings bindings := by
    refine List.forall₂_same.mpr fun binding mem => ⟨rfl, ?_⟩
    have kind := scalar binding mem
    generalize binding.2 = v at kind
    cases v with
    | number x => exact .number x
    | bool b => exact .bool b
    | unit => exact .unit
    | _ => simp [Value.kind] at kind
  have clocks : e.clock.Alike e.config.budget e.clock := fun _ => .inl rfl
  obtain ⟨r, u, r', u', σ, ends, ends', alike⟩ := script.run_alike impartial clocks function
    (fun _ _ => ⟨id, id⟩) (Pairing.nothing_heaps w.heap w'.heap) related
  obtain ⟨lines, printed, printed'⟩ := alike.printed
  unfold Engine.run
  cases alike.outcome with
  | failed error =>
      rw [ends, ends']
      simp [ran, printed, printed']
  | answered holds =>
      rw [ends, ends']
      simp [ran, printed, printed', holds.2]

theorem answer_alone (impartial : e.builtins.Impartial) (same : s.scripts = s'.scripts)
    {q : Request} (scalar : q.Scalar) : (s.answer e q).1 = (s'.answer e q).1 := by
  cases q with
  | compile name text =>
      simp only [answer]
      split <;> rfl
  | run name function bindings =>
      simp only [answer, ← same]
      cases s.scripts.find? (·.name == name) with
      | none => rfl
      | some script => exact ran_eq impartial script function scalar s.world s'.world

end Session

/--
Runs do not depend on how collections are numbered or on what else there is. Any two runs of a
function with the same budget, whose arguments are related and whose collections are of the same
shape, end alike, provided that their clocks do not tell them apart. And after any requests to an
engine, runs that succeeded, failed or exceeded a limit among them, a run that is given no
collections is answered as it is where the same scripts have been read and nothing has been run.
-/
theorem runs_independent :
    (∀ (script : Script) (budget : Budget) (clock clock' : Clock) (function : String) (ρ : Pairing)
      (w w' : World) (bindings bindings' : List (String × Value)),
      clock.Alike budget clock' → ρ.Data → ρ.Heaps w.heap w'.heap →
      List.Forall₂ ρ.RelatesArgument bindings bindings' →
      ∃ r u r' u' σ, (script.run .standard budget clock function bindings).Ends w r u ∧
        (script.run .standard budget clock' function bindings').Ends w' r' u' ∧
        Script.EndsAlike ρ σ w w' r r' u u') ∧
    ∀ (e : Engine) (s : Session) (before : List Request) (q : Request),
      e.builtins = .standard → q.Scalar →
      ((s.after e before).answer e q).1 =
        ((Session.after e ⟨s.scripts, ⟨.empty, #[]⟩⟩
          (before.filter Request.isCompile)).answer e q).1 := by
  constructor
  · intro script budget clock clock' function ρ w w' bindings bindings' clocks data heaps related
    exact script.run_alike Registry.standard_impartial clocks function data heaps related
  · intro e s before q standard scalar
    have impartial : e.builtins.Impartial := standard ▸ Registry.standard_impartial
    have fresh : s.scripts = (Session.mk s.scripts ⟨.empty, #[]⟩).scripts := rfl
    exact Session.answer_alone impartial (Session.scripts_after fresh before) scalar

/-- Puts a list into itself once more and compares it with a new list. -/
def sharing : String := "fun bool main(list a) { push(a, a); [a, a] == a }"

/-- The list 0 on one side stands for the list 1 on the other. -/
def shifted : Pairing :=
  Pairing.nothing.add .list 0 1 (fun _ paired => paired) (fun _ paired => paired)

theorem runs_independent_cyclic :
    ∃ s u u', Script.compile {} "t" sharing = .ok s ∧
      (s.run .standard ⟨100, 1, 1⟩ (fun _ => 0) "main" [("a", .list 0)]).Ends
        ⟨⟨#[#[.list 0]], #[], 0⟩, #[]⟩ (.ok (.bool true)) u ∧
      (s.run .standard ⟨100, 1, 1⟩ (fun _ => 1) "main" [("a", .list 1)]).Ends
        ⟨⟨#[#[.unit], #[.list 1]], #[[]], 7⟩, #["before"]⟩ (.ok (.bool true)) u' ∧
      (u'.heap.items 1).size = 2 ∧
      ∀ before, ((Session.after {} ⟨[s], u⟩ before).answer {} (.run "t" "main" [("a", .unit)])).1 =
        ((Session.after {} ⟨[s], ⟨.empty, #[]⟩⟩ (before.filter Request.isCompile)).answer {}
          (.run "t" "main" [("a", .unit)])).1 := by
  obtain ⟨s, compiled, ran⟩ := Except.exists_of_any (show
    (Script.compile {} "t" sharing).toOption.any (fun s =>
      (Action.truth? (s.run .standard ⟨100, 1, 1⟩ (fun _ => 0) "main" [("a", .list 0)]
        ⟨⟨#[#[.list 0]], #[], 0⟩, #[]⟩)).any
        fun p => p.1 && (p.2.heap.items 0).size == 2) = true by decide +kernel)
  obtain ⟨⟨b, w⟩, answered, holds⟩ := (Option.any_eq_true _ _).mp ran
  obtain ⟨rfl, size⟩ : b = true ∧ (w.heap.items 0).size = 2 := by simpa using holds
  have paired : shifted .list 0 1 := .inr ⟨rfl, rfl, rfl⟩
  have only {k : Thing} {i j : Nat} (paired : shifted k i j) : k = .list ∧ i = 0 ∧ j = 1 :=
    paired.resolve_left id
  have data : shifted.Data := by
    refine fun i j => ⟨fun others => ?_, fun others => ?_⟩
    · cases (only others).1
    · cases (only others).1
  have clocks : Clock.Alike ⟨100, 1, 1⟩ (fun _ => 0) fun _ => 1 :=
    fun _ => .inr ⟨Nat.zero_le _, Nat.le_of_ble_eq_true rfl⟩
  have heaps : shifted.Heaps ⟨#[#[.list 0]], #[], 0⟩ ⟨#[#[.unit], #[.list 1]], #[[]], 7⟩ := by
    refine ⟨?_, fun others => ?_, fun others => ?_⟩
    · rintro i j others
      obtain ⟨-, rfl, rfl⟩ := only others
      exact ⟨by decide, .cons (.list paired) .nil⟩
    · cases (only others).1
    · cases (only others).1
  obtain ⟨r, u, r', u', σ, ends, ends', alike⟩ := runs_independent.1 s ⟨100, 1, 1⟩ (fun _ => 0)
    (fun _ => 1) "main" shifted ⟨⟨#[#[.list 0]], #[], 0⟩, #[]⟩
    ⟨⟨#[#[.unit], #[.list 1]], #[[]], 7⟩, #["before"]⟩ [("a", .list 0)] [("a", .list 1)]
    clocks data heaps (.cons ⟨rfl, .list paired⟩ .nil)
  obtain ⟨rfl, same⟩ := (EStateM.ends_of_ok (Action.eq_of_truth? answered)).mp ends
  refine ⟨s, u, u', compiled, ends, ?_, ?_, fun before => ?_⟩
  · obtain ⟨-, -, -, outcome, -, -⟩ := alike
    cases outcome with
    | answered holds =>
        cases holds.1
        exact ends'
  · have items := (alike.heaps.lists (alike.more paired)).2.length_eq
    simpa [same, size, eq_comm] using items
  · exact runs_independent.2 {} ⟨[s], u⟩ before _ rfl (by simp [Request.Scalar, Value.kind])

end Engine

end Formwork
