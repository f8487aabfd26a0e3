import Formwork.Proofs.Frames

/-!
# Safe computations

A safe computation leads from sane states to sane ones and keeps the scopes that it found, but for
names that are free. Sequences of safe computations are safe, and so are calls; what is defined in a
scope made on the way is free there. Every expression and every statement is safe: an expression
whatever is free, a statement where the names are free that it defines in its own scope.
-/

namespace Formwork

namespace Machine

theorem number_sound (m : Machine) (x : Float) : m.Sound (.number x) :=
  fun c carries => (Heap.not_carries_number x c carries).elim

theorem bool_sound (m : Machine) (b : Bool) : m.Sound (.bool b) :=
  fun c carries => (Heap.not_carries_bool b c carries).elim

theorem unit_sound (m : Machine) : m.Sound .unit :=
  fun c carries => (Heap.not_carries_unit c carries).elim

end Machine

namespace Eval

variable {globals : ScopeId} {free : Nat → String → Prop} {α β : Type}

/--
Begun in any sane state later than `base`, a computation leaves everything in order, and its result
is as expected of the state it ends in.
-/
def Safe (globals : ScopeId) (free : Nat → String → Prop) (base : Machine) (x : Eval α)
    (expected : α → Machine → Prop) : Prop :=
  ∀ ⦃m r m'⦄, base.Extends m → m.Sane globals → x.Ends m r m' →
    m.Proceeds globals free m' ∧ ∀ a, r = .ok a → expected a m'

namespace Safe

variable {base : Machine} {expected : α → Machine → Prop}

protected theorem pure {a : α} (holds : ∀ m, base.Extends m → expected a m) :
    (pure a : Eval α).Safe globals free base expected := by
  intro m r m' later sane ends
  obtain ⟨rfl, rfl⟩ := EStateM.ends_pure.mp ends
  refine ⟨.refl sane, ?_⟩
  rintro b ⟨⟩
  exact holds _ later

protected theorem throw (e : EvalError) : (throw e : Eval α).Safe globals free base expected := by
  intro m r m' later sane ends
  obtain ⟨rfl, rfl⟩ := EStateM.ends_throw.mp ends
  exact ⟨.refl sane, by simp⟩

theorem ofExcept (r : Except EvalError α) :
    (MonadExcept.ofExcept r : Eval α).Safe globals free base fun _ _ => True := by
  intro m r' m' later sane ends
  obtain ⟨rfl, rfl⟩ := EStateM.ends_ofExcept.mp ends
  exact ⟨.refl sane, by simp⟩

theorem exhausted : (Eval.exhausted : Eval α).Safe globals free base expected := by
  intro m r m' later sane ends
  obtain ⟨rfl, rfl⟩ := ends_exhausted.mp ends
  exact ⟨.refl sane, by simp⟩

protected theorem bind {x : Eval α} {f : α → Eval β} {expected' : β → Machine → Prop}
    (first : x.Safe globals free base expected)
    (second : ∀ a m, base.Extends m → expected a m → (f a).Safe globals free m expected') :
    (x >>= f).Safe globals free base expected' := by
  intro m r m' later sane ends
  obtain ⟨e, rfl, failed⟩ | ⟨a, t, ended, rest⟩ := EStateM.ends_bind.mp ends
  · exact ⟨(first later sane failed).1, by simp⟩
  · obtain ⟨proceeds, result⟩ := first later sane ended
    obtain ⟨proceeds', result'⟩ := second a t (later.trans proceeds.later) (result a rfl)
      (.refl t) proceeds.sane rest
    exact ⟨proceeds.trans proceeds', result'⟩

theorem tick {x : Eval α} (later : x.Safe globals free base expected) :
    (Eval.tick >>= fun _ => x).Safe globals free base expected := by
  intro m r m' after sane ends
  have counted : m.Proceeds globals free m.counted := .counted sane
  obtain ⟨-, rfl, rfl⟩ | ⟨-, -, rfl, rfl⟩ | ⟨-, -, rest⟩ := ends_tick_bind.mp ends
  · exact ⟨counted, by simp⟩
  · exact ⟨counted, by simp⟩
  · obtain ⟨proceeds, result⟩ := later (after.trans counted.later) counted.sane rest
    exact ⟨counted.trans proceeds, result⟩

theorem rounds {f : Nat → Eval α} (later : ∀ n, (f n).Safe globals free base expected) :
    (Eval.rounds >>= f).Safe globals free base expected :=
  fun _ _ _ after sane ends => later _ after sane (ends_rounds_bind.mp ends)

theorem inCall {x : Eval α} (body : x.Safe globals free base expected)
    (meterless : ∀ a m, expected a m → expected a m.left) :
    (Eval.inCall x).Safe globals free base expected := by
  intro m r m' later sane ends
  obtain ⟨-, rfl, rfl⟩ | ⟨shallow, n, inside, rfl⟩ := ends_inCall.mp ends
  · exact ⟨.refl sane, by simp⟩
  · have after : base.Extends m.entered := ⟨later.allocated, later.sound⟩
    obtain ⟨proceeds, result⟩ := body after (.entered sane shallow) inside
    exact ⟨.ofCall proceeds, fun a same => meterless a n (result a same)⟩

theorem act {action : Action α} {given : List Value} {gives : α → List Value}
    (passes : action.Passes given gives) (sound : ∀ u ∈ given, base.Sound u) :
    (Eval.act action).Safe globals free base fun a m => ∀ v ∈ gives a, m.Sound v := by
  intro m r m' later sane ends
  obtain ⟨w, ended, rfl⟩ := ends_act.mp ends
  have sound' (u : Value) (mem : u ∈ given) : m.Sound u := later.sound (sound u mem)
  refine ⟨.ofWorld sane (passes.heap ended) sound', ?_⟩
  rintro a rfl v mem c carries
  obtain ⟨u, mem, before⟩ := passes.result ended mem carries
  exact sound' u mem c before

/-- An action on sound values whose result is one value. -/
theorem actValue {action : Action Value} {given : List Value}
    (passes : action.Passes given fun v => [v]) (sound : ∀ u ∈ given, base.Sound u) :
    (Eval.act action).Safe globals free base fun v m => m.Sound v := by
  intro m r m' later sane ends
  obtain ⟨proceeds, result⟩ := act passes sound later sane ends
  exact ⟨proceeds, fun v same => result v same v (by simp)⟩

/-- What a computation defines in a scope that it has made itself is not its caller's business. -/
theorem child {parent : ScopeId} {f : ScopeId → Eval α} (here : base.Allocated parent)
    (later : ∀ inner m, base.Extends m → m.Allocated inner →
      (f inner).Safe globals (fun i name => i = inner.index ∨ free i name) m expected) :
    (Eval.child parent >>= f).Safe globals free base expected := by
  intro m r m' after sane ends
  obtain ⟨e, rfl, failed⟩ | ⟨inner, t, ended, rest⟩ := EStateM.ends_bind.mp ends
  · cases (ends_child.mp failed).1
  · obtain ⟨same, rfl⟩ := ends_child.mp ended
    obtain rfl := Except.ok.inj same
    have made : m.Proceeds globals free { m with scopes := (m.scopes.child parent).2 } :=
      .child sane (after.allocated here)
    have allocated : Machine.Allocated { m with scopes := (m.scopes.child parent).2 }
        ⟨m.scopes.frames.size⟩ := by
      simp [Machine.Allocated, Scopes.child, Scopes.make]
    obtain ⟨proceeds, result⟩ :=
      later _ _ (after.trans made.later) allocated (.refl _) made.sane rest
    refine ⟨⟨proceeds.sane, made.later.trans proceeds.later, ?_, ?_⟩, result⟩
    · intro i frame found
      have old : i ≠ m.scopes.frames.size :=
        Nat.ne_of_lt (Array.getElem?_eq_some_iff.mp found).1
      obtain ⟨frame', found', kept⟩ := made.kept.frames i frame found
      obtain ⟨frame'', found'', kept'⟩ := proceeds.kept.frames i frame' found'
      exact ⟨frame'', found'', kept.trans (kept'.mono fun name free => free.resolve_left old)⟩
    · exact proceeds.kept.depth.trans made.kept.depth

theorem define {scope : ScopeId} {name : String} {v : Value} {constant : Bool}
    (allowed : free scope.index name) (sound : base.Sound v) :
    (Eval.define scope name v constant).Safe globals free base fun _ _ => True := by
  intro m r m' later sane ends
  obtain ⟨rfl, rfl⟩ := ends_define.mp ends
  refine ⟨.bind sane ?_ fun _ _ => .inl allowed, by simp⟩
  rintro u constant ⟨⟩
  exact later.sound sound

theorem defineFunction {scope : ScopeId} {definition : FunctionDef}
    (allowed : free scope.index definition.displayName) :
    (Eval.defineFunction scope definition).Safe globals free base fun _ _ => True := by
  intro m r m' later sane ends
  obtain ⟨rfl, rfl⟩ := ends_defineFunction.mp ends
  exact ⟨.bind sane (by simp) fun _ _ => .inl allowed, by simp⟩

/-- An assignment changes a variable, which is no constant and bound already. -/
theorem assign {scope : ScopeId} {name : String} {v : Value} (sound : base.Sound v) :
    (Eval.assign scope name v).Safe globals free base fun _ _ => True := by
  intro m r m' later sane ends
  obtain ⟨-, rfl⟩ := ends_assign.mp ends
  refine ⟨?_, by simp⟩
  unfold Scopes.assign
  split
  · exact .refl sane
  · exact .refl sane
  · rename_i found b variable_ nearest
    refine .bind sane ?_ fun frame here => .inr ?_
    · rintro u constant ⟨⟩
      exact later.sound sound
    · obtain ⟨frame', here', bound⟩ := Scopes.nearest?_spec nearest
      obtain rfl := Option.some.inj (here.symm.trans here')
      exact ⟨b, bound, fun u same => variable_ u same⟩

theorem newFunction {definition : FunctionDef} {scope : ScopeId} (here : ∀ m, base.Extends m →
      m.Sane globals → m.Allocated scope) :
    (Eval.newFunction definition scope).Safe globals free base fun v m => m.Sound v := by
  intro m r m' later sane ends
  obtain ⟨w, ended, rfl⟩ := ends_act.mp ends
  obtain ⟨rfl, rfl⟩ := (EStateM.ends_of_ok rfl).mp ended
  refine ⟨.ofWorld sane (Heap.adds_newFunction definition scope).passesOn (by simp), ?_⟩
  rintro v ⟨⟩ c carries
  cases carries with
  | self => exact here m later sane
  | inside inside => cases inside

/-- What a name is found to mean is sound, and a function is found in a scope that exists. -/
theorem meaning {scope : ScopeId} {name : String} :
    (Eval.meaning scope name).Safe globals free base fun found m =>
      (∀ v, found = some (.value v) → m.Sound v) ∧
        ∀ definition home, found = some (.function definition home) → m.Allocated home := by
  intro m r m' later sane ends
  obtain ⟨rfl, rfl⟩ := ends_meaning.mp ends
  refine ⟨.refl sane, ?_⟩
  rintro found ⟨⟩
  unfold Scopes.lookup?
  constructor
  · intro v
    split
    · simp
    · rename_i home value constant nearest
      rintro ⟨⟩
      obtain ⟨frame, here, bound⟩ := Scopes.nearest?_spec nearest
      exact sane.held here name _ _ bound
    · simp
  · intro definition home
    split
    · simp
    · simp
    · rename_i nearest
      rintro ⟨⟩
      obtain ⟨frame, here, -⟩ := Scopes.nearest?_spec nearest
      exact (Array.getElem?_eq_some_iff.mp here).1

end Safe

end Eval

/-- The names that a statement defines in the scope where it is executed. -/
def Stmt.defined : Stmt → List String
  | .define definition => [definition.name.name]
  | .function definition => [definition.displayName]
  | _ => []

/-- The names that the statements of a block define in the scope where it is executed. -/
def Block.defined (b : Block) : List String := b.stmts.flatMap Stmt.defined

namespace Parts

/-- Expressions define nothing, and statements only what they say; results are sound. -/
structure Safe (globals : ScopeId) (parts : Parts) : Prop where
  expr {free : Nat → String → Prop} {base : Machine} (e : Expr) {scope : ScopeId}
    (here : base.Allocated scope) :
    (parts.expr e scope).Safe globals free base fun v m => m.Sound v
  stmt {free : Nat → String → Prop} {base : Machine} (s : Stmt) {scope : ScopeId}
    (here : base.Allocated scope) (allowed : ∀ name ∈ s.defined, free scope.index name) :
    (parts.stmt s scope).Safe globals free base fun flow m => m.Sound flow.value

namespace Safe

variable {globals : ScopeId} {parts : Parts} {free : Nat → String → Prop} {base : Machine}
  {scope : ScopeId}

theorem args (safe : parts.Safe globals) (es : List Expr) (here : base.Allocated scope) :
    (parts.args scope es).Safe globals free base fun vs m => ∀ v ∈ vs, m.Sound v := by
  induction es generalizing base with
  | nil => exact .pure (by simp)
  | cons e rest ih =>
      refine .bind (safe.expr e here) fun v m later sound => ?_
      refine .bind (ih (later.allocated here)) fun vs m' later' sounds => ?_
      exact .pure fun m'' later'' => List.forall_mem_cons.mpr
        ⟨(later'.trans later'').sound sound, fun u mem => later''.sound (sounds u mem)⟩

theorem number (safe : parts.Safe globals) (e : Expr) (here : base.Allocated scope) :
    (parts.number e scope).Safe globals free base fun _ _ => True :=
  .bind (safe.expr e here) fun _ _ _ _ => .ofExcept _

theorem bool (safe : parts.Safe globals) (e : Expr) (here : base.Allocated scope) :
    (parts.bool e scope).Safe globals free base fun _ _ => True :=
  .bind (safe.expr e here) fun _ _ _ _ => .ofExcept _

theorem entries (safe : parts.Safe globals) (acc : Entries) (es : List (Expr × Expr))
    (here : base.Allocated scope) (sound : ∀ v ∈ entryValues acc, base.Sound v) :
    (parts.entries scope acc es).Safe globals free base fun acc m =>
      ∀ v ∈ entryValues acc, m.Sound v := by
  induction es generalizing acc base with
  | nil => exact .pure fun m later v mem => later.sound (sound v mem)
  | cons e rest ih =>
      refine .bind (safe.expr e.1 here) fun key m later sound_key => ?_
      refine .bind (safe.expr e.2 (later.allocated here)) fun value m' later' sound_value => ?_
      have both := later.trans later'
      refine .bind (.act (.insert key value acc) ?_) fun acc' m'' later'' sound' => ?_
      · intro u mem
        obtain rfl | rfl | old := by simpa using mem
        · exact later'.sound sound_key
        · exact sound_value
        · exact both.sound (sound u old)
      · exact ih acc' ((both.trans later'').allocated here) sound'

theorem range (safe : parts.Safe globals) (first last : Expr) (inclusive : Bool)
    (by_ : Option Expr) (here : base.Allocated scope) :
    (parts.range first last inclusive by_ scope).Safe globals free base fun _ _ => True := by
  refine .bind (safe.number first here) fun x m later _ => ?_
  refine .bind (safe.number last (later.allocated here)) fun y m' later' _ => ?_
  cases by_ with
  | none => exact .ofExcept _
  | some e =>
      exact .bind (safe.number e ((later.trans later').allocated here)) fun z _ _ _ => .ofExcept _

theorem stmts (safe : parts.Safe globals) (last : Value) (ss : List Stmt)
    (here : base.Allocated scope) (sound : base.Sound last)
    (allowed : ∀ name ∈ ss.flatMap Stmt.defined, free scope.index name) :
    (parts.stmts scope last ss).Safe globals free base fun flow m => m.Sound flow.value := by
  induction ss generalizing last base with
  | nil => exact .pure fun m later => later.sound sound
  | cons s rest ih =>
      simp only [List.flatMap_cons, List.mem_append] at allowed
      refine .bind (safe.stmt s here fun name mem => allowed name (.inl mem))
        fun flow m later sound => ?_
      cases flow with
      | normal v =>
          exact ih v (later.allocated here) sound fun name mem => allowed name (.inr mem)
      | returned v => exact .pure fun m later => later.sound sound

theorem block (safe : parts.Safe globals) (b : Block) (here : base.Allocated scope)
    (allowed : ∀ name ∈ b.defined, free scope.index name) :
    (parts.block b scope).Safe globals free base fun flow m => m.Sound flow.value :=
  safe.stmts .unit b.stmts here base.unit_sound allowed

theorem nested (safe : parts.Safe globals) (b : Block) (here : base.Allocated scope) :
    (parts.nested b scope).Safe globals free base fun flow m => m.Sound flow.value :=
  .child here fun _ _ _ inside => safe.block b inside fun _ _ => .inl rfl

theorem conditional (safe : parts.Safe globals) (condition : Expr) (yes : Block)
    (no : Option Block) (here : base.Allocated scope) :
    (parts.conditional condition yes no scope).Safe globals free base fun flow m =>
      m.Sound flow.value := by
  refine .bind (safe.bool condition here) fun b m later _ => ?_
  cases b with
  | true => exact safe.nested yes (later.allocated here)
  | false =>
      cases no with
      | some b => exact safe.nested b (later.allocated here)
      | none => exact .pure fun m _ => m.unit_sound

theorem define (safe : parts.Safe globals) (definition : VarDef) (here : base.Allocated scope)
    (allowed : free scope.index definition.name.name) :
    (parts.define definition scope).Safe globals free base fun _ _ => True :=
  .bind (safe.expr definition.value here) fun _ _ _ sound => .define allowed sound

/-! ## Loops -/

theorem forBody (safe : parts.Safe globals) (item : Ident) (body : Block) {v : Value}
    (here : base.Allocated scope) (sound : base.Sound v) :
    (parts.forBody item body scope v).Safe globals free base fun flow m => m.Sound flow.value :=
  .tick (.child here fun _ _ later inside =>
    .bind (.define (.inl rfl) (later.sound sound)) fun _ _ later' _ =>
      safe.block body (later'.allocated inside) fun _ _ => .inl rfl)

theorem forItems (safe : parts.Safe globals) (item : Ident) (body : Block) (vs : List Value)
    (here : base.Allocated scope) (sound : ∀ v ∈ vs, base.Sound v) :
    (parts.forItems item body scope vs).Safe globals free base fun flow m =>
      m.Sound flow.value := by
  induction vs generalizing base with
  | nil => exact .pure fun m _ => m.unit_sound
  | cons v rest ih =>
      obtain ⟨first, others⟩ := List.forall_mem_cons.mp sound
      refine .bind (safe.forBody item body here first) fun flow m later sound => ?_
      cases flow with
      | normal _ => exact ih (later.allocated here) fun u mem => later.sound (others u mem)
      | returned v => exact .pure fun m later => later.sound sound

theorem forRange (safe : parts.Safe globals) (item : Ident) (body : Block) (r : Range)
    (n i : Nat) (here : base.Allocated scope) :
    (parts.forRange item body scope r n i).Safe globals free base fun flow m =>
      m.Sound flow.value := by
  induction n generalizing i base with
  | zero => exact .exhausted
  | succ n ih =>
      unfold Parts.forRange
      split
      · refine .bind (safe.forBody item body here (base.number_sound _))
          fun flow m later sound => ?_
        cases flow with
        | normal _ => exact ih (i + 1) (later.allocated here)
        | returned v => exact .pure fun m later => later.sound sound
      · exact .pure fun m _ => m.unit_sound

theorem for_ (safe : parts.Safe globals) (item : Ident) (iterable : Expr) (body : Block)
    (here : base.Allocated scope) :
    (parts.for_ item iterable body scope).Safe globals free base fun flow m =>
      m.Sound flow.value := by
  unfold Parts.for_
  split
  · exact .tick (.bind (safe.range _ _ _ _ here) fun r m later _ =>
      .rounds fun n => safe.forRange item body r n 0 (later.allocated here))
  · refine .bind (safe.expr _ here) fun v m later sound => ?_
    refine .bind (.act (.itemsOf v) (by simpa using sound)) fun vs m' later' sounds => ?_
    exact safe.forItems item body vs ((later.trans later').allocated here) sounds

theorem while_ (safe : parts.Safe globals) (condition : Expr) (body : Block) (n : Nat)
    (here : base.Allocated scope) :
    (parts.while_ condition body scope n).Safe globals free base fun flow m =>
      m.Sound flow.value := by
  induction n generalizing base with
  | zero => exact .exhausted
  | succ n ih =>
      refine .tick (.bind (safe.bool condition here) fun b m later _ => ?_)
      cases b with
      | false => exact .pure fun m _ => m.unit_sound
      | true =>
          refine .bind (safe.nested body (later.allocated here)) fun flow m' later' sound => ?_
          cases flow with
          | normal _ => exact ih ((later.trans later').allocated here)
          | returned v => exact .pure fun m later => later.sound sound

theorem rangeItems (r : Range) (n i : Nat) (acc : Array Value)
    (sound : ∀ v ∈ acc, base.Sound v) :
    (Parts.rangeItems r n i acc).Safe globals free base fun vs m => ∀ v ∈ vs, m.Sound v := by
  induction n generalizing i acc base with
  | zero => exact .exhausted
  | succ n ih =>
      unfold Parts.rangeItems
      split
      · refine .tick (ih (i + 1) _ ?_)
        intro v mem
        obtain old | rfl := Array.mem_push.mp mem
        · exact sound v old
        · exact base.number_sound _
      · exact .pure fun m later v mem => later.sound (sound v mem)

/-! ## Calls -/

theorem bindParams (safe : parts.Safe globals) (function : String) {captured : ScopeId}
    (params : List Param) (slots : List (Option Value)) (home : base.Allocated captured)
    (allowed : ∀ name, free scope.index name) (sound : ∀ v, some v ∈ slots → base.Sound v) :
    (parts.bindParams function captured scope params slots).Safe globals free base
      fun _ _ => True := by
  induction params generalizing slots base with
  | nil => exact .pure fun _ _ => trivial
  | cons p params ih =>
      cases slots with
      | nil => exact .pure fun _ _ => trivial
      | cons slot slots =>
          have rest (v : Value) (m : Machine) (later : base.Extends m) (sound_v : m.Sound v) :
              Eval.Safe globals free m
                (do
                  Eval.define scope p.name.name v false
                  parts.bindParams function captured scope params slots) fun _ _ => True :=
            .bind (.define (allowed _) sound_v) fun _ m' later' _ =>
              ih slots ((later.trans later').allocated home) fun u mem =>
                (later.trans later').sound (sound u (by simp [mem]))
          unfold Parts.bindParams
          cases slot with
          | some v => exact rest v base (.refl base) (sound v (by simp))
          | none =>
              cases p.default with
              | some e => exact .bind (safe.expr e home) rest
              | none => exact .bind (.throw _) rest

theorem invoke (safe : parts.Safe globals) (f : FunctionDef) {captured : ScopeId}
    (slots : List (Option Value)) (home : base.Allocated captured)
    (sound : ∀ v, some v ∈ slots → base.Sound v) :
    (parts.invoke f captured slots).Safe globals free base fun v m => m.Sound v := by
  refine .inCall (.child home fun scope m later inside => ?_) fun _ _ sound => sound
  refine .bind (safe.bindParams f.displayName f.params slots (later.allocated home)
    (fun _ => .inl rfl) fun v mem => later.sound (sound v mem)) fun _ m' later' _ => ?_
  refine .bind (safe.block f.body (later'.allocated inside) fun _ _ => .inl rfl)
    fun flow m'' later'' sound => ?_
  exact .pure fun m later => later.sound sound

theorem call (safe : parts.Safe globals) (f : FunctionDef) {captured : ScopeId}
    (args : List Value) (home : base.Allocated captured) (sound : ∀ v ∈ args, base.Sound v) :
    (parts.call f captured args).Safe globals free base fun v m => m.Sound v := by
  unfold Parts.call
  split
  · exact .throw _
  · refine safe.invoke f _ home fun v mem => sound v ?_
    simpa [List.mem_replicate] using mem

theorem callNamed (safe : parts.Safe globals) (f : FunctionDef) {captured : ScopeId}
    (bindings : List (String × Value)) (home : base.Allocated captured)
    (sound : ∀ binding ∈ bindings, base.Sound binding.2) :
    (parts.callNamed f captured bindings).Safe globals free base fun v m => m.Sound v := by
  unfold Parts.callNamed
  dsimp only
  split
  · exact .throw _
  · refine safe.invoke f _ home fun v mem => ?_
    obtain ⟨p, -, found⟩ := List.mem_map.mp mem
    obtain ⟨before, after, same, -⟩ := List.lookup_eq_some_iff.mp found
    exact sound (p.name.name, v) (by simp [same])

theorem apply (safe : parts.Safe globals) {callee : Value} (args : List Value)
    (sound : base.Sound callee) (sounds : ∀ v ∈ args, base.Sound v) :
    (parts.apply callee args).Safe globals free base fun v m => m.Sound v := by
  unfold Parts.apply
  split
  · rename_i c
    exact safe.call _ args (sound c (.self c)) sounds
  · exact .throw _

end Safe

end Parts

/-! ## Expressions and statements -/

namespace Context

variable {context : Context} {parts : Parts} {free : Nat → String → Prop} {base : Machine}
  {scope : ScopeId}

theorem resolve?_safe (name : String) :
    (context.resolve? name scope).Safe context.globals free base fun found m =>
      ∀ v, found = some v → m.Sound v := by
  refine .bind .meaning fun meaning m later known => ?_
  split
  · rename_i v
    exact .pure fun m' later' => by rintro u ⟨⟩; exact later'.sound (known.1 v rfl)
  · rename_i definition home
    refine .bind (.newFunction fun m' later' _ => later'.allocated (known.2 definition home rfl))
      fun v m' later' sound => .pure fun m'' later'' => ?_
    rintro u ⟨⟩
    exact later''.sound sound
  · split
    · refine .bind (.newFunction fun _ _ sane => sane.home) fun v m' later' sound =>
        .pure fun m'' later'' => ?_
      rintro u ⟨⟩
      exact later''.sound sound
    · exact .pure (by simp)

section

variable (passing : context.builtins.Passing) (safe : parts.Safe context.globals)

include passing safe

theorem callByName_safe (name : String) (args : List Expr) (here : base.Allocated scope) :
    (context.callByName parts name args scope).Safe context.globals free base fun v m =>
      m.Sound v := by
  refine .bind (resolve?_safe name) fun callee m later known => ?_
  cases callee with
  | some callee =>
      refine .bind (safe.args args (later.allocated here)) fun vs m' later' sounds => ?_
      exact safe.apply vs (later'.sound (known callee rfl)) sounds
  | none =>
      cases found : context.builtins.find? name with
      | some builtin =>
          exact .bind (safe.args args (later.allocated here)) fun vs m' later' sounds =>
            .actValue (passing.find? found vs) sounds
      | none => exact .throw _

omit safe in
theorem callBuiltin_safe (name : String) (otherwise : Unsupported) (args : List Value)
    (sounds : ∀ v ∈ args, base.Sound v) :
    (context.callBuiltin name otherwise args).Safe context.globals free base fun v m =>
      m.Sound v := by
  unfold callBuiltin
  cases found : context.builtins.find? name with
  | some builtin => exact .actValue (passing.find? found args) sounds
  | none => exact .throw _

omit passing in
theorem binary_safe (a : Expr) (op : BinaryOp) (b : Expr) (here : base.Allocated scope) :
    (binary parts a op b scope).Safe context.globals free base fun v m => m.Sound v := by
  unfold binary
  split
  · refine .bind (safe.bool a here) fun x m later _ => ?_
    cases x with
    | true =>
        exact .bind (safe.bool b (later.allocated here)) fun _ _ _ _ =>
          .pure fun m _ => m.bool_sound _
    | false => exact .pure fun m _ => m.bool_sound _
  · refine .bind (safe.bool a here) fun x m later _ => ?_
    cases x with
    | true => exact .pure fun m _ => m.bool_sound _
    | false =>
        exact .bind (safe.bool b (later.allocated here)) fun _ _ _ _ =>
          .pure fun m _ => m.bool_sound _
  · refine .bind (safe.expr a here) fun x m later sound => ?_
    refine .bind (safe.expr b (later.allocated here)) fun y m' later' sound' => ?_
    exact .actValue (.binary op x y) (by simp [later'.sound sound, sound'])

theorem expr_safe (e : Expr) (here : base.Allocated scope) :
    (context.expr parts e scope).Safe context.globals free base fun v m => m.Sound v := by
  refine .tick ?_
  cases e with
  | number x _ => exact .pure fun m _ => m.number_sound x
  | bool b _ => exact .pure fun m _ => m.bool_sound b
  | list items _ =>
      exact .bind (safe.args items here) fun vs _ _ sounds =>
        .actValue (.newList vs.toArray) (by simpa using sounds)
  | map entries _ =>
      exact .bind (safe.entries [] entries here (by simp [entryValues])) fun acc _ _ sounds =>
        .actValue (.newMap acc) sounds
  | range first last inclusive by_ _ =>
      exact .bind (safe.range first last inclusive by_ here) fun r _ _ _ =>
        .rounds fun n => .bind (Parts.Safe.rangeItems r n 0 #[] (by simp)) fun vs _ _ sounds =>
          .actValue (.newList vs) (by simpa using sounds)
  | name name _ =>
      refine .bind (resolve?_safe name) fun found m later known => ?_
      cases found with
      | some v => exact .pure fun m later => later.sound (known v rfl)
      | none => exact .throw _
  | call name args _ => exact callByName_safe passing safe name.name args here
  | apply callee args _ =>
      refine .bind (safe.expr callee here) fun f m later sound => ?_
      refine .bind (safe.args args (later.allocated here)) fun vs m' later' sounds => ?_
      exact safe.apply vs (later'.sound sound) sounds
  | method receiver name args _ =>
      refine .bind (safe.expr receiver here) fun v m later sound => ?_
      refine .bind (safe.args args (later.allocated here)) fun vs m' later' sounds => ?_
      exact callBuiltin_safe passing _ _ _
        (List.forall_mem_cons.mpr ⟨later'.sound sound, sounds⟩)
  | create type args _ =>
      exact .bind (safe.args args here) fun vs _ _ sounds =>
        callBuiltin_safe passing _ _ _ sounds
  | index target key _ =>
      refine .bind (safe.expr target here) fun t m later sound => ?_
      refine .bind (safe.expr key (later.allocated here)) fun k m' later' sound' => ?_
      exact .actValue (.elementAt t k) (by simp [later'.sound sound, sound'])
  | update target key value _ =>
      refine .bind (safe.expr target here) fun t m later sound => ?_
      refine .bind (safe.expr key (later.allocated here)) fun k m' later' sound' => ?_
      have both := later.trans later'
      refine .bind (safe.expr value (both.allocated here)) fun v m'' later'' sound'' => ?_
      refine .bind (.act (.setElement t k v) ?_) fun _ _ later _ =>
        .pure fun m later' => (later.trans later').sound sound''
      simp [(later'.trans later'').sound sound, later''.sound sound', sound'']
  | binary a op b _ => exact binary_safe safe a op b here
  | unary op operand _ =>
      exact .bind (safe.expr operand here) fun v _ _ sound =>
        .actValue (.unary op v) (by simpa using sound)
  | conditional condition yes no _ =>
      refine .bind (safe.conditional condition yes no here) fun flow m later sound => ?_
      cases flow with
      | normal v => exact .pure fun m later => later.sound sound
      | returned v => exact .throw _
  | function definition => exact .newFunction fun m later _ => later.allocated here

omit passing in
theorem stmt_safe (s : Stmt) (here : base.Allocated scope)
    (allowed : ∀ name ∈ s.defined, free scope.index name) :
    (stmt parts s scope).Safe context.globals free base fun flow m => m.Sound flow.value := by
  refine .tick ?_
  split
  · exact .bind (safe.define _ here (allowed _ (by simp [Stmt.defined]))) fun _ _ _ _ =>
      .pure fun m _ => m.unit_sound
  · exact .bind (.defineFunction (allowed _ (by simp [Stmt.defined]))) fun _ _ _ _ =>
      .pure fun m _ => m.unit_sound
  · exact .bind (safe.expr _ here) fun v _ _ sound => .bind (.assign sound) fun _ _ _ _ =>
      .pure fun m _ => m.unit_sound
  · exact .tick (safe.conditional _ _ _ here)
  · exact .bind (safe.expr _ here) fun v _ _ sound => .pure fun m later => later.sound sound
  · exact .bind (safe.expr _ here) fun v _ _ sound => .pure fun m later => later.sound sound
  · exact safe.for_ _ _ _ here
  · exact .rounds fun n => safe.while_ _ _ n here

end

/-! ## Whole programs -/

/-- Expressions and statements are safe, however many levels there are. -/
theorem parts_safe (passing : context.builtins.Passing) (n : Nat) :
    (context.parts n).Safe context.globals := by
  induction n with
  | zero => exact ⟨fun _ _ _ => .exhausted, fun _ _ _ _ => .exhausted⟩
  | succ n ih => exact ⟨fun e _ => expr_safe passing ih e, fun s _ => stmt_safe ih s⟩

theorem withParts_safe (passing : context.builtins.Passing) {α : Type} {run : Parts → Eval α}
    {expected : α → Machine → Prop}
    (safe : ∀ parts : Parts, parts.Safe context.globals →
      (run parts).Safe context.globals free base expected) :
    (context.withParts run).Safe context.globals free base expected :=
  .rounds fun n => safe _ (parts_safe passing n)

theorem defineGlobals_safe (passing : context.builtins.Passing)
    (home : base.Allocated context.globals)
    (allowed : ∀ program, context.program = some program →
      ∀ definition ∈ program.globals, free context.globals.index definition.name.name) :
    context.defineGlobals.Safe context.globals free base fun _ _ => True := by
  have all (definitions : List VarDef) (base : Machine) (home : base.Allocated context.globals)
      (allowed : ∀ definition ∈ definitions, free context.globals.index definition.name.name) :
      (context.defineAll definitions).Safe context.globals free base fun _ _ => True := by
    induction definitions generalizing base with
    | nil => exact .pure fun _ _ => trivial
    | cons definition rest ih =>
        obtain ⟨first, later⟩ := List.forall_mem_cons.mp allowed
        exact .bind (withParts_safe passing fun parts safe => safe.define definition home first)
          fun _ m after _ => ih m (after.allocated home) later
  unfold defineGlobals
  split
  · rename_i program same
    exact all program.globals base home (allowed program same)
  · exact .pure fun _ _ => trivial

end Context

end Formwork
