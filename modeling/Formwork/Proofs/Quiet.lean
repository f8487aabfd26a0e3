import Formwork.Eval.Operation
import Formwork.Eval.Standard
import Formwork.Proofs.Comparison
import Formwork.Proofs.Ending

/-!
# Actions that keep to themselves

Actions on collections, operators and the standard builtin functions only add to what was printed,
and what they fail with is never a limit. That a comparison goes on forever is reported only where a
map is found again inside one of its own keys.
-/

namespace Formwork

/-- Not about a limit; and a comparison is endless only where a key leads back to its map. -/
def EvalError.Proper (h : Heap) : EvalError → Prop
  | .resourceExceeded .. => False
  | .endlessComparison => h.KeyCycle
  | _ => True

namespace Heap

variable {h : Heap}

theorem keyCycle_of_equal? {a b : Value} (missing : h.equal? a b = none) : h.KeyCycle :=
  (keyCycleBelow_of_equal?_eq_none missing).1.keyCycle

theorem exists_of_lookup?_eq_none {key : Value} {entries : Entries}
    (missing : h.lookup? key entries = none) : ∃ entry ∈ entries, h.equal? entry.1 key = none := by
  obtain ⟨entry, mem, missing, -⟩ :=
    exists_of_findKey?_eq_endless (fun x y => .refl (h.equal? x y)) missing
  exact ⟨entry, mem, missing⟩

theorem exists_of_insert?_eq_none {key value : Value} {entries : Entries}
    (missing : h.insert? key value entries = none) :
    ∃ entry ∈ entries, h.equal? entry.1 key = none :=
  exists_of_insertKey_eq_endless missing

theorem exists_of_insertLocked_eq_endless {locked : Nat} {key value : Value} {entries : Entries}
    (forever : h.insertLocked locked key value entries = .error .endless) :
    ∃ entry ∈ entries, h.KeyCycleBelow entry.1 ∧ h.KeyCycleBelow key := by
  obtain ⟨entry, mem, forever⟩ := exists_of_insertKey_eq_endless forever
  exact ⟨entry, mem, keyCycleBelow_of_compare_eq_endless (lookBeside_ne_endless locked) forever⟩

end Heap

namespace Action

/-- An action only adds to what was printed, and its errors are proper ones. -/
structure Quiet {α : Type} (action : Action α) : Prop where
  printed {w w' : World} {r : Except EvalError α} (ends : action.Ends w r w') :
    w.printed.toList <+: w'.printed.toList
  proper {w w' : World} {e : EvalError} (ends : action.Ends w (.error e) w') : e.Proper w'.heap

namespace Quiet

variable {α β : Type}

theorem of_ok {action : Action α} {f : World → α} {g : World → World}
    (eq : ∀ w, action w = .ok (f w) (g w))
    (printed : ∀ w, w.printed.toList <+: (g w).printed.toList) : action.Quiet where
  printed ends := by
    obtain ⟨-, rfl⟩ := (EStateM.ends_of_ok (eq _)).mp ends
    exact printed _
  proper ends := by
    obtain ⟨failed, -⟩ := (EStateM.ends_of_ok (eq _)).mp ends
    cases failed

protected theorem pure (a : α) : (pure a : Action α).Quiet :=
  of_ok (fun _ => rfl) fun _ => List.prefix_rfl

protected theorem throw {e : EvalError} (proper : ∀ h, e.Proper h) :
    (throw e : Action α).Quiet where
  printed ends := by simp [EStateM.ends_throw.mp ends]
  proper ends := by
    obtain ⟨same, -⟩ := EStateM.ends_throw.mp ends
    cases same
    exact proper _

theorem ofExcept {r : Except EvalError α} (proper : ∀ e, r = .error e → ∀ h, e.Proper h) :
    (MonadExcept.ofExcept r : Action α).Quiet := by
  cases r with
  | ok a => exact .pure a
  | error e => exact .throw (proper e rfl)

protected theorem bind {action : Action α} {f : α → Action β} (first : action.Quiet)
    (second : ∀ a, (f a).Quiet) : (action >>= f).Quiet where
  printed ends := by
    obtain ⟨e, -, failed⟩ | ⟨a, t, done, later⟩ := EStateM.ends_bind.mp ends
    · exact first.printed failed
    · exact (first.printed done).trans ((second a).printed later)
  proper ends := by
    obtain ⟨e, same, failed⟩ | ⟨a, t, done, later⟩ := EStateM.ends_bind.mp ends
    · cases same
      exact first.proper failed
    · exact (second a).proper later

/-! ## Actions on collections -/

theorem newList (items : Array Value) : (Action.newList items).Quiet :=
  of_ok (fun _ => rfl) fun _ => List.prefix_rfl

theorem newMap (entries : Entries) : (Action.newMap entries).Quiet :=
  of_ok (fun _ => rfl) fun _ => List.prefix_rfl

theorem newFunction (definition : FunctionDef) (scope : ScopeId) :
    (Action.newFunction definition scope).Quiet :=
  of_ok (fun _ => rfl) fun _ => List.prefix_rfl

theorem items (id : Nat) : (Action.items id).Quiet :=
  of_ok (fun _ => rfl) fun _ => List.prefix_rfl

theorem entries (id : Nat) : (Action.entries id).Quiet :=
  of_ok (fun _ => rfl) fun _ => List.prefix_rfl

theorem change (f : Heap → Heap) : (Action.change f).Quiet :=
  of_ok (fun _ => rfl) fun _ => List.prefix_rfl

theorem text (v : Value) : (Action.text v).Quiet :=
  of_ok (fun _ => rfl) fun _ => List.prefix_rfl

theorem print (text : String) : (Action.print text).Quiet :=
  of_ok (fun _ => rfl) fun w => by simp

theorem answer {question : Heap → Except EvalError α}
    (proper : ∀ h e, question h = .error e → e.Proper h) : (Action.answer question).Quiet where
  printed ends := by simp [(ends_answer.mp ends).2]
  proper ends := by
    obtain ⟨failed, rfl⟩ := ends_answer.mp ends
    exact proper _ _ failed.symm

theorem proper_of_unlessEndless {h : Heap} {x : Option α} (cycle : x = none → h.KeyCycle)
    (e : EvalError) (failed : unlessEndless x = .error e) : e.Proper h := by
  cases x with
  | some a => cases failed
  | none =>
      cases failed
      exact cycle rfl

theorem proper_of_unlessHalted {h : Heap} {x : Except Halt α}
    (cycle : x = .error .endless → h.KeyCycle) (e : EvalError)
    (failed : unlessHalted x = .error e) : e.Proper h := by
  cases x with
  | ok a => cases failed
  | error halt =>
      cases halt with
      | endless =>
          cases failed
          exact cycle rfl
      | locked =>
          cases failed
          trivial

theorem equal (a b : Value) : (Action.equal a b).Quiet :=
  answer fun _ => proper_of_unlessEndless Heap.keyCycle_of_equal?

theorem lookup (key : Value) (entries : Entries) : (Action.lookup key entries).Quiet :=
  answer fun _ => proper_of_unlessEndless fun missing =>
    let ⟨_, _, missing⟩ := Heap.exists_of_lookup?_eq_none missing
    Heap.keyCycle_of_equal? missing

theorem insert (key value : Value) (entries : Entries) :
    (Action.insert key value entries).Quiet :=
  answer fun _ => proper_of_unlessEndless fun missing =>
    let ⟨_, _, missing⟩ := Heap.exists_of_insert?_eq_none missing
    Heap.keyCycle_of_equal? missing

theorem insertLocked (locked : Nat) (key value : Value) (entries : Entries) :
    (Action.insertLocked locked key value entries).Quiet :=
  answer fun _ => proper_of_unlessHalted fun forever =>
    let ⟨_, _, cycle, _⟩ := Heap.exists_of_insertLocked_eq_endless forever
    cycle.keyCycle

theorem mismatch (cause : Mismatch) : (Action.mismatch cause : Action α).Quiet :=
  .throw fun _ => trivial

theorem proper_of_number? {v : Value} {e : EvalError} (failed : v.number? = .error e) (h : Heap) :
    e.Proper h := by
  cases v <;> cases failed <;> trivial

theorem proper_of_bool? {v : Value} {e : EvalError} (failed : v.bool? = .error e) (h : Heap) :
    e.Proper h := by
  cases v <;> cases failed <;> trivial

theorem number (v : Value) : (Action.number v).Quiet :=
  .ofExcept fun _ failed h => proper_of_number? failed h

/-! ## Operators -/

theorem arithmetic (op : BinaryOp) (f : Float → Float → Float) (a b : Value) :
    (Formwork.arithmetic op f a b).Quiet := by
  unfold Formwork.arithmetic
  split
  · exact .pure _
  · exact .mismatch _

theorem division (op : BinaryOp) (f : Float → Float → Float) (a b : Value) :
    (Formwork.division op f a b).Quiet := by
  unfold Formwork.division
  split
  · split
    · exact .throw fun _ => trivial
    · exact .pure _
  · exact .mismatch _

theorem comparison (op : BinaryOp) (f : Float → Float → Bool) (a b : Value) :
    (Formwork.comparison op f a b).Quiet := by
  unfold Formwork.comparison
  split
  · exact .pure _
  · exact .mismatch _

theorem connective (op : BinaryOp) (f : Bool → Bool → Bool) (a b : Value) :
    (Formwork.connective op f a b).Quiet := by
  unfold Formwork.connective
  split
  · exact .pure _
  · exact .mismatch _

theorem sum (a b : Value) : (Formwork.sum a b).Quiet := by
  unfold Formwork.sum
  split
  · exact .bind (.items _) fun _ => .bind (.items _) fun _ => .newList _
  · exact .arithmetic _ _ _ _

theorem binary (op : BinaryOp) (a b : Value) : (op.apply a b).Quiet := by
  cases op with
  | add => exact .sum a b
  | sub | mul | pow => exact .arithmetic _ _ a b
  | div | mod => exact .division _ _ a b
  | eq | notEq => exact .bind (.equal a b) fun _ => .pure _
  | less | lessEq | greater | greaterEq => exact .comparison _ _ a b
  | xor | and | or => exact .connective _ _ a b

theorem unary (op : UnaryOp) (v : Value) : (op.apply v).Quiet := by
  unfold UnaryOp.apply
  split
  · exact .pure _
  · exact .pure _
  · exact .mismatch _
  · exact .mismatch _

theorem proper_of_listIndex {key : Value} {length bound : Nat} {e : EvalError}
    (failed : listIndex key length bound = .error e) (h : Heap) : e.Proper h := by
  unfold listIndex at failed
  split at failed
  · rename_i refused
    cases failed
    exact proper_of_number? refused h
  · split at failed
    · cases failed
    · cases failed
      trivial

theorem elementAt (target key : Value) : (Formwork.elementAt target key).Quiet := by
  unfold Formwork.elementAt
  split
  · exact .bind (.items _) fun _ =>
      .bind (.ofExcept fun _ failed h => proper_of_listIndex failed h) fun _ => .pure _
  · refine .bind (.entries _) fun _ => .bind (.lookup _ _) fun found => ?_
    cases found with
    | some v => exact .pure v
    | none => exact .bind (.text _) fun _ => .throw fun _ => trivial
  · exact .mismatch _

theorem setElement (target key value : Value) : (Formwork.setElement target key value).Quiet := by
  unfold Formwork.setElement
  split
  · exact .bind (.items _) fun _ =>
      .bind (.ofExcept fun _ failed h => proper_of_listIndex failed h) fun _ => .change _
  · exact .bind (.entries _) fun _ => .bind (.insertLocked _ _ _ _) fun _ => .change _
  · exact .mismatch _

theorem itemsOf (v : Value) : (Formwork.itemsOf v).Quiet := by
  unfold Formwork.itemsOf
  split
  · exact .bind (.items _) fun _ => .pure _
  · exact .bind (.entries _) fun _ => .pure _
  · exact .mismatch _

/-! ## Builtin functions -/

theorem ofNumber {name : String} {f : Float → Action Float} (quiet : ∀ x, (f x).Quiet)
    (args : List Value) : (Builtin.ofNumber name f args).Quiet := by
  unfold Builtin.ofNumber
  split
  · exact .bind (.number _) fun x => .bind (quiet x) fun _ => .pure _
  · exact .mismatch _

theorem foldNumbers (f : Float → Float → Float) (acc : Float) (args : List Value) :
    (Builtin.foldNumbers f acc args).Quiet := by
  induction args generalizing acc with
  | nil => exact .pure acc
  | cons v rest ih => exact .bind (.number v) fun x => ih (f acc x)

theorem ofNumbers (name : String) (f : Float → Float → Float) (args : List Value) :
    (Builtin.ofNumbers name f args).Quiet := by
  cases args with
  | nil => exact .mismatch _
  | cons v rest => exact .bind (.number v) fun x => .bind (.foldNumbers f x rest) fun _ => .pure _

theorem squareRoot (x : Float) : (Builtin.squareRoot x).Quiet := by
  unfold Builtin.squareRoot
  split
  · exact .throw fun _ => trivial
  · exact .pure _

theorem length (args : List Value) : (Builtin.length args).Quiet := by
  unfold Builtin.length
  split
  · exact .bind (.items _) fun _ => .pure _
  · exact .bind (.entries _) fun _ => .pure _
  · exact .mismatch _
  · exact .mismatch _

theorem push (args : List Value) : (Builtin.push args).Quiet := by
  unfold Builtin.push
  split
  · exact .bind (.change _) fun _ => .pure _
  · exact .mismatch _
  · exact .mismatch _

theorem keys (args : List Value) : (Builtin.keys args).Quiet := by
  unfold Builtin.keys
  split
  · exact .bind (.entries _) fun _ => .newList _
  · exact .mismatch _
  · exact .mismatch _

theorem texts (vs : List Value) : (vs.mapM Action.text).Quiet := by
  induction vs with
  | nil => exact .pure []
  | cons v rest ih =>
      rw [List.mapM_cons]
      exact .bind (.text v) fun _ => .bind ih fun _ => .pure _

theorem printLine (args : List Value) : (Builtin.print args).Quiet :=
  .bind (.texts args) fun _ => .bind (.print _) fun _ => .pure _

end Quiet

end Action

namespace Registry

/-- A property of all functions of a registry. -/
def All (P : Builtin → Prop) (r : Registry) : Prop := ∀ entry ∈ r.entries, P entry.2

variable {P : Builtin → Prop} {r : Registry}

theorem All.find? (all : r.All P) {name : String} {builtin : Builtin}
    (found : r.find? name = some builtin) : P builtin := by
  obtain ⟨before, after, same, -⟩ := List.lookup_eq_some_iff.mp found
  exact all (name, builtin) (by simp [same])

theorem All.register (all : r.All P) (name : String) {builtin : Builtin} (holds : P builtin) :
    (r.register name builtin).All P := by
  unfold All Registry.register at *
  generalize r.entries = entries at *
  induction entries with
  | nil => simp [put, holds]
  | cons entry rest ih =>
      obtain ⟨first, later⟩ := List.forall_mem_cons.mp all
      unfold put
      split
      · exact List.forall_mem_cons.mpr ⟨holds, all⟩
      · split
        · exact List.forall_mem_cons.mpr ⟨holds, later⟩
        · exact List.forall_mem_cons.mpr ⟨first, ih later⟩

theorem All.foldl (all : r.All P) {functions : List (String × Builtin)}
    (holds : ∀ f ∈ functions, P f.2) :
    (functions.foldl (fun r (name, builtin) => r.register name builtin) r).All P := by
  induction functions generalizing r with
  | nil => exact all
  | cons f rest ih =>
      exact ih (all.register f.1 (holds f (by simp))) fun g mem => holds g (by simp [mem])

/-- The standard builtin functions are quiet whatever they are given. -/
theorem standard_quiet : standard.All fun builtin => ∀ args, (builtin args).Quiet := by
  have none_yet : empty.All fun builtin => ∀ args, (builtin args).Quiet := by simp [All, empty]
  refine none_yet.foldl ?_
  have numeric (name : String) (f : Float → Float) (args : List Value) :
      (Builtin.ofNumber name (fun x => pure (f x)) args).Quiet := .ofNumber (fun _ => .pure _) args
  simp only [List.forall_mem_cons]
  exact ⟨numeric _ _, numeric _ _, numeric _ _, numeric _ _, numeric _ _, numeric _ _,
    numeric _ _, .ofNumber .squareRoot, .ofNumbers _ _, .ofNumbers _ _, .length, .push, .keys,
    .printLine, by simp⟩

end Registry

namespace Eval

/--
A computation neither reads nor changes the meter, only adds to what was printed, and its errors are
proper ones.
-/
structure Quiet {α : Type} (x : Eval α) : Prop where
  meter {m m' : Machine} {r : Except EvalError α} (ends : x.Ends m r m') : m'.meter = m.meter
  apart {m m' : Machine} {r : Except EvalError α} (ends : x.Ends m r m') (meter : Meter) :
    x.Ends { m with meter := meter } r { m' with meter := meter }
  printed {m m' : Machine} {r : Except EvalError α} (ends : x.Ends m r m') :
    m.world.printed.toList <+: m'.world.printed.toList
  proper {m m' : Machine} {e : EvalError} (ends : x.Ends m (.error e) m') :
    e.Proper m'.world.heap

namespace Quiet

variable {α : Type}

protected theorem act {action : Action α} (quiet : action.Quiet) : (act action).Quiet where
  meter ends := by
    obtain ⟨w, -, rfl⟩ := ends_act.mp ends
    rfl
  apart ends meter := by
    obtain ⟨w, done, rfl⟩ := ends_act.mp ends
    exact ends_act.mpr ⟨w, done, rfl⟩
  printed ends := by
    obtain ⟨w, done, rfl⟩ := ends_act.mp ends
    exact quiet.printed done
  proper ends := by
    obtain ⟨w, done, rfl⟩ := ends_act.mp ends
    exact quiet.proper done

/-- A step that only looks at the scopes and changes them. -/
theorem of_scopes {x : Eval α} {f : Scopes → Except EvalError α} {g : Scopes → Scopes}
    (iff : ∀ {m m' r}, x.Ends m r m' ↔ r = f m.scopes ∧ m' = { m with scopes := g m.scopes })
    (proper : ∀ s e, f s = .error e → ∀ h, e.Proper h) : x.Quiet where
  meter ends := by
    obtain ⟨-, rfl⟩ := iff.mp ends
    rfl
  apart ends meter := by
    obtain ⟨rfl, rfl⟩ := iff.mp ends
    exact iff.mpr ⟨rfl, rfl⟩
  printed ends := by
    obtain ⟨-, rfl⟩ := iff.mp ends
    exact List.prefix_rfl
  proper ends := by
    obtain ⟨same, rfl⟩ := iff.mp ends
    exact proper _ _ same.symm _

theorem ofExcept {r : Except EvalError α} (proper : ∀ e, r = .error e → ∀ h, e.Proper h) :
    (MonadExcept.ofExcept r : Eval α).Quiet :=
  of_scopes (f := fun _ => r) (g := id) EStateM.ends_ofExcept fun _ => proper

protected theorem pure (a : α) : (pure a : Eval α).Quiet :=
  of_scopes (f := fun _ => .ok a) (g := id) EStateM.ends_pure (by simp)

protected theorem throw {e : EvalError} (proper : ∀ h, e.Proper h) :
    (throw e : Eval α).Quiet :=
  of_scopes (f := fun _ => .error e) (g := id) EStateM.ends_throw fun _ _ same =>
    Except.error.inj same ▸ proper

theorem child (parent : ScopeId) : (Eval.child parent).Quiet :=
  of_scopes (f := fun s => .ok ⟨s.frames.size⟩) (g := fun s => (s.child parent).2) ends_child
    (by simp)

theorem define (scope : ScopeId) (name : String) (value : Value) (constant : Bool) :
    (Eval.define scope name value constant).Quiet :=
  of_scopes (f := fun _ => .ok ()) (g := (·.define scope name value constant)) ends_define (by simp)

theorem defineFunction (scope : ScopeId) (definition : FunctionDef) :
    (Eval.defineFunction scope definition).Quiet :=
  of_scopes (f := fun _ => .ok ()) (g := (·.defineFunction scope definition)) ends_defineFunction
    (by simp)

theorem meaning (scope : ScopeId) (name : String) : (Eval.meaning scope name).Quiet :=
  of_scopes (f := fun s => .ok (s.lookup? scope name)) (g := id) ends_meaning (by simp)

theorem assign (scope : ScopeId) (name : String) (value : Value) :
    (Eval.assign scope name value).Quiet := by
  refine of_scopes (g := fun s => (s.assign scope name value).2) (f := fun s =>
    (s.assign scope name value).1.elim (.ok ()) fun e => .error (assignError name e)) ends_assign ?_
  intro s e failed h
  cases refusal : (s.assign scope name value).1 with
  | none => simp [refusal] at failed
  | some reason =>
      obtain rfl : assignError name reason = e := by simpa [refusal] using failed
      cases reason <;> trivial

end Quiet

end Eval

end Formwork
