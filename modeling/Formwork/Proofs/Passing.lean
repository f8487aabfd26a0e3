import Formwork.Eval.Operation
import Formwork.Proofs.Quiet

/-!
# Where function values come from

A value carries the function values that are found inside it. Actions on collections, operators and
the standard builtin functions make no function values: all that is carried afterwards was carried
before, by the same value or by one that the action was given.
-/

namespace Formwork

namespace Heap

/-- A value stands directly in a collection, as an item, as a key or as the value of a key. -/
inductive Inside (h : Heap) : Value → Value → Prop
  | item {i : Nat} {x : Value} (mem : x ∈ h.items i) : Inside h (.list i) x
  | key {i : Nat} {entry : Value × Value} (mem : entry ∈ h.entries i) : Inside h (.map i) entry.1
  | value {i : Nat} {entry : Value × Value} (mem : entry ∈ h.entries i) :
      Inside h (.map i) entry.2

/-- A function value is found inside a value, at any depth. -/
inductive Carries (h : Heap) : Value → Closure → Prop
  | self (c : Closure) : Carries h (.function c) c
  | inside {v x : Value} {c : Closure} (inside : h.Inside v x) (carries : Carries h x c) :
      Carries h v c

/-- Whatever stands in a collection stood there before or is one of some given values. -/
def Adds (given : List Value) (h h' : Heap) : Prop :=
  ∀ v x, h'.Inside v x → h.Inside v x ∨ x ∈ given

/-- A function value that is carried was carried before, if not there then by a given value. -/
def PassesOn (given : List Value) (h h' : Heap) : Prop :=
  ∀ v c, h'.Carries v c → h.Carries v c ∨ ∃ u ∈ given, h.Carries u c

variable {h h' : Heap} {given : List Value}

theorem Adds.passesOn (adds : Adds given h h') : PassesOn given h h' := by
  intro v c carries
  induction carries with
  | self c => exact .inl (.self c)
  | @inside v x c inside carries ih =>
      obtain old | new := adds v x inside
      · exact ih.imp_left (.inside old)
      · obtain here | given := ih
        · exact .inr ⟨x, new, here⟩
        · exact .inr given

theorem not_carries_number (x : Float) (c : Closure) : ¬ h.Carries (.number x) c := by
  rintro (_ | ⟨⟨⟩, _⟩)

theorem not_carries_bool (b : Bool) (c : Closure) : ¬ h.Carries (.bool b) c := by
  rintro (_ | ⟨⟨⟩, _⟩)

theorem not_carries_unit (c : Closure) : ¬ h.Carries .unit c := by
  rintro (_ | ⟨⟨⟩, _⟩)

theorem PassesOn.refl (given : List Value) (h : Heap) : PassesOn given h h :=
  fun _ _ => .inl

/-! ## Changes of the heap -/

theorem Adds.of_items (lists : ∀ i x, x ∈ h'.items i → x ∈ h.items i ∨ x ∈ given)
    (maps : ∀ i, h'.entries i = h.entries i) : Adds given h h' := by
  intro v x inside
  cases inside with
  | item mem => exact (lists _ _ mem).imp_left .item
  | key mem => exact .inl (.key (maps _ ▸ mem))
  | value mem => exact .inl (.value (maps _ ▸ mem))

end Heap

/-- The keys and values of entries. -/
def entryValues (entries : Entries) : List Value := entries.flatMap fun entry => [entry.1, entry.2]

theorem mem_entryValues {entries : Entries} {x : Value} :
    x ∈ entryValues entries ↔ ∃ entry ∈ entries, x = entry.1 ∨ x = entry.2 := by
  simp [entryValues]

theorem key_mem_entryValues {entries : Entries} {entry : Value × Value} (mem : entry ∈ entries) :
    entry.1 ∈ entryValues entries :=
  mem_entryValues.mpr ⟨entry, mem, .inl rfl⟩

theorem value_mem_entryValues {entries : Entries} {entry : Value × Value} (mem : entry ∈ entries) :
    entry.2 ∈ entryValues entries :=
  mem_entryValues.mpr ⟨entry, mem, .inr rfl⟩

theorem keys_subset_entryValues (entries : Entries) : entries.map (·.1) ⊆ entryValues entries := by
  intro x mem
  obtain ⟨entry, stands, rfl⟩ := List.mem_map.mp mem
  exact key_mem_entryValues stands

namespace Heap

variable {h : Heap}

theorem Adds.of_entries {h' : Heap} {entries : Entries} (lists : ∀ i, h'.items i = h.items i)
    (maps : ∀ i entry, entry ∈ h'.entries i → entry ∈ h.entries i ∨ entry ∈ entries) :
    Adds (entryValues entries) h h' := by
  intro v x inside
  cases inside with
  | item mem => exact .inl (.item (lists _ ▸ mem))
  | key mem => exact (maps _ _ mem).imp .key key_mem_entryValues
  | value mem => exact (maps _ _ mem).imp .value value_mem_entryValues

theorem adds_newList (items : Array Value) : Adds items.toList h (h.newList items).2 := by
  refine .of_items (fun i x mem => ?_) fun _ => rfl
  rw [items_newList] at mem
  split at mem
  · exact .inr mem.val
  · exact .inl mem

theorem adds_newMap (entries : Entries) : Adds (entryValues entries) h (h.newMap entries).2 := by
  refine .of_entries (fun _ => rfl) fun i entry mem => ?_
  rw [entries_newMap] at mem
  split at mem
  · exact .inr mem
  · exact .inl mem

theorem adds_newFunction (definition : FunctionDef) (scope : ScopeId) :
    Adds [] h (h.newFunction definition scope).2 :=
  .of_items (fun _ _ => .inl) fun _ => rfl

theorem adds_pushItem (id : Nat) (v : Value) : Adds [v] h (h.pushItem id v) := by
  refine .of_items (fun i x mem => ?_) fun _ => rfl
  rw [items_pushItem] at mem
  split at mem
  · simpa using Array.mem_push.mp mem
  · exact .inl mem

theorem adds_setItem (id n : Nat) (v : Value) : Adds [v] h (h.setItem id n v) := by
  refine .of_items (fun i x mem => ?_) fun _ => rfl
  rw [items_setItem] at mem
  split at mem
  · simpa using Array.mem_or_eq_of_mem_setIfInBounds mem
  · exact .inl mem

theorem adds_setEntries (id : Nat) (entries : Entries) :
    Adds (entryValues entries) h (h.setEntries id entries) := by
  refine .of_entries (fun _ => rfl) fun i entry mem => ?_
  rw [entries_setEntries] at mem
  split at mem
  · exact .inr mem
  · exact .inl mem

theorem entryValues_insertKey {m : Type → Type} [Monad m] [Endless m] [LawfulEndless m]
    {sameKey : Value → Value → m Bool} {key value : Value} {entries entries' : Entries}
    (inserted : insertKey sameKey key value entries = pure entries') :
    entryValues entries' ⊆ key :: value :: entryValues entries := by
  intro x mem
  obtain ⟨before, k, v, after, rfl, rfl⟩ | ⟨rfl, -⟩ := insertKey_eq_pure inserted
  · simp only [entryValues, List.flatMap_append, List.flatMap_cons, List.mem_append, List.mem_cons,
      List.not_mem_nil, or_false] at mem ⊢
    tauto
  · simp only [entryValues, List.flatMap_append, List.flatMap_cons, List.flatMap_nil,
      List.mem_append, List.mem_cons, List.not_mem_nil, or_false] at mem ⊢
    tauto

end Heap

namespace Action

/--
An action makes no function values: those that its result or a collection carries afterwards were
carried before, by the same collection or by one of the values that the action was given.
-/
structure Passes {α : Type} (given : List Value) (action : Action α) (gives : α → List Value) :
    Prop where
  heap {w w' : World} {r : Except EvalError α} (ends : action.Ends w r w') :
    Heap.PassesOn given w.heap w'.heap
  result {w w' : World} {a : α} (ends : action.Ends w (.ok a) w') {v : Value} {c : Closure}
    (mem : v ∈ gives a) (carries : w'.heap.Carries v c) : ∃ u ∈ given, w.heap.Carries u c

namespace Passes

variable {α β : Type} {given : List Value} {gives : α → List Value}

theorem of_subset {given' : List Value} {action : Action α} (passes : action.Passes given gives)
    (subset : given ⊆ given') : action.Passes given' gives where
  heap ends v c carries :=
    (passes.heap ends v c carries).imp_right fun ⟨u, mem, before⟩ => ⟨u, subset mem, before⟩
  result ends _ _ mem carries :=
    let ⟨u, mem, before⟩ := passes.result ends mem carries
    ⟨u, subset mem, before⟩

/-- What is given to the second part of an action comes from what was given to the first. -/
theorem carried_before {action : Action α} (passes : action.Passes given gives) {w t : World}
    {a : α} (ends : action.Ends w (.ok a) t) {u : Value} {c : Closure} (mem : u ∈ given ++ gives a)
    (carries : t.heap.Carries u c) : ∃ u ∈ given, w.heap.Carries u c := by
  obtain old | new := List.mem_append.mp mem
  · obtain before | other := passes.heap ends u c carries
    · exact ⟨u, old, before⟩
    · exact other
  · exact passes.result ends new carries

protected theorem bind {action : Action α} {f : α → Action β} {gives' : β → List Value}
    (first : action.Passes given gives) (second : ∀ a, (f a).Passes (given ++ gives a) gives') :
    (action >>= f).Passes given gives' where
  heap ends v c carries := by
    obtain ⟨e, -, failed⟩ | ⟨a, t, ended, later⟩ := EStateM.ends_bind.mp ends
    · exact first.heap failed v c carries
    · obtain same | ⟨u, mem, before⟩ := (second a).heap later v c carries
      · exact first.heap ended v c same
      · exact .inr (first.carried_before ended mem before)
  result ends _ _ mem carries := by
    obtain ⟨e, same, -⟩ | ⟨a, t, ended, later⟩ := EStateM.ends_bind.mp ends
    · cases same
    · obtain ⟨u, mem, before⟩ := (second a).result later mem carries
      exact first.carried_before ended mem before

theorem of_ok {action : Action α} {f : World → α} {g : World → World}
    (eq : ∀ w, action w = .ok (f w) (g w))
    (passes : ∀ w, Heap.PassesOn given w.heap (g w).heap)
    (result : ∀ w, ∀ v ∈ gives (f w), ∀ c, (g w).heap.Carries v c →
      ∃ u ∈ given, w.heap.Carries u c) : action.Passes given gives where
  heap ends := by
    obtain ⟨-, rfl⟩ := (EStateM.ends_of_ok (eq _)).mp ends
    exact passes _
  result ends _ _ mem carries := by
    obtain ⟨same, rfl⟩ := (EStateM.ends_of_ok (eq _)).mp ends
    cases same
    exact result _ _ mem _ carries

protected theorem pure {a : α} (subset : gives a ⊆ given) :
    (pure a : Action α).Passes given gives :=
  of_ok (fun _ => rfl) (fun _ => .refl _ _) fun _ v mem _ carries => ⟨v, subset mem, carries⟩

protected theorem throw (e : EvalError) : (throw e : Action α).Passes given gives where
  heap ends := by
    obtain ⟨-, rfl⟩ := EStateM.ends_throw.mp ends
    exact .refl _ _
  result ends := by cases (EStateM.ends_throw.mp ends).1

theorem ofExcept (r : Except EvalError α) :
    (MonadExcept.ofExcept r : Action α).Passes given fun _ => [] := by
  cases r with
  | ok a => exact .pure (by simp)
  | error e => exact .throw e

/-- A number, a truth value or nothing carries no function value. -/
theorem plain {v : Value} (plain : ∀ h c, ¬ Heap.Carries h v c) :
    (pure v : Action Value).Passes given fun v => [v] := by
  refine of_ok (fun _ => rfl) (fun _ => .refl _ _) fun w u mem c carries => ?_
  obtain rfl : u = v := by simpa using mem
  exact (plain _ _ carries).elim

theorem number (x : Float) : (pure (.number x) : Action Value).Passes given fun v => [v] :=
  plain fun _ => Heap.not_carries_number x

theorem bool (b : Bool) : (pure (.bool b) : Action Value).Passes given fun v => [v] :=
  plain fun _ => Heap.not_carries_bool b

theorem unit : (pure .unit : Action Value).Passes given fun v => [v] :=
  plain fun _ => Heap.not_carries_unit

/-! ## Actions on collections -/

/-- An action that reads the world and gives back none of its values. -/
theorem read {action : Action α} {f : World → α} (eq : ∀ w, action w = .ok (f w) w) :
    action.Passes given fun _ => [] :=
  of_ok eq (fun _ => .refl _ _) (by simp)

theorem items (id : Nat) : (Action.items id).Passes [.list id] fun xs => xs.toList := by
  refine of_ok (fun _ => rfl) (fun _ => .refl _ _) fun w v mem c carries => ?_
  exact ⟨.list id, by simp, .inside (.item (Array.mem_toList_iff.mp mem)) carries⟩

theorem entries (id : Nat) : (Action.entries id).Passes [.map id] entryValues := by
  refine of_ok (fun _ => rfl) (fun _ => .refl _ _) fun w v mem c carries => ?_
  obtain ⟨entry, stands, here⟩ := List.mem_flatMap.mp mem
  refine ⟨.map id, by simp, ?_⟩
  obtain rfl | rfl : v = entry.1 ∨ v = entry.2 := by simpa using here
  · exact .inside (.key stands) carries
  · exact .inside (.value stands) carries

theorem newList (items : Array Value) :
    (Action.newList items).Passes items.toList fun v => [v] := by
  refine of_ok (fun _ => rfl) (fun w => (Heap.adds_newList items).passesOn)
    fun w v mem c carries => ?_
  obtain before | given := (Heap.adds_newList items).passesOn v c carries
  · obtain rfl : v = .list w.heap.lists.size := by simpa using mem
    cases before with
    | inside inside =>
        cases inside with
        | item stands => simp [Heap.items] at stands
  · exact given

theorem newMap (entries : Entries) :
    (Action.newMap entries).Passes (entryValues entries) fun v => [v] := by
  refine of_ok (fun _ => rfl) (fun w => (Heap.adds_newMap entries).passesOn)
    fun w v mem c carries => ?_
  obtain before | given := (Heap.adds_newMap entries).passesOn v c carries
  · obtain rfl : v = .map w.heap.maps.size := by simpa using mem
    cases before with
    | inside inside =>
        cases inside with
        | key stands => simp [Heap.entries] at stands
        | value stands => simp [Heap.entries] at stands
  · exact given

theorem change {f : Heap → Heap} (adds : ∀ h, Heap.Adds given h (f h)) :
    (Action.change f).Passes given fun _ => [] :=
  of_ok (fun _ => rfl) (fun w => (adds w.heap).passesOn) (by simp)

/-- A question about the collections whose answer holds only given values. -/
theorem answer {question : Heap → Except EvalError α}
    (known : ∀ h a, question h = .ok a → gives a ⊆ given) :
    (Action.answer question).Passes given gives where
  heap ends := by
    obtain ⟨-, rfl⟩ := ends_answer.mp ends
    exact .refl _ _
  result {w w' a} ends v c mem carries := by
    obtain ⟨answered, rfl⟩ := ends_answer.mp ends
    exact ⟨v, known _ _ answered.symm mem, carries⟩

theorem lookup (key : Value) (entries : Entries) :
    (Action.lookup key entries).Passes (entryValues entries) Option.toList := by
  refine answer fun h found looked => ?_
  cases found with
  | none => simp
  | some v =>
      obtain ⟨k, mem, -⟩ := exists_of_findKey?_eq_pure (eq_some_of_unlessEndless looked)
      simpa using value_mem_entryValues mem

theorem insert (key value : Value) (entries : Entries) :
    (Action.insert key value entries).Passes (key :: value :: entryValues entries) entryValues :=
  answer fun _ _ inserted => Heap.entryValues_insertKey (eq_some_of_unlessEndless inserted)

theorem insertLocked (locked : Nat) (key value : Value) (entries : Entries) :
    (Action.insertLocked locked key value entries).Passes (key :: value :: entryValues entries)
      entryValues :=
  answer fun _ _ inserted => Heap.entryValues_insertKey (eq_ok_of_unlessHalted inserted)

/-! ## Operators -/

theorem arithmetic (op : BinaryOp) (f : Float → Float → Float) (a b : Value) :
    (Formwork.arithmetic op f a b).Passes given fun v => [v] := by
  unfold Formwork.arithmetic
  split
  · exact .number _
  · exact .throw _

theorem division (op : BinaryOp) (f : Float → Float → Float) (a b : Value) :
    (Formwork.division op f a b).Passes given fun v => [v] := by
  unfold Formwork.division
  split
  · split
    · exact .throw _
    · exact .number _
  · exact .throw _

theorem comparison (op : BinaryOp) (f : Float → Float → Bool) (a b : Value) :
    (Formwork.comparison op f a b).Passes given fun v => [v] := by
  unfold Formwork.comparison
  split
  · exact .bool _
  · exact .throw _

theorem connective (op : BinaryOp) (f : Bool → Bool → Bool) (a b : Value) :
    (Formwork.connective op f a b).Passes given fun v => [v] := by
  unfold Formwork.connective
  split
  · exact .bool _
  · exact .throw _

theorem sum (a b : Value) : (Formwork.sum a b).Passes [a, b] fun v => [v] := by
  unfold Formwork.sum
  split
  · exact .bind ((items _).of_subset (by simp)) fun xs => .bind ((items _).of_subset (by simp))
      fun ys => (newList _).of_subset (by simp)
  · exact .arithmetic _ _ _ _

theorem equal (a b : Value) : (Action.equal a b).Passes given fun _ => [] :=
  answer (by simp)

theorem binary (op : BinaryOp) (a b : Value) : (op.apply a b).Passes [a, b] fun v => [v] := by
  cases op with
  | add => exact .sum a b
  | sub | mul | pow => exact .arithmetic _ _ a b
  | div | mod => exact .division _ _ a b
  | eq | notEq => exact .bind (.equal a b) fun _ => .bool _
  | less | lessEq | greater | greaterEq => exact .comparison _ _ a b
  | xor | and | or => exact .connective _ _ a b

theorem unary (op : UnaryOp) (v : Value) : (op.apply v).Passes [v] fun v => [v] := by
  unfold UnaryOp.apply
  split
  · exact .number _
  · exact .bool _
  · exact .throw _
  · exact .throw _

theorem elementAt (target key : Value) :
    (Formwork.elementAt target key).Passes [target, key] fun v => [v] := by
  unfold Formwork.elementAt
  split
  · refine .bind ((items _).of_subset (by simp)) fun xs => .bind (.ofExcept _) fun i => ?_
    by_cases lt : i < xs.size
    · exact .pure (by simp [Array.getD, lt])
    · simpa [Array.getD, lt] using unit
  · refine .bind ((entries _).of_subset (by simp)) fun es =>
      .bind ((lookup _ _).of_subset (by simp)) fun found => ?_
    cases found with
    | some v => exact .pure (by simp)
    | none => exact .bind (.read fun _ => rfl) fun _ => .throw _
  · exact .throw _

theorem setElement (target key value : Value) :
    (Formwork.setElement target key value).Passes [target, key, value] fun _ => [] := by
  unfold Formwork.setElement
  split
  · refine .bind ((items _).of_subset (by simp)) fun xs => .bind (.ofExcept _) fun i => ?_
    refine of_subset (.change fun h => ?_) (show [value] ⊆ _ by simp)
    split
    · exact Heap.adds_pushItem _ _
    · exact Heap.adds_setItem _ _ _
  · refine .bind ((entries _).of_subset (by simp)) fun es =>
      .bind ((insertLocked _ _ _ _).of_subset (by simp)) fun es' => ?_
    exact (change fun h => Heap.adds_setEntries _ es').of_subset fun x mem => by simp [mem]
  · exact .throw _

theorem itemsOf (v : Value) : (Formwork.itemsOf v).Passes [v] id := by
  unfold Formwork.itemsOf
  split
  · exact .bind (items _) fun _ => .pure (by simp)
  · exact .bind (entries _) fun es =>
      .pure fun x mem => List.mem_append_right _ (keys_subset_entryValues es mem)
  · exact .throw _

/-! ## Builtin functions -/

theorem ofNumber {name : String} {f : Float → Action Float}
    (passes : ∀ x given, (f x).Passes given fun _ => []) (args : List Value) :
    (Builtin.ofNumber name f args).Passes args fun v => [v] := by
  unfold Builtin.ofNumber
  split
  · exact .bind (.ofExcept _) fun x => .bind (passes x _) fun _ => .number _
  · exact .throw _

theorem foldNumbers (f : Float → Float → Float) (acc : Float) (args : List Value) :
    (Builtin.foldNumbers f acc args).Passes given fun _ => [] := by
  induction args generalizing acc given with
  | nil => exact .pure (by simp)
  | cons v rest ih => exact .bind (.ofExcept _) fun x => ih (f acc x)

theorem ofNumbers (name : String) (f : Float → Float → Float) (args : List Value) :
    (Builtin.ofNumbers name f args).Passes args fun v => [v] := by
  cases args with
  | nil => exact .throw _
  | cons v rest =>
      exact .bind (.ofExcept _) fun x => .bind (.foldNumbers f x rest) fun _ => .number _

theorem squareRoot (x : Float) : (Builtin.squareRoot x).Passes given fun _ => [] := by
  unfold Builtin.squareRoot
  split
  · exact .throw _
  · exact .pure (by simp)

theorem length (args : List Value) : (Builtin.length args).Passes args fun v => [v] := by
  unfold Builtin.length
  split
  · exact .bind (items _) fun _ => .number _
  · exact .bind (entries _) fun _ => .number _
  · exact .throw _
  · exact .throw _

theorem push (args : List Value) : (Builtin.push args).Passes args fun v => [v] := by
  unfold Builtin.push
  split
  · exact .bind ((change fun h => Heap.adds_pushItem _ _).of_subset (by simp)) fun _ =>
      .pure (by simp)
  · exact .throw _
  · exact .throw _

theorem keys (args : List Value) : (Builtin.keys args).Passes args fun v => [v] := by
  unfold Builtin.keys
  split
  · exact .bind (entries _) fun es => (newList _).of_subset fun x mem =>
      List.mem_append_right _ (keys_subset_entryValues es mem)
  · exact .throw _
  · exact .throw _

theorem texts (vs : List Value) : (vs.mapM Action.text).Passes given fun _ => [] := by
  induction vs generalizing given with
  | nil => exact .pure (by simp)
  | cons v rest ih =>
      rw [List.mapM_cons]
      exact .bind (.read fun _ => rfl) fun _ => .bind ih fun _ => .pure (by simp)

theorem printLine (args : List Value) : (Builtin.print args).Passes args fun v => [v] := by
  have printed (given : List Value) (line : String) :
      (Action.print line).Passes given fun _ => [] :=
    of_ok (fun _ => rfl) (fun _ => .refl _ _) (by simp)
  exact .bind (.texts args) fun line => .bind (printed _ _) fun _ => .unit

end Passes

end Action

namespace Registry

/-- The functions of a registry make no function values. -/
def Passing (r : Registry) : Prop :=
  r.All fun builtin => ∀ args, (builtin args).Passes args fun v => [v]

theorem standard_passing : standard.Passing := by
  have none_yet : empty.Passing := by simp [Passing, All, empty]
  refine none_yet.foldl ?_
  have numeric (name : String) (f : Float → Float) (args : List Value) :
      (Builtin.ofNumber name (fun x => pure (f x)) args).Passes args fun v => [v] :=
    .ofNumber (fun _ _ => .pure (by simp)) args
  simp only [List.forall_mem_cons]
  exact ⟨numeric _ _, numeric _ _, numeric _ _, numeric _ _, numeric _ _, numeric _ _,
    numeric _ _, .ofNumber fun x _ => .squareRoot x, .ofNumbers _ _, .ofNumbers _ _, .length,
    .push, .keys, .printLine, by simp⟩

end Registry

end Formwork
