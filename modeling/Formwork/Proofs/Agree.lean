import Formwork.Eval.Operation
import Formwork.Eval.Standard
import Formwork.Proofs.Alike
import Formwork.Proofs.Quiet

/-!
# Computations that agree

Two computations agree when, begun in states that are alike, they fail with the same error or give
results that are related, and lead to states that are alike again. Sequences of computations that
agree agree. The single steps of the machine do when they are given paired scopes and related
values, and so do operators and the standard builtin functions: none of them shows by which numbers
scopes, collections and function values are told apart.
-/

namespace Formwork

/-- Two computations fail with the same error, or both have results, which are related. -/
inductive SameOutcome {α β : Type} (related : α → β → Prop) :
    Except EvalError α → Except EvalError β → Prop
  | failed (e : EvalError) : SameOutcome related (.error e) (.error e)
  | answered {a : α} {b : β} (holds : related a b) : SameOutcome related (.ok a) (.ok b)

namespace SameOutcome

variable {α β : Type} {S : α → β → Prop} {T : β → α → Prop}

/-- Two questions that do what the other does have the same outcome. -/
theorem unlessEndless {x : Option α} {y : Option β} (there : Approximates S x y)
    (back : Approximates T y x) :
    SameOutcome S (Action.unlessEndless x) (Action.unlessEndless y) := by
  cases there with
  | endless y =>
      obtain rfl := back.eq_endless rfl
      exact .failed _
  | answer related => exact .answered related
  | brokenOff broken _ =>
      cases x with
      | none => exact absurd rfl (broken pure pure).2.1
      | some a => exact absurd rfl ((broken pure pure).2.2 a)

theorem unlessHalted {x : Except Halt α} {y : Except Halt β} (there : Approximates S x y)
    (back : Approximates T y x) :
    SameOutcome S (Action.unlessHalted x) (Action.unlessHalted y) := by
  cases there with
  | endless y =>
      obtain rfl := back.eq_endless rfl
      exact .failed _
  | answer related => exact .answered related
  | brokenOff broken alike =>
      cases x with
      | ok a => exact absurd rfl ((broken pure pure).2.2 a)
      | error halt =>
          cases y with
          | ok b => cases alike (fun _ => pure ()) fun _ => pure ()
          | error halt' =>
              obtain rfl : halt = halt' :=
                Except.error.inj (alike (fun _ => pure ()) fun _ => pure ())
              cases halt <;> exact .failed _

end SameOutcome

namespace Pairing

/-- Names that are used for related values, or for a function found in paired scopes. -/
inductive RelatesMeaning (ρ : Pairing) : Meaning → Meaning → Prop
  | value {v v' : Value} (related : ρ.Relates v v') : RelatesMeaning ρ (.value v) (.value v')
  | function (definition : FunctionDef) {scope scope' : ScopeId}
      (paired : ρ .scope scope.index scope'.index) :
      RelatesMeaning ρ (.function definition scope) (.function definition scope')

theorem Relates.number?_eq {ρ : Pairing} {v v' : Value} (related : ρ.Relates v v') :
    v.number? = v'.number? := by
  cases related <;> rfl

theorem Relates.bool?_eq {ρ : Pairing} {v v' : Value} (related : ρ.Relates v v') :
    v.bool? = v'.bool? := by
  cases related <;> rfl

end Pairing

/-- Lists that are related item by item stay so when one item is replaced on both sides. -/
theorem forall₂_set {R : Value → Value → Prop} {v v' : Value} (related : R v v') (index : Nat)
    {xs ys : List Value} (items : List.Forall₂ R xs ys) :
    List.Forall₂ R (xs.set index v) (ys.set index v') := by
  induction items generalizing index with
  | nil => exact .nil
  | cons first others ih =>
      cases index with
      | zero => exact .cons related others
      | succ index => exact .cons first (ih index)

theorem forall₂_getElem? {R : Value → Value → Prop} {xs ys : List Value}
    (items : List.Forall₂ R xs ys) (index : Nat) : Option.Rel R xs[index]? ys[index]? := by
  induction items generalizing index with
  | nil => exact .none
  | cons first _ ih =>
      cases index with
      | zero => exact .some first
      | succ index => exact ih index

namespace Eval

variable {ρ : Pairing} {α α' β β' : Type}

/--
Begun in any two states that are alike, where at least what `ρ` pairs is paired, two computations
have the same outcome and lead to states that are alike.
-/
def Agree (ρ : Pairing) (x : Eval α) (x' : Eval α') (expected : Pairing → α → α' → Prop) : Prop :=
  ∀ ⦃σ m m' r r' n n'⦄, ρ ≤ σ → m.Alike σ m' → x.Ends m r n → x'.Ends m' r' n' →
    ∃ τ, Machine.Evolves σ m m' τ n n' ∧ SameOutcome (expected τ) r r'

theorem act_bind (y : Action α) (f : α → Action β) :
    act (y >>= f) = act y >>= fun a => act (f a) := by
  funext m
  simp only [act, bind, EStateM.bind]
  cases y m.world <;> rfl

namespace Agree

variable {x : Eval α} {x' : Eval α'} {expected : Pairing → α → α' → Prop}
  {expected' : Pairing → β → β' → Prop}

/-- Computations that never fail. -/
theorem of_ok {result : Machine → α} {result' : Machine → α'} {next next' : Machine → Machine}
    (eq : ∀ m, x m = .ok (result m) (next m)) (eq' : ∀ m, x' m = .ok (result' m) (next' m))
    (step : ∀ σ m m', ρ ≤ σ → m.Alike σ m' →
      ∃ τ, Machine.Evolves σ m m' τ (next m) (next' m') ∧ expected τ (result m) (result' m')) :
    x.Agree ρ x' expected := by
  intro σ m m' r r' n n' more alike ends ends'
  obtain ⟨rfl, rfl⟩ := (EStateM.ends_of_ok (eq m)).mp ends
  obtain ⟨rfl, rfl⟩ := (EStateM.ends_of_ok (eq' m')).mp ends'
  obtain ⟨τ, evolves, holds⟩ := step σ m m' more alike
  exact ⟨τ, evolves, .answered holds⟩

/-- What holds under a pairing holds where more is paired. -/
theorem mono {σ : Pairing} (agree : x.Agree ρ x' expected) (more : ρ ≤ σ) :
    x.Agree σ x' expected :=
  fun _ _ _ _ _ _ _ more' => agree (more.trans more')

protected theorem pure {a : α} {a' : α'} (holds : ∀ σ, ρ ≤ σ → expected σ a a') :
    (pure a : Eval α).Agree ρ (pure a' : Eval α') expected :=
  of_ok (fun _ => rfl) (fun _ => rfl) fun σ _ _ more alike => ⟨σ, .refl alike, holds σ more⟩

protected theorem throw (e : EvalError) :
    (throw e : Eval α).Agree ρ (throw e : Eval α') expected := by
  intro σ m m' r r' n n' more alike ends ends'
  obtain ⟨rfl, rfl⟩ := EStateM.ends_throw.mp ends
  obtain ⟨rfl, rfl⟩ := EStateM.ends_throw.mp ends'
  exact ⟨σ, .refl alike, .failed e⟩

theorem ofExcept {r r' : Except EvalError α} (same : r = r') :
    (MonadExcept.ofExcept r : Eval α).Agree ρ (MonadExcept.ofExcept r') fun _ a a' => a = a' := by
  subst same
  cases r with
  | error e => exact .throw e
  | ok a => exact .pure fun _ _ => rfl

protected theorem bind {f : α → Eval β} {f' : α' → Eval β'} (first : x.Agree ρ x' expected)
    (second : ∀ a a' σ, ρ ≤ σ → expected σ a a' → (f a).Agree σ (f' a') expected') :
    (x >>= f).Agree ρ (x' >>= f') expected' := by
  intro σ m m' r r' n n' more alike ends ends'
  obtain ⟨e, rfl, failed⟩ | ⟨a, t, done, rest⟩ := EStateM.ends_bind.mp ends
  · obtain ⟨e', rfl, failed'⟩ | ⟨a', t', done', rest'⟩ := EStateM.ends_bind.mp ends'
    · obtain ⟨τ, evolves, outcome⟩ := first more alike failed failed'
      cases outcome
      exact ⟨τ, evolves, .failed e⟩
    · obtain ⟨τ, evolves, outcome⟩ := first more alike failed done'
      cases outcome
  · obtain ⟨e', rfl, failed'⟩ | ⟨a', t', done', rest'⟩ := EStateM.ends_bind.mp ends'
    · obtain ⟨τ, evolves, outcome⟩ := first more alike done failed'
      cases outcome
    · obtain ⟨τ, evolves, outcome⟩ := first more alike done done'
      cases outcome with
      | answered holds =>
          obtain ⟨υ, evolves', outcome'⟩ := second a a' τ (more.trans evolves.more) holds
            (le_refl τ) evolves.alike rest rest'
          exact ⟨υ, evolves.trans evolves', outcome'⟩

/-! ## The machine -/

theorem exhausted : (Eval.exhausted : Eval α).Agree ρ (Eval.exhausted : Eval α') expected := by
  intro σ m m' r r' n n' more alike ends ends'
  obtain ⟨rfl, rfl⟩ := ends_exhausted.mp ends
  obtain ⟨rfl, rfl⟩ := ends_exhausted.mp ends'
  rw [alike.meters.budget]
  exact ⟨σ, .refl alike, .failed _⟩

theorem tick (later : x.Agree ρ x' expected) :
    (Eval.tick >>= fun _ => x).Agree ρ (Eval.tick >>= fun _ => x') expected := by
  intro σ m m' r r' n n' more alike ends ends'
  have counted := alike.counted
  obtain ⟨budget, used, -, -, clock⟩ := alike.meters
  have now := clock (m.meter.used + 1)
  rw [ends_tick_bind] at ends ends'
  rw [← budget, ← used] at ends'
  obtain ⟨beyond, rfl, rfl⟩ | ⟨under, late, rfl, rfl⟩ | ⟨under, prompt, rest⟩ := ends
  · obtain ⟨-, rfl, rfl⟩ | ⟨under', -⟩ | ⟨under', -⟩ := ends'
    · exact ⟨σ, counted, .failed _⟩
    · omega
    · omega
  · obtain ⟨beyond', -⟩ | ⟨-, late', rfl, rfl⟩ | ⟨-, prompt', -⟩ := ends'
    · omega
    · obtain same | both := now
      · rw [same]
        exact ⟨σ, counted, .failed _⟩
      · omega
    · omega
  · obtain ⟨beyond', -⟩ | ⟨-, late', -⟩ | ⟨-, -, rest'⟩ := ends'
    · omega
    · omega
    · obtain ⟨τ, evolves, outcome⟩ := later more counted.alike rest rest'
      exact ⟨τ, counted.trans evolves, outcome⟩

theorem rounds {f : Nat → Eval α} {f' : Nat → Eval α'}
    (later : ∀ n, (f n).Agree ρ (f' n) expected) :
    (Eval.rounds >>= f).Agree ρ (Eval.rounds >>= f') expected := by
  intro σ m m' r r' n n' more alike ends ends'
  have same : m'.meter.remaining = m.meter.remaining := by
    simp [Meter.remaining, alike.meters.budget, alike.meters.used]
  rw [ends_rounds_bind] at ends ends'
  rw [same] at ends'
  exact later _ more alike ends ends'

theorem inCall (body : x.Agree ρ x' expected) :
    (Eval.inCall x).Agree ρ (Eval.inCall x') expected := by
  intro σ m m' r r' n n' more alike ends ends'
  obtain ⟨budget, -, depth, -⟩ := alike.meters
  rw [ends_inCall] at ends ends'
  rw [← budget, ← depth] at ends'
  obtain ⟨deep, rfl, rfl⟩ | ⟨shallow, t, inside, rfl⟩ := ends
  · obtain ⟨-, rfl, rfl⟩ | ⟨shallow', -⟩ := ends'
    · exact ⟨σ, .refl alike, .failed _⟩
    · omega
  · obtain ⟨deep', -⟩ | ⟨-, t', inside', rfl⟩ := ends'
    · omega
    · obtain ⟨τ, evolves, outcome⟩ := body more alike.entered.alike inside inside'
      exact ⟨τ, (alike.entered.trans evolves).trans evolves.alike.left, outcome⟩

theorem child {parent parent' : ScopeId} (paired : ρ .scope parent.index parent'.index) :
    (Eval.child parent).Agree ρ (Eval.child parent') fun σ s s' => σ .scope s.index s'.index := by
  refine of_ok (fun _ => rfl) (fun _ => rfl) fun σ m m' more alike => ?_
  have older := alike.lt_count (more paired)
  refine ⟨alike.next .scope, alike.add (m.adds_child parent) (m'.adds_child parent') ?_,
    alike.next_self .scope⟩
  exact .scope ⟨.nil, .some ⟨older, alike.le_next .scope (more paired)⟩⟩

/-- A name is bound in paired scopes to what is related. -/
theorem ofBind {scope scope' : ScopeId} (paired : ρ .scope scope.index scope'.index) (name : String)
    {b b' : Binding} (bound : ρ.RelatesBinding b b') {m m' : Machine} (alike : m.Alike ρ m') :
    Machine.Evolves ρ m m' ρ { m with scopes := m.scopes.bind scope name b }
      { m' with scopes := m'.scopes.bind scope' name b' } :=
  alike.change paired (m.changes_bind scope name b) (m'.changes_bind scope' name b')
    fun related => related.onScope fun scopes => scopes.bind name bound

theorem define {scope scope' : ScopeId} (paired : ρ .scope scope.index scope'.index) (name : String)
    {v v' : Value} (related : ρ.Relates v v') (constant : Bool) :
    (Eval.define scope name v constant).Agree ρ (Eval.define scope' name v' constant)
      fun _ _ _ => True :=
  of_ok (fun _ => rfl) (fun _ => rfl) fun σ _ _ more alike =>
    ⟨σ, ofBind (more paired) name (.value (related.mono more) constant) alike, trivial⟩

theorem defineFunction {scope scope' : ScopeId} (paired : ρ .scope scope.index scope'.index)
    (definition : FunctionDef) :
    (Eval.defineFunction scope definition).Agree ρ (Eval.defineFunction scope' definition)
      fun _ _ _ => True :=
  of_ok (fun _ => rfl) (fun _ => rfl) fun σ _ _ more alike =>
    ⟨σ, ofBind (more paired) definition.displayName (.function definition) alike, trivial⟩

theorem assign {scope scope' : ScopeId} (paired : ρ .scope scope.index scope'.index) (name : String)
    {v v' : Value} (related : ρ.Relates v v') :
    (Eval.assign scope name v).Agree ρ (Eval.assign scope' name v') fun _ _ _ => True := by
  intro σ m m' r r' n n' more alike ends ends'
  obtain ⟨rfl, rfl⟩ := ends_assign.mp ends
  obtain ⟨rfl, rfl⟩ := ends_assign.mp ends'
  have nearest := alike.nearest? (more paired) name
  unfold Scopes.assign
  generalize m.scopes.nearest? scope name = found at nearest ⊢
  generalize m'.scopes.nearest? scope' name = found' at nearest ⊢
  cases nearest with
  | none => exact ⟨σ, .refl alike, .failed _⟩
  | @some x y both =>
      obtain ⟨home, b⟩ := x
      obtain ⟨home', b'⟩ := y
      obtain ⟨paired', bound⟩ := both
      have evolves := ofBind paired' name (.value (related.mono more) false) alike
      cases bound with
      | function definition => exact ⟨σ, evolves, .answered trivial⟩
      | value _ constant =>
          cases constant with
          | true => exact ⟨σ, .refl alike, .failed _⟩
          | false => exact ⟨σ, evolves, .answered trivial⟩

theorem meaning {scope scope' : ScopeId} (paired : ρ .scope scope.index scope'.index)
    (name : String) :
    (Eval.meaning scope name).Agree ρ (Eval.meaning scope' name) fun σ =>
      Option.Rel σ.RelatesMeaning := by
  refine of_ok (fun _ => rfl) (fun _ => rfl) fun σ m m' more alike => ⟨σ, .refl alike, ?_⟩
  have nearest := alike.nearest? (more paired) name
  unfold Scopes.lookup?
  generalize m.scopes.nearest? scope name = found at nearest ⊢
  generalize m'.scopes.nearest? scope' name = found' at nearest ⊢
  cases nearest with
  | none => exact .none
  | @some x y both =>
      obtain ⟨home, b⟩ := x
      obtain ⟨home', b'⟩ := y
      obtain ⟨paired', bound⟩ := both
      cases bound with
      | value related constant => exact .some (.value related)
      | function definition => exact .some (.function definition paired')

/-! ## Actions -/

theorem actPure {a : α} {a' : α'} (holds : ∀ σ, ρ ≤ σ → expected σ a a') :
    (Eval.act (pure a : Action α)).Agree ρ (Eval.act (pure a' : Action α')) expected :=
  .pure holds

theorem actThrow (e : EvalError) :
    (Eval.act (throw e : Action α)).Agree ρ (Eval.act (throw e : Action α')) expected :=
  .throw e

theorem actOfExcept {r r' : Except EvalError α} (same : r = r') :
    (Eval.act (MonadExcept.ofExcept r : Action α)).Agree ρ (Eval.act (MonadExcept.ofExcept r'))
      fun _ a a' => a = a' := by
  subst same
  cases r with
  | error e => exact .actThrow e
  | ok a => exact .actPure fun _ _ => rfl

theorem actBind {y : Action α} {y' : Action α'} {f : α → Action β} {f' : α' → Action β'}
    (first : (Eval.act y).Agree ρ (Eval.act y') expected)
    (second : ∀ a a' σ, ρ ≤ σ → expected σ a a' →
      (Eval.act (f a)).Agree σ (Eval.act (f' a')) expected') :
    (Eval.act (y >>= f)).Agree ρ (Eval.act (y' >>= f')) expected' := by
  rw [act_bind, act_bind]
  exact .bind first second

theorem items {i j : Nat} (paired : ρ .list i j) :
    (Eval.act (Action.items i)).Agree ρ (Eval.act (Action.items j)) fun σ xs ys =>
      List.Forall₂ σ.Relates xs.toList ys.toList :=
  of_ok (fun _ => rfl) (fun _ => rfl) fun σ _ _ more alike =>
    ⟨σ, .refl alike, (alike.heaps.lists (more paired)).2⟩

theorem entries {i j : Nat} (paired : ρ .map i j) :
    (Eval.act (Action.entries i)).Agree ρ (Eval.act (Action.entries j)) fun σ xs ys =>
      List.Forall₂ σ.RelatesEntry xs ys :=
  of_ok (fun _ => rfl) (fun _ => rfl) fun σ _ _ more alike =>
    ⟨σ, .refl alike, (alike.heaps.maps (more paired)).2⟩

theorem newList {xs ys : Array Value} (related : List.Forall₂ ρ.Relates xs.toList ys.toList) :
    (Eval.act (Action.newList xs)).Agree ρ (Eval.act (Action.newList ys)) Pairing.Relates := by
  refine of_ok (fun _ => rfl) (fun _ => rfl) fun σ m m' more alike =>
    ⟨alike.next .list, alike.add (m.adds_newList xs) (m'.adds_newList ys) ?_,
      .list (alike.next_self .list)⟩
  exact .list (related.imp fun _ _ => .mono (more.trans (alike.le_next .list)))

theorem newMap {xs ys : Entries} (related : List.Forall₂ ρ.RelatesEntry xs ys) :
    (Eval.act (Action.newMap xs)).Agree ρ (Eval.act (Action.newMap ys)) Pairing.Relates := by
  refine of_ok (fun _ => rfl) (fun _ => rfl) fun σ m m' more alike =>
    ⟨alike.next .map, alike.add (m.adds_newMap xs) (m'.adds_newMap ys) ?_,
      .map (alike.next_self .map)⟩
  exact .map (related.imp fun _ _ => .mono (more.trans (alike.le_next .map)))

theorem newFunction (definition : FunctionDef) {scope scope' : ScopeId}
    (paired : ρ .scope scope.index scope'.index) :
    (Eval.newFunction definition scope).Agree ρ (Eval.newFunction definition scope')
      Pairing.Relates :=
  of_ok (fun _ => rfl) (fun _ => rfl) fun _ m m' more alike =>
    ⟨alike.next .function,
      alike.add (m.adds_newFunction definition scope) (m'.adds_newFunction definition scope')
        .function,
      .function definition (alike.next_self .function) (alike.le_next .function (more paired))⟩

/-- Paired lists are changed alike. -/
theorem changeItems {i j : Nat} (paired : ρ .list i j) {f f' : Array Value → Array Value}
    (same : ∀ σ, ρ ≤ σ → ∀ {xs ys : Array Value}, List.Forall₂ σ.Relates xs.toList ys.toList →
      List.Forall₂ σ.Relates (f xs).toList (f' ys).toList) :
    (Eval.act (Action.change fun h => { h with lists := h.lists.modify i f })).Agree ρ
      (Eval.act (Action.change fun h => { h with lists := h.lists.modify j f' }))
      fun _ _ _ => True :=
  of_ok (fun _ => rfl) (fun _ => rfl) fun σ m m' more alike =>
    ⟨σ, alike.change (more paired) (m.changes_modify i f) (m'.changes_modify j f')
      fun related => related.onItems (same σ more), trivial⟩

theorem pushItem {i j : Nat} (paired : ρ .list i j) {v v' : Value} (related : ρ.Relates v v') :
    (Eval.act (Action.change (·.pushItem i v))).Agree ρ (Eval.act (Action.change (·.pushItem j v')))
      fun _ _ _ => True := by
  refine changeItems paired fun σ more xs ys items => ?_
  simpa using List.rel_append items (.cons (related.mono more) .nil)

theorem setItem {i j : Nat} (paired : ρ .list i j) (index : Nat) {v v' : Value}
    (related : ρ.Relates v v') :
    (Eval.act (Action.change (·.setItem i index v))).Agree ρ
      (Eval.act (Action.change (·.setItem j index v'))) fun _ _ _ => True := by
  refine changeItems paired fun σ more xs ys items => ?_
  simpa using forall₂_set (related.mono more) index items

theorem setEntries {i j : Nat} (paired : ρ .map i j) {xs ys : Entries}
    (related : List.Forall₂ ρ.RelatesEntry xs ys) :
    (Eval.act (Action.change (·.setEntries i xs))).Agree ρ
      (Eval.act (Action.change (·.setEntries j ys))) fun _ _ _ => True :=
  of_ok (fun _ => rfl) (fun _ => rfl) fun σ m m' more alike =>
    ⟨σ, alike.change (more paired) (m.changes_setEntries i xs) (m'.changes_setEntries j ys)
      fun before => before.onEntries (related.imp fun _ _ => .mono more), trivial⟩

/-- A question about the collections is answered alike, or on neither side. -/
theorem answer {question : Heap → Except EvalError α} {question' : Heap → Except EvalError α'}
    (same : ∀ σ h h', ρ ≤ σ → σ.Heaps h h' →
      SameOutcome (expected σ) (question h) (question' h')) :
    (Eval.act (Action.answer question)).Agree ρ (Eval.act (Action.answer question')) expected := by
  intro σ m m' r r' n n' more alike ends ends'
  obtain ⟨w, ended, rfl⟩ := ends_act.mp ends
  obtain ⟨w', ended', rfl⟩ := ends_act.mp ends'
  obtain ⟨rfl, rfl⟩ := Action.ends_answer.mp ended
  obtain ⟨rfl, rfl⟩ := Action.ends_answer.mp ended'
  exact ⟨σ, .refl alike, same σ _ _ more alike.heaps⟩

theorem equal {a a' b b' : Value} (left : ρ.Relates a a') (right : ρ.Relates b b') :
    (Eval.act (Action.equal a b)).Agree ρ (Eval.act (Action.equal a' b')) fun _ x y => x = y := by
  refine .answer fun σ h h' more heaps => ?_
  have same : h.equal? a b = h'.equal? a' b' :=
    heaps.compare_eq (.freely σ) (left.mono more) (right.mono more)
  rw [same]
  exact .unlessEndless (.refl _) (.refl _)

section Entries

variable {key key' v v' : Value} {xs ys : Entries} (keys : ρ.Relates key key')
  (related : List.Forall₂ ρ.RelatesEntry xs ys)

include keys related

theorem lookup :
    (Eval.act (Action.lookup key xs)).Agree ρ (Eval.act (Action.lookup key' ys)) fun σ =>
      Option.Rel σ.Relates := by
  refine .answer fun σ _ _ more heaps => ?_
  have known := keys.mono more
  have entries := related.imp fun _ _ => Pairing.RelatesEntry.mono more
  exact .unlessEndless (heaps.findKey? (.freely σ) known entries)
    (heaps.flip.findKey? (.freely _) known.flip (entries.imp fun _ _ => .flip).flip)

theorem insert (values : ρ.Relates v v') :
    (Eval.act (Action.insert key v xs)).Agree ρ (Eval.act (Action.insert key' v' ys)) fun σ =>
      List.Forall₂ σ.RelatesEntry := by
  refine .answer fun σ _ _ more heaps => ?_
  have known := keys.mono more
  have given := values.mono more
  have entries := related.imp fun _ _ => Pairing.RelatesEntry.mono more
  exact .unlessEndless (heaps.insertKey (.freely σ) known given entries)
    (heaps.flip.insertKey (.freely _) known.flip given.flip (entries.imp fun _ _ => .flip).flip)

/-- Whether a comparison meets the locked map is the same on both sides. -/
theorem insertLocked {i j : Nat} (paired : ρ .map i j) (values : ρ.Relates v v') :
    (Eval.act (Action.insertLocked i key v xs)).Agree ρ
      (Eval.act (Action.insertLocked j key' v' ys)) fun σ => List.Forall₂ σ.RelatesEntry := by
  refine .answer fun σ _ _ more heaps => ?_
  have known := keys.mono more
  have given := values.mono more
  have entries := related.imp fun _ _ => Pairing.RelatesEntry.mono more
  have looks := Pairing.Looks.beside (more paired)
  exact .unlessHalted (heaps.insertKey looks known given entries)
    (heaps.flip.insertKey looks.flip known.flip given.flip (entries.imp fun _ _ => .flip).flip)

end Entries

theorem text {v v' : Value} (related : ρ.Relates v v') :
    (Eval.act (Action.text v)).Agree ρ (Eval.act (Action.text v')) fun _ x y => x = y :=
  of_ok (fun _ => rfl) (fun _ => rfl) fun σ _ _ more alike =>
    ⟨σ, .refl alike, alike.heaps.text_eq (related.mono more)⟩

theorem print (line : String) :
    (Eval.act (Action.print line)).Agree ρ (Eval.act (Action.print line)) fun _ _ _ => True :=
  of_ok (fun _ => rfl) (fun _ => rfl) fun σ _ _ _ alike =>
    ⟨σ, alike.still ⟨rfl, rfl⟩ ⟨rfl, rfl⟩ alike.meters #[line] (by simp) (by simp), trivial⟩

/-! ## Operators -/

section Operators

variable {a a' b b' : Value} (left : ρ.Relates a a') (right : ρ.Relates b b')

include left right

theorem operandMismatch (op : BinaryOp) :
    (Eval.act (Formwork.operandMismatch op a b)).Agree ρ
      (Eval.act (Formwork.operandMismatch op a' b')) Pairing.Relates := by
  unfold Formwork.operandMismatch
  rw [left.kind_eq, right.kind_eq]
  exact .actThrow _

theorem arithmetic (op : BinaryOp) (f : Float → Float → Float) :
    (Eval.act (Formwork.arithmetic op f a b)).Agree ρ (Eval.act (Formwork.arithmetic op f a' b'))
      Pairing.Relates := by
  have mismatch := operandMismatch left right op
  cases left with
  | number x =>
      cases right with
      | number y => exact .actPure fun _ _ => .number _
      | _ => exact mismatch
  | _ => exact mismatch

theorem division (op : BinaryOp) (f : Float → Float → Float) :
    (Eval.act (Formwork.division op f a b)).Agree ρ (Eval.act (Formwork.division op f a' b'))
      Pairing.Relates := by
  have mismatch := operandMismatch left right op
  cases left with
  | number x =>
      cases right with
      | number y =>
          by_cases zero : y == 0
          · simp only [Formwork.division, if_pos zero]
            exact .actThrow _
          · simp only [Formwork.division, if_neg zero]
            exact .actPure fun _ _ => .number _
      | _ => exact mismatch
  | _ => exact mismatch

theorem comparison (op : BinaryOp) (f : Float → Float → Bool) :
    (Eval.act (Formwork.comparison op f a b)).Agree ρ (Eval.act (Formwork.comparison op f a' b'))
      Pairing.Relates := by
  have mismatch := operandMismatch left right op
  cases left with
  | number x =>
      cases right with
      | number y => exact .actPure fun _ _ => .bool _
      | _ => exact mismatch
  | _ => exact mismatch

theorem connective (op : BinaryOp) (f : Bool → Bool → Bool) :
    (Eval.act (Formwork.connective op f a b)).Agree ρ (Eval.act (Formwork.connective op f a' b'))
      Pairing.Relates := by
  have mismatch := operandMismatch left right op
  cases left with
  | bool x =>
      cases right with
      | bool y => exact .actPure fun _ _ => .bool _
      | _ => exact mismatch
  | _ => exact mismatch

theorem sum :
    (Eval.act (Formwork.sum a b)).Agree ρ (Eval.act (Formwork.sum a' b')) Pairing.Relates := by
  have numbers := arithmetic left right .add (· + ·)
  cases left with
  | list paired =>
      cases right with
      | list paired' =>
          refine .actBind (.items paired) fun xs xs' σ more first => ?_
          refine .actBind (.items (more paired')) fun ys ys' τ more' second => .newList ?_
          simpa using List.rel_append (first.imp fun _ _ => .mono more') second
      | _ => exact numbers
  | _ => exact numbers

theorem binary (op : BinaryOp) :
    (Eval.act (op.apply a b)).Agree ρ (Eval.act (op.apply a' b')) Pairing.Relates := by
  cases op with
  | add => exact sum left right
  | sub => exact arithmetic left right .sub (· - ·)
  | mul => exact arithmetic left right .mul (· * ·)
  | pow => exact arithmetic left right .pow Float.pow
  | div => exact division left right .div (· / ·)
  | mod => exact division left right .mod remainder
  | eq =>
      refine .actBind (.equal left right) ?_
      rintro x _ σ - rfl
      exact .actPure fun _ _ => .bool x
  | notEq =>
      refine .actBind (.equal left right) ?_
      rintro x _ σ - rfl
      exact .actPure fun _ _ => .bool !x
  | less => exact comparison left right .less fun x y => x < y
  | lessEq => exact comparison left right .lessEq fun x y => x ≤ y
  | greater => exact comparison left right .greater fun x y => y < x
  | greaterEq => exact comparison left right .greaterEq fun x y => y ≤ x
  | xor => exact connective left right .xor Bool.xor
  | and => exact connective left right .and Bool.and
  | or => exact connective left right .or Bool.or

omit right in
theorem unary (op : UnaryOp) :
    (Eval.act (op.apply a)).Agree ρ (Eval.act (op.apply a')) Pairing.Relates := by
  cases op with
  | neg =>
      cases left with
      | number x => exact .actPure fun _ _ => .number _
      | _ => exact .actThrow _
  | not =>
      cases left with
      | bool x => exact .actPure fun _ _ => .bool _
      | _ => exact .actThrow _

end Operators

/-! ## Elements -/

theorem listIndex_eq {key key' : Value} (keys : ρ.Relates key key') (length bound : Nat) :
    listIndex key length bound = listIndex key' length bound := by
  unfold listIndex
  rw [keys.number?_eq]

theorem elementAt {a a' key key' : Value} (targets : ρ.Relates a a') (keys : ρ.Relates key key') :
    (Eval.act (Formwork.elementAt a key)).Agree ρ (Eval.act (Formwork.elementAt a' key'))
      Pairing.Relates := by
  cases targets with
  | list paired =>
      refine .actBind (.items paired) fun xs ys σ more items => ?_
      rw [← size_eq_of_forall₂ items, listIndex_eq (keys.mono more)]
      refine .actBind (.actOfExcept rfl) ?_
      rintro i _ τ more' rfl
      refine .actPure fun υ more'' => ?_
      have at_i := forall₂_getElem? items i
      rw [Array.getElem?_toList, Array.getElem?_toList] at at_i
      rw [Array.getD_eq_getD_getElem?, Array.getD_eq_getD_getElem?]
      generalize xs[i]? = x at at_i ⊢
      generalize ys[i]? = y at at_i ⊢
      cases at_i with
      | none => exact .unit
      | some related => exact related.mono (more'.trans more'')
  | map paired =>
      refine .actBind (.entries paired) fun xs ys σ more entries => ?_
      refine .actBind (.lookup (keys.mono more) entries) fun found found' τ more' related => ?_
      cases related with
      | some related => exact .actPure fun υ more'' => related.mono more''
      | none =>
          refine .actBind (.text (keys.mono (more.trans more'))) ?_
          rintro text _ υ - rfl
          exact .actThrow _
  | _ => exact .actThrow _

theorem setElement {a a' key key' v v' : Value} (targets : ρ.Relates a a')
    (keys : ρ.Relates key key') (values : ρ.Relates v v') :
    (Eval.act (Formwork.setElement a key v)).Agree ρ (Eval.act (Formwork.setElement a' key' v'))
      fun _ _ _ => True := by
  cases targets with
  | list paired =>
      refine .actBind (.items paired) fun xs ys σ more items => ?_
      dsimp only
      rw [← size_eq_of_forall₂ items, listIndex_eq (keys.mono more)]
      refine .actBind (.actOfExcept rfl) ?_
      rintro i _ τ more' rfl
      have both := more.trans more'
      by_cases last : i = xs.size
      · simp only [if_pos last]
        exact .pushItem (both paired) (values.mono both)
      · simp only [if_neg last]
        exact .setItem (both paired) i (values.mono both)
  | map paired =>
      refine .actBind (.entries paired) fun xs ys σ more entries => ?_
      refine .actBind (.insertLocked (keys.mono more) entries (more paired) (values.mono more))
        fun zs zs' τ more' entries' => ?_
      exact .setEntries (more.trans more' paired) entries'
  | _ => exact .actThrow _

theorem itemsOf {a a' : Value} (related : ρ.Relates a a') :
    (Eval.act (Formwork.itemsOf a)).Agree ρ (Eval.act (Formwork.itemsOf a')) fun σ =>
      List.Forall₂ σ.Relates := by
  cases related with
  | list paired =>
      exact .actBind (.items paired) fun xs ys σ _ items =>
        .actPure fun τ more => items.imp fun _ _ => .mono more
  | map paired =>
      refine .actBind (.entries paired) fun xs ys σ _ entries => .actPure fun τ more => ?_
      exact List.rel_map (fun _ _ both => both.1.mono more) entries
  | _ => exact .actThrow _

/-! ## Builtin functions -/

section Builtins

variable {args args' : List Value} (related : List.Forall₂ ρ.Relates args args')

include related

theorem arity (name : String) (wants : Nat) :
    (Eval.act (Action.mismatch (.arity name wants args.length))).Agree ρ
      (Eval.act (Action.mismatch (.arity name wants args'.length))) Pairing.Relates := by
  rw [related.length_eq]
  exact .actThrow _

theorem ofNumber (name : String) {f : Float → Action Float}
    (inner : ∀ σ x, (Eval.act (f x)).Agree σ (Eval.act (f x)) fun _ y z => y = z) :
    (Eval.act (Builtin.ofNumber name f args)).Agree ρ (Eval.act (Builtin.ofNumber name f args'))
      Pairing.Relates := by
  have mismatch := arity related name 1
  cases related with
  | nil => exact mismatch
  | cons first others =>
      cases others with
      | cons _ _ => exact mismatch
      | nil =>
          refine .actBind (.actOfExcept first.number?_eq) ?_
          rintro x _ σ - rfl
          refine .actBind (inner σ x) ?_
          rintro y _ τ - rfl
          exact .actPure fun _ _ => .number y

theorem foldNumbers (f : Float → Float → Float) (acc : Float) :
    (Eval.act (Builtin.foldNumbers f acc args)).Agree ρ
      (Eval.act (Builtin.foldNumbers f acc args')) fun _ x y => x = y := by
  induction related generalizing acc with
  | nil => exact .actPure fun _ _ => rfl
  | cons first _ ih =>
      refine .actBind (.actOfExcept first.number?_eq) ?_
      rintro x _ σ more rfl
      exact (ih (f acc x)).mono more

theorem ofNumbers (name : String) (f : Float → Float → Float) :
    (Eval.act (Builtin.ofNumbers name f args)).Agree ρ (Eval.act (Builtin.ofNumbers name f args'))
      Pairing.Relates := by
  cases related with
  | nil => exact .actThrow _
  | cons first others =>
      refine .actBind (.actOfExcept first.number?_eq) ?_
      rintro x _ σ more rfl
      refine .actBind ((foldNumbers others f x).mono more) ?_
      rintro y _ τ - rfl
      exact .actPure fun _ _ => .number y

theorem length :
    (Eval.act (Builtin.length args)).Agree ρ (Eval.act (Builtin.length args'))
      Pairing.Relates := by
  have mismatch := arity related "len" 1
  cases related with
  | nil => exact mismatch
  | cons first others =>
      cases others with
      | cons _ _ => cases first <;> exact mismatch
      | nil =>
          cases first with
          | list paired =>
              refine .actBind (.items paired) fun xs ys σ _ items => .actPure fun _ _ => ?_
              rw [size_eq_of_forall₂ items]
              exact .number _
          | map paired =>
              refine .actBind (.entries paired) fun xs ys σ _ entries => .actPure fun _ _ => ?_
              rw [entries.length_eq]
              exact .number _
          | _ => exact .actThrow _

theorem push :
    (Eval.act (Builtin.push args)).Agree ρ (Eval.act (Builtin.push args')) Pairing.Relates := by
  have mismatch := arity related "push" 2
  cases related with
  | nil => exact mismatch
  | cons first others =>
      cases others with
      | nil => cases first <;> exact mismatch
      | cons second rest =>
          cases rest with
          | cons _ _ => cases first <;> exact mismatch
          | nil =>
              cases first with
              | list paired =>
                  exact .actBind (.pushItem paired second) fun _ _ σ more _ =>
                    .actPure fun τ more' => .list (more.trans more' paired)
              | _ => exact .actThrow _

theorem keys :
    (Eval.act (Builtin.keys args)).Agree ρ (Eval.act (Builtin.keys args')) Pairing.Relates := by
  have mismatch := arity related "keys" 1
  cases related with
  | nil => exact mismatch
  | cons first others =>
      cases others with
      | cons _ _ => cases first <;> exact mismatch
      | nil =>
          cases first with
          | map paired =>
              refine .actBind (.entries paired) fun xs ys σ _ entries => .newList ?_
              simpa using List.rel_map (fun _ _ both => both.1) entries
          | _ => exact .actThrow _

theorem texts :
    (Eval.act (args.mapM Action.text)).Agree ρ (Eval.act (args'.mapM Action.text))
      fun _ x y => x = y := by
  induction related with
  | nil => exact .actPure fun _ _ => rfl
  | cons first _ ih =>
      rw [List.mapM_cons, List.mapM_cons]
      refine .actBind (.text first) ?_
      rintro line _ σ more rfl
      refine .actBind (ih.mono more) ?_
      rintro lines _ τ - rfl
      exact .actPure fun _ _ => rfl

theorem printLine :
    (Eval.act (Builtin.print args)).Agree ρ (Eval.act (Builtin.print args')) Pairing.Relates := by
  refine .actBind (texts related) ?_
  rintro lines _ σ - rfl
  exact .actBind (.print _) fun _ _ _ _ _ => .actPure fun _ _ => .unit

end Builtins

theorem squareRoot (x : Float) :
    (Eval.act (Builtin.squareRoot x)).Agree ρ (Eval.act (Builtin.squareRoot x))
      fun _ y z => y = z := by
  by_cases negative : x < 0
  · simp only [Builtin.squareRoot, if_pos negative]
    exact .actThrow _
  · simp only [Builtin.squareRoot, if_neg negative]
    exact .actPure fun _ _ => rfl

end Agree

end Eval

namespace Registry

/-- The functions of a registry do not show by which numbers things are told apart. -/
def Impartial (r : Registry) : Prop :=
  r.All fun builtin => ∀ {ρ : Pairing} {args args' : List Value},
    List.Forall₂ ρ.Relates args args' →
      (Eval.act (builtin args)).Agree ρ (Eval.act (builtin args')) Pairing.Relates

theorem standard_impartial : standard.Impartial := by
  have none_yet : empty.Impartial := by simp [Impartial, All, empty]
  refine none_yet.foldl ?_
  have numeric (name : String) (f : Float → Float) {ρ : Pairing} {args args' : List Value}
      (related : List.Forall₂ ρ.Relates args args') :
      (Eval.act (Builtin.ofNumber name (fun x => pure (f x)) args)).Agree ρ
        (Eval.act (Builtin.ofNumber name (fun x => pure (f x)) args')) Pairing.Relates :=
    .ofNumber related name fun _ _ => .actPure fun _ _ => rfl
  simp only [List.forall_mem_cons]
  exact ⟨numeric _ _, numeric _ _, numeric _ _, numeric _ _, numeric _ _, numeric _ _,
    numeric _ _, fun related => .ofNumber related _ fun _ x => .squareRoot x,
    fun related => .ofNumbers related _ _, fun related => .ofNumbers related _ _, .length, .push,
    .keys, .printLine, by simp⟩

end Registry

end Formwork
