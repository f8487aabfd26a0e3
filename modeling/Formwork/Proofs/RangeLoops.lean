import Formwork.Proofs.Earlier
import Formwork.Proofs.Inserted
import Formwork.Proofs.Locality

/-!
# Loops over ranges

A loop over a range computes each number when its round comes. It could as well evaluate the range
like any other expression, which makes a list of its numbers at one instruction each, and then go
through that list, as it is done in all other loops (`Context.ends_execute_forEach`). Where no limit
ends this longer way, the shorter one ends alike and saves just those instructions:
`Machine.Arises.for_range`. What it leads to is the same but for the list, which nothing can reach,
and for the numbers of the lists made after it.

The rounds of both loops are the same computations, begun with more instructions counted in one case
than in the other and in states where one has a list more. The first difference is that of
`Eval.InStep.earlier`, the second one that of runs that agree.
-/

namespace Formwork

/-- The numbers of a range from a position on, up to the first one past the bound. -/
inductive Range.Lists (r : Range) : Nat → List Value → Prop
  | past {i : Nat} (past : r.within (r.value i) = false) : Lists r i []
  | within {i : Nat} {vs : List Value} (within : r.within (r.value i) = true)
      (rest : Lists r (i + 1) vs) : Lists r i (.number (r.value i) :: vs)

theorem Range.Lists.number {r : Range} {i : Nat} {vs : List Value} (lists : r.Lists i vs)
    {v : Value} (mem : v ∈ vs) : ∃ x, v = .number x := by
  induction lists with
  | past => cases mem
  | within _ _ ih =>
      obtain rfl | mem := List.mem_cons.mp mem
      · exact ⟨_, rfl⟩
      · exact ih mem

namespace Parts

variable {r : Range} {m m' : Machine}

/-- Unless a limit is met, the numbers of a range are listed at one instruction each. -/
theorem ends_rangeItems {rounds i : Nat} {acc : Array Value}
    {result : Except EvalError (Array Value)} (ends : (rangeItems r rounds i acc).Ends m result m')
    (unlimited : ∀ resource limit used, result ≠ .error (.resourceExceeded resource limit used)) :
    ∃ vs, r.Lists i vs ∧ vs.length < rounds ∧ result = .ok (acc ++ vs) ∧ m' = m.later vs.length ∧
      m.meter.Timely m.meter.used (m.meter.used + vs.length) := by
  induction rounds generalizing i acc m with
  | zero =>
      obtain ⟨rfl, -⟩ := Eval.ends_exhausted.mp ends
      exact (unlimited _ _ _ rfl).elim
  | succ rounds ih =>
      unfold rangeItems at ends
      split at ends
      · rename_i within
        obtain ⟨-, rfl, -⟩ | ⟨-, -, rfl, -⟩ | ⟨-, now, rest⟩ := Eval.ends_tick_bind.mp ends
        · exact (unlimited _ _ _ rfl).elim
        · exact (unlimited _ _ _ rfl).elim
        · obtain ⟨vs, lists, enough, rfl, rfl, timely⟩ := ih rest
          refine ⟨_, .within within lists, Nat.succ_lt_succ enough, by simp, m.later_succ _, ?_⟩
          have shifted : m.meter.used + (vs.length + 1) = m.counted.meter.used + vs.length := by
            simp only [Machine.counted]
            omega
          rw [List.length_cons, shifted]
          exact Meter.Timely.trans (.succ now) timely
      · rename_i past
        obtain ⟨rfl, rfl⟩ := EStateM.ends_pure.mp ends
        exact ⟨[], .past (by simpa using past), Nat.zero_lt_succ _, by simp, rfl, .refl _ _⟩

/-- The rounds of a loop over a range are those of a loop over its numbers. -/
theorem forRange_eq_forItems (parts : Parts) (item : Ident) (body : Block) (scope : ScopeId)
    {i : Nat} {vs : List Value} (lists : r.Lists i vs) {rounds : Nat}
    (enough : vs.length < rounds) :
    parts.forRange item body scope r rounds i = parts.forItems item body scope vs := by
  induction lists generalizing rounds with
  | past past =>
      cases rounds with
      | zero => cases enough
      | succ rounds => simp [forRange, forItems, past]
  | within within _ ih =>
      cases rounds with
      | zero => cases enough
      | succ rounds => simp [forRange, forItems, within, ih (Nat.lt_of_succ_lt_succ enough)]

/-- Executes a loop over the elements of whatever an expression gives. -/
def forEach (parts : Parts) (item : Ident) (iterable : Expr) (body : Block) (scope : ScopeId) :
    Eval Flow := do
  let v ← parts.expr iterable scope
  let items ← Eval.act (itemsOf v)
  parts.forItems item body scope items

/-- Only where a range stands in the loop itself it is treated in another way. -/
theorem for_eq_forEach (parts : Parts) (item : Ident) {iterable : Expr} (body : Block)
    (scope : ScopeId)
    (other : ∀ first last inclusive step span, iterable ≠ .range first last inclusive step span) :
    parts.for_ item iterable body scope = parts.forEach item iterable body scope := by
  unfold for_
  split
  · exact (other _ _ _ _ _ rfl).elim
  · rfl

end Parts

/-! ## The two ways through a range -/

namespace Context

/-- Executes a loop, where a range in it is not made into a list. -/
def for_ (context : Context) (item : Ident) (iterable : Expr) (body : Block) (scope : ScopeId) :
    Eval Flow :=
  context.withParts fun parts => parts.for_ item iterable body scope

/-- Executes a loop over the elements of whatever an expression gives. -/
def forEach (context : Context) (item : Ident) (iterable : Expr) (body : Block) (scope : ScopeId) :
    Eval Flow :=
  context.withParts fun parts => parts.forEach item iterable body scope

/-- A loop that stands as a statement costs one instruction before it begins. -/
theorem ends_execute_for {context : Context} {type : TypeRef} {item : Ident}
    {iterable : Expr} {body : Block} {span : Span} {scope : ScopeId} {m n : Machine}
    {r : Except EvalError Flow} :
    (context.execute (.for_ type item iterable body span) scope).Ends m r n ↔
      (do
        Eval.tick
        context.for_ item iterable body scope).Ends m r n := by
  have inside : (context.execute (.for_ type item iterable body span) scope).Ends m r n ↔
      (do
        Eval.tick
        (context.parts m.meter.remaining).for_ item iterable body scope).Ends m r n :=
    Eval.ends_rounds_bind
  rw [inside, Eval.ends_tick_bind, Eval.ends_tick_bind]
  refine or_congr_right (or_congr_right (and_congr_right fun more => and_congr_right fun _ => ?_))
  have levels : m.meter.remaining = m.counted.meter.remaining + 1 := by
    simp only [Meter.remaining, Machine.counted]
    omega
  rw [levels]
  have outside : (context.for_ item iterable body scope).Ends m.counted r n ↔ _ :=
    Eval.ends_rounds_bind
  exact outside.symm

/-- A loop over what is not written as a range goes through its elements. -/
theorem ends_execute_forEach {context : Context} {type : TypeRef} {item : Ident}
    {iterable : Expr} {body : Block} {span : Span} {scope : ScopeId} {m n : Machine}
    {r : Except EvalError Flow}
    (other : ∀ first last inclusive step span, iterable ≠ .range first last inclusive step span) :
    (context.execute (.for_ type item iterable body span) scope).Ends m r n ↔
      (do
        Eval.tick
        context.forEach item iterable body scope).Ends m r n := by
  have same : context.for_ item iterable body scope = context.forEach item iterable body scope := by
    simp only [for_, forEach, Parts.for_eq_forEach _ item body scope other]
  rw [ends_execute_for, same]

end Context

section

variable {context : Context} {m n : Machine} {scope : ScopeId}
  {first last : Expr} {inclusive : Bool} {step : Option Expr} {span : Span}

/-- Evaluating a range, unless a limit is met: it fails, or a list of its numbers is made. -/
theorem Context.ends_range {levels : Nat} {r : Except EvalError Value}
    (ends : ((context.parts (levels + 1)).expr (.range first last inclusive step span) scope).Ends
      m r n)
    (unlimited : ∀ resource limit used, r ≠ .error (.resourceExceeded resource limit used)) :
    (m.meter.used < m.meter.budget.maxInstructions ∧
        m.meter.clock (m.meter.used + 1) ≤ m.meter.budget.maxMillis * nanosPerMilli) ∧
      ((∃ e, r = .error e ∧
          ((context.parts levels).range first last inclusive step scope).Ends m.counted
            (.error e) n) ∨
        ∃ range u vs,
          ((context.parts levels).range first last inclusive step scope).Ends m.counted
            (.ok range) u ∧
          range.Lists 0 vs ∧ vs.length ≤ u.meter.remaining ∧
          u.meter.Timely u.meter.used (u.meter.used + vs.length) ∧
          r = .ok (.list (u.count .list)) ∧ n = (u.withList vs.toArray).later vs.length) := by
  obtain ⟨-, rfl, -⟩ | ⟨-, -, rfl, -⟩ | ⟨more, now, rest⟩ := Eval.ends_tick_bind.mp ends
  · exact (unlimited _ _ _ rfl).elim
  · exact (unlimited _ _ _ rfl).elim
  refine ⟨⟨more, now⟩, ?_⟩
  obtain ⟨e, rfl, failed⟩ | ⟨range, u, ended, rest⟩ := EStateM.ends_bind.mp rest
  · exact .inl ⟨e, rfl, failed⟩
  obtain ⟨e, rfl, failed⟩ | ⟨items, t, listed, rest⟩ :=
    EStateM.ends_bind.mp (Eval.ends_rounds_bind.mp rest)
  · obtain ⟨vs, -, -, failed, -⟩ := Parts.ends_rangeItems failed (by simpa using unlimited)
    cases failed
  · obtain ⟨vs, lists, enough, same, rfl, timely⟩ := Parts.ends_rangeItems listed (by simp)
    obtain rfl : items = vs.toArray := by simpa using same
    obtain ⟨rfl, rfl⟩ : r = .ok (.list (u.count .list)) ∧ _ := (EStateM.ends_of_ok rfl).mp rest
    exact .inr ⟨range, u, vs, ended, lists, Nat.le_of_lt_succ enough, timely, rfl, rfl⟩

variable {globals : ScopeId} {item : Ident} {body : Block}

/-- With one more level of nesting a range is evaluated alike. -/
theorem Context.ends_range_succ (standard : context.builtins = .standard)
    (more : m.meter.used < m.meter.budget.maxInstructions) {r : Except EvalError Range}
    (ends : ((context.parts m.meter.remaining).range first last inclusive step scope).Ends
      m.counted r n)
    (unlimited : ∀ resource limit used, r ≠ .error (.resourceExceeded resource limit used)) :
    ((context.parts (m.meter.remaining + 1)).range first last inclusive step scope).Ends
        m.counted r n ∧ m.counted.Progress n := by
  have quiet : context.builtins.All fun builtin => ∀ args, (builtin args).Quiet :=
    standard ▸ Registry.standard_quiet
  have room : m.counted.meter.remaining < m.meter.remaining :=
    m.remaining_counted more (Nat.lt_succ_self _)
  have inStep := (parts_inStep quiet m.meter.remaining (m.meter.remaining + 1)).range
    first last inclusive step scope
  obtain ⟨n', rfl, ends', progress, -⟩ := inStep.earlier 0 (m := m.counted) room
    (Nat.lt_succ_of_lt room) (.refl _ _) ends unlimited
  exact ⟨ends', progress⟩

namespace Machine

/-- Evaluating the bounds of a range leads from a closed state to a closed one. -/
theorem Closed.ends_range (closed : m.Closed) (standard : context.builtins = .standard)
    (home : m.Allocated context.globals) (here : m.Allocated scope) {levels : Nat}
    {r : Except EvalError Range}
    (ends : ((context.parts levels).range first last inclusive step scope).Ends m r n) :
    n.Closed ∧ ∀ k, m.count k ≤ n.count k := by
  have builtins : context.builtins.Impartial := standard ▸ Registry.standard_impartial
  have alike : m.Alike (.on fun k i => i < m.count k) m :=
    closed.alike (fun _ _ there => there) (fun _ _ _ _ _ _ => closed.known) (fun _ _ _ => rfl) rfl
  have places : (Pairing.on fun k i => i < m.count k).Places context.globals scope scope :=
    ⟨⟨home, rfl⟩, here, rfl⟩
  obtain ⟨σ, evolves, -⟩ := (context.parts_impartial builtins levels).range first last inclusive
    step places (le_refl _) alike ends ends
  exact ⟨evolves.closed, fun k => (evolves.made k).1⟩

/-- The elements of a list that was just made are those it was made of. -/
theorem ends_itemsOf_bind {vs : List Value} {k : Nat} {f : List Value → Eval Flow}
    {r : Except EvalError Flow} :
    (Eval.act (itemsOf (.list (m.count .list))) >>= f).Ends
        ((m.withList vs.toArray).later k) r n ↔
      (f vs).Ends ((m.withList vs.toArray).later k) r n := by
  have found : (m.withList vs.toArray).world.heap.items (m.count .list) = vs.toArray := by
    simp [withList, Heap.items_newList, count]
  have elements : Eval.act (itemsOf (.list (m.count .list))) ((m.withList vs.toArray).later k) =
      .ok vs ((m.withList vs.toArray).later k) := by
    simp [Eval.act, itemsOf, Action.items, later, found, bind, EStateM.bind, pure, EStateM.pure]
  exact EStateM.ends_congr (by simp only [bind, EStateM.bind, elements])

/-- A loop over numbers does the same where there is a list more and more has been counted. -/
theorem Closed.ends_forItems (closed : m.Closed) (standard : context.builtins = .standard)
    (home : m.Allocated context.globals) (here : m.Allocated scope) {levels k : Nat}
    (room : m.meter.remaining < levels)
    (timely : m.meter.Timely m.meter.used (m.meter.used + k)) {items : Array Value}
    {vs : List Value} (numbers : ∀ v ∈ vs, ∃ x, v = .number x) {r : Except EvalError Flow}
    (ends : ((context.parts levels).forItems item body scope vs).Ends
      ((m.withList items).later k) r n)
    (unlimited : ∀ resource limit used, r ≠ .error (.resourceExceeded resource limit used)) :
    ∃ r' n', ((context.parts levels).forItems item body scope vs).Ends m r' n' ∧
      r = r'.map (Flow.renumber (Thing.besides (m.count .list))) ∧
      n'.Inserts (m.count .list) items n ∧ n.meter = (n'.later k).meter := by
  have quiet : context.builtins.All fun builtin => ∀ args, (builtin args).Quiet :=
    standard ▸ Registry.standard_quiet
  have builtins : context.builtins.Impartial := standard ▸ Registry.standard_impartial
  have inStep := (context.parts_inStep quiet levels levels).forItems item body scope vs
  have room_later : (m.later k).meter.remaining < levels := by
    simp only [Meter.remaining, later] at room ⊢
    omega
  -- First the instructions counted before are taken away, then the list.
  obtain ⟨t, rfl, ends_t, progress, -⟩ := inStep.earlier k (m := m.withList items) room_later room
    timely ends unlimited
  obtain ⟨r', n', ends'⟩ :=
    EStateM.exists_ends ((context.parts levels).forItems item body scope vs) m
  have related {ρ : Pairing} : List.Forall₂ ρ.Relates vs vs := by
    refine List.forall₂_same.mpr fun v mem => ?_
    obtain ⟨x, rfl⟩ := numbers v mem
    exact .number x
  have places : (Pairing.on fun k i => i < m.count k).Places context.globals scope scope :=
    ⟨⟨home, rfl⟩, here, rfl⟩
  obtain ⟨σ, evolves, outcome⟩ := (context.parts_impartial builtins levels).forItems item body
    places related (le_refl _) (closed.alike_withList items) ends' ends_t
  have renumbered : r = r'.map (Flow.renumber (Thing.besides (m.count .list))) := by
    cases outcome with
    | failed e => rfl
    | answered related => rw [related.eq_renumber evolves.renumbers]; rfl
  have unlimited' (resource : Resource) (limit used : Nat) :
      r' ≠ .error (.resourceExceeded resource limit used) := by
    rintro rfl
    exact unlimited _ _ _ renumbered
  -- Meters that agree may have different clocks; these two are the clock of the common start.
  obtain ⟨n', rfl, -, progress', -⟩ := inStep.earlier 0 room room (.refl _ _) ends' unlimited'
  have meters : n'.meter = t.meter :=
    evolves.alike.meters.eq (progress'.clock.trans progress.clock.symm)
  obtain ⟨content, inserted, count, printed⟩ := evolves.inserts
  exact ⟨r', n', ends', renumbered, ⟨content, inserted, count, printed⟩, by simp [later, meters]⟩

/-- The longer way through a range, and the loop over the range itself. -/
theorem Closed.ends_for (closed : m.Closed) (standard : context.builtins = .standard)
    (home : m.Allocated context.globals) (here : m.Allocated scope) {r : Except EvalError Flow}
    (ends : (context.forEach item (.range first last inclusive step span) body scope).Ends m r n)
    (unlimited : ∀ resource limit used, r ≠ .error (.resourceExceeded resource limit used)) :
    ∃ r' n', (context.for_ item (.range first last inclusive step span) body scope).Ends m r' n' ∧
      ((∃ e, (context.evaluate (.range first last inclusive step span) scope).Ends m (.error e) n ∧
          r = .error e ∧ r' = .error e ∧ n' = n) ∨
        ∃ (u : Machine) (vs : List Value),
          (context.evaluate (.range first last inclusive step span) scope).Ends m
            (.ok (.list (u.count .list))) ((u.withList vs.toArray).later vs.length) ∧
          (∀ v ∈ vs, ∃ x, v = .number x) ∧ m.count .list ≤ u.count .list ∧
          r = r'.map (Flow.renumber (Thing.besides (u.count .list))) ∧
          n'.Inserts (u.count .list) vs.toArray n ∧ n.meter = (n'.later vs.length).meter) := by
  obtain ⟨e, rfl, failed⟩ | ⟨v, t, ended, rest⟩ :=
    EStateM.ends_bind.mp (Eval.ends_rounds_bind.mp ends)
  · obtain ⟨⟨more, now⟩, ⟨_, ⟨⟩, bounds⟩ | ⟨_, _, _, _, _, _, _, ⟨⟩, _⟩⟩ :=
      Context.ends_range failed (by simpa using unlimited)
    have bounds' := (Context.ends_range_succ standard more bounds (by simpa using unlimited)).1
    refine ⟨.error e, n, Eval.ends_rounds_bind.mpr (Eval.ends_tick_bind.mpr (.inr (.inr ?_))),
      .inl ⟨e, Eval.ends_rounds_bind.mpr failed, rfl, rfl, rfl⟩⟩
    exact ⟨more, now, EStateM.ends_bind.mpr (.inl ⟨e, rfl, bounds'⟩)⟩
  · obtain ⟨⟨more, now⟩, ⟨_, ⟨⟩, _⟩ | ⟨range, u, vs, bounds, lists, enough, timely, same, rfl⟩⟩ :=
      Context.ends_range ended (by simp)
    cases same
    -- The bounds stand one level deeper in the range than in the loop.
    obtain ⟨bounds', progress⟩ := Context.ends_range_succ standard more bounds (by simp)
    obtain ⟨closed_u, made⟩ := (Move.closed (.count m) closed).ends_range standard home here bounds'
    have room : u.meter.remaining < m.meter.remaining + 1 :=
      Nat.lt_succ_of_le (Nat.le_trans progress.remaining_le (Progress.counted m).remaining_le)
    have rest := ends_itemsOf_bind.mp rest
    obtain ⟨r', n', ends', renumbered, inserts, meters⟩ := closed_u.ends_forItems standard
      (Nat.lt_of_lt_of_le home (made .scope)) (Nat.lt_of_lt_of_le here (made .scope)) room timely
      (fun v => lists.number) rest unlimited
    rw [← Parts.forRange_eq_forItems _ item body scope lists (Nat.lt_succ_of_le enough)] at ends'
    refine ⟨r', n', Eval.ends_rounds_bind.mpr (Eval.ends_tick_bind.mpr (.inr (.inr ?_))),
      .inr ⟨u, _, Eval.ends_rounds_bind.mpr ended, fun v => lists.number, made .list, renumbered,
        inserts, meters⟩⟩
    exact ⟨more, now, EStateM.ends_bind.mpr (.inr ⟨range, u, bounds',
      Eval.ends_rounds_bind.mpr ends'⟩)⟩

/--
A loop over a range saves making the list. In every state that running programs leads to, let a loop
over a range be executed the longer way, by evaluating the range and going through the list that it
gives. Where no limit ends this, the loop statement itself ends with the same outcome. If evaluating
the range fails, it fails with the same error in the same state. Else the longer way ends in the
same state with one more list, which is new and which nothing there or in the outcome leads to; the
things made after it are numbered accordingly. It has counted as many instructions more as the list
has elements, and all else about the meters is the same.
-/
theorem Arises.for_range (arises : Arises globals m) (standard : context.builtins = .standard)
    (home : context.globals = globals) (here : m.Allocated scope) (type : TypeRef) (whole : Span)
    {r : Except EvalError Flow}
    (ends : (do
      Eval.tick
      context.forEach item (.range first last inclusive step span) body scope).Ends m r n)
    (unlimited : ∀ resource limit used, r ≠ .error (.resourceExceeded resource limit used)) :
    ∃ r' n',
      (context.execute (.for_ type item (.range first last inclusive step span) body whole)
        scope).Ends m r' n' ∧
      ((∃ e, (context.evaluate (.range first last inclusive step span) scope).Ends m.counted
            (.error e) n ∧ r = .error e ∧ r' = .error e ∧ n' = n) ∨
        ∃ id items t,
          (context.evaluate (.range first last inclusive step span) scope).Ends m.counted
            (.ok (.list id)) t ∧
          t.content? .list id = some (.list items) ∧ m.count .list ≤ id ∧
          r = r'.map (Flow.renumber (Thing.besides id)) ∧ n'.Inserts id items n ∧
          (∀ scopes, ¬ n.Reach scopes (r.toOption.map Flow.value).toList .list id) ∧
          n.meter = { n'.meter with used := n'.meter.used + items.size }) := by
  subst home
  obtain ⟨closed, home⟩ := (arises.move (.count m)).closed
  obtain ⟨-, rfl, -⟩ | ⟨-, -, rfl, -⟩ | ⟨more, now, rest⟩ := Eval.ends_tick_bind.mp ends
  · exact (unlimited _ _ _ rfl).elim
  · exact (unlimited _ _ _ rfl).elim
  obtain ⟨r', n', ends', alike⟩ := closed.ends_for standard home here rest unlimited
  refine ⟨r', n', Context.ends_execute_for.mpr (Eval.ends_tick_bind.mpr
    (.inr (.inr ⟨more, now, ends'⟩))), alike.imp_right ?_⟩
  rintro ⟨u, vs, made, numbers, new, same, inserts, meters⟩
  refine ⟨_, _, _, made, ((u.adds_withList _).content .list _).trans (by simp), new, same, inserts,
    fun scopes => inserts.not_reach (by simpa using numbers) ?_, by simpa [later] using meters⟩
  intro v mem
  subst same
  cases r' with
  | error e => cases mem
  | ok flow =>
      obtain rfl := List.mem_singleton.mp mem
      cases flow with
      | normal u => exact ⟨u, rfl⟩
      | returned u => exact ⟨u, rfl⟩

end Machine

end

namespace Machine

/-- The numbers from one to three. -/
def oneToThree : Expr := .range (.number 1 default) (.number 3 default) true none default

/-- Makes a list of the item of a loop. -/
def wrapping : Block := ⟨[.expr (.list [.name "x" default] default)], default⟩

theorem Arises.for_range_wrapping :
    Arises ⟨0⟩ (fresh.under ⟨100, 0, 1⟩) ∧
      ∃ flow flow' n n' items,
        (do
          Eval.tick
          Context.forEach ⟨.standard, none, ⟨0⟩⟩ ⟨"x", default⟩ oneToThree wrapping ⟨0⟩).Ends
            (fresh.under ⟨100, 0, 1⟩) (.ok flow) n ∧
        (Context.execute ⟨.standard, none, ⟨0⟩⟩
          (.for_ default ⟨"x", default⟩ oneToThree wrapping default) ⟨0⟩).Ends
            (fresh.under ⟨100, 0, 1⟩) (.ok flow') n' ∧
        n'.Inserts 0 items n ∧ n.count .list = 4 ∧ n.meter.used = n'.meter.used + 3 := by
  have closed : (Machine.start ⟨100, 0, 1⟩ (fun _ => 0) ⟨.empty, #[]⟩).2.Closed :=
    ⟨fresh_closed.known, fresh_closed.older⟩
  have arises : Arises ⟨0⟩ (fresh.under ⟨100, 0, 1⟩) := .start closed
  have longer : ((do
      Eval.tick
      Context.forEach ⟨.standard, none, ⟨0⟩⟩ ⟨"x", default⟩ oneToThree wrapping ⟨0⟩)
        (fresh.under ⟨100, 0, 1⟩)).any (fun _ (n : Machine) => n.count .list == 4) = true := by
    decide +kernel
  have listed : (Context.evaluate ⟨.standard, none, ⟨0⟩⟩ oneToThree ⟨0⟩
      (fresh.under ⟨100, 0, 1⟩).counted).any (fun v (t : Machine) =>
        v.handle? == some (.list 0) && (t.world.heap.items 0).size == 3) = true := by
    decide +kernel
  obtain ⟨flow, n, ends, lists⟩ := EStateM.exists_of_any longer
  obtain ⟨v, t, made, given⟩ := EStateM.exists_of_any listed
  obtain ⟨r', n', ends', ⟨e, -, ⟨⟩, -⟩ | ⟨id, items, t, made', found, -, same, inserts, -,
    meters⟩⟩ := arises.for_range rfl rfl Nat.zero_lt_one default default ends (by simp)
  obtain ⟨⟨⟩, rfl⟩ := made'.unique made
  obtain ⟨rfl, size⟩ : id = 0 ∧ (t.world.heap.items 0).size = 3 := by
    simpa [Value.handle?] using given
  have held : t.world.heap.items 0 = items := by
    obtain ⟨xs, at_zero, ⟨⟩⟩ := Option.map_eq_some_iff.mp found
    simp [Heap.items, at_zero]
  cases r' with
  | error e => cases same
  | ok flow' =>
      refine ⟨arises, flow, flow', n, n', items, ends, ends', inserts, by simpa using lists, ?_⟩
      rw [meters, ← held, size]

end Machine

end Formwork
