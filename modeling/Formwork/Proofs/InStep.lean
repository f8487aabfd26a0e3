import Formwork.Proofs.Quiet
import Formwork.Script

/-!
# Computations in step

How many rounds a loop may make and how deep a program may be nested is bounded by the instructions
that are left, so runs under two budgets are two different computations. They are made of the same
steps, though: `Eval.InStep` pairs the steps of one with those of the other until the instructions
of either run out. All that is said about budgets later follows from this pairing.
-/

namespace Formwork

namespace Eval

/--
Two computations are made of the same steps, as long as the first is begun with less than `left` and
the second with less than `right` instructions remaining.
-/
inductive InStep : Nat → Nat → {α : Type} → Eval α → Eval α → Prop
  /-- Neither is ever begun. -/
  | spent {α : Type} (x y : Eval α) : InStep 0 0 x y
  /-- The first is never begun. -/
  | spent_left {right : Nat} {α : Type} (x : Eval α) {y : Eval α} (alone : InStep right right y y) :
      InStep 0 right x y
  /-- The second is never begun. -/
  | spent_right {left : Nat} {α : Type} {x : Eval α} (y : Eval α) (alone : InStep left left x x) :
      InStep left 0 x y
  | quiet {left right : Nat} {α : Type} {x : Eval α} (quiet : x.Quiet) : InStep left right x x
  /-- After an instruction fewer remain. -/
  | tick {left right : Nat} {α : Type} {x y : Eval α} (later : InStep (left - 1) (right - 1) x y) :
      InStep left right (tick >>= fun _ => x) (tick >>= fun _ => y)
  /-- The number of rounds is more than the instructions that remain. -/
  | rounds {left right : Nat} {α : Type} {f g : Nat → Eval α}
      (later : ∀ n n', n ≤ left → n' ≤ right → InStep n n' (f n) (g n')) :
      InStep left right (rounds >>= f) (rounds >>= g)
  | inCall {left right : Nat} {α : Type} {x y : Eval α} (body : InStep left right x y) :
      InStep left right (inCall x) (inCall y)
  | bind {left right : Nat} {α β : Type} {x y : Eval α} {f g : α → Eval β}
      (first : InStep left right x y) (later : ∀ a, InStep left right (f a) (g a)) :
      InStep left right (x >>= f) (y >>= g)

namespace InStep

variable {left right : Nat} {α : Type}

theorem mono {x y : Eval α} (step : InStep left right x y) {left' right' : Nat}
    (le : left' ≤ left) (le' : right' ≤ right) : InStep left' right' x y := by
  induction step generalizing left' right' with
  | spent x y =>
      obtain rfl := Nat.le_zero.mp le
      obtain rfl := Nat.le_zero.mp le'
      exact .spent x y
  | spent_left x alone ih =>
      obtain rfl := Nat.le_zero.mp le
      exact .spent_left x (ih le' le')
  | spent_right y alone ih =>
      obtain rfl := Nat.le_zero.mp le'
      exact .spent_right y (ih le le)
  | quiet quiet => exact .quiet quiet
  | tick later ih => exact .tick (ih (Nat.sub_le_sub_right le 1) (Nat.sub_le_sub_right le' 1))
  | rounds later ih =>
      exact .rounds fun n n' short short' =>
        later n n' (Nat.le_trans short le) (Nat.le_trans short' le')
  | inCall body ih => exact .inCall (ih le le')
  | bind first later ih_first ih => exact .bind (ih_first le le') fun a => ih a le le'

/--
Loops go in step when their rounds do: each round is one more than those after it, and costs an
instruction.
-/
theorem loop {ι : Type} {f g : Nat → ι → Eval α}
    (first : ∀ n < left, (∀ i, InStep n n (f n i) (f n i)) →
      ∀ i, InStep (n + 1) (n + 1) (f (n + 1) i) (f (n + 1) i))
    (second : ∀ n < right, (∀ i, InStep n n (g n i) (g n i)) →
      ∀ i, InStep (n + 1) (n + 1) (g (n + 1) i) (g (n + 1) i))
    (both : ∀ n < left, ∀ n' < right, (∀ i, InStep n n' (f n i) (g n' i)) →
      ∀ i, InStep (n + 1) (n' + 1) (f (n + 1) i) (g (n' + 1) i))
    {n n' : Nat} (le : n ≤ left) (le' : n' ≤ right) (i : ι) : InStep n n' (f n i) (g n' i) := by
  -- Where one side has no rounds left, the other one goes on alone.
  have alone {h : Nat → ι → Eval α} {bound : Nat} (round : ∀ n < bound,
      (∀ i, InStep n n (h n i) (h n i)) → ∀ i, InStep (n + 1) (n + 1) (h (n + 1) i) (h (n + 1) i))
      (n : Nat) (le : n ≤ bound) (i : ι) : InStep n n (h n i) (h n i) := by
    induction n generalizing i with
    | zero => exact .spent _ _
    | succ n ih => exact round n le (fun i => ih (Nat.le_of_succ_le le) i) i
  induction n generalizing n' i with
  | zero => exact .spent_left _ (alone second n' le' i)
  | succ n ih =>
      cases n' with
      | zero => exact .spent_right _ (alone first (n + 1) le i)
      | succ n' =>
          exact both n le n' le'
            (fun i => ih (Nat.le_of_succ_le le) (Nat.le_of_succ_le le') i) i

protected theorem pure (a : α) : InStep left right (pure a : Eval α) (pure a) := .quiet (.pure a)

theorem typeMismatch (cause : Mismatch) :
    InStep left right (throw (.typeMismatch cause) : Eval α) (throw (.typeMismatch cause)) :=
  .quiet (.throw fun _ => trivial)

theorem unsupported (cause : Unsupported) :
    InStep left right (throw (.unsupported cause) : Eval α) (throw (.unsupported cause)) :=
  .quiet (.throw fun _ => trivial)

theorem nameNotFound (name : String) :
    InStep left right (throw (.nameNotFound name) : Eval α) (throw (.nameNotFound name)) :=
  .quiet (.throw fun _ => trivial)

theorem newFunction (definition : FunctionDef) (scope : ScopeId) :
    InStep left right (Eval.newFunction definition scope) (Eval.newFunction definition scope) :=
  .quiet (.act (.newFunction definition scope))

end InStep

end Eval

open Eval (InStep)

namespace Parts

/-- The parts of expressions and statements go in step, and so does each with itself. -/
structure InStep (left right : Nat) (parts parts' : Parts) : Prop where
  expr (e : Expr) (scope : ScopeId) :
    Eval.InStep left right (parts.expr e scope) (parts'.expr e scope)
  stmt (s : Stmt) (scope : ScopeId) :
    Eval.InStep left right (parts.stmt s scope) (parts'.stmt s scope)

namespace InStep

variable {left right : Nat} {parts parts' : Parts}

theorem mono (step : parts.InStep left right parts') {left' right' : Nat}
    (le : left' ≤ left) (le' : right' ≤ right) : parts.InStep left' right' parts' where
  expr e scope := (step.expr e scope).mono le le'
  stmt s scope := (step.stmt s scope).mono le le'

theorem pred (step : parts.InStep left right parts') :
    parts.InStep (left - 1) (right - 1) parts' :=
  step.mono (Nat.sub_le _ _) (Nat.sub_le _ _)

theorem args (step : parts.InStep left right parts') (scope : ScopeId) (es : List Expr) :
    Eval.InStep left right (parts.args scope es) (parts'.args scope es) := by
  induction es with
  | nil => exact .pure []
  | cons e rest ih => exact .bind (step.expr e scope) fun _ => .bind ih fun _ => .pure _

theorem number (step : parts.InStep left right parts') (e : Expr) (scope : ScopeId) :
    Eval.InStep left right (parts.number e scope) (parts'.number e scope) :=
  .bind (step.expr e scope) fun _ =>
    .quiet (.ofExcept fun _ failed h => Action.Quiet.proper_of_number? failed h)

theorem bool (step : parts.InStep left right parts') (e : Expr) (scope : ScopeId) :
    Eval.InStep left right (parts.bool e scope) (parts'.bool e scope) :=
  .bind (step.expr e scope) fun _ =>
    .quiet (.ofExcept fun _ failed h => Action.Quiet.proper_of_bool? failed h)

theorem entries (step : parts.InStep left right parts') (scope : ScopeId) (acc : Entries)
    (es : List (Expr × Expr)) :
    Eval.InStep left right (parts.entries scope acc es) (parts'.entries scope acc es) := by
  induction es generalizing acc with
  | nil => exact .pure acc
  | cons e rest ih =>
      exact .bind (step.expr e.1 scope) fun _ => .bind (step.expr e.2 scope) fun _ =>
        .bind (.quiet (.act (.insert _ _ _))) fun acc => ih acc

theorem range (step : parts.InStep left right parts') (first last : Expr) (inclusive : Bool)
    (by_ : Option Expr) (scope : ScopeId) :
    Eval.InStep left right (parts.range first last inclusive by_ scope)
      (parts'.range first last inclusive by_ scope) := by
  have made (x y z : Float) : Eval.InStep left right
      (MonadExcept.ofExcept (Range.make x y z inclusive))
      (MonadExcept.ofExcept (Range.make x y z inclusive)) := by
    refine .quiet (.ofExcept fun e failed h => ?_)
    unfold Range.make at failed
    split at failed
    · cases failed
      trivial
    · cases failed
  refine .bind (step.number first scope) fun x => .bind (step.number last scope) fun y => ?_
  cases by_ with
  | none => exact made _ _ _
  | some e => exact .bind (step.number e scope) fun z => made _ _ _

theorem stmts (step : parts.InStep left right parts') (scope : ScopeId) (last : Value)
    (ss : List Stmt) :
    Eval.InStep left right (parts.stmts scope last ss) (parts'.stmts scope last ss) := by
  induction ss generalizing last with
  | nil => exact .pure _
  | cons s rest ih =>
      refine .bind (step.stmt s scope) fun flow => ?_
      cases flow with
      | normal v => exact ih v
      | returned v => exact .pure _

theorem nested (step : parts.InStep left right parts') (b : Block) (scope : ScopeId) :
    Eval.InStep left right (parts.nested b scope) (parts'.nested b scope) :=
  .bind (.quiet (.child scope)) fun inner => step.stmts inner .unit b.stmts

theorem conditional (step : parts.InStep left right parts') (condition : Expr) (yes : Block)
    (no : Option Block) (scope : ScopeId) :
    Eval.InStep left right (parts.conditional condition yes no scope)
      (parts'.conditional condition yes no scope) := by
  refine .bind (step.bool condition scope) fun b => ?_
  cases b with
  | true => exact step.nested yes scope
  | false =>
      cases no with
      | some b => exact step.nested b scope
      | none => exact .pure _

theorem define (step : parts.InStep left right parts') (definition : VarDef) (scope : ScopeId) :
    Eval.InStep left right (parts.define definition scope) (parts'.define definition scope) :=
  .bind (step.expr definition.value scope) fun _ => .quiet (.define _ _ _ _)

/-! ## Loops -/

/-- A round of a loop over items, and what follows it. -/
theorem forRound (step : parts.InStep (left - 1) (right - 1) parts') (item : Ident) (body : Block)
    (scope : ScopeId) (v : Value) {f g : Flow → Eval Flow}
    (later : ∀ flow, Eval.InStep (left - 1) (right - 1) (f flow) (g flow)) :
    Eval.InStep left right (parts.forBody item body scope v >>= f)
      (parts'.forBody item body scope v >>= g) := by
  unfold Parts.forBody
  simp only [bind_assoc]
  exact .tick (.bind (.quiet (.child scope)) fun inner =>
    .bind (.quiet (.define _ _ _ _)) fun _ => .bind (step.stmts inner .unit body.stmts) later)

theorem forItems (step : parts.InStep left right parts') (item : Ident) (body : Block)
    (scope : ScopeId) (vs : List Value) :
    Eval.InStep left right (parts.forItems item body scope vs)
      (parts'.forItems item body scope vs) := by
  induction vs with
  | nil => exact .pure _
  | cons v rest ih =>
      refine step.pred.forRound item body scope v fun flow => ?_
      cases flow with
      | normal _ => exact ih.mono (Nat.sub_le _ _) (Nat.sub_le _ _)
      | returned v => exact .pure _

theorem forRange_succ (step : parts.InStep left right parts') (item : Ident) (body : Block)
    (scope : ScopeId) (r : Range)
    (later : ∀ i, Eval.InStep left right (parts.forRange item body scope r left i)
      (parts'.forRange item body scope r right i)) (i : Nat) :
    Eval.InStep (left + 1) (right + 1) (parts.forRange item body scope r (left + 1) i)
      (parts'.forRange item body scope r (right + 1) i) := by
  unfold Parts.forRange
  split
  · refine Parts.InStep.forRound (by simpa using step) item body scope _ fun flow => ?_
    cases flow with
    | normal _ => exact later (i + 1)
    | returned v => exact .pure _
  · exact .pure _

theorem while_succ (step : parts.InStep left right parts') (condition : Expr) (body : Block)
    (scope : ScopeId)
    (later : Eval.InStep left right (parts.while_ condition body scope left)
      (parts'.while_ condition body scope right)) :
    Eval.InStep (left + 1) (right + 1) (parts.while_ condition body scope (left + 1))
      (parts'.while_ condition body scope (right + 1)) := by
  refine .tick (.bind (step.bool condition scope) fun b => ?_)
  cases b with
  | false => exact .pure _
  | true =>
      refine .bind (step.nested body scope) fun flow => ?_
      cases flow with
      | normal _ => exact later
      | returned v => exact .pure _

/-! ## Calls -/

theorem bindParams (step : parts.InStep left right parts') (function : String)
    (captured scope : ScopeId) (params : List Param) (slots : List (Option Value)) :
    Eval.InStep left right (parts.bindParams function captured scope params slots)
      (parts'.bindParams function captured scope params slots) := by
  induction params generalizing slots with
  | nil => exact .pure ()
  | cons p params ih =>
      cases slots with
      | nil => exact .pure ()
      | cons slot slots =>
          have rest (v : Value) : Eval.InStep left right
              (do
                Eval.define scope p.name.name v false
                parts.bindParams function captured scope params slots)
              (do
                Eval.define scope p.name.name v false
                parts'.bindParams function captured scope params slots) :=
            .bind (.quiet (.define _ _ _ _)) fun _ => ih slots
          unfold Parts.bindParams
          cases slot with
          | some v => exact rest v
          | none =>
              cases p.default with
              | some e => exact .bind (step.expr e captured) rest
              | none => exact .bind (.typeMismatch _) rest

theorem invoke (step : parts.InStep left right parts') (f : FunctionDef) (captured : ScopeId)
    (slots : List (Option Value)) :
    Eval.InStep left right (parts.invoke f captured slots) (parts'.invoke f captured slots) :=
  .inCall (.bind (.quiet (.child captured)) fun scope =>
    .bind (step.bindParams f.displayName captured scope f.params slots) fun _ =>
      .bind (step.stmts scope .unit f.body.stmts) fun _ => .pure _)

theorem call (step : parts.InStep left right parts') (f : FunctionDef) (captured : ScopeId)
    (args : List Value) :
    Eval.InStep left right (parts.call f captured args) (parts'.call f captured args) := by
  unfold Parts.call
  split
  · exact .typeMismatch _
  · exact step.invoke f captured _

theorem callNamed (step : parts.InStep left right parts') (f : FunctionDef) (captured : ScopeId)
    (bindings : List (String × Value)) :
    Eval.InStep left right (parts.callNamed f captured bindings)
      (parts'.callNamed f captured bindings) := by
  unfold Parts.callNamed
  dsimp only
  split
  · exact .nameNotFound _
  · exact step.invoke f captured _

theorem apply (step : parts.InStep left right parts') (callee : Value) (args : List Value) :
    Eval.InStep left right (parts.apply callee args) (parts'.apply callee args) := by
  unfold Parts.apply
  split
  · exact step.call _ _ args
  · exact .typeMismatch _

end InStep

theorem rangeItems_inStep (r : Range) (n n' : Nat) (i : Nat) (acc : Array Value) :
    Eval.InStep n n' (rangeItems r n i acc) (rangeItems r n' i acc) := by
  have round (n n' : Nat) (later : ∀ at_ : Nat × Array Value,
      Eval.InStep n n' (rangeItems r n at_.1 at_.2) (rangeItems r n' at_.1 at_.2))
      (at_ : Nat × Array Value) : Eval.InStep (n + 1) (n' + 1) (rangeItems r (n + 1) at_.1 at_.2)
        (rangeItems r (n' + 1) at_.1 at_.2) := by
    unfold rangeItems
    split
    · exact .tick (later (_, _))
    · exact .pure _
  exact Eval.InStep.loop (f := fun n at_ => rangeItems r n at_.1 at_.2)
    (g := fun n at_ => rangeItems r n at_.1 at_.2) (fun n _ => round n n) (fun n _ => round n n)
    (fun n _ n' _ => round n n') (Nat.le_refl n) (Nat.le_refl n') (i, acc)

/-- The parts go in step with one another, and each with itself. -/
structure Paired (left right : Nat) (parts parts' : Parts) : Prop where
  both : parts.InStep left right parts'
  first : parts.InStep left left parts
  second : parts'.InStep right right parts'

namespace Paired

variable {left right : Nat} {parts parts' : Parts}

theorem mono (paired : parts.Paired left right parts') {left' right' : Nat}
    (le : left' ≤ left) (le' : right' ≤ right) : parts.Paired left' right' parts' :=
  ⟨paired.both.mono le le', paired.first.mono le le, paired.second.mono le' le'⟩

theorem forRange (paired : parts.Paired left right parts') (item : Ident) (body : Block)
    (scope : ScopeId) (r : Range) (i : Nat) :
    Eval.InStep left right (parts.forRange item body scope r left i)
      (parts'.forRange item body scope r right i) :=
  .loop (fun _ lt => (paired.first.mono (Nat.le_of_lt lt) (Nat.le_of_lt lt)).forRange_succ _ _ _ _)
    (fun _ lt => (paired.second.mono (Nat.le_of_lt lt) (Nat.le_of_lt lt)).forRange_succ _ _ _ _)
    (fun _ lt _ lt' =>
      (paired.both.mono (Nat.le_of_lt lt) (Nat.le_of_lt lt')).forRange_succ _ _ _ _)
    (Nat.le_refl left) (Nat.le_refl right) i

theorem while_ (paired : parts.Paired left right parts') (condition : Expr) (body : Block)
    (scope : ScopeId) :
    Eval.InStep left right (parts.while_ condition body scope left)
      (parts'.while_ condition body scope right) :=
  .loop (f := fun n (_ : Unit) => parts.while_ condition body scope n)
    (g := fun n (_ : Unit) => parts'.while_ condition body scope n)
    (fun _ lt later _ =>
      (paired.first.mono (Nat.le_of_lt lt) (Nat.le_of_lt lt)).while_succ _ _ _ (later ()))
    (fun _ lt later _ =>
      (paired.second.mono (Nat.le_of_lt lt) (Nat.le_of_lt lt)).while_succ _ _ _ (later ()))
    (fun _ lt _ lt' later _ =>
      (paired.both.mono (Nat.le_of_lt lt) (Nat.le_of_lt lt')).while_succ _ _ _ (later ()))
    (Nat.le_refl left) (Nat.le_refl right) ()

theorem for_ (paired : parts.Paired left right parts') (item : Ident) (iterable : Expr)
    (body : Block) (scope : ScopeId) :
    Eval.InStep left right (parts.for_ item iterable body scope)
      (parts'.for_ item iterable body scope) := by
  unfold Parts.for_
  split
  · have less := paired.mono (Nat.sub_le left 1) (Nat.sub_le right 1)
    exact .tick (.bind (less.both.range _ _ _ _ scope) fun r =>
      .rounds fun n n' le le' => (less.mono le le').forRange item body scope r 0)
  · exact .bind (paired.both.expr _ scope) fun v =>
      .bind (.quiet (.act (.itemsOf v))) fun vs => paired.both.forItems item body scope vs

end Paired

end Parts

/-! ## Expressions and statements -/

namespace Context

variable {left right : Nat} {parts parts' : Parts} {context : Context}

theorem resolve?_inStep (name : String) (scope : ScopeId) :
    InStep left right (context.resolve? name scope) (context.resolve? name scope) := by
  refine .bind (.quiet (.meaning scope name)) fun meaning => ?_
  split
  · exact .pure _
  · exact .bind (.newFunction _ _) fun _ => .pure _
  · split
    · exact .bind (.newFunction _ _) fun _ => .pure _
    · exact .pure _

section

variable (quiet : context.builtins.All fun builtin => ∀ args, (builtin args).Quiet)

include quiet

theorem callByName_inStep (step : parts.InStep left right parts') (name : String)
    (args : List Expr) (scope : ScopeId) :
    InStep left right (context.callByName parts name args scope)
      (context.callByName parts' name args scope) := by
  refine .bind (resolve?_inStep name scope) fun callee => ?_
  cases callee with
  | some callee => exact .bind (step.args scope args) fun vs => step.apply callee vs
  | none =>
      cases found : context.builtins.find? name with
      | some builtin =>
          exact .bind (step.args scope args) fun vs => .quiet (.act (quiet.find? found vs))
      | none => exact .nameNotFound name

theorem callBuiltin_inStep (name : String) (otherwise : Unsupported) (args : List Value) :
    InStep left right (context.callBuiltin name otherwise args)
      (context.callBuiltin name otherwise args) := by
  unfold callBuiltin
  cases found : context.builtins.find? name with
  | some builtin => exact .quiet (.act (quiet.find? found args))
  | none => exact .unsupported otherwise

omit quiet in
theorem binary_inStep (step : parts.InStep left right parts') (a : Expr) (op : BinaryOp) (b : Expr)
    (scope : ScopeId) :
    InStep left right (binary parts a op b scope) (binary parts' a op b scope) := by
  unfold binary
  split
  · refine .bind (step.bool a scope) fun x => ?_
    cases x with
    | true => exact .bind (step.bool b scope) fun _ => .pure _
    | false => exact .pure _
  · refine .bind (step.bool a scope) fun x => ?_
    cases x with
    | true => exact .pure _
    | false => exact .bind (step.bool b scope) fun _ => .pure _
  · exact .bind (step.expr a scope) fun x => .bind (step.expr b scope) fun y =>
      .quiet (.act (.binary op x y))

theorem expr_inStep (step : parts.InStep left right parts') (e : Expr) (scope : ScopeId) :
    InStep (left + 1) (right + 1) (context.expr parts e scope) (context.expr parts' e scope) := by
  refine .tick ?_
  simp only [Nat.add_sub_cancel]
  cases e with
  | number x _ => exact .pure _
  | bool b _ => exact .pure _
  | list items _ => exact .bind (step.args scope items) fun vs => .quiet (.act (.newList _))
  | map entries _ =>
      exact .bind (step.entries scope [] entries) fun acc => .quiet (.act (.newMap _))
  | range first last inclusive by_ _ =>
      exact .bind (step.range first last inclusive by_ scope) fun r =>
        .rounds fun n n' _ _ => .bind (Parts.rangeItems_inStep r n n' 0 #[]) fun vs =>
          .quiet (.act (.newList vs))
  | name name _ =>
      refine .bind (resolve?_inStep name scope) fun found => ?_
      cases found with
      | some v => exact .pure v
      | none => exact .nameNotFound name
  | call name args _ => exact callByName_inStep quiet step name.name args scope
  | apply callee args _ =>
      exact .bind (step.expr callee scope) fun f => .bind (step.args scope args) fun vs =>
        step.apply f vs
  | method receiver name args _ =>
      exact .bind (step.expr receiver scope) fun v => .bind (step.args scope args) fun vs =>
        callBuiltin_inStep quiet _ _ _
  | create type args _ =>
      exact .bind (step.args scope args) fun vs => callBuiltin_inStep quiet _ _ _
  | index target key _ =>
      exact .bind (step.expr target scope) fun t => .bind (step.expr key scope) fun k =>
        .quiet (.act (.elementAt t k))
  | update target key value _ =>
      exact .bind (step.expr target scope) fun t => .bind (step.expr key scope) fun k =>
        .bind (step.expr value scope) fun v =>
          .bind (.quiet (.act (.setElement t k v))) fun _ => .pure v
  | binary a op b _ => exact binary_inStep step a op b scope
  | unary op operand _ =>
      exact .bind (step.expr operand scope) fun v => .quiet (.act (.unary op v))
  | conditional condition yes no _ =>
      refine .bind (step.conditional condition yes no scope) fun flow => ?_
      cases flow with
      | normal v => exact .pure v
      | returned v => exact .unsupported _
  | function definition => exact .newFunction definition scope

omit quiet in
theorem stmt_inStep (paired : parts.Paired left right parts') (s : Stmt) (scope : ScopeId) :
    InStep (left + 1) (right + 1) (stmt parts s scope) (stmt parts' s scope) := by
  have step := paired.both
  refine .tick ?_
  simp only [Nat.add_sub_cancel]
  split
  · exact .bind (step.define _ scope) fun _ => .pure _
  · exact .bind (.quiet (.defineFunction scope _)) fun _ => .pure _
  · exact .bind (step.expr _ scope) fun v => .bind (.quiet (.assign scope _ v)) fun _ => .pure _
  · exact .tick (step.pred.conditional _ _ _ scope)
  · exact .bind (step.expr _ scope) fun v => .pure _
  · exact .bind (step.expr _ scope) fun v => .pure _
  · exact paired.for_ _ _ _ scope
  · exact .rounds fun n n' le le' => (paired.mono le le').while_ _ _ scope

/-! ## Whole programs -/

theorem parts_inStep_self (n : Nat) :
    (context.parts n).InStep n n (context.parts n) := by
  induction n with
  | zero => exact ⟨fun _ _ => .spent _ _, fun _ _ => .spent _ _⟩
  | succ n ih => exact ⟨expr_inStep quiet ih, stmt_inStep ⟨ih, ih, ih⟩⟩

/-- However many levels there are, the parts go in step. -/
theorem parts_inStep (n n' : Nat) : (context.parts n).InStep n n' (context.parts n') := by
  induction n generalizing n' with
  | zero =>
      have alone := parts_inStep_self quiet n'
      exact ⟨fun e scope => .spent_left _ (alone.expr e scope),
        fun s scope => .spent_left _ (alone.stmt s scope)⟩
  | succ n ih =>
      cases n' with
      | zero =>
          have alone := parts_inStep_self quiet (n + 1)
          exact ⟨fun e scope => .spent_right _ (alone.expr e scope),
            fun s scope => .spent_right _ (alone.stmt s scope)⟩
      | succ n' =>
          exact ⟨expr_inStep quiet (ih n'), stmt_inStep
            ⟨ih n', parts_inStep_self quiet n, parts_inStep_self quiet n'⟩⟩

theorem withParts_inStep {α : Type} {run : Parts → Eval α}
    (step : ∀ {left right : Nat} {parts parts' : Parts}, parts.InStep left right parts' →
      InStep left right (run parts) (run parts')) :
    InStep left right (context.withParts run) (context.withParts run) :=
  .rounds fun n n' _ _ => step (parts_inStep quiet n n')

theorem callNamed_inStep (f : FunctionDef) (captured : ScopeId)
    (bindings : List (String × Value)) :
    InStep left right (context.callNamed f captured bindings)
      (context.callNamed f captured bindings) :=
  withParts_inStep quiet fun step => step.callNamed f captured bindings

theorem defineGlobals_inStep :
    InStep left right context.defineGlobals context.defineGlobals := by
  have all (definitions : List VarDef) :
      InStep left right (context.defineAll definitions) (context.defineAll definitions) := by
    induction definitions with
    | nil => exact .pure ()
    | cons definition rest ih =>
        exact .bind (withParts_inStep quiet fun step => step.define definition _) fun _ => ih
  unfold defineGlobals
  split
  · exact all _
  · exact .pure ()

end

end Context

namespace Script

/-- What running a script by the name of a function computes, after a global scope has been made. -/
def computation (s : Script) (builtins : Registry) (globals : ScopeId) (function : String)
    (bindings : List (String × Value)) : Eval Value :=
  match s.program.function? function with
  | some f => do
    let context : Context := ⟨builtins, some s.program, globals⟩
    context.defineGlobals
    context.callNamed f globals bindings
  | none => throw (.nameNotFound function)

/-- A run of a script ends with a result in a state of the machine, which tells what was used. -/
def Ends (s : Script) (builtins : Registry) (budget : Budget) (clock : Clock) (function : String)
    (bindings : List (String × Value)) (world : World) (r : Except EvalError Value)
    (m : Machine) : Prop :=
  let (globals, start) := Machine.start budget clock world
  (s.computation builtins globals function bindings).Ends start r m

variable {s : Script} {builtins : Registry} {budget : Budget} {clock : Clock} {function : String}
  {bindings : List (String × Value)} {world : World}

/-- Of the last state a run keeps the collections and what was printed. -/
theorem Ends.run {r : Except EvalError Value} {m : Machine}
    (ends : s.Ends builtins budget clock function bindings world r m) :
    (s.run builtins budget clock function bindings).Ends world r m.world := by
  unfold Ends computation at ends
  unfold Script.run
  cases found : s.program.function? function with
  | none =>
      simp only [found] at ends ⊢
      obtain ⟨rfl, rfl⟩ := EStateM.ends_throw.mp ends
      exact EStateM.ends_throw.mpr ⟨rfl, rfl⟩
  | some f =>
      simp only [found] at ends ⊢
      cases r <;> simp_all [EStateM.Ends, Script.call]

theorem computation_inStep {left right : Nat}
    (quiet : builtins.All fun builtin => ∀ args, (builtin args).Quiet) (globals : ScopeId) :
    InStep left right (s.computation builtins globals function bindings)
      (s.computation builtins globals function bindings) := by
  unfold computation
  split
  · exact .bind (Context.defineGlobals_inStep quiet) fun _ => Context.callNamed_inStep quiet _ _ _
  · exact .nameNotFound function

end Script

end Formwork
