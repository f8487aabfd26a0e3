import Formwork.Eval.Run
import Formwork.Proofs.Agree

/-!
# Running programs impartially

Run in paired scopes of states that are alike, every expression and every statement has the same
outcome on both sides. There is one lemma for each construct, `Context.parts_impartial` puts them
together by induction on the levels of nesting, and `Context.withParts_agree` says it of whole runs.
-/

namespace Formwork

namespace Pairing

/-- Statements that end in the same way, with related values. -/
inductive RelatesFlow (ρ : Pairing) : Flow → Flow → Prop
  | normal {v v' : Value} (related : ρ.Relates v v') : RelatesFlow ρ (.normal v) (.normal v')
  | returned {v v' : Value} (related : ρ.Relates v v') : RelatesFlow ρ (.returned v) (.returned v')

/-- The global scope stands for itself, and two scopes in which the same is run are paired. -/
structure Places (ρ : Pairing) (globals scope scope' : ScopeId) : Prop where
  globals : ρ .scope globals.index globals.index
  here : ρ .scope scope.index scope'.index

variable {ρ σ : Pairing}

theorem RelatesFlow.value {flow flow' : Flow} (related : ρ.RelatesFlow flow flow') :
    ρ.Relates flow.value flow'.value := by
  cases related with
  | normal related => exact related
  | returned related => exact related

theorem Places.mono (more : ρ ≤ σ) {globals scope scope' : ScopeId}
    (places : ρ.Places globals scope scope') : σ.Places globals scope scope' :=
  ⟨more places.globals, more places.here⟩

end Pairing

namespace Parts

/-- Expressions and statements have the same outcome in paired scopes. -/
structure Impartial (globals : ScopeId) (parts : Parts) : Prop where
  expr {ρ : Pairing} (e : Expr) {scope scope' : ScopeId} (places : ρ.Places globals scope scope') :
    (parts.expr e scope).Agree ρ (parts.expr e scope') Pairing.Relates
  stmt {ρ : Pairing} (s : Stmt) {scope scope' : ScopeId} (places : ρ.Places globals scope scope') :
    (parts.stmt s scope).Agree ρ (parts.stmt s scope') Pairing.RelatesFlow

namespace Impartial

variable {globals : ScopeId} {parts : Parts} {ρ : Pairing} {scope scope' : ScopeId}

theorem args (impartial : parts.Impartial globals) (es : List Expr)
    (places : ρ.Places globals scope scope') :
    (parts.args scope es).Agree ρ (parts.args scope' es) fun σ => List.Forall₂ σ.Relates := by
  induction es generalizing ρ with
  | nil => exact .pure fun _ _ => .nil
  | cons e rest ih =>
      refine .bind (impartial.expr e places) fun v v' σ more related => ?_
      refine .bind (ih (places.mono more)) fun vs vs' τ more' others => .pure fun υ more'' => ?_
      exact .cons (related.mono (more'.trans more'')) (others.imp fun _ _ => .mono more'')

theorem number (impartial : parts.Impartial globals) (e : Expr)
    (places : ρ.Places globals scope scope') :
    (parts.number e scope).Agree ρ (parts.number e scope') fun _ x y => x = y :=
  .bind (impartial.expr e places) fun _ _ _ _ related => .ofExcept related.number?_eq

theorem bool (impartial : parts.Impartial globals) (e : Expr)
    (places : ρ.Places globals scope scope') :
    (parts.bool e scope).Agree ρ (parts.bool e scope') fun _ x y => x = y :=
  .bind (impartial.expr e places) fun _ _ _ _ related => .ofExcept related.bool?_eq

theorem entries (impartial : parts.Impartial globals) {acc acc' : Entries} (es : List (Expr × Expr))
    (places : ρ.Places globals scope scope') (related : List.Forall₂ ρ.RelatesEntry acc acc') :
    (parts.entries scope acc es).Agree ρ (parts.entries scope' acc' es) fun σ =>
      List.Forall₂ σ.RelatesEntry := by
  induction es generalizing acc acc' ρ with
  | nil => exact .pure fun σ more => related.imp fun _ _ => .mono more
  | cons e rest ih =>
      refine .bind (impartial.expr e.1 places) fun key key' σ more keys => ?_
      refine .bind (impartial.expr e.2 (places.mono more)) fun v v' τ more' values => ?_
      have both := more.trans more'
      refine .bind (.insert (keys.mono more') (related.imp fun _ _ => .mono both) values)
        fun xs ys υ more'' entries => ?_
      exact ih (places.mono (both.trans more'')) entries

theorem range (impartial : parts.Impartial globals) (first last : Expr) (inclusive : Bool)
    (by_ : Option Expr) (places : ρ.Places globals scope scope') :
    (parts.range first last inclusive by_ scope).Agree ρ
      (parts.range first last inclusive by_ scope') fun _ r r' => r = r' := by
  refine .bind (impartial.number first places) ?_
  rintro x _ σ more rfl
  refine .bind (impartial.number last (places.mono more)) ?_
  rintro y _ τ more' rfl
  cases by_ with
  | none => exact .ofExcept rfl
  | some e =>
      refine .bind (impartial.number e (places.mono (more.trans more'))) ?_
      rintro z _ υ - rfl
      exact .ofExcept rfl

theorem stmts (impartial : parts.Impartial globals) {last last' : Value} (ss : List Stmt)
    (places : ρ.Places globals scope scope') (related : ρ.Relates last last') :
    (parts.stmts scope last ss).Agree ρ (parts.stmts scope' last' ss) Pairing.RelatesFlow := by
  induction ss generalizing last last' ρ with
  | nil => exact .pure fun σ more => .normal (related.mono more)
  | cons s rest ih =>
      refine .bind (impartial.stmt s places) fun flow flow' σ more flows => ?_
      cases flows with
      | normal related => exact ih (places.mono more) related
      | returned related => exact .pure fun τ more' => .returned (related.mono more')

theorem block (impartial : parts.Impartial globals) (b : Block)
    (places : ρ.Places globals scope scope') :
    (parts.block b scope).Agree ρ (parts.block b scope') Pairing.RelatesFlow :=
  impartial.stmts b.stmts places .unit

theorem nested (impartial : parts.Impartial globals) (b : Block)
    (places : ρ.Places globals scope scope') :
    (parts.nested b scope).Agree ρ (parts.nested b scope') Pairing.RelatesFlow :=
  .bind (.child places.here) fun _ _ _ more inside =>
    impartial.block b ⟨more places.globals, inside⟩

theorem conditional (impartial : parts.Impartial globals) (condition : Expr) (yes : Block)
    (no : Option Block) (places : ρ.Places globals scope scope') :
    (parts.conditional condition yes no scope).Agree ρ (parts.conditional condition yes no scope')
      Pairing.RelatesFlow := by
  refine .bind (impartial.bool condition places) ?_
  rintro b _ σ more rfl
  cases b with
  | true => exact impartial.nested yes (places.mono more)
  | false =>
      cases no with
      | some b => exact impartial.nested b (places.mono more)
      | none => exact .pure fun _ _ => .normal .unit

theorem define (impartial : parts.Impartial globals) (definition : VarDef)
    (places : ρ.Places globals scope scope') :
    (parts.define definition scope).Agree ρ (parts.define definition scope') fun _ _ _ => True :=
  .bind (impartial.expr definition.value places) fun _ _ _ more related =>
    .define (more places.here) _ related _

/-! ## Loops -/

theorem forBody (impartial : parts.Impartial globals) (item : Ident) (body : Block) {v v' : Value}
    (places : ρ.Places globals scope scope') (related : ρ.Relates v v') :
    (parts.forBody item body scope v).Agree ρ (parts.forBody item body scope' v')
      Pairing.RelatesFlow :=
  .tick (.bind (.child places.here) fun _ _ _ more inside =>
    .bind (.define inside _ (related.mono more) _) fun _ _ _ more' _ =>
      impartial.block body ⟨more.trans more' places.globals, more' inside⟩)

theorem forItems (impartial : parts.Impartial globals) (item : Ident) (body : Block)
    {vs vs' : List Value} (places : ρ.Places globals scope scope')
    (related : List.Forall₂ ρ.Relates vs vs') :
    (parts.forItems item body scope vs).Agree ρ (parts.forItems item body scope' vs')
      Pairing.RelatesFlow := by
  induction vs generalizing vs' ρ with
  | nil =>
      cases related
      exact .pure fun _ _ => .normal .unit
  | cons v rest ih =>
      cases related with
      | cons first others =>
          refine .bind (impartial.forBody item body places first) fun flow flow' σ more flows => ?_
          cases flows with
          | normal _ => exact ih (places.mono more) (others.imp fun _ _ => .mono more)
          | returned related => exact .pure fun τ more' => .returned (related.mono more')

theorem forRange (impartial : parts.Impartial globals) (item : Ident) (body : Block) (r : Range)
    (n i : Nat) (places : ρ.Places globals scope scope') :
    (parts.forRange item body scope r n i).Agree ρ (parts.forRange item body scope' r n i)
      Pairing.RelatesFlow := by
  induction n generalizing i ρ with
  | zero => exact .exhausted
  | succ n ih =>
      unfold Parts.forRange
      split
      · refine .bind (impartial.forBody item body places (.number _))
          fun flow flow' σ more flows => ?_
        cases flows with
        | normal _ => exact ih (i + 1) (places.mono more)
        | returned related => exact .pure fun τ more' => .returned (related.mono more')
      · exact .pure fun _ _ => .normal .unit

theorem for_ (impartial : parts.Impartial globals) (item : Ident) (iterable : Expr) (body : Block)
    (places : ρ.Places globals scope scope') :
    (parts.for_ item iterable body scope).Agree ρ (parts.for_ item iterable body scope')
      Pairing.RelatesFlow := by
  unfold Parts.for_
  split
  · refine .tick (.bind (impartial.range _ _ _ _ places) ?_)
    rintro r _ σ more rfl
    exact .rounds fun n => impartial.forRange item body r n 0 (places.mono more)
  · refine .bind (impartial.expr _ places) fun v v' σ more related => ?_
    refine .bind (.itemsOf related) fun vs vs' τ more' items => ?_
    exact impartial.forItems item body (places.mono (more.trans more')) items

theorem while_ (impartial : parts.Impartial globals) (condition : Expr) (body : Block) (n : Nat)
    (places : ρ.Places globals scope scope') :
    (parts.while_ condition body scope n).Agree ρ (parts.while_ condition body scope' n)
      Pairing.RelatesFlow := by
  induction n generalizing ρ with
  | zero => exact .exhausted
  | succ n ih =>
      refine .tick (.bind (impartial.bool condition places) ?_)
      rintro b _ σ more rfl
      cases b with
      | false => exact .pure fun _ _ => .normal .unit
      | true =>
          refine .bind (impartial.nested body (places.mono more)) fun flow flow' τ more' flows => ?_
          cases flows with
          | normal _ => exact ih (places.mono (more.trans more'))
          | returned related => exact .pure fun υ more'' => .returned (related.mono more'')

theorem rangeItems (r : Range) (n i : Nat) {acc acc' : Array Value}
    (related : List.Forall₂ ρ.Relates acc.toList acc'.toList) :
    (Parts.rangeItems r n i acc).Agree ρ (Parts.rangeItems r n i acc') fun σ xs ys =>
      List.Forall₂ σ.Relates xs.toList ys.toList := by
  induction n generalizing i acc acc' with
  | zero => exact .exhausted
  | succ n ih =>
      unfold Parts.rangeItems
      split
      · refine .tick (ih (i + 1) ?_)
        simpa using List.rel_append related (.cons (.number _) .nil)
      · exact .pure fun σ more => related.imp fun _ _ => .mono more

/-! ## Calls -/

theorem bindParams (impartial : parts.Impartial globals) (function : String)
    {captured captured' : ScopeId} (params : List Param) {slots slots' : List (Option Value)}
    (home : ρ.Places globals captured captured') (here : ρ .scope scope.index scope'.index)
    (related : List.Forall₂ (Option.Rel ρ.Relates) slots slots') :
    (parts.bindParams function captured scope params slots).Agree ρ
      (parts.bindParams function captured' scope' params slots') fun _ _ _ => True := by
  induction params generalizing slots slots' ρ with
  | nil => exact .pure fun _ _ => trivial
  | cons p params ih =>
      cases related with
      | nil => exact .pure fun _ _ => trivial
      | @cons slot slot' slots slots' first others =>
          have rest (v v' : Value) (σ : Pairing) (more : ρ ≤ σ) (value : σ.Relates v v') :
              Eval.Agree σ
                (do
                  Eval.define scope p.name.name v false
                  parts.bindParams function captured scope params slots)
                (do
                  Eval.define scope' p.name.name v' false
                  parts.bindParams function captured' scope' params slots')
                fun _ _ _ => True := by
            refine .bind (.define (more here) _ value _) fun _ _ τ more' _ => ?_
            have both := more.trans more'
            exact ih (home.mono both) (both here)
              (others.imp fun _ _ => optionRel_imp fun _ _ => .mono both)
          unfold Parts.bindParams
          cases first with
          | some value => exact rest _ _ ρ (le_refl ρ) value
          | none =>
              cases p.default with
              | some e => exact .bind (impartial.expr e home) rest
              | none => exact .bind (.throw _) rest

theorem invoke (impartial : parts.Impartial globals) (f : FunctionDef)
    {captured captured' : ScopeId} {slots slots' : List (Option Value)}
    (home : ρ.Places globals captured captured')
    (related : List.Forall₂ (Option.Rel ρ.Relates) slots slots') :
    (parts.invoke f captured slots).Agree ρ (parts.invoke f captured' slots') Pairing.Relates := by
  refine .inCall (.bind (.child home.here) fun scope scope' σ more inside => ?_)
  have slots_related : List.Forall₂ (Option.Rel σ.Relates) slots slots' :=
    related.imp fun _ _ => optionRel_imp fun _ _ => .mono more
  refine .bind (impartial.bindParams f.displayName f.params (home.mono more) inside slots_related)
    fun _ _ τ more' _ => ?_
  refine .bind (impartial.block f.body ⟨more.trans more' home.globals, more' inside⟩)
    fun flow flow' υ _ flows => .pure fun _ more'' => ?_
  exact flows.value.mono more''

theorem call (impartial : parts.Impartial globals) (f : FunctionDef) {captured captured' : ScopeId}
    {args args' : List Value} (home : ρ.Places globals captured captured')
    (related : List.Forall₂ ρ.Relates args args') :
    (parts.call f captured args).Agree ρ (parts.call f captured' args') Pairing.Relates := by
  unfold Parts.call
  rw [← related.length_eq]
  split
  · exact .throw _
  · refine impartial.invoke f home (List.rel_append (List.rel_map (fun _ _ => .some) related) ?_)
    exact List.forall₂_same.mpr fun slot mem => by
      rw [List.eq_of_mem_replicate mem]
      exact .none

theorem callNamed (impartial : parts.Impartial globals) (f : FunctionDef)
    {captured captured' : ScopeId} {bindings bindings' : List (String × Value)}
    (home : ρ.Places globals captured captured')
    (related : List.Forall₂ (fun x y => x.1 = y.1 ∧ ρ.Relates x.2 y.2) bindings bindings') :
    (parts.callNamed f captured bindings).Agree ρ (parts.callNamed f captured' bindings')
      Pairing.Relates := by
  -- Which names are unknown depends on the names alone.
  have same : bindings.map (·.1) = bindings'.map (·.1) := by
    rw [← List.forall₂_eq_eq_eq]
    exact List.rel_map (fun _ _ both => both.1) related
  have unknown (xs : List (String × Value)) :
      (xs.filter fun x => !f.params.any (·.name.name == x.1)).map (·.1) =
        (xs.map (·.1)).filter fun name => !f.params.any (·.name.name == name) := by
    rw [List.filter_map]
    rfl
  unfold Parts.callNamed
  dsimp only
  rw [unknown, unknown, same]
  split
  · exact .throw _
  · refine impartial.invoke f home ?_
    exact List.rel_map (R := Eq) (fun p _ same => same ▸ forall₂_lookup related p.name.name)
      (List.forall₂_same.mpr fun _ _ => rfl)

theorem apply (impartial : parts.Impartial globals) {callee callee' : Value}
    {args args' : List Value} (home : ρ .scope globals.index globals.index)
    (callees : ρ.Relates callee callee') (related : List.Forall₂ ρ.Relates args args') :
    (parts.apply callee args).Agree ρ (parts.apply callee' args') Pairing.Relates := by
  cases callees with
  | function definition _ paired => exact impartial.call definition ⟨home, paired⟩ related
  | _ => exact .throw _

end Impartial

end Parts

/-! ## Expressions and statements -/

namespace Context

variable {context : Context} {parts : Parts} {ρ : Pairing} {scope scope' : ScopeId}

theorem resolve?_agree (name : String) (places : ρ.Places context.globals scope scope') :
    (context.resolve? name scope).Agree ρ (context.resolve? name scope') fun σ =>
      Option.Rel σ.Relates := by
  have made (definition : FunctionDef) {σ : Pairing} {home home' : ScopeId}
      (paired : σ .scope home.index home'.index) :
      Eval.Agree σ (do return some (← Eval.newFunction definition home))
        (do return some (← Eval.newFunction definition home')) fun τ => Option.Rel τ.Relates :=
    .bind (.newFunction definition paired) fun _ _ _ _ related =>
      .pure fun _ more => .some (related.mono more)
  refine .bind (.meaning places.here name) fun found found' σ more meanings => ?_
  cases meanings with
  | some meaning =>
      cases meaning with
      | value related => exact .pure fun τ more' => .some (related.mono more')
      | function definition paired => exact made definition paired
  | none =>
      dsimp only
      cases context.program.bind (·.function? name) with
      | some definition => exact made definition (more places.globals)
      | none => exact .pure fun _ _ => .none

theorem binary_agree (impartial : parts.Impartial context.globals) (a : Expr) (op : BinaryOp)
    (b : Expr) (places : ρ.Places context.globals scope scope') :
    (binary parts a op b scope).Agree ρ (binary parts a op b scope') Pairing.Relates := by
  unfold binary
  split
  · refine .bind (impartial.bool a places) ?_
    rintro x _ σ more rfl
    cases x with
    | true =>
        refine .bind (impartial.bool b (places.mono more)) ?_
        rintro y _ τ - rfl
        exact .pure fun _ _ => .bool y
    | false => exact .pure fun _ _ => .bool false
  · refine .bind (impartial.bool a places) ?_
    rintro x _ σ more rfl
    cases x with
    | true => exact .pure fun _ _ => .bool true
    | false =>
        refine .bind (impartial.bool b (places.mono more)) ?_
        rintro y _ τ - rfl
        exact .pure fun _ _ => .bool y
  · refine .bind (impartial.expr a places) fun x x' σ more left => ?_
    refine .bind (impartial.expr b (places.mono more)) fun y y' τ more' right => ?_
    exact .binary (left.mono more') right _

section

variable (builtins : context.builtins.Impartial)

include builtins

theorem callBuiltin_agree (name : String) (otherwise : Unsupported) {args args' : List Value}
    (related : List.Forall₂ ρ.Relates args args') :
    (context.callBuiltin name otherwise args).Agree ρ (context.callBuiltin name otherwise args')
      Pairing.Relates := by
  unfold callBuiltin
  cases found : context.builtins.find? name with
  | some builtin => exact builtins.find? found related
  | none => exact .throw _

variable (impartial : parts.Impartial context.globals)

include impartial

theorem callByName_agree (name : String) (args : List Expr)
    (places : ρ.Places context.globals scope scope') :
    (context.callByName parts name args scope).Agree ρ (context.callByName parts name args scope')
      Pairing.Relates := by
  refine .bind (resolve?_agree name places) fun callee callee' σ more callees => ?_
  cases callees with
  | some callees =>
      refine .bind (impartial.args args (places.mono more)) fun vs vs' τ more' related => ?_
      exact impartial.apply (more.trans more' places.globals) (callees.mono more') related
  | none =>
      dsimp only
      cases found : context.builtins.find? name with
      | some builtin =>
          exact .bind (impartial.args args (places.mono more)) fun vs vs' τ _ related =>
            builtins.find? found related
      | none => exact .throw _

theorem expr_agree (e : Expr) (places : ρ.Places context.globals scope scope') :
    (context.expr parts e scope).Agree ρ (context.expr parts e scope') Pairing.Relates := by
  refine .tick ?_
  cases e with
  | number x _ => exact .pure fun _ _ => .number x
  | bool b _ => exact .pure fun _ _ => .bool b
  | list items _ =>
      exact .bind (impartial.args items places) fun vs vs' _ _ related =>
        .newList (by simpa using related)
  | map entries _ =>
      exact .bind (impartial.entries entries places .nil) fun _ _ _ _ related => .newMap related
  | range first last inclusive by_ _ =>
      refine .bind (impartial.range first last inclusive by_ places) ?_
      rintro r _ σ - rfl
      exact .rounds fun n => .bind (Parts.Impartial.rangeItems r n 0 .nil) fun _ _ _ _ related =>
        .newList related
  | name name _ =>
      refine .bind (resolve?_agree name places) fun found found' σ _ related => ?_
      cases related with
      | some related => exact .pure fun τ more => related.mono more
      | none => exact .throw _
  | call name args _ => exact callByName_agree builtins impartial name.name args places
  | apply callee args _ =>
      refine .bind (impartial.expr callee places) fun f f' σ more callees => ?_
      refine .bind (impartial.args args (places.mono more)) fun vs vs' τ more' related => ?_
      exact impartial.apply (more.trans more' places.globals) (callees.mono more') related
  | method receiver name args _ =>
      refine .bind (impartial.expr receiver places) fun v v' σ more first => ?_
      refine .bind (impartial.args args (places.mono more)) fun vs vs' τ more' related => ?_
      exact callBuiltin_agree builtins _ _ (.cons (first.mono more') related)
  | create type args _ =>
      exact .bind (impartial.args args places) fun vs vs' _ _ related =>
        callBuiltin_agree builtins _ _ related
  | index target key _ =>
      refine .bind (impartial.expr target places) fun t t' σ more targets => ?_
      refine .bind (impartial.expr key (places.mono more)) fun k k' τ more' keys => ?_
      exact .elementAt (targets.mono more') keys
  | update target key value _ =>
      refine .bind (impartial.expr target places) fun t t' σ more targets => ?_
      refine .bind (impartial.expr key (places.mono more)) fun k k' τ more' keys => ?_
      refine .bind (impartial.expr value (places.mono (more.trans more')))
        fun v v' υ more'' values => ?_
      refine .bind (.setElement (targets.mono (more'.trans more'')) (keys.mono more'') values)
        fun _ _ _ later _ => .pure fun _ later' => ?_
      exact values.mono (later.trans later')
  | binary a op b _ => exact binary_agree impartial a op b places
  | unary op operand _ =>
      exact .bind (impartial.expr operand places) fun _ _ _ _ related => .unary related op
  | conditional condition yes no _ =>
      refine .bind (impartial.conditional condition yes no places) fun flow flow' σ _ flows => ?_
      cases flows with
      | normal related => exact .pure fun τ more => related.mono more
      | returned _ => exact .throw _
  | function definition => exact .newFunction definition places.here

omit builtins in
theorem stmt_agree (s : Stmt) (places : ρ.Places context.globals scope scope') :
    (stmt parts s scope).Agree ρ (stmt parts s scope') Pairing.RelatesFlow := by
  have ends {σ : Pairing} : Eval.Agree σ (pure (Flow.normal .unit)) (pure (Flow.normal .unit))
      Pairing.RelatesFlow := .pure fun _ _ => .normal .unit
  refine .tick ?_
  split
  · exact .bind (impartial.define _ places) fun _ _ _ _ _ => ends
  · exact .bind (.defineFunction places.here _) fun _ _ _ _ _ => ends
  · refine .bind (impartial.expr _ places) fun v v' σ more related => ?_
    exact .bind (.assign (more places.here) _ related) fun _ _ _ _ _ => ends
  · exact .tick (impartial.conditional _ _ _ places)
  · exact .bind (impartial.expr _ places) fun v v' σ _ related =>
      .pure fun τ more => .normal (related.mono more)
  · exact .bind (impartial.expr _ places) fun v v' σ _ related =>
      .pure fun τ more => .returned (related.mono more)
  · exact impartial.for_ _ _ _ places
  · exact .rounds fun n => impartial.while_ _ _ n places

end

/-! ## Whole programs -/

/-- Expressions and statements have the same outcome, however many levels there are. -/
theorem parts_impartial (builtins : context.builtins.Impartial) (n : Nat) :
    (context.parts n).Impartial context.globals := by
  induction n with
  | zero => exact ⟨fun _ _ _ _ => .exhausted, fun _ _ _ _ => .exhausted⟩
  | succ n ih => exact ⟨fun e _ => expr_agree builtins ih e, fun s _ => stmt_agree ih s⟩

theorem withParts_agree (builtins : context.builtins.Impartial) {α α' : Type}
    {run : Parts → Eval α} {run' : Parts → Eval α'} {expected : Pairing → α → α' → Prop}
    (agree : ∀ parts : Parts, parts.Impartial context.globals →
      (run parts).Agree ρ (run' parts) expected) :
    (context.withParts run).Agree ρ (context.withParts run') expected :=
  .rounds fun n => agree _ (parts_impartial builtins n)

theorem defineGlobals_agree (builtins : context.builtins.Impartial)
    (home : ρ .scope context.globals.index context.globals.index) :
    context.defineGlobals.Agree ρ context.defineGlobals fun _ _ _ => True := by
  have all (definitions : List VarDef) (σ : Pairing)
      (home : σ .scope context.globals.index context.globals.index) :
      (context.defineAll definitions).Agree σ (context.defineAll definitions)
        fun _ _ _ => True := by
    induction definitions generalizing σ with
    | nil => exact .pure fun _ _ => trivial
    | cons definition rest ih =>
        refine .bind (withParts_agree builtins fun parts impartial =>
          impartial.define definition ⟨home, home⟩) fun _ _ τ more _ => ?_
        exact ih τ (more home)
  unfold defineGlobals
  split
  · exact all _ ρ home
  · exact .pure fun _ _ => trivial

end Context

end Formwork
