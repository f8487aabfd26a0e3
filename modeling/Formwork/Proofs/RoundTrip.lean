import Formwork.Proofs.Readable
import Formwork.Proofs.Remembering

/-!
# Programs are read as they were written

`Reading.ofSource_render`: a legal program, written out in full and read again, is the same program
up to spans, without diagnostics, if the nesting limit allows for its deepest token and there is
room for a diagnostic. Each definition in turn is read by the rule it was written for; the invariant
`Progress.Holds` says which definitions have been read so far.
-/

namespace Formwork

/-! ## The machine on written tokens -/

section Machine

variable {settings : Settings} {fuel depth : Nat} {r : Rule} {tokens rest : List Token}
  {p : Position} {s : State}

/-- A position at written tokens, with fuel and rounds enough for the machine. -/
structure Position.Ready (settings : Settings) (fuel : Nat) (tokens : List Token) (p : Position) :
    Prop where
  rest_eq : p.rest = written tokens
  writable : AllWritable tokens
  near : p.rest.length < settings.repeats
  enough : Rule.all.length * p.rest.length + Rule.all.length ≤ fuel

namespace Position.Ready

theorem holds (ready : p.Ready settings fuel tokens) : Scene.Holds ⟨tokens, []⟩ .empty p :=
  ⟨ready.rest_eq, ready.writable, rfl, rfl⟩

theorem unbroken (ready : p.Ready settings fuel tokens) (r : Rule) (s : State) :
    (Rule.run settings fuel r).attempt s p ≠ .broken := by
  have rank_lt := r.rank_lt
  have enough := ready.enough
  simpa using Rule.run_ne_broken r s ready.near (by omega)

/-- What a rule gives, an attempt of the machine leaves on top of the operands. -/
theorem matched (ready : p.Ready settings fuel tokens) {o : Operand}
    (gives : r.Gives depth tokens [o] rest) (deep : depth ≤ settings.maxNesting)
    (justified : s.Justified p) (bottom : s.depth = 0) :
    ∃ q t o', (Rule.run settings fuel r).attempt s p = .matched q t ∧
      q.rest = written rest ∧ t.operands.pop? = some (o', s.operands) ∧ o'.bare = o ∧
      t.pending = s.pending ∧ t.depth = 0 := by
  have positive : 0 < settings.repeats := Nat.zero_lt_of_lt ready.near
  have passes : (Phrase.rule r).Passes depth ⟨tokens, []⟩ ⟨rest, [] ++ [o]⟩ := .rule gives
  obtain ⟨y, q, l, reads, holds, reach⟩ := passes _ _ _ (Or.inr r.rank.lt_succ_self) ready.holds
  have follows : (Rule.run settings fuel r).Follows p settings.maxNesting s p .empty p
      (.matched y q) l := reads.follows positive (Or.inl rfl) rfl fuel s (.refl p)
  obtain ⟨t, outcome, stands, passed⟩ := (follows.attempt s (.refl s p) justified
    (by omega)).matched.resolve_right (ready.unbroken r s)
  obtain ⟨o', operands_eq, bare_eq⟩ : ∃ o', y.operands = [o'] ∧ o'.bare = o :=
    List.map_eq_singleton_iff.mp holds.operands
  refine ⟨q, t, o', outcome, holds.rest, Reading.pop?_of_items ?_, bare_eq, ?_, ?_⟩
  · rw [stands.operands, operands_eq]
    rfl
  · rw [stands.pending, holds.sound, List.append_nil]
  · rw [passed.depth_eq, bottom]

/-- Where a rule fails, an attempt of the machine leaves everything in place. -/
theorem missed (ready : p.Ready settings fuel tokens)
    (fails : (Phrase.rule r).Fails ⟨tokens, []⟩) (justified : s.Justified p)
    (bottom : s.depth = 0) :
    ∃ t, (Rule.run settings fuel r).attempt s p = .missed t ∧ t.Justified p ∧
      t.pending = s.pending ∧ t.depth = 0 := by
  have positive : 0 < settings.repeats := Nat.zero_lt_of_lt ready.near
  obtain ⟨pending, l, reads, reach⟩ := fails _ _ _ (Or.inr r.rank.lt_succ_self) ready.holds
  have follows : (Rule.run settings fuel r).Follows p settings.maxNesting s p .empty p
      (.missed pending) l := reads.follows positive (Or.inl rfl) rfl fuel s (.refl p)
  obtain ⟨t, outcome, pending_eq, passed⟩ := (follows.retreat (.refl s p) justified (by omega)
    List.nil_prefix).resolve_right (ready.unbroken r s)
  exact ⟨t, outcome, passed.justified, pending_eq, passed.depth_eq.trans bottom⟩

/-- There is fuel enough for what comes later. -/
theorem next {q : Position} (ready : p.Ready settings fuel (tokens ++ rest))
    (rest_eq : q.rest = written rest) : q.Ready settings fuel rest := by
  obtain ⟨text_eq, writable, near, enough⟩ := ready
  have shorter : q.rest.length ≤ p.rest.length := by
    rw [text_eq, rest_eq, written, written, List.flatMap_append, List.length_append]
    exact Nat.le_add_left ..
  have less := Nat.mul_le_mul_left Rule.all.length shorter
  exact ⟨rest_eq, (allWritable_append.mp writable).2, by omega, by omega⟩

end Position.Ready

end Machine

theorem VarDef.tokens_ne_nil {literal : Float → Span → Literal} (d : VarDef) :
    d.tokens literal ≠ [] := by
  cases d
  simp [VarDef.tokens]

theorem FunctionDef.tokens_ne_nil {literal : Float → Span → Literal} (f : FunctionDef) :
    f.tokens literal ≠ [] := by
  cases f
  simp [FunctionDef.tokens]

namespace Reading

/-! ## One definition -/

/-- Nothing was wrong so far, and the definitions read so far are known up to spans. -/
structure Progress.Holds (maxErrors : Nat) (globals : List VarDef) (functions : List FunctionDef)
    (progress : Progress) : Prop where
  globals : progress.globals.map VarDef.bare = globals
  functions : progress.functions.map FunctionDef.bare = functions
  diagnostics : progress.diagnostics = .empty maxErrors
  depth : progress.state.depth = 0

section Step

variable {literal : Float → Span → Literal} {settings : Settings} {fuel maxErrors : Nat}
  {tokens : List Token} {p : Position} {gs : List VarDef} {fs : List FunctionDef}
  {progress : Progress} (source : Source)

/-- A definition without malformed numbers leaves the diagnostics alone. -/
theorem Progress.Holds.commit (holds : progress.Holds maxErrors gs fs) {s : State}
    (none_pending : s.pending = []) (bottom : s.depth = 0) (operands : Stack) :
    (progress.commit source s operands).Holds maxErrors gs fs where
  globals := holds.globals
  functions := holds.functions
  diagnostics := by
    rw [Progress.commit, none_pending]
    exact holds.diagnostics
  depth := bottom

theorem Progress.Holds.isFull_eq (holds : progress.Holds maxErrors gs fs) (room : 1 ≤ maxErrors) :
    progress.diagnostics.isFull = false := by
  rw [holds.diagnostics]
  simpa [Diagnostics.isFull, Diagnostics.empty] using Nat.one_le_iff_ne_zero.mp room

/-- A global definition is read where its rule gives it. -/
theorem definitionStep_of_gives {d : VarDef} {ahead : List Token} {depth : Nat}
    (gives : Rule.varDef.Gives depth ahead [.varDef d.bare] tokens)
    (ready : p.Ready settings fuel ahead) (deep : depth ≤ settings.maxNesting)
    (holds : progress.Holds maxErrors gs []) :
    ∃ q after, definitionStep source settings fuel p progress = .next q after ∧
      q.rest = written tokens ∧ after.Holds maxErrors (d.bare :: gs) [] := by
  have no_functions : progress.functions.isEmpty = true :=
    List.isEmpty_iff.mpr (List.map_eq_nil_iff.mp holds.functions)
  obtain ⟨q, t, o, outcome, rest_eq, popped, bare_eq, pending_eq, bottom⟩ :=
    ready.matched gives deep (State.Sane.restart progress.state p).justified holds.depth
  obtain ⟨d', rfl, bare_eq'⟩ : ∃ d', o = .varDef d' ∧ d'.bare = d.bare := by
    cases o with
    | varDef d' => exact ⟨d', rfl, Operand.varDef.inj bare_eq⟩
    | _ => simp [Operand.bare] at bare_eq
  have committed := holds.commit source pending_eq bottom progress.state.operands
  refine ⟨q, _, definitionStep_eq_next_iff.mpr (.global no_functions outcome popped), rest_eq,
    { committed with globals := ?_ }⟩
  rw [List.map_cons, bare_eq', holds.globals]

/-- A global definition is read where it is written. -/
theorem definitionStep_global {d : VarDef} (legal : d.Legal literal)
    (ready : p.Ready settings fuel (d.tokens literal ++ tokens))
    (closing : closes tokens.head? = true) (deep : d.depth ≤ settings.maxNesting)
    (holds : progress.Holds maxErrors gs []) :
    ∃ q after, definitionStep source settings fuel p progress = .next q after ∧
      q.rest = written tokens ∧ after.Holds maxErrors (d.bare :: gs) [] :=
  definitionStep_of_gives source (VarDef.gives legal.readable closing) ready deep holds

/-- Where a function is written, it is tried in a state without errors. -/
theorem exists_triesFunction {f : FunctionDef} (named : f.name.isSome = true)
    (ready : p.Ready settings fuel (f.tokens literal ++ tokens))
    (holds : progress.Holds maxErrors gs fs) :
    ∃ s, TriesFunction settings fuel p progress.functions (progress.state.restart p) s ∧
      s.Justified p ∧ s.pending = [] ∧ s.depth = 0 := by
  have justified := (State.Sane.restart progress.state p).justified
  cases no_functions : progress.functions.isEmpty with
  | false => exact ⟨_, .first no_functions, justified, rfl, holds.depth⟩
  | true =>
      obtain ⟨s, missed, justified', pending_eq, bottom⟩ :=
        ready.missed (f.varDef_fails named) justified holds.depth
      exact ⟨s, .second no_functions missed, justified', pending_eq, bottom⟩

/-- A function is read where it is written, though a global definition is tried first. -/
theorem definitionStep_function {f : FunctionDef} (named : f.name.isSome = true)
    (legal : f.Legal literal) (ready : p.Ready settings fuel (f.tokens literal ++ tokens))
    (deep : f.depth ≤ settings.maxNesting) (holds : progress.Holds maxErrors gs fs) :
    ∃ q after, definitionStep source settings fuel p progress = .next q after ∧
      q.rest = written tokens ∧ after.Holds maxErrors gs (f.bare :: fs) := by
  obtain ⟨s, tried, justified, none_pending, bottom⟩ := exists_triesFunction named ready holds
  obtain ⟨q, t, o, outcome, rest_eq, popped, bare_eq, pending_eq, bottom'⟩ :=
    ready.matched (legal.readable.named named) deep justified bottom
  obtain ⟨f', rfl, bare_eq'⟩ : ∃ f', o = .function f' ∧ f'.bare = f.bare := by
    cases o with
    | function f' => exact ⟨f', rfl, Operand.function.inj bare_eq⟩
    | _ => simp [Operand.bare] at bare_eq
  have committed := holds.commit source (pending_eq.trans none_pending) bottom' s.operands
  refine ⟨q, _, definitionStep_eq_next_iff.mpr (.function tried outcome popped), rest_eq,
    { committed with functions := ?_ }⟩
  rw [List.map_cons, bare_eq', holds.functions]

/-- Where something is written and nothing was wrong, reading takes one more step. -/
theorem definitions_succ {rest : List Token} {start : Cursor} {steps : Nat} {q : Position}
    {after : Progress} (ready : p.Ready settings fuel (tokens ++ rest)) (some_token : tokens ≠ [])
    (holds : progress.Holds maxErrors gs fs) (room : 1 ≤ maxErrors)
    (next : definitionStep source settings fuel p progress = .next q after) :
    definitions source settings fuel start (steps + 1) p progress =
      definitions source settings fuel start steps q after := by
  have more : p.isEnd = false := by
    obtain ⟨t, ts, rfl⟩ := List.exists_cons_of_ne_nil some_token
    rw [Position.isEnd, ready.rest_eq, List.cons_append, written_cons]
    simp
  simp [definitions, holds.isFull_eq room, more, next]

end Step

/-! ## All definitions -/

/-- Whatever definitions come next, an expression in parentheses before them is whole. -/
theorem closes_definitions (literal : Float → Span → Literal) (globals : List VarDef)
    (functions : List FunctionDef) :
    closes (globals.flatMap (VarDef.tokens literal) ++
      functions.flatMap (FunctionDef.tokens literal)).head? = true := by
  cases globals with
  | nil =>
      cases functions with
      | nil => rfl
      | cons f functions =>
          obtain ⟨name, result, params, body, span⟩ := f
          rfl
  | cons d globals =>
      obtain ⟨type, name, value, constant, span⟩ := d
      cases constant with
      | true => rfl
      | false =>
          change closes (some type.token) = true
          unfold TypeRef.token
          split <;> rfl

section All

variable {literal : Float → Span → Literal} {settings : Settings} {fuel maxErrors steps : Nat}
  {start : Cursor} {p : Position} {gs : List VarDef} {fs : List FunctionDef}
  {progress : Progress} {reading : Reading} (source : Source)

/-- The functions of a program are read one after the other. -/
theorem definitions_functions {functions : List FunctionDef}
    (legal : ∀ f ∈ functions, f.name.isSome = true ∧ f.Legal literal)
    (deep : ∀ f ∈ functions, f.depth ≤ settings.maxNesting) (room : 1 ≤ maxErrors)
    (ready : p.Ready settings fuel (functions.flatMap (FunctionDef.tokens literal)))
    (holds : progress.Holds maxErrors gs fs)
    (read : definitions source settings fuel start steps p progress = some reading) :
    ∃ again : Program, reading = ⟨some again, .empty maxErrors⟩ ∧
      again.globals.map VarDef.bare = gs.reverse ∧
      again.functions.map FunctionDef.bare = fs.reverse ++ functions.map FunctionDef.bare := by
  induction functions generalizing steps p progress fs with
  | nil =>
      have ends : p.isEnd = true := by
        rw [Position.isEnd, ready.rest_eq]
        rfl
      cases steps with
      | zero => simp [definitions] at read
      | succ steps =>
          simp only [definitions, holds.isFull_eq room, ends] at read
          obtain rfl := Option.some.inj read
          refine ⟨_, by rw [holds.diagnostics], ?_, ?_⟩
          · simp [← holds.globals]
          · simp [← holds.functions]
  | cons f functions ih =>
      obtain ⟨⟨named, f_legal⟩, legal'⟩ := List.forall_mem_cons.mp legal
      obtain ⟨f_deep, deep'⟩ := List.forall_mem_cons.mp deep
      rw [List.flatMap_cons] at ready
      obtain ⟨q, after, next, rest_eq, holds'⟩ :=
        definitionStep_function source named f_legal ready f_deep holds
      cases steps with
      | zero => simp [definitions] at read
      | succ steps =>
          rw [definitions_succ source ready f.tokens_ne_nil holds room next] at read
          obtain ⟨again, rfl, globals_eq, functions_eq⟩ :=
            ih legal' deep' (ready.next rest_eq) holds' read
          exact ⟨again, rfl, globals_eq, by simpa using functions_eq⟩

/-- The global definitions of a program are read one after the other, then its functions. -/
theorem definitions_globals {globals : List VarDef} {functions : List FunctionDef}
    (legal : ∀ d ∈ globals, d.Legal literal) (deep : ∀ d ∈ globals, d.depth ≤ settings.maxNesting)
    (legal_functions : ∀ f ∈ functions, f.name.isSome = true ∧ f.Legal literal)
    (deep_functions : ∀ f ∈ functions, f.depth ≤ settings.maxNesting) (room : 1 ≤ maxErrors)
    (ready : p.Ready settings fuel (globals.flatMap (VarDef.tokens literal) ++
      functions.flatMap (FunctionDef.tokens literal)))
    (holds : progress.Holds maxErrors gs [])
    (read : definitions source settings fuel start steps p progress = some reading) :
    ∃ again : Program, reading = ⟨some again, .empty maxErrors⟩ ∧
      again.globals.map VarDef.bare = gs.reverse ++ globals.map VarDef.bare ∧
      again.functions.map FunctionDef.bare = functions.map FunctionDef.bare := by
  induction globals generalizing steps p progress gs with
  | nil =>
      rw [List.map_nil, List.append_nil]
      exact definitions_functions source legal_functions deep_functions room ready holds read
  | cons d globals ih =>
      obtain ⟨d_legal, legal'⟩ := List.forall_mem_cons.mp legal
      obtain ⟨d_deep, deep'⟩ := List.forall_mem_cons.mp deep
      rw [List.flatMap_cons, List.append_assoc] at ready
      obtain ⟨q, after, next, rest_eq, holds'⟩ :=
        definitionStep_global source d_legal ready (closes_definitions ..) d_deep holds
      cases steps with
      | zero => simp [definitions] at read
      | succ steps =>
          rw [definitions_succ source ready d.tokens_ne_nil holds room next] at read
          obtain ⟨again, rfl, globals_eq, functions_eq⟩ :=
            ih legal' deep' (ready.next rest_eq) holds' read
          exact ⟨again, rfl, by simpa using globals_eq, functions_eq⟩

end All

/--
A legal program that is written out and read again is the same program up to spans, and nothing is
found wrong.
-/
theorem ofSource_render (literal : Float → Span → Literal) (name : String) (limits : Limits)
    {program : Program} (legal : program.Legal literal) (room : 1 ≤ limits.maxErrors)
    (deep : program.nesting ≤ limits.maxNesting) :
    ∃ again, ofSource limits ⟨name, program.render literal⟩ =
        ⟨some again, .empty limits.maxErrors⟩ ∧ again.bare = program.bare := by
  obtain ⟨reading, read⟩ := Option.isSome_iff_exists.mp
    (run?_isSome true limits ⟨name, program.render literal⟩)
  rw [ofSource, read, Option.getD_some]
  have text_eq : (Position.ofText (program.render literal)).rest =
      written (program.tokens literal) := String.toList_ofList
  have starts : (Position.ofText (program.render literal)).skipGap.rest =
      written (program.tokens literal) := by
    rw [Position.skipGap, text_eq]
    exact Gap.rest_skipFrom legal.writable _
  have ready : (Position.ofText (program.render literal)).skipGap.Ready
      ⟨limits.maxNesting, (Position.ofText (program.render literal)).rest.length + 1, true⟩
      (fuelFor (Position.ofText (program.render literal)).rest.length)
      (program.tokens literal) := by
    refine ⟨starts, legal.writable, ?_, ?_⟩
    · simp [starts, text_eq]
    · rw [starts, text_eq, fuelFor, Nat.mul_add]
      omega
  obtain ⟨again, rfl, globals_eq, functions_eq⟩ := definitions_globals _ legal.1
    (fun d member => (program.depth_le_nesting_of_global member).trans deep) legal.2
    (fun f member => (program.depth_le_nesting_of_function member).trans deep) room ready
    ⟨rfl, rfl, rfl, rfl⟩ read
  refine ⟨again, rfl, ?_⟩
  rw [Program.bare, Program.bare, globals_eq, functions_eq]
  rfl

/-- A constant and a function with a default, a loop, an update, a range and a nameless function. -/
def sample : Program :=
  ⟨[⟨⟨"num", default⟩, ⟨"a", default⟩,
      .binary (.number (Literal.value ⟨true, ['2'], []⟩) default) .pow
        (.unary .neg (.name "b" default) default) default, true, default⟩],
    [⟨some ⟨"f", default⟩, ⟨"fun", default⟩,
      [⟨⟨"num", default⟩, ⟨"x", default⟩,
        some (.map [(.name "a" default, .list [] default)] default), default⟩],
      ⟨[.while_ (.bool true default)
          ⟨[.expr (.update (.name "x" default) (.name "a" default)
            (.range (.name "a" default) (.name "b" default) true (some (.bool false default))
              default) default)], default⟩ default,
        .return_ (.conditional (.name "x" default) ⟨[], default⟩
          (some ⟨[.expr (.function ⟨none, ⟨"fun", default⟩, [], ⟨[], default⟩, default⟩)], default⟩)
          default) default], default⟩, default⟩], default⟩

theorem ofSource_render_sample :
    sample.Legal (fun _ _ => ⟨true, ['2'], []⟩) ∧ sample.nesting = 8 ∧
      ∃ again, ofSource ⟨1, 8⟩ ⟨"s", sample.render fun _ _ => ⟨true, ['2'], []⟩⟩ =
        ⟨some again, .empty 1⟩ ∧ again.bare = sample.bare := by
  have legal : sample.Legal (fun _ _ => ⟨true, ['2'], []⟩) := by
    simp [sample, Program.Legal, VarDef.Legal, FunctionDef.Legal, paramsLegal, optionLegal,
      Block.Legal, stmtsLegal, Stmt.Legal, Expr.Legal, entriesLegal, itemsLegal, elseLegal,
      TypeRef.Legal, Ident.Legal, Literal.WellFormed]
    decide
  have deep : sample.nesting = 8 := by decide
  exact ⟨legal, deep, ofSource_render _ "s" ⟨1, 8⟩ legal le_rfl deep.le⟩

end Reading

end Formwork
