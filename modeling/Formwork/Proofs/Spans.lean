import Formwork.Proofs.Advance
import Formwork.Proofs.Rows

/-!
# Spans are exact and nested

`Reading.nodes_wellPlaced`: every node of a program that is read, with diagnostics or without,
stands where its span says. A span starts no later than it ends, the parts of a node lie inside its
span, one after another without overlap, and the characters that the span of a name, a type, a truth
value or a number covers are the token it was read from.

The definitions of a program are a row in the text up to the place where reading stands, and each
definition that is read makes the row longer.
-/

namespace Formwork

open Node (Row)

namespace Reading

section Step

variable {source : Source} {settings : Settings} {fuel : Nat} {p q : Position}
  {progress after : Progress}

/-- What a rule leaves on the stack is a row between the place where it started and the next. -/
theorem row_of_attempt {r : Rule} {s t : State} (positive : 0 < settings.repeats)
    (ahead : (Position.ofText source.text).LeadsTo p)
    (matched : (Rule.run settings fuel r).attempt s p = .matched q t) :
    ∃ z : Yield, r.Yields z.tokens z.operands ∧
      Row source.text.toList p.cursor.lineCol q.cursor.lineCol z.nodes ∧
        t.operands.items = z.operands.reverse ++ s.operands.items := by
  have sound : Reader.Sound (Rule.Laid source.text) (.rule r) s p (Rule.run settings fuel r) :=
    Reader.Sound.rule (Rule.run_sound (Rule.laid_of_takes source.text) positive fuel r)
  have inner := sound.attempt .empty s p (.refl s p)
  rw [matched] at inner
  obtain ⟨_, ⟨z, ⟨meets, laid⟩, rfl⟩, stands⟩ := inner
  have row : z.IsRow source.text p := laid p q ahead stands.spelled
  exact ⟨z, meets, row.mono (Yield.stop_le stands.spelled ahead.col_pos), stands.operands⟩

/-- A definition adds nothing, or one node behind all before. -/
inductive Added (source : Source) (p q : Position) (progress after : Progress) : Prop where
  | nothing : after.globals = progress.globals → after.functions = progress.functions →
      Added source p q progress after
  | global (d : VarDef) : progress.functions = [] → after.globals = d :: progress.globals →
      after.functions = [] →
      Row source.text.toList p.cursor.lineCol q.cursor.lineCol [.varDef d] →
      Added source p q progress after
  | function (f : FunctionDef) : after.globals = progress.globals →
      after.functions = f :: progress.functions →
      Row source.text.toList p.cursor.lineCol q.cursor.lineCol [.function f] →
      Added source p q progress after

theorem StepsTo.added (steps : StepsTo source settings fuel p progress q after)
    (positive : 0 < settings.repeats) (ahead : (Position.ofText source.text).LeadsTo p) :
    Added source p q progress after := by
  cases steps with
  | global no_functions matched popped =>
      have no_functions := List.isEmpty_iff.mp no_functions
      obtain ⟨z, ⟨-, d, operands_eq, -⟩, row, items_eq⟩ := row_of_attempt positive ahead matched
      rw [operands_eq] at items_eq
      obtain ⟨⟨⟩, -⟩ := eq_of_pop? items_eq popped
      rw [Yield.nodes, operands_eq] at row
      exact .global _ no_functions rfl no_functions row
  | function tried matched popped =>
      obtain ⟨z, ⟨-, f, operands_eq, -⟩, row, items_eq⟩ := row_of_attempt positive ahead matched
      rw [operands_eq] at items_eq
      obtain ⟨⟨⟩, -⟩ := eq_of_pop? items_eq popped
      rw [Yield.nodes, operands_eq] at row
      exact .function _ rfl rfl row
  | failed => exact .nothing rfl rfl

end Step

/-- The definitions read so far, in order. -/
def Progress.nodes (progress : Progress) : List Node :=
  progress.globals.reverse.map .varDef ++ progress.functions.reverse.map .function

/-- What is added stands behind what was there. -/
theorem Added.row {source : Source} {start p q : Position} {progress after : Progress}
    (added : Added source p q progress after) (forward : start.LeadsTo p) (onward : p.LeadsTo q)
    (row : Row source.text.toList start.cursor.lineCol p.cursor.lineCol progress.nodes) :
    Row source.text.toList start.cursor.lineCol q.cursor.lineCol after.nodes := by
  cases added with
  | nothing globals_eq functions_eq =>
      rw [Progress.nodes, globals_eq, functions_eq]
      exact row.mono onward.lineCol_le
  | global d none_before globals_eq functions_eq row' =>
      have nodes_eq : after.nodes = progress.nodes ++ [.varDef d] := by
        simp [Progress.nodes, globals_eq, functions_eq, none_before]
      rw [nodes_eq]
      exact row.append row' forward.lineCol_le le_rfl onward.lineCol_le
  | function f globals_eq functions_eq row' =>
      have nodes_eq : after.nodes = progress.nodes ++ [.function f] := by
        simp [Progress.nodes, globals_eq, functions_eq]
      rw [nodes_eq]
      exact row.append row' forward.lineCol_le le_rfl onward.lineCol_le

/-- A row of definitions from the start of a program to its end makes a program. -/
theorem placed_program {text : List Char} {start p : Position} {globals : List VarDef}
    {functions : List FunctionDef} (ahead : start.LeadsTo p)
    (row : Row text start.cursor.lineCol p.cursor.lineCol
      (globals.map .varDef ++ functions.map .function)) :
    (Node.program ⟨globals, functions, start.cursor.spanTo p.cursor⟩).Placed text := by
  have ordered : (start.cursor.spanTo p.cursor).first ≤ (start.cursor.spanTo p.cursor).last := by
    rw [Cursor.first_spanTo]
    by_cases empty : p.cursor.offset ≤ start.cursor.offset
    · rw [Cursor.spanTo, if_pos empty]
      exact le_rfl
    · refine Cursor.le_last_spanTo (by omega) ?_
      rcases ahead.eq_or_length_lt with rfl | shorter
      · exact absurd le_rfl empty
      · exact ahead.lineCol_lt shorter
  refine Node.placed_iff.mpr ⟨⟨ordered, fun part member => ?_, row.apart, ?_⟩, row.placed⟩
  · have bounds := row.inside part member
    have inner := (row.placed part member _ .refl).ordered
    have nonempty : start.cursor.lineCol < p.cursor.lineCol :=
      (bounds.1.trans inner).trans_lt bounds.2
    have forward : start.cursor.offset < p.cursor.offset := by
      rcases ahead.eq_or_length_lt with rfl | shorter
      · exact absurd nonempty (lt_irrefl _)
      · exact ahead.offset_lt shorter
    simp only [Node.span, Cursor.first_spanTo]
    exact ⟨bounds.1, Cursor.le_last_spanTo forward bounds.2⟩
  · simp [Node.isLeaf]

/-- All definitions together are a row, and the program they make is well placed. -/
theorem definitions_placed {source : Source} {settings : Settings} {fuel steps : Nat}
    {start p : Position} {progress : Progress} {reading : Reading} {program : Program}
    (repeats : p.rest.length < settings.repeats)
    (enough : Rule.all.length * p.rest.length + Rule.all.length ≤ fuel)
    (from_text : (Position.ofText source.text).LeadsTo p) (ahead : start.LeadsTo p)
    (row : Row source.text.toList start.cursor.lineCol p.cursor.lineCol progress.nodes)
    (read : definitions source settings fuel start.cursor steps p progress = some reading)
    (complete : reading.program = some program) :
    (Node.program program).Placed source.text.toList := by
  induction steps generalizing p progress with
  | zero => simp [definitions] at read
  | succ steps ih =>
      unfold definitions at read
      split at read
      · obtain rfl := Option.some.inj read
        exact absurd complete (by simp)
      · split at read
        · obtain rfl := Option.some.inj read
          obtain rfl := Option.some.inj complete
          exact placed_program ahead row
        · rename_i more
          have more : p.isEnd = false := Bool.not_eq_true _ ▸ more
          obtain ⟨q, after, next, stepped⟩ := definitionStep_spec source progress repeats enough
          have added :=
            (definitionStep_eq_next_iff.mp next).added (Nat.zero_lt_of_lt repeats) from_text
          have onward := stepped.leadsTo
          have shorter := stepped.length_lt more
          have less := Nat.mul_le_mul_left Rule.all.length shorter.le
          simp only [next] at read
          exact ih (by omega) (by omega) (from_text.trans onward) (ahead.trans onward)
            (added.row ahead onward row) read

/--
Spans are exact and nested. In every program that is read, under whatever limits and whatever was
wrong with the source, every node stands where its span says: the span starts no later than it ends,
the parts of the node lie inside it, in the order in which they are written and without overlap, and
a name, type, truth value or number covers exactly the characters of the token it was read from.
-/
theorem nodes_wellPlaced (limits : Limits) (source : Source) {program : Program}
    (read : (ofSource limits source).program = some program) {node : Node}
    (held : (Node.program program).Holds node) : node.WellPlaced source.text.toList := by
  obtain ⟨reading, run⟩ := Option.isSome_iff_exists.mp (run?_isSome true limits source)
  have ahead := Position.leadsTo_skipGap (.ofText source.text)
  obtain ⟨repeats, enough⟩ := enough_ahead ahead
  simp only [ofSource, run, Option.getD_some] at read
  exact definitions_placed repeats enough ahead (.refl _) Row.nil run read node held

/-- A sum over two lines, in brackets that do not belong to it, before something that is wrong. -/
theorem nodes_wellPlaced_sum :
    ∃ program d,
      (ofSource {} ⟨"t", "a b = (c +\n 1x) ] fun e f() = g"⟩).program = some program ∧
        d ∈ program.globals ∧ d.value.span = ⟨1, 8, 2, 3⟩ ∧
          (Node.expr d.value).WellPlaced "a b = (c +\n 1x) ] fun e f() = g".toList := by
  have spans : (ofSource {} ⟨"t", "a b = (c +\n 1x) ] fun e f() = g"⟩).program.map
      (fun program => program.globals.map (·.value.span)) = some [⟨1, 8, 2, 3⟩] := by
    decide +kernel
  obtain ⟨program, read, globals_eq⟩ := Option.map_eq_some_iff.mp spans
  obtain ⟨d, others, globals_eq, span_eq, -⟩ := List.map_eq_cons_iff.mp globals_eq
  have member : d ∈ program.globals := by simp [globals_eq]
  have held : (Node.program program).Holds (.expr d.value) :=
    .tail (.single (List.mem_append_left _ (List.mem_map_of_mem member))) (by simp [Node.parts])
  exact ⟨program, d, read, member, span_eq, nodes_wellPlaced {} _ read held⟩

end Reading

end Formwork
