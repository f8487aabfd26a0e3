import Formwork.Proofs.Correspondence
import Formwork.Proofs.Cutoff
import Formwork.Proofs.Numerals

/-!
# Malformed numbers are reported

`Reading.malformed_reported`: in a program that is read, a number whose text is no numeral counts as
zero, and a diagnostic lies inside it. Unless something was nested too deep, the diagnostics of
malformed numbers that lie inside definitions are, one for one and in order, those of the numbers
that are malformed.

A definition that is read reports exactly its own malformed numbers. One that is given up reports
the numbers met on the way, which lie before the place where reading goes on, so inside no
definition.
-/

namespace Formwork

/-- Whether a diagnostic is positioned inside a span. -/
def Diagnostic.isIn (d : Diagnostic) (s : Span) : Bool :=
  Span.placeLe s.startLine s.startCol d.span.startLine d.span.startCol &&
    Span.placeLe d.span.startLine d.span.startCol s.endLine s.endCol

theorem Diagnostic.isIn_iff {d : Diagnostic} {s : Span} :
    d.isIn s = true ↔ s.first ≤ d.span.first ∧ d.span.first ≤ s.last := by
  simp [isIn, Span.placeLe, Span.first, Span.last, Prod.Lex.toLex_le_toLex]

namespace Node

variable {text : List Char}

/-- The numbers that a node holds and whose text is no numeral. -/
def malformed (text : List Char) (node : Node) : List (Float × Span) :=
  node.numbers.filter fun number => ¬ IsNumeral (number.2.covered text)

theorem mem_malformed {node : Node} {value : Float} {span : Span} :
    (value, span) ∈ node.malformed text ↔
      node.Holds (.expr (.number value span)) ∧ ¬ IsNumeral (span.covered text) := by
  simp [malformed, List.mem_filter, mem_numbers]

theorem malformed_of_parts {node : Node} (other : node.number? = none) :
    node.malformed text = node.parts.flatMap (malformed text) := by
  have numbers_eq : node.numbers = node.parts.flatMap numbers := by
    rw [node.numbers_eq, other]
    rfl
  rw [malformed, numbers_eq, List.filter_flatMap]
  rfl

/-- What a well placed node holds lies inside it. -/
theorem Placed.inside {node part : Node} (placed : node.Placed text) (held : node.Holds part) :
    node.span.first ≤ part.span.first ∧ part.span.last ≤ node.span.last := by
  induction held with
  | refl => exact ⟨le_rfl, le_rfl⟩
  | tail whole member ih =>
      have inner := (placed _ whole).inside _ member
      exact ⟨ih.1.trans inner.1, inner.2.trans ih.2⟩

end Node

/-- Whether a diagnostic is about a malformed number inside one of some nodes. -/
def Diagnostic.isNumberIn (nodes : List Node) (d : Diagnostic) : Bool :=
  d.code == .malformedNumber && nodes.any fun node => d.isIn node.span

theorem Diagnostic.isNumberIn_iff {nodes : List Node} {d : Diagnostic} :
    d.isNumberIn nodes = true ↔
      d.code = .malformedNumber ∧ ∃ node ∈ nodes, d.isIn node.span = true := by
  simp [isNumberIn]

/-- A diagnostic reports a number: it lies inside the number, which counts as zero. -/
def Diagnostic.Reports (d : Diagnostic) (number : Float × Span) : Prop :=
  d.code = .malformedNumber ∧ d.isIn number.2 = true ∧ number.1 = 0

/-- The malformed numbers among the pieces of a text are the numbers whose text is no numeral. -/
theorem Spelled.reports {source : Source} {p q : Position} {xs : List Piece}
    (ahead : (Position.ofText source.text).LeadsTo p) (spelled : Spelled p xs q)
    (genuine : ∀ m ∈ xs.filterMap Piece.malformed?, m.Genuine) :
    List.Forall₂ Diagnostic.Reports
      ((xs.filterMap Piece.malformed?).map (Reading.diagnoseNumber source))
      ((xs.filterMap Piece.numeral?).filter fun number =>
        ¬ IsNumeral (number.2.covered source.text.toList)) := by
  induction xs generalizing p with
  | nil => exact .nil
  | cons x xs ih =>
      obtain ⟨here, others⟩ := spelled
      obtain ⟨-, -, -, -, -, covered⟩ := here.shows ahead
      have later := ih (ahead.trans here.leadsTo) others fun m member =>
        genuine m (by rw [List.filterMap_cons]; split <;> simp_all)
      cases token_eq : x.token with
      | number literal =>
          obtain ⟨_, _, formed, _⟩ := here
          rw [token_eq] at covered formed
          have numeral : IsNumeral (x.lexeme.span.covered source.text.toList) :=
            ⟨literal, formed.1, covered⟩
          simpa [Piece.malformed?, Piece.numeral?, token_eq, numeral] using later
      | malformed literal tail =>
          obtain ⟨m, bad⟩ : ∃ m, x.malformed? = some m := by simp [Piece.malformed?, token_eq]
          have text_eq : m.text = x.lexeme.text := by
            simp only [Piece.malformed?, token_eq, Option.some.injEq] at bad
            rw [← bad]
          have no_numeral : ¬ IsNumeral (x.lexeme.span.covered source.text.toList) := by
            have first := genuine m (by simp [bad])
            rwa [Malformed.Genuine, text_eq, x.text_eq, String.toList_ofList, ← covered] at first
          obtain ⟨after, before⟩ := here.malformed?_inside bad
          have inside : (Reading.diagnoseNumber source m).isIn x.lexeme.span = true :=
            Diagnostic.isIn_iff.mpr ⟨here.first_span.trans_le after.le,
              (here.le_last_span_iff ahead.col_pos).mpr before⟩
          have read_as : x.numeral? = some (0, x.lexeme.span) := by
            simp [Piece.numeral?, token_eq]
          rw [List.filterMap_cons_some bad, List.filterMap_cons_some read_as, List.map_cons,
            List.filter_cons_of_pos (by simpa using no_numeral)]
          exact .cons ⟨rfl, inside, rfl⟩ later
      | keyword k => simpa [Piece.malformed?, Piece.numeral?, token_eq] using later
      | punct q => simpa [Piece.malformed?, Piece.numeral?, token_eq] using later
      | identifier name => simpa [Piece.malformed?, Piece.numeral?, token_eq] using later

namespace Reading

open Node (Row)

/-! ## One definition -/

/--
What a definition at `p`, after which reading goes on at `q`, adds to the tree and reports. If it
cannot be read, the malformed numbers met on the way lie between the two, unless something was
nested too deep.
-/
inductive Accounts (source : Source) (p q : Position) : List Node → List Diagnostic → Prop where
  | read {node : Node} {more : List Diagnostic} :
      Row source.text.toList p.cursor.lineCol q.cursor.lineCol [node] →
      List.Forall₂ Diagnostic.Reports more (node.malformed source.text.toList) →
      Accounts source p q [node] more
  | failed {more : List Diagnostic} :
      ((∀ d ∈ more, d.code ≠ .nestingTooDeep) → ∀ d ∈ more, d.code = .malformedNumber →
        p.cursor.lineCol < d.span.first ∧ d.span.first < q.cursor.lineCol) →
      Accounts source p q [] more

namespace Accounts

variable {source : Source} {p q : Position} {added : List Node} {more : List Diagnostic}

theorem row (accounts : Accounts source p q added more) :
    Row source.text.toList p.cursor.lineCol q.cursor.lineCol added := by
  cases accounts with
  | read here _ => exact here
  | failed _ => exact .nil

/-- What is reported of numbers lies between the two positions. -/
theorem between (accounts : Accounts source p q added more)
    (shallow : ∀ d ∈ more, d.code ≠ .nestingTooDeep) {d : Diagnostic} (member : d ∈ more)
    (is_number : d.code = .malformedNumber) :
    p.cursor.lineCol ≤ d.span.first ∧ d.span.first < q.cursor.lineCol := by
  cases accounts with
  | @read node _ row pairs =>
      obtain ⟨number, listed, -, inside, -⟩ := exists_partner pairs member
      have held := (Node.mem_malformed.mp listed).1
      have bounds := row.inside node List.mem_cons_self
      have inner := (row.placed node List.mem_cons_self).inside held
      obtain ⟨started, ended⟩ := Diagnostic.isIn_iff.mp inside
      exact ⟨bounds.1.trans (inner.1.trans started),
        (ended.trans inner.2).trans_lt bounds.2⟩
  | failed between => exact (between shallow d member is_number).imp_left le_of_lt

/-- What is reported inside the new nodes goes together with their malformed numbers. -/
theorem pairs (accounts : Accounts source p q added more) :
    List.Forall₂ Diagnostic.Reports (more.filter (Diagnostic.isNumberIn added))
      (added.flatMap (Node.malformed source.text.toList)) := by
  cases accounts with
  | @read node _ row pairs =>
      have all_inside : ∀ d ∈ more, d.isNumberIn [node] = true := by
        intro d member
        obtain ⟨number, listed, is_number, inside, -⟩ := exists_partner pairs member
        have held := (Node.mem_malformed.mp listed).1
        have inner := (row.placed node List.mem_cons_self).inside held
        obtain ⟨started, ended⟩ := Diagnostic.isIn_iff.mp inside
        exact Diagnostic.isNumberIn_iff.mpr ⟨is_number, node, List.mem_cons_self,
          Diagnostic.isIn_iff.mpr ⟨inner.1.trans started, ended.trans inner.2⟩⟩
      rwa [List.filter_eq_self.mpr all_inside, List.flatMap_singleton]
  | failed _ =>
      have none_inside : more.filter (Diagnostic.isNumberIn []) = [] := by
        simp [Diagnostic.isNumberIn]
      rw [none_inside]
      exact .nil

end Accounts

section Step

variable {source : Source} {settings : Settings} {fuel : Nat} {p q : Position}
  {progress after : Progress}

/-- What a rule leaves behind where nothing was noted before, and what is noted of it. -/
theorem accounts_of_attempt {r : Rule} {s t : State} (positive : 0 < settings.repeats)
    (ahead : (Position.ofText source.text).LeadsTo p) (none_noted : s.pending = [])
    (matched : (Rule.run settings fuel r).attempt s p = .matched q t) :
    ∃ z : Yield, r.Yields z.tokens z.operands ∧
      t.operands.items = z.operands.reverse ++ s.operands.items ∧
      ∀ node, z.nodes = [node] →
        Accounts source p q [node] (t.pending.map (diagnoseNumber source)) := by
  have sound : Reader.Sound (fun r z => Rule.Laid source.text r z ∧ z.Counted) (.rule r) s p
      (Rule.run settings fuel r) :=
    Reader.Sound.rule (Rule.run_sound (Rule.counted_of_takes source.text) positive fuel r)
  have inner := sound.attempt .empty s p (.refl s p)
  have noted := (Lasting.noted p).attempt ((Lasting.noted p).rule settings fuel r) s p (.refl p)
  rw [matched] at inner noted
  obtain ⟨_, ⟨z, ⟨⟨meets, laid⟩, counted⟩, rfl⟩, stands⟩ := inner
  have pending_eq : t.pending = z.malformed := by
    rw [stands.pending, none_noted]
    rfl
  refine ⟨z, meets, stands.operands, fun node nodes_eq => .read ?_ ?_⟩
  · have row : z.IsRow source.text p := laid p q ahead stands.spelled
    rw [Yield.IsRow, nodes_eq] at row
    exact row.mono (Yield.stop_le stands.spelled ahead.col_pos)
  · have genuine := noted.2 (by simp [none_noted])
    rw [pending_eq] at genuine ⊢
    have numbers_eq : node.numbers = z.pieces.filterMap Piece.numeral? := by
      rw [← counted, nodes_eq, Node.numbersOf_cons, Node.numbersOf_nil, List.append_nil]
    rw [Node.malformed, numbers_eq]
    exact Spelled.reports ahead stands.spelled genuine

/-- A definition that cannot be read reports numbers between its start and where reading goes on. -/
theorem accounts_of_failure (source : Source) (settings : Settings) {s : State}
    (tracked : s.Tracked p) :
    Accounts source p (resume p (failure source settings s p).2) []
      (failure source settings s p).1 := by
  refine .failed fun shallow d member is_number => ?_
  unfold failure at shallow member ⊢
  split at shallow
  · exact absurd rfl (shallow _ (List.mem_append_right _ List.mem_cons_self))
  · rename_i not_deep
    simp only [not_deep] at member ⊢
    rcases List.mem_append.mp member with number | structural
    · obtain ⟨m, given_up, rfl⟩ := List.mem_map.mp number
      have abandoned := (dropRepeats_sortByPlace_spec s.abandoned).2 m given_up
      have onward := leadsTo_resume_furthest tracked.within
      exact ⟨tracked.abandoned_after m abandoned,
        (tracked.abandoned_before not_deep m abandoned).trans_le onward.lineCol_le⟩
    · obtain rfl := List.mem_singleton.mp structural
      simp only [diagnose] at is_number
      split at is_number <;> exact absurd is_number (by decide)

/-- Each definition accounts for its malformed numbers. -/
theorem StepsTo.accounts (steps : StepsTo source settings fuel p progress q after)
    (positive : 0 < settings.repeats) (ahead : (Position.ofText source.text).LeadsTo p) :
    ∃ added more, after.nodes = progress.nodes ++ added ∧ Accounts source p q added more ∧
      after.diagnostics = progress.diagnostics.pushAll more := by
  have tracked := steps.tracked
  cases steps with
  | global no_functions matched popped =>
      have no_functions := List.isEmpty_iff.mp no_functions
      obtain ⟨z, ⟨-, d, operands_eq, -⟩, items_eq, accounts⟩ :=
        accounts_of_attempt positive ahead rfl matched
      rw [operands_eq] at items_eq
      obtain ⟨⟨⟩, -⟩ := eq_of_pop? items_eq popped
      refine ⟨[.varDef _], _, ?_, accounts _ (by rw [Yield.nodes, operands_eq]; rfl), rfl⟩
      simp [Progress.nodes, Progress.commit, no_functions]
  | function tried matched popped =>
      obtain ⟨z, ⟨-, f, operands_eq, -⟩, items_eq, accounts⟩ :=
        accounts_of_attempt positive ahead tried.tracked.2 matched
      rw [operands_eq] at items_eq
      obtain ⟨⟨⟩, -⟩ := eq_of_pop? items_eq popped
      refine ⟨[.function _], _, ?_, accounts _ (by rw [Yield.nodes, operands_eq]; rfl), rfl⟩
      simp [Progress.nodes, Progress.commit]
  | failed =>
      exact ⟨[], _, (List.append_nil _).symm, accounts_of_failure source settings tracked, rfl⟩

end Step

/-! ## All definitions -/

/-- The nodes and the diagnostics of the definitions between two positions. -/
inductive Ran (source : Source) (start : Position) :
    Position → List Node → List Diagnostic → Prop where
  | start : Ran source start start [] []
  | step {p q : Position} {nodes added : List Node} {found more : List Diagnostic} :
      Ran source start p nodes found → p.LeadsTo q → Accounts source p q added more →
      Ran source start q (nodes ++ added) (found ++ more)

namespace Ran

variable {source : Source} {start p : Position} {nodes : List Node} {found : List Diagnostic}

theorem leadsTo (ran : Ran source start p nodes found) : start.LeadsTo p := by
  induction ran with
  | start => exact .refl start
  | step _ onward _ ih => exact ih.trans onward

/-- The definitions are a row. -/
theorem row (ran : Ran source start p nodes found) :
    Row source.text.toList start.cursor.lineCol p.cursor.lineCol nodes := by
  induction ran with
  | start => exact .nil
  | step before onward accounts ih =>
      exact ih.append accounts.row before.leadsTo.lineCol_le le_rfl onward.lineCol_le

/-- Every malformed number of the definitions is reported. -/
theorem reports (ran : Ran source start p nodes found) :
    ∀ number ∈ nodes.flatMap (Node.malformed source.text.toList),
      ∃ d ∈ found, d.Reports number := by
  induction ran with
  | start => exact fun _ member => absurd member List.not_mem_nil
  | step _ _ accounts ih =>
      intro number member
      rw [List.flatMap_append] at member
      rcases List.mem_append.mp member with old | new
      · obtain ⟨d, listed, marks⟩ := ih number old
        exact ⟨d, List.mem_append_left _ listed, marks⟩
      · cases accounts with
        | read _ pairs =>
            rw [List.flatMap_singleton] at new
            obtain ⟨d, listed, marks⟩ := exists_partner pairs.flip new
            exact ⟨d, List.mem_append_right _ listed, marks⟩
        | failed _ => exact absurd new List.not_mem_nil

/--
As long as nothing is nested too deep, what is reported of numbers inside the definitions goes
together with the malformed numbers of the definitions.
-/
theorem corresponds (ran : Ran source start p nodes found)
    (shallow : ∀ d ∈ found, d.code ≠ .nestingTooDeep) :
    (∀ d ∈ found, d.code = .malformedNumber → d.span.first < p.cursor.lineCol) ∧
      List.Forall₂ Diagnostic.Reports (found.filter (Diagnostic.isNumberIn nodes))
        (nodes.flatMap (Node.malformed source.text.toList)) := by
  induction ran with
  | start => exact ⟨fun _ member => absurd member List.not_mem_nil, .nil⟩
  | @step p q nodes added found more before onward accounts ih =>
      obtain ⟨earlier, pairs⟩ := ih fun d member => shallow d (List.mem_append_left _ member)
      have between := fun d member is_number => accounts.between
        (fun d member => shallow d (List.mem_append_right _ member)) (d := d) member is_number
      refine ⟨fun d member is_number => ?_, ?_⟩
      · rcases List.mem_append.mp member with old | new
        · exact (earlier d old is_number).trans_le onward.lineCol_le
        · exact (between d new is_number).2
      -- What is reported of one definition lies in no other one.
      · have old_eq : found.filter (Diagnostic.isNumberIn (nodes ++ added)) =
            found.filter (Diagnostic.isNumberIn nodes) := by
          refine List.filter_congr fun d member => Bool.eq_iff_iff.mpr ?_
          simp only [Diagnostic.isNumberIn_iff, List.mem_append]
          refine and_congr_right fun is_number => ⟨?_, ?_⟩
          · rintro ⟨node, listed | later, inside⟩
            · exact ⟨node, listed, inside⟩
            · have started := (accounts.row.inside node later).1
              exact absurd ((started.trans (Diagnostic.isIn_iff.mp inside).1).trans_lt
                (earlier d member is_number)) (lt_irrefl _)
          · exact fun ⟨node, listed, inside⟩ => ⟨node, Or.inl listed, inside⟩
        have new_eq : more.filter (Diagnostic.isNumberIn (nodes ++ added)) =
            more.filter (Diagnostic.isNumberIn added) := by
          refine List.filter_congr fun d member => Bool.eq_iff_iff.mpr ?_
          simp only [Diagnostic.isNumberIn_iff, List.mem_append]
          refine and_congr_right fun is_number => ⟨?_, ?_⟩
          · rintro ⟨node, listed | later, inside⟩
            · have ended := (before.row.inside node listed).2
              exact absurd ((between d member is_number).1.trans_lt
                ((Diagnostic.isIn_iff.mp inside).2.trans_lt ended)) (lt_irrefl _)
            · exact ⟨node, later, inside⟩
          · exact fun ⟨node, listed, inside⟩ => ⟨node, Or.inr listed, inside⟩
        rw [List.filter_append, List.flatMap_append, old_eq, new_eq]
        exact List.rel_append pairs accounts.pairs

end Ran

/-- All definitions together account for their malformed numbers. -/
theorem definitions_ran {source : Source} {settings : Settings} {fuel steps : Nat}
    {start p : Position} {progress : Progress} {reading : Reading} {program : Program}
    {found : List Diagnostic} (repeats : p.rest.length < settings.repeats)
    (enough : Rule.all.length * p.rest.length + Rule.all.length ≤ fuel)
    (from_text : (Position.ofText source.text).LeadsTo p)
    (ran : Ran source start p progress.nodes found)
    (records : progress.diagnostics.Records found)
    (read : definitions source settings fuel start.cursor steps p progress = some reading)
    (complete : reading.program = some program) :
    ∃ q, Ran source start q (Node.program program).parts reading.diagnostics.stored := by
  induction steps generalizing p progress found with
  | zero => simp [definitions] at read
  | succ steps ih =>
      unfold definitions at read
      split at read
      · obtain rfl := Option.some.inj read
        exact absurd complete (by simp)
      · rename_i room
        split at read
        · obtain rfl := Option.some.inj read
          obtain rfl := Option.some.inj complete
          rw [records.isFull_iff] at room
          rw [records.stored, List.take_of_length_le (by omega)]
          exact ⟨p, ran⟩
        · rename_i more
          have more : p.isEnd = false := Bool.not_eq_true _ ▸ more
          obtain ⟨q, after, next, stepped⟩ := definitionStep_spec source progress repeats enough
          obtain ⟨added, batch, nodes_eq, accounts, pushed⟩ :=
            (definitionStep_eq_next_iff.mp next).accounts (Nat.zero_lt_of_lt repeats) from_text
          have onward := stepped.leadsTo
          have shorter := stepped.length_lt more
          have less := Nat.mul_le_mul_left Rule.all.length shorter.le
          simp only [next] at read
          refine ih (by omega) (by omega) (from_text.trans onward) ?_
            (pushed ▸ records.pushAll batch) read
          exact nodes_eq ▸ ran.step onward accounts

/--
No malformed number is replaced silently. In every program that is read, a number whose text is no
numeral counts as zero, and a diagnostic of a malformed number is positioned inside it. If moreover
nothing is reported as nested too deep, the diagnostics of malformed numbers that are positioned
inside definitions of the program lie one for one, in order, inside the numbers of the program whose
text is no numeral.
-/
theorem malformed_reported (limits : Limits) (source : Source) {program : Program}
    (read : (ofSource limits source).program = some program) :
    let stored := (ofSource limits source).diagnostics.stored
    (∀ value span, (Node.program program).Holds (.expr (.number value span)) →
      ¬ IsNumeral (span.covered source.text.toList) →
        value = 0 ∧ ∃ d ∈ stored, d.code = .malformedNumber ∧ d.isIn span = true) ∧
    ((∀ d ∈ stored, d.code ≠ .nestingTooDeep) →
      List.Forall₂ (fun d number => d.isIn number.2 = true)
        (stored.filter (Diagnostic.isNumberIn (Node.program program).parts))
        ((Node.program program).numbers.filter fun number =>
          ¬ IsNumeral (number.2.covered source.text.toList))) := by
  obtain ⟨reading, run⟩ := Option.isSome_iff_exists.mp (run?_isSome true limits source)
  have ahead := Position.leadsTo_skipGap (.ofText source.text)
  obtain ⟨repeats, enough⟩ := enough_ahead ahead
  simp only [ofSource, run, Option.getD_some] at read ⊢
  obtain ⟨q, ran⟩ := definitions_ran repeats enough ahead .start
    (Diagnostics.records_empty limits.maxErrors) run read
  have parts_eq : (Node.program program).malformed source.text.toList =
      (Node.program program).parts.flatMap (Node.malformed source.text.toList) :=
    Node.malformed_of_parts rfl
  refine ⟨fun value span held no_numeral => ?_, fun shallow => ?_⟩
  · have listed := Node.mem_malformed.mpr ⟨held, no_numeral⟩
    rw [parts_eq] at listed
    obtain ⟨d, member, is_number, inside, zero⟩ := ran.reports _ listed
    exact ⟨zero, d, member, is_number, inside⟩
  · change List.Forall₂ _ _ ((Node.program program).malformed source.text.toList)
    rw [parts_eq]
    exact (ran.corresponds shallow).2.imp fun _ _ marks => marks.2.1

/-- Two malformed numbers in a definition that is read, and one in a definition that is not. -/
theorem malformed_reported_three :
    ∃ source program stored,
      source = ⟨"t", "a b = [1x, 2, 3.y] ] const c d = (4z const ) fun e f() = 5"⟩ ∧
      (ofSource {} source).program = some program ∧
      stored = (ofSource {} source).diagnostics.stored ∧
      (stored.map fun d => (d.span.startCol, d.code)) =
        [(9, 101), (16, 101), (20, 102), (36, 101), (38, 100), (44, 100)] ∧
      (stored.filter (Diagnostic.isNumberIn (Node.program program).parts)).map
        (·.span.startCol) = [9, 16] ∧
      List.Forall₂ (fun d number => d.isIn number.2 = true)
        (stored.filter (Diagnostic.isNumberIn (Node.program program).parts))
        ((Node.program program).numbers.filter fun number =>
          ¬ IsNumeral (number.2.covered source.text.toList)) := by
  generalize source_eq : Source.mk "t"
    "a b = [1x, 2, 3.y] ] const c d = (4z const ) fun e f() = 5" = source
  have columns : (ofSource {} source).program.map (fun program =>
      ((ofSource {} source).diagnostics.stored.filter
        (Diagnostic.isNumberIn (Node.program program).parts)).map (·.span.startCol)) =
      some [9, 16] := by
    subst source_eq
    decide +kernel
  have codes : ((ofSource {} source).diagnostics.stored.map fun d => (d.span.startCol, d.code)) =
      [(9, 101), (16, 101), (20, 102), (36, 101), (38, 100), (44, 100)] := by
    subst source_eq
    decide +kernel
  have shallow : ∀ d ∈ (ofSource {} source).diagnostics.stored, d.code ≠ .nestingTooDeep := by
    subst source_eq
    decide +kernel
  obtain ⟨program, read, columns⟩ := Option.map_eq_some_iff.mp columns
  exact ⟨source, program, _, rfl, read, rfl, codes, columns,
    (malformed_reported {} source read).2 shallow⟩

end Reading

end Formwork
