import Formwork.Proofs.Accepted
import Formwork.Proofs.Lexemes

/-!
# Layout

What stands in the gaps of a text does not matter. Two sources with the same lexemes, which touch in
the same places, are read alike definition by definition, and so a gap of an accepted source can be
replaced by any other that starts with a blank.
-/

namespace Formwork

/-! ## Two sources side by side -/

theorem Stack.pop?_of_bare {s s' rest : Stack} {operand : Operand}
    (same : s.items.map Operand.bare = s'.items.map Operand.bare)
    (popped : s.pop? = some (operand, rest)) :
    ∃ operand' rest', s'.pop? = some (operand', rest') ∧ operand.bare = operand'.bare ∧
      rest.items.map Operand.bare = rest'.items.map Operand.bare := by
  obtain ⟨items, height, height_eq⟩ := s
  obtain ⟨items', height', height_eq'⟩ := s'
  cases items with
  | nil => simp [pop?] at popped
  | cons first items =>
      obtain ⟨rfl, rfl⟩ := Prod.mk.inj (Option.some.inj popped)
      cases items' with
      | nil => simp at same
      | cons first' items' =>
          simp only [List.map_cons, List.cons.injEq] at same
          exact ⟨first', _, rfl, same.1, same.2⟩

namespace Reading

variable {R : Position → Position → Prop}

/-- As much has been read of two sources, up to spans. -/
structure Progress.Parallel (a a' : Progress) : Prop where
  globals : a.globals.map VarDef.bare = a'.globals.map VarDef.bare
  functions : a.functions.map FunctionDef.bare = a'.functions.map FunctionDef.bare
  total : a.diagnostics.total = a'.diagnostics.total
  limit : a.diagnostics.limit = a'.diagnostics.limit
  operands : a.state.operands.items.map Operand.bare = a'.state.operands.items.map Operand.bare
  depth : a.state.depth = a'.state.depth

namespace Progress.Parallel

variable {a a' : Progress} {s s' : State} {ops ops' : Stack}

theorem restart (parallel : a.Parallel a') (p p' : Position) :
    (a.state.restart p).Parallel R (a'.state.restart p') where
  operands := parallel.operands
  pending := rfl
  depth := parallel.depth
  deadEnds _ _ _ _ := by simp [State.restart, DeadEnds.contains, DeadEnds.empty]
  tooDeep := rfl

theorem commit (parallel : a.Parallel a') (states : s.Parallel R s')
    (same : ops.items.map Operand.bare = ops'.items.map Operand.bare) (source source' : Source) :
    (a.commit source s ops).Parallel (a'.commit source' s' ops') where
  globals := parallel.globals
  functions := parallel.functions
  total := by
    simp only [Progress.commit, Diagnostics.total_pushAll, List.length_map]
    rw [parallel.total, states.pending]
  limit := by
    simp only [Progress.commit, Diagnostics.limit_pushAll]
    exact parallel.limit
  operands := same
  depth := states.depth

theorem isEmpty_functions (parallel : a.Parallel a') :
    a.functions.isEmpty = a'.functions.isEmpty := by
  rw [← List.isEmpty_map (f := FunctionDef.bare), parallel.functions, List.isEmpty_map]

end Progress.Parallel

section Step

variable {source source' : Source} {settings settings' : Settings} {fuel fuel' : Nat}
  {p p' q q' : Position} {a a' b b' : Progress}

section Attempts

variable (corresponds : Corresponds R) (nesting : settings.maxNesting = settings'.maxNesting)
  (remember : settings.remember = settings'.remember) {r : Rule} {s s' t : State}
  (states : s.Parallel R s') (here : R p p')
  (unbroken' : (Rule.run settings' fuel' r).attempt s' p' ≠ .broken)

include corresponds nesting remember states here unbroken'

/-- What is read on one side is read on the other. -/
theorem attempt_matched_parallel
    (matched : (Rule.run settings fuel r).attempt s p = .matched q t) :
    ∃ q' t', (Rule.run settings' fuel' r).attempt s' p' = .matched q' t' ∧ R q q' ∧
      t.Parallel R t' := by
  have both := (Reader.Parallel.rule corresponds nesting remember fuel fuel' r).attempt s s' p p'
    states here
  obtain ⟨_, q', _, t', one, two, there, after⟩ | ⟨_, _, one, -⟩ :=
    both.cases (by simp only [matched, ne_eq, reduceCtorEq, not_false_eq_true]) unbroken'
  · obtain ⟨rfl, rfl⟩ := Outcome.matched.inj (matched.symm.trans one)
    exact ⟨q', t', two, there, after⟩
  · cases matched.symm.trans one

/-- What fails on one side fails on the other. -/
theorem attempt_missed_parallel
    (missed : (Rule.run settings fuel r).attempt s p = .missed t) :
    ∃ t', (Rule.run settings' fuel' r).attempt s' p' = .missed t' ∧ t.Parallel R t' := by
  have both := (Reader.Parallel.rule corresponds nesting remember fuel fuel' r).attempt s s' p p'
    states here
  obtain ⟨_, _, _, _, one, -⟩ | ⟨_, t', one, two, after⟩ :=
    both.cases (by simp only [missed, ne_eq, reduceCtorEq, not_false_eq_true]) unbroken'
  · cases missed.symm.trans one
  · obtain rfl := Outcome.missed.inj (missed.symm.trans one)
    exact ⟨t', two, after⟩

end Attempts

/-- Where one side tries a function, so does the other. -/
theorem TriesFunction.parallel (corresponds : Corresponds R)
    (nesting : settings.maxNesting = settings'.maxNesting)
    (remember : settings.remember = settings'.remember) (here : R p p') (parallel : a.Parallel a')
    {s : State} (tried : TriesFunction settings fuel p a.functions (a.state.restart p) s)
    (next' : definitionStep source' settings' fuel' p' a' = .next q' b') :
    ∃ s', TriesFunction settings' fuel' p' a'.functions (a'.state.restart p') s' ∧
      s.Parallel R s' := by
  cases tried with
  | first some_function =>
      exact ⟨_, .first (parallel.isEmpty_functions ▸ some_function), parallel.restart p p'⟩
  | second no_functions missed =>
      rw [parallel.isEmpty_functions] at no_functions
      obtain ⟨t', missed', after⟩ := attempt_missed_parallel corresponds nesting remember
        (parallel.restart p p') here (varDef_ne_broken next' no_functions) missed
      exact ⟨t', .second no_functions missed', after⟩

/-- Definitions are read alike, unless one is reported. -/
theorem definitionStep_parallel (corresponds : Corresponds R)
    (nesting : settings.maxNesting = settings'.maxNesting)
    (remember : settings.remember = settings'.remember) (here : R p p') (parallel : a.Parallel a')
    (next : definitionStep source settings fuel p a = .next q b)
    (next' : definitionStep source' settings' fuel' p' a' = .next q' b') :
    R q q' ∧ b.Parallel b' ∨ 0 < b.diagnostics.total := by
  -- The other side goes on as well, so what is found for it is where it goes on to.
  have same {r : Position} {c : Progress} (steps : StepsTo source' settings' fuel' p' a' r c) :
      q' = r ∧ b' = c :=
    Step.next.inj (next'.symm.trans (definitionStep_eq_next_iff.mpr steps))
  cases definitionStep_eq_next_iff.mp next with
  | global no_functions matched popped =>
      rw [parallel.isEmpty_functions] at no_functions
      obtain ⟨r', t', matched', there, after⟩ := attempt_matched_parallel corresponds nesting
        remember (parallel.restart p p') here (varDef_ne_broken next' no_functions) matched
      obtain ⟨operand', ops', popped', bare_eq, ops_eq⟩ := Stack.pop?_of_bare after.operands popped
      cases operand' <;> simp only [Operand.bare, reduceCtorEq] at bare_eq
      rename_i d'
      obtain ⟨rfl, rfl⟩ := same (.global no_functions matched' popped')
      have committed := parallel.commit after ops_eq source source'
      refine Or.inl ⟨there, { committed with globals := ?_ }⟩
      simp only [List.map_cons]
      rw [Operand.varDef.inj bare_eq, parallel.globals]
  | function tried matched popped =>
      obtain ⟨s', tried', states⟩ :=
        tried.parallel corresponds nesting remember here parallel next'
      obtain ⟨r', t', matched', there, after⟩ := attempt_matched_parallel corresponds nesting
        remember states here (tried'.ne_broken next') matched
      obtain ⟨operand', ops', popped', bare_eq, ops_eq⟩ := Stack.pop?_of_bare after.operands popped
      cases operand' <;> simp only [Operand.bare, reduceCtorEq] at bare_eq
      rename_i f'
      obtain ⟨rfl, rfl⟩ := same (.function tried' matched' popped')
      have committed := parallel.commit after ops_eq source source'
      refine Or.inl ⟨there, { committed with functions := ?_ }⟩
      simp only [List.map_cons]
      rw [Operand.function.inj bare_eq, parallel.functions]
  | @failed s t tried missed =>
      have reported := List.length_pos_iff.mpr
        (failure_ne_nil source settings (t.expect p "end of input") p)
      refine Or.inr ?_
      simp only
      rw [Diagnostics.total_pushAll]
      exact Nat.add_pos_right _ reported

end Step

/-- What is accepted of one source is accepted of the other. -/
theorem definitions_parallel {source source' : Source} {settings settings' : Settings}
    {fuel fuel' steps steps' : Nat} {start start' : Cursor} {p p' : Position} {a a' : Progress}
    {reading reading' : Reading} {program : Program} (corresponds : Corresponds R)
    (nesting : settings.maxNesting = settings'.maxNesting)
    (remember : settings.remember = settings'.remember)
    (repeats : p.rest.length < settings.repeats)
    (enough : Rule.all.length * p.rest.length + Rule.all.length ≤ fuel)
    (here : R p p') (parallel : a.Parallel a')
    (read : definitions source settings fuel start steps p a = some reading)
    (accepted : reading.accepted? = some program)
    (read' : definitions source' settings' fuel' start' steps' p' a' = some reading') :
    ∃ program', reading'.accepted? = some program' ∧ program'.bare = program.bare := by
  induction steps generalizing steps' p p' a a' with
  | zero => simp [definitions] at read
  | succ steps ih =>
      cases steps' with
      | zero => simp [definitions] at read'
      | succ steps' =>
          have isFull_eq : a.diagnostics.isFull = a'.diagnostics.isFull := by
            simp [Diagnostics.isFull, parallel.total, parallel.limit]
          unfold definitions at read read'
          rw [← isFull_eq, ← corresponds.isEnd here] at read'
          split at read
          · obtain rfl := Option.some.inj read
            simp [accepted?] at accepted
          · rename_i room
            rw [if_neg room] at read'
            split at read
            · rename_i ends
              rw [if_pos ends] at read'
              obtain rfl := Option.some.inj read
              obtain rfl := Option.some.inj read'
              simp only [accepted?, Diagnostics.hasErrors, ← parallel.total, decide_eq_true_eq]
                at accepted ⊢
              split at accepted
              · simp at accepted
              · rename_i no_errors
                obtain rfl := Option.some.inj accepted
                refine ⟨_, if_neg no_errors, ?_⟩
                simp [Program.bare, List.map_reverse, parallel.globals, parallel.functions]
            · rename_i more
              rw [if_neg more] at read'
              obtain ⟨q, b, next, stepped⟩ := definitionStep_spec source a repeats enough
              have shorter := stepped.length_lt (Bool.not_eq_true _ ▸ more)
              have less := Nat.mul_le_mul_left Rule.all.length shorter.le
              simp only [next] at read
              split at read'
              · rename_i q' b' next'
                have no_errors := (definitions_accepted (by omega) (by omega) read accepted).1
                rcases definitionStep_parallel corresponds nesting remember here parallel next
                  next' with ⟨there, after⟩ | reported
                · exact ih (by omega) (by omega) there after read read'
                · omega
              · simp at read'

/-- Two sources whose positions correspond are accepted alike. -/
theorem accepted_of_corresponds (limits : Limits) {source source' : Source} {program : Program}
    (corresponds : Corresponds R)
    (here : R (Position.ofText source.text).skipGap (Position.ofText source'.text).skipGap)
    (accepted : (ofSource limits source).accepted? = some program) :
    ∃ program', (ofSource limits source').accepted? = some program' ∧
      program'.bare = program.bare := by
  obtain ⟨reading, read⟩ := Option.isSome_iff_exists.mp (run?_isSome true limits source)
  obtain ⟨reading', read'⟩ := Option.isSome_iff_exists.mp (run?_isSome true limits source')
  rw [ofSource, read, Option.getD_some] at accepted
  rw [ofSource, read', Option.getD_some]
  obtain ⟨repeats, enough⟩ := enough_ahead (Position.leadsTo_skipGap (.ofText source.text))
  unfold run? at read read'
  exact definitions_parallel corresponds (by rfl) (by rfl) repeats enough here
    ⟨rfl, rfl, rfl, rfl, rfl, rfl⟩ read accepted read'

end Reading

/-! ## Texts with the same lexemes -/

/-- Two texts of the same plain tokens, which touch in the same places. -/
inductive SameLexemes : List Char → List Char → Prop where
  | nil : SameLexemes [] []
  | cons {t : Token} {after after' text text' : List Char} :
      t.isPlain = true → t.Fits after → t.Fits after' → Gap.Skips after text →
      Gap.Skips after' text' → (text ≠ [] → (after = text ↔ after' = text')) →
      SameLexemes text text' →
      SameLexemes (t.chars ++ after) (t.chars ++ after')

namespace SameLexemes

variable {text text' after after' : List Char}

/-- A sound token may be added, a negative number as its sign and the number. -/
theorem sound {t : Token} (sound : t.isSound = true) (fits : t.Fits after) (fits' : t.Fits after')
    (skips : Gap.Skips after text) (skips' : Gap.Skips after' text')
    (touch : text ≠ [] → (after = text ↔ after' = text')) (same : SameLexemes text text') :
    SameLexemes (t.chars ++ after) (t.chars ++ after') := by
  cases plain : t.isPlain with
  | true => exact .cons plain fits fits' skips skips' touch same
  | false =>
      cases t with
      | number literal =>
          let unsigned : Literal := { literal with negative := false }
          have negative : literal.negative = true := by simpa [Token.isPlain] using plain
          have chars_eq : (Token.number literal).chars =
              (Token.punct .minus).chars ++ (Token.number unsigned).chars := by
            simp [Token.chars, Literal.chars, negative, unsigned, Punct.chars, Punct.text]
          have minus (after : List Char) :
              (Token.punct .minus).Fits ((Token.number unsigned).chars ++ after) := by
            obtain ⟨d, ds, digit, chars_eq⟩ := Literal.WellFormed.chars_eq (l := unsigned) fits.1
            simp only [Token.chars, chars_eq]
            have no_equals : d ≠ '=' := by
              rintro rfl
              exact absurd digit (by decide)
            simpa [Token.Fits, nextIs, Punct.mustNotFollow, unsigned] using no_equals
          have number : SameLexemes ((Token.number unsigned).chars ++ after)
              ((Token.number unsigned).chars ++ after') :=
            .cons rfl fits fits' skips skips' touch same
          rw [chars_eq, List.append_assoc, List.append_assoc]
          exact .cons rfl (minus _) (minus _) (.done _) (.done _) (by simp) number
      | malformed literal tail => simp [Token.isSound] at sound
      | _ => simp [Token.isPlain] at plain

/-- No gap comes before the lexemes. -/
theorem piece? (same : SameLexemes text text') :
    Gap.piece? text = none ∧ Gap.piece? text' = none := by
  cases same with
  | nil => exact ⟨rfl, rfl⟩
  | cons plain fits fits' =>
      have sound := Token.isSound_of_isPlain plain
      exact ⟨(fits.writable sound).piece? fits, (fits'.writable sound).piece? fits'⟩

/-- Both texts are read as like pieces. -/
theorem pieces (same : SameLexemes text text') (place place' : Cursor) :
    ∃ xs xs' e e', Spelled ⟨place, text⟩ xs e ∧ e.rest = [] ∧ Spelled ⟨place', text'⟩ xs' e' ∧
      e'.rest = [] ∧ List.Forall₂ Piece.Like xs xs' := by
  induction same generalizing place place' with
  | nil => exact ⟨[], [], _, _, rfl, rfl, rfl, rfl, .nil⟩
  | @cons t after after' text text' plain fits fits' skips skips' touch rest ih =>
      let x := Piece.ofToken t ⟨place, t.chars ++ after⟩ after
      let x' := Piece.ofToken t ⟨place', t.chars ++ after'⟩ after'
      have next_eq : x.lexeme.next.rest = text := skips.rest_skipFrom rest.piece?.1 _
      have next_eq' : x'.lexeme.next.rest = text' := skips'.rest_skipFrom rest.piece?.2 _
      obtain ⟨xs, xs', e, e', spelled, ends, spelled', ends', like⟩ :=
        ih x.lexeme.next.cursor x'.lexeme.next.cursor
      rw [← next_eq] at spelled
      rw [← next_eq'] at spelled'
      refine ⟨x :: xs, x' :: xs', e, e', ⟨⟨after, rfl, fits, rfl⟩, spelled⟩, ends,
        ⟨⟨after', rfl, fits', rfl⟩, spelled'⟩, ends', .cons ⟨rfl, ?_, plain⟩ like⟩
      have touches : x.touches = true ↔ after = text ∨ text = [] := by
        rw [Piece.touches, Bool.or_eq_true, beq_iff_eq, Position.isEnd, next_eq, List.isEmpty_iff,
          ← next_eq, eq_comm (a := after)]
        exact or_congr_left (Lexeme.touches_ofChars ..)
      have touches' : x'.touches = true ↔ after' = text' ∨ text' = [] := by
        rw [Piece.touches, Bool.or_eq_true, beq_iff_eq, Position.isEnd, next_eq', List.isEmpty_iff,
          ← next_eq', eq_comm (a := after')]
        exact or_congr_left (Lexeme.touches_ofChars ..)
      rw [Bool.eq_iff_iff, touches, touches']
      cases rest with
      | nil => simp
      | cons _ fits =>
          have more := Token.chars_ne_nil fits
          simp [more, touch (by simp [more])]

end SameLexemes

/-- Sources with the same lexemes are accepted alike, up to spans. -/
theorem Reading.accepted_of_sameLexemes (limits : Limits) (source source' : Source)
    {text text' : List Char} (skips : Gap.Skips source.text.toList text)
    (skips' : Gap.Skips source'.text.toList text') (same : SameLexemes text text')
    {program : Program} (accepted : (ofSource limits source).accepted? = some program) :
    ∃ program', (ofSource limits source').accepted? = some program' ∧
      program'.bare = program.bare := by
  have first : (Position.ofText source.text).skipGap.rest = text :=
    skips.rest_skipFrom same.piece?.1 _
  have first' : (Position.ofText source'.text).skipGap.rest = text' :=
    skips'.rest_skipFrom same.piece?.2 _
  obtain ⟨xs, xs', e, e', spelled, ends, spelled', ends', like⟩ :=
    same.pieces (Position.ofText source.text).skipGap.cursor
      (Position.ofText source'.text).skipGap.cursor
  rw [← first] at spelled
  rw [← first'] at spelled'
  exact accepted_of_corresponds limits (Matching.corresponds _ _)
    ⟨[], [], xs, xs', ⟨rfl, e, spelled, ends⟩, ⟨rfl, e', spelled', ends'⟩, .nil, like⟩ accepted

/-! ## Another gap -/

/-- A text is made of sound lexemes with gaps between them, the last one right before `rest`. -/
inductive Lexed (rest : List Char) : List Char → Prop where
  | last {t : Token} : t.isSound = true → t.Fits rest → Lexed rest (t.chars ++ rest)
  | next {t : Token} {after text : List Char} :
      t.isSound = true → t.Fits after → Gap.Skips after text → Lexed rest text →
      Lexed rest (t.chars ++ after)

/-- Two texts that start alike, as far as tokens before them can tell. -/
def StartAlike (text text' : List Char) : Prop :=
  ∃ c more more', text = c :: more ∧ text' = c :: more' ∧
    nextIs Char.isDigit more = nextIs Char.isDigit more' ∧
    nextIs (· == '.') more = nextIs (· == '.') more'

namespace StartAlike

variable {text text' : List Char}

theorem of_append {word : List Char} (nonempty : word ≠ [])
    (digits : nextIs Char.isDigit text = nextIs Char.isDigit text')
    (dots : nextIs (· == '.') text = nextIs (· == '.') text') :
    StartAlike (word ++ text) (word ++ text') := by
  obtain ⟨c, word, rfl⟩ := List.exists_cons_of_ne_nil nonempty
  refine ⟨c, word ++ text, word ++ text', rfl, rfl, ?_⟩
  cases word with
  | nil => exact ⟨digits, dots⟩
  | cons d word => exact ⟨rfl, rfl⟩

theorem append (alike : StartAlike text text') (gap : List Char) :
    StartAlike (gap ++ text) (gap ++ text') := by
  by_cases nonempty : gap = []
  · rw [nonempty]
    exact alike
  · obtain ⟨c, more, more', rfl, rfl, -⟩ := alike
    exact of_append nonempty rfl rfl

theorem head? (alike : StartAlike text text') : text'.head? = text.head? := by
  obtain ⟨c, more, more', rfl, rfl, -⟩ := alike
  rfl

theorem fits (alike : StartAlike text text') {t : Token} (sound : t.isSound = true)
    (fits : t.Fits text) : t.Fits text' := by
  obtain ⟨c, more, more', rfl, rfl, digits, dots⟩ := alike
  cases t with
  | keyword k => exact fits
  | punct q => exact fits
  | identifier name => exact fits
  | number literal =>
      refine ⟨fits.1, ?_⟩
      have unspoiled := fits.2
      by_cases dot : c = '.'
      · subst dot
        simpa only [Literal.spoiledBy, ← digits, ← dots] using unspoiled
      · simpa [Literal.spoiledBy, dot, nextIs] using unspoiled
  | malformed literal tail => simp [Token.isSound] at sound

end StartAlike

namespace Lexed

variable {rest rest' back text : List Char}

/-- Lexemes up to the end of a text are the same as themselves. -/
theorem sameLexemes (lexed : Lexed rest text) (ends : Gap.Skips rest []) :
    SameLexemes text text := by
  induction lexed with
  | last sound fits => exact .sound sound fits fits ends ends (fun _ => Iff.rfl) .nil
  | next sound fits skips _ ih => exact .sound sound fits fits skips skips (fun _ => Iff.rfl) ih

/-- Another gap after the last lexeme leaves the lexemes before it as they are. -/
theorem with_gap (lexed : Lexed rest text) (skips : Gap.Skips rest back) (apart : rest ≠ back)
    (blank : nextIs Gap.isBlank rest' = true) (skips' : Gap.Skips rest' back)
    (apart' : rest' ≠ back) (behind : SameLexemes back back) :
    ∃ front, text = front ++ rest ∧ StartAlike text (front ++ rest') ∧
      SameLexemes text (front ++ rest') := by
  induction lexed with
  | @last t sound fits =>
      obtain ⟨no_digit, no_dot⟩ := skips.nextIs apart
      obtain ⟨no_digit', no_dot'⟩ := skips'.nextIs apart'
      have fits' : t.Fits rest' := by
        cases rest' with
        | nil => simp [nextIs] at blank
        | cons c rest' => exact (fits.writable sound).fits blank rest'
      refine ⟨t.chars, rfl, ?_, ?_⟩
      · exact .of_append (Token.chars_ne_nil fits) (by rw [no_digit, no_digit'])
          (by rw [no_dot, no_dot'])
      · exact .sound sound fits fits' skips skips'
          (fun _ => iff_of_false apart apart') behind
  | @next t after text sound fits before _ ih =>
      obtain ⟨front, rfl, alike, same⟩ := ih
      obtain ⟨gap, rfl, again⟩ := before.split
      have alike' := alike.append gap
      refine ⟨t.chars ++ (gap ++ front), by simp only [List.append_assoc], ?_, ?_⟩
      · simpa only [List.append_assoc] using alike'.append t.chars
      · have touch : gap ++ (front ++ rest) = front ++ rest ↔
            gap ++ (front ++ rest') = front ++ rest' := by
          rw [List.append_left_eq_self, List.append_left_eq_self]
        have longer := SameLexemes.sound sound fits (alike'.fits sound fits) before
          (again _ alike.head?) (fun _ => touch) same
        simpa only [List.append_assoc] using longer

end Lexed

namespace Reading

/--
A gap between two lexemes of an accepted source can be replaced by any other gap that starts with a
blank: the source stays accepted, and its program is the same up to spans.
-/
theorem accepted_with_other_gap (limits : Limits) (name : String)
    {front gap gap' back text tail : List Char} {program : Program}
    (leading : Gap.Skips (front ++ (gap ++ back)) text) (before : Lexed (gap ++ back) text)
    (after : Lexed tail back) (trailing : Gap.Skips tail [])
    (nonempty : gap ≠ []) (skips : Gap.Skips (gap ++ back) back)
    (blank : nextIs Gap.isBlank gap' = true) (skips' : Gap.Skips (gap' ++ back) back)
    (accepted : (ofSource limits ⟨name, String.ofList (front ++ (gap ++ back))⟩).accepted? =
      some program) :
    ∃ program', (ofSource limits ⟨name, String.ofList (front ++ (gap' ++ back))⟩).accepted? =
        some program' ∧ program'.bare = program.bare := by
  have apart : gap ++ back ≠ back := by simpa using nonempty
  have apart' : gap' ++ back ≠ back := by
    intro same
    rw [List.append_left_eq_self] at same
    simp [same, nextIs] at blank
  obtain ⟨lexemes, rfl, alike, same⟩ := before.with_gap skips apart (nextIs_append blank back)
    skips' apart' (after.sameLexemes trailing)
  obtain ⟨lead, text_eq, again⟩ := leading.split
  have front_eq : front = lead ++ lexemes := by
    rw [← List.append_assoc lead] at text_eq
    exact List.append_cancel_right text_eq
  have leading' : Gap.Skips (front ++ (gap' ++ back)) (lexemes ++ (gap' ++ back)) := by
    rw [front_eq, List.append_assoc]
    exact again _ alike.head?
  refine accepted_of_sameLexemes limits _ _ ?_ ?_ same accepted
  · rw [String.toList_ofList]
    exact leading
  · rw [String.toList_ofList]
    exact leading'

theorem accepted_with_other_gap_power :
    ∃ program program',
      (ofSource ⟨20, 64⟩ ⟨"p", String.ofList ("num a = -1.5".toList ++
        (" /* one */ ".toList ++ "^ b".toList))⟩).accepted? = some program ∧
      (ofSource ⟨20, 64⟩ ⟨"p", String.ofList ("num a = -1.5".toList ++
        ("\n// two\n".toList ++ "^ b".toList))⟩).accepted? = some program' ∧
      program'.bare = program.bare := by
  have skips {text rest : List Char} (all : (Gap.skipFrom 0 .start text).rest = rest) :
      Gap.Skips text rest := all ▸ (Gap.skipFrom_spec .start text).1
  obtain ⟨program, accepted⟩ := Option.isSome_iff_exists.mp (show (ofSource ⟨20, 64⟩
    ⟨"p", String.ofList ("num a = -1.5".toList ++ (" /* one */ ".toList ++
      "^ b".toList))⟩).accepted?.isSome = true by decide +kernel)
  have before : Lexed (" /* one */ ".toList ++ "^ b".toList)
      ("num a = -1.5".toList ++ (" /* one */ ".toList ++ "^ b".toList)) :=
    .next (t := .identifier "num") rfl ⟨rfl, rfl⟩ (skips rfl) <|
      .next (t := .identifier "a") rfl ⟨rfl, rfl⟩ (skips rfl) <|
        .next (t := .punct .assign) rfl (by rfl) (skips rfl) <|
          .last (t := .number ⟨true, ['1'], ['5']⟩) rfl ⟨⟨by simp, by simp, by simp⟩, rfl⟩
  have after : Lexed [] "^ b".toList :=
    .next (t := .punct .caret) rfl (by rfl) (skips rfl) <|
      .last (t := .identifier "b") rfl ⟨rfl, rfl⟩
  have other : Gap.Skips ("\n// two\n".toList ++ "^ b".toList) "^ b".toList := skips rfl
  obtain ⟨program', accepted', same⟩ := accepted_with_other_gap ⟨20, 64⟩ "p" (.done _) before after
    (.done _) (by decide) (skips rfl) (by decide) other accepted
  exact ⟨program, program', accepted, accepted', same⟩

end Reading

end Formwork
