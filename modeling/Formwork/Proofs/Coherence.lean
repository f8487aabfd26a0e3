import Formwork.Diagnostic.Json
import Formwork.Proofs.Lines
import Formwork.Proofs.SourceOrder

/-!
# Cursors agree with their source

`Source.Scanned` holds of every cursor that scans of a source hand out, one from another, in any
order. All of them are reached from the first position by stepping over characters, so they are
coherent, and so are the places that reading a source reports: `Source.cursors_coherent`.
-/

namespace Formwork

/-! ## Scans -/

/-- A lexeme is found at a position: a name, a keyword, punctuation, or a number of either kind. -/
inductive Position.Finds (p : Position) : Lexeme → Prop
  | identifier {lexeme : Lexeme} : p.identifier? = some lexeme → p.Finds lexeme
  | keyword {k : Keyword} {lexeme : Lexeme} : p.keyword? k = some lexeme → p.Finds lexeme
  | punct {t : Punct} {lexeme : Lexeme} : p.punct? t = some lexeme → p.Finds lexeme
  | number {value : Float} {lexeme : Lexeme} : p.number = .number value lexeme → p.Finds lexeme
  | malformed {bad : Cursor} {lexeme : Lexeme} :
      p.number = .malformed bad lexeme → p.Finds lexeme

/-- The cursors that scans of a source hand out, one from another. -/
inductive Source.Scanned (source : Source) : Cursor → Prop
  | start : source.Scanned .start
  | bump {place : Cursor} {c : Char} {after : Position} : source.Scanned place →
      (Position.seek source place).next? = some (c, after) → source.Scanned after.cursor
  | gap {place : Cursor} : source.Scanned place →
      source.Scanned (Position.seek source place).skipGap.cursor
  | stop {place : Cursor} {lexeme : Lexeme} : source.Scanned place →
      (Position.seek source place).Finds lexeme → source.Scanned lexeme.stop
  | next {place : Cursor} {lexeme : Lexeme} : source.Scanned place →
      (Position.seek source place).Finds lexeme → source.Scanned lexeme.next.cursor
  | bad {place bad : Cursor} {lexeme : Lexeme} : source.Scanned place →
      (Position.seek source place).number = .malformed bad lexeme → source.Scanned bad
  | recovery {place : Cursor} (wanted : List Keyword) : source.Scanned place →
      source.Scanned ((Position.seek source place).skipToKeyword wanted).cursor

namespace Position

variable {p : Position}

/-- What is found is a piece. -/
theorem Finds.exists_piece {lexeme : Lexeme} (finds : p.Finds lexeme) :
    ∃ x : Piece, x.lexeme = lexeme ∧ x.At p := by
  cases finds with
  | identifier found =>
      obtain ⟨_, _, here⟩ := identifier?_spec found
      exact ⟨_, rfl, here⟩
  | @keyword k _ found =>
      obtain ⟨x, -, same, here⟩ := Terminal.match?_spec (t := .keyword k) found
      exact ⟨x, same, here⟩
  | @punct t _ found =>
      obtain ⟨x, -, same, here⟩ := Terminal.match?_spec (t := .punct t) found
      exact ⟨x, same, here⟩
  | number found =>
      obtain ⟨_, _, -, here⟩ := number_spec found
      exact ⟨_, rfl, here⟩
  | malformed found =>
      obtain ⟨_, _, _, -, here⟩ := malformed_spec found
      exact ⟨_, rfl, here⟩

theorem leadsTo_of_next? {c : Char} {after : Position} (moved : p.next? = some (c, after)) :
    p.LeadsTo after := by
  unfold next? at moved
  split at moved
  · exact absurd moved (by simp)
  · rename_i d rest rest_eq
    obtain ⟨-, rfl⟩ := Prod.mk.inj (Option.some.inj moved)
    exact ⟨[d], rest_eq, rfl⟩

/-- Stepping over characters leads to a position with the given cursor. -/
def Onto (p : Position) (place : Cursor) : Prop := ∃ q, p.LeadsTo q ∧ q.cursor = place

theorem LeadsTo.onto {q : Position} {place : Cursor} (ahead : p.LeadsTo q) (onto : q.Onto place) :
    p.Onto place := by
  obtain ⟨r, onward, same⟩ := onto
  exact ⟨r, ahead.trans onward, same⟩

theorem onto_stop {x : Piece} (here : x.At p) : p.Onto x.lexeme.stop := by
  obtain ⟨after, rest_eq, -, lexeme_eq⟩ := here
  exact ⟨⟨p.cursor.advance x.token.chars, after⟩, ⟨_, rest_eq, rfl⟩, by rw [lexeme_eq]; rfl⟩

theorem onto_bad {bad : Cursor} {lexeme : Lexeme} (found : p.number = .malformed bad lexeme) :
    p.Onto bad := by
  obtain ⟨literal, tail, _, rfl, after, rest_eq, -⟩ := malformed_spec found
  refine ⟨⟨p.cursor.advance literal.chars, tail ++ after⟩, ⟨_, ?_, rfl⟩, rfl⟩
  simpa [Token.chars] using rest_eq

end Position

section Source

variable {source : Source} {place : Cursor}

theorem Cursor.divides_of_onto (onto : (Position.ofText source.text).Onto place) :
    ∃ before after, place.Divides source before after := by
  obtain ⟨q, ahead, rfl⟩ := onto
  obtain ⟨before, divides⟩ := ahead.divides
  exact ⟨before, q.rest, divides⟩

/-- The position of a cursor that is reached is the one at which it is reached. -/
theorem Position.LeadsTo.seek_eq {q : Position} (ahead : (Position.ofText source.text).LeadsTo q) :
    Position.seek source q.cursor = q := by
  obtain ⟨before, divides⟩ := ahead.divides
  exact divides.seek_eq

/-- Every cursor that is handed out is reached by stepping over characters. -/
theorem Source.Scanned.onto (scanned : source.Scanned place) :
    (Position.ofText source.text).Onto place := by
  induction scanned with
  | start => exact ⟨_, .refl _, rfl⟩
  | bump _ moved ih =>
      obtain ⟨q, ahead, rfl⟩ := ih
      rw [ahead.seek_eq] at moved
      exact ⟨_, ahead.trans (Position.leadsTo_of_next? moved), rfl⟩
  | gap _ ih =>
      obtain ⟨q, ahead, rfl⟩ := ih
      rw [ahead.seek_eq]
      exact ⟨_, ahead.trans (Position.leadsTo_skipGap q), rfl⟩
  | stop _ finds ih =>
      obtain ⟨q, ahead, rfl⟩ := ih
      rw [ahead.seek_eq] at finds
      obtain ⟨x, rfl, here⟩ := finds.exists_piece
      exact ahead.onto (Position.onto_stop here)
  | next _ finds ih =>
      obtain ⟨q, ahead, rfl⟩ := ih
      rw [ahead.seek_eq] at finds
      obtain ⟨x, rfl, here⟩ := finds.exists_piece
      exact ⟨_, ahead.trans here.leadsTo, rfl⟩
  | bad _ found ih =>
      obtain ⟨q, ahead, rfl⟩ := ih
      rw [ahead.seek_eq] at found
      exact ahead.onto (Position.onto_bad found)
  | recovery wanted _ ih =>
      obtain ⟨q, ahead, rfl⟩ := ih
      rw [ahead.seek_eq]
      exact ⟨_, ahead.trans (Position.leadsTo_skipToKeyword wanted q), rfl⟩

end Source

/-! ## Diagnostics -/

/-- Malformed numbers are noted at places of the text only. -/
theorem Lasting.placed (start : Position) :
    Lasting start fun s t => (∀ m ∈ s.pending ++ s.abandoned, start.Onto m.place) →
      ∀ m ∈ t.pending ++ t.abandoned, start.Onto m.place where
  refl _ placed := placed
  trans first second placed := second (first placed)
  expect s label _ placed := by
    rwa [State.pending_expect, (s.kept_expect _ label).1]
  rearrange _ _ _ _ placed := placed
  note s ahead found placed := by
    intro m member
    simp only [List.mem_append, List.mem_singleton] at member placed
    rcases member with (old | rfl) | old
    · exact placed m (.inl old)
    · exact ahead.onto (Position.onto_bad found)
    · exact placed m (.inr old)
  giveUp s kept placed := by
    intro m member
    simp only [List.mem_append] at member placed
    rcases member with old | old | old
    · exact placed m (.inl (List.mem_of_mem_take old))
    · exact placed m (.inr old)
    · exact placed m (.inl (List.mem_of_mem_drop old))
  tooDeep _ _ placed := placed
  nested kept placed := kept placed

/-- A diagnostic names a place ahead of a position and quotes the line of that place. -/
def Diagnostic.Quotes (d : Diagnostic) (source : Source) (start : Position) : Prop :=
  ∃ place, start.Onto place ∧ d.span = place.point ∧
    d.sourceLine = (source.line? place.line).getD ""

namespace Reading

variable {source : Source} {settings : Settings} {fuel : Nat} {p q : Position}
  {progress after : Progress}

theorem quotes_diagnoseNumber (source : Source) {ms : List Malformed}
    (placed : ∀ m ∈ ms, p.Onto m.place) :
    ∀ d ∈ ms.map (diagnoseNumber source), d.Quotes source p :=
  List.forall_mem_map.mpr fun m noted => ⟨m.place, placed m noted, rfl, rfl⟩

/-- What a failed definition reports, it reports at places that it has met. -/
theorem quotes_failure (source : Source) (settings : Settings) {s : State} (inside : s.Within p)
    (placed : ∀ m ∈ s.abandoned, p.Onto m.place) :
    ∀ d ∈ (failure source settings s p).1, d.Quotes source p := by
  have numbers := quotes_diagnoseNumber source fun m noted =>
    placed m ((dropRepeats_sortByPlace_spec s.abandoned).2 m noted)
  unfold failure
  split
  · rename_i deep noted
    refine List.forall_mem_append.mpr ⟨numbers, List.forall_mem_singleton.mpr ?_⟩
    exact ⟨deep.cursor, ⟨deep, inside.2 deep noted, rfl⟩, rfl, rfl⟩
  · refine List.forall_mem_append.mpr ⟨numbers, List.forall_mem_singleton.mpr ?_⟩
    exact ⟨s.furthest.cursor, ⟨s.furthest, inside.1, rfl⟩, rfl, rfl⟩

/-- An attempt to read a rule notes places of the text only. -/
theorem placed_attempt (settings : Settings) (fuel : Nat) (r : Rule) {s : State}
    (placed : ∀ m ∈ s.pending ++ s.abandoned, p.Onto m.place) :
    match (Rule.run settings fuel r).attempt s p with
    | .matched _ t | .missed t => ∀ m ∈ t.pending ++ t.abandoned, p.Onto m.place
    | .broken => True := by
  have kept := (Lasting.placed p).attempt ((Lasting.placed p).rule settings fuel r) s p (.refl p)
  cases outcome : (Rule.run settings fuel r).attempt s p with
  | matched q t =>
      rw [outcome] at kept
      exact kept.2 placed
  | missed t =>
      rw [outcome] at kept
      exact kept placed
  | broken => trivial

/-- Where a function is tried, only places of the text have been met. -/
theorem TriesFunction.placed {functions : List FunctionDef} {begun s : State}
    (tried : TriesFunction settings fuel p functions (begun.restart p) s) :
    s.Within p ∧ ∀ m ∈ s.pending ++ s.abandoned, p.Onto m.place := by
  have inside : (begun.restart p).Within p := ⟨.refl p, by simp [State.restart]⟩
  have placed : ∀ m ∈ (begun.restart p).pending ++ (begun.restart p).abandoned,
      p.Onto m.place := by simp [State.restart]
  cases tried with
  | first => exact ⟨inside, placed⟩
  | second _ missed =>
      have kept := placed_attempt settings fuel .varDef placed
      rw [missed] at kept
      exact ⟨within_of_attempt inside missed, kept⟩

/-- What reading one definition reports quotes the lines of the places it names. -/
theorem StepsTo.quotes (steps : StepsTo source settings fuel p progress q after) :
    ∃ batch, after.diagnostics = progress.diagnostics.pushAll batch ∧
      ∀ d ∈ batch, d.Quotes source p := by
  cases steps with
  | global _ matched _ =>
      have kept := placed_attempt (s := progress.state.restart p) (p := p) settings fuel .varDef
        (by simp [State.restart])
      rw [matched] at kept
      exact ⟨_, rfl, quotes_diagnoseNumber source fun m noted =>
        kept m (List.mem_append_left _ noted)⟩
  | function tried matched _ =>
      have kept := placed_attempt settings fuel .funDef tried.placed.2
      rw [matched] at kept
      exact ⟨_, rfl, quotes_diagnoseNumber source fun m noted =>
        kept m (List.mem_append_left _ noted)⟩
  | @failed s t tried missed =>
      obtain ⟨inside, placed⟩ := tried.placed
      have kept := placed_attempt settings fuel .funDef placed
      rw [missed] at kept
      have inside' := (Lasting.within p).expect t "end of input" (.refl p)
        (within_of_attempt inside missed)
      refine ⟨_, rfl, quotes_failure source settings inside' fun m noted => kept m ?_⟩
      rw [(t.kept_expect p "end of input").1] at noted
      exact List.mem_append_right _ noted

/-- What is stored quotes the lines of the places it names, if that was so before. -/
theorem definitions_quote {start : Cursor} {steps : Nat} {reading : Reading}
    (ahead : (Position.ofText source.text).LeadsTo p)
    (repeats : p.rest.length < settings.repeats)
    (enough : Rule.all.length * p.rest.length + Rule.all.length ≤ fuel)
    (read : definitions source settings fuel start steps p progress = some reading)
    (quotes : ∀ d ∈ progress.diagnostics.stored, d.Quotes source (.ofText source.text)) :
    ∀ d ∈ reading.diagnostics.stored, d.Quotes source (.ofText source.text) := by
  induction steps generalizing p progress with
  | zero => simp [definitions] at read
  | succ steps ih =>
      unfold definitions at read
      split at read
      · obtain rfl := Option.some.inj read
        exact quotes
      · split at read
        · obtain rfl := Option.some.inj read
          exact quotes
        · rename_i more
          have more : p.isEnd = false := Bool.not_eq_true _ ▸ more
          obtain ⟨q, after, next, stepped⟩ := definitionStep_spec source progress repeats enough
          obtain ⟨batch, pushed, quoting⟩ := (definitionStep_eq_next_iff.mp next).quotes
          have shorter := stepped.length_lt more
          have less := Nat.mul_le_mul_left Rule.all.length shorter.le
          simp only [next] at read
          refine ih (ahead.trans stepped.leadsTo) (by omega) (by omega) read ?_
          rw [pushed, Diagnostics.stored_pushAll]
          refine List.forall_mem_append.mpr ⟨quotes, fun d member => ?_⟩
          obtain ⟨place, onto, named⟩ := quoting d (List.mem_of_mem_take member)
          exact ⟨place, ahead.onto onto, named⟩

theorem stored_quotes (limits : Limits) (source : Source) :
    ∀ d ∈ (ofSource limits source).diagnostics.stored, d.Quotes source (.ofText source.text) := by
  obtain ⟨reading, read⟩ := Option.isSome_iff_exists.mp (run?_isSome true limits source)
  have ahead := Position.leadsTo_skipGap (.ofText source.text)
  obtain ⟨repeats, enough⟩ := enough_ahead ahead
  simp only [ofSource, read, Option.getD_some]
  exact definitions_quote ahead repeats enough read (by simp [Diagnostics.empty])

end Reading

/-! ## Coherence -/

/--
Cursors are coherent and agree with their source. In a source of fewer than 2^32 - 1 characters,
every cursor that scans hand out stands between two characters, counts the bytes, the newlines and
the characters of its line before it in numbers that fit 32 bits, and the line it names is there and
is the line in which it stands. Every diagnostic of the source quotes the line of its place. The
bytes of each line that is found lie inside the source, between whole characters.
-/
theorem Source.cursors_coherent (source : Source) (short : source.text.length < bound32 - 1) :
    (∀ place, source.Scanned place →
      place.offset ≤ source.text.utf8ByteSize ∧ place.line < bound32 ∧ place.col < bound32 ∧
        ∃ before after, place.Divides source before after ∧
          source.Shows place.line (lineBefore before ++ lineAfter after)) ∧
    (∀ limits, ∀ d ∈ (Reading.ofSource limits source).diagnostics.stored,
      ∃ place : Cursor, ∃ before after,
        d.span = place.point ∧ place.Divides source before after ∧
        source.line? place.line = some d.sourceLine ∧
          source.Shows place.line (lineBefore before ++ lineAfter after)) ∧
    ∀ n, (source.lineRange? n).isSome = (source.line? n).isSome ∧
      ∀ start stop, source.lineRange? n = some (start, stop) →
        start ≤ stop ∧ stop ≤ source.text.utf8ByteSize ∧
          ∃ before line after, source.text.toList = before ++ (line ++ after) ∧
            start = String.utf8Len before ∧ stop = String.utf8Len (before ++ line) ∧
              source.Shows n line := by
  have shows_of {place : Cursor} {before after : List Char}
      (divides : place.Divides source before after) :
      source.Shows place.line (lineBefore before ++ lineAfter after) := by
    rw [divides.line]
    exact source.shows_line divides.text
  refine ⟨fun place scanned => ?_, fun limits d stored => ?_, fun n =>
    ⟨source.isSome_lineRange? n, fun start stop found => ?_⟩⟩
  · obtain ⟨before, after, divides⟩ := Cursor.divides_of_onto scanned.onto
    have few := divides.line_add_col_le
    have col := divides.col
    have line := divides.line
    exact ⟨divides.offset_le, by omega, by omega, before, after, divides, shows_of divides⟩
  · obtain ⟨place, onto, span_eq, line_eq⟩ := Reading.stored_quotes limits source d stored
    obtain ⟨before, after, divides⟩ := Cursor.divides_of_onto onto
    have shown := shows_of divides
    refine ⟨place, before, after, span_eq, divides, ?_, shown⟩
    obtain ⟨text, returns, found, -⟩ := shown
    rw [line_eq, found]
    rfl
  · obtain ⟨before, line, after, text_eq, rfl, rfl, shown⟩ := lineRange?_spec found
    have size := String.utf8Len_toList source.text
    rw [text_eq] at size
    simp only [String.utf8Len_append] at size ⊢
    exact ⟨by omega, by omega, before, line, after, text_eq, rfl, by simp, shown⟩

/-- A letter of two bytes, a comment, a malformed number and carriage returns. -/
def Source.mixed : Source := ⟨"t", "é // x\n 1.2x\r\nfun"⟩

theorem Source.cursors_coherent_mixed :
    mixed.text.length < bound32 - 1 ∧ mixed.Scanned ⟨12, 2, 5⟩ ∧
      (∃ before after, Cursor.Divides ⟨12, 2, 5⟩ mixed before after ∧
        mixed.Shows 2 (lineBefore before ++ lineAfter after)) ∧
      ∃ d ∈ (Reading.ofSource {} mixed).diagnostics.stored,
        mixed.line? d.span.startLine = some d.sourceLine := by
  have short : mixed.text.length < bound32 - 1 := by decide
  have coherent := mixed.cursors_coherent short
  have moved : (Position.seek mixed .start).next? =
      some ('é', ⟨⟨2, 1, 2⟩, " // x\n 1.2x\r\nfun".toList⟩) := rfl
  have first : mixed.Scanned ⟨2, 1, 2⟩ := .bump .start moved
  have second : mixed.Scanned ⟨9, 2, 2⟩ := .gap first
  have scanned : mixed.Scanned ⟨12, 2, 5⟩ := .bad second rfl
  refine ⟨short, scanned, (coherent.1 _ scanned).2.2.2, ?_⟩
  have stored : 0 < (Reading.ofSource {} mixed).diagnostics.stored.length := by decide +kernel
  obtain ⟨d, member⟩ := List.exists_mem_of_length_pos stored
  obtain ⟨place, -, -, span_eq, -, line_eq, -⟩ := coherent.2.1 {} d member
  exact ⟨d, member, by rw [span_eq]; exact line_eq⟩

end Formwork
