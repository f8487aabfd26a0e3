import Formwork.Proofs.Definitions

/-!
# Accepted programs are derived

`Reading.derives_of_accepted`: a source that is accepted, under whatever limits, is a sequence of
well-formed tokens with gaps between them, and its program is the tree of a derivation of exactly
these tokens. The program says what the tokens say, nothing more, nothing less and in their order.
-/

namespace Formwork

theorem Diagnostics.total_pushAll (ds : Diagnostics) (more : List Diagnostic) :
    (ds.pushAll more).total = ds.total + more.length := by
  induction more generalizing ds with
  | nil => rfl
  | cons d more ih =>
      have later := ih (ds.push d)
      simp only [pushAll, List.foldl_cons, push, List.length_cons] at later ⊢
      omega

theorem Diagnostics.limit_pushAll (ds : Diagnostics) (more : List Diagnostic) :
    (ds.pushAll more).limit = ds.limit := by
  induction more generalizing ds with
  | nil => rfl
  | cons d more ih => exact ih (ds.push d)

/-- Pieces without malformed numbers are sound tokens. -/
theorem Yield.allSound_tokens {x : Yield} (none_malformed : x.malformed = []) :
    AllSound x.tokens := by
  intro token member
  obtain ⟨piece, among, rfl⟩ := List.mem_map.mp member
  have sound := List.filterMap_eq_nil_iff.mp none_malformed piece among
  unfold Piece.malformed? at sound
  cases token_eq : piece.token with
  | malformed literal tail => simp [token_eq] at sound
  | _ => rfl

/-- The numbers of a text are well formed. -/
theorem Spells.wellFormed {tokens : List Token} {text : List Char} (spells : Spells tokens text)
    {literal : Literal} (member : .number literal ∈ tokens) : literal.WellFormed := by
  obtain ⟨rest, -, spells⟩ := spells
  clear text
  induction tokens generalizing rest with
  | nil => simp at member
  | cons token tokens ih =>
      obtain ⟨after, next, -, fits, -, others⟩ := spells
      rcases List.mem_cons.mp member with rfl | member
      · exact fits.1
      · exact ih member next others

namespace Reading

theorem failure_ne_nil (source : Source) (settings : Settings) (s : State) (p : Position) :
    (failure source settings s p).1 ≠ [] := by
  unfold failure
  split <;> simp

/-- A definition that is read without diagnostics has sound tokens only. -/
theorem commit_total {source : Source} {ds : Diagnostics} {pending : List Malformed} {x : Yield}
    (no_errors : (ds.pushAll (pending.map (diagnoseNumber source))).total = 0)
    (pending_eq : pending = x.malformed) : ds.total = 0 ∧ AllSound x.tokens := by
  rw [Diagnostics.total_pushAll, List.length_map] at no_errors
  have none_pending : pending = [] := List.eq_nil_of_length_eq_zero (by omega)
  exact ⟨by omega, Yield.allSound_tokens (pending_eq ▸ none_pending)⟩

/-- What was read from a position on: definitions, and the program they are added to. -/
structure Rest (start : Cursor) (p : Position) (progress : Progress) (program : Program) where
  /-- The pieces up to the end of the text. -/
  pieces : List Piece
  /-- The end of the text. -/
  stop : Position
  /-- The tokens of global definitions. -/
  before : List Token
  /-- The tokens of functions. -/
  after : List Token
  globals : List VarDef
  functions : List FunctionDef
  spelled : Spelled p pieces stop
  ends : stop.rest = []
  tokens_eq : pieces.map Piece.token = before ++ after
  sound : AllSound (before ++ after)
  derives_globals : Derives .globals before globals
  derives_functions : Derives .functions after functions
  /-- Global definitions come before functions. -/
  order : progress.functions ≠ [] → before = [] ∧ globals = []
  program_eq : program =
    ⟨progress.globals.reverse ++ globals, progress.functions.reverse ++ functions,
      start.spanTo stop.cursor⟩

/-- If all is accepted in the end, every definition is derived and nothing was wrong before. -/
theorem definitions_accepted {source : Source} {settings : Settings} {fuel steps : Nat}
    {start : Cursor} {p : Position} {progress : Progress} {reading : Reading} {program : Program}
    (repeats : p.rest.length < settings.repeats)
    (enough : Rule.all.length * p.rest.length + Rule.all.length ≤ fuel)
    (read : definitions source settings fuel start steps p progress = some reading)
    (accepted : reading.accepted? = some program) :
    progress.diagnostics.total = 0 ∧ Nonempty (Rest start p progress program) := by
  induction steps generalizing p progress with
  | zero => simp [definitions] at read
  | succ steps ih =>
      unfold definitions at read
      split at read
      · obtain rfl := Option.some.inj read
        simp [accepted?] at accepted
      · split at read
        · rename_i ends
          obtain rfl := Option.some.inj read
          simp only [accepted?, Diagnostics.hasErrors, decide_eq_true_eq] at accepted
          split at accepted
          · simp at accepted
          · rename_i no_errors
            refine ⟨by omega, ⟨[], p, [], [], [], [], rfl, List.isEmpty_iff.mp ends, rfl,
              allSound_nil, .noGlobals, .noFunctions, fun _ => ⟨rfl, rfl⟩, ?_⟩⟩
            rw [List.append_nil, List.append_nil]
            exact (Option.some.inj accepted).symm
        · rename_i more
          obtain ⟨q, after, next, stepped⟩ :=
            definitionStep_spec source progress repeats enough
          have shorter := stepped.length_lt (Bool.not_eq_true _ ▸ more)
          have less := Nat.mul_le_mul_left Rule.all.length shorter.le
          simp only [next] at read
          obtain ⟨no_errors, ⟨rest⟩⟩ := ih (by omega) (by omega) read
          cases stepped with
          | @global x d q s no_functions described spelled pending =>
              obtain ⟨none_before, sound⟩ := commit_total no_errors pending
              obtain ⟨-, d', same, gives⟩ := described
              obtain rfl : d = d' := by simpa using same
              refine ⟨none_before, ⟨x.pieces ++ rest.pieces, rest.stop, x.tokens ++ rest.before,
                rest.after, d :: rest.globals, rest.functions, spelled.append rest.spelled,
                rest.ends, ?_, ?_, .globals (gives sound) rest.derives_globals,
                rest.derives_functions, fun functions => absurd no_functions functions, ?_⟩⟩
              · rw [List.map_append, rest.tokens_eq, List.append_assoc]
                rfl
              · rw [List.append_assoc]
                exact allSound_append.mpr ⟨sound, rest.sound⟩
              · exact rest.program_eq.trans (by simp [Progress.commit])
          | @function x f q s described spelled pending =>
              obtain ⟨none_before, sound⟩ := commit_total no_errors pending
              obtain ⟨-, f', same, gives⟩ := described
              obtain rfl : f = f' := by simpa using same
              obtain ⟨before_nil, globals_nil⟩ := rest.order (by simp)
              have tokens_eq := rest.tokens_eq
              have sound_rest := rest.sound
              rw [before_nil, List.nil_append] at tokens_eq sound_rest
              refine ⟨none_before, ⟨x.pieces ++ rest.pieces, rest.stop, [],
                x.tokens ++ rest.after, [], f :: rest.functions, spelled.append rest.spelled,
                rest.ends, ?_, ?_, .noGlobals,
                .functions (gives sound) rest.derives_functions, fun _ => ⟨rfl, rfl⟩, ?_⟩⟩
              · rw [List.map_append, tokens_eq]
                rfl
              · rw [List.nil_append]
                exact allSound_append.mpr ⟨sound, sound_rest⟩
              · exact rest.program_eq.trans (by simp [Progress.commit, globals_nil])
          | @failed s _ _ =>
              have reported := List.length_pos_iff.mpr (failure_ne_nil source settings s p)
              simp only [Diagnostics.total_pushAll] at no_errors
              omega

/--
The text of an accepted source is a sequence of well-formed tokens with gaps between them, its
program is the tree of a derivation of these tokens, and the program has the names, types, numbers,
truth values and operators of the tokens, each once and in their order.
-/
theorem derives_of_accepted (limits : Limits) (source : Source) {program : Program}
    (accepted : (ofSource limits source).accepted? = some program) :
    ∃ tokens, Spells tokens source.text.toList ∧ (∀ token ∈ tokens, token.isSound = true) ∧
      (∀ literal, .number literal ∈ tokens → literal.WellFormed) ∧
      Derives .program tokens program ∧
      Nonterminal.program.contents program = tokens.flatMap Token.contents := by
  obtain ⟨reading, read⟩ := Option.isSome_iff_exists.mp (run?_isSome true limits source)
  rw [ofSource, read, Option.getD_some] at accepted
  have near := (Position.leadsTo_skipGap (Position.ofText source.text)).length_le
  have less := Nat.mul_le_mul_left Rule.all.length near
  obtain ⟨-, ⟨pieces, stop, before, after, globals, functions, spelled, ends, tokens_eq, sound,
    derives_globals, derives_functions, -, rfl⟩⟩ := definitions_accepted (by simp only; omega)
      (by simp only [fuelFor, Nat.mul_add]; omega) read accepted
  have spells : Spells (before ++ after) source.text.toList := by
    refine ⟨_, Position.skips_skipGap (Position.ofText source.text), ?_⟩
    rw [← tokens_eq]
    exact spelled.spellsRest ends
  refine ⟨_, spells, sound, fun literal member => spells.wellFormed member,
    .program derives_globals derives_functions, ?_⟩
  exact (Derives.program derives_globals derives_functions).contents_eq.symm

theorem derives_of_accepted_power :
    ∃ program, (ofSource ⟨20, 64⟩
          ⟨"p", "num a = -1.5 fun num f(num x = 2) = x[0] ^ a < 3"⟩).accepted? = some program ∧
      ∃ tokens, Spells tokens "num a = -1.5 fun num f(num x = 2) = x[0] ^ a < 3".toList ∧
        (∀ token ∈ tokens, token.isSound = true) ∧
        (∀ literal, .number literal ∈ tokens → literal.WellFormed) ∧
        Derives .program tokens program ∧
        Nonterminal.program.contents program = tokens.flatMap Token.contents := by
  obtain ⟨program, accepted⟩ := Option.isSome_iff_exists.mp (show (ofSource ⟨20, 64⟩
    ⟨"p", "num a = -1.5 fun num f(num x = 2) = x[0] ^ a < 3"⟩).accepted?.isSome = true by
      decide +kernel)
  exact ⟨program, accepted, derives_of_accepted _ _ accepted⟩

end Reading

end Formwork
