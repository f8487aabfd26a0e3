import Formwork.Proofs.SourceOrder

/-!
# The limit of diagnostics only cuts off

`Reading.ofSource_cutoff`: under a lower limit of diagnostics the same diagnostics are found in the
same order, up to the definition with which the limit is reached, and only the first of them are
stored. A reading that is not stopped is the same under every higher limit.

Diagnostics are never looked at while a definition is read, so each definition reports the same
whatever was reported before (`Reading.definitionStep_reports`). Two readings under different limits
go through the same definitions until the lower limit is reached.
-/

namespace Formwork

namespace Diagnostics

/-- All that was found is counted, and as much of it as there is room for is stored. -/
structure Records (ds : Diagnostics) (found : List Diagnostic) : Prop where
  stored : ds.stored = found.take ds.limit
  total : ds.total = found.length

theorem records_empty (limit : Nat) : (empty limit).Records [] := ⟨by simp [empty], rfl⟩

namespace Records

variable {ds : Diagnostics} {found more : List Diagnostic}

theorem pushAll (records : ds.Records found) (more : List Diagnostic) :
    (ds.pushAll more).Records (found ++ more) where
  stored := by
    have room : ds.limit - (found.take ds.limit).length = ds.limit - found.length := by
      rw [List.length_take]
      omega
    rw [stored_pushAll, limit_pushAll, records.stored, room, List.take_append]
  total := by rw [total_pushAll, records.total, List.length_append]

theorem isFull_iff (records : ds.Records found) : ds.isFull = true ↔ ds.limit ≤ found.length := by
  simp [isFull, records.total]

theorem length_stored (records : ds.Records found) : ds.stored.length = min ds.limit ds.total := by
  rw [records.stored, records.total, List.length_take]

end Records

end Diagnostics

namespace Reading

/-! ## One definition -/

/-- A step adds the same diagnostics to whatever was reported before, and does all else alike. -/
def Reports (step : Progress → Step) (progress : Progress) (q : Position) (after : Progress)
    (more : List Diagnostic) : Prop :=
  ∀ ds, step { progress with diagnostics := ds } =
    .next q { after with diagnostics := ds.pushAll more }

section Step

variable {source : Source} {settings : Settings} {fuel : Nat} {p q : Position}
  {progress after : Progress}

theorem Reports.diagnostics_eq {step : Progress → Step} {more : List Diagnostic}
    (reports : Reports step progress q after more) (next : step progress = .next q after) :
    after.diagnostics = progress.diagnostics.pushAll more := by
  obtain ⟨-, pushed⟩ := Step.next.inj (next.symm.trans (reports progress.diagnostics))
  rw [pushed]

/-- What a definition reports does not depend on what was reported before. -/
theorem definitionStep_reports
    (next : definitionStep source settings fuel p progress = .next q after) :
    ∃ more, Reports (definitionStep source settings fuel p) progress q after more := by
  cases definitionStep_eq_next_iff.mp next with
  | global no_functions matched popped =>
      exact ⟨_, fun ds => definitionStep_eq_next_iff.mpr (.global no_functions matched popped)⟩
  | function tried matched popped =>
      exact ⟨_, fun ds => definitionStep_eq_next_iff.mpr (.function tried matched popped)⟩
  | failed tried missed =>
      exact ⟨_, fun ds => definitionStep_eq_next_iff.mpr (.failed tried missed)⟩

end Step

/-! ## All definitions -/

section Definitions

variable {source : Source} {settings : Settings} {fuel steps : Nat} {start : Cursor}
  {p : Position} {progress : Progress} {reading : Reading} {found : List Diagnostic}

/-- What is found is only added to, and there is a program unless the limit is reached. -/
theorem definitions_records
    (read : definitions source settings fuel start steps p progress = some reading)
    (records : progress.diagnostics.Records found) :
    reading.diagnostics.limit = progress.diagnostics.limit ∧
      (∃ more, reading.diagnostics.Records (found ++ more)) ∧
      (reading.program = none ↔ reading.diagnostics.isFull = true) := by
  induction steps generalizing p progress found with
  | zero => simp [definitions] at read
  | succ steps ih =>
      unfold definitions at read
      split at read
      · rename_i full
        obtain rfl := Option.some.inj read
        exact ⟨rfl, ⟨[], by simpa using records⟩, by simp [full]⟩
      · rename_i room
        split at read
        · obtain rfl := Option.some.inj read
          exact ⟨rfl, ⟨[], by simpa using records⟩, by simp [room]⟩
        · split at read
          · rename_i q after next
            obtain ⟨more, reports⟩ := definitionStep_reports next
            have pushed := reports.diagnostics_eq next
            obtain ⟨limit_eq, ⟨others, records'⟩, absent⟩ :=
              ih read (pushed ▸ records.pushAll more)
            refine ⟨?_, ⟨more ++ others, by simpa using records'⟩, absent⟩
            rw [limit_eq, pushed, Diagnostics.limit_pushAll]
          · exact absurd read (by simp)

/-- A reading under a limit compared with one under a higher limit. -/
structure Cutoff (reading other : Reading) : Prop where
  stored : reading.diagnostics.stored =
    other.diagnostics.stored.take (min reading.diagnostics.limit reading.diagnostics.total)
  total_le : reading.diagnostics.total ≤ other.diagnostics.total
  complete : reading.program ≠ none →
    other.program = reading.program ∧ other.diagnostics.stored = reading.diagnostics.stored ∧
      other.diagnostics.total = reading.diagnostics.total

/-- Where nothing was cut off, a higher limit makes no difference. -/
theorem cutoff_of_room {low high : Diagnostics} (records : low.Records found)
    (records' : high.Records found) (le : low.limit ≤ high.limit) (room : low.isFull = false)
    (program : Option Program) : Cutoff ⟨program, low⟩ ⟨program, high⟩ := by
  have few : found.length < low.limit := by
    rw [← Bool.not_eq_true, records.isFull_iff] at room
    omega
  have stored : low.stored = found := by
    rw [records.stored, List.take_of_length_le few.le]
  have stored' : high.stored = found := by
    rw [records'.stored, List.take_of_length_le (few.le.trans le)]
  have total : high.total = low.total := by rw [records'.total, records.total]
  refine ⟨?_, total.ge, fun _ => ⟨rfl, stored'.trans stored.symm, total⟩⟩
  simp only [stored, stored', records.total]
  rw [Nat.min_eq_right few.le, List.take_length]

/-- A reading that stops at its limit has found the beginning of what is found later. -/
theorem cutoff_of_full {low : Diagnostics} {more : List Diagnostic} {other : Reading}
    (records : low.Records found) (records' : other.diagnostics.Records (found ++ more))
    (le : low.limit ≤ other.diagnostics.limit) (full : low.isFull = true) :
    Cutoff ⟨none, low⟩ other := by
  have many := records.isFull_iff.mp full
  refine ⟨?_, ?_, fun complete => absurd rfl complete⟩
  · simp only [records.stored, records.total, records'.stored]
    rw [Nat.min_eq_left many, List.take_take, Nat.min_eq_left le,
      List.take_append_of_le_length many]
  · rw [records.total, records'.total, List.length_append]
    omega

/--
Two readings under different limits go through the same definitions, until the one with the lower
limit stops.
-/
theorem definitions_cutoff {ds : Diagnostics} {other : Reading}
    (read : definitions source settings fuel start steps p progress = some reading)
    (read' : definitions source settings fuel start steps p { progress with diagnostics := ds } =
      some other)
    (le : progress.diagnostics.limit ≤ ds.limit)
    (records : progress.diagnostics.Records found) (records' : ds.Records found) :
    Cutoff reading other := by
  induction steps generalizing p progress ds found with
  | zero => simp [definitions] at read
  | succ steps ih =>
      have further := definitions_records read' records'
      unfold definitions at read read'
      by_cases full : progress.diagnostics.isFull = true
      · rw [if_pos full] at read
        obtain rfl := Option.some.inj read
        obtain ⟨limit_eq, ⟨more, records''⟩, -⟩ := further
        exact cutoff_of_full records records'' (limit_eq ▸ le) full
      · have room : ¬ ds.isFull = true := by
          rw [records.isFull_iff] at full
          rw [records'.isFull_iff]
          omega
        rw [if_neg full] at read
        rw [if_neg room] at read'
        by_cases ends : p.isEnd = true
        · rw [if_pos ends] at read read'
          obtain rfl := Option.some.inj read
          obtain rfl := Option.some.inj read'
          exact cutoff_of_room records records' le (Bool.not_eq_true _ ▸ full) _
        · rw [if_neg ends] at read read'
          cases next : definitionStep source settings fuel p progress with
          | broken => simp [next] at read
          | next q after =>
              obtain ⟨more, reports⟩ := definitionStep_reports next
              have pushed := reports.diagnostics_eq next
              simp only [next] at read
              simp only [reports ds] at read'
              refine ih read read' ?_ (pushed ▸ records.pushAll more) (records'.pushAll more)
              rwa [pushed, Diagnostics.limit_pushAll, Diagnostics.limit_pushAll]

end Definitions

/--
The limit of diagnostics only cuts off. Of two limits the lower one stores the first diagnostics
that the higher one stores, as many as it found or has room for, and never finds more. There is no
program exactly when as many diagnostics were found as the limit allows, and where there is one, the
higher limit gives the same program and the same diagnostics.
-/
theorem ofSource_cutoff (source : Source) (maxNesting : Nat) {k K : Nat} (le : k ≤ K) :
    let low := ofSource ⟨k, maxNesting⟩ source
    let high := ofSource ⟨K, maxNesting⟩ source
    low.diagnostics.stored = high.diagnostics.stored.take (min k low.diagnostics.total) ∧
      low.diagnostics.stored.length = min k low.diagnostics.total ∧
      low.diagnostics.total ≤ high.diagnostics.total ∧
      (low.program = none ↔ k ≤ low.diagnostics.total) ∧
      (low.program ≠ none → high.program = low.program ∧
        high.diagnostics.stored = low.diagnostics.stored ∧
        high.diagnostics.total = low.diagnostics.total) := by
  obtain ⟨reading, read⟩ := Option.isSome_iff_exists.mp (run?_isSome true ⟨k, maxNesting⟩ source)
  obtain ⟨other, read'⟩ := Option.isSome_iff_exists.mp (run?_isSome true ⟨K, maxNesting⟩ source)
  obtain ⟨limit_eq, ⟨more, records⟩, absent⟩ :=
    definitions_records read (Diagnostics.records_empty k)
  have limit_eq : reading.diagnostics.limit = k := limit_eq
  obtain ⟨stored, total_le, complete⟩ := definitions_cutoff read read' le
    (Diagnostics.records_empty k) (Diagnostics.records_empty K)
  simp only [ofSource, read, read', Option.getD_some]
  rw [limit_eq] at stored
  refine ⟨stored, limit_eq ▸ records.length_stored, total_le, ?_, complete⟩
  rw [absent, Diagnostics.isFull, limit_eq, decide_eq_true_eq]

/-- Three diagnostics of one definition, of which a limit of two leaves out the last. -/
theorem ofSource_cutoff_three :
    ∃ low high,
      low = ofSource ⟨2, 64⟩ ⟨"t", "a b = [1x, 2y, 3z] const c d = ( fun e f() = g"⟩ ∧
      high = ofSource ⟨20, 64⟩ ⟨"t", "a b = [1x, 2y, 3z] const c d = ( fun e f() = g"⟩ ∧
      low.diagnostics.total = 3 ∧ high.diagnostics.total = 4 ∧
      low.diagnostics.stored = high.diagnostics.stored.take 2 ∧ low.program = none := by
  obtain ⟨stored, -, -, absent, -⟩ := ofSource_cutoff
    ⟨"t", "a b = [1x, 2y, 3z] const c d = ( fun e f() = g"⟩ 64 (show 2 ≤ 20 by decide)
  have total : (ofSource ⟨2, 64⟩
      ⟨"t", "a b = [1x, 2y, 3z] const c d = ( fun e f() = g"⟩).diagnostics.total = 3 := by
    decide +kernel
  rw [total] at stored absent
  exact ⟨_, _, rfl, rfl, total, by decide +kernel, stored, absent.mpr (by decide)⟩

end Reading

end Formwork
