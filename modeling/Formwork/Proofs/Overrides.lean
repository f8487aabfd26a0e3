import Mathlib.Data.List.Perm.Basic
import Mathlib.Data.Option.Basic
import Formwork.Config
import Formwork.Proofs.Exchange

/-!
# Configurations that say only some things

A written configuration gives some of its fields, in any order and among members that it does not
know; the others keep their defaults. `Record.Holds` says that an object holds given fields, without
saying how they are looked up, and `Config.Given.Written` says which texts give which fields. What a
configuration itself is written as gives all of them, so it is read back: `Config.ofJson_written`.
-/

namespace Formwork

open Json

/-! ## One member to a line -/

namespace Json.Document

theorem isBlank_newLine (depth : Nat) : IsBlank (newLine depth) := by
  intro c member
  obtain rfl | member := List.mem_cons.mp member
  · rfl
  · obtain ⟨-, rfl⟩ := List.mem_replicate.mp member
    rfl

/-- Items on lines of their own; blanks may follow the last one. -/
theorem spelledItems_prettyItems {items : List Document} {depth : Nat} (nonempty : items ≠ [])
    (spelled : ∀ d ∈ items, d.Spelled (d.prettyChars depth)) {after : List Char}
    (blank : IsBlank after) : SpelledItems items (prettyItems depth items ++ after) := by
  induction items with
  | nil => exact absurd rfl nonempty
  | cons item items ih =>
      obtain ⟨first, others⟩ := List.forall_mem_cons.mp spelled
      cases items with
      | nil =>
          exact ⟨newLine depth, _, after, isBlank_newLine depth, first, blank,
            by simp [prettyItems]⟩
      | cons item' items =>
          refine ⟨newLine depth ++ item.prettyChars depth, _, ?_, ih (by simp) others, ?_⟩
          · exact ⟨newLine depth, _, [], isBlank_newLine depth, first, by simp [IsBlank], by simp⟩
          · simp [prettyItems]

/-- Members on lines of their own; blanks may follow the last one. -/
theorem spelledMembers_prettyMembers {members : List (Option String × Document)} {depth : Nat}
    (nonempty : members ≠ []) (names : ∀ m ∈ members, m.1.isSome)
    (spelled : ∀ m ∈ members, m.2.Spelled (m.2.prettyChars depth)) {after : List Char}
    (blank : IsBlank after) : SpelledMembers members (prettyMembers depth members ++ after) := by
  induction members with
  | nil => exact absurd rfl nonempty
  | cons member members ih =>
      obtain ⟨name, value⟩ := member
      obtain ⟨named, named'⟩ := List.forall_mem_cons.mp names
      obtain ⟨first, others⟩ := List.forall_mem_cons.mp spelled
      obtain ⟨name, rfl⟩ := Option.isSome_iff_exists.mp named
      have member {after : List Char} (blank : IsBlank after) :
          SpelledMember (some name) value.Spelled
            ((newLine depth ++ quoted (some name)) ++ ':' ::
              (' ' :: value.prettyChars depth ++ after)) := by
        refine ⟨_, _, ?_, ?_, rfl⟩
        · exact ⟨newLine depth, _, [], isBlank_newLine depth, Text.quoted_quote name,
            by simp [IsBlank], by simp [quoted]⟩
        · exact ⟨[' '], _, after, by simp [IsBlank, Reader.isBlank], first, blank, by simp⟩
      cases members with
      | nil => simpa [prettyMembers, SpelledMembers] using member blank
      | cons member' members =>
          have blank_nil : IsBlank [] := by simp [IsBlank]
          exact ⟨_, _, member blank_nil, ih (by simp) named' others, by simp [prettyMembers]⟩

/-- What is written with one item or member to a line is one of the texts of the document. -/
theorem Proper.spelled_prettyChars {d : Document} (proper : d.Proper) (depth : Nat) :
    d.Spelled (d.prettyChars depth) := by
  induction proper generalizing depth with
  | null => rfl
  | bool b => cases b <;> rfl
  | number spelled => exact spelled
  | string text => exact Text.quoted_quote text
  | @array items _ ih =>
      cases items with
      | nil => exact ⟨[], by simp [SpelledItems, IsBlank], rfl⟩
      | cons item items =>
          refine ⟨_, spelledItems_prettyItems (by simp) (fun d mem => ih d mem (depth + 1))
            (isBlank_newLine depth), ?_⟩
          simp [prettyChars]
  | @object members names _ ih =>
      cases members with
      | nil => exact ⟨[], by simp [SpelledMembers, IsBlank], rfl⟩
      | cons member members =>
          refine ⟨_, spelledMembers_prettyMembers (by simp) names
            (fun m mem => ih m mem (depth + 1)) (isBlank_newLine depth), ?_⟩
          simp [prettyChars]

end Json.Document

/-! ## Fields among other members -/

namespace Json.Record

/-- A member whose name is a text. -/
def named (m : String × Document) : Option String × Document := (some m.1, m.2)

/-- The fields of a record that have a value, with their names. -/
def present : List String → List (Option Document) → List (String × Document)
  | name :: names, value :: values => value.toList.map (fun d => (name, d)) ++ present names values
  | _, _ => []

/--
The members of an object that gives some fields of a record their values: each of these once, in any
order, among members whose names the record does not know.
-/
def Holds (names : List String) (values : List (Option Document))
    (members : List (Option String × Document)) : Prop :=
  ∃ others : List (String × Document),
    (∀ m ∈ others, m.1 ∉ names) ∧ members.Perm ((present names values ++ others).map named)

theorem holds_present (names : List String) (values : List (Option Document)) :
    Holds names values ((present names values).map named) :=
  ⟨[], by simp, by simp⟩

theorem valuesOf_map_append (name : String) (first second : List (String × Document)) :
    valuesOf name ((first ++ second).map named) =
      valuesOf name (first.map named) ++ valuesOf name (second.map named) := by
  rw [List.map_append]
  exact List.filterMap_append

theorem valuesOf_eq_nil {name : String} {members : List (String × Document)}
    (absent : ∀ m ∈ members, m.1 ≠ name) : valuesOf name (members.map named) = [] := by
  refine List.filterMap_eq_nil_iff.mpr (List.forall_mem_map.mpr fun m member => ?_)
  simp [named, absent m member]

theorem valuesOf_self (name : String) (value : Option Document) :
    valuesOf name ((value.toList.map fun d => (name, d)).map named) = value.toList := by
  cases value <;> simp [valuesOf, named]

theorem mem_of_mem_present {names : List String} {values : List (Option Document)}
    {m : String × Document} (member : m ∈ present names values) : m.1 ∈ names := by
  fun_induction present names values with
  | case1 name names value values ih =>
      rcases List.mem_append.mp member with here | later
      · obtain ⟨d, -, rfl⟩ := List.mem_map.mp here
        exact List.mem_cons_self
      · exact List.mem_cons_of_mem name (ih later)
  | case2 => exact absurd member List.not_mem_nil

/-- Among the fields with a value, a name finds its own. -/
theorem valuesOf_present {names : List String} {values : List (Option Document)} {name : String}
    {value : Option Document} (distinct : names.Nodup) (pair : (name, value) ∈ names.zip values) :
    valuesOf name ((present names values).map named) = value.toList := by
  fun_induction present names values with
  | case1 name' names value' values ih =>
      obtain ⟨apart, distinct⟩ := List.nodup_cons.mp distinct
      rw [valuesOf_map_append]
      rcases List.mem_cons.mp pair with here | later
      · obtain ⟨rfl, rfl⟩ := Prod.mk.inj here
        have absent : ∀ m ∈ present names values, m.1 ≠ name := fun m member same =>
          apart (same ▸ mem_of_mem_present member)
        rw [valuesOf_self, valuesOf_eq_nil absent, List.append_nil]
      · have absent : ∀ m ∈ value'.toList.map fun d => (name', d), m.1 ≠ name := by
          rintro m member rfl
          obtain ⟨d, -, rfl⟩ := List.mem_map.mp member
          exact apart (List.of_mem_zip later).1
        rw [valuesOf_eq_nil absent, ih distinct later, List.nil_append]
  | case2 names values none_left =>
      cases names with
      | nil => exact absurd pair (by simp)
      | cons n names =>
          cases values with
          | nil => exact absurd pair (by simp)
          | cons v values => exact absurd rfl (none_left n names v values rfl)

variable {names : List String} {values : List (Option Document)}
  {members : List (Option String × Document)}

/-- Neither the order nor the members with other names matter to a field. -/
theorem Holds.field?_eq (holds : Holds names values members) (distinct : names.Nodup)
    {name : String} {value : Option Document} (pair : (name, value) ∈ names.zip values) :
    field? members name = some value := by
  obtain ⟨others, unknown, shuffled⟩ := holds
  have absent : ∀ m ∈ others, m.1 ≠ name := fun m member same =>
    unknown m member (same ▸ (List.of_mem_zip pair).1)
  have found : (valuesOf name members).Perm value.toList := by
    have same : (valuesOf name members).Perm
        (valuesOf name ((present names values ++ others).map named)) := shuffled.filterMap _
    rwa [valuesOf_map_append, valuesOf_present distinct pair, valuesOf_eq_nil absent,
      List.append_nil] at same
  unfold field?
  cases value with
  | none => rw [List.perm_nil.mp found]
  | some value => rw [List.perm_singleton.mp found]

theorem ofMembers?_eq {wanted : List String} {found : List (Option Document)}
    (lengths : found.length = wanted.length)
    (each : ∀ pair ∈ wanted.zip found, field? members pair.1 = some pair.2) :
    ofMembers? members wanted = some found := by
  induction wanted generalizing found with
  | nil => rw [List.length_eq_zero_iff.mp lengths]; rfl
  | cons name wanted ih =>
      obtain ⟨value, found, rfl⟩ := List.exists_cons_of_length_eq_add_one lengths
      obtain ⟨first, others⟩ := List.forall_mem_cons.mp each
      simp only [ofMembers?, first, ih (Nat.succ.inj lengths) others]

/-- The fields that are given are found, and no others. -/
theorem Holds.fields?_eq (holds : Holds names values members) (distinct : names.Nodup)
    (lengths : values.length = names.length) : fields? names (.object members) = some values := by
  have texts : ∀ m ∈ members, m.1.isSome = true := by
    intro m member
    obtain ⟨others, -, shuffled⟩ := holds
    obtain ⟨field, -, rfl⟩ := List.mem_map.mp (shuffled.mem_iff.mp member)
    rfl
  rw [fields?, if_pos (by exact List.all_eq_true.mpr texts)]
  exact ofMembers?_eq lengths fun pair member => holds.field?_eq distinct member

end Json.Record

/-! ## What is given -/

/-- A number that is given is read, and one that is not leaves the default. -/
theorem natField?_map_ofNat {bound default : Nat} {value : Option Nat}
    (fits : ∀ n ∈ value, n < bound) :
    natField? bound default (value.map .ofNat) = some (value.getD default) := by
  cases value with
  | none => rfl
  | some n => exact Document.natBelow?_ofNat (fits n rfl)

/-- Which limits of reading are given. -/
structure Limits.Given where
  /-- The number of diagnostics that are stored. -/
  maxErrors : Option Nat
  /-- The depth of nesting. -/
  maxNesting : Option Nat
deriving DecidableEq, Repr

namespace Limits.Given

/-- The numbers that are given fit their sizes. -/
structure Fits (g : Given) : Prop where
  maxErrors : ∀ n ∈ g.maxErrors, n < bound64
  maxNesting : ∀ n ∈ g.maxNesting, n < bound32

/-- What is given in place of what other limits say. -/
def override (g : Given) (l : Limits) : Limits :=
  ⟨g.maxErrors.getD l.maxErrors, g.maxNesting.getD l.maxNesting⟩

/-- An object gives these limits and no others. -/
def Describes (g : Given) (d : Document) : Prop :=
  ∃ members, d = .object members ∧
    Record.Holds ["max_errors", "max_nesting"]
      [g.maxErrors.map .ofNat, g.maxNesting.map .ofNat] members

theorem ofDocument?_eq {g : Given} {d : Document} (fits : g.Fits) (describes : g.Describes d) :
    Limits.ofDocument? d = some (g.override {}) := by
  obtain ⟨members, rfl, holds⟩ := describes
  simp [Limits.ofDocument?, holds.fields?_eq (by decide) rfl, natField?_map_ofNat fits.maxErrors,
    natField?_map_ofNat fits.maxNesting, override]

end Limits.Given

/-- Which limits of a run are given. -/
structure Budget.Given where
  /-- The number of instructions. -/
  maxInstructions : Option Nat
  /-- The number of milliseconds. -/
  maxMillis : Option Nat
  /-- The depth of calls. -/
  maxCallDepth : Option Nat
deriving DecidableEq, Repr

namespace Budget.Given

/-- The numbers that are given fit their sizes. -/
structure Fits (g : Given) : Prop where
  maxInstructions : ∀ n ∈ g.maxInstructions, n < bound64
  maxMillis : ∀ n ∈ g.maxMillis, n < bound64
  maxCallDepth : ∀ n ∈ g.maxCallDepth, n < bound32

/-- What is given in place of what another budget says. -/
def override (g : Given) (b : Budget) : Budget :=
  ⟨g.maxInstructions.getD b.maxInstructions, g.maxMillis.getD b.maxMillis,
    g.maxCallDepth.getD b.maxCallDepth⟩

/-- An object gives these limits and no others. -/
def Describes (g : Given) (d : Document) : Prop :=
  ∃ members, d = .object members ∧
    Record.Holds ["max_instructions", "max_duration_ms", "max_call_depth"]
      [g.maxInstructions.map .ofNat, g.maxMillis.map .ofNat, g.maxCallDepth.map .ofNat] members

theorem ofDocument?_eq {g : Given} {d : Document} (fits : g.Fits) (describes : g.Describes d) :
    Budget.ofDocument? d = some (g.override {}) := by
  obtain ⟨members, rfl, holds⟩ := describes
  simp [Budget.ofDocument?, holds.fields?_eq (by decide) rfl,
    natField?_map_ofNat fits.maxInstructions, natField?_map_ofNat fits.maxMillis,
    natField?_map_ofNat fits.maxCallDepth, override]

end Budget.Given

namespace Config

/-- What a written configuration gives; a part that is there may still give nothing. -/
structure Given where
  /-- The limits of reading, if there is such a part. -/
  limits : Option Limits.Given
  /-- The limits of each run, if there is such a part. -/
  budget : Option Budget.Given
deriving DecidableEq, Repr

namespace Given

/-- The numbers that are given fit their sizes. -/
structure Fits (g : Given) : Prop where
  limits : ∀ l ∈ g.limits, l.Fits
  budget : ∀ b ∈ g.budget, b.Fits

/-- What is given in place of what another configuration says. -/
def override (g : Given) (c : Config) : Config where
  limits := g.limits.elim c.limits fun l => l.override c.limits
  budget := g.budget.elim c.budget fun b => b.override c.budget

/-- An object gives these parts and no others. -/
def Describes (g : Given) (d : Document) : Prop :=
  ∃ limits budget members, d = .object members ∧
    Option.Rel Limits.Given.Describes g.limits limits ∧
    Option.Rel Budget.Given.Describes g.budget budget ∧
    Record.Holds ["parser", "budget"] [limits, budget] members

/-- A text gives these parts and no others, with blanks around every token. -/
def Written (g : Given) (text : String) : Prop :=
  ∃ d, g.Describes d ∧ Padded d.Spelled text.toList

/-- A part that is given is read, and one that is not leaves the default. -/
theorem orDefault_eq {α γ : Type} {Describes : γ → Document → Prop} {read : Document → Option α}
    {override : γ → α} {given : Option γ} {found : Option Document} (default : α)
    (describes : Option.Rel Describes given found)
    (reads : ∀ g ∈ given, ∀ d, Describes g d → read d = some (override g)) :
    Record.orDefault default read found = some (given.elim default override) := by
  cases describes with
  | some describes => exact reads _ rfl _ describes
  | none => rfl

theorem ofDocument?_eq {g : Given} {d : Document} (fits : g.Fits) (describes : g.Describes d) :
    Config.ofDocument? d = some (g.override {}) := by
  obtain ⟨limits, budget, members, rfl, limits_given, budget_given, holds⟩ := describes
  have limits_eq := orDefault_eq {} limits_given fun l given _ =>
    Limits.Given.ofDocument?_eq (fits.limits l given)
  have budget_eq := orDefault_eq {} budget_given fun b given _ =>
    Budget.Given.ofDocument?_eq (fits.budget b given)
  simp [Config.ofDocument?, holds.fields?_eq (by decide) rfl, limits_eq, budget_eq, override]

theorem ofJson_eq {g : Given} {text : String} (fits : g.Fits) (written : g.Written text) :
    Config.ofJson text = .ok (g.override {}) := by
  obtain ⟨d, describes, spelled⟩ := written
  have read := Document.read?_of_spelled spelled
  rw [String.ofList_toList] at read
  simp [Config.ofJson, read, ofDocument?_eq fits describes]

end Given

/-! ## What a configuration is written as -/

/-- The numbers of a configuration fit their sizes. -/
structure Fits (c : Config) : Prop where
  maxErrors : c.limits.maxErrors < bound64
  maxNesting : c.limits.maxNesting < bound32
  maxInstructions : c.budget.maxInstructions < bound64
  maxMillis : c.budget.maxMillis < bound64
  maxCallDepth : c.budget.maxCallDepth < bound32

/-- All that a configuration says. -/
def given (c : Config) : Given where
  limits := some ⟨some c.limits.maxErrors, some c.limits.maxNesting⟩
  budget := some ⟨some c.budget.maxInstructions, some c.budget.maxMillis,
    some c.budget.maxCallDepth⟩

theorem override_given (c other : Config) : c.given.override other = c := rfl

theorem Fits.given {c : Config} (fits : c.Fits) : c.given.Fits where
  limits := by
    rintro l ⟨⟩
    exact ⟨by simpa using fits.maxErrors, by simpa using fits.maxNesting⟩
  budget := by
    rintro b ⟨⟩
    exact ⟨by simpa using fits.maxInstructions, by simpa using fits.maxMillis,
      by simpa using fits.maxCallDepth⟩

theorem proper_toDocument (c : Config) : c.toDocument.Proper := by
  have limits : c.limits.toDocument.Proper :=
    Document.proper_ofMembers (by simp [Document.proper_ofNat])
  have budget : c.budget.toDocument.Proper :=
    Document.proper_ofMembers (by simp [Document.proper_ofNat])
  exact Document.proper_ofMembers (by simp [limits, budget])

theorem describes_toDocument (c : Config) : c.given.Describes c.toDocument :=
  ⟨some c.limits.toDocument, some c.budget.toDocument, _, rfl,
    .some ⟨_, rfl, Record.holds_present _ _⟩, .some ⟨_, rfl, Record.holds_present _ _⟩,
    Record.holds_present _ _⟩

/-- A configuration is written with all that it says. -/
theorem written_toJson (c : Config) : c.given.Written c.toJson := by
  refine ⟨c.toDocument, c.describes_toDocument, padded_self ?_⟩
  simpa [toJson, Document.pretty] using c.proper_toDocument.spelled_prettyChars 0

/--
Reading a configuration. Whatever fields a JSON text gives, in whatever order, with whatever blanks
and among whatever members that the configuration does not know, it is read, and what it gives takes
the place of the defaults. What a configuration is written as is such a text, with nothing left out,
so it is read back.
-/
theorem ofJson_written :
    (∀ (g : Given) (text : String), g.Fits → g.Written text →
        Config.ofJson text = .ok (g.override {})) ∧
      ∀ c : Config, c.Fits → c.given.Written c.toJson ∧ Config.ofJson c.toJson = .ok c := by
  refine ⟨fun g text fits written => Given.ofJson_eq fits written, fun c fits => ?_⟩
  have read := Given.ofJson_eq fits.given c.written_toJson
  rw [override_given] at read
  exact ⟨c.written_toJson, read⟩

/-- A document with fields out of order, among members that use their names for other things. -/
def scattered : Document :=
  .ofMembers
    [("max_errors", .ofMembers [("parser", .array [.null, .bool true])]),
      ("budget", .ofMembers [("max_call_depth", .ofNat 4294967295), ("max_errors", .null),
        ("max_instructions", .ofNat 0)]),
      ("", .ofString "budget")]

/-- What it gives. -/
def scatteredGiven : Given := ⟨none, some ⟨some 0, none, some 4294967295⟩⟩

theorem describes_scattered : scatteredGiven.Describes scattered := by
  have budget : Budget.Given.Describes ⟨some 0, none, some 4294967295⟩
      (.ofMembers [("max_call_depth", .ofNat 4294967295), ("max_errors", .null),
        ("max_instructions", .ofNat 0)]) :=
    ⟨_, rfl, [("max_errors", .null)], by simp, .trans (.cons _ (.swap _ _ _)) (.swap _ _ _)⟩
  exact ⟨none, _, _, rfl, .none, .some budget,
    [("max_errors", .ofMembers [("parser", .array [.null, .bool true])]),
      ("", .ofString "budget")], by simp, .swap _ _ _⟩

theorem proper_scattered : scattered.Proper := by
  refine Document.proper_ofMembers ?_
  simp only [List.forall_mem_cons]
  refine ⟨Document.proper_ofMembers ?_, Document.proper_ofMembers ?_, .string _, by simp⟩
  · simp only [List.forall_mem_cons]
    exact ⟨.array (by simp [Document.Proper.null, Document.Proper.bool]), by simp⟩
  · simp [Document.proper_ofNat, Document.Proper.null]

/-- Fields in part and out of order, and the largest numbers written and read back. -/
theorem ofJson_written_scattered :
    ∃ text, text = " \x7b\"max_errors\":\x7b\"parser\":[null,true]\x7d,\"budget\":\x7b" ++
        "\"max_call_depth\":4294967295,\"max_errors\":null,\"max_instructions\":0\x7d," ++
        "\"\":\"budget\"\x7d\n" ∧
      scatteredGiven.Fits ∧ scatteredGiven.Written text ∧
      Config.ofJson text =
        .ok { budget := { maxInstructions := 0, maxCallDepth := 4294967295 } } ∧
      ∃ c : Config, c = ⟨⟨18446744073709551615, 0⟩, ⟨0, 18446744073709551615, 1⟩⟩ ∧ c.Fits ∧
        Config.ofJson c.toJson = .ok c := by
  have spelled : Padded scattered.Spelled (' ' :: scattered.compactChars ++ ['\n']) :=
    ⟨[' '], _, ['\n'], by simp [IsBlank, Reader.isBlank], proper_scattered.spelled_compactChars,
      by simp [IsBlank, Reader.isBlank], rfl⟩
  have written : scatteredGiven.Written
      (String.ofList (' ' :: scattered.compactChars ++ ['\n'])) :=
    ⟨scattered, describes_scattered, by rwa [String.toList_ofList]⟩
  have fits : scatteredGiven.Fits := by
    refine ⟨by simp [scatteredGiven], ?_⟩
    rintro b ⟨⟩
    exact ⟨by decide, by simp, by decide⟩
  have fits' : Config.Fits ⟨⟨18446744073709551615, 0⟩, ⟨0, 18446744073709551615, 1⟩⟩ := by
    constructor <;> decide
  exact ⟨_, by decide +kernel, fits, written, ofJson_written.1 _ _ fits written, _, rfl, fits',
    (ofJson_written.2 _ fits').2⟩

end Config

end Formwork
