import Formwork.Diagnostic.Json
import Formwork.Proofs.Spelling

/-!
# Diagnostics read back

Diagnostics are written as a JSON text and read back from it. Whatever characters their texts hold,
nothing is lost but the limit of the collection, which is not written:
`Diagnostics.ofJson?_toJson`.
-/

namespace Formwork

open Json

/-- The numbers of a span fit 32 bits. -/
structure Span.Fits (s : Span) : Prop where
  startLine : s.startLine < bound32
  startCol : s.startCol < bound32
  endLine : s.endLine < bound32
  endCol : s.endCol < bound32

/-- The numbers of a diagnostic fit their sizes. -/
structure Diagnostic.Fits (d : Diagnostic) : Prop where
  code : d.code < bound16
  span : d.span.Fits

/-- The numbers of a collection of diagnostics fit their sizes. -/
structure Diagnostics.Fits (ds : Diagnostics) : Prop where
  stored : ∀ d ∈ ds.stored, d.Fits
  total : ds.total < bound64

/-! ## Documents that can be written -/

namespace Json.Document

theorem proper_ofNat (n : Nat) : (ofNat n).Proper := .number (Numeral.spelled_ofNat n)

theorem proper_ofMembers {members : List (String × Document)}
    (values : ∀ m ∈ members, m.2.Proper) : (ofMembers members).Proper :=
  .object (List.forall_mem_map.mpr fun _ _ => rfl) (List.forall_mem_map.mpr values)

theorem natBelow?_ofNat {n bound : Nat} (fits : n < bound) :
    (ofNat n).natBelow? bound = some n := by
  simp [ofNat, natBelow?, Numeral.ofNat, Numeral.natural?, Digits.value_ofNat, fits]

@[simp]
theorem string?_ofString (text : String) : (ofString text).string? = some text := rfl

end Json.Document

theorem Diagnostic.proper_toDocument (d : Diagnostic) : d.toDocument.Proper := by
  have texts : (Document.array (d.expected.map .ofString)).Proper :=
    .array (List.forall_mem_map.mpr fun text _ => .string text)
  have expected : ∀ m ∈ (if d.expected.isEmpty then []
      else [("expected", Document.array (d.expected.map .ofString))]), m.2.Proper := by
    split
    · simp
    · simpa using texts
  refine Document.proper_ofMembers ?_
  simp only [List.forall_mem_append, List.forall_mem_cons, Span.members, Document.proper_ofNat]
  refine ⟨⟨⟨⟨.string _, trivial, .string _, by simp⟩, ?_⟩, expected⟩, .string _, by simp⟩
  simp

theorem Diagnostics.proper_toDocument (ds : Diagnostics) : ds.toDocument.Proper := by
  have errors : (Document.array (ds.stored.map Diagnostic.toDocument)).Proper :=
    .array (List.forall_mem_map.mpr fun d _ => d.proper_toDocument)
  refine Document.proper_ofMembers ?_
  simpa using ⟨errors, Document.proper_ofNat ds.total⟩

/-! ## Reading back -/

/-- A list of things that are each read back is read back. -/
theorem mapM_map_eq_some {α β : Type} {write : α → β} {read : β → Option α} {xs : List α}
    (inverse : ∀ x ∈ xs, read (write x) = some x) : (xs.map write).mapM read = some xs := by
  induction xs with
  | nil => rfl
  | cons x xs ih =>
      obtain ⟨first, others⟩ := List.forall_mem_cons.mp inverse
      simp [List.mapM_cons, first, ih others]

namespace Diagnostic

/-- What could have stood there as JSON, if there is anything to say. -/
def expectedDocument? (d : Diagnostic) : Option Document :=
  if d.expected.isEmpty then none else some (.array (d.expected.map .ofString))

theorem orDefault_expectedDocument? (d : Diagnostic) :
    Record.orDefault [] texts? d.expectedDocument? = some d.expected := by
  unfold expectedDocument?
  split
  · rename_i none
    rw [List.isEmpty_iff.mp none]
    rfl
  · exact mapM_map_eq_some fun _ _ => rfl

/-- A diagnostic is written with members it knows, and each of them is found. -/
theorem exists_members (d : Diagnostic) :
    ∃ members, d.toDocument = .object members ∧
      (∀ m ∈ members, ∃ name ∈ memberNames, m.1 = some name) ∧
      Record.ofMembers? members memberNames =
        some [some (.ofString d.file), some (.ofNat d.code), some (.ofString d.message),
          some (.ofNat d.span.startLine), some (.ofNat d.span.startCol),
          some (.ofNat d.span.endLine), some (.ofNat d.span.endCol), d.expectedDocument?,
          some (.ofString d.sourceLine)] := by
  refine ⟨_, rfl, ?_, ?_⟩
  · cases d.expected.isEmpty <;> simp [Span.members, memberNames]
  · cases none : d.expected.isEmpty <;>
      simp [Span.members, memberNames, Record.ofMembers?, Record.field?, Record.valuesOf,
        expectedDocument?, none]

theorem ofDocument?_toDocument {d : Diagnostic} (fits : d.Fits) :
    Diagnostic.ofDocument? d.toDocument = some d := by
  obtain ⟨code, startLine, startCol, endLine, endCol⟩ := fits
  obtain ⟨members, same, names, values⟩ := d.exists_members
  rw [same]
  simp only [ofDocument?]
  rw [if_pos]
  · simp only [values]
    simp [Document.natBelow?_ofNat, orDefault_expectedDocument?, *]
  · refine List.all_eq_true.mpr fun m mem => ?_
    obtain ⟨name, listed, found⟩ := names m mem
    simp [found, listed]

end Diagnostic

theorem Diagnostics.ofDocument?_toDocument {ds : Diagnostics} (fits : ds.Fits) :
    Diagnostics.ofDocument? ds.toDocument = some { ds with limit := 0 } := by
  have errors : (ds.stored.map Diagnostic.toDocument).mapM Diagnostic.ofDocument? =
      some ds.stored :=
    mapM_map_eq_some fun d mem => Diagnostic.ofDocument?_toDocument (fits.stored d mem)
  simp [toDocument, Document.ofMembers, ofDocument?, Record.fields?, Record.ofMembers?,
    Record.field?, Record.valuesOf, Document.array?, Document.natBelow?_ofNat fits.total, errors]

/--
Diagnostics survive JSON. Whatever their texts hold, and however many there are, the text that a
collection is written as is JSON, and reading it gives back the same diagnostics in the same order
and the same count; only the limit is not written.
-/
theorem Diagnostics.ofJson?_toJson (ds : Diagnostics) (fits : ds.Fits) :
    ds.toDocument.Spelled ds.toJson.toList ∧
      Diagnostics.ofJson? ds.toJson = some { ds with limit := 0 } := by
  have proper := ds.proper_toDocument
  constructor
  · simpa [toJson, Document.compact] using proper.spelled_compactChars
  · simp [ofJson?, toJson, proper.read?_compact, ofDocument?_toDocument fits]

/-- Texts with all that must be escaped, empty texts, the largest numbers. -/
def Diagnostics.awkward : Diagnostics where
  stored := [
    { file := "a\\b\".gen", code := 65535, message := "\x00\t\x1f\n/é𝄞", sourceLine := "\"\\\"",
      span := ⟨4294967295, 0, 4294967295, 1⟩, expected := ["\"\\n\"", ""] },
    { file := "", code := 0, message := "", sourceLine := "", span := ⟨1, 1, 1, 1⟩,
      expected := [] }]
  total := 18446744073709551615
  limit := 2

theorem Diagnostics.ofJson?_toJson_awkward :
    awkward.Fits ∧ awkward.toDocument.Spelled awkward.toJson.toList ∧
      Diagnostics.ofJson? awkward.toJson = some { awkward with limit := 0 } := by
  have fits : awkward.Fits := by
    refine ⟨?_, by decide⟩
    simp only [awkward, List.forall_mem_cons]
    exact ⟨⟨by decide, by decide, by decide, by decide, by decide⟩,
      ⟨by decide, by decide, by decide, by decide, by decide⟩, by simp⟩
  exact ⟨fits, Diagnostics.ofJson?_toJson awkward fits⟩

end Formwork
