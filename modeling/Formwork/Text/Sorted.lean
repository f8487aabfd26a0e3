/-!
# Sorted texts

Lists of distinct texts in increasing order of their characters.
-/

namespace Formwork

/-- A list of distinct texts in increasing order, with one more text put in its place. -/
def insertText (text : String) : List String → List String
  | [] => [text]
  | other :: others =>
    if text < other then text :: other :: others
    else if text = other then other :: others
    else other :: insertText text others

@[simp]
theorem mem_insertText {text other : String} {texts : List String} :
    other ∈ insertText text texts ↔ other = text ∨ other ∈ texts := by
  induction texts with
  | nil => simp [insertText]
  | cons head tail ih =>
    unfold insertText
    split
    · simp
    · split
      · rename_i h
        simp [h]
      · simp only [List.mem_cons, ih]
        exact or_left_comm

/-- The distinct texts of a list, in increasing order. -/
def sortTexts (texts : List String) : List String :=
  texts.foldl (fun sorted text => insertText text sorted) []

end Formwork
