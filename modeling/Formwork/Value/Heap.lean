import Formwork.Value.Basic

/-!
# The heap

The heap holds the contents of all lists and maps. Collections are numbered in the order they are
made and are never given up; changing one changes no other.
-/

namespace Formwork

/-- The entries of a map in the order their keys were first put in. -/
abbrev Entries := List (Value × Value)

/-- The contents of all lists and maps. -/
structure Heap where
  /-- The items of each list. -/
  lists : Array (Array Value)
  /-- The entries of each map. -/
  maps : Array Entries
  /-- How many function values have been made. -/
  functions : Nat
deriving Inhabited

namespace Heap

/-- The heap without any collections. -/
def empty : Heap := ⟨#[], #[], 0⟩

/-- The number of collections. -/
def size (h : Heap) : Nat := h.lists.size + h.maps.size

/-- The items of a list. -/
def items (h : Heap) (id : Nat) : Array Value := h.lists[id]?.getD #[]

/-- The entries of a map. -/
def entries (h : Heap) (id : Nat) : Entries := h.maps[id]?.getD []

/-- A new list. -/
def newList (h : Heap) (items : Array Value) : Value × Heap :=
  (.list h.lists.size, { h with lists := h.lists.push items })

/-- A new map. -/
def newMap (h : Heap) (entries : Entries) : Value × Heap :=
  (.map h.maps.size, { h with maps := h.maps.push entries })

/-- A new function value. -/
def newFunction (h : Heap) (function : FunctionDef) (scope : ScopeId) : Value × Heap :=
  (.function ⟨h.functions, function, scope⟩, { h with functions := h.functions + 1 })

/-- The heap where a list has one more item. -/
def pushItem (h : Heap) (id : Nat) (item : Value) : Heap :=
  { h with lists := h.lists.modify id (·.push item) }

/-- The heap where one item of a list is another. -/
def setItem (h : Heap) (id index : Nat) (item : Value) : Heap :=
  { h with lists := h.lists.modify id (·.setIfInBounds index item) }

/-- The heap where a map has other entries. -/
def setEntries (h : Heap) (id : Nat) (entries : Entries) : Heap :=
  { h with maps := h.maps.setIfInBounds id entries }

/-! ## What each change does to each collection -/

variable (h : Heap)

theorem items_newList (items : Array Value) (id : Nat) :
    (h.newList items).2.items id = if id = h.lists.size then items else h.items id := by
  simp only [newList, Heap.items, Array.getElem?_push]
  split <;> rfl

theorem entries_newMap (entries : Entries) (id : Nat) :
    (h.newMap entries).2.entries id = if id = h.maps.size then entries else h.entries id := by
  simp only [newMap, Heap.entries, Array.getElem?_push]
  split <;> rfl

theorem items_pushItem (id : Nat) (item : Value) (other : Nat) :
    (h.pushItem id item).items other =
      if id = other ∧ id < h.lists.size then (h.items other).push item else h.items other := by
  simp only [pushItem, Heap.items, Array.getElem?_modify]
  grind

theorem items_setItem (id index : Nat) (item : Value) (other : Nat) :
    (h.setItem id index item).items other =
      if id = other then (h.items other).setIfInBounds index item else h.items other := by
  simp only [setItem, Heap.items, Array.getElem?_modify]
  cases h.lists[other]? <;> grind

theorem entries_setEntries (id : Nat) (entries : Entries) (other : Nat) :
    (h.setEntries id entries).entries other =
      if id = other ∧ id < h.maps.size then entries else h.entries other := by
  simp only [setEntries, Heap.entries, Array.getElem?_setIfInBounds]
  grind

end Heap

end Formwork
