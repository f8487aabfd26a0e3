import Formwork.Proofs.Comparison
import Formwork.Value.Text

/-!
# Values laid out

`Heap.text` bounds how deep collections are shown inside one another. `Heap.Shown` says without a
bound how a value is shown below others: a collection is laid out in full, in order, unless it is
being laid out already, and then a mark stands for it. A derivation is a layout that comes to an
end, and there is exactly one for each value, with the text that is shown:
`Heap.text_eq_iff_shown`.
-/

namespace Formwork

/-- How a value is shown that is not a collection. -/
def Value.plainText? : Value → Option String
  | .number x => some (numberText x)
  | .bool b => some (boolText b)
  | .unit => some "unit"
  | .function f => some (functionText f.function)
  | .list _ | .map _ => none

/-- What stands for a collection inside itself. -/
def backReference : String := "[...]"

/-- How a list is shown whose items have the given texts. -/
def listText (items : List String) : String := "[" ++ ", ".intercalate items ++ "]"

/-- How a map is shown whose keys and values have the given texts. -/
def mapText : List (String × String) → String
  | [] => "[:]"
  | entries => listText (entries.map fun (key, value) => key ++ ": " ++ value)

namespace Heap

variable (h : Heap)

/--
How a value is shown inside the collections `above`. Only these count for a back reference: a
collection that stands elsewhere too is shown again.
-/
inductive Shown : List Handle → Value → String → Prop
  | plain {above : List Handle} {v : Value} {t : String} (plain : v.plainText? = some t) :
      Shown above v t
  | back {above : List Handle} {v : Value} {c : Handle} (handle : v.handle? = some c)
      (mem : c ∈ above) : Shown above v backReference
  | list {above : List Handle} {i : Nat} {texts : List String} (new : .list i ∉ above)
      (length_eq : texts.length = (h.items i).size)
      (items : ∀ (n : Nat) x t, (h.items i)[n]? = some x → texts[n]? = some t →
        Shown (.list i :: above) x t) : Shown above (.list i) (listText texts)
  | map {above : List Handle} {i : Nat} {texts : List (String × String)} (new : .map i ∉ above)
      (length_eq : texts.length = (h.entries i).length)
      (keys : ∀ (n : Nat) entry t, (h.entries i)[n]? = some entry → texts[n]? = some t →
        Shown (.map i :: above) entry.1 t.1)
      (values : ∀ (n : Nat) entry t, (h.entries i)[n]? = some entry → texts[n]? = some t →
        Shown (.map i :: above) entry.2 t.2) : Shown above (.map i) (mapText texts)

/-! ## One layer -/

section Unfolding

variable (fuel : Nat) {above : List Handle}

theorem textWithin_plain {v : Value} {t : String} (plain : v.plainText? = some t) :
    h.textWithin fuel above v = t := by
  cases v <;> simp_all [Value.plainText?, textWithin]

theorem textWithin_back {v : Value} {c : Handle} (handle : v.handle? = some c)
    (mem : c ∈ above) : h.textWithin fuel above v = backReference := by
  cases fuel <;> cases v <;> simp_all [Value.handle?, textWithin, backReference]

theorem textWithin_list {i : Nat} (new : .list i ∉ above) :
    h.textWithin (fuel + 1) above (.list i) =
      listText ((h.items i).toList.map (h.textWithin fuel (.list i :: above))) := by
  simp [textWithin, new, listText]

theorem textWithin_map {i : Nat} (new : .map i ∉ above) :
    h.textWithin (fuel + 1) above (.map i) =
      mapText ((h.entries i).map (Prod.map (h.textWithin fuel (.map i :: above))
        (h.textWithin fuel (.map i :: above)))) := by
  cases found : h.entries i <;>
    simp [textWithin, new, found, mapText, listText, Function.comp_def]

end Unfolding

/-! ## The bound on nesting -/

/-- The collections above are different ones of the heap, and there is fuel for all others. -/
structure Room (fuel : Nat) (above : List Handle) : Prop where
  nodup : above.Nodup
  known : ∀ c ∈ above, c ∈ h.handles
  room : h.size < fuel + above.length

variable {h}

namespace Room

variable {fuel : Nat} {above : List Handle}

theorem start : h.Room (h.size + 1) [] := ⟨.nil, by simp, by simp⟩

theorem exists_succ (room : h.Room fuel above) : ∃ fuel', fuel = fuel' + 1 := by
  have bound : above.length ≤ h.size := by
    rw [← length_handles]
    exact (List.subperm_of_subset room.nodup room.known).length_le
  have short := room.room
  exact Nat.exists_eq_add_one_of_ne_zero (by omega)

theorem inside (room : h.Room (fuel + 1) above) {c : Handle} (new : c ∉ above)
    (known : c ∈ h.handles) : h.Room fuel (c :: above) where
  nodup := List.nodup_cons.mpr ⟨new, room.nodup⟩
  known := List.forall_mem_cons.mpr ⟨known, room.known⟩
  room := by
    have short := room.room
    simp only [List.length_cons]
    omega

end Room

/-- With room for all collections, what is shown is a layout without a bound. -/
theorem shown_textWithin {fuel : Nat} {above : List Handle} (room : h.Room fuel above)
    (v : Value) : h.Shown above v (h.textWithin fuel above v) := by
  -- Each layer takes one from the fuel and puts one more collection above, which keeps the room.
  induction fuel generalizing above v with
  | zero => exact absurd room.exists_succ (by simp)
  | succ fuel ih =>
      cases v with
      | list i =>
          by_cases mem : .list i ∈ above
          · rw [textWithin_back h (fuel + 1) (v := .list i) rfl mem]
            exact .back rfl mem
          · rw [textWithin_list h fuel mem]
            refine .list mem (by simp) fun n x t at_n text => ?_
            obtain rfl : h.textWithin fuel (.list i :: above) x = t := by
              simpa [at_n] using text
            exact ih (room.inside mem (list_mem_handles (Array.mem_of_getElem? at_n))) x
      | map i =>
          by_cases mem : .map i ∈ above
          · rw [textWithin_back h (fuel + 1) (v := .map i) rfl mem]
            exact .back rfl mem
          · rw [textWithin_map h fuel mem]
            have below {n : Nat} {entry : Value × Value} (at_n : (h.entries i)[n]? = some entry) :=
              room.inside mem (map_mem_handles (List.mem_of_getElem? at_n))
            refine .map mem (by simp) (fun n entry t at_n text => ?_) fun n entry t at_n text => ?_
            · obtain rfl : Prod.map _ _ entry = t := by simpa [at_n] using text
              exact ih (below at_n) entry.1
            · obtain rfl : Prod.map _ _ entry = t := by simpa [at_n] using text
              exact ih (below at_n) entry.2
      | _ =>
          rw [textWithin_plain h (fuel + 1) rfl]
          exact .plain rfl

/-- Every layout without a bound is what is shown with room for all collections. -/
theorem Shown.textWithin_eq {above : List Handle} {v : Value} {t : String}
    (shown : h.Shown above v t) {fuel : Nat} (room : h.Room fuel above) :
    h.textWithin fuel above v = t := by
  induction shown generalizing fuel with
  | plain plain => exact textWithin_plain h fuel plain
  | back handle mem => exact textWithin_back h fuel handle mem
  | @list above i texts new length_eq items ih =>
      obtain ⟨fuel, rfl⟩ := room.exists_succ
      rw [textWithin_list h fuel new]
      congr 1
      refine List.ext_getElem (by simp [length_eq]) fun n left right => ?_
      have at_n := Array.getElem?_eq_getElem (length_eq ▸ right)
      have inside := room.inside new (list_mem_handles (Array.mem_of_getElem? at_n))
      simpa using ih n _ _ at_n (List.getElem?_eq_getElem right) inside
  | @map above i texts new length_eq keys values key value =>
      obtain ⟨fuel, rfl⟩ := room.exists_succ
      rw [textWithin_map h fuel new]
      congr 1
      refine List.ext_getElem (by simp [length_eq]) fun n left right => ?_
      have at_n := List.getElem?_eq_getElem (length_eq ▸ right)
      have inside := room.inside new (map_mem_handles (List.mem_of_getElem? at_n))
      have text := List.getElem?_eq_getElem right
      rw [List.getElem_map]
      exact Prod.ext (key n _ _ at_n text inside) (value n _ _ at_n text inside)

/--
Showing a value ends, and marks exactly the back references. In every heap, collections sharing and
holding one another in any way, as items, as values and as keys, each value has exactly one layout
in which a collection is laid out in full unless it stands inside itself, and its text is what is
shown.
-/
theorem text_eq_iff_shown (h : Heap) (v : Value) (t : String) : h.text v = t ↔ h.Shown [] v t := by
  constructor
  · rintro rfl
    exact shown_textWithin .start v
  · intro shown
    exact shown.textWithin_eq .start

-- A map with a list as its key and as its value, where the list holds the map and a truth value.
example :
    text ⟨#[#[.map 0, .bool true]], #[[(.list 0, .list 0)]], 0⟩ (.map 0) =
      "[[[...], true]: [[...], true]]" := by decide +kernel

end Heap

end Formwork
