import Mathlib.Data.List.Forall2
import Mathlib.Data.Option.Basic

/-!
# Lists that go together

Two lists go together when their members do, one by one. What can be found in one of them then has
a partner in the other one.
-/

namespace Formwork

/-- Where two lists go together, each member of the first one has a partner. -/
theorem exists_partner {α β : Type} {R : α → β → Prop} {xs : List α} {ys : List β}
    (pairs : List.Forall₂ R xs ys) {x : α} (member : x ∈ xs) : ∃ y ∈ ys, R x y := by
  induction pairs with
  | nil => exact absurd member List.not_mem_nil
  | @cons x' y _ _ related _ ih =>
      rcases List.mem_cons.mp member with rfl | later
      · exact ⟨y, List.mem_cons_self, related⟩
      · obtain ⟨y', listed, related'⟩ := ih later
        exact ⟨y', List.mem_cons_of_mem y listed, related'⟩

/-- The same names with related things give related things for each name. -/
theorem forall₂_lookup {α : Type} {R : α → α → Prop} {xs ys : List (String × α)}
    (related : List.Forall₂ (fun x y => x.1 = y.1 ∧ R x.2 y.2) xs ys) (name : String) :
    Option.Rel R (xs.lookup name) (ys.lookup name) := by
  induction related with
  | nil => exact .none
  | @cons x y xs ys first _ ih =>
      rw [List.lookup_cons, List.lookup_cons, ← first.1]
      cases name == x.1 with
      | true => exact .some first.2
      | false => exact ih

theorem eq_map_of_forall₂ {α β : Type} {g : α → β} {xs : List α} {ys : List β}
    (related : List.Forall₂ (fun x y => y = g x) xs ys) : ys = xs.map g := by
  have same : List.Forall₂ Eq (xs.map g) ys :=
    List.forall₂_map_left_iff.mpr (related.imp fun _ _ => Eq.symm)
  rw [List.forall₂_eq_eq_eq] at same
  exact same.symm

theorem optionRel_imp {α : Type} {R S : α → α → Prop} (weaker : ∀ a b, R a b → S a b)
    {x y : Option α} (related : Option.Rel R x y) : Option.Rel S x y := by
  cases related with
  | none => exact .none
  | some related => exact .some (weaker _ _ related)

end Formwork
