import Formwork.Eval.Standard
import Formwork.Proofs.Comparison
import Formwork.Proofs.Ending
import Formwork.Script

/-!
# Comparisons beside a locked map

A map is locked while one of its entries is changed. A comparison that is not broken off there does
what it does while no map is locked (`Heap.compare_unhindered`), and it is broken off only if one of
the two values holds the locked map (`Heap.leads_of_compare_eq_locked`). So changing an entry of a
map puts the key in the way `Heap.insert?` does, unless the map is found inside one of its keys or
inside the new one: `setElement_map_cases`.
-/

namespace Formwork

/-! ## Comparisons that are not broken off -/

/-- The second computation does what the first one does, unless that one is broken off. -/
inductive Unhindered {α β : Type} (S : α → β → Prop) : Except Halt α → Option β → Prop
  | locked (y : Option β) : Unhindered S (.error .locked) y
  | endless : Unhindered S (.error .endless) none
  | answer {a : α} {b : β} (related : S a b) : Unhindered S (.ok a) (some b)

namespace Unhindered

variable {α β γ δ : Type} {S : α → β → Prop} {T : γ → δ → Prop}

theorem bind {x : Except Halt α} {y : Option β} {f : α → Except Halt γ} {g : β → Option δ}
    (first : Unhindered S x y) (later : ∀ a b, S a b → Unhindered T (f a) (g b)) :
    Unhindered T (x >>= f) (y >>= g) := by
  cases first with
  | locked y => exact .locked _
  | endless => exact .endless
  | answer related => exact later _ _ related

/-- Walks with tests that are not broken off. -/
def lifting : Lifting (Except Halt) Option := ⟨Unhindered, .answer, bind⟩

end Unhindered

namespace Heap

variable {h : Heap} {locked : Nat}

theorem equalWithin_unhindered {sameKey : Value → Value → Except Halt Bool}
    {sameKey' : Value → Value → Option Bool}
    (keys : ∀ x y, Unhindered Eq (sameKey x y) (sameKey' x y)) (fuel : Nat)
    (visiting : List (Handle × Handle)) (a b : Value) :
    Unhindered Eq (h.equalWithin (lookBeside locked) sameKey fuel visiting a b)
      (h.equalWithin lookFreely sameKey' fuel visiting a b) := by
  induction fuel generalizing visiting a b with
  | zero =>
      cases settled : a.settled? visiting b with
      | none =>
          rw [equalWithin_zero settled, equalWithin_zero settled]
          exact .endless
      | some r =>
          rw [equalWithin_of_settled settled, equalWithin_of_settled settled]
          exact .answer rfl
  | succ fuel ih =>
      obtain ⟨r, settled⟩ | ⟨i, j, rfl, rfl, new⟩ | ⟨i, j, rfl, rfl, new⟩ :=
        a.settled?_cases visiting b
      · rw [equalWithin_of_settled settled, equalWithin_of_settled settled]
        exact .answer rfl
      · rw [equalWithin_list new, equalWithin_list new]
        exact Unhindered.lifting.listAnswer fun x _ y _ => ih _ x y
      · rw [equalWithin_map new, equalWithin_map new]
        have looks : Unhindered Eq (lookBeside locked i j) (lookFreely i j) := by
          unfold lookBeside
          split
          · exact .locked _
          · exact .answer rfl
        exact .bind looks fun _ _ _ =>
          Unhindered.lifting.mapAnswer (fun l _ k _ => keys l.1 k.1) fun x _ y _ => ih _ x.2 y.2

/-- A comparison that is not broken off does what it does while no map is locked. -/
theorem compare_unhindered (a b : Value) :
    Unhindered Eq (h.compare (lookBeside locked) a b) (h.equal? a b) := by
  unfold equal? compare
  generalize h.pairs + 2 = levels
  induction levels generalizing a b with
  | zero => exact .endless
  | succ levels ih => exact equalWithin_unhindered ih (h.pairs + 1) [] a b

theorem insertLocked_unhindered (key value : Value) (entries : Entries) :
    Unhindered Eq (h.insertLocked locked key value entries) (h.insert? key value entries) := by
  have walk : Unhindered (List.Forall₂ fun x y => x.1 = y.1 ∧ x.2 = y.2)
      (h.insertLocked locked key value entries) (h.insert? key value entries) :=
    Unhindered.lifting.insertKey rfl rfl (List.forall₂_same.mpr fun _ _ => ⟨rfl, rfl⟩)
      (by rintro k _ rfl; exact compare_unhindered k key)
  generalize h.insertLocked locked key value entries = x at walk ⊢
  generalize h.insert? key value entries = y at walk ⊢
  cases walk with
  | locked y => exact .locked y
  | endless => exact .endless
  | answer related =>
      refine .answer (List.forall₂_eq_eq_eq ▸ related.imp fun x y same => ?_)
      exact Prod.ext same.1 same.2

/-! ## Comparisons that are broken off -/

/-- Computations that are broken off only under a condition. -/
def brokenOffOnly (condition : Prop) : Lifting (Except Halt) (Except Halt) where
  Rel S x y := (x = .error .locked → condition) ∧ ∀ a, x = .ok a → ∃ b, y = .ok b ∧ S a b
  pure related := ⟨nofun, fun _ same => ⟨_, rfl, Except.ok.inj same ▸ related⟩⟩
  bind {α β γ δ S T x y f g} first later := by
    cases x with
    | error halt =>
        refine ⟨fun broken => first.1 ?_, nofun⟩
        rw [Except.error.inj broken]
    | ok a =>
        obtain ⟨b, rfl, related⟩ := first.2 a rfl
        exact later a b related

theorem brokenOffOnly_iff {condition : Prop} {α : Type} {x : Except Halt α} :
    (brokenOffOnly condition).Rel Eq x x ↔ (x = .error .locked → condition) :=
  ⟨And.left, fun only => ⟨only, fun a same => ⟨a, same, rfl⟩⟩⟩

theorem leads_of_equalWithin_eq_locked {sameKey : Value → Value → Except Halt Bool}
    (keys : ∀ x y, sameKey x y = .error .locked → h.Leads x (.map locked) ∨ h.Leads y (.map locked))
    {fuel : Nat} {visiting : List (Handle × Handle)} {a b : Value}
    (broken : h.equalWithin (lookBeside locked) sameKey fuel visiting a b = .error .locked) :
    h.Leads a (.map locked) ∨ h.Leads b (.map locked) := by
  induction fuel generalizing visiting a b with
  | zero =>
      cases settled : a.settled? visiting b with
      | none => rw [equalWithin_zero settled] at broken; cases broken
      | some r => rw [equalWithin_of_settled settled] at broken; cases broken
  | succ fuel ih =>
      obtain ⟨r, settled⟩ | ⟨i, j, rfl, rfl, new⟩ | ⟨i, j, rfl, rfl, new⟩ :=
        a.settled?_cases visiting b
      · rw [equalWithin_of_settled settled] at broken
        cases broken
      · rw [equalWithin_list new] at broken
        refine brokenOffOnly_iff.mp ((brokenOffOnly _).listAnswer fun x mem y mem' => ?_) broken
        exact brokenOffOnly_iff.mpr fun broken => (ih broken).imp (.of_item mem) (.of_item mem')
      · by_cases here : i = locked ∨ j = locked
        · obtain rfl | rfl := here
          · exact .inl ⟨_, rfl, .refl⟩
          · exact .inr ⟨_, rfl, .refl⟩
        · have looks : lookBeside locked i j = .ok () := by simpa [lookBeside] using here
          rw [equalWithin_map new, looks] at broken
          refine brokenOffOnly_iff.mp ((brokenOffOnly _).mapAnswer (fun l mem k mem' => ?_)
            fun x mem y mem' => ?_) broken
          · exact brokenOffOnly_iff.mpr fun broken =>
              (keys _ _ broken).symm.imp (.of_key mem') (.of_key mem)
          · exact brokenOffOnly_iff.mpr fun broken =>
              (ih broken).imp (.of_value mem) (.of_value mem')

/-- A comparison is broken off only if one of the two values holds the locked map. -/
theorem leads_of_compare_eq_locked {a b : Value}
    (broken : h.compare (lookBeside locked) a b = .error .locked) :
    h.Leads a (.map locked) ∨ h.Leads b (.map locked) := by
  unfold compare at broken
  generalize h.pairs + 2 = levels at broken
  induction levels generalizing a b with
  | zero => cases broken
  | succ levels ih => exact leads_of_equalWithin_eq_locked (fun _ _ => ih) broken

theorem leads_of_insertLocked_eq_locked {key value : Value} {entries : Entries}
    (broken : h.insertLocked locked key value entries = .error .locked) :
    (∃ entry ∈ entries, h.Leads entry.1 (.map locked)) ∨ h.Leads key (.map locked) := by
  have walk := (brokenOffOnly ((∃ entry ∈ entries, h.Leads entry.1 (.map locked)) ∨
      h.Leads key (.map locked))).insertKey
    (K := fun k k' => k = k' ∧ ((∃ v, (k, v) ∈ entries) ∨ k = key)) (R := Eq)
    ⟨rfl, .inr rfl⟩ (rfl : value = value)
    (List.forall₂_same.mpr fun entry mem => ⟨⟨rfl, .inl ⟨entry.2, mem⟩⟩, rfl⟩)
    (by
      rintro k _ ⟨rfl, ⟨v, mem⟩ | rfl⟩
      · exact brokenOffOnly_iff.mpr fun broken =>
          (leads_of_compare_eq_locked broken).imp_left fun leads => ⟨(k, v), mem, leads⟩
      · exact brokenOffOnly_iff.mpr fun broken =>
          .inr (or_self_iff.mp (leads_of_compare_eq_locked broken)))
  exact walk.1 broken

end Heap

/-! ## Changing an entry -/

/--
An entry of a map is changed the way a key is put in; or a comparison of keys goes on forever, or it
is broken off because the map is found inside one of its keys or inside the new one, and then
nothing is changed.
-/
theorem setElement_map_cases {id : Nat} {key value : Value} {w w' : World}
    {r : Except EvalError Unit} (ends : (setElement (.map id) key value).Ends w r w') :
    (∃ entries, w.heap.insert? key value (w.heap.entries id) = some entries ∧
        r = .ok () ∧ w' = { w with heap := w.heap.setEntries id entries }) ∨
      (w.heap.insert? key value (w.heap.entries id) = none ∧
        r = .error .endlessComparison ∧ w' = w) ∨
      (((∃ entry ∈ w.heap.entries id, w.heap.Leads entry.1 (.map id)) ∨
          w.heap.Leads key (.map id)) ∧
        r = .error .lockedMap ∧ w' = w) := by
  have begins : setElement (.map id) key value w =
      (Action.insertLocked id key value (w.heap.entries id) >>= fun entries =>
        Action.change (·.setEntries id entries)) w := rfl
  have unhindered : Unhindered Eq (w.heap.insertLocked id key value (w.heap.entries id))
      (w.heap.insert? key value (w.heap.entries id)) :=
    Heap.insertLocked_unhindered key value (w.heap.entries id)
  have where_broken :
      w.heap.insertLocked id key value (w.heap.entries id) = .error .locked → _ :=
    Heap.leads_of_insertLocked_eq_locked
  rw [EStateM.ends_congr begins, EStateM.ends_bind] at ends
  simp only [Action.insertLocked, Action.ends_answer] at ends
  generalize w.heap.insertLocked id key value (w.heap.entries id) = outcome at *
  generalize w.heap.insert? key value (w.heap.entries id) = inserted at *
  cases unhindered with
  | locked inserted =>
      obtain ⟨e, rfl, stopped, unchanged⟩ | ⟨entries, t, ⟨answered, -⟩, -⟩ := ends
      · exact .inr (.inr ⟨where_broken rfl, congrArg _ (Except.error.inj stopped), unchanged⟩)
      · cases answered
  | endless =>
      obtain ⟨e, rfl, stopped, unchanged⟩ | ⟨entries, t, ⟨answered, -⟩, -⟩ := ends
      · exact .inr (.inl ⟨rfl, congrArg _ (Except.error.inj stopped), unchanged⟩)
      · cases answered
  | answer same =>
      obtain ⟨e, -, stopped, -⟩ | ⟨entries, t, ⟨answered, rfl⟩, changed⟩ := ends
      · cases stopped
      · obtain rfl := Except.ok.inj answered
        obtain rfl := same
        exact .inl ⟨_, rfl, (EStateM.ends_of_ok rfl).mp changed⟩

/-- Two empty maps are made, and both are put into one of them as keys. -/
def keyBesideItself : String :=
  "fun bool main() { map m = [:]; map n = [:]; m[m] = true; m[n] = true; true }"

-- The first key is the map that is being changed when the second one is compared with it.
example :
    (Script.compile {} "t" keyBesideItself).toOption.any (fun s =>
      match s.run .standard {} .steady "main" [] ⟨.empty, #[]⟩ with
      | .error .lockedMap _ => true
      | _ => false) = true := by
  decide +kernel

end Formwork
