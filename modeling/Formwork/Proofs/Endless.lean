import Formwork.Proofs.Budget

/-!
# Comparisons that never end

Comparing two collections that contain themselves ends, unless both hold a map that is found again
inside one of its own keys. Only where there is such a map can a comparison stop a script.
-/

namespace Formwork

namespace Script

/--
A comparison ends unless both values hold a map that is found again inside one of its keys, and so
does looking up a key or putting one in, also while a map is locked. A run of a script meets a
comparison that does not end only if it has made such a map.
-/
theorem comparisons_end (s : Script) (budget : Budget) (clock : Clock) (function : String)
    (bindings : List (String × Value)) (world : World) :
    (∀ (h : Heap) (a b : Value), ¬ (h.KeyCycleBelow a ∧ h.KeyCycleBelow b) →
      ∃ r, h.Compares [] a b r ∧ h.equal? a b = some r) ∧
    (∀ (h : Heap) (key value : Value) (entries : Entries),
      (∀ entry ∈ entries, ¬ (h.KeyCycleBelow entry.1 ∧ h.KeyCycleBelow key)) →
      (∃ found, h.lookup? key entries = some found) ∧
        (∃ entries', h.insert? key value entries = some entries') ∧
        ∀ locked, h.insertLocked locked key value entries ≠ .error .endless) ∧
    ∀ w, (s.run .standard budget clock function bindings).Ends world (.error .endlessComparison) w →
      w.heap.KeyCycle := by
  refine ⟨fun h a b acyclic => ?_, fun h key value entries acyclic => ⟨?_, ?_, ?_⟩,
    fun w stopped => ?_⟩
  · obtain ⟨r, answer⟩ := Option.ne_none_iff_exists'.mp fun missing =>
      acyclic (Heap.keyCycleBelow_of_equal?_eq_none missing)
    exact ⟨r, Heap.equal?_eq_some_iff.mp answer, answer⟩
  · refine Option.ne_none_iff_exists'.mp fun missing => ?_
    obtain ⟨entry, mem, missing⟩ := Heap.exists_of_lookup?_eq_none missing
    exact acyclic entry mem (Heap.keyCycleBelow_of_equal?_eq_none missing)
  · refine Option.ne_none_iff_exists'.mp fun missing => ?_
    obtain ⟨entry, mem, missing⟩ := Heap.exists_of_insert?_eq_none missing
    exact acyclic entry mem (Heap.keyCycleBelow_of_equal?_eq_none missing)
  · intro locked forever
    obtain ⟨entry, mem, forever⟩ := Heap.exists_of_insertLocked_eq_endless forever
    exact acyclic entry mem forever
  · obtain ⟨r, m, ends⟩ : ∃ r m, s.Ends .standard budget clock function bindings world r m :=
      EStateM.exists_ends _ _
    obtain ⟨rfl, rfl⟩ := ends.run.unique stopped
    exact ends.accounted.2.cycle rfl

/-- Two maps that contain themselves as values. -/
def selfContaining : Heap := ⟨#[], #[[(.bool true, .map 0)], [(.bool true, .map 1)]], 0⟩

theorem comparisons_end_selfContaining :
    ∃ r, selfContaining.Compares [] (.map 0) (.map 1) r ∧
      selfContaining.equal? (.map 0) (.map 1) = some r := by
  refine (comparisons_end ⟨"t", ⟨[], [], default⟩⟩ {} .steady "main" [] ⟨.empty, #[]⟩).1
    selfContaining (.map 0) (.map 1) ?_
  rintro ⟨⟨i, -, k, w, mem, c, handle, -⟩, -⟩
  -- The only key is a truth value, which leads nowhere.
  obtain rfl : k = .bool true := by
    rcases i with _ | _ | i <;> simp_all [selfContaining, Heap.entries]
  cases handle

/-- Two maps are made, each with a list as its only key that holds the map itself. -/
def keysOfThemselves : String :=
  "fun bool main() { map m = [:]; map n = [:]; m[[m]] = true; n[[n]] = true; m == n }"

/-- Comparing the two maps of such a script does not end. -/
theorem comparison_endless :
    ∃ s w, Script.compile {} "t" keysOfThemselves = .ok s ∧
      s.run .standard {} .steady "main" [] ⟨.empty, #[]⟩ = .error .endlessComparison w ∧
      ¬ ∃ r, w.heap.Compares [] (.map 0) (.map 1) r := by
  obtain ⟨s, compiled, ran⟩ := Except.exists_of_any (show
    (Script.compile {} "t" keysOfThemselves).toOption.any (fun s =>
      match s.run .standard {} .steady "main" [] ⟨.empty, #[]⟩ with
      | .error .endlessComparison w => (w.heap.equal? (.map 0) (.map 1)).isNone
      | _ => false) = true by decide +kernel)
  split at ran
  · rename_i w stopped
    refine ⟨s, w, compiled, stopped, fun ⟨r, compares⟩ => ?_⟩
    simp [Heap.equal?_eq_some_iff.mpr compares] at ran
  · cases ran

end Script

end Formwork
