import Formwork.Proofs.Symmetry

/-!
# Equality where keys are plain

Where the keys of maps are plain values, which are not collections, comparisons always end, and two
values are equal exactly when some relation holds of them that relates collections only if it
relates their contents: `Heap.equal?_iff_bisimulation`. What relates two maps is said here without
looking keys up: keys that were put in one after another are never equal, so at most one entry of a
map has a given key.
-/

namespace Formwork

/-! ## Plain keys -/

namespace Heap

/-- A comparison with a plain value looks into no collection. -/
theorem equal?_of_plain (h : Heap) {a : Value} (plain : a.Plain) (b : Value) :
    h.equal? a b = a.settled? [] b := by
  obtain ⟨r, settled⟩ : ∃ r, a.settled? [] b = some r := by
    obtain settled | ⟨i, -, rfl, -⟩ | ⟨i, -, rfl, -⟩ := a.settled?_cases [] b
    · exact settled
    · cases plain
    · cases plain
  rw [equal?_eq, equalWithin_of_settled settled, settled]
  rfl

theorem equal?_eq_true_of_plain (h : Heap) {a : Value} (plain : a.Plain) {b : Value} :
    h.equal? a b = some true ↔ a.Same b := by
  rw [h.equal?_of_plain plain, Value.same_iff_settled? plain]

theorem equal?_eq_false_of_plain (h : Heap) {a : Value} (plain : a.Plain) {b : Value}
    (other : ¬ a.Same b) : h.equal? a b = some false := by
  rw [← h.equal?_eq_true_of_plain plain] at other
  cases answer : h.equal? a b with
  | none =>
      obtain ⟨i, ⟨c, handle, -⟩, -⟩ := (keyCycleBelow_of_equal?_eq_none answer).1
      exact absurd (plain.symm.trans handle) (by simp)
  | some r => cases r <;> simp_all

/-- A key that is put in replaces the value of an equal key, or comes last. -/
theorem insert?_cases {h : Heap} {key value : Value} {entries entries' : Entries}
    (inserted : h.insert? key value entries = some entries') :
    entries'.map Prod.fst = entries.map Prod.fst ∨
      entries' = entries ++ [(key, value)] ∧
        ∀ entry ∈ entries, h.equal? entry.1 key = some false := by
  obtain ⟨before, k, v, after, rfl, rfl⟩ | last := insertKey_eq_pure inserted
  · exact .inl (by simp)
  · exact .inr last

end Heap

/-- Entries that come about by putting in one key after another, whatever the heap was then. -/
inductive Built : Entries → Prop
  | nil : Built []
  | insert {entries entries' : Entries} (built : Built entries) (h : Heap) (key value : Value)
      (inserted : h.insert? key value entries = some entries') : Built entries'

/-- Plain keys that were put in one after another are never equal. -/
theorem Built.pairwise {entries : Entries} (built : Built entries)
    (plain : ∀ k ∈ entries.map Prod.fst, k.Plain) :
    (entries.map Prod.fst).Pairwise fun k k' => ¬ k.Same k' := by
  induction built with
  | nil => exact .nil
  | insert built h key value inserted ih =>
      obtain kept | ⟨rfl, others⟩ := Heap.insert?_cases inserted
      · rw [kept] at plain ⊢
        exact ih plain
      · rw [List.map_append, List.forall_mem_append] at plain
        rw [List.map_append]
        refine List.pairwise_append.mpr ⟨ih plain.1, List.pairwise_singleton _ _, ?_⟩
        intro k mem k' last same
        obtain rfl := List.mem_singleton.mp last
        obtain ⟨entry, mem', rfl⟩ := List.mem_map.mp mem
        have equal := (h.equal?_eq_true_of_plain (plain.1 _ mem)).mpr same
        exact absurd (equal.symm.trans (others entry mem')) (by simp)

/-- Among keys that are never equal, a key is found with a value exactly where it stands with it. -/
theorem findKey?_iff_mem (h : Heap) {key w : Value} {entries : Entries}
    (plain : ∀ k ∈ entries.map Prod.fst, k.Plain)
    (distinct : (entries.map Prod.fst).Pairwise fun k k' => ¬ k.Same k') :
    findKey? h.equal? key entries = some (some w) ↔ ∃ k, (k, w) ∈ entries ∧ k.Same key := by
  induction entries with
  | nil => simp [findKey?]
  | cons entry rest ih =>
      obtain ⟨k, v⟩ := entry
      rw [List.map_cons, List.forall_mem_cons] at plain
      obtain ⟨apart, distinct⟩ := List.pairwise_cons.mp distinct
      by_cases same : k.Same key
      · have equal := (h.equal?_eq_true_of_plain plain.1).mpr same
        rw [findKey?, equal]
        constructor
        · intro found
          obtain rfl : v = w := Option.some.inj (Option.some.inj found)
          exact ⟨k, List.mem_cons_self, same⟩
        · rintro ⟨k', mem, same'⟩
          obtain first | later := List.mem_cons.mp mem
          · rw [(Prod.mk.inj first).2]
            rfl
          · exact absurd (same.trans same'.symm) (apart k' (List.mem_map_of_mem later))
      · have differ := h.equal?_eq_false_of_plain plain.1 same
        rw [findKey?, differ]
        refine (ih plain.2 distinct).trans ?_
        constructor
        · rintro ⟨k', mem, same'⟩
          exact ⟨k', List.mem_cons_of_mem _ mem, same'⟩
        · rintro ⟨k', mem, same'⟩
          obtain first | later := List.mem_cons.mp mem
          · exact absurd ((Prod.mk.inj first).1 ▸ same') same
          · exact ⟨k', later, same'⟩

namespace Heap

variable (h : Heap)

/-- The keys of all maps are plain and were put in one after another. -/
structure PlainlyKeyed : Prop where
  plain : ∀ entries ∈ h.maps, ∀ entry ∈ entries, entry.1.Plain
  built : ∀ entries ∈ h.maps, Built entries

/--
What a relation asks of two values: they are equal and no collections, or the same collection, or
lists with related items, or maps of the same length where each key of the first is also one of the
second, with a related value.
-/
inductive Corresponds (R : Value → Value → Prop) : Value → Value → Prop
  | same {a b : Value} (same : a.Same b) : Corresponds R a b
  | identical {a b : Value} {c : Handle} (left : a.handle? = some c) (right : b.handle? = some c) :
      Corresponds R a b
  | list {i j : Nat} (items : List.Forall₂ R (h.items i).toList (h.items j).toList) :
      Corresponds R (.list i) (.list j)
  | map {i j : Nat} (length_eq : (h.entries i).length = (h.entries j).length)
      (entries : ∀ k v, (k, v) ∈ h.entries i →
        ∃ k' w, (k', w) ∈ h.entries j ∧ k.Same k' ∧ R v w) : Corresponds R (.map i) (.map j)

variable {h}

namespace PlainlyKeyed

theorem plain_key (keyed : h.PlainlyKeyed) {i : Nat} :
    ∀ k ∈ (h.entries i).map Prod.fst, k.Plain := by
  intro k listed
  obtain ⟨entry, mem, rfl⟩ := List.mem_map.mp listed
  exact keyed.plain _ (entries_mem_maps mem) entry mem

theorem distinct (keyed : h.PlainlyKeyed) (i : Nat) :
    ((h.entries i).map Prod.fst).Pairwise fun k k' => ¬ k.Same k' := by
  cases found : h.entries i with
  | nil => exact .nil
  | cons entry rest =>
      have mem : h.entries i ∈ h.maps := entries_mem_maps (show entry ∈ h.entries i by simp [found])
      rw [← found]
      exact (keyed.built _ mem).pairwise keyed.plain_key

/-- No key leads anywhere, so every comparison ends. -/
theorem equal?_ne_none (keyed : h.PlainlyKeyed) (a b : Value) : h.equal? a b ≠ none := by
  intro missing
  obtain ⟨i, -, k, w, mem, c, handle, -⟩ := (keyCycleBelow_of_equal?_eq_none missing).1
  have plain := keyed.plain _ (entries_mem_maps mem) (k, w) mem
  exact absurd (plain.symm.trans handle) (by simp)

/-- Keys that are looked up are keys that are there. -/
theorem matches_iff (keyed : h.PlainlyKeyed) {R : Value → Value → Prop} {a b : Value} :
    h.Matches h.equal? R a b ↔ h.Corresponds R a b := by
  constructor
  · rintro (settled | ⟨size_eq, items⟩ | ⟨length_eq, entries⟩)
    · obtain same | ⟨c, left, right⟩ := Value.settled?_iff.mp settled
      · exact .same same
      · exact .identical left right
    · refine .list (List.forall₂_iff_get.mpr ⟨by simpa using size_eq, fun n left right => ?_⟩)
      exact items n _ _ (by simp at left; simp [left]) (by simp at right; simp [right])
    · refine .map length_eq fun k v mem => ?_
      obtain ⟨w, found, related⟩ := entries (k, v) mem
      obtain ⟨k', mem', same⟩ :=
        (findKey?_iff_mem h keyed.plain_key (keyed.distinct _)).mp found
      exact ⟨k', w, mem', same.symm, related⟩
  · rintro (same | ⟨left, right⟩ | items | ⟨length_eq, entries⟩)
    · exact .settled (Value.settled?_iff.mpr (.inl same))
    · exact .settled (Value.settled?_iff.mpr (.inr ⟨_, left, right⟩))
    · refine .list (by simpa using items.length_eq) fun n x y left right => ?_
      obtain ⟨lt, rfl⟩ := Array.getElem?_eq_some_iff.mp left
      obtain ⟨lt', rfl⟩ := Array.getElem?_eq_some_iff.mp right
      simpa using items.get (i := n) (by simpa using lt) (by simpa using lt')
    · refine .map length_eq fun entry mem => ?_
      obtain ⟨k', w, mem', same, related⟩ := entries entry.1 entry.2 mem
      exact ⟨w, (findKey?_iff_mem h keyed.plain_key (keyed.distinct _)).mpr
        ⟨k', mem', same.symm⟩, related⟩

end PlainlyKeyed

/--
Equality is bisimilarity. In every heap whose maps have plain keys, collections sharing and holding
one another in any way, the comparison of two values ends, and they are equal exactly when some
relation holds of them and relates two values only if these are equal and no collections, the same
collection, lists with related items, or maps of the same length in which each key of the first is
one of the second with a related value.
-/
theorem equal?_iff_bisimulation (h : Heap) (keyed : h.PlainlyKeyed) (a b : Value) :
    ∃ r, h.equal? a b = some r ∧
      (r = true ↔
        ∃ R : Value → Value → Prop, R a b ∧ ∀ x y, R x y → h.Corresponds R x y) := by
  obtain ⟨r, answer⟩ := Option.ne_none_iff_exists'.mp (keyed.equal?_ne_none a b)
  have similar : r = true ↔ h.Bisimilar h.equal? a b := by
    rw [← equal?_eq_true_iff (keyed.equal?_ne_none a b), answer, Option.some.injEq]
  refine ⟨r, answer, similar.trans ?_⟩
  constructor
  · rintro ⟨R, bisimulation, related⟩
    exact ⟨R, related, fun x y related => keyed.matches_iff.mp (bisimulation x y related)⟩
  · rintro ⟨R, related, corresponds⟩
    exact ⟨R, fun x y related => keyed.matches_iff.mpr (corresponds x y related), related⟩

/-- Two lists, each of which holds a map where a key has the list as its value. -/
def entangled : Heap :=
  ⟨#[#[.map 0], #[.map 1]], #[[(.bool true, .list 0)], [(.bool true, .list 1)]], 0⟩

theorem equal?_iff_bisimulation_entangled :
    entangled.PlainlyKeyed ∧ entangled.equal? (.list 0) (.list 1) = some true := by
  have one (v : Value) : Built [(.bool true, v)] := .insert .nil .empty _ _ rfl
  have keyed : entangled.PlainlyKeyed := by
    constructor
    · simp [entangled, Value.Plain, Value.handle?]
    · simp [entangled, one]
  obtain ⟨r, answer, iff⟩ := equal?_iff_bisimulation entangled keyed (.list 0) (.list 1)
  have equal : r = true := by
    refine iff.mpr ⟨fun x y => (x = .list 0 ∧ y = .list 1) ∨ (x = .map 0 ∧ y = .map 1),
      .inl ⟨rfl, rfl⟩, ?_⟩
    rintro x y (⟨rfl, rfl⟩ | ⟨rfl, rfl⟩)
    · exact .list (.cons (.inr ⟨rfl, rfl⟩) .nil)
    · refine .map rfl fun k v mem => ⟨.bool true, .list 1, by simp [entangled, entries], ?_⟩
      obtain ⟨rfl, rfl⟩ : k = .bool true ∧ v = .list 0 := by simpa [entangled, entries] using mem
      exact ⟨.bool true, .inl ⟨rfl, rfl⟩⟩
  exact ⟨keyed, equal ▸ answer⟩

end Heap

end Formwork
