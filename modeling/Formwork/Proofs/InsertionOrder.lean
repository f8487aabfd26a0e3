import Formwork.Proofs.Structural
import Mathlib.Data.Set.Card

/-!
# Maps in the order of insertion

A map is built by putting in keys with values one after another. Where equality is an equivalence
relation on the keys, the map that comes about holds, for each class of equal keys, the first key of
the class at its place with the value that was put in last: `Heap.insertAll?_spec`. The one number
that does not equal itself is never found, and each time it is put in it makes an entry of its own.
Equality is an equivalence relation on all values that equal themselves and in which no map has two
equal keys or is found again inside its keys: `Heap.classifies_tame`.
-/

namespace Formwork

namespace Heap

variable (h : Heap)

/-- The entries after keys were put in with their values one after another. -/
def insertAll? (inserts : List (Value × Value)) : Option Entries :=
  inserts.foldlM (fun entries insert => h.insert? insert.1 insert.2 entries) []

/-- Equality of the values with a property is an equivalence relation. -/
structure Classifies (K : Value → Prop) : Prop where
  answered : ∀ a b, K a → K b → h.equal? a b ≠ none
  equivalence : Equivalence fun a b : { v // K v } => h.equal? a.1 b.1 = some true

/-- The values with a property that equal a value. -/
def classOf (K : Value → Prop) (k : Value) : Set Value := { x | K x ∧ h.equal? k x = some true }

/-- The keys without those that equal an earlier one. -/
def firsts : List Value → List Value
  | [] => []
  | k :: ks => k :: (firsts ks).filter fun k' => h.equal? k k' != some true

/-- The value that was put in last with a key that equals the given one. -/
def last? (inserts : List (Value × Value)) (key : Value) : Option Value :=
  (inserts.reverse.find? fun insert => h.equal? insert.1 key == some true).map Prod.snd

/-! ## Comparisons with keys -/

/-- Comparisons of the values with a property end, and are symmetric and transitive. -/
structure Compatible (D : Value → Prop) : Prop where
  answered : ∀ {a b}, D a → D b → h.equal? a b ≠ none
  symm : ∀ {a b}, D a → D b → h.equal? a b = some true → h.equal? b a = some true
  trans : ∀ {a b c}, D a → D b → D c → h.equal? a b = some true → h.equal? b c = some true →
    h.equal? a c = some true

variable {h}

theorem Compatible.eq_false {D : Value → Prop} (compatible : h.Compatible D) {a b : Value}
    (left : D a) (right : D b) (differ : h.equal? a b ≠ some true) :
    h.equal? a b = some false := by
  cases answer : h.equal? a b with
  | none => exact absurd answer (compatible.answered left right)
  | some r =>
      cases r with
      | true => exact absurd answer differ
      | false => rfl

theorem equal?_of_settled {a b : Value} {r : Bool} (settled : a.settled? [] b = some r) :
    h.equal? a b = some r := by
  rw [equal?_eq, equalWithin_of_settled settled]
  rfl

theorem equal?_nan_left {a : Value} (nan : a.isNaN) (b : Value) : h.equal? a b = some false :=
  equal?_of_settled (Value.settled?_nan_left nan b)

theorem equal?_nan_right (a : Value) {b : Value} (nan : b.isNaN) : h.equal? a b = some false :=
  equal?_of_settled (Value.settled?_nan_right a nan)

/-- A collection is not looked into to compare it with itself. -/
theorem equal?_self {v : Value} (proper : ¬ v.isNaN) : h.equal? v v = some true :=
  equal?_of_settled (Value.settled?_self proper)

namespace Classifies

variable {K : Value → Prop} (classifies : h.Classifies K)

include classifies

theorem refl {a : Value} (key : K a) : h.equal? a a = some true :=
  classifies.equivalence.refl ⟨a, key⟩

theorem not_nan {a : Value} (key : K a) : ¬ a.isNaN := by
  intro nan
  exact absurd (classifies.refl key) (by simp [equal?_nan_left nan])

/-- What does not equal itself equals nothing, so it does no harm to add it. -/
theorem compatible : h.Compatible fun v => K v ∨ v.isNaN where
  answered := by
    rintro a b (key | nan) (key' | nan')
    · exact classifies.answered a b key key'
    · simp [equal?_nan_right a nan']
    · simp [equal?_nan_left nan]
    · simp [equal?_nan_left nan]
  symm := by
    rintro a b (key | nan) (key' | nan') same
    · exact classifies.equivalence.symm (x := ⟨a, key⟩) (y := ⟨b, key'⟩) same
    · simp [equal?_nan_right a nan'] at same
    · simp [equal?_nan_left nan] at same
    · simp [equal?_nan_left nan] at same
  trans := by
    rintro a b c (key | nan) (key' | nan') (key'' | nan'') same same'
    · exact classifies.equivalence.trans (x := ⟨a, key⟩) (y := ⟨b, key'⟩) (z := ⟨c, key''⟩)
        same same'
    all_goals simp_all [equal?_nan_left, equal?_nan_right]

end Classifies

/-! ## One key put in -/

/--
A key that is put in comes last, unless it equals one that is there. It is found afterwards by every
key that equals it, and no other key is affected.
-/
theorem Compatible.insert? {D : Value → Prop} (compatible : h.Compatible D) {key : Value}
    (value : Value) (known : D key) {entries : Entries} (keys : ∀ entry ∈ entries, D entry.1) :
    ∃ entries', h.insert? key value entries = some entries' ∧
      (entries'.map Prod.fst =
        if ∃ k ∈ entries.map Prod.fst, h.equal? k key = some true then entries.map Prod.fst
        else entries.map Prod.fst ++ [key]) ∧
      ∀ k, D k → h.lookup? k entries' =
        if h.equal? key k = some true then some (some value) else h.lookup? k entries := by
  induction entries with
  | nil =>
      refine ⟨[(key, value)], rfl, by simp, fun k known' => ?_⟩
      have answered := compatible.answered known known'
      cases same : h.equal? key k with
      | none => exact absurd same answered
      | some b => cases b <;> simp [lookup?, findKey?, same]
  | cons entry rest ih =>
      obtain ⟨k₀, v₀⟩ := entry
      obtain ⟨first, keys⟩ := List.forall_mem_cons.mp keys
      cases same : h.equal? k₀ key with
      | none => exact absurd same (compatible.answered first known)
      | some b =>
          cases b with
          | true =>
              -- The key that is there stays: whatever equals one of the two equals the other.
              refine ⟨(k₀, value) :: rest, by simp [Heap.insert?, insertKey, same], by simp [same],
                fun k known' => ?_⟩
              have alike : h.equal? key k = some true ↔ h.equal? k₀ k = some true :=
                ⟨compatible.trans first known known' same,
                  compatible.trans known first known' (compatible.symm first known same)⟩
              have answered := compatible.answered first known'
              cases found : h.equal? k₀ k with
              | none => exact absurd found answered
              | some b => cases b <;> simp [lookup?, findKey?, alike, found]
          | false =>
              obtain ⟨rest', inserted, order, lookup⟩ := ih keys
              have whole : h.insert? key value ((k₀, v₀) :: rest) = some ((k₀, v₀) :: rest') := by
                rw [Heap.insert?] at inserted
                simp [Heap.insert?, insertKey, same, inserted]
              refine ⟨(k₀, v₀) :: rest', whole, ?_, fun k known' => ?_⟩
              · simp only [List.map_cons, List.exists_mem_cons_iff, same, order, Option.some.injEq,
                  Bool.false_eq_true, false_or]
                split <;> rfl
              · have answered := compatible.answered first known'
                cases found : h.equal? k₀ k with
                | none => exact absurd found answered
                | some b =>
                    cases b with
                    | true =>
                        -- What equals both would make them equal.
                        have other : h.equal? key k ≠ some true := fun equal => by
                          have back := compatible.symm known known' equal
                          have := compatible.trans first known' known found back
                          simp [same] at this
                        simp [lookup?, findKey?, found, other]
                    | false =>
                        have := lookup k known'
                        simpa [lookup?, findKey?, found] using this

/-! ## The first keys and the last values -/

variable (h) in
theorem last?_append (inserts : List (Value × Value)) (insert : Value × Value) (key : Value) :
    h.last? (inserts ++ [insert]) key =
      if h.equal? insert.1 key = some true then some insert.2 else h.last? inserts key := by
  simp only [last?, List.reverse_append, List.reverse_singleton, List.singleton_append,
    List.find?_cons]
  by_cases same : h.equal? insert.1 key = some true
  · simp [same]
  · simp [same, beq_eq_false_iff_ne.mpr same]

variable (h) in
theorem firsts_append (ks : List Value) (k : Value) :
    h.firsts (ks ++ [k]) =
      if ∃ k' ∈ ks, h.equal? k' k = some true then h.firsts ks else h.firsts ks ++ [k] := by
  induction ks with
  | nil => simp [firsts]
  | cons k₀ ks ih =>
      simp only [List.cons_append, firsts, ih, List.exists_mem_cons_iff]
      by_cases later : ∃ k' ∈ ks, h.equal? k' k = some true
      · simp [later]
      · by_cases same : h.equal? k₀ k = some true <;> simp [later, same]

theorem mem_of_mem_firsts {ks : List Value} {k : Value} (mem : k ∈ h.firsts ks) : k ∈ ks := by
  induction ks with
  | nil => exact mem
  | cons k₀ ks ih =>
      obtain rfl | later := List.mem_cons.mp mem
      · exact List.mem_cons_self
      · exact List.mem_cons_of_mem _ (ih (List.mem_filter.mp later).1)

variable (h) in
theorem firsts_pairwise (ks : List Value) :
    (h.firsts ks).Pairwise fun k k' => h.equal? k k' ≠ some true := by
  induction ks with
  | nil => exact .nil
  | cons k₀ ks ih =>
      refine List.pairwise_cons.mpr ⟨fun k mem => ?_, ih.filter _⟩
      simpa using (List.mem_filter.mp mem).2

/-- A key that is not among the first ones equals one that is. -/
theorem Compatible.exists_first {D : Value → Prop} (compatible : h.Compatible D)
    {ks : List Value} (keys : ∀ k ∈ ks, D k) {k : Value} (mem : k ∈ ks) :
    k ∈ h.firsts ks ∨ ∃ k' ∈ h.firsts ks, h.equal? k' k = some true := by
  induction ks with
  | nil => cases mem
  | cons k₀ ks ih =>
      obtain ⟨first, keys⟩ := List.forall_mem_cons.mp keys
      obtain rfl | later := List.mem_cons.mp mem
      · exact .inl List.mem_cons_self
      · have kept {k' : Value} (mem : k' ∈ h.firsts ks) (other : h.equal? k₀ k' ≠ some true) :
            k' ∈ h.firsts (k₀ :: ks) :=
          List.mem_cons_of_mem _ (List.mem_filter.mpr ⟨mem, by simpa using other⟩)
        by_cases same : h.equal? k₀ k = some true
        · exact .inr ⟨k₀, List.mem_cons_self, same⟩
        · obtain mem' | ⟨k', mem', equal⟩ := ih keys later
          · exact .inl (kept mem' same)
          · refine .inr ⟨k', kept mem' fun same' => same ?_, equal⟩
            have known' := keys k' (mem_of_mem_firsts mem')
            exact compatible.trans first known' (keys k later) same' equal

/-! ## The number of entries -/

variable (h) in
/-- What does not equal itself is never left out. -/
theorem countP_isNaN_firsts (ks : List Value) :
    (h.firsts ks).countP Value.isNaN = ks.countP Value.isNaN := by
  induction ks with
  | nil => rfl
  | cons k₀ ks ih =>
      have kept : ((h.firsts ks).filter fun k => h.equal? k₀ k != some true).countP Value.isNaN =
          (h.firsts ks).countP Value.isNaN := by
        rw [List.countP_filter]
        refine List.countP_congr fun k _ => ?_
        rw [Bool.and_eq_true, and_iff_left_of_imp]
        intro nan
        simp [equal?_nan_right k₀ nan]
      simp only [firsts, List.countP_cons, kept, ih]

namespace Classifies

variable {K : Value → Prop} (classifies : h.Classifies K)

include classifies

theorem classOf_eq_iff {a b : Value} (key : K a) (key' : K b) :
    h.classOf K a = h.classOf K b ↔ h.equal? a b = some true := by
  have symm {a b : Value} (key : K a) (key' : K b) :=
    classifies.compatible.symm (.inl key) (.inl key')
  have trans {a b c : Value} (key : K a) (key' : K b) (key'' : K c) :=
    classifies.compatible.trans (.inl key) (.inl key') (.inl key'')
  constructor
  · intro same
    have mem : b ∈ h.classOf K b := ⟨key', classifies.refl key'⟩
    exact (same ▸ mem).2
  · intro equal
    ext x
    exact ⟨fun mem => ⟨mem.1, trans key' key mem.1 (symm key key' equal) mem.2⟩,
      fun mem => ⟨mem.1, trans key key' mem.1 equal mem.2⟩⟩

/-- Of each class of equal keys one is among the first. -/
theorem ncard_classes {ks : List Value} (keys : ∀ k ∈ ks, K k ∨ k.isNaN) :
    { c | ∃ k ∈ ks, K k ∧ c = h.classOf K k }.ncard =
      (h.firsts ks).countP fun k => !k.isNaN := by
  classical
  -- The first keys but for the number stand for the classes, each for one.
  let proper := (h.firsts ks).filter fun k => !k.isNaN
  have key {k : Value} (mem : k ∈ proper) : k ∈ ks ∧ K k := by
    obtain ⟨mem, other⟩ := List.mem_filter.mp mem
    have mem := mem_of_mem_firsts mem
    exact ⟨mem, (keys k mem).resolve_right (by simpa using other)⟩
  have nodup : (proper.map (h.classOf K)).Nodup := by
    refine List.pairwise_map.mpr (List.Pairwise.imp_of_mem ?_ ((h.firsts_pairwise ks).filter _))
    intro a b left right differ same
    exact differ ((classifies.classOf_eq_iff (key left).2 (key right).2).mp same)
  have classes : { c | ∃ k ∈ ks, K k ∧ c = h.classOf K k } =
      ((proper.map (h.classOf K)).toFinset : Set (Set Value)) := by
    ext c
    simp only [Set.mem_ofPred_eq, List.coe_toFinset, List.mem_map]
    constructor
    · rintro ⟨k, mem, known, rfl⟩
      have first {k' : Value} (mem : k' ∈ h.firsts ks) (known : K k') : k' ∈ proper :=
        List.mem_filter.mpr ⟨mem, by simpa using classifies.not_nan known⟩
      obtain mem' | ⟨k', mem', equal⟩ := classifies.compatible.exists_first keys mem
      · exact ⟨k, first mem' known, rfl⟩
      · have known' : K k' := (keys k' (mem_of_mem_firsts mem')).resolve_right fun nan => by
          simp [equal?_nan_left nan] at equal
        exact ⟨k', first mem' known', (classifies.classOf_eq_iff known' known).mpr equal⟩
    · rintro ⟨k, mem, rfl⟩
      exact ⟨k, (key mem).1, (key mem).2, rfl⟩
  rw [classes, Set.ncard_coe_finset, List.toFinset_card_of_nodup nodup, List.length_map,
    List.countP_eq_length_filter]

end Classifies

/-! ## All keys put in -/

/-- Entries hold the first keys, and each key is found with its last value. -/
structure Tracks (h : Heap) (D : Value → Prop) (inserts : List (Value × Value))
    (entries : Entries) : Prop where
  order : entries.map Prod.fst = h.firsts (inserts.map Prod.fst)
  lookup : ∀ k, D k → h.lookup? k entries = some (h.last? inserts k)

/-- One more key is put in. -/
theorem Tracks.insert? {D : Value → Prop} (compatible : h.Compatible D)
    {inserts : List (Value × Value)} {entries : Entries} (tracks : h.Tracks D inserts entries)
    (keys : ∀ k ∈ inserts.map Prod.fst, D k) {insert : Value × Value} (known : D insert.1) :
    ∃ entries', h.insert? insert.1 insert.2 entries = some entries' ∧
      h.Tracks D (inserts ++ [insert]) entries' := by
  have stored : ∀ entry ∈ entries, D entry.1 := fun entry mem =>
    keys _ (mem_of_mem_firsts (tracks.order ▸ List.mem_map_of_mem mem))
  obtain ⟨entries', inserted, order, lookup⟩ := compatible.insert? insert.2 known stored
  refine ⟨entries', inserted, ⟨?_, fun k known' => ?_⟩⟩
  · have met : (∃ k ∈ h.firsts (inserts.map Prod.fst), h.equal? k insert.1 = some true) ↔
        ∃ k ∈ inserts.map Prod.fst, h.equal? k insert.1 = some true := by
      constructor
      · rintro ⟨k, mem, same⟩
        exact ⟨k, mem_of_mem_firsts mem, same⟩
      · rintro ⟨k, mem, same⟩
        obtain mem' | ⟨k', mem', equal⟩ := compatible.exists_first keys mem
        · exact ⟨k, mem', same⟩
        · have known' := keys k' (mem_of_mem_firsts mem')
          exact ⟨k', mem', compatible.trans known' (keys k mem) known equal same⟩
    rw [order, tracks.order, List.map_append, List.map_singleton, firsts_append]
    simp only [met]
  · rw [lookup k known', last?_append, tracks.lookup k known']
    split <;> rfl

theorem Compatible.insertAll? {D : Value → Prop} (compatible : h.Compatible D)
    {inserts : List (Value × Value)} (keys : ∀ k ∈ inserts.map Prod.fst, D k) :
    ∃ entries, h.insertAll? inserts = some entries ∧ h.Tracks D inserts entries := by
  induction inserts using List.reverseRecOn with
  | nil => exact ⟨[], rfl, rfl, fun _ _ => rfl⟩
  | append_singleton inserts insert ih =>
      rw [List.map_append, List.forall_mem_append] at keys
      obtain ⟨entries, inserted, tracks⟩ := ih keys.1
      obtain ⟨entries', inserted', tracks'⟩ :=
        tracks.insert? compatible keys.1 (keys.2 insert.1 (by simp))
      refine ⟨entries', ?_, tracks'⟩
      simp only [Heap.insertAll?] at inserted ⊢
      simp [List.foldlM_append, inserted, inserted']

/--
A map is a finite map in the order of insertion. Where equality is an equivalence relation on the
keys, but for the number that does not equal itself, every key can be put in. Then the keys differ,
a key is found with the value that was put in last for it, the keys are the first of each class of
equal ones in the order they were put in, and there are as many entries as classes and times that
the number was put in, which is never found.
-/
theorem insertAll?_spec (h : Heap) (K : Value → Prop) (classifies : h.Classifies K)
    (inserts : List (Value × Value)) (keys : ∀ k ∈ inserts.map Prod.fst, K k ∨ k.isNaN) :
    ∃ entries, h.insertAll? inserts = some entries ∧
      ((entries.map Prod.fst).Pairwise fun k k' =>
        h.equal? k k' = some false ∧ h.equal? k' k = some false) ∧
      (∀ k, K k ∨ k.isNaN → h.lookup? k entries = some (h.last? inserts k)) ∧
      (∀ k, k.isNaN → h.lookup? k entries = some none) ∧
      entries.map Prod.fst = h.firsts (inserts.map Prod.fst) ∧
      entries.length = { c | ∃ k ∈ inserts.map Prod.fst, K k ∧ c = h.classOf K k }.ncard +
        (inserts.map Prod.fst).countP Value.isNaN := by
  have compatible := classifies.compatible
  obtain ⟨entries, inserted, order, lookup⟩ := compatible.insertAll? keys
  refine ⟨entries, inserted, ?_, lookup, fun k nan => ?_, order, ?_⟩
  · rw [order]
    refine (h.firsts_pairwise _).imp_of_mem fun {k k'} mem mem' differ => ?_
    have known := keys k (mem_of_mem_firsts mem)
    have known' := keys k' (mem_of_mem_firsts mem')
    exact ⟨compatible.eq_false known known' differ,
      compatible.eq_false known' known fun same => differ (compatible.symm known' known same)⟩
  · rw [lookup k (.inr nan), last?, List.find?_eq_none.mpr (by simp [equal?_nan_right _ nan])]
    rfl
  · have length : (entries.map Prod.fst).length = entries.length := List.length_map Prod.fst
    rw [classifies.ncard_classes keys, ← countP_isNaN_firsts h, ← order, ← length,
      List.length_eq_countP_add_countP Value.isNaN, Nat.add_comm]
    simp only [Bool.not_eq_true, Bool.decide_eq_false]

/--
Equality is an equivalence relation on all values that equal themselves and in which no map has two
equal keys or is found again inside its keys; so it is on plain values and on lists of such lists.
-/
theorem classifies_tame (h : Heap) :
    h.Classifies fun v => ¬ h.KeyCycleBelow v ∧ h.KeysDistinctBelow v ∧ ¬ v.isNaN where
  answered := fun _ _ left _ missing => left.1 (keyCycleBelow_of_equal?_eq_none missing).1
  equivalence :=
    have tame (v : { v // ¬ h.KeyCycleBelow v ∧ h.KeysDistinctBelow v ∧ ¬ v.isNaN }) :
        h.Tame (h.size + 1) v.1 := ⟨not_descent_of_not_keyCycleBelow v.2.1, v.2.2.1⟩
    have lawful := lawfulBelow (h := h) (h.size + 1)
    { refl := fun v => equal?_self v.2.2.2
      symm := fun {a b} => lawful.symm (tame a) (tame b)
      trans := fun {a b c} => lawful.trans (tame a) (tame b) (tame c) }

/-- Two lists with equal items and one with another. -/
def twins : Heap := ⟨#[#[.bool true], #[.bool true], #[.bool false]], #[], 0⟩

theorem insertAll?_spec_twins :
    ∃ entries, twins.insertAll? [(.list 0, .unit), (.number .nan, .unit), (.list 2, .unit),
        (.list 1, .bool true), (.number .nan, .unit)] = some entries ∧
      entries.map Prod.fst = [.list 0, .number .nan, .list 2, .number .nan] ∧
      twins.lookup? (.list 0) entries = some (some (.bool true)) ∧
      twins.lookup? (.number .nan) entries = some none := by
  have flat : twins.Flat := by decide
  have known (i : Nat) : ¬ twins.KeyCycleBelow (.list i) ∧ twins.KeysDistinctBelow (.list i) ∧
      ¬ (Value.list i).isNaN :=
    ⟨fun cycle => flat.not_keyCycle cycle.keyCycle,
      fun j leads => absurd (flat.eq_of_leads leads) (by simp), by simp [Value.isNaN]⟩
  have nan : (Value.number .nan).isNaN = true := by decide +kernel
  obtain ⟨entries, inserted, -, lookup, never, order, -⟩ :=
    insertAll?_spec twins _ twins.classifies_tame [(.list 0, .unit), (.number .nan, .unit),
      (.list 2, .unit), (.list 1, .bool true), (.number .nan, .unit)]
      (by simp [known, nan])
  refine ⟨entries, inserted, order, lookup _ (.inl (known 0)), never _ nan⟩

end Heap

end Formwork
