import Formwork.Proofs.Approximation
import Mathlib.Data.List.Nodup
import Mathlib.Data.List.Perm.Subperm
import Mathlib.Data.List.ProdSigma
import Mathlib.Logic.Relation

/-!
# Comparisons that end

`Heap.compare` bounds how deep comparisons are nested, but the bound changes nothing: keys are
compared the way all values are (`Heap.compare_eq`), and more levels give the same
(`Heap.compare_eq_of_equalAt`). `Heap.Compares` says without a bound when a comparison ends while no
map is locked, and with which answer; this is what `Heap.equal?` answers: `Heap.equal?_eq_some_iff`.
A comparison goes on forever only where a map is found again inside one of its own keys, and that on
both sides: `Heap.keyCycleBelow_of_compare_eq_endless`.
-/

namespace Formwork

/-! ## One comparison -/

/-- The answer for two values that need no look into their contents. -/
def Value.settled? (visiting : List (Handle × Handle)) : Value → Value → Option Bool
  | .number x, .number y => some (x == y)
  | .bool x, .bool y => some (x == y)
  | .unit, .unit => some true
  | .function f, .function g => some (f.id == g.id)
  | .list i, .list j => if i = j ∨ (.list i, .list j) ∈ visiting then some true else none
  | .map i, .map j => if i = j ∨ (.map i, .map j) ∈ visiting then some true else none
  | _, _ => some false

theorem Value.settled?_cases (visiting : List (Handle × Handle)) (a b : Value) :
    (∃ r, a.settled? visiting b = some r) ∨
      (∃ i j, a = .list i ∧ b = .list j ∧ a.settled? visiting b = none) ∨
      ∃ i j, a = .map i ∧ b = .map j ∧ a.settled? visiting b = none := by
  cases settled : a.settled? visiting b with
  | some r => exact .inl ⟨r, rfl⟩
  | none => cases a <;> cases b <;> simp_all [settled?]

theorem Value.eq_of_handle? {u v : Value} {c : Handle} (left : u.handle? = some c)
    (right : v.handle? = some c) : u = v := by
  cases u <;> cases v <;> grind [Value.handle?]

namespace Heap

variable (h : Heap)

section Answers

variable {m : Type → Type} [Monad m]

/-- What comparing the items of two lists comes to. -/
def listAnswer (test : Value → Value → m Bool) (i j : Nat) : m Bool :=
  if (h.items i).size = (h.items j).size then
    allPairs test (h.items i).toList (h.items j).toList
  else pure false

/-- What comparing the entries of two maps comes to. -/
def mapAnswer (sameKey test : Value → Value → m Bool) (i j : Nat) : m Bool :=
  if (h.entries i).length = (h.entries j).length then
    allEntries sameKey test (h.entries j) (h.entries i)
  else pure false

end Answers

end Heap

namespace Lifting

variable {m n : Type → Type} [Monad m] [Monad n] (lift : Lifting m n) {h : Heap} {i j : Nat}
  {sameKey test : Value → Value → m Bool} {sameKey' test' : Value → Value → n Bool}

theorem listAnswer (tests : ∀ x ∈ h.items i, ∀ y ∈ h.items j, lift.Rel Eq (test x y) (test' x y)) :
    lift.Rel Eq (h.listAnswer test i j) (h.listAnswer test' i j) := by
  unfold Heap.listAnswer
  split
  · refine lift.allPairs (K := fun x x' => x = x' ∧ x ∈ h.items i)
      (R := fun y y' => y = y' ∧ y ∈ h.items j) (List.forall₂_same.mpr (by simp))
      (List.forall₂_same.mpr (by simp)) ?_
    rintro x _ y _ ⟨rfl, mem⟩ ⟨rfl, mem'⟩
    exact tests x mem y mem'
  · exact lift.pure rfl

theorem mapAnswer
    (keys : ∀ other ∈ h.entries j, ∀ entry ∈ h.entries i,
      lift.Rel Eq (sameKey other.1 entry.1) (sameKey' other.1 entry.1))
    (values : ∀ entry ∈ h.entries i, ∀ other ∈ h.entries j,
      lift.Rel Eq (test entry.2 other.2) (test' entry.2 other.2)) :
    lift.Rel Eq (h.mapAnswer sameKey test i j) (h.mapAnswer sameKey' test' i j) := by
  unfold Heap.mapAnswer
  split
  · refine lift.allEntries (K := fun k k' => k = k' ∧ ∃ v, (k, v) ∈ h.entries i)
      (R := fun v v' => v = v' ∧ ∃ k, (k, v) ∈ h.entries i)
      (L := fun l l' => l = l' ∧ ∃ w, (l, w) ∈ h.entries j)
      (T := fun w w' => w = w' ∧ ∃ l, (l, w) ∈ h.entries j)
      (List.forall₂_same.mpr fun x mem => ⟨⟨rfl, x.2, mem⟩, rfl, x.1, mem⟩)
      (List.forall₂_same.mpr fun x mem => ⟨⟨rfl, x.2, mem⟩, rfl, x.1, mem⟩) ?_ ?_
    · rintro l _ k _ ⟨rfl, w, mem⟩ ⟨rfl, v, mem'⟩
      exact keys (l, w) mem (k, v) mem'
    · rintro v _ w _ ⟨rfl, k, mem⟩ ⟨rfl, l, mem'⟩
      exact values (k, v) mem (l, w) mem'
  · exact lift.pure rfl

end Lifting

namespace Heap

variable (h : Heap)

/--
The comparison of two values inside those of the pairs `visiting` ends with an answer. Nothing
bounds how deep comparisons are nested: a derivation is a comparison that ends.
-/
inductive Compares : List (Handle × Handle) → Value → Value → Bool → Prop
  | settled {visiting : List (Handle × Handle)} {a b : Value} {r : Bool}
      (settled : a.settled? visiting b = some r) : Compares visiting a b r
  | list {visiting : List (Handle × Handle)} {i j : Nat} {r : Bool}
      (new : (Value.list i).settled? visiting (.list j) = none)
      (test : Value → Value → Option Bool)
      (items : ∀ x y r, test x y = some r → Compares ((.list i, .list j) :: visiting) x y r)
      (answer : h.listAnswer test i j = some r) : Compares visiting (.list i) (.list j) r
  /-- Keys are compared on their own, with nothing being visited. -/
  | map {visiting : List (Handle × Handle)} {i j : Nat} {r : Bool}
      (new : (Value.map i).settled? visiting (.map j) = none)
      (sameKey test : Value → Value → Option Bool)
      (keys : ∀ x y r, sameKey x y = some r → Compares [] x y r)
      (values : ∀ x y r, test x y = some r → Compares ((.map i, .map j) :: visiting) x y r)
      (answer : h.mapAnswer sameKey test i j = some r) : Compares visiting (.map i) (.map j) r

variable {h} {m : Type → Type} [Monad m] [Endless m]

section Unfolding

variable {look : Nat → Nat → m Unit} {sameKey : Value → Value → m Bool} {fuel : Nat}
  {visiting : List (Handle × Handle)}

theorem equalWithin_of_settled {a b : Value} {r : Bool}
    (settled : a.settled? visiting b = some r) :
    h.equalWithin look sameKey fuel visiting a b = pure r := by
  cases fuel <;> cases a <;> cases b <;> simp_all [Value.settled?, equalWithin]

theorem equalWithin_zero {a b : Value} (new : a.settled? visiting b = none) :
    h.equalWithin look sameKey 0 visiting a b = endless := by
  cases a <;> cases b <;> simp_all [Value.settled?, equalWithin]

theorem equalWithin_list {i j : Nat} (new : (Value.list i).settled? visiting (.list j) = none) :
    h.equalWithin look sameKey (fuel + 1) visiting (.list i) (.list j) =
      h.listAnswer (h.equalWithin look sameKey fuel ((.list i, .list j) :: visiting)) i j := by
  have unmet : ¬ (i = j ∨ (.list i, .list j) ∈ visiting) := by
    simpa [Value.settled?] using new
  simp [equalWithin, unmet, listAnswer]

theorem equalWithin_map {i j : Nat} (new : (Value.map i).settled? visiting (.map j) = none) :
    h.equalWithin look sameKey (fuel + 1) visiting (.map i) (.map j) =
      look i j >>= fun _ => h.mapAnswer sameKey
        (h.equalWithin look sameKey fuel ((.map i, .map j) :: visiting)) i j := by
  have unmet : ¬ (i = j ∨ (.map i, .map j) ∈ visiting) := by
    simpa [Value.settled?] using new
  simp [equalWithin, unmet, mapAnswer]

/-- While no map is locked, two maps are looked into right away. -/
theorem equalWithin_freely_map {sameKey : Value → Value → Option Bool} {i j : Nat}
    (new : (Value.map i).settled? visiting (.map j) = none) :
    h.equalWithin lookFreely sameKey (fuel + 1) visiting (.map i) (.map j) =
      h.mapAnswer sameKey
        (h.equalWithin lookFreely sameKey fuel ((.map i, .map j) :: visiting)) i j :=
  equalWithin_map new

end Unfolding

/-! ## The bound on nesting -/

variable (h) in
/-- All collections. -/
def handles : List Handle :=
  (List.range h.lists.size).map .list ++ (List.range h.maps.size).map .map

@[simp]
theorem length_handles : h.handles.length = h.size := by
  simp [handles, size]

theorem list_mem_handles {i : Nat} {v : Value} (mem : v ∈ h.items i) : .list i ∈ h.handles := by
  have lt : i < h.lists.size := by
    by_contra ge
    simp [items, Array.getElem?_eq_none (Nat.le_of_not_lt ge)] at mem
  simp [handles, lt]

theorem map_mem_handles {i : Nat} {entry : Value × Value} (mem : entry ∈ h.entries i) :
    .map i ∈ h.handles := by
  have lt : i < h.maps.size := by
    by_contra ge
    simp [entries, Array.getElem?_eq_none (Nat.le_of_not_lt ge)] at mem
  simp [handles, lt]

/-- Different pairs of collections are no more than there are pairs. -/
theorem length_le_pairs {visiting : List (Handle × Handle)} (nodup : visiting.Nodup)
    (known : ∀ p ∈ visiting, p.1 ∈ h.handles ∧ p.2 ∈ h.handles) :
    visiting.length ≤ h.pairs := by
  have subset : visiting ⊆ h.handles ×ˢ h.handles :=
    fun p mem => List.mem_product.mpr (known p mem)
  calc visiting.length ≤ (h.handles ×ˢ h.handles).length :=
        (List.subperm_of_subset nodup subset).length_le
    _ = h.pairs := by rw [List.length_product, length_handles, pairs]

variable (h) in
/-- The pairs being visited are different pairs of collections, and there is fuel for all others. -/
structure Fuelled (fuel : Nat) (visiting : List (Handle × Handle)) : Prop where
  nodup : visiting.Nodup
  known : ∀ p ∈ visiting, p.1 ∈ h.handles ∧ p.2 ∈ h.handles
  room : h.pairs < fuel + visiting.length

namespace Fuelled

variable {fuel : Nat} {visiting : List (Handle × Handle)} {i j : Nat}

variable (h) in
theorem start : h.Fuelled (h.pairs + 1) [] := ⟨.nil, by simp, by simp⟩

theorem fuel_ne_zero (fuelled : h.Fuelled fuel visiting) : fuel ≠ 0 := by
  have bound := length_le_pairs fuelled.nodup fuelled.known
  have room := fuelled.room
  omega

theorem visit (fuelled : h.Fuelled (fuel + 1) visiting) {c d : Handle} (new : (c, d) ∉ visiting)
    (left : c ∈ h.handles) (right : d ∈ h.handles) : h.Fuelled fuel ((c, d) :: visiting) where
  nodup := fuelled.nodup.cons new
  known := by simpa using ⟨⟨left, right⟩, fun c d mem => fuelled.known (c, d) mem⟩
  room := by
    have room := fuelled.room
    rw [List.length_cons]
    omega

/-- Two lists that are looked into for their items are two collections not visited yet. -/
theorem list (fuelled : h.Fuelled (fuel + 1) visiting)
    (new : (Value.list i).settled? visiting (.list j) = none) {x y : Value} (mem : x ∈ h.items i)
    (mem' : y ∈ h.items j) : h.Fuelled fuel ((.list i, .list j) :: visiting) :=
  fuelled.visit (by simp_all [Value.settled?]) (list_mem_handles mem) (list_mem_handles mem')

/-- Two maps that are looked into for their entries are two collections not visited yet. -/
theorem map (fuelled : h.Fuelled (fuel + 1) visiting)
    (new : (Value.map i).settled? visiting (.map j) = none) {x y : Value × Value}
    (mem : x ∈ h.entries i) (mem' : y ∈ h.entries j) :
    h.Fuelled fuel ((.map i, .map j) :: visiting) :=
  fuelled.visit (by simp_all [Value.settled?]) (map_mem_handles mem) (map_mem_handles mem')

end Fuelled

section Approximation

variable [LawfulEndless m] {look : Nat → Nat → m Unit}
  {sameKey sameKey' : Value → Value → m Bool}

/-- More fuel and better comparisons of keys only help comparisons that go on forever. -/
theorem equalWithin_approximates (keys : ∀ x y, Approximates Eq (sameKey x y) (sameKey' x y))
    {fuel fuel' : Nat} (le : fuel ≤ fuel') (visiting : List (Handle × Handle)) (a b : Value) :
    Approximates Eq (h.equalWithin look sameKey fuel visiting a b)
      (h.equalWithin look sameKey' fuel' visiting a b) := by
  induction fuel generalizing fuel' visiting a b with
  | zero =>
      cases settled : a.settled? visiting b with
      | none =>
          rw [equalWithin_zero settled]
          exact .endless _
      | some s =>
          rw [equalWithin_of_settled settled, equalWithin_of_settled settled]
          exact .refl _
  | succ fuel ih =>
      obtain ⟨fuel', rfl⟩ := Nat.exists_eq_add_of_le' (Nat.le_trans (Nat.le_add_left 1 fuel) le)
      have inner := ih (Nat.le_of_succ_le_succ le)
      obtain ⟨s, settled⟩ | ⟨i, j, rfl, rfl, new⟩ | ⟨i, j, rfl, rfl, new⟩ :=
        a.settled?_cases visiting b
      · rw [equalWithin_of_settled settled, equalWithin_of_settled settled]
        exact .refl _
      · rw [equalWithin_list new, equalWithin_list new]
        exact Approximates.lifting.listAnswer fun x _ y _ => inner _ x y
      · rw [equalWithin_map new, equalWithin_map new]
        exact .bind (.refl _) fun _ _ _ =>
          Approximates.lifting.mapAnswer (fun l _ k _ => keys l.1 k.1)
            fun x _ y _ => inner _ x.2 y.2

/-- More levels only help comparisons that go on forever. -/
theorem equalAt_approximates {levels levels' : Nat} (le : levels ≤ levels') (a b : Value) :
    Approximates Eq (h.equalAt look levels a b) (h.equalAt look levels' a b) := by
  induction levels generalizing levels' a b with
  | zero => exact .endless _
  | succ levels ih =>
      obtain ⟨levels', rfl⟩ :=
        Nat.exists_eq_add_of_le' (Nat.le_trans (Nat.le_add_left 1 levels) le)
      exact equalWithin_approximates (ih (Nat.le_of_succ_le_succ le)) (Nat.le_refl _) [] a b

end Approximation

/-! ## Every answer is that of a comparison that ends -/

theorem compares_of_equalWithin {sameKey : Value → Value → Option Bool}
    (keys : ∀ x y r, sameKey x y = some r → h.Compares [] x y r) {fuel : Nat}
    {visiting : List (Handle × Handle)} {a b : Value} {r : Bool}
    (answer : h.equalWithin lookFreely sameKey fuel visiting a b = some r) :
    h.Compares visiting a b r := by
  induction fuel generalizing visiting a b r with
  | zero =>
      cases settled : a.settled? visiting b with
      | none =>
          rw [equalWithin_zero settled] at answer
          cases answer
      | some s =>
          rw [equalWithin_of_settled settled] at answer
          exact .settled (settled.trans answer)
  | succ fuel ih =>
      obtain ⟨s, settled⟩ | ⟨i, j, rfl, rfl, new⟩ | ⟨i, j, rfl, rfl, new⟩ :=
        a.settled?_cases visiting b
      · rw [equalWithin_of_settled settled] at answer
        exact .settled (settled.trans answer)
      · rw [equalWithin_list new] at answer
        exact .list new _ (fun x y r => ih) answer
      · rw [equalWithin_freely_map new] at answer
        exact .map new _ _ keys (fun x y r => ih) answer

theorem compares_of_equalAt {levels : Nat} {a b : Value} {r : Bool}
    (answer : h.equalAt lookFreely levels a b = some r) : h.Compares [] a b r := by
  induction levels generalizing a b r with
  | zero => cases answer
  | succ levels ih => exact compares_of_equalWithin (fun x y r => ih) answer

/-! ## What a collection leads to -/

variable (h) in
/-- A collection holds another one as an item, as a key or as the value of a key. -/
inductive Holds : Handle → Handle → Prop
  | item {i : Nat} {v : Value} {c : Handle} (mem : v ∈ h.items i) (handle : v.handle? = some c) :
      Holds (.list i) c
  | key {i : Nat} {entry : Value × Value} {c : Handle} (mem : entry ∈ h.entries i)
      (handle : entry.1.handle? = some c) : Holds (.map i) c
  | value {i : Nat} {entry : Value × Value} {c : Handle} (mem : entry ∈ h.entries i)
      (handle : entry.2.handle? = some c) : Holds (.map i) c

variable (h) in
/-- A collection is found inside a value, at any depth. -/
def Leads (v : Value) (c : Handle) : Prop :=
  ∃ d, v.handle? = some d ∧ Relation.ReflTransGen h.Holds d c

variable (h) in
/-- A value is a key of a map found inside another value. -/
def KeyBelow (v k : Value) : Prop := ∃ i, h.Leads v (.map i) ∧ ∃ w, (k, w) ∈ h.entries i

variable (h) in
/-- Inside a value there is a map that is found again inside one of its keys. -/
def KeyCycleBelow (v : Value) : Prop :=
  ∃ i, h.Leads v (.map i) ∧ ∃ k w, (k, w) ∈ h.entries i ∧ h.Leads k (.map i)

variable (h) in
/-- Some map is found again inside one of its keys. -/
def KeyCycle : Prop := ∃ i k w, (k, w) ∈ h.entries i ∧ h.Leads k (.map i)

theorem KeyCycleBelow.keyCycle {v : Value} (cycle : h.KeyCycleBelow v) : h.KeyCycle := by
  obtain ⟨i, -, k, w, mem, back⟩ := cycle
  exact ⟨i, k, w, mem, back⟩

theorem Leads.of_item {i : Nat} {x : Value} {c : Handle} (mem : x ∈ h.items i)
    (leads : h.Leads x c) : h.Leads (.list i) c := by
  obtain ⟨d, handle, path⟩ := leads
  exact ⟨.list i, rfl, path.head (.item mem handle)⟩

theorem Leads.of_key {i : Nat} {entry : Value × Value} {c : Handle}
    (mem : entry ∈ h.entries i) (leads : h.Leads entry.1 c) : h.Leads (.map i) c := by
  obtain ⟨d, handle, path⟩ := leads
  exact ⟨.map i, rfl, path.head (.key mem handle)⟩

theorem Leads.of_value {i : Nat} {entry : Value × Value} {c : Handle}
    (mem : entry ∈ h.entries i) (leads : h.Leads entry.2 c) : h.Leads (.map i) c := by
  obtain ⟨d, handle, path⟩ := leads
  exact ⟨.map i, rfl, path.head (.value mem handle)⟩

/-- What a key leads to its map leads to, and so does everything around the map. -/
theorem KeyBelow.leads {v k : Value} {c : Handle} (below : h.KeyBelow v k)
    (leads : h.Leads k c) : h.Leads v c := by
  obtain ⟨i, ⟨d, handle, path⟩, w, mem⟩ := below
  obtain ⟨e, key, rest⟩ := leads
  exact ⟨d, handle, path.trans (rest.head (.key mem key))⟩

/-- A value with a key below it is a collection of the heap. -/
theorem KeyBelow.handle {v k : Value} (below : h.KeyBelow v k) :
    ∃ c, v.handle? = some c ∧ c ∈ h.handles := by
  obtain ⟨i, ⟨c, handle, path⟩, w, mem⟩ := below
  refine ⟨c, handle, ?_⟩
  obtain same | ⟨d, holds, -⟩ := path.cases_head
  · rw [same]
    exact map_mem_handles mem
  · cases holds with
    | item mem _ => exact list_mem_handles mem
    | key mem _ => exact map_mem_handles mem
    | value mem _ => exact map_mem_handles mem

/-! ## Comparisons that go on forever -/

section Forever

variable [LawfulEndless m] {look : Nat → Nat → m Unit}
  {sameKey sameKey' test test' : Value → Value → m Bool} {i j : Nat}

theorem exists_of_listAnswer_eq_endless (better : ∀ x y, Approximates Eq (test x y) (test' x y))
    (forever : h.listAnswer test i j = endless) :
    ∃ x ∈ h.items i, ∃ y ∈ h.items j, test x y = endless ∧
      (test' x y = endless → h.listAnswer test' i j = endless) := by
  unfold listAnswer at forever ⊢
  split at forever
  · rename_i same
    simpa [same] using exists_of_allPairs_eq_endless better forever
  · exact absurd forever (LawfulEndless.pure_ne_endless false)

theorem exists_of_mapAnswer_eq_endless
    (keys : ∀ x y, Approximates Eq (sameKey x y) (sameKey' x y))
    (values : ∀ x y, Approximates Eq (test x y) (test' x y))
    (forever : h.mapAnswer sameKey test i j = endless) :
    ∃ entry ∈ h.entries i, ∃ other ∈ h.entries j,
      (sameKey other.1 entry.1 = endless ∧
        (sameKey' other.1 entry.1 = endless → h.mapAnswer sameKey' test' i j = endless)) ∨
      (test entry.2 other.2 = endless ∧
        (test' entry.2 other.2 = endless → h.mapAnswer sameKey' test' i j = endless)) := by
  unfold mapAnswer at forever ⊢
  split at forever
  · rename_i same
    simpa only [same, if_true] using exists_of_allEntries_eq_endless keys values forever
  · exact absurd forever (LawfulEndless.pure_ne_endless false)

/--
With fuel for all pairs of collections, a comparison goes on forever only where one of two keys
inside the values does; with better comparisons of keys it still does if that one does.
-/
theorem exists_keys_of_equalWithin_eq_endless (looks : ∀ i j, look i j ≠ endless)
    (keys : ∀ x y, Approximates Eq (sameKey x y) (sameKey' x y)) {fuel : Nat}
    {visiting : List (Handle × Handle)} {a b : Value} (fuelled : h.Fuelled fuel visiting)
    (forever : h.equalWithin look sameKey fuel visiting a b = endless) :
    ∃ k k', h.KeyBelow a k ∧ h.KeyBelow b k' ∧ sameKey k' k = endless ∧
      (sameKey' k' k = endless → h.equalWithin look sameKey' fuel visiting a b = endless) := by
  induction fuel generalizing visiting a b with
  | zero => exact absurd rfl fuelled.fuel_ne_zero
  | succ fuel ih =>
      have inner (visiting : List (Handle × Handle)) (x y : Value) :
          Approximates Eq (h.equalWithin look sameKey fuel visiting x y)
            (h.equalWithin look sameKey' fuel visiting x y) :=
        equalWithin_approximates keys (Nat.le_refl fuel) visiting x y
      obtain ⟨s, settled⟩ | ⟨i, j, rfl, rfl, new⟩ | ⟨i, j, rfl, rfl, new⟩ :=
        a.settled?_cases visiting b
      · rw [equalWithin_of_settled settled] at forever
        exact absurd forever (LawfulEndless.pure_ne_endless s)
      · rw [equalWithin_list new] at forever ⊢
        obtain ⟨x, mem, y, mem', at_items, later⟩ :=
          exists_of_listAnswer_eq_endless (inner _) forever
        obtain ⟨k, k', ⟨n, leads, at_k⟩, ⟨n', leads', at_k'⟩, at_keys, later'⟩ :=
          ih (fuelled.list new mem mem') at_items
        exact ⟨k, k', ⟨n, leads.of_item mem, at_k⟩, ⟨n', leads'.of_item mem', at_k'⟩,
          at_keys, fun forever' => later (later' forever')⟩
      · rw [equalWithin_map new] at forever ⊢
        obtain impossible | ⟨_, looked, forever⟩ := bind_eq_endless forever
        · exact absurd impossible (looks i j)
        · rw [looked, pure_bind]
          obtain ⟨entry, mem, other, mem', ⟨at_keys, later⟩ | ⟨at_values, later⟩⟩ :=
            exists_of_mapAnswer_eq_endless keys (inner _) forever
          · exact ⟨entry.1, other.1, ⟨i, ⟨_, rfl, .refl⟩, entry.2, mem⟩,
              ⟨j, ⟨_, rfl, .refl⟩, other.2, mem'⟩, at_keys, later⟩
          · obtain ⟨k, k', ⟨n, leads, at_k⟩, ⟨n', leads', at_k'⟩, at_keys, later'⟩ :=
              ih (fuelled.map new mem mem') at_values
            exact ⟨k, k', ⟨n, leads.of_value mem, at_k⟩, ⟨n', leads'.of_value mem', at_k'⟩,
              at_keys, fun forever' => later (later' forever')⟩

theorem exists_keys_of_equalAt_eq_endless (looks : ∀ i j, look i j ≠ endless) {levels : Nat}
    {a b : Value} (forever : h.equalAt look (levels + 1) a b = endless) :
    ∃ k k', h.KeyBelow a k ∧ h.KeyBelow b k' ∧ h.equalAt look levels k' k = endless ∧
      (h.equalAt look (levels + 1) k' k = endless →
        h.equalAt look (levels + 2) a b = endless) :=
  exists_keys_of_equalWithin_eq_endless looks (equalAt_approximates (Nat.le_succ levels))
    (.start h) forever

end Forever

/-! ## Keys below keys -/

variable (h) in
/-- From a value one can go down to keys, and from them to further keys, so many times. -/
inductive Descent : Nat → Value → Prop
  | stay (v : Value) : Descent 0 v
  | down {n : Nat} {v k : Value} (below : h.KeyBelow v k) (rest : Descent n k) :
      Descent (n + 1) v

theorem descent_of_equalAt_eq_endless [LawfulEndless m] {look : Nat → Nat → m Unit}
    (looks : ∀ i j, look i j ≠ endless) {levels : Nat} {a b : Value}
    (forever : h.equalAt look levels a b = endless) : h.Descent levels a ∧ h.Descent levels b := by
  induction levels generalizing a b with
  | zero => exact ⟨.stay a, .stay b⟩
  | succ levels ih =>
      obtain ⟨k, k', below, below', at_keys, -⟩ := exists_keys_of_equalAt_eq_endless looks forever
      obtain ⟨right, left⟩ := ih at_keys
      exact ⟨.down below left, .down below' right⟩

theorem leads_of_handle_eq {u v : Value} {c : Handle} (same : u.handle? = v.handle?)
    (leads : h.Leads u c) : h.Leads v c := by
  obtain ⟨d, handle, path⟩ := leads
  exact ⟨d, same ▸ handle, path⟩

/--
A descent that goes on for longer than there are collections comes back to one it has gone through.
The collections gone through so far are `seen`; each of them holds a map with a key above `v`.
-/
theorem Descent.keyCycleBelow {n : Nat} {a v : Value} {seen : List Handle}
    (descent : h.Descent n v) (nodup : seen.Nodup) (known : seen ⊆ h.handles)
    (long : h.size < n + seen.length) (below : ∀ c, h.Leads v c → h.Leads a c)
    (above : ∀ c ∈ seen, ∃ u i k w, u.handle? = some c ∧ h.Leads a (.map i) ∧
      h.Leads u (.map i) ∧ (k, w) ∈ h.entries i ∧ ∀ c, h.Leads v c → h.Leads k c) :
    h.KeyCycleBelow a := by
  induction descent generalizing seen with
  | stay v =>
      have bound := (List.subperm_of_subset nodup known).length_le
      rw [length_handles] at bound
      omega
  | @down n v k key rest ih =>
      obtain ⟨c, handle, mem⟩ := key.handle
      by_cases again : c ∈ seen
      · obtain ⟨u, i, k', w, handle', from_a, from_u, at_k', back⟩ := above c again
        have from_v := leads_of_handle_eq (handle'.trans handle.symm) from_u
        exact ⟨i, from_a, k', w, at_k', back _ from_v⟩
      · have through (d : Handle) (leads : h.Leads k d) : h.Leads v d := key.leads leads
        refine ih (nodup.cons again) (by simpa using ⟨mem, known⟩)
          (by rw [List.length_cons]; omega) (fun d leads => below d (through d leads)) ?_
        intro d mem
        obtain rfl | old := List.mem_cons.mp mem
        · obtain ⟨i, leads, w, at_k⟩ := key
          exact ⟨v, i, k, w, handle, below _ leads, leads, at_k, fun _ leads => leads⟩
        · obtain ⟨u, i, k', w, handle', from_a, from_u, at_k', back⟩ := above d old
          exact ⟨u, i, k', w, handle', from_a, from_u, at_k',
            fun e leads => back e (through e leads)⟩

theorem size_le_pairs : h.size ≤ h.pairs := Nat.le_mul_self h.size

/-- A comparison that goes on forever needs a cycle through a key on both sides. -/
theorem keyCycleBelow_of_compare_eq_endless [LawfulEndless m] {look : Nat → Nat → m Unit}
    (looks : ∀ i j, look i j ≠ endless) {a b : Value} (forever : h.compare look a b = endless) :
    h.KeyCycleBelow a ∧ h.KeyCycleBelow b := by
  obtain ⟨left, right⟩ := descent_of_equalAt_eq_endless looks forever
  have long : h.size < h.pairs + 2 + ([] : List Handle).length :=
    Nat.lt_add_right _ (Nat.lt_of_le_of_lt size_le_pairs (by omega))
  exact ⟨left.keyCycleBelow .nil (by simp) long (fun _ leads => leads) (by simp),
    right.keyCycleBelow .nil (by simp) long (fun _ leads => leads) (by simp)⟩

/-! ## The bound on levels is no bound -/

section Levels

variable [LawfulEndless m] {look : Nat → Nat → m Unit} (looks : ∀ i j, look i j ≠ endless)

include looks

/--
A comparison that ends only at one level has keys below it that do so only at the next lower level,
and so on: each level has a pair of collections of its own.
-/
theorem exists_pairs_of_equalAt {n : Nat} {a b : Value}
    (forever : h.equalAt look (n + 1) a b = endless)
    (ends : h.equalAt look (n + 2) a b ≠ endless) :
    ∃ pairs : List (Handle × Handle), pairs.length = n + 1 ∧ pairs.Nodup ∧
      (∀ p ∈ pairs, p.1 ∈ h.handles ∧ p.2 ∈ h.handles) ∧
      ∀ p ∈ pairs, ∃ x y : Value, x.handle? = some p.1 ∧ y.handle? = some p.2 ∧
        h.equalAt look (n + 2) x y ≠ endless := by
  induction n generalizing a b with
  | zero =>
      obtain ⟨k, k', below, below', -, -⟩ := exists_keys_of_equalAt_eq_endless looks forever
      obtain ⟨c, handle, mem⟩ := below.handle
      obtain ⟨d, handle', mem'⟩ := below'.handle
      exact ⟨[(c, d)], rfl, by simp, by simp [mem, mem'], by
        simpa using ⟨a, handle, b, handle', ends⟩⟩
  | succ n ih =>
      obtain ⟨k, k', below, below', at_keys, later⟩ :=
        exists_keys_of_equalAt_eq_endless looks forever
      obtain ⟨c, handle, mem⟩ := below.handle
      obtain ⟨d, handle', mem'⟩ := below'.handle
      obtain ⟨pairs, length_eq, nodup, known, ranked⟩ := ih at_keys (mt later ends)
      have new : (c, d) ∉ pairs := by
        intro old
        obtain ⟨x, y, left, right, early⟩ := ranked _ old
        obtain rfl := Value.eq_of_handle? handle left
        obtain rfl := Value.eq_of_handle? handle' right
        exact early forever
      refine ⟨(c, d) :: pairs, by rw [List.length_cons, length_eq], nodup.cons new, ?_, ?_⟩
      · intro p at_p
        obtain rfl | old := List.mem_cons.mp at_p
        · exact ⟨mem, mem'⟩
        · exact known p old
      · intro p at_p
        obtain rfl | old := List.mem_cons.mp at_p
        · exact ⟨a, b, handle, handle', ends⟩
        · obtain ⟨x, y, left, right, early⟩ := ranked p old
          refine ⟨x, y, left, right, ?_⟩
          rw [(equalAt_approximates (Nat.le_succ (n + 2)) x y).eq early]
          exact early

/-- What ends at any level ends as soon as there is one level for each pair. -/
theorem equalAt_of_level {levels : Nat} {a b : Value} (ends : h.equalAt look levels a b ≠ endless) :
    h.equalAt look (h.pairs + 1) a b = h.equalAt look levels a b := by
  induction levels with
  | zero => exact absurd rfl ends
  | succ n ih =>
      by_cases early : h.equalAt look n a b = endless
      · cases n with
        | zero => exact (equalAt_approximates (Nat.le_add_left 1 _) a b).eq ends
        | succ n =>
            obtain ⟨pairs, length_eq, nodup, known, -⟩ := exists_pairs_of_equalAt looks early ends
            have bound := length_le_pairs nodup known
            exact (equalAt_approximates (by omega) a b).eq ends
      · rw [ih early, (equalAt_approximates (Nat.le_succ n) a b).eq early]

/-- A comparison that ends at any level ends there the way it does. -/
theorem compare_eq_of_equalAt {levels : Nat} {a b : Value}
    (ends : h.equalAt look levels a b ≠ endless) :
    h.compare look a b = h.equalAt look levels a b := by
  have same := equalAt_of_level looks ends
  rw [← same] at ends ⊢
  exact (equalAt_approximates (Nat.le_succ _) a b).eq ends

/-- The last level adds nothing to the one before. -/
theorem equalAt_eq_compare : h.equalAt look (h.pairs + 1) = h.compare look := by
  funext a b
  by_cases forever : h.compare look a b = endless
  · rw [forever]
    by_contra ends
    exact ends ((compare_eq_of_equalAt looks ends).symm.trans forever)
  · exact equalAt_of_level looks forever

/-- Keys are compared the way all values are. -/
theorem compare_eq (a b : Value) :
    h.compare look a b = h.equalWithin look (h.compare look) (h.pairs + 1) [] a b := by
  conv_lhs => unfold compare equalAt
  rw [equalAt_eq_compare looks]

end Levels

/-! ## Comparisons while no map is locked -/

theorem lookFreely_ne_endless (i j : Nat) : lookFreely i j ≠ endless := nofun

theorem lookBeside_ne_endless (locked i j : Nat) : lookBeside locked i j ≠ endless := by
  unfold lookBeside
  split <;> exact nofun

theorem keyCycleBelow_of_equal?_eq_none {a b : Value} (missing : h.equal? a b = none) :
    h.KeyCycleBelow a ∧ h.KeyCycleBelow b :=
  keyCycleBelow_of_compare_eq_endless lookFreely_ne_endless missing

theorem equal?_eq (a b : Value) :
    h.equal? a b = h.equalWithin lookFreely h.equal? (h.pairs + 1) [] a b :=
  compare_eq lookFreely_ne_endless a b

theorem approximates_of_answers {x y : Option α} (answers : ∀ r, x = some r → y = some r) :
    Approximates Eq x y := by
  cases x with
  | none => exact .endless y
  | some r =>
      rw [answers r rfl]
      exact .refl _

/-- A comparison that ends is answered when there is fuel for the pairs not visited yet. -/
theorem Compares.equalWithin_eq {visiting : List (Handle × Handle)} {a b : Value} {r : Bool}
    (compares : h.Compares visiting a b r) {fuel : Nat} (fuelled : h.Fuelled fuel visiting) :
    h.equalWithin lookFreely h.equal? fuel visiting a b = some r := by
  induction compares generalizing fuel with
  | settled settled => exact equalWithin_of_settled settled
  | list new test items answer ih =>
      obtain ⟨fuel, rfl⟩ := Nat.exists_eq_succ_of_ne_zero fuelled.fuel_ne_zero
      rw [equalWithin_list new]
      have walk := Approximates.lifting.listAnswer fun x mem y mem' =>
        approximates_of_answers fun r same => ih x y r same (fuelled.list new mem mem')
      exact walk.eq_pure answer
  | map new sameKey test keys values answer ih_keys ih =>
      obtain ⟨fuel, rfl⟩ := Nat.exists_eq_succ_of_ne_zero fuelled.fuel_ne_zero
      have same_keys (x y : Value) : Approximates Eq (sameKey x y) (h.equal? x y) := by
        refine approximates_of_answers fun r same => ?_
        rw [equal?_eq]
        exact ih_keys x y r same (.start h)
      rw [equalWithin_freely_map new]
      have walk := Approximates.lifting.mapAnswer (fun l _ k _ => same_keys l.1 k.1)
        fun x mem y mem' => approximates_of_answers fun r same =>
          ih x.2 y.2 r same (fuelled.map new mem mem')
      exact walk.eq_pure answer

/-- There is an answer exactly when the comparison ends, and it is the same. -/
theorem equal?_eq_some_iff {a b : Value} {r : Bool} :
    h.equal? a b = some r ↔ h.Compares [] a b r := by
  constructor
  · exact compares_of_equalAt
  · intro compares
    rw [equal?_eq]
    exact compares.equalWithin_eq (.start h)

end Heap

end Formwork
