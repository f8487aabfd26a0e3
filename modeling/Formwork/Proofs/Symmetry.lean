import Formwork.Eval.Standard
import Formwork.Proofs.Bisimilar
import Formwork.Proofs.Ending
import Formwork.Proofs.Settled
import Formwork.Script
import Mathlib.Data.Fintype.EquivFin

/-!
# Symmetry of equality

Maps are compared one way only: they must be of the same length, and each key of the first must be
found in the second. The order of the two does not matter as long as no map inside them has two
equal keys: `BinaryOp.apply_eq_comm`. Keys are put in so that they differ, but they are shared lists
and maps and can become equal later; then the order does matter, as `BinaryOp.apply_eq_not_comm`
shows.
-/

namespace Formwork

/-! ## Keys -/

/-- The first entry whose key matches is the one with a given number. -/
structure FirstKey (sameKey : Value → Value → Option Bool) (key : Value) (entries : Entries)
    (n : Nat) (entry : Value × Value) : Prop where
  at_n : entries[n]? = some entry
  same : sameKey entry.1 key = some true
  first : ∀ m < n, ∀ other, entries[m]? = some other → sameKey other.1 key = some false

theorem findKey?_eq_some_iff {sameKey : Value → Value → Option Bool} {key w : Value}
    {entries : Entries} :
    findKey? sameKey key entries = some (some w) ↔
      ∃ n k, FirstKey sameKey key entries n (k, w) := by
  induction entries with
  | nil =>
      constructor
      · simp [findKey?]
      · rintro ⟨n, k, first⟩
        simpa using first.at_n
  | cons entry rest ih =>
      obtain ⟨k, v⟩ := entry
      constructor
      · intro found
        obtain ⟨b, same, found⟩ := bind_eq_pure found
        cases b with
        | true =>
            obtain rfl : v = w := Option.some.inj (Option.some.inj found)
            exact ⟨0, k, rfl, same, by simp⟩
        | false =>
            obtain ⟨n, k', first⟩ := ih.mp found
            refine ⟨n + 1, k', by simpa using first.at_n, first.same, ?_⟩
            intro m lt other at_m
            cases m with
            | zero =>
                obtain rfl : (k, v) = other := by simpa using at_m
                exact same
            | succ m => exact first.first m (by omega) other (by simpa using at_m)
      · rintro ⟨n, k', first⟩
        cases n with
        | zero =>
            obtain ⟨rfl, rfl⟩ : k = k' ∧ v = w := by simpa using first.at_n
            simp [findKey?, first.same]
        | succ n =>
            have differ : sameKey k key = some false := first.first 0 (by omega) (k, v) rfl
            rw [findKey?, differ]
            refine ih.mpr ⟨n, k', by simpa using first.at_n, first.same, ?_⟩
            intro m lt other at_m
            exact first.first (m + 1) (by omega) other (by simpa using at_m)

namespace FirstKey

variable {sameKey : Value → Value → Option Bool} {xs ys : Entries}

section

variable
  (symm : ∀ x ∈ xs, ∀ y ∈ ys, sameKey x.1 y.1 = some true → sameKey y.1 x.1 = some true)
  (trans : ∀ y ∈ ys, ∀ x ∈ xs, ∀ z ∈ ys, sameKey y.1 x.1 = some true →
    sameKey x.1 z.1 = some true → sameKey y.1 z.1 = some true)
  (distinct : ys.Pairwise fun y z => sameKey y.1 z.1 ≠ some true)

include trans distinct

/-- No key of `xs` matches two keys of `ys`. -/
theorem not_between {j k : Nat} {x y z : Value × Value} (lt : j < k) (at_j : ys[j]? = some y)
    (at_k : ys[k]? = some z) (mem : x ∈ xs) (left : sameKey y.1 x.1 = some true) :
    sameKey x.1 z.1 ≠ some true := by
  obtain ⟨short, rfl⟩ := List.getElem?_eq_some_iff.mp at_j
  obtain ⟨short', rfl⟩ := List.getElem?_eq_some_iff.mp at_k
  intro right
  exact List.pairwise_iff_getElem.mp distinct j k short short' lt
    (trans _ (List.getElem_mem _) x mem _ (List.getElem_mem _) left right)

include symm

/-- Two keys of `ys` are not found at the same place of `xs`. -/
theorem eq_of_same_place {i j k : Nat} {x x' y z : Value × Value} (at_j : ys[j]? = some y)
    (at_k : ys[k]? = some z) (to_j : FirstKey sameKey y.1 xs i x)
    (to_k : FirstKey sameKey z.1 xs i x') : j = k := by
  obtain rfl : x = x' := Option.some.inj (to_j.at_n.symm.trans to_k.at_n)
  have mem := List.mem_of_getElem? to_j.at_n
  obtain lt | same | gt := Nat.lt_trichotomy j k
  · have back := symm x mem y (List.mem_of_getElem? at_j) to_j.same
    exact (not_between trans distinct lt at_j at_k mem back to_k.same).elim
  · exact same
  · have back := symm x mem z (List.mem_of_getElem? at_k) to_k.same
    exact (not_between trans distinct gt at_k at_j mem back to_j.same).elim

/--
Where each key of `ys` is found in `xs` and both have the same length, looking up is one to one and
so onto: at each place of `xs` some key of `ys` is found.
-/
theorem exists_at_place (length_eq : xs.length = ys.length)
    (found : ∀ y ∈ ys, ∃ i x, FirstKey sameKey y.1 xs i x) {i : Nat} {x : Value × Value}
    (at_i : xs[i]? = some x) :
    ∃ (j : Nat) (y : Value × Value), ys[j]? = some y ∧ FirstKey sameKey y.1 xs i x := by
  have places (j : Fin ys.length) : ∃ i : Fin ys.length, ∃ x, FirstKey sameKey ys[j].1 xs i x := by
    obtain ⟨i, x, first⟩ := found ys[j] (List.getElem_mem _)
    have lt := (List.getElem?_eq_some_iff.mp first.at_n).1
    exact ⟨⟨i, length_eq ▸ lt⟩, x, first⟩
  choose place entry first using places
  have injective : Function.Injective place := by
    intro j k same
    exact Fin.ext (eq_of_same_place symm trans distinct (List.getElem?_eq_getElem _)
      (List.getElem?_eq_getElem _) (first j) (same ▸ first k))
  have lt : i < ys.length := length_eq ▸ (List.getElem?_eq_some_iff.mp at_i).1
  obtain ⟨j, at_place⟩ := Finite.surjective_of_injective injective ⟨i, lt⟩
  have here : FirstKey sameKey ys[j].1 xs i (entry j) := by
    simpa [at_place] using first j
  obtain rfl : entry j = x := Option.some.inj (here.at_n.symm.trans at_i)
  exact ⟨j, ys[j], List.getElem?_eq_getElem _, here⟩

/--
Where the keys of one map differ among themselves and each is found in another map of the same
length, the keys of the other are found in the one, at the same places.
-/
theorem exists_swapped (answered : ∀ y ∈ ys, ∀ x ∈ xs, sameKey y.1 x.1 ≠ none)
    (length_eq : xs.length = ys.length) (found : ∀ y ∈ ys, ∃ i x, FirstKey sameKey y.1 xs i x)
    {i : Nat} {x : Value × Value} (at_i : xs[i]? = some x) :
    ∃ j y, FirstKey sameKey x.1 ys j y ∧ FirstKey sameKey y.1 xs i x := by
  obtain ⟨j, y, at_j, here⟩ := exists_at_place symm trans distinct length_eq found at_i
  have mem := List.mem_of_getElem? at_i
  have back := symm x mem y (List.mem_of_getElem? at_j) here.same
  refine ⟨j, y, ⟨at_j, back, fun m earlier other at_m => ?_⟩, here⟩
  cases answer : sameKey other.1 x.1 with
  | none => exact absurd answer (answered other (List.mem_of_getElem? at_m) x mem)
  | some b =>
      cases b with
      | false => rfl
      | true => exact (not_between trans distinct earlier at_m at_j mem answer here.same).elim

end

/-- Where a key is found, and the key found there in a further map, it is found there itself. -/
theorem trans {zs : Entries} {key : Value} (answered : ∀ z ∈ zs, sameKey z.1 key ≠ none)
    {j l : Nat} {y z : Value × Value} (one : FirstKey sameKey key ys j y)
    (two : FirstKey sameKey y.1 zs l z)
    (symm : sameKey y.1 key = some true → sameKey key y.1 = some true)
    (through : ∀ z ∈ zs, sameKey z.1 y.1 = some true → sameKey y.1 key = some true →
      sameKey z.1 key = some true)
    (through' : ∀ z ∈ zs, sameKey z.1 key = some true → sameKey key y.1 = some true →
      sameKey z.1 y.1 = some true) : FirstKey sameKey key zs l z where
  at_n := two.at_n
  same := through z (List.mem_of_getElem? two.at_n) two.same one.same
  first := by
    intro m lt other at_m
    have differ := two.first m lt other at_m
    cases answer : sameKey other.1 key with
    | none => exact absurd answer (answered _ (List.mem_of_getElem? at_m))
    | some b =>
        cases b with
        | false => rfl
        | true =>
            have same := through' other (List.mem_of_getElem? at_m) answer (symm one.same)
            simp [same] at differ

end FirstKey

/-! ## Comparisons without cycles -/

namespace Heap

variable {h : Heap}

/-- From a cycle one can go down without end. -/
theorem KeyCycleBelow.descent {v : Value} (cycle : h.KeyCycleBelow v) (n : Nat) :
    h.Descent n v := by
  obtain ⟨i, leads, k, w, mem, back⟩ := cycle
  have around (n : Nat) : h.Descent n k := by
    induction n with
    | zero => exact .stay k
    | succ n ih => exact .down ⟨i, back, w, mem⟩ ih
  cases n with
  | zero => exact .stay v
  | succ n => exact .down ⟨i, leads, w, mem⟩ (around n)

theorem not_descent_of_not_keyCycleBelow {v : Value} (acyclic : ¬ h.KeyCycleBelow v) :
    ¬ h.Descent (h.size + 1) v := by
  intro descent
  have none_seen : ([] : List Handle).Nodup := .nil
  exact acyclic (descent.keyCycleBelow none_seen (by simp) (by simp) (fun _ leads => leads)
    (by simp))

variable (h) in
/-- No map inside a value has two equal keys. -/
def KeysDistinctBelow (v : Value) : Prop :=
  ∀ i, h.Leads v (.map i) → (h.entries i).Pairwise fun x y => h.equal? x.1 y.1 ≠ some true

/-! ## Values with distinct keys -/

variable (h) in
/-- From a value one can go down to keys less than `n` times, and the keys of each map differ. -/
structure Tame (n : Nat) (v : Value) : Prop where
  shallow : ¬ h.Descent n v
  distinct : h.KeysDistinctBelow v

namespace Tame

variable {n i : Nat} {v : Value}

theorem equal?_ne_none (tame : h.Tame n v) (w : Value) : h.equal? v w ≠ none :=
  fun missing => tame.shallow ((keyCycleBelow_of_equal?_eq_none missing).1.descent n)

theorem inside {u : Value} (tame : h.Tame (n + 1) v)
    (leads : ∀ c, h.Leads u c → h.Leads v c) : h.Tame (n + 1) u where
  shallow := by
    rintro (_ | ⟨⟨m, to_m, at_k⟩, rest⟩)
    exact tame.shallow (.down ⟨m, leads _ to_m, at_k⟩ rest)
  distinct m to_m := tame.distinct m (leads _ to_m)

theorem item (tame : h.Tame (n + 1) (.list i)) {x : Value} (mem : x ∈ h.items i) :
    h.Tame (n + 1) x :=
  tame.inside fun _ leads => leads.of_item mem

theorem value (tame : h.Tame (n + 1) (.map i)) {entry : Value × Value}
    (mem : entry ∈ h.entries i) : h.Tame (n + 1) entry.2 :=
  tame.inside fun _ leads => leads.of_value mem

theorem key (tame : h.Tame (n + 1) (.map i)) {entry : Value × Value}
    (mem : entry ∈ h.entries i) : h.Tame n entry.1 :=
  have below : h.KeyBelow (.map i) entry.1 := ⟨i, ⟨_, rfl, .refl⟩, entry.2, mem⟩
  ⟨fun descent => tame.shallow (.down below descent),
    fun m leads => tame.distinct m (below.leads leads)⟩

end Tame

/-! ## Symmetry and transitivity -/

variable (h) in
/-- Equality is symmetric and transitive on values from which one goes down less than `n` times. -/
structure LawfulBelow (n : Nat) : Prop where
  symm : ∀ {a b : Value}, h.Tame n a → h.Tame n b →
    h.equal? a b = some true → h.equal? b a = some true
  trans : ∀ {a b c : Value}, h.Tame n a → h.Tame n b → h.Tame n c →
    h.equal? a b = some true → h.equal? b c = some true → h.equal? a c = some true

variable (h) in
/-- Two values are equal and one cannot go down from them more than `n` times. -/
structure Near (n : Nat) (a b : Value) : Prop where
  left : h.Tame (n + 1) a
  right : h.Tame (n + 1) b
  same : h.equal? a b = some true

/-- Of two such values, what they contain is the same way. -/
theorem Near.matching {n : Nat} {a b : Value} (near : h.Near n a b) :
    h.Matches h.equal? (h.Near n) a b := by
  obtain ⟨left, right, same⟩ := near
  have equal {x y : Value} (tame : h.Tame (n + 1) x) :=
    (equal?_eq_true_iff (b := y) (tame.equal?_ne_none y)).mpr
  cases (bisimilar_of_equal? same).matching with
  | settled same => exact .settled same
  | list size_eq items =>
      refine .list size_eq fun m x y at_x at_y => ?_
      have tame := left.item (Array.mem_of_getElem? at_x)
      exact ⟨tame, right.item (Array.mem_of_getElem? at_y), equal tame (items m x y at_x at_y)⟩
  | map length_eq entries =>
      refine .map length_eq fun entry mem => ?_
      obtain ⟨w, found, similar⟩ := entries entry mem
      obtain ⟨k, mem', -⟩ := exists_of_findKey?_eq_pure found
      exact ⟨w, found, left.value mem, right.value mem', equal (left.value mem) similar⟩

/-- Symmetry one step further down: each key of either map is found in the other. -/
theorem LawfulBelow.near_symm {n : Nat} (lawful : h.LawfulBelow n) {a b : Value}
    (near : h.Near n a b) : h.equal? b a = some true := by
  refine (equal?_eq_true_iff (near.right.equal?_ne_none a)).mpr ⟨fun y x => h.Near n x y, ?_, near⟩
  intro y x near
  cases near.matching with
  | settled same => exact .settled (Value.settled?_symm same)
  | list size_eq items => exact .list size_eq.symm fun m v u left right => items m u v right left
  | @map i j length_eq entries =>
      have found (x : Value × Value) (mem : x ∈ h.entries i) :
          ∃ q y, FirstKey h.equal? x.1 (h.entries j) q y := by
        obtain ⟨w, found, -⟩ := entries x mem
        obtain ⟨q, k, first⟩ := findKey?_eq_some_iff.mp found
        exact ⟨q, (k, w), first⟩
      refine .map length_eq.symm fun y mem => ?_
      obtain ⟨q, at_q⟩ := List.mem_iff_getElem?.mp mem
      obtain ⟨p, x, to_x, to_y⟩ := FirstKey.exists_swapped
        (fun y mem x mem' => lawful.symm (near.right.key mem) (near.left.key mem'))
        (fun x mem y mem' x' mem'' =>
          lawful.trans (near.left.key mem) (near.right.key mem') (near.left.key mem''))
        (near.left.distinct i ⟨_, rfl, .refl⟩)
        (fun x mem y _ => (near.left.key mem).equal?_ne_none y.1) length_eq.symm found at_q
      obtain ⟨w, found_w, near⟩ := entries x (List.mem_of_getElem? to_x.at_n)
      obtain rfl : w = y.2 := Option.some.inj (Option.some.inj
        (found_w.symm.trans (findKey?_eq_some_iff.mpr ⟨q, y.1, to_y⟩)))
      exact ⟨x.2, findKey?_eq_some_iff.mpr ⟨p, x.1, to_x⟩, near⟩

/-- Transitivity one step further down: a key is found where the key found for it is found. -/
theorem LawfulBelow.near_trans {n : Nat} (lawful : h.LawfulBelow n) {a b c : Value}
    (first : h.Near n a b) (second : h.Near n b c) : h.equal? a c = some true := by
  -- The same collection need not equal itself item by item, hence the first part of the relation.
  refine (equal?_eq_true_iff (first.left.equal?_ne_none c)).mpr
    ⟨fun x z => h.Near n x z ∨ ∃ y, h.Near n x y ∧ h.Near n y z, ?_, .inr ⟨b, first, second⟩⟩
  rintro x z (near | ⟨y, first, second⟩)
  · exact near.matching.mono fun _ _ => .inl
  · cases first.matching with
    | settled same =>
        cases second.matching with
        | settled same' => exact .settled (Value.settled?_trans same same')
        | list size_eq items =>
            obtain rfl := Value.eq_of_settled? rfl same
            exact second.matching.mono fun _ _ => .inl
        | map length_eq entries =>
            obtain rfl := Value.eq_of_settled? rfl same
            exact second.matching.mono fun _ _ => .inl
    | @list i j size_eq items =>
        cases second.matching with
        | settled same =>
            obtain rfl := Value.eq_of_settled? rfl (Value.settled?_symm same)
            exact first.matching.mono fun _ _ => .inl
        | @list _ k size_eq' items' =>
            refine .list (size_eq.trans size_eq') fun m x z at_x at_z => .inr ?_
            have lt : m < (h.items j).size := size_eq ▸ (Array.getElem?_eq_some_iff.mp at_x).1
            exact ⟨_, items m x _ at_x (Array.getElem?_eq_getElem lt),
              items' m _ z (Array.getElem?_eq_getElem lt) at_z⟩
    | @map i j length_eq entries =>
        cases second.matching with
        | settled same =>
            obtain rfl := Value.eq_of_settled? rfl (Value.settled?_symm same)
            exact first.matching.mono fun _ _ => .inl
        | @map _ k length_eq' entries' =>
            refine .map (length_eq.trans length_eq') fun x mem => ?_
            obtain ⟨v, found, near⟩ := entries x mem
            obtain ⟨q, k', to_y⟩ := findKey?_eq_some_iff.mp found
            have mem' := List.mem_of_getElem? to_y.at_n
            obtain ⟨w, found', near'⟩ := entries' _ mem'
            obtain ⟨l, k'', to_z⟩ := findKey?_eq_some_iff.mp found'
            have key_x := first.left.key mem
            have key_y := second.left.key mem'
            have to_z' := to_y.trans (fun z mem => (second.right.key mem).equal?_ne_none x.1) to_z
              (lawful.symm key_y key_x)
              (fun z mem => lawful.trans (second.right.key mem) key_y key_x)
              (fun z mem => lawful.trans (second.right.key mem) key_x key_y)
            exact ⟨w, findKey?_eq_some_iff.mpr ⟨l, k'', to_z'⟩, .inr ⟨v, near, near'⟩⟩

theorem lawfulBelow (n : Nat) : h.LawfulBelow n := by
  induction n with
  | zero =>
      exact ⟨fun tame => absurd (.stay _) tame.shallow, fun tame => absurd (.stay _) tame.shallow⟩
  | succ n ih =>
      exact ⟨fun left right same => ih.near_symm ⟨left, right, same⟩,
        fun left middle right first second =>
          ih.near_trans ⟨left, middle, first⟩ ⟨middle, right, second⟩⟩

/--
Where no map inside two values is found again inside its keys or has two equal keys, the order of
the two does not matter to their comparison.
-/
theorem equal?_comm {a b : Value} (acyclic : ¬ h.KeyCycleBelow a)
    (acyclic' : ¬ h.KeyCycleBelow b) (distinct : h.KeysDistinctBelow a)
    (distinct' : h.KeysDistinctBelow b) : h.equal? a b = h.equal? b a := by
  have left : h.Tame (h.size + 1) a := ⟨not_descent_of_not_keyCycleBelow acyclic, distinct⟩
  have right : h.Tame (h.size + 1) b := ⟨not_descent_of_not_keyCycleBelow acyclic', distinct'⟩
  have lawful := lawfulBelow (h := h) (h.size + 1)
  cases answer : h.equal? a b with
  | none => exact absurd answer (left.equal?_ne_none b)
  | some r =>
      cases answer' : h.equal? b a with
      | none => exact absurd answer' (right.equal?_ne_none a)
      | some s =>
          cases r with
          | true => rw [← answer', lawful.symm left right answer]
          | false =>
              cases s with
              | false => rfl
              | true => simp [lawful.symm right left answer'] at answer

/-! ## Heaps without maps in collections -/

variable (h) in
/-- No collection holds a map. -/
def Flat : Prop :=
  (∀ xs ∈ h.lists, ∀ x ∈ xs, x.kind ≠ .map) ∧
    ∀ entries ∈ h.maps, ∀ entry ∈ entries, entry.1.kind ≠ .map ∧ entry.2.kind ≠ .map

instance : Decidable h.Flat := inferInstanceAs (Decidable (_ ∧ _))

theorem items_mem_lists {i : Nat} {x : Value} (mem : x ∈ h.items i) : h.items i ∈ h.lists := by
  unfold items at mem ⊢
  cases at_i : h.lists[i]? with
  | none => simp [at_i] at mem
  | some xs => exact Array.mem_of_getElem? at_i

theorem entries_mem_maps {i : Nat} {entry : Value × Value} (mem : entry ∈ h.entries i) :
    h.entries i ∈ h.maps := by
  unfold entries at mem ⊢
  cases at_i : h.maps[i]? with
  | none => simp [at_i] at mem
  | some es => exact Array.mem_of_getElem? at_i

theorem Flat.not_holds (flat : h.Flat) (c : Handle) (i : Nat) : ¬ h.Holds c (.map i) := by
  have kind {v : Value} (handle : v.handle? = some (.map i)) : v.kind = .map := by
    cases v <;> simp_all [Value.handle?, Value.kind]
  intro holds
  cases holds with
  | item mem handle => exact flat.1 _ (items_mem_lists mem) _ mem (kind handle)
  | key mem handle => exact (flat.2 _ (entries_mem_maps mem) _ mem).1 (kind handle)
  | value mem handle => exact (flat.2 _ (entries_mem_maps mem) _ mem).2 (kind handle)

theorem Flat.eq_of_leads (flat : h.Flat) {v : Value} {i : Nat} (leads : h.Leads v (.map i)) :
    v = .map i := by
  obtain ⟨d, handle, path⟩ := leads
  obtain rfl | ⟨c, -, holds⟩ := path.cases_tail
  · exact Value.eq_of_handle? handle rfl
  · exact (flat.not_holds c i holds).elim

theorem Flat.keysDistinctBelow (flat : h.Flat) {i : Nat}
    (distinct : (h.entries i).Pairwise fun x y => h.equal? x.1 y.1 ≠ some true) :
    h.KeysDistinctBelow (.map i) := by
  intro j leads
  obtain rfl := Value.map.inj (flat.eq_of_leads leads)
  exact distinct

theorem Flat.not_keyCycle (flat : h.Flat) : ¬ h.KeyCycle := by
  rintro ⟨i, k, w, mem, leads⟩
  obtain rfl := flat.eq_of_leads leads
  exact flat.not_holds _ i (.key mem rfl)

end Heap

namespace BinaryOp

theorem apply_eq_of_equal? {w : World} {a b : Value} {r : Bool}
    (answer : w.heap.equal? a b = some r) : BinaryOp.eq.apply a b w = .ok (.bool r) w := by
  simp [BinaryOp.apply, Action.equal, Action.answer, Action.unlessEndless, answer, bind,
    EStateM.bind, pure, EStateM.pure]

/--
The operator gives the same answer either way round, provided that no map inside its operands has
two equal keys or is found again inside one of its keys.
-/
theorem apply_eq_comm (w : World) (a b : Value)
    (acyclic : ¬ w.heap.KeyCycleBelow a) (acyclic' : ¬ w.heap.KeyCycleBelow b)
    (distinct : w.heap.KeysDistinctBelow a) (distinct' : w.heap.KeysDistinctBelow b) :
    ∃ r, BinaryOp.eq.apply a b w = .ok (.bool r) w ∧ BinaryOp.eq.apply b a w = .ok (.bool r) w := by
  cases answer : w.heap.equal? a b with
  | none => exact absurd (Heap.keyCycleBelow_of_equal?_eq_none answer).1 acyclic
  | some r =>
      have answer' := (Heap.equal?_comm acyclic acyclic' distinct distinct').symm.trans answer
      exact ⟨r, apply_eq_of_equal? answer, apply_eq_of_equal? answer'⟩

/-- Two maps with equal keys, lists in both, that were put in in another order. -/
def reordered : World :=
  ⟨⟨#[#[.bool true], #[.bool false], #[.bool false], #[.bool true]],
    #[[(.list 0, .unit), (.list 1, .unit)], [(.list 2, .unit), (.list 3, .unit)]], 0⟩, #[]⟩

theorem apply_eq_comm_reordered :
    ∃ r, BinaryOp.eq.apply (.map 0) (.map 1) reordered = .ok (.bool r) reordered ∧
      BinaryOp.eq.apply (.map 1) (.map 0) reordered = .ok (.bool r) reordered :=
  have flat : reordered.heap.Flat := by decide
  apply_eq_comm reordered (.map 0) (.map 1) (fun cycle => flat.not_keyCycle cycle.keyCycle)
    (fun cycle => flat.not_keyCycle cycle.keyCycle) (flat.keysDistinctBelow (by decide +kernel))
    (flat.keysDistinctBelow (by decide +kernel))

/-- A key of a map is changed so that it equals another key of the same map. -/
def changedKey : String :=
  "fun bool main() \x7b list k = []; map m = [[true]: true, k: true]; push(k, true); " ++
    "map n = [[true]: true, [false]: true]; return (m == n) == (n == m) \x7d"

/--
Without the condition the order matters, even where no key leads back to its map: after a key of `m`
has become equal to the other one, each key of `m` is found in `n`, but not the other way round.
-/
theorem apply_eq_not_comm :
    ∃ s w, Script.compile {} "t" changedKey = .ok s ∧
      s.run .standard {} .steady "main" [] ⟨.empty, #[]⟩ = .ok (.bool false) w ∧
      ¬ w.heap.KeyCycle := by
  obtain ⟨s, compiled, ran⟩ := Except.exists_of_any (show
    (Script.compile {} "t" changedKey).toOption.any (fun s =>
      (Action.truth? (s.run .standard {} .steady "main" [] ⟨.empty, #[]⟩)).any
        fun p => !p.1 && decide p.2.heap.Flat) = true by decide +kernel)
  obtain ⟨⟨b, w⟩, answered, test⟩ := (Option.any_eq_true _ _).mp ran
  obtain ⟨rfl, flat⟩ : b = false ∧ w.heap.Flat := by simpa using test
  exact ⟨s, w, compiled, Action.eq_of_truth? answered, flat.not_keyCycle⟩

end BinaryOp

end Formwork
