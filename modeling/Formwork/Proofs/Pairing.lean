import Formwork.Proofs.Comparison
import Formwork.Proofs.Correspondence
import Formwork.Value.Text
import Mathlib.Order.Basic

/-!
# Things that stand for one another

Scopes, lists, maps and function values are told apart by their numbers. A pairing says which things
of one state stand for which things of another, one to one. Two values are related when they differ
in such numbers only, and two heaps when collections that are paired have related contents.

Programs see no difference between related values: `Pairing.Heaps.compare_eq` says so of equality,
`Pairing.Heaps.findKey?` and `Pairing.Heaps.insertKey` of keys, and `Pairing.Heaps.text_eq` of how
values are shown.
-/

namespace Formwork

theorem size_eq_of_forall₂ {R : Value → Value → Prop} {xs ys : Array Value}
    (related : List.Forall₂ R xs.toList ys.toList) : xs.size = ys.size := by
  simpa using related.length_eq

/-- The kinds of things that are numbered. -/
inductive Thing where
  | scope | list | map | function
deriving DecidableEq

/-- Which things stand for which others, one to one. -/
structure Pairing where
  rel : Thing → Nat → Nat → Prop
  oneToOne : ∀ {k i j i' j'}, rel k i j → rel k i' j' → (i = i' ↔ j = j')

namespace Pairing

instance : CoeFun Pairing fun _ => Thing → Nat → Nat → Prop := ⟨rel⟩

instance : Preorder Pairing where
  le ρ σ := ∀ ⦃k i j⦄, ρ k i j → σ k i j
  le_refl _ _ _ _ paired := paired
  le_trans _ _ _ first second _ _ _ paired := second (first paired)

/-- The pairing seen from the other side. -/
def flip (ρ : Pairing) : Pairing where
  rel k i j := ρ k j i
  oneToOne first second := (ρ.oneToOne first second).symm

/-- One more pair of things, neither of which was paired before. -/
def add (ρ : Pairing) (kind : Thing) (left right : Nat) (new : ∀ j, ¬ ρ kind left j)
    (new' : ∀ i, ¬ ρ kind i right) : Pairing where
  rel k i j := ρ k i j ∨ k = kind ∧ i = left ∧ j = right
  oneToOne := by
    rintro k i j i' j' (old | ⟨rfl, rfl, rfl⟩) (old' | ⟨same, rfl, rfl⟩)
    · exact ρ.oneToOne old old'
    · subst same
      constructor
      · rintro rfl
        exact absurd old (new j)
      · rintro rfl
        exact absurd old (new' i)
    · constructor
      · rintro rfl
        exact absurd old' (new j')
      · rintro rfl
        exact absurd old' (new' i')
    · simp

theorem le_add (ρ : Pairing) {kind : Thing} {left right : Nat} (new : ∀ j, ¬ ρ kind left j)
    (new' : ∀ i, ¬ ρ kind i right) : ρ ≤ ρ.add kind left right new new' :=
  fun _ _ _ paired => .inl paired

theorem add_self (ρ : Pairing) {kind : Thing} {left right : Nat} (new : ∀ j, ¬ ρ kind left j)
    (new' : ∀ i, ¬ ρ kind i right) : ρ.add kind left right new new' kind left right :=
  .inr ⟨rfl, rfl, rfl⟩

/-- Values that differ only in which of two paired things they name. -/
inductive Relates (ρ : Pairing) : Value → Value → Prop
  | number (x : Float) : Relates ρ (.number x) (.number x)
  | bool (b : Bool) : Relates ρ (.bool b) (.bool b)
  | unit : Relates ρ .unit .unit
  | list {i j : Nat} (paired : ρ .list i j) : Relates ρ (.list i) (.list j)
  | map {i j : Nat} (paired : ρ .map i j) : Relates ρ (.map i) (.map j)
  | function {id id' : Nat} {scope scope' : ScopeId} (definition : FunctionDef)
      (paired : ρ .function id id') (home : ρ .scope scope.index scope'.index) :
      Relates ρ (.function ⟨id, definition, scope⟩) (.function ⟨id', definition, scope'⟩)

/-- Entries of maps with related keys and values. -/
def RelatesEntry (ρ : Pairing) (x y : Value × Value) : Prop :=
  ρ.Relates x.1 y.1 ∧ ρ.Relates x.2 y.2

variable {ρ σ : Pairing}

theorem Relates.mono (more : ρ ≤ σ) {v v' : Value} (related : ρ.Relates v v') :
    σ.Relates v v' := by
  cases related with
  | number x => exact .number x
  | bool b => exact .bool b
  | unit => exact .unit
  | list paired => exact .list (more paired)
  | map paired => exact .map (more paired)
  | function definition paired home => exact .function definition (more paired) (more home)

theorem Relates.flip {v v' : Value} (related : ρ.Relates v v') : ρ.flip.Relates v' v := by
  cases related with
  | number x => exact .number x
  | bool b => exact .bool b
  | unit => exact .unit
  | list paired => exact .list paired
  | map paired => exact .map paired
  | function definition paired home => exact .function definition paired home

theorem Relates.kind_eq {v v' : Value} (related : ρ.Relates v v') : v.kind = v'.kind := by
  cases related <;> rfl

theorem relates_list_iff {i : Nat} {v : Value} :
    ρ.Relates (.list i) v ↔ ∃ j, v = .list j ∧ ρ .list i j := by
  constructor
  · rintro (_ | _ | _ | paired)
    exact ⟨_, rfl, paired⟩
  · rintro ⟨j, rfl, paired⟩
    exact .list paired

theorem relates_map_iff {i : Nat} {v : Value} :
    ρ.Relates (.map i) v ↔ ∃ j, v = .map j ∧ ρ .map i j := by
  constructor
  · rintro (_ | _ | _ | _ | paired)
    exact ⟨_, rfl, paired⟩
  · rintro ⟨j, rfl, paired⟩
    exact .map paired

theorem RelatesEntry.mono (more : ρ ≤ σ) {x y : Value × Value} (related : ρ.RelatesEntry x y) :
    σ.RelatesEntry x y :=
  ⟨related.1.mono more, related.2.mono more⟩

theorem RelatesEntry.flip {x y : Value × Value} (related : ρ.RelatesEntry x y) :
    ρ.flip.RelatesEntry y x :=
  ⟨related.1.flip, related.2.flip⟩

/-- Heaps in which paired collections exist and have related contents. -/
structure Heaps (ρ : Pairing) (h h' : Heap) : Prop where
  lists {i j : Nat} (paired : ρ .list i j) :
    (i < h.lists.size ∧ j < h'.lists.size) ∧
      List.Forall₂ ρ.Relates (h.items i).toList (h'.items j).toList
  maps {i j : Nat} (paired : ρ .map i j) :
    (i < h.maps.size ∧ j < h'.maps.size) ∧
      List.Forall₂ ρ.RelatesEntry (h.entries i) (h'.entries j)
  functions {i j : Nat} (paired : ρ .function i j) : i < h.functions ∧ j < h'.functions

theorem Heaps.flip {h h' : Heap} (heaps : ρ.Heaps h h') : ρ.flip.Heaps h' h where
  lists paired := by
    obtain ⟨⟨left, right⟩, related⟩ := heaps.lists paired
    exact ⟨⟨right, left⟩, (related.imp fun _ _ => Relates.flip).flip⟩
  maps paired := by
    obtain ⟨⟨left, right⟩, related⟩ := heaps.maps paired
    exact ⟨⟨right, left⟩, (related.imp fun _ _ => RelatesEntry.flip).flip⟩
  functions paired := (heaps.functions paired).symm

/-! ## Collections being visited -/

/-- Collections that are paired. -/
def RelatesHandle (ρ : Pairing) : Handle → Handle → Prop
  | .list i, .list j => ρ .list i j
  | .map i, .map j => ρ .map i j
  | _, _ => False

theorem biUnique_relatesHandle (ρ : Pairing) : Relator.BiUnique ρ.RelatesHandle := by
  constructor
  · intro c d e left right
    cases c <;> cases d <;> cases e <;> simp_all [RelatesHandle]
    · exact (ρ.oneToOne left right).mpr rfl
    · exact (ρ.oneToOne left right).mpr rfl
  · intro c d e left right
    cases c <;> cases d <;> cases e <;> simp_all [RelatesHandle]
    · exact (ρ.oneToOne left right).mp rfl
    · exact (ρ.oneToOne left right).mp rfl

/-- Two collections on each side, paired one by one. -/
def RelatesHandles (ρ : Pairing) (p q : Handle × Handle) : Prop :=
  ρ.RelatesHandle p.1 q.1 ∧ ρ.RelatesHandle p.2 q.2

theorem biUnique_relatesHandles (ρ : Pairing) : Relator.BiUnique ρ.RelatesHandles := by
  obtain ⟨left, right⟩ := ρ.biUnique_relatesHandle
  constructor
  · intro p q r first second
    exact Prod.ext (left first.1 second.1) (left first.2 second.2)
  · intro p q r first second
    exact Prod.ext (right first.1 second.1) (right first.2 second.2)

/-! ## Equality -/

/-- What needs no look into the contents is answered alike. -/
theorem settled?_eq {visiting visiting' : List (Handle × Handle)}
    (visits : List.Forall₂ ρ.RelatesHandles visiting visiting') {a a' b b' : Value}
    (left : ρ.Relates a a') (right : ρ.Relates b b') :
    a.settled? visiting b = a'.settled? visiting' b' := by
  have met {c c' d d' : Handle} (first : ρ.RelatesHandle c c') (second : ρ.RelatesHandle d d') :
      (c, d) ∈ visiting ↔ (c', d') ∈ visiting' :=
    List.rel_mem ρ.biUnique_relatesHandles (show ρ.RelatesHandles (c, d) (c', d') from
      ⟨first, second⟩) visits
  cases left with
  | @list i i' paired =>
      cases right with
      | @list j j' paired' =>
          have same : (.list i, .list j) ∈ visiting ↔ (.list i', .list j') ∈ visiting' :=
            met paired paired'
          simp only [Value.settled?, ρ.oneToOne paired paired', same]
      | _ => rfl
  | @map i i' paired =>
      cases right with
      | @map j j' paired' =>
          have same : (.map i, .map j) ∈ visiting ↔ (.map i', .map j') ∈ visiting' :=
            met paired paired'
          simp only [Value.settled?, ρ.oneToOne paired paired', same]
      | _ => rfl
  | function definition paired home =>
      cases right with
      | function definition' paired' home' =>
          have same := ρ.oneToOne paired paired'
          exact congrArg some (Bool.eq_iff_iff.mpr (by simpa using same))
      | _ => rfl
  | _ => cases right <;> rfl

section Comparison

variable {m : Type → Type} [Endless m]

/-- Two ways of looking into two maps, neither of which takes forever, agree on paired maps. -/
structure Looks (ρ : Pairing) (look look' : Nat → Nat → m Unit) : Prop where
  ends (i j : Nat) : look i j ≠ endless
  ends' (i j : Nat) : look' i j ≠ endless
  same ⦃i i' j j' : Nat⦄ (left : ρ .map i i') (right : ρ .map j j') : look i j = look' i' j'

theorem Looks.flip {look look' : Nat → Nat → m Unit} (looks : ρ.Looks look look') :
    ρ.flip.Looks look' look where
  ends := looks.ends'
  ends' := looks.ends
  same _ _ _ _ left right := (looks.same left right).symm

variable (ρ) in
theorem Looks.freely : ρ.Looks Heap.lookFreely Heap.lookFreely where
  ends := Heap.lookFreely_ne_endless
  ends' := Heap.lookFreely_ne_endless
  same _ _ _ _ _ _ := rfl

theorem Looks.beside {locked locked' : Nat} (paired : ρ .map locked locked') :
    ρ.Looks (Heap.lookBeside locked) (Heap.lookBeside locked') where
  ends := Heap.lookBeside_ne_endless locked
  ends' := Heap.lookBeside_ne_endless locked'
  same _ _ _ _ left right := by
    simp only [Heap.lookBeside, ρ.oneToOne left paired, ρ.oneToOne right paired]

namespace Heaps

variable [Monad m] [LawfulEndless m] {look look' : Nat → Nat → m Unit} {h h' : Heap}
  (heaps : ρ.Heaps h h')

include heaps

theorem listAnswer {test test' : Value → Value → m Bool}
    (tests : ∀ x x' y y', ρ.Relates x x' → ρ.Relates y y' →
      Approximates Eq (test x y) (test' x' y'))
    {i i' j j' : Nat} (paired : ρ .list i i') (paired' : ρ .list j j') :
    Approximates Eq (h.listAnswer test i j) (h'.listAnswer test' i' j') := by
  have left := (heaps.lists paired).2
  have right := (heaps.lists paired').2
  unfold Heap.listAnswer
  rw [← size_eq_of_forall₂ left, ← size_eq_of_forall₂ right]
  split
  · exact Approximates.lifting.allPairs left right tests
  · exact .refl _

theorem mapAnswer {sameKey sameKey' test test' : Value → Value → m Bool}
    (keys : ∀ x x' y y', ρ.Relates x x' → ρ.Relates y y' →
      Approximates Eq (sameKey x y) (sameKey' x' y'))
    (values : ∀ x x' y y', ρ.Relates x x' → ρ.Relates y y' →
      Approximates Eq (test x y) (test' x' y'))
    {i i' j j' : Nat} (paired : ρ .map i i') (paired' : ρ .map j j') :
    Approximates Eq (h.mapAnswer sameKey test i j) (h'.mapAnswer sameKey' test' i' j') := by
  have left := (heaps.maps paired).2
  have right := (heaps.maps paired').2
  unfold Heap.mapAnswer
  rw [← left.length_eq, ← right.length_eq]
  split
  · exact Approximates.lifting.allEntries right left keys values
  · exact .refl _

theorem mem_handles {c d : Handle} (paired : ρ.RelatesHandle c d) :
    c ∈ h.handles ∧ d ∈ h'.handles := by
  cases c <;> cases d <;> simp only [RelatesHandle] at paired
  · obtain ⟨⟨left, right⟩, -⟩ := heaps.lists paired
    simp [Heap.handles, left, right]
  · obtain ⟨⟨left, right⟩, -⟩ := heaps.maps paired
    simp [Heap.handles, left, right]

/-- With fuel for the pairs not visited yet, what a comparison does is done on the other side. -/
theorem equalWithin (looks : ρ.Looks look look') {sameKey : Value → Value → m Bool}
    (keys : ∀ x x' y y', ρ.Relates x x' → ρ.Relates y y' →
      Approximates Eq (sameKey x y) (h'.compare look' x' y'))
    {fuel fuel' : Nat} {visiting visiting' : List (Handle × Handle)}
    (visits : List.Forall₂ ρ.RelatesHandles visiting visiting')
    (fuelled : h'.Fuelled fuel' visiting') {a a' b b' : Value} (left : ρ.Relates a a')
    (right : ρ.Relates b b') :
    Approximates Eq (h.equalWithin look sameKey fuel visiting a b)
      (h'.equalWithin look' (h'.compare look') fuel' visiting' a' b') := by
  induction fuel generalizing fuel' visiting visiting' a a' b b' with
  | zero =>
      have settled_eq := settled?_eq visits left right
      cases settled : a.settled? visiting b with
      | none =>
          rw [Heap.equalWithin_zero settled]
          exact .endless _
      | some s =>
          rw [Heap.equalWithin_of_settled settled,
            Heap.equalWithin_of_settled (settled_eq.symm.trans settled)]
          exact .refl _
  | succ fuel ih =>
      obtain ⟨fuel', rfl⟩ := Nat.exists_eq_succ_of_ne_zero fuelled.fuel_ne_zero
      have settled_eq := settled?_eq visits left right
      obtain ⟨s, settled⟩ | ⟨i, j, rfl, rfl, new⟩ | ⟨i, j, rfl, rfl, new⟩ :=
        a.settled?_cases visiting b
      · rw [Heap.equalWithin_of_settled settled,
          Heap.equalWithin_of_settled (settled_eq.symm.trans settled)]
        exact .refl _
      · obtain ⟨i', rfl, paired⟩ := relates_list_iff.mp left
        obtain ⟨j', rfl, paired'⟩ := relates_list_iff.mp right
        have new' := settled_eq.symm.trans new
        have visits' : List.Forall₂ ρ.RelatesHandles ((.list i, .list j) :: visiting)
            ((.list i', .list j') :: visiting') := .cons ⟨paired, paired'⟩ visits
        have fuelled' : h'.Fuelled fuel' ((.list i', .list j') :: visiting') :=
          fuelled.visit (by simp_all [Value.settled?])
            (heaps.mem_handles (c := .list i) (d := .list i') paired).2
            (heaps.mem_handles (c := .list j) (d := .list j') paired').2
        rw [Heap.equalWithin_list new, Heap.equalWithin_list new']
        exact heaps.listAnswer (fun _ _ _ _ => ih visits' fuelled') paired paired'
      · obtain ⟨i', rfl, paired⟩ := relates_map_iff.mp left
        obtain ⟨j', rfl, paired'⟩ := relates_map_iff.mp right
        have new' := settled_eq.symm.trans new
        have visits' : List.Forall₂ ρ.RelatesHandles ((.map i, .map j) :: visiting)
            ((.map i', .map j') :: visiting') := .cons ⟨paired, paired'⟩ visits
        have fuelled' : h'.Fuelled fuel' ((.map i', .map j') :: visiting') :=
          fuelled.visit (by simp_all [Value.settled?])
            (heaps.mem_handles (c := .map i) (d := .map i') paired).2
            (heaps.mem_handles (c := .map j) (d := .map j') paired').2
        rw [Heap.equalWithin_map new, Heap.equalWithin_map new', looks.same paired paired']
        exact .bind (.refl _) fun _ _ _ =>
          heaps.mapAnswer keys (fun _ _ _ _ => ih visits' fuelled') paired paired'

/-- What is done at any level is done on the other side. -/
theorem equalAt (looks : ρ.Looks look look') (levels : Nat) {a a' b b' : Value}
    (left : ρ.Relates a a') (right : ρ.Relates b b') :
    Approximates Eq (h.equalAt look levels a b) (h'.compare look' a' b') := by
  induction levels generalizing a a' b b' with
  | zero => exact .endless _
  | succ levels ih =>
      rw [Heap.compare_eq looks.ends']
      exact heaps.equalWithin looks (fun _ _ _ _ => ih) .nil (.start h') left right

/-- Related values are compared alike, whatever comes of it. -/
theorem compare_eq (looks : ρ.Looks look look') {a a' b b' : Value} (left : ρ.Relates a a')
    (right : ρ.Relates b b') : h.compare look a b = h'.compare look' a' b' := by
  have there := heaps.equalAt looks (h.pairs + 2) left right
  have back := heaps.flip.equalAt looks.flip (h'.pairs + 2) left.flip right.flip
  by_cases forever : h.compare look a b = endless
  · by_contra differ
    exact differ (back.eq fun forever' => differ (forever.trans forever'.symm))
  · exact (there.eq forever).symm

variable {key key' value value' : Value} {entries entries' : Entries}

theorem findKey? (looks : ρ.Looks look look') (keys : ρ.Relates key key')
    (related : List.Forall₂ ρ.RelatesEntry entries entries') :
    Approximates (Option.Rel ρ.Relates) (findKey? (h.compare look) key entries)
      (Formwork.findKey? (h'.compare look') key' entries') :=
  Approximates.lifting.findKey? related fun _ _ known =>
    heaps.compare_eq looks known keys ▸ Approximates.refl _

theorem insertKey (looks : ρ.Looks look look') (keys : ρ.Relates key key')
    (values : ρ.Relates value value') (related : List.Forall₂ ρ.RelatesEntry entries entries') :
    Approximates (List.Forall₂ ρ.RelatesEntry) (insertKey (h.compare look) key value entries)
      (Formwork.insertKey (h'.compare look') key' value' entries') :=
  Approximates.lifting.insertKey keys values related fun _ _ known =>
    heaps.compare_eq looks known keys ▸ Approximates.refl _

end Heaps

end Comparison

/-! ## Texts -/

/-- Fuel for every collection that is not being shown yet. -/
structure ShowsAll (h : Heap) (fuel : Nat) (visiting : List Handle) : Prop where
  nodup : visiting.Nodup
  known : visiting ⊆ h.handles
  room : h.size < fuel + visiting.length

namespace ShowsAll

variable {h : Heap} {fuel : Nat} {visiting : List Handle}

theorem start (h : Heap) : ShowsAll h (h.size + 1) [] := ⟨.nil, by simp, by simp⟩

theorem fuel_ne_zero (shows : ShowsAll h fuel visiting) : fuel ≠ 0 := by
  have bound := (List.subperm_of_subset shows.nodup shows.known).length_le
  have room := shows.room
  rw [Heap.length_handles] at bound
  omega

theorem visit (shows : ShowsAll h (fuel + 1) visiting) {c : Handle} (new : c ∉ visiting)
    (known : c ∈ h.handles) : ShowsAll h fuel (c :: visiting) where
  nodup := shows.nodup.cons new
  known := List.cons_subset.mpr ⟨known, shows.known⟩
  room := by
    have room := shows.room
    rw [List.length_cons]
    omega

end ShowsAll

namespace Heaps

variable {h h' : Heap} (heaps : ρ.Heaps h h')

include heaps

theorem textWithin_eq {fuel fuel' : Nat} {visiting visiting' : List Handle}
    (visits : List.Forall₂ ρ.RelatesHandle visiting visiting')
    (shows : ShowsAll h fuel visiting) (shows' : ShowsAll h' fuel' visiting') {v v' : Value}
    (related : ρ.Relates v v') :
    h.textWithin fuel visiting v = h'.textWithin fuel' visiting' v' := by
  induction fuel generalizing fuel' visiting visiting' v v' with
  | zero => exact absurd rfl shows.fuel_ne_zero
  | succ fuel ih =>
      obtain ⟨fuel', rfl⟩ := Nat.exists_eq_succ_of_ne_zero shows'.fuel_ne_zero
      have met {c d : Handle} (paired : ρ.RelatesHandle c d) : c ∈ visiting ↔ d ∈ visiting' :=
        List.rel_mem ρ.biUnique_relatesHandle paired visits
      -- Inside a collection that is not being shown yet, there is fuel for all others.
      have inner {c d : Handle} (paired : ρ.RelatesHandle c d) (new : c ∉ visiting)
          {x x' : Value} (related : ρ.Relates x x') :
          h.textWithin fuel (c :: visiting) x = h'.textWithin fuel' (d :: visiting') x' :=
        ih (.cons paired visits) (shows.visit new (heaps.mem_handles paired).1)
          (shows'.visit (mt (met paired).mpr new) (heaps.mem_handles paired).2) related
      cases related with
      | number x => rfl
      | bool b => rfl
      | unit => rfl
      | function definition paired home => rfl
      | @list i j paired =>
          have same : .list i ∈ visiting ↔ .list j ∈ visiting' := met paired
          simp only [Heap.textWithin, List.contains_iff_mem, same]
          split
          · rfl
          · rename_i new
            have texts := List.rel_map (R := ρ.Relates) (P := Eq)
              (fun _ _ => inner (c := .list i) (d := .list j) paired (mt same.mp new))
              (heaps.lists paired).2
            rw [List.forall₂_eq_eq_eq] at texts
            rw [texts]
      | @map i j paired =>
          have same : .map i ∈ visiting ↔ .map j ∈ visiting' := met paired
          simp only [Heap.textWithin, List.contains_iff_mem, same]
          split
          · rfl
          · rename_i new
            have shown {x x' : Value} : ρ.Relates x x' →
                h.textWithin fuel (.map i :: visiting) x =
                  h'.textWithin fuel' (.map j :: visiting') x' :=
              inner (c := .map i) (d := .map j) paired (mt same.mp new)
            have contents := (heaps.maps paired).2
            have texts := List.rel_map (P := Eq) (fun x y related =>
              congrArg₂ (fun k v : String => k ++ ": " ++ v)
                (shown related.1) (shown related.2)) contents
            rw [List.forall₂_eq_eq_eq] at texts
            generalize h.entries i = entries at contents texts
            generalize h'.entries j = entries' at contents texts
            cases contents with
            | nil => rfl
            | cons _ _ => simp only [texts]

/-- Related values are shown alike. -/
theorem text_eq {v v' : Value} (related : ρ.Relates v v') : h.text v = h'.text v' :=
  heaps.textWithin_eq .nil (.start h) (.start h') related

/-- Related values are shown alike for inspection. -/
theorem inspect_eq {v v' : Value} (related : ρ.Relates v v') : h.inspect v = h'.inspect v' := by
  have shown := heaps.text_eq related
  cases related with
  | number x => rfl
  | bool b => rfl
  | unit => rfl
  | function definition paired home => rfl
  | list paired => exact congrArg (fun text => "List(" ++ text ++ ")") shown
  | map paired => exact congrArg (fun text => "Map(" ++ text ++ ")") shown

end Heaps

end Pairing

end Formwork
