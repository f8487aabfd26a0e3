import Formwork.Value.Heap

/-!
# Equality

Two values are equal when they cannot be told apart by their contents: lists item by item, maps by
the value of each key; only function values are compared by which one they are. Collections may
contain themselves. While two collections are compared, meeting the same two again decides nothing,
so they count as equal there.

Looking up a key of a map starts a comparison of its own. Where keys lead back to the maps that hold
them this can go on forever; `Heap.equal?` then has no answer.

A map is locked while one of its entries is changed, and keys are compared meanwhile. A comparison
of a locked map with another one is broken off; `Heap.insertLocked` tells how changing an entry
ends.
-/

namespace Formwork

/-! ## Computations that may have no answer -/

/-- A kind of computations that may go on forever. -/
class Endless (m : Type → Type) where
  /-- Going on forever. -/
  endless {α : Type} : m α

export Endless (endless)

instance : Endless Option := ⟨none⟩

/-- Why a comparison has no answer. -/
inductive Halt where
  /-- It goes on forever. -/
  | endless
  /-- It is broken off at a locked map. -/
  | locked
deriving DecidableEq, Repr

instance : Endless (Except Halt) := ⟨.error .endless⟩

/-! ## Walks through collections -/

section Walks

variable {m : Type → Type} [Monad m]

/-- Whether a test holds of all pairs of two lists, asked in order up to the first that fails. -/
def allPairs {α β : Type} (test : α → β → m Bool) : List α → List β → m Bool
  | x :: xs, y :: ys => do
    if ← test x y then allPairs test xs ys else return false
  | _, _ => return true

/-- The value of the first key that matches. -/
def findKey? (sameKey : Value → Value → m Bool) (key : Value) : Entries → m (Option Value)
  | [] => return none
  | (k, v) :: rest => do
    if ← sameKey k key then return some v else findKey? sameKey key rest

/-- Whether a test holds of the two values of every key, the second looked up among `others`. -/
def allEntries (sameKey test : Value → Value → m Bool) (others : Entries) : Entries → m Bool
  | [] => return true
  | (k, v) :: rest => do
    match ← findKey? sameKey k others with
    | some other => if ← test v other then allEntries sameKey test others rest else return false
    | none => return false

/-- The entries where a key has a value: a key that matches keeps its place, a new one is last. -/
def insertKey (sameKey : Value → Value → m Bool) (key value : Value) : Entries → m Entries
  | [] => return [(key, value)]
  | (k, v) :: rest => do
    if ← sameKey k key then return (k, value) :: rest
    else return (k, v) :: (← insertKey sameKey key value rest)

end Walks

namespace Heap

/-! ## Comparisons -/

section Comparison

variable {m : Type → Type} [Monad m] [Endless m]

/--
Whether two values are equal, given how keys are compared and how two maps are looked into. The
pairs of collections being compared are `visiting`; at most `fuel` of them can be inside one
another.
-/
def equalWithin (h : Heap) (look : Nat → Nat → m Unit) (sameKey : Value → Value → m Bool) :
    Nat → List (Handle × Handle) → Value → Value → m Bool
  | _, _, .number x, .number y => return x == y
  | _, _, .bool x, .bool y => return x == y
  | _, _, .unit, .unit => return true
  | _, _, .function f, .function g => return f.id == g.id
  | fuel, visiting, .list a, .list b =>
    if a = b || visiting.contains (.list a, .list b) then return true
    else
      match fuel with
      | 0 => endless
      | fuel + 1 =>
        let xs := h.items a
        let ys := h.items b
        if xs.size = ys.size then
          allPairs (equalWithin h look sameKey fuel ((.list a, .list b) :: visiting))
            xs.toList ys.toList
        else return false
  | fuel, visiting, .map a, .map b =>
    if a = b || visiting.contains (.map a, .map b) then return true
    else
      match fuel with
      | 0 => endless
      | fuel + 1 => do
        look a b
        let xs := h.entries a
        let ys := h.entries b
        if xs.length = ys.length then
          allEntries sameKey (equalWithin h look sameKey fuel ((.map a, .map b) :: visiting)) ys xs
        else return false
  | _, _, _, _ => return false

/-- The number of pairs of collections. -/
def pairs (h : Heap) : Nat := h.size * h.size

/-- Whether two values are equal, where comparisons of keys go at most `levels` deep. -/
def equalAt (h : Heap) (look : Nat → Nat → m Unit) : Nat → Value → Value → m Bool
  | 0 => fun _ _ => endless
  | levels + 1 => h.equalWithin look (equalAt h look levels) (h.pairs + 1) []

/--
Whether two values are equal, given how two maps are looked into. A comparison that ends never meets
the same two keys inside their own comparison, so only one that goes on forever uses up the levels.
-/
def compare (h : Heap) (look : Nat → Nat → m Unit) (a b : Value) : m Bool :=
  h.equalAt look (h.pairs + 2) a b

end Comparison

/-- Two maps can be looked into while none is locked. -/
def lookFreely (_ _ : Nat) : Option Unit := some ()

/-- Two maps can be looked into while one is locked, if it is neither of them. -/
def lookBeside (locked i j : Nat) : Except Halt Unit :=
  if i = locked || j = locked then .error .locked else .ok ()

/-- Whether two values are equal. There is an answer unless the comparison goes on forever. -/
def equal? (h : Heap) (a b : Value) : Option Bool := h.compare lookFreely a b

/-- The value of a key among entries. -/
def lookup? (h : Heap) (key : Value) (entries : Entries) : Option (Option Value) :=
  findKey? h.equal? key entries

/-- The entries where a key has a value: an equal key keeps its place, a new one comes last. -/
def insert? (h : Heap) (key value : Value) (entries : Entries) : Option Entries :=
  insertKey h.equal? key value entries

/-- The entries where a key has a value, if they are those of a map that is locked meanwhile. -/
def insertLocked (h : Heap) (locked : Nat) (key value : Value) (entries : Entries) :
    Except Halt Entries :=
  insertKey (h.compare (lookBeside locked)) key value entries

end Heap

end Formwork
