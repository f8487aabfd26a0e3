import Formwork.Proofs.Impartial

/-!
# Other numbers for the same things

Things are told apart by numbers, so the same value, scope or collection can be written with other
numbers. Where a pairing gives each thing its new number, all that is related under it is the same
but for the numbers: `Pairing.RelatesContent.eq_renumber`.
-/

namespace Formwork

/-- A value with other numbers for the things that it names. -/
def Value.renumber (f : Thing → Nat → Nat) : Value → Value
  | .list i => .list (f .list i)
  | .map i => .map (f .map i)
  | .function c => .function ⟨f .function c.id, c.function, ⟨f .scope c.scope.index⟩⟩
  | v => v

/-- What a name stands for, with other numbers. -/
def Binding.renumber (f : Thing → Nat → Nat) : Binding → Binding
  | .value v constant => .value (v.renumber f) constant
  | b => b

/-- A scope that binds the same names, with other numbers. -/
def Scope.renumber (f : Thing → Nat → Nat) (s : Scope) : Scope where
  bindings := s.bindings.map fun (name, b) => (name, b.renumber f)
  parent := s.parent.map fun p => ⟨f .scope p.index⟩

/-- What a thing consists of, with other numbers. -/
def Contents.renumber (f : Thing → Nat → Nat) : Contents → Contents
  | .scope frame => .scope (frame.renumber f)
  | .list items => .list (items.map fun v => v.renumber f)
  | .map entries => .map (entries.map fun (key, v) => (key.renumber f, v.renumber f))
  | .function => .function

/-- How a statement ends, with other numbers. -/
def Flow.renumber (f : Thing → Nat → Nat) : Flow → Flow
  | .normal v => .normal (v.renumber f)
  | .returned v => .returned (v.renumber f)

@[simp]
theorem Value.renumber_same (v : Value) : v.renumber (fun _ i => i) = v := by
  cases v <;> rfl

@[simp]
theorem Binding.renumber_same (b : Binding) : b.renumber (fun _ i => i) = b := by
  cases b <;> simp [renumber]

@[simp]
theorem Scope.renumber_same (s : Scope) : s.renumber (fun _ i => i) = s := by
  simp [renumber]

@[simp]
theorem Contents.renumber_same (c : Contents) : c.renumber (fun _ i => i) = c := by
  cases c <;> simp [renumber]

@[simp]
theorem Flow.renumber_same (flow : Flow) : flow.renumber (fun _ i => i) = flow := by
  cases flow <;> simp [renumber]

namespace Pairing

/-- Each thing stands for the one with its new number. -/
def Renumbers (ρ : Pairing) (f : Thing → Nat → Nat) : Prop := ∀ ⦃k i j⦄, ρ k i j → j = f k i

variable {ρ : Pairing} {f : Thing → Nat → Nat} {i j : Nat}

variable (renumbers : ρ.Renumbers f)

include renumbers

theorem Relates.eq_renumber {v v' : Value} (related : ρ.Relates v v') : v' = v.renumber f := by
  cases related with
  | list paired => rw [renumbers paired, Value.renumber]
  | map paired => rw [renumbers paired, Value.renumber]
  | @function _ _ scope scope' definition paired home =>
      obtain rfl := renumbers paired
      obtain rfl : scope' = ⟨f .scope scope.index⟩ := congrArg ScopeId.mk (renumbers home)
      rfl
  | _ => rfl

theorem RelatesBinding.eq_renumber {b b' : Binding} (related : ρ.RelatesBinding b b') :
    b' = b.renumber f := by
  cases related with
  | value related constant => rw [related.eq_renumber renumbers, Binding.renumber]
  | function definition => rfl

theorem RelatesScope.eq_renumber {s s' : Scope} (related : ρ.RelatesScope i j s s') :
    s' = s.renumber f := by
  obtain ⟨xs, p⟩ := s
  obtain ⟨ys, q⟩ := s'
  obtain ⟨bindings, parent⟩ := related
  have names : ys = xs.map fun (name, b) => (name, b.renumber f) :=
    eq_map_of_forall₂ (bindings.imp fun _ _ both =>
      Prod.ext both.1.symm (both.2.eq_renumber renumbers))
  have nested : q = p.map fun p => ⟨f .scope p.index⟩ := by
    cases parent with
    | none => rfl
    | some both => exact congrArg (some ∘ ScopeId.mk) (renumbers both.2)
  rw [names, nested, Scope.renumber]

theorem RelatesContent.eq_renumber {c c' : Contents} (related : ρ.RelatesContent i j c c') :
    c' = c.renumber f := by
  cases related with
  | scope related => rw [related.eq_renumber renumbers, Contents.renumber]
  | list related =>
      have same := eq_map_of_forall₂ (related.imp fun _ _ => Relates.eq_renumber renumbers)
      rw [← Array.toList_map, Array.toList_inj] at same
      rw [same, Contents.renumber]
  | map related =>
      have same := eq_map_of_forall₂ (g := fun (key, v) => (key.renumber f, v.renumber f))
        (related.imp fun _ _ both =>
          Prod.ext (both.1.eq_renumber renumbers) (both.2.eq_renumber renumbers))
      rw [same, Contents.renumber]
  | function => rfl

theorem RelatesFlow.eq_renumber {flow flow' : Flow} (related : ρ.RelatesFlow flow flow') :
    flow' = flow.renumber f := by
  cases related with
  | normal related => rw [related.eq_renumber renumbers, Flow.renumber]
  | returned related => rw [related.eq_renumber renumbers, Flow.renumber]

end Pairing

end Formwork
