/-! # Two computations in step

    Two computations that may fail are in step if both succeed, with related
    results, or both fail, with related failures. -/

namespace LogicSearch

variable {ε ε' α β : Type}

/-- Both succeed or both fail, with related results. -/
inductive InStep (E : ε → ε' → Prop) (R : α → β → Prop) :
    Except ε α → Except ε' β → Prop where
  | ok {a : α} {b : β} : R a b → InStep E R (.ok a) (.ok b)
  | error {e : ε} {e' : ε'} : E e e' → InStep E R (.error e) (.error e')

variable {E : ε → ε' → Prop} {R : α → β → Prop} {x : Except ε α}
  {y : Except ε' β}

theorem InStep.cases (h : InStep E R x y) :
    (∃ a b, x = .ok a ∧ y = .ok b ∧ R a b) ∨
    ∃ e e', x = .error e ∧ y = .error e' ∧ E e e' := by
  cases h with
  | ok hab => exact .inl ⟨_, _, rfl, rfl, hab⟩
  | error he => exact .inr ⟨_, _, rfl, rfl, he⟩

end LogicSearch
