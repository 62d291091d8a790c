import LogicSearch.Substitution.Basic
import LogicSearch.Term.Variables

/-! # The graph of a substitution

    A bound variable refers to the variables of its value.  A substitution
    is acyclic if no variable comes back to itself along references; these
    are the substitutions under which every term has a finite value. -/

namespace LogicSearch.Substitution

/-- The value of the variable with id `i` contains the variable with id
    `j`. -/
def Refers (s : Substitution) (i j : Nat) : Prop :=
  ∃ t, s.value? i = some t ∧ ∃ y ∈ t.vars, y.id = j

/-- References lead from `i` to `j`, in any number of steps. -/
inductive Reaches (s : Substitution) : Nat → Nat → Prop where
  | refl (i : Nat) : Reaches s i i
  | step {i j k : Nat} : s.Refers i j → Reaches s j k → Reaches s i k

/-- No variable comes back to itself. -/
def Acyclic (s : Substitution) : Prop :=
  ∀ i j, s.Refers i j → ¬ s.Reaches j i

/-- References lead from some variable of the term to `j`. -/
def ReachesFrom (s : Substitution) (t : Term) (j : Nat) : Prop :=
  ∃ x ∈ t.vars, s.Reaches x.id j

theorem Reaches.trans {s : Substitution} {i j k : Nat}
    (hij : s.Reaches i j) (hjk : s.Reaches j k) : s.Reaches i k := by
  induction hij with
  | refl i => exact hjk
  | step href _ ih => exact .step href (ih hjk)

theorem ReachesFrom.trans {s : Substitution} {t : Term} {i j : Nat}
    (h : s.ReachesFrom t i) (hij : s.Reaches i j) : s.ReachesFrom t j := by
  obtain ⟨x, hx, hxi⟩ := h
  exact ⟨x, hx, hxi.trans hij⟩

/-- What is bound to nothing reaches nothing else. -/
theorem Reaches.eq_of_value?_eq_none {s : Substitution} {i j : Nat}
    (h : s.Reaches i j) (hi : s.value? i = none) : j = i := by
  cases h with
  | refl => rfl
  | step href _ =>
      obtain ⟨t, ht, -⟩ := href
      rw [hi] at ht
      exact nomatch ht

theorem acyclic_empty : Acyclic .empty := by
  intro i j href
  obtain ⟨t, ht, -⟩ := href
  rw [value?_empty] at ht
  exact nomatch ht

/-- A larger substitution has the references of a smaller one. -/
theorem Reaches.mono {s s' : Substitution}
    (h : ∀ i t, s.value? i = some t → s'.value? i = some t) {i j : Nat}
    (hij : s.Reaches i j) : s'.Reaches i j := by
  induction hij with
  | refl i => exact .refl i
  | step href _ ih =>
      obtain ⟨t, ht, hy⟩ := href
      exact .step ⟨t, h _ t ht, hy⟩ ih

end LogicSearch.Substitution
