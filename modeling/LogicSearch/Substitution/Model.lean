import LogicSearch.Substitution.Basic
import LogicSearch.Term.Variables

/-! # Assignments

    An assignment gives every variable a term.  It satisfies a substitution
    if it makes every bound variable equal to its value.  Extending a
    substitution adds one equation (`satisfies_extend`). -/

namespace LogicSearch

/-- A term for every id. -/
abbrev Assignment := Nat → Term

namespace Assignment

/-- The term that a term stands for. -/
def value (θ : Assignment) (t : Term) : Term :=
  t.instantiate fun x => θ x.id

/-- All terms of the assignment are without variables. -/
def IsGround (θ : Assignment) : Prop := ∀ i, (θ i).IsGround

/-- The two terms stand for equal terms. -/
def Equates (θ : Assignment) (u v : Term) : Prop :=
  (θ.value u).equal (θ.value v) = true

/-- Every bound variable stands for what its value stands for. -/
def Satisfies (θ : Assignment) (s : Substitution) : Prop :=
  ∀ x t, s.get? x = some t → θ.Equates (.var x) t

/-- The assignments agree on the first `n` variables. -/
def AgreeBelow (n : Nat) (θ θ' : Assignment) : Prop :=
  ∀ i, i < n → θ i = θ' i

theorem satisfies_empty (θ : Assignment) : θ.Satisfies .empty := by
  intro x t h
  rw [Substitution.get?_empty] at h
  exact nomatch h

/-- Binding one more variable adds one equation. -/
theorem satisfies_extend {θ : Assignment} {s s' : Substitution} {x : Var}
    {t : Term} (h : s.extend x t = .ok s') :
    θ.Satisfies s' ↔ θ.Satisfies s ∧ θ.Equates (.var x) t := by
  have hx : s.get? x = none := (Substitution.extend_eq_ok_iff.mp h).1
  constructor
  · intro hs
    refine ⟨fun y u hy => hs y u ?_, hs x t ?_⟩
    · rw [Substitution.get?_extend h]
      by_cases hyx : y.id = x.id
      · rw [Substitution.get?_congr hyx, hx] at hy
        exact nomatch hy
      · rw [if_neg hyx]
        exact hy
    · rw [Substitution.get?_extend h, if_pos rfl]
  · rintro ⟨hs, hxt⟩ y u hy
    rw [Substitution.get?_extend h] at hy
    by_cases hyx : y.id = x.id
    · rw [if_pos hyx] at hy
      cases hy
      show (θ y.id).equal (θ.value t) = true
      rw [hyx]
      exact hxt
    · rw [if_neg hyx] at hy
      exact hs y u hy

end Assignment

end LogicSearch
