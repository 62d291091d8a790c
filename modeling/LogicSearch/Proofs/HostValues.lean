import LogicSearch.Value
import Mathlib.Data.Countable.Defs
import Mathlib.Order.Lattice.Nat

/-! # Values of the host program

    A host program can put values of any type with a symmetric and transitive
    equality into terms.  `Value.host` keeps of such a value its class under
    that equality.  This loses nothing: the values of a countable type can be
    given classes that are equal where the values are
    (`Value.exists_classes`), so what is said of all terms is said of terms
    with values of such types, too. -/

namespace LogicSearch.Value

variable {T : Type} {number : T → Nat} {eq : T → T → Bool}

/-- The least number of a value that the value is equal to.  A value that is
    not equal to itself has none. -/
noncomputable def classOf (number : T → Nat) (eq : T → T → Bool) (a : T) :
    Option Nat :=
  if eq a a = true then some (sInf {i | ∃ b, number b = i ∧ eq a b = true})
  else none

/-- Equal values have one class. -/
theorem classOf_eq_of_eq (hsymm : ∀ a b, eq a b = true → eq b a = true)
    (htrans : ∀ a b c, eq a b = true → eq b c = true → eq a c = true)
    {a b : T} (h : eq a b = true) :
    ∃ i, classOf number eq a = some i ∧ classOf number eq b = some i := by
  have ha : eq a a = true := htrans a b a h (hsymm a b h)
  have hb : eq b b = true := htrans b a b (hsymm a b h) h
  have hsame : ∀ c, eq a c = true ↔ eq b c = true := fun c =>
    ⟨htrans b a c (hsymm a b h), htrans a b c h⟩
  refine ⟨_, if_pos ha, ?_⟩
  rw [classOf, if_pos hb]
  simp only [hsame]

/-- Values of one class are equal, if no two values share a number. -/
theorem eq_of_classOf_eq (hsymm : ∀ a b, eq a b = true → eq b a = true)
    (htrans : ∀ a b c, eq a b = true → eq b c = true → eq a c = true)
    (hnumber : Function.Injective number) {a b : T} {i : Nat}
    (ha : classOf number eq a = some i) (hb : classOf number eq b = some i) :
    eq a b = true := by
  have least : ∀ {c : T}, classOf number eq c = some i →
      ∃ d, number d = i ∧ eq c d = true := by
    intro c hc
    rw [classOf] at hc
    split at hc
    · next hself =>
      cases hc
      exact Nat.sInf_mem (s := {i | ∃ d, number d = i ∧ eq c d = true})
        ⟨number c, c, rfl, hself⟩
    · cases hc
  obtain ⟨d, hd, had⟩ := least ha
  obtain ⟨e, he, hbe⟩ := least hb
  have hde : d = e := hnumber (hd.trans he.symm)
  rw [← hde] at hbe
  exact htrans a d b had (hsymm b d hbe)

theorem equal_host (type : String) (c c' : Option Nat) (text text' : String) :
    (host type c text).equal (host type c' text') = true
      ↔ ∃ i, c = some i ∧ c' = some i := by
  simp only [equal, beq_self_eq_true, Bool.true_and, Bool.and_eq_true,
    beq_iff_eq, Option.isSome_iff_exists]
  constructor
  · rintro ⟨⟨i, hi⟩, rfl⟩
    exact ⟨i, hi, hi⟩
  · rintro ⟨i, rfl, rfl⟩
    exact ⟨⟨i, rfl⟩, rfl⟩

/-- **EVERY TYPE OF A HOST PROGRAM IS THERE**: under classes of their own the
    values of a countable type are equal as they are under the equality of
    that type, if it is symmetric and transitive.  It need not be
    reflexive. -/
theorem exists_classes [Countable T]
    (hsymm : ∀ a b, eq a b = true → eq b a = true)
    (htrans : ∀ a b c, eq a b = true → eq b c = true → eq a c = true) :
    ∃ cls : T → Option Nat, ∀ (name : String) (text : T → String) (a b : T),
      (host name (cls a) (text a)).equal (host name (cls b) (text b))
        = eq a b := by
  obtain ⟨number, hnumber⟩ := exists_injective_nat T
  refine ⟨classOf number eq, ?_⟩
  intro name text a b
  rw [Bool.eq_iff_iff, equal_host]
  constructor
  · rintro ⟨i, ha, hb⟩
    exact eq_of_classOf_eq hsymm htrans hnumber ha hb
  · exact classOf_eq_of_eq hsymm htrans

end LogicSearch.Value
