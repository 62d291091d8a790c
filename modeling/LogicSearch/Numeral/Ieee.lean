/-! # Binary interchange formats, read bit by bit

    A float is kept as its bit pattern.  This module reads the fields of a
    pattern as naturals, over a format record, so that one set of functions
    serves the 32-bit and the 64-bit format and no runtime float operation
    is involved.

    - `Format.sameNumber` is numeric equality: a NaN equals nothing, and the
      two zeros equal each other.
    - `Format.significand` and `Format.scale` give a finite pattern as
      `significand · 2 ^ scale`. -/

namespace LogicSearch.Numeral

/-- The widths of the two fields below the sign bit. -/
structure Format where
  fractionBits : Nat
  exponentBits : Nat
  deriving DecidableEq, Repr

namespace Format

/-- The 32-bit format. -/
def binary32 : Format := ⟨23, 8⟩

/-- The 64-bit format. -/
def binary64 : Format := ⟨52, 11⟩

variable (f : Format)

/-- The fraction field of a pattern. -/
def fraction (bits : Nat) : Nat := bits % Nat.pow 2 f.fractionBits

/-- The exponent field of a pattern, as stored. -/
def exponent (bits : Nat) : Nat :=
  bits / Nat.pow 2 f.fractionBits % Nat.pow 2 f.exponentBits

/-- The sign bit is set. -/
def isNegative (bits : Nat) : Bool :=
  bits / Nat.pow 2 (f.fractionBits + f.exponentBits) % 2 == 1

/-- The exponent field that marks infinities and NaNs. -/
def topExponent : Nat := Nat.pow 2 f.exponentBits - 1

/-- A NaN has the top exponent and a fraction. -/
def isNaN (bits : Nat) : Bool :=
  f.exponent bits == f.topExponent && f.fraction bits != 0

/-- An infinity has the top exponent and no fraction. -/
def isInfinite (bits : Nat) : Bool :=
  f.exponent bits == f.topExponent && f.fraction bits == 0

/-- Either zero. -/
def isZero (bits : Nat) : Bool :=
  f.exponent bits == 0 && f.fraction bits == 0

/-- Numeric equality of two patterns. -/
def sameNumber (a b : Nat) : Bool :=
  !f.isNaN a && !f.isNaN b && (a == b || f.isZero a && f.isZero b)

/-- The integer significand of a finite pattern, hidden bit included. -/
def significand (bits : Nat) : Nat :=
  if f.exponent bits = 0 then f.fraction bits
  else Nat.pow 2 f.fractionBits + f.fraction bits

/-- The power of two that the significand counts. -/
def scale (bits : Nat) : Int :=
  let bias : Nat := Nat.pow 2 (f.exponentBits - 1) - 1
  (max (f.exponent bits) 1 : Int) - bias - f.fractionBits

/-- The gap to the next smaller pattern is half the gap to the next larger
    one: the significand is the least of its exponent, and the exponent is
    not the least. -/
def isBinadeStart (bits : Nat) : Bool :=
  f.fraction bits == 0 && decide (1 < f.exponent bits)

/-! ## Numeric equality is symmetric and transitive -/

theorem sameNumber_comm (a b : Nat) :
    f.sameNumber a b = f.sameNumber b a := by
  unfold sameNumber
  rw [Bool.and_comm (!f.isNaN a), Bool.and_comm (f.isZero a),
    show (a == b) = (b == a) from BEq.comm]

/-- Only a NaN differs from itself. -/
theorem sameNumber_self (a : Nat) : f.sameNumber a a = !f.isNaN a := by
  simp [sameNumber]

theorem sameNumber_trans {a b c : Nat} (hab : f.sameNumber a b = true)
    (hbc : f.sameNumber b c = true) : f.sameNumber a c = true := by
  simp only [sameNumber, Bool.and_eq_true, Bool.or_eq_true, beq_iff_eq]
    at hab hbc ⊢
  obtain ⟨⟨ha, -⟩, hab⟩ := hab
  obtain ⟨⟨-, hc⟩, hbc⟩ := hbc
  refine ⟨⟨ha, hc⟩, ?_⟩
  rcases hab with rfl | ⟨haz, hbz⟩
  · exact hbc
  · rcases hbc with rfl | ⟨-, hcz⟩
    · exact Or.inr ⟨haz, hbz⟩
    · exact Or.inr ⟨haz, hcz⟩

end Format

end LogicSearch.Numeral
