import LogicSearch.Numeral.Ieee

/-! # The fewest digits that read back

    A positive finite pattern stands for the interval of reals that round
    to it.  Its shortest decimal is the point of the coarsest decimal grid
    that falls into the interval; of two such points the closer one, and of
    two equally close ones the larger.  Everything is exact arithmetic on
    naturals: an interval is three naturals over a common denominator. -/

namespace LogicSearch.Numeral

/-- The number `digits · 10 ^ exponent`. -/
structure Decimal where
  digits : Nat
  exponent : Int
  deriving DecidableEq, Repr

/-- A value and the ends of the interval that rounds to it, as numerators
    over one denominator. -/
structure Interval where
  low : Nat
  value : Nat
  high : Nat
  denominator : Nat
  closed : Bool
  deriving DecidableEq, Repr

namespace Interval

/-- Multiply by `base ^ e`. -/
def scaleBy (base : Nat) (e : Int) (i : Interval) : Interval :=
  if 0 ≤ e then
    let p := Nat.pow base e.toNat
    { i with low := i.low * p, value := i.value * p, high := i.high * p }
  else
    { i with denominator := i.denominator * Nat.pow base (-e).toNat }

/-- The reals that round to a positive finite pattern: from half the gap
    below to half the gap above, ends included exactly when the significand
    is even. -/
def ofBits (f : Format) (bits : Nat) : Interval :=
  let m := f.significand bits
  scaleBy 2 (f.scale bits - 2)
    { low := 4 * m - if f.isBinadeStart bits then 1 else 2
      value := 4 * m
      high := 4 * m + 2
      denominator := 1
      closed := m % 2 == 0 }

/-- The natural `n` lies in the interval. -/
def contains (i : Interval) (n : Nat) : Bool :=
  let x := n * i.denominator
  if i.closed then decide (i.low ≤ x) && decide (x ≤ i.high)
  else decide (i.low < x) && decide (x < i.high)

/-- A natural of the interval next to its value, the closer of the two and
    the larger of two equally close ones. -/
def nearest? (i : Interval) : Option Nat :=
  let n := i.value / i.denominator
  match i.contains n, i.contains (n + 1) with
  | true, true =>
      if 2 * i.value < (2 * n + 1) * i.denominator then some n
      else some (n + 1)
  | true, false => some n
  | false, true => some (n + 1)
  | false, false => none

/-- The least `k` with the value below `10 ^ k`: the binary logarithm fixes
    it up to one step. -/
def magnitude (i : Interval) : Int :=
  let log2 : Int := (i.value.log2 : Int) - i.denominator.log2 - 1
  let k := (log2 * 30103).fdiv 100000
  let below (k : Int) : Bool :=
    let j := i.scaleBy 10 (-k)
    decide (j.value < j.denominator)
  if below k then k
  else if below (k + 1) then k + 1
  else if below (k + 2) then k + 2
  else k + 3

end Interval

namespace Decimal

/-- The same number without trailing zeros in its digits. -/
def strip : Nat → Decimal → Decimal
  | 0, d => d
  | fuel + 1, d =>
      if d.digits % 10 = 0 then
        strip fuel { digits := d.digits / 10, exponent := d.exponent + 1 }
      else d

/-- The first grid from `count` digits on that has a point in the interval,
    trying `fuel` grids. -/
def search (i : Interval) (k : Int) : Nat → Nat → Option Decimal
  | 0, _ => none
  | fuel + 1, count =>
      match (i.scaleBy 10 (count - k)).nearest? with
      | some n => some { digits := n, exponent := k - count }
      | none => search i k fuel (count + 1)

/-- The shortest decimal of a positive finite pattern.  Seventeen digits
    always identify a 64-bit value; the exact value stands behind them so
    that the function never guesses. -/
def shortest (f : Format) (bits : Nat) : Decimal :=
  let i := Interval.ofBits f bits
  match search i i.magnitude 17 1 with
  | some d => d.strip 17
  | none =>
      let q := f.scale bits
      if 0 ≤ q then
        { digits := f.significand bits * Nat.pow 2 q.toNat, exponent := 0 }
      else
        { digits := f.significand bits * Nat.pow 5 (-q).toNat
          exponent := q }

end Decimal

end LogicSearch.Numeral
