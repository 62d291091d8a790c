import LogicSearch.Numeral.Shortest

/-! # How a number is written

    Integers are written in decimal.  A float is written with its shortest
    digits: positionally while its leading digit stands for `10 ^ -4` to
    `10 ^ 15`, always with a fraction, and otherwise with a bare exponent. -/

namespace LogicSearch.Numeral

/-- The decisions of a float layout. -/
structure Layout where
  /-- The least exponent of the leading digit that is written
      positionally. -/
  positionalFrom : Int
  /-- The first exponent of the leading digit above those that are written
      positionally. -/
  positionalBelow : Int
  /-- What follows the digits of an integral value in positional form. -/
  integralSuffix : String
  /-- What stands between the digits and the exponent. -/
  exponentMark : String
  notANumber : String
  infinity : String

/-- Positional from `10 ^ -4` to below `10 ^ 16`, `.0` after integral
    values, `e` before the exponent, a NaN without a sign. -/
def Layout.plain : Layout :=
  { positionalFrom := -4
    positionalBelow := 16
    integralSuffix := ".0"
    exponentMark := "e"
    notANumber := "NaN"
    infinity := "inf" }

/-- `n` zeros. -/
def zeros (n : Nat) : String := "".pushn '0' n

namespace Layout

/-- A decimal with a nonzero leading digit, as text. -/
def decimal (l : Layout) (d : Decimal) : String :=
  let digits := Nat.toDigits 10 d.digits
  let lead : Int := digits.length - 1 + d.exponent
  if l.positionalFrom ≤ lead ∧ lead < l.positionalBelow then
    if 0 ≤ d.exponent then
      String.ofList digits ++ zeros d.exponent.toNat ++ l.integralSuffix
    else if 0 ≤ lead then
      let whole := lead.toNat + 1
      String.ofList (digits.take whole) ++ "."
        ++ String.ofList (digits.drop whole)
    else
      "0." ++ zeros (-lead - 1).toNat ++ String.ofList digits
  else
    let rest := digits.drop 1
    String.ofList (digits.take 1)
      ++ (if rest.isEmpty then "" else "." ++ String.ofList rest)
      ++ l.exponentMark ++ toString lead

/-- A bit pattern as text. -/
def float (l : Layout) (f : Format) (bits : Nat) : String :=
  if f.isNaN bits then l.notANumber
  else
    let sign := if f.isNegative bits then "-" else ""
    if f.isInfinite bits then sign ++ l.infinity
    else if f.isZero bits then sign ++ "0" ++ l.integralSuffix
    else sign ++ l.decimal (Decimal.shortest f bits)

end Layout

end LogicSearch.Numeral
