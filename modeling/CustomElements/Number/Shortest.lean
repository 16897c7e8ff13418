import CustomElements.Number.Binary64
import CustomElements.Text.Basic

/-!
# The shortest decimal text of a floating point number

The digits are the fewest that read back as the number, and of those the nearest to it. They are
written with a point from `0.0001` up to below `10 ^ 16`, and with an exponent otherwise.
-/

namespace CustomElements.Binary64

/-- Whether `digits * 10 ^ power` reads back as the magnitude of `x`. -/
def readsBack (x : Binary64) (digits : Nat) (power : Int) : Bool :=
  ofDecimal x.isNegative digits power == x

/-- The floor of `numerator / denominator / 10 ^ power`. -/
def onGrid (r : Ratio) (power : Int) : Nat :=
  if 0 ≤ power then r.numerator / (r.denominator * tenTo power.toNat)
  else r.numerator * tenTo (-power).toNat / r.denominator

/-- Whether the upper neighbour `low + 1` on the grid is nearer to the ratio than `low`. -/
def nearerAbove (r : Ratio) (low : Nat) (power : Int) : Bool :=
  let (n, d) := if 0 ≤ power then (r.numerator, r.denominator * tenTo power.toNat)
    else (r.numerator * tenTo (-power).toNat, r.denominator)
  (2 * low + 1) * d < 2 * n || ((2 * low + 1) * d == 2 * n && low % 2 == 1)

/-- The decimal on the grid of `10 ^ power` that reads back as `x`, if there is one; the
nearest of two. -/
def gridDecimal? (x : Binary64) (power : Int) : Option Nat :=
  let r := x.toRatio
  let low := onGrid r power
  let (first, second) := if nearerAbove r low power then (low + 1, low) else (low, low + 1)
  if 0 < first && readsBack x first power then some first
  else if 0 < second && readsBack x second power then some second
  else none

/-- The number of digits of the integer part of a ratio, or minus the zeros after the point. -/
def decimalPlaces (r : Ratio) : Int :=
  if r.denominator ≤ r.numerator then (Nat.toDigits 10 (r.numerator / r.denominator)).length
  else
    1 - (Nat.toDigits 10 (r.denominator / r.numerator)).length
      + (if r.denominator % r.numerator == 0
          && (Nat.toDigits 10 (r.denominator / r.numerator)).tail.all (· == '0') then 1 else 0)

/-- Tries grids from coarse to fine: `count` of them, the first of which is `10 ^ power`. -/
def shortestFrom (x : Binary64) : Nat → Int → Nat × Int
  | 0, power => (onGrid x.toRatio power, power)
  | count + 1, power =>
    match gridDecimal? x power with
    | some digits => (digits, power)
    | none => shortestFrom x count (power - 1)

/-- The shortest digits and the power of ten of the last of them. -/
def shortest (x : Binary64) : Nat × Int :=
  shortestFrom x 18 (decimalPlaces x.toRatio)

/-- Digits without the zeros at their end, and how many these were. -/
def dropZeros (digits : List Char) : List Char × Nat :=
  let kept := (digits.reverse.dropWhile (· == '0')).reverse
  (kept, digits.length - kept.length)

def toText (x : Binary64) : Text :=
  if x.isNaN then "nan"
  else
    let sign : Text := if x.isNegative then "-" else []
    if x.isInfinite then sign ++ "inf"
    else if x.significand == 0 then sign ++ "0.0"
    else
      let (value, power) := x.shortest
      let (digits, dropped) := dropZeros (Nat.toDigits 10 value)
      let count := digits.length
      let point : Int := count + (power + dropped)
      if -4 < point && point ≤ 16 then
        if point ≤ 0 then
          sign ++ "0." ++ Text.ofChars (List.replicate (-point).toNat '0' ++ digits)
        else if count ≤ point.toNat then
          sign ++ Text.ofChars (digits ++ List.replicate (point.toNat - count) '0') ++ ".0"
        else
          sign ++ Text.ofChars (digits.take point.toNat) ++ "."
            ++ Text.ofChars (digits.drop point.toNat)
      else
        let exponent := point - 1
        let shown := Nat.toDigits 10 exponent.natAbs
        let padded := if shown.length < 2 then '0' :: shown else shown
        let fraction : Text := if 1 < count then "." ++ Text.ofChars (digits.drop 1) else []
        let mark : Text := if exponent < 0 then "e-" else "e+"
        sign ++ Text.ofChars (digits.take 1) ++ fraction ++ mark ++ Text.ofChars padded

end CustomElements.Binary64
