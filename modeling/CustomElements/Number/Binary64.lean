/-!
# Binary floating point numbers of 64 bits

A number is kept as its bits and computed with exactly: each operation takes the exact result and
rounds it to the nearest number, a tie going to the even neighbour.
-/

namespace CustomElements

def twoTo (n : Nat) : Nat := Nat.pow 2 n

def tenTo (n : Nat) : Nat := Nat.pow 10 n

/-- A floating point number with a sign bit, 11 exponent bits and 52 fraction bits. -/
structure Binary64 where
  bits : UInt64
deriving DecidableEq, Inhabited

/-- An exact rational number with a sign of its own, so that zero has two. -/
structure Ratio where
  negative : Bool
  numerator : Nat
  denominator : Nat

namespace Binary64

def isNegative (x : Binary64) : Bool := 0x8000000000000000 ≤ x.bits.toNat

def exponentField (x : Binary64) : Nat := x.bits.toNat / twoTo 52 % twoTo 11

def fractionField (x : Binary64) : Nat := x.bits.toNat % twoTo 52

def isNaN (x : Binary64) : Bool := x.exponentField == 0x7FF && x.fractionField != 0

def isInfinite (x : Binary64) : Bool := x.exponentField == 0x7FF && x.fractionField == 0

/-- The significand: the magnitude of a finite number is `significand * 2 ^ exponent`. -/
def significand (x : Binary64) : Nat :=
  if x.exponentField == 0 then x.fractionField else x.fractionField + twoTo 52

/-- The exponent that belongs to the significand. -/
def exponent (x : Binary64) : Int :=
  if x.exponentField == 0 then -1074 else (x.exponentField : Int) - 1075

/-- The number with this sign and these bits below the sign. -/
def ofMagnitude (negative : Bool) (magnitude : Nat) : Binary64 :=
  ⟨UInt64.ofNat (if negative then magnitude + twoTo 63 else magnitude)⟩

def infinity (negative : Bool) : Binary64 := ofMagnitude negative (0x7FF * twoTo 52)

def nan : Binary64 := ofMagnitude false (0x7FF * twoTo 52 + twoTo 51)

def zero : Binary64 := ofMagnitude false 0

/-- The quotient rounded to the nearest integer, a tie going to the even one. -/
def roundQuotient (numerator denominator : Nat) : Nat :=
  let q := numerator / denominator
  let r := numerator % denominator
  if 2 * r < denominator then q
  else if denominator < 2 * r then q + 1
  else if q % 2 == 0 then q else q + 1

def ofRatio (r : Ratio) : Binary64 :=
  if r.numerator == 0 || r.denominator == 0 then ofMagnitude r.negative 0
  else
    let scaled (e : Int) : Nat × Nat :=
      if 0 ≤ e then (r.numerator, r.denominator * twoTo e.toNat)
      else (r.numerator * twoTo (-e).toNat, r.denominator)
    let guess : Int := (r.numerator.log2 : Int) - r.denominator.log2
    let (n, d) := scaled guess
    let top := if d ≤ n then guess else guess - 1
    let e := max (top - 52) (-1074)
    let (n, d) := scaled e
    let m := roundQuotient n d
    let (m, e) := if m == twoTo 53 then (twoTo 52, e + 1) else (m, e)
    if 971 < e then infinity r.negative
    else if m < twoTo 52 then ofMagnitude r.negative m
    else ofMagnitude r.negative ((e + 1075).toNat * twoTo 52 + (m - twoTo 52))

/-- The exact value of a finite number. -/
def toRatio (x : Binary64) : Ratio :=
  if 0 ≤ x.exponent then ⟨x.isNegative, x.significand * twoTo x.exponent.toNat, 1⟩
  else ⟨x.isNegative, x.significand, twoTo (-x.exponent).toNat⟩

/--
The nearest number to `digits * 10 ^ power`. Beyond 400 places the result is infinite or zero
whatever the digits are.
-/
def ofDecimal (negative : Bool) (digits : Nat) (power : Int) : Binary64 :=
  let places := (Nat.toDigits 10 digits).length
  if digits == 0 then ofMagnitude negative 0
  else if 400 < power + places then infinity negative
  else if power + places < -400 then ofMagnitude negative 0
  else if 0 ≤ power then ofRatio ⟨negative, digits * tenTo power.toNat, 1⟩
  else ofRatio ⟨negative, digits, tenTo (-power).toNat⟩

def ofInt (n : Int) : Binary64 := ofRatio ⟨n < 0, n.natAbs, 1⟩

/-- The exact sum of two ratios; a sum of zero is negative only if both terms are. -/
def addRatio (a b : Ratio) : Ratio :=
  let signed (r : Ratio) : Int := if r.negative then -(r.numerator : Int) else r.numerator
  let n := signed a * b.denominator + signed b * a.denominator
  ⟨if n == 0 then a.negative && b.negative else n < 0, n.natAbs, a.denominator * b.denominator⟩

def add (x y : Binary64) : Binary64 :=
  if x.isNaN || y.isNaN then nan
  else if x.isInfinite then (if y.isInfinite && x.isNegative != y.isNegative then nan else x)
  else if y.isInfinite then y
  else ofRatio (addRatio x.toRatio y.toRatio)

def mul (x y : Binary64) : Binary64 :=
  let negative := x.isNegative != y.isNegative
  if x.isNaN || y.isNaN then nan
  else if x.isInfinite || y.isInfinite then
    if (!x.isInfinite && x.significand == 0) || (!y.isInfinite && y.significand == 0) then nan
    else infinity negative
  else
    let a := x.toRatio
    let b := y.toRatio
    ofRatio ⟨negative, a.numerator * b.numerator, a.denominator * b.denominator⟩

/-- Whether the number is an integer, and which one. -/
def integer? (x : Binary64) : Option Int :=
  if x.isNaN || x.isInfinite then none
  else
    let r := x.toRatio
    if r.numerator % r.denominator == 0 then
      let n : Int := (r.numerator / r.denominator : Nat)
      some (if r.negative then -n else n)
    else none

/-- Equality as numbers: both zeros are equal, and a NaN equals nothing. -/
def sameNumber (x y : Binary64) : Bool :=
  !x.isNaN && !y.isNaN && (x == y || (!x.isInfinite && !y.isInfinite
    && x.significand == 0 && y.significand == 0))

def neg (x : Binary64) : Binary64 := ofMagnitude (!x.isNegative) (x.bits.toNat % twoTo 63)

end Binary64

end CustomElements
