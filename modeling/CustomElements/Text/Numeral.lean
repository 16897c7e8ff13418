import CustomElements.Text.Blank

/-!
# Numerals

How a number is read from text: surrounding blanks, a sign, digits of any script, and single
underscores between digits.
-/

namespace CustomElements

/-- The zeros of the decimal digits of all scripts, in Unicode 14; the digits of a script
follow its zero. -/
def digitZeros : Array Nat :=
  #[
    0x30, 0x660, 0x6F0, 0x7C0, 0x966, 0x9E6, 0xA66, 0xAE6, 0xB66, 0xBE6,
    0xC66, 0xCE6, 0xD66, 0xDE6, 0xE50, 0xED0, 0xF20, 0x1040, 0x1090, 0x17E0,
    0x1810, 0x1946, 0x19D0, 0x1A80, 0x1A90, 0x1B50, 0x1BB0, 0x1C40, 0x1C50, 0xA620,
    0xA8D0, 0xA900, 0xA9D0, 0xA9F0, 0xAA50, 0xABF0, 0xFF10, 0x104A0, 0x10D30, 0x11066,
    0x110F0, 0x11136, 0x111D0, 0x112F0, 0x11450, 0x114D0, 0x11650, 0x116C0, 0x11730, 0x118E0,
    0x11950, 0x11C50, 0x11D50, 0x11DA0, 0x16A60, 0x16AC0, 0x16B50, 0x1D7CE, 0x1D7D8, 0x1D7E2,
    0x1D7EC, 0x1D7F6, 0x1E140, 0x1E2F0, 0x1E950, 0x1FBF0]

namespace CodePoint

/-- The value of a decimal digit of any script. -/
def decimalDigit? (p : CodePoint) : Option Nat :=
  (digitZeros.find? fun z => z ≤ p.val && p.val < z + 10).map fun z => p.val - z

/-- The value of a digit, in a base up to 36 with the Latin letters as digits above nine. -/
def digit? (base : Nat) (p : CodePoint) : Option Nat :=
  let value := match p.decimalDigit? with
    | some d => some d
    | none => match p with
      | .scalar c =>
        if 'a' ≤ c && c ≤ 'z' then some (c.toNat - 'a'.toNat + 10)
        else if 'A' ≤ c && c ≤ 'Z' then some (c.toNat - 'A'.toNat + 10)
        else none
      | .surrogate _ => none
  value.filter (· < base)

end CodePoint

namespace Numeral

/-- Reads digits with single underscores between them; `value` is what was read so far. -/
def digitsFrom (base value : Nat) : Text → Option Nat
  | [] => some value
  | .scalar '_' :: p :: r =>
    match p.digit? base with
    | some d => digitsFrom base (value * base + d) r
    | none => none
  | p :: r =>
    match p.digit? base with
    | some d => digitsFrom base (value * base + d) r
    | none => none

/-- Reads a row of digits that starts with a digit. -/
def natural? (base : Nat) : Text → Option Nat
  | [] => none
  | p :: r =>
    match p.digit? base with
    | some d => digitsFrom base d r
    | none => none

/-- Blanks that may surround a numeral: all but the information separators. -/
def isMargin (p : CodePoint) : Bool := p.isBlank && !(0x1C ≤ p.val && p.val ≤ 0x1F)

/-- The text without the blanks around a numeral. -/
def trim (t : Text) : Text := Text.dropRightWhile isMargin (t.dropWhile isMargin)

/-- The number of digits that a decimal integer may have. -/
def digitLimit : Nat := 4300

/--
Reads an integer, with an optional sign. A text of the form `0x` may stand before hexadecimal
digits, and likewise before those of other bases, `mark` being its letter.
-/
def integer? (base : Nat) (mark : Option Char) (t : Text) : Option Int :=
  let (negative, unsigned) := match trim t with
    | .scalar '-' :: r => (true, r)
    | .scalar '+' :: r => (false, r)
    | r => (false, r)
  let digits := match unsigned with
    | zero :: .scalar x :: r =>
      if zero.decimalDigit? = some 0 && mark = some x.toLower then
        match r with
        | .scalar '_' :: q => q
        | q => q
      else unsigned
    | _ => unsigned
  (natural? base digits).map fun n => if negative then -(n : Int) else n

/-- Reads a hexadecimal number, with an optional sign and an optional `0x`. -/
def hexadecimal? (t : Text) : Option Int := integer? 16 (some 'x') t

/-- Reads a decimal integer that has no more digits than the limit. -/
def decimal? (t : Text) : Option Int :=
  let digits := t.filter fun p => p.decimalDigit?.isSome
  if digitLimit < digits.length then none else integer? 10 none t

end Numeral

end CustomElements
