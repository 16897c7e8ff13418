import CustomElements.Files.Fault
import CustomElements.Number.Decimal
import CustomElements.Text.LowerCase
import CustomElements.Value.Basic
import CustomElements.Yaml.Tag

/-!
# Scalars as values

What the text of a scalar stands for, given its tag. A text that does not have the form of its
tag is a fault.
-/

namespace CustomElements.Yaml

def dropUnderscores (t : Text) : Text := t.filter fun p => decide (p ≠ .scalar '_')

/-- Whether a text starts with a minus sign, and the text after its sign. -/
def splitSign : Text → Bool × Text
  | .scalar '-' :: r => (true, r)
  | .scalar '+' :: r => (false, r)
  | r => (false, r)

/-- A missing value is a fault. -/
def orFault {α : Type} (f : Fault) : Option α → Except Fault α
  | some a => .ok a
  | none => .error f

/-- An integer: binary, octal, decimal, hexadecimal, or to base sixty with colons
between the digits. -/
def integerValue (t : Text) : Except Fault Int := do
  let written := dropUnderscores t
  if written.isEmpty then throw .noDigits
  let (negative, body) := splitSign written
  let signed (n : Int) : Int := if negative then -n else n
  match body with
  | [] => throw .noDigits
  | [.scalar '0'] => return 0
  | .scalar '0' :: .scalar 'b' :: r =>
    signed <$> orFault .badValue (Numeral.integer? 2 (some 'b') r)
  | .scalar '0' :: .scalar 'x' :: r =>
    signed <$> orFault .badValue (Numeral.integer? 16 (some 'x') r)
  | .scalar '0' :: _ => signed <$> orFault .badValue (Numeral.integer? 8 (some 'o') body)
  | _ =>
    if body.any fun p => decide (p = .scalar ':') then
      let digits ← (Text.splitOn ':' body).mapM fun p => orFault .badValue (Numeral.decimal? p)
      return signed (digits.foldl (fun n d => n * 60 + d) 0)
    else return signed (← orFault .badValue (Numeral.decimal? body))

/-- The sum of digits times rising powers of sixty, the lowest digit first. -/
def sexagesimalSum (sum : Binary64) (power : Nat) : List Binary64 → Except Fault Binary64
  | [] => .ok sum
  | d :: ds =>
    let weight := Binary64.ofInt power
    if weight.isInfinite then .error .beyondRange
    else sexagesimalSum (sum.add (d.mul weight)) (power * 60) ds

/-- A floating point number: decimal, a word for infinity or for not a number, or to base sixty. -/
def floatValue (t : Text) : Except Fault Binary64 := do
  let written := Text.lower (dropUnderscores t)
  if written.isEmpty then throw .noDigits
  let (negative, body) := splitSign written
  let signed (x : Binary64) : Binary64 := if negative then x.neg else x
  if body = (".inf" : Text) then return .infinity negative
  else if body = (".nan" : Text) then return .nan
  else if body.any fun p => decide (p = .scalar ':') then
    let digits ← (Text.splitOn ':' body).mapM fun p => orFault .badValue (Binary64.ofText? p)
    return signed (← sexagesimalSum .zero 1 digits.reverse)
  else return signed (← orFault .badValue (Binary64.ofText? body))

/-- The offset of a zone in minutes; it is less than a day. -/
def zoneOffset (sign : Option Char) (hours minutes : List Char) : Except Fault Int :=
  let n : Int := decimalValue hours * 60 + decimalValue minutes
  if 1440 ≤ n then .error .badValue
  else .ok (if sign = some '-' then -n else n)

/-- A day or a point in time. Days and clocks that do not exist are faults. -/
def timeValue (t : Text) : Except Fault Value := do
  let written ← orFault .noTime t.chars?
  let cs := if written.getLast? = some '\n' then written.dropLast else written
  let form ← orFault .noTime (timeForm? cs)
  let date : Date := ⟨decimalValue form.year, decimalValue form.month, decimalValue form.day⟩
  match form.clock with
  | none => if date.isValid then return .date date else throw .badValue
  | some (hour, minute, second, fraction) =>
    let offset ← match form.zone with
      | none => pure none
      | some (sign, hours, minutes) => some <$> zoneOffset sign hours minutes
    let micro := fraction.take 6 ++ List.replicate (6 - fraction.length) '0'
    let time : Timestamp := {
      date
      hour := decimalValue hour
      minute := decimalValue minute
      second := decimalValue second
      microsecond := decimalValue micro
      offset }
    if date.isValid && time.hour < 24 && time.minute < 60 && time.second < 60 then
      return .timestamp time
    else throw .badValue

/-- The value of a digit of the base 64 alphabet. -/
def sixBits? (c : Char) : Option Nat :=
  if 'A' ≤ c && c ≤ 'Z' then some (c.toNat - 'A'.toNat)
  else if 'a' ≤ c && c ≤ 'z' then some (c.toNat - 'a'.toNat + 26)
  else if c.isDigit then some (c.toNat - '0'.toNat + 52)
  else if c == '+' then some 62
  else if c == '/' then some 63
  else none

/--
The bytes of a base 64 text. `held` digits of the current group of four have been read, `bits` is
what is left of the last one, and `pads` equals signs follow it. Other characters do not count.
-/
def base64From (held bits pads : Nat) : List Char → Option (List UInt8)
  | [] => if held == 0 then some [] else none
  | c :: r =>
    if c == '=' then
      if 2 ≤ held then
        if 4 ≤ held + pads + 1 then some [] else base64From held bits (pads + 1) r
      else base64From held bits pads r
    else match sixBits? c with
      | none => base64From held bits pads r
      | some d =>
        match held with
        | 0 => base64From 1 d 0 r
        | 1 => (base64From 2 (d % 16) 0 r).map (UInt8.ofNat (bits * 4 + d / 16) :: ·)
        | 2 => (base64From 3 (d % 4) 0 r).map (UInt8.ofNat (bits * 16 + d / 4) :: ·)
        | _ => (base64From 0 0 0 r).map (UInt8.ofNat (bits * 64 + d) :: ·)

/-- The bytes of an ASCII text in base 64. -/
def bytesValue? (t : Text) : Option (List UInt8) := do
  let cs ← t.chars?
  if cs.all fun c => c.toNat < 0x80 then base64From 0 0 0 cs else none

/-- The truth value of a word, whatever the case of its letters. -/
def boolValue (t : Text) : Except Fault Bool :=
  let word := Text.lower t
  orFault .unknownWord ((boolWords.find? fun w => decide (word = Text.ofString w.1)).map Prod.snd)

end CustomElements.Yaml
