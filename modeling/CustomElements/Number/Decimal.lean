import CustomElements.Number.Binary64
import CustomElements.Text.Digit
import CustomElements.Text.Numeral

/-!
# Reading floating point numbers

A decimal fraction with an optional exponent, or one of the words for infinity and for not a number,
with blanks around it. Digits may be of any script.
-/

namespace CustomElements.Binary64

/-- The ASCII form of a numeral: digits of all scripts become ASCII digits, letters
lower case ones. -/
def asciiNumeral (t : Text) : Option (List Char) :=
  t.mapM fun p =>
    match p.decimalDigit? with
    | some d => some (Nat.digitChar d)
    | none => match p with
      | .scalar c => if c.toNat < 0x80 then some c.toLower else none
      | .surrogate _ => none

/-- Reads an exponent with its letter; nothing is the exponent zero. -/
def exponentOf : List Char → Option Int
  | [] => some 0
  | 'e' :: '-' :: ds =>
    if !ds.isEmpty && ds.all Char.isDigit then some (-(decimalValue ds : Int)) else none
  | 'e' :: '+' :: ds => if !ds.isEmpty && ds.all Char.isDigit then some (decimalValue ds) else none
  | 'e' :: ds => if !ds.isEmpty && ds.all Char.isDigit then some (decimalValue ds) else none
  | _ => none

/-- A number that is none, other than the constant `nan`. -/
def anotherNaN : Binary64 := ofMagnitude false (0x7FF * twoTo 52 + twoTo 51 + 1)

def ofUnsigned? (negative : Bool) (cs : List Char) : Option Binary64 :=
  if cs = "inf".toList || cs = "infinity".toList then some (infinity negative)
  else if cs = "nan".toList then some anotherNaN
  else
    let whole := cs.takeWhile Char.isDigit
    let (fraction, rest) := match cs.dropWhile Char.isDigit with
      | '.' :: r => (r.takeWhile Char.isDigit, r.dropWhile Char.isDigit)
      | r => ([], r)
    if whole.isEmpty && fraction.isEmpty then none
    else (exponentOf rest).map fun e =>
      ofDecimal negative (decimalValue (whole ++ fraction)) (e - fraction.length)

def ofText? (t : Text) : Option Binary64 := do
  match ← asciiNumeral (Numeral.trim t) with
  | '-' :: r => ofUnsigned? true r
  | '+' :: r => ofUnsigned? false r
  | r => ofUnsigned? false r

end CustomElements.Binary64
