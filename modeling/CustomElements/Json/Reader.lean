import CustomElements.Json.Basic
import CustomElements.Text.Digit
import CustomElements.Text.Numeral

/-!
# Reading JSON

Besides the standard form, `NaN`, `Infinity` and `-Infinity` are read as numbers. A number with a
fraction or an exponent is a floating point number; any other is an integer of at most 4300 digits.
-/

namespace CustomElements.Json

/-- Why a text is not read as JSON. -/
inductive ReadError where
  | malformed
  /-- An integer has more digits than are read. -/
  | tooManyDigits
deriving DecidableEq, Repr

def isSpace : CodePoint → Bool
  | .scalar c => c == ' ' || c == '\t' || c == '\n' || c == '\r'
  | .surrogate _ => false

def skipSpace (t : Text) : Text := t.dropWhile isSpace

def hex4? : Text → Option (Nat × Text)
  | a :: b :: c :: d :: r => do return (← hexValue? (← Text.chars? [a, b, c, d]), r)
  | _ => none

/-- The character that a single letter escape stands for. -/
def shortEscape? : CodePoint → Option Char
  | .scalar '"' => some '"'
  | .scalar '\\' => some '\\'
  | .scalar '/' => some '/'
  | .scalar 'b' => some '\x08'
  | .scalar 'f' => some '\x0c'
  | .scalar 'n' => some '\n'
  | .scalar 'r' => some '\r'
  | .scalar 't' => some '\t'
  | _ => none

/--
Reads the code point of a `\u` escape after its `u`. A high surrogate and the escape of a low
surrogate after it are one character.
-/
def unicodeEscape? (t : Text) : Option (CodePoint × Text) := do
  let (n, r) ← hex4? t
  if 0xD800 ≤ n && n ≤ 0xDBFF then
    match r with
    | .scalar '\\' :: .scalar 'u' :: q =>
      match hex4? q with
      | some (m, q') =>
        if 0xDC00 ≤ m && m ≤ 0xDFFF then
          return (← CodePoint.ofNat? (0x10000 + (n - 0xD800) * 0x400 + (m - 0xDC00)), q')
        else return (← CodePoint.ofNat? n, r)
      | none => none
    | _ => return (← CodePoint.ofNat? n, r)
  else return (← CodePoint.ofNat? n, r)

/-- Reads the rest of a string after its opening quote; at most `fuel` items are read. -/
def stringRest : Nat → Text → Option (Text × Text)
  | 0, _ => none
  | _ + 1, [] => none
  | _ + 1, .scalar '"' :: r => some ([], r)
  | fuel + 1, .scalar '\\' :: r =>
    match r with
    | .scalar 'u' :: q => do
      let (p, rest) ← unicodeEscape? q
      let (t, rest) ← stringRest fuel rest
      return (p :: t, rest)
    | e :: q => do
      let c ← shortEscape? e
      let (t, rest) ← stringRest fuel q
      return (.scalar c :: t, rest)
    | [] => none
  | fuel + 1, p :: r =>
    if p.val < 0x20 then none
    else do
      let (t, rest) ← stringRest fuel r
      return (p :: t, rest)

/-- The decimal digits at the front of a text, and the rest. -/
def takeDigits : Text → List Char × Text
  | .scalar c :: r =>
    if c.isDigit then ((c :: (takeDigits r).1), (takeDigits r).2) else ([], .scalar c :: r)
  | t => ([], t)

/-- The exponent at the front of a text, and the rest; without one the text is all rest. -/
def takeExponent (t : Text) : Option Int × Text :=
  match t with
  | .scalar e :: r =>
    if e == 'e' || e == 'E' then
      let (negative, body) := match r with
        | .scalar '-' :: q => (true, q)
        | .scalar '+' :: q => (false, q)
        | q => (false, q)
      match takeDigits body with
      | ([], _) => (none, t)
      | (ds, rest) => (some (if negative then -(decimalValue ds : Int) else decimalValue ds), rest)
    else (none, t)
  | _ => (none, t)

/-- The fraction digits at the front of a text, and the rest; without a fraction the text
is all rest. -/
def takeFraction (t : Text) : List Char × Text :=
  match t with
  | .scalar '.' :: r =>
    match takeDigits r with
    | ([], _) => ([], t)
    | taken => taken
  | _ => ([], t)

def number (negative : Bool) (t : Text) : Except ReadError (Json × Text) :=
  match takeDigits t with
  | ([], _) => .error .malformed
  | (d :: ds, rest) =>
    let (whole, rest) := if d == '0' then ([d], t.drop 1) else (d :: ds, rest)
    match takeFraction rest with
    | (fraction, rest) =>
      match takeExponent rest with
      | (power, rest) =>
        if fraction.isEmpty && power.isNone then
          if Numeral.digitLimit < whole.length then .error .tooManyDigits
          else
            let n : Int := decimalValue whole
            .ok (.int (if negative then -n else n), rest)
        else
          let value := decimalValue (whole ++ fraction)
          .ok (.float (.ofDecimal negative value (power.getD 0 - fraction.length)), rest)

/-- Reads a word or a number. -/
def scalar (t : Text) : Except ReadError (Json × Text) :=
  let words : List (Text × Json) :=
    [("null", .null), ("true", .bool true), ("false", .bool false), ("NaN", .float .nan),
      ("Infinity", .float (.infinity false)), ("-Infinity", .float (.infinity true))]
  match words.find? fun w => Text.startsWith t w.1 with
  | some w => .ok (w.2, t.drop w.1.length)
  | none => match t with
    | .scalar '-' :: r => number true r
    | r => number false r

mutual

/-- Reads a value; `fuel` bounds the depth and the number of items. -/
def value : Nat → Text → Except ReadError (Json × Text)
  | 0, _ => .error .malformed
  | fuel + 1, t =>
    match t with
    | .scalar '"' :: r =>
      match stringRest fuel r with
      | some (s, rest) => .ok (.string s, rest)
      | none => .error .malformed
    | .scalar '[' :: r =>
      match skipSpace r with
      | .scalar ']' :: rest => .ok (.array [], rest)
      | r => do
        let (items, rest) ← elements fuel r
        return (.array items, rest)
    | .scalar '{' :: r =>
      match skipSpace r with
      | .scalar '}' :: rest => .ok (.object [], rest)
      | r => do
        let (ms, rest) ← members fuel r
        return (.object ms, rest)
    | t => scalar t

/-- Reads the values of an array up to its closing bracket. -/
def elements : Nat → Text → Except ReadError (List Json × Text)
  | 0, _ => .error .malformed
  | fuel + 1, t => do
    let (v, r) ← value fuel t
    match skipSpace r with
    | .scalar ']' :: rest => return ([v], rest)
    | .scalar ',' :: rest =>
      let (vs, rest) ← elements fuel (skipSpace rest)
      return (v :: vs, rest)
    | _ => .error .malformed

/-- Reads the members of an object up to its closing brace. -/
def members : Nat → Text → Except ReadError (List (Text × Json) × Text)
  | 0, _ => .error .malformed
  | fuel + 1, t =>
    match t with
    | .scalar '"' :: r =>
      match stringRest fuel r with
      | none => .error .malformed
      | some (key, r) =>
        match skipSpace r with
        | .scalar ':' :: r => do
          let (v, r) ← value fuel (skipSpace r)
          match skipSpace r with
          | .scalar '}' :: rest => return ([(key, v)], rest)
          | .scalar ',' :: rest =>
            let (ms, rest) ← members fuel (skipSpace rest)
            return ((key, v) :: ms, rest)
          | _ => .error .malformed
        | _ => .error .malformed
    | _ => .error .malformed

end

/-- Reads a text that holds one value and blanks around it. -/
def parse (t : Text) : Except ReadError Json := do
  let (v, rest) ← value (2 * t.length + 2) (skipSpace t)
  if (skipSpace rest).isEmpty then return v else .error .malformed

end CustomElements.Json
