import CustomElements.Text.Digit
import CustomElements.Yaml.Character

/-!
# Quoted scalars

Between single quotes only a quote is written in a special way, namely twice. Between double
quotes a backslash starts an escape. In both, a line break between words is a space, and each
further one is kept.
-/

namespace CustomElements.Yaml

inductive Quote where
  | single
  | double
deriving DecidableEq

def Quote.char : Quote → Char
  | single => '\''
  | double => '"'

/-- What the letters after a backslash stand for. -/
def letterEscape? (c : Char) : Option Char :=
  match c with
  | '0' => some '\x00'
  | 'a' => some '\x07'
  | 'b' => some '\x08'
  | 't' | '\t' => some '\t'
  | 'n' => some '\n'
  | 'v' => some '\x0b'
  | 'f' => some '\x0c'
  | 'r' => some '\r'
  | 'e' => some '\x1b'
  | ' ' => some ' '
  | '"' => some '"'
  | '\\' => some '\\'
  | '/' => some '/'
  | 'N' => some '\u0085'
  | '_' => some '\u00a0'
  | 'L' => some '\u2028'
  | 'P' => some '\u2029'
  | _ => none

/-- The number of hexadecimal digits after these letters. -/
def codeLength? (c : Char) : Option Nat :=
  match c with
  | 'x' => some 2
  | 'u' => some 4
  | 'U' => some 8
  | _ => none

/-- The code point with a number that an escape gives. -/
def codePoint (n : Nat) : Except ReadError CodePoint :=
  match CodePoint.ofNat? n with
  | some p => .ok p
  | none => .error (.fault (if n < 0x80000000 then .badValue else .beyondRange))

/-- The lines after a line break that hold nothing but blanks, and the rest of the text. -/
def quotedBreaks (atLineStart : Bool) : List Char → Except ReadError (Text × List Char)
  | [] => .ok ([], [])
  | c :: r =>
    if atLineStart && isSeparator (c :: r) then .error .malformed
    else if c == ' ' || c == '\t' then quotedBreaks false r
    else if isBreak c then
      (quotedBreaks true r).map fun (t, rest) => (.scalar (breakChar c) :: t, rest)
    else .ok ([], c :: r)

/-- The blanks between two words of a quoted scalar. -/
def quotedBlanks (cs : List Char) : Except ReadError (Text × List Char) :=
  let isBlank (c : Char) : Bool := c == ' ' || c == '\t'
  match cs.dropWhile isBlank with
  | [] => .error .malformed
  | c :: r =>
    if isBreak c then do
      let (breaks, rest) ← quotedBreaks true r
      let first : Text :=
        if breakChar c ≠ '\n' then [.scalar c] else if breaks.isEmpty then " " else []
      return (first ++ breaks, rest)
    else .ok (.ofChars (cs.takeWhile isBlank), c :: r)

def singleWord : List Char → Text × List Char
  | '\'' :: '\'' :: r => (.scalar '\'' :: (singleWord r).1, (singleWord r).2)
  | c :: r =>
    if c == '\'' || isSpacing c then ([], c :: r)
    else (.scalar c :: (singleWord r).1, (singleWord r).2)
  | [] => ([], [])

/-- A word between double quotes; `fuel` bounds its length. -/
def doubleWord : Nat → List Char → Except ReadError (Text × List Char)
  | 0, cs => .ok ([], cs)
  | _, [] => .ok ([], [])
  | _ + 1, ['\\'] => .error .malformed
  | fuel + 1, '\\' :: c :: r =>
    match letterEscape? c, codeLength? c with
    | some e, _ => do
      let (t, rest) ← doubleWord fuel r
      return (.scalar e :: t, rest)
    | none, some k =>
      if r.length < k then .error .malformed
      else match hexValue? (r.take k) with
        | none => .error .malformed
        | some n => do
          let p ← codePoint n
          let (t, rest) ← doubleWord fuel (r.drop k)
          return (p :: t, rest)
    | none, none =>
      if isBreak c then do
        let (breaks, rest) ← quotedBreaks true r
        let (t, rest) ← doubleWord fuel rest
        return (breaks ++ t, rest)
      else .error .malformed
  | fuel + 1, c :: r =>
    if c == '"' || isSpacing c then .ok ([], c :: r)
    else do
      let (t, rest) ← doubleWord fuel r
      return (.scalar c :: t, rest)

/-- The rest of a quoted scalar after its opening quote; `fuel` bounds the number of words. -/
def quotedRest (q : Quote) : Nat → List Char → Except ReadError (Text × List Char)
  | 0, _ => .error .malformed
  | fuel + 1, cs => do
    let (word, rest) ← match q with
      | .single => pure (singleWord cs)
      | .double => doubleWord cs.length cs
    if rest.head? = some q.char then return (word, rest.drop 1)
    let (blanks, rest) ← quotedBlanks rest
    let (t, rest) ← quotedRest q fuel rest
    return (word ++ blanks ++ t, rest)

/-- A quoted scalar after its opening quote, and the text after its closing quote. -/
def quotedScalar (q : Quote) (cs : List Char) : Except ReadError (Text × List Char) :=
  quotedRest q (cs.length + 1) cs

end CustomElements.Yaml
