import CustomElements.Files.Fault
import CustomElements.Text.Basic

/-!
# Characters of a YAML text

Which characters a text may hold, which of them end a line, and what a line of a document marker is.
-/

namespace CustomElements.Yaml

/-- Why a text is not read. -/
inductive ReadError where
  | malformed
  /-- A value that the text names does not exist. -/
  | fault (f : Fault)
deriving DecidableEq, Repr

/-- Whether a text may hold the character. -/
def isAllowed (c : Char) : Bool :=
  let n := c.toNat
  n == 0x09 || n == 0x0A || n == 0x0D || (0x20 ≤ n && n ≤ 0x7E) || n == 0x85
    || (0xA0 ≤ n && n ≤ 0xD7FF) || (0xE000 ≤ n && n ≤ 0xFFFD) || 0x10000 ≤ n

def isBreak (c : Char) : Bool :=
  c == '\n' || c == '\r' || c == '\u0085' || c == '\u2028' || c == '\u2029'

/-- A line end inside a value: separators stay what they are, all others are a line feed. -/
def breakChar (c : Char) : Char := if c == '\u2028' || c == '\u2029' then c else '\n'

def isSpacing (c : Char) : Bool := c == ' ' || c == '\t' || isBreak c

/-- Whether a text is at its end or starts with a character that satisfies `p`. -/
def endsOr (p : Char → Bool) : List Char → Bool
  | [] => true
  | c :: _ => p c

/-- Whether a line starts with a document marker: three times the same character on their own. -/
def isMarker (mark : Char) : List Char → Bool
  | a :: b :: c :: r => a == mark && b == mark && c == mark && endsOr isSpacing r
  | _ => false

/-- Whether a line starts or ends a document. -/
def isSeparator (cs : List Char) : Bool := isMarker '-' cs || isMarker '.' cs

/-- The characters of a directive name or an anchor. -/
def isWordChar (c : Char) : Bool := c.isAlphanum || c == '-' || c == '_'

/-- The text without spaces and a comment at its front, if the line ends there. -/
def skipLineRest (cs : List Char) : Except ReadError (List Char) :=
  let r := cs.dropWhile (· == ' ')
  let r := if r.head? = some '#' then r.dropWhile fun c => !isBreak c else r
  match r with
  | [] => .ok []
  | c :: rest => if isBreak c then .ok rest else .error .malformed

end CustomElements.Yaml
