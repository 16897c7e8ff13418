import CustomElements.Text.Digit

/-!
# Lexemes

A lexeme is a class of character sequences that form one token. `Lexeme.measure` says how many
characters at the front of a text form a token of the class; the text itself is cut by the caller,
so a token and what follows it always make up the text.
-/

namespace CustomElements.TypeScript

inductive Lexeme where
  /-- These characters, unless one of `notBefore` follows. -/
  | symbol (text : List Char) (notBefore : List Char)
  /-- This word, as a whole name. -/
  | word (text : List Char)
  /-- Any name, reserved or not. -/
  | name
  /-- A name that is not reserved. -/
  | identifier
  /-- A name after `#`. -/
  | privateName
  | number
  /-- A regular expression with its flags. -/
  | regex
  /-- Characters of a string in the given quotes that stand for themselves. -/
  | fragment (quote : Char)
  | escape
  /-- Characters of a template up to its end or its next placeholder. -/
  | templateText
  /-- Text between elements. -/
  | elementText
  /-- The name of an element or of an attribute, which may hold hyphens. -/
  | elementName
  /-- The characters of an attribute in the given quotes. -/
  | attributeText (quote : Char)
  /-- The interpreter line at the start of a file. -/
  | interpreterLine
deriving DecidableEq

namespace Lexeme

/-- The number of leading characters that satisfy `p`. -/
def span (p : Char → Bool) : List Char → Nat
  | [] => 0
  | c :: r => if p c then span p r + 1 else 0

/--
The length of the longest row of units at the front of a text. `unit` gives the length of the unit
at the front, or `0` if there is none; `skip` characters are still part of the last unit.
-/
def units (unit : List Char → Nat) (skip : Nat) : List Char → Nat
  | [] => 0
  | c :: r =>
    match skip with
    | k + 1 => units unit k r + 1
    | 0 =>
      match unit (c :: r) with
      | 0 => 0
      | k + 1 => units unit k r + 1

/-- The white space characters of the language. -/
def isBlank (c : Char) : Bool :=
  let n := c.toNat
  (0x09 ≤ n && n ≤ 0x0D) || n == 0x20 || n == 0xA0 || n == 0x1680 || (0x2000 ≤ n && n ≤ 0x200B) ||
    n == 0x2028 || n == 0x2029 || n == 0x202F || n == 0x205F || n == 0x2060 || n == 0x3000 ||
    n == 0xFEFF

def isLineEnd (c : Char) : Bool :=
  c == '\n' || c == '\r' || c.toNat == 0x2028 || c.toNat == 0x2029

/-- The length of a block comment after its opening, if it is closed. -/
def blockComment : List Char → Option Nat
  | '*' :: '/' :: _ => some 2
  | _ :: r => (blockComment r).map (· + 1)
  | [] => none

/-- The length of the comment at the front of a text, `0` if there is none. -/
def comment : List Char → Nat
  | '/' :: '/' :: r => span (fun c => !isLineEnd c) r + 2
  | '/' :: '*' :: r => match blockComment r with
    | some k => k + 2
    | none => 0
  | _ => 0

/-- ASCII characters that no name holds. -/
def isPunctuation (c : Char) : Bool :=
  ":;\x60\"'@#.,|^&<=>+-*/\\%?!~()[]\x7b\x7d".toList.contains c

/-- A character that may start a name. -/
def startsName (c : Char) : Bool :=
  !(c.toNat < 0x20) && !isBlank c && !c.isDigit && !isPunctuation c && c.toNat != 0x7F

/-- A character that may continue a name. -/
def continuesName (c : Char) : Bool := startsName c || c.isDigit

/-- The length of a character escape in a name. -/
def nameEscape : List Char → Nat
  | '\\' :: 'u' :: '{' :: r =>
    let k := span isHexDigit r
    if 0 < k && (r.drop k).head? == some '}' then k + 4 else 0
  | '\\' :: 'u' :: r => if 4 ≤ span isHexDigit (r.take 4) then 6 else 0
  | _ => 0

/-- The length of the first character of a name, `0` if no name starts here. -/
def nameStart : List Char → Nat
  | c :: r => if startsName c then 1 else nameEscape (c :: r)
  | [] => 0

/-- The length of the next character of a name, `0` if the name ends here. -/
def namePart : List Char → Nat
  | c :: r => if continuesName c then 1 else nameEscape (c :: r)
  | [] => 0

/-- The length of the name at the front of a text, `0` if there is none. -/
def nameLength (s : List Char) : Nat :=
  match nameStart s with
  | 0 => 0
  | k => k + units namePart 0 (s.drop k)

/-- The words that name no variable. -/
def reserved : List (List Char) :=
  ["break", "case", "catch", "class", "const", "continue", "debugger", "default", "delete", "do",
    "else", "enum", "export", "extends", "false", "finally", "for", "function", "if", "import",
    "in", "instanceof", "new", "null", "return", "super", "switch", "this", "throw", "true", "try",
    "typeof", "var", "void", "while", "with"].map String.toList

/-- A row of digits with single underscores between them. -/
def digits (p : Char → Bool) (s : List Char) : Nat := span (fun c => p c || c == '_') s

/-- The length of an exponent, `0` if there is none. -/
def exponent : List Char → Nat
  | e :: r =>
    if e == 'e' || e == 'E' then
      let sign := match r with
        | '+' :: _ | '-' :: _ => 1
        | _ => 0
      match digits Char.isDigit (r.drop sign) with
      | 0 => 0
      | k => 1 + sign + k
    else 0
  | [] => 0

/-- The length of a number with a radix mark, without the mark. -/
def radixDigits (p : Char → Bool) (r : List Char) : Nat :=
  match digits p r with
  | 0 => 0
  | k => k + (if (r.drop k).head? == some 'n' then 1 else 0)

def decimal (s : List Char) : Nat :=
  let whole := if (s.head?.any Char.isDigit) then digits Char.isDigit s else 0
  let afterWhole := s.drop whole
  if 0 < whole && afterWhole.head? == some 'n' then whole + 1
  else
    let fraction := match afterWhole with
      | '.' :: r =>
        let k := if r.head?.any Char.isDigit then digits Char.isDigit r else 0
        if whole == 0 && k == 0 then 0 else k + 1
      | _ => 0
    if whole + fraction == 0 then 0
    else whole + fraction + exponent (s.drop (whole + fraction))

/-- The length of the number at the front of a text, `0` if there is none. -/
def numberLength : List Char → Nat
  | '0' :: x :: r =>
    let plain := decimal ('0' :: x :: r)
    let marked (k : Nat) : Nat := if k == 0 then plain else k + 2
    if x == 'x' || x == 'X' then marked (radixDigits isHexDigit r)
    else if x == 'o' || x == 'O' then marked (radixDigits (fun c => '0' ≤ c && c ≤ '7') r)
    else if x == 'b' || x == 'B' then marked (radixDigits (fun c => c == '0' || c == '1') r)
    else plain
  | s => decimal s

/--
The length of the rest of a regular expression, its closing slash included. A slash between brackets
does not close it, and it ends on its line.
-/
def regexRest (inClass : Bool) : List Char → Option Nat
  | [] => none
  | '\\' :: c :: r => if isLineEnd c then none else (regexRest inClass r).map (· + 2)
  | c :: r =>
    if isLineEnd c then none
    else if c == '/' && !inClass then some 1
    else (regexRest (if c == '[' then true else if c == ']' then false else inClass) r).map (· + 1)

/-- The length of a regular expression with its flags. -/
def regexLength : List Char → Nat
  | '/' :: r =>
    match r with
    | '*' :: _ | '/' :: _ => 0
    | _ => match regexRest false r with
      | some k => k + 1 + span Char.isAlpha (r.drop k)
      | none => 0
  | _ => 0

/--
The length of an escape sequence: a hexadecimal or octal number, a line continuation, or any other
character after the backslash.
-/
def escapeLength : List Char → Nat
  | '\\' :: c :: r =>
    if c == 'x' then (if 2 ≤ span isHexDigit (r.take 2) then 4 else 0)
    else if c == 'u' then
      match r with
      | '{' :: q =>
        let k := span isHexDigit q
        if 0 < k && (q.drop k).head? == some '}' then k + 4 else 0
      | _ => if 4 ≤ span isHexDigit (r.take 4) then 6 else 0
    else if '0' ≤ c && c ≤ '7' then 2 + span (fun d => '0' ≤ d && d ≤ '7') (r.take 2)
    else if c == '\r' && r.head? == some '\n' then 3
    else 2
  | _ => 0

/-- The next unit of a template's text: a character, or a backslash with the character after it. -/
def templateUnit : List Char → Nat
  | '\\' :: _ :: _ => 2
  | '$' :: '{' :: _ => 0
  | c :: _ => if c.toNat == 0x60 || c == '\\' then 0 else 1
  | [] => 0

/-- The length of a token of the class at the front of a text, if there is one. -/
def measure : Lexeme → List Char → Option Nat
  | symbol t notBefore, s =>
    if t.isPrefixOf s then
      match (s.drop t.length).head? with
      | some c => if notBefore.contains c then none else some t.length
      | none => some t.length
    else none
  | word t, s =>
    if t.isPrefixOf s then
      if namePart (s.drop t.length) == 0 then some t.length else none
    else none
  | name, s => match nameLength s with
    | 0 => none
    | k => some k
  | identifier, s => match nameLength s with
    | 0 => none
    | k => if reserved.contains (s.take k) then none else some k
  | privateName, s => match s with
    | '#' :: r => match nameLength r with
      | 0 => none
      | k => some (k + 1)
    | _ => none
  | number, s => match numberLength s with
    | 0 => none
    | k => if nameStart (s.drop k) == 0 then some k else none
  | regex, s => match regexLength s with
    | 0 => none
    | k => some k
  | fragment q, s => match span (fun c => !(c == q || c == '\\' || c == '\n' || c == '\r')) s with
    | 0 => none
    | k => some k
  | escape, s => match escapeLength s with
    | 0 => none
    | k => some k
  | templateText, s => match units templateUnit 0 s with
    | 0 => none
    | k => some k
  | elementText, s =>
    match span (fun c => !(c == '<' || c == '>' || c == '{' || c == '}')) s with
    | 0 => none
    | k => some k
  | elementName, s => match nameStart s with
    | 0 => none
    | k => some (k + span (fun c => continuesName c || c == '-') (s.drop k))
  | attributeText q, s => match span (fun c => c != q) s with
    | 0 => none
    | k => some k
  | interpreterLine, s => match s with
    | '#' :: '!' :: r => some (span (fun c => !isLineEnd c) r + 2)
    | _ => none

end Lexeme

end CustomElements.TypeScript
