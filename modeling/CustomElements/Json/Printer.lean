import CustomElements.Json.Basic

/-!
# Printing JSON

The text is ASCII: every other character is an escape, and one beyond the first plane is two.
-/

namespace CustomElements.Json

def hexDigit (n : Nat) : Char := (Nat.digitChar (n % 16))

/-- The escape of a 16 bit unit. -/
def unitEscape (n : Nat) : Text :=
  .ofChars ['\\', 'u', hexDigit (n / 4096), hexDigit (n / 256), hexDigit (n / 16), hexDigit n]

/-- A code point inside a string literal. -/
def escapePoint (p : CodePoint) : Text :=
  match p with
  | .scalar '"' => "\\\""
  | .scalar '\\' => "\\\\"
  | .scalar '\n' => "\\n"
  | .scalar '\r' => "\\r"
  | .scalar '\t' => "\\t"
  | .scalar '\x0c' => "\\f"
  | .scalar '\x08' => "\\b"
  | p =>
    let n := p.val
    if 0x20 ≤ n && n ≤ 0x7E then [p]
    else if n < 0x10000 then unitEscape n
    else unitEscape (0xD800 + (n - 0x10000) / 0x400) ++ unitEscape (0xDC00 + (n - 0x10000) % 0x400)

def quote (t : Text) : Text := "\"" ++ t.flatMap escapePoint ++ "\""

/-- The text of a floating point number. -/
def floatText (x : Binary64) : Text :=
  if x.isNaN then "NaN"
  else if x.isInfinite then (if x.isNegative then "-Infinity" else "Infinity")
  else x.toText

/-- How values are laid out. -/
structure Layout where
  /-- What stands between two items. -/
  item : Text
  /-- What stands between a key and its value. -/
  key : Text
  /-- The blanks per level, if each item is on a line of its own. -/
  indent : Option Nat := none

/-- All on one line, without blanks. -/
def Layout.compact : Layout := ⟨",", ":", none⟩

/-- Each item on a line of its own, indented by two per level. -/
def Layout.indented : Layout := ⟨",", ": ", some 2⟩

/-- The start of a line at the given level; nothing if all is on one line. -/
def Layout.newLine (l : Layout) (level : Nat) : Text :=
  match l.indent with
  | some k => '\n' :: List.replicate (k * level) ' '
  | none => []

mutual

/-- The text of a value at the given level. -/
def renderAt (l : Layout) (level : Nat) : Json → Text
  | null => "null"
  | bool true => "true"
  | bool false => "false"
  | int n => .ofInt n
  | float x => floatText x
  | string t => quote t
  | array [] => "[]"
  | array (v :: vs) =>
    "[" ++ l.newLine (level + 1) ++ renderAt l (level + 1) v ++ renderItems l (level + 1) vs
      ++ l.newLine level ++ "]"
  | object [] => "\x7b\x7d"
  | object ((k, v) :: ms) =>
    "\x7b" ++ l.newLine (level + 1) ++ quote k ++ l.key ++ renderAt l (level + 1) v
      ++ renderMembers l (level + 1) ms ++ l.newLine level ++ "\x7d"

/-- The text of the items after the first one. -/
def renderItems (l : Layout) (level : Nat) : List Json → Text
  | [] => []
  | v :: vs => l.item ++ l.newLine level ++ renderAt l level v ++ renderItems l level vs

/-- The text of the members after the first one. -/
def renderMembers (l : Layout) (level : Nat) : List (Text × Json) → Text
  | [] => []
  | (k, v) :: ms =>
    l.item ++ l.newLine level ++ quote k ++ l.key ++ renderAt l level v ++ renderMembers l level ms

end

def render (l : Layout) (v : Json) : Text := renderAt l 0 v

end CustomElements.Json
