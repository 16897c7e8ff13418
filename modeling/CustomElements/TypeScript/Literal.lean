import CustomElements.Text.Numeral
import CustomElements.TypeScript.Tree

/-!
# The values of string literals

A string literal is a row of fragments, which stand for themselves, and escape sequences. A sequence
may name a code point that does not exist; then the literal has no value.
-/

namespace CustomElements.TypeScript

open CustomElements

/-- Why an escape sequence denotes no text. -/
inductive EscapeError where
  /-- What stands between the braces is no number, or no code point has it. -/
  | noCodePoint
  /-- The number lies outside the 32 bit integers. -/
  | beyondRange
deriving DecidableEq, Repr

def codePointOf (n : Int) : Except EscapeError CodePoint :=
  if n < -0x80000000 || 0x80000000 ≤ n then .error .beyondRange
  else if n < 0 then .error .noCodePoint
  else match CodePoint.ofNat? n.toNat with
    | some p => .ok p
    | none => .error .noCodePoint

/-- The characters that the single letter escapes stand for. -/
def letterEscapes : List (Text × Text) :=
  [("n", "\n"), ("r", "\r"), ("t", "\t"), ("b", "\x08"), ("f", "\x0c"), ("v", "\x0b"),
    ("0", "\x00")]

/--
The text that an escape sequence stands for, the backslash included in the sequence. A number in
braces has to name a code point; another malformed number stands for its own characters. A line
break after the backslash continues the line, and any other character stands for itself.
-/
def unescape (sequence : Text) : Except EscapeError Text :=
  let body : Text := sequence.drop 1
  match letterEscapes.lookup body with
  | some t => .ok t
  | none =>
    if body.startsWith "u\x7b" && body.endsWith "\x7d" then
      match Numeral.hexadecimal? ((body.drop 2).dropLast) with
      | some n => (codePointOf n).map fun p => [p]
      | none => .error .noCodePoint
    else if (body.startsWith "u" || body.startsWith "x") && 1 < body.length then
      match Numeral.hexadecimal? (body.drop 1) with
      | some n => match codePointOf n with
        | .ok p => .ok [p]
        | .error .noCodePoint => .ok body
        | .error .beyondRange => .error .beyondRange
      | none => .ok body
    else if body.startsWith "\r\n" || body.startsWith "\n" then .ok []
    else .ok body

namespace Node

/-- The source text of a node as a text. -/
def sourceText (n : Node) : Text := .ofChars n.text

/-- The value of a row of fragments and escape sequences; other nodes add nothing. -/
def literalValue : List Node → Except EscapeError Text
  | [] => .ok []
  | .leaf .fragment s :: r => do return Text.ofChars s ++ (← literalValue r)
  | .leaf .escape s :: r => do
    let t ← unescape (.ofChars s)
    return t ++ (← literalValue r)
  | _ :: r => literalValue r

/-- The value of a string literal; other nodes have none. -/
def stringValue? (n : Node) : Except EscapeError (Option Text) :=
  if n.kind = .string then some <$> literalValue n.children else .ok none

/-- The name that a pair or a field is written under; a computed name has none. -/
def keyName? (n : Node) : Except EscapeError (Option Text) :=
  match n.kind with
  | .string => n.stringValue?
  | .propertyName | .privateName | .identifier | .number => .ok (some n.sourceText)
  | _ => .ok none

/-- The key and the value of a pair; other nodes have none. -/
def keyAndValue? (n : Node) : Option (Node × Node) :=
  if n.kind = .pair then do return (← n.parts.head?, ← n.parts.tail.getLast?) else none

/-- The value of the first pair with the given key among the members of an object. -/
def findPair (key : Text) : List Node → Except EscapeError (Option Node)
  | [] => .ok none
  | m :: r =>
    match m.keyAndValue? with
    | some (k, v) => do
      if (← k.keyName?) = some key then return some v else findPair key r
    | none => findPair key r

/-- The value of the first pair with the given key in an object literal. -/
def property? (n : Node) (key : Text) : Except EscapeError (Option Node) :=
  if n.kind = .object then findPair key n.parts else .ok none

/-- The string value of the first pair with the given key in an object literal. -/
def stringProperty? (n : Node) (key : Text) : Except EscapeError (Option Text) := do
  match ← n.property? key with
  | some v => v.stringValue?
  | none => return none

/-- The arguments of a call; a tagged template has none. -/
def callArguments (n : Node) : List Node :=
  match n.child? .arguments with
  | some a => a.parts
  | none => []

def callTypeArguments (n : Node) : List Node :=
  match n.child? .typeArguments with
  | some a => a.parts
  | none => []

end Node

end CustomElements.TypeScript
