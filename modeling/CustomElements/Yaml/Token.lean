import CustomElements.Text.Numeral
import CustomElements.Yaml.Block
import CustomElements.Yaml.Quoted

/-!
# Tokens

The tokens of a YAML text, and the readers of those that are words: directives, anchors, tags and
plain scalars. Each reader gives the rest of the text after what it has read.
-/

namespace CustomElements.Yaml

/-- What a line that starts with a percent sign says. -/
inductive Directive where
  | version (major minor : Nat)
  /-- Tags that start with `handle` are written out with `meaning` in its place. -/
  | handle (handle meaning : Text)
  | unknown
deriving DecidableEq

inductive Token where
  | directive (d : Directive)
  | documentStart
  | documentEnd
  | streamEnd
  | blockSequenceStart
  | blockMappingStart
  | blockEnd
  | flowSequenceStart
  | flowSequenceEnd
  | flowMappingStart
  | flowMappingEnd
  | blockEntry
  | flowEntry
  | key
  | value
  | reference (name : Text)
  | anchor (name : Text)
  /-- A tag; without a handle its text is complete. -/
  | tag (handle : Option Text) (suffix : Text)
  | scalar (plain : Bool) (text : Text)
deriving DecidableEq

/-! ### Tags -/

/-- The characters of a tag, the percent sign of an escape included. -/
def isTagChar (c : Char) : Bool := isWordChar c || ";/?:@&=+$,.!~*'()[]%".toList.contains c

/-- The bytes of the escapes at the front of a text. -/
def percentBytes : List Char → Except ReadError (List UInt8 × List Char)
  | '%' :: a :: b :: r =>
    match hexValue? [a, b] with
    | some n => (percentBytes r).map fun (bs, rest) => (UInt8.ofNat n :: bs, rest)
    | none => .error .malformed
  | '%' :: _ => .error .malformed
  | cs => .ok ([], cs)

/-- The text of a tag, its escapes resolved; `fuel` bounds the number of its pieces. -/
def tagPieces : Nat → List Char → Except ReadError (Text × List Char)
  | 0, cs => .ok ([], cs)
  | fuel + 1, cs =>
    match cs with
    | '%' :: _ => do
      let (bytes, rest) ← percentBytes cs
      match String.fromUTF8? ⟨bytes.toArray⟩ with
      | none => .error .malformed
      | some s => (tagPieces fuel rest).map fun (t, rest) => (Text.ofString s ++ t, rest)
    | c :: r =>
      if isTagChar c then (tagPieces fuel r).map fun (t, rest) => (.scalar c :: t, rest)
      else .ok ([], cs)
    | [] => .ok ([], [])

/-- The text of a tag, which is not empty. -/
def tagText (cs : List Char) : Except ReadError (Text × List Char) :=
  if endsOr (fun c => !isTagChar c) cs then .error .malformed else tagPieces cs.length cs

/-- A tag handle: an exclamation mark, or a word between two of them. -/
def tagHandle (cs : List Char) : Except ReadError (Text × List Char) :=
  match cs with
  | '!' :: ' ' :: r => .ok ("!", ' ' :: r)
  | '!' :: r =>
    match r.dropWhile isWordChar with
    | '!' :: rest => .ok (.ofChars ('!' :: r.takeWhile isWordChar ++ ['!']), rest)
    | _ => .error .malformed
  | _ => .error .malformed

def tagToken (cs : List Char) : Except ReadError (Token × List Char) := do
  let (token, rest) ← match cs.drop 1 with
    | '<' :: r =>
      match ← tagText r with
      | (suffix, '>' :: rest) => pure (Token.tag none suffix, rest)
      | _ => .error .malformed
    | r =>
      if endsOr isSpacing r then pure (Token.tag none "!", r)
      else if (r.takeWhile fun c => c != ' ' && !isBreak c).contains '!' then do
        let (handle, rest) ← tagHandle cs
        let (suffix, rest) ← tagText rest
        pure (Token.tag (some handle) suffix, rest)
      else do
        let (suffix, rest) ← tagText r
        pure (Token.tag (some "!") suffix, rest)
  if endsOr (fun c => c == ' ' || isBreak c) rest then return (token, rest) else .error .malformed

/-! ### Anchors and aliases -/

/-- The name of an anchor or an alias after its sign. -/
def anchorName (cs : List Char) : Except ReadError (Text × List Char) :=
  let name := cs.takeWhile isWordChar
  let rest := cs.dropWhile isWordChar
  if name.isEmpty then .error .malformed
  else if endsOr (fun c => isSpacing c || "?:,]\x7d%@\x60".toList.contains c) rest then
    .ok (.ofChars name, rest)
  else .error .malformed

/-! ### Directives -/

/-- A row of decimal digits as a number of a version. -/
def versionNumber (cs : List Char) : Except ReadError (Nat × List Char) :=
  let digits := cs.takeWhile Char.isDigit
  if digits.isEmpty then .error .malformed
  else match Numeral.decimal? (.ofChars digits) with
    | some n => .ok (n.toNat, cs.dropWhile Char.isDigit)
    | none => .error (.fault .badValue)

/-- A directive after its percent sign, through the end of the line. -/
def directive (cs : List Char) : Except ReadError (Token × List Char) := do
  let skipSpaces (r : List Char) := r.dropWhile (· == ' ')
  let ends (r : List Char) := endsOr (fun c => c == ' ' || isBreak c) r
  let name := cs.takeWhile isWordChar
  let rest := cs.dropWhile isWordChar
  if name.isEmpty || !ends rest then .error .malformed
  if name = "YAML".toList then
    let (major, rest) ← versionNumber (skipSpaces rest)
    if rest.head? ≠ some '.' then .error .malformed
    let (minor, rest) ← versionNumber (rest.drop 1)
    if !ends rest then .error .malformed
    return (.directive (.version major minor), ← skipLineRest rest)
  else if name = "TAG".toList then
    let (handle, rest) ← tagHandle (skipSpaces rest)
    if rest.head? ≠ some ' ' then .error .malformed
    let (meaning, rest) ← tagText (skipSpaces rest)
    if !ends rest then .error .malformed
    return (.directive (.handle handle meaning), ← skipLineRest rest)
  else
    return (.directive .unknown, ← skipLineRest (rest.dropWhile fun c => !isBreak c))

/-! ### Plain scalars -/

/-- Whether a plain scalar may start here; inside brackets fewer signs may start one. -/
def startsPlain (flow : Bool) : List Char → Bool
  | [] => false
  | c :: r =>
    (!isSpacing c && !"-?:,[]\x7b\x7d#&*!|>'\"%@\x60".toList.contains c)
      || (!endsOr isSpacing r && (c == '-' || (!flow && (c == '?' || c == ':'))))

/-- The characters of a plain scalar up to a blank or a sign that ends it. -/
def plainWord (flow : Bool) : List Char → List Char × List Char
  | [] => ([], [])
  | c :: r =>
    if isSpacing c
        || (c == ':'
          && endsOr (fun d => isSpacing d || (flow && ",[]\x7b\x7d".toList.contains d)) r)
        || (flow && ",?[]\x7b\x7d".toList.contains c) then ([], c :: r)
    else (c :: (plainWord flow r).1, (plainWord flow r).2)

/-- The line ends after the first one; nothing if a document marker follows one of them. -/
def plainBreaks : List Char → Option Text × List Char
  | [] => (some [], [])
  | c :: r =>
    if c == ' ' then plainBreaks r
    else if isBreak c then
      if isSeparator r then (none, r)
      else ((plainBreaks r).1.map (.scalar (breakChar c) :: ·), (plainBreaks r).2)
    else (some [], c :: r)

/-- What stands between two words of a plain scalar. -/
structure PlainGap where
  /-- The text of the gap; nothing if the scalar ends here. -/
  text : Text
  /-- Whether a line ends in the gap. -/
  breaksLine : Bool
  rest : List Char

/-- The gap at the front of a text. -/
def plainGap (cs : List Char) : PlainGap :=
  match cs.dropWhile (· == ' ') with
  | [] => ⟨.ofChars (cs.takeWhile (· == ' ')), false, []⟩
  | c :: r =>
    if isBreak c then
      if isSeparator r then ⟨[], true, r⟩
      else match plainBreaks r with
        | (none, rest) => ⟨[], true, rest⟩
        | (some breaks, rest) =>
          let first : Text :=
            if breakChar c ≠ '\n' then [.scalar c] else if breaks.isEmpty then " " else []
          ⟨first ++ breaks, true, rest⟩
    else ⟨.ofChars (cs.takeWhile (· == ' ')), false, c :: r⟩

/-- A plain scalar that has been read. -/
structure Plain where
  text : Text
  /-- Whether a line ends after its last word. -/
  breaksLine : Bool
  rest : List Char

/--
A plain scalar. `column` tells at which column a later part of the text starts; outside brackets a
word left of column `indent` ends the scalar. `fuel` bounds the number of words.
-/
def plainWords (flow : Bool) (indent : Nat) (column : List Char → Nat) : Nat → List Char → Plain
  | 0, cs => ⟨[], false, cs⟩
  | fuel + 1, cs =>
    match plainWord flow cs with
    | (word, rest) =>
      let gap := plainGap rest
      let ends := gap.text.isEmpty || gap.rest.head? = some '#'
        || (!flow && column gap.rest < indent) || (plainWord flow gap.rest).1.isEmpty
      if ends then ⟨.ofChars word, gap.breaksLine, gap.rest⟩
      else
        let more := plainWords flow indent column fuel gap.rest
        { more with text := .ofChars word ++ gap.text ++ more.text }

end CustomElements.Yaml
