import CustomElements.Yaml.Token

/-!
# The tokens of a text

Indentation opens and closes blocks. That a scalar is the key of a mapping shows only at the
colon after it, so the start of each scalar is kept as a candidate until then, and a key
token is put before it later. A candidate has to be followed by its colon on the same line
and within 1024 characters.
-/

namespace CustomElements.Yaml

structure Cursor where
  rest : List Char
  /-- The number of characters before. -/
  index : Nat := 0
  line : Nat := 0
  column : Nat := 0

/-- The place after one character more; a byte order mark has no width. -/
def Cursor.step (k : Cursor) (c : Char) : Cursor :=
  let next := { k with rest := k.rest.drop 1, index := k.index + 1 }
  if isBreak c then { next with line := k.line + 1, column := 0 }
  else if c == '\uFEFF' then next
  else { next with column := k.column + 1 }

/-- The place at which `rest` is left to read. -/
def Cursor.moveTo (k : Cursor) (rest : List Char) : Cursor :=
  (k.rest.take (k.rest.length - rest.length)).foldl Cursor.step k

/-- The start of what may be a key. -/
structure KeyCandidate where
  /-- The number of brackets around it. -/
  level : Nat
  /-- The number of tokens before it. -/
  position : Nat
  /-- Whether nothing but a key can stand here. -/
  required : Bool
  place : Cursor

/-- What is known in the middle of a text. -/
structure Scan where
  cursor : Cursor
  /-- The tokens so far, the latest one first. -/
  tokens : List Token := []
  /-- The number of open brackets. -/
  level : Nat := 0
  /-- The column of the innermost block. -/
  indent : Int := -1
  /-- The columns of the blocks around it. -/
  outer : List Int := []
  /-- Whether a key may start here. -/
  keyAllowed : Bool := true
  candidates : List KeyCandidate := []
  done : Bool := false

namespace Scan

/-- Adds a token after which `rest` is left to read. -/
def emit (s : Scan) (t : Token) (rest : List Char) : Scan :=
  { s with tokens := t :: s.tokens, cursor := s.cursor.moveTo rest }

/-- Adds a token that takes no characters. -/
def mark (s : Scan) (t : Token) : Scan := { s with tokens := t :: s.tokens }

/-- Puts a token at a position among those so far. -/
def insertAt (s : Scan) (position : Nat) (t : Token) : Scan :=
  { s with tokens := s.tokens.insertIdx (s.tokens.length - position) t }

/-- Whether a candidate can still turn out to be a key. -/
def isFresh (s : Scan) (k : KeyCandidate) : Bool :=
  k.place.line == s.cursor.line && s.cursor.index - k.place.index ≤ 1024

/-- Drops the candidates that can no longer be keys. -/
def dropStale (s : Scan) : Except ReadError Scan :=
  if s.candidates.any fun k => !s.isFresh k && k.required then .error .malformed
  else .ok { s with candidates := s.candidates.filter s.isFresh }

/-- Drops the candidate between the innermost brackets. -/
def dropCandidate (s : Scan) : Except ReadError Scan :=
  if s.candidates.any fun k => k.level == s.level && k.required then .error .malformed
  else .ok { s with candidates := s.candidates.filter fun k => k.level != s.level }

/-- Makes the next token a candidate, if a key may start here. -/
def saveCandidate (s : Scan) : Except ReadError Scan := do
  if !s.keyAllowed then return s
  let s ← s.dropCandidate
  let required := s.level == 0 && s.indent == s.cursor.column
  return { s with candidates := ⟨s.level, s.tokens.length, required, s.cursor⟩ :: s.candidates }

/-- Closes the blocks that are indented beyond a column. -/
def unwindTo (s : Scan) (column : Int) : List Int → Scan
  | [] => s
  | i :: outer =>
    if column < s.indent then
      unwindTo { s with indent := i, outer := outer, tokens := .blockEnd :: s.tokens } column outer
    else s

/-- Closes the blocks that are indented beyond a column; inside brackets there are none. -/
def unwind (s : Scan) (column : Int) : Scan := if s.level == 0 then s.unwindTo column s.outer else s

/-- Opens a block at a column beyond the innermost one. -/
def openBlock (s : Scan) (column : Nat) : Option Scan :=
  if s.indent < column then some { s with outer := s.indent :: s.outer, indent := column } else none

/-- The text without blanks, comments and line ends at its front, and whether a line ended. -/
def skipToToken (inComment : Bool) : List Char → Bool × List Char
  | [] => (false, [])
  | c :: r =>
    if isBreak c then (true, (skipToToken false r).2)
    else if inComment then skipToToken true r
    else if c == ' ' then skipToToken false r
    else if c == '#' then skipToToken true r
    else (false, c :: r)

/-- Moves to the next token. Outside brackets a key may start a line. -/
def advance (s : Scan) : Scan :=
  let start := match s.cursor.index, s.cursor.rest with
    | 0, '\uFEFF' :: r => r
    | _, r => r
  let (ended, rest) := skipToToken false start
  { s with
    cursor := s.cursor.moveTo rest
    keyAllowed := s.keyAllowed || (ended && s.level == 0) }

def openFlow (s : Scan) (t : Token) (rest : List Char) : Except ReadError Scan := do
  let s ← s.saveCandidate
  return { s with level := s.level + 1, keyAllowed := true }.emit t rest

def closeFlow (s : Scan) (t : Token) (rest : List Char) : Except ReadError Scan := do
  let s ← s.dropCandidate
  return { s with level := s.level - 1, keyAllowed := false }.emit t rest

/-- The start of a block, opened by an entry, a key or a value at the current place. -/
def blockSign (s : Scan) (start : Token) : Except ReadError Scan :=
  if s.level != 0 then .ok s
  else if !s.keyAllowed then .error .malformed
  else match s.openBlock s.cursor.column with
    | some s' => .ok (s'.mark start)
    | none => .ok s

/-- The dash before an entry of a sequence. -/
def entrySign (s : Scan) (rest : List Char) : Except ReadError Scan := do
  let s ← s.blockSign .blockSequenceStart
  let s ← { s with keyAllowed := true }.dropCandidate
  return s.emit .blockEntry rest

def keySign (s : Scan) (rest : List Char) : Except ReadError Scan := do
  let s ← s.blockSign .blockMappingStart
  let s ← { s with keyAllowed := s.level == 0 }.dropCandidate
  return s.emit .key rest

/-- The colon before a value. If there is a candidate, that is the key. -/
def valueSign (s : Scan) (rest : List Char) : Except ReadError Scan := do
  match s.candidates.find? fun k => k.level == s.level with
  | some k =>
    let s := { s with
      candidates := s.candidates.filter fun j => j.level != s.level
      keyAllowed := false }
    let s := s.insertAt k.position .key
    let s := if s.level != 0 then s else
      match s.openBlock k.place.column with
      | some s' => s'.insertAt k.position .blockMappingStart
      | none => s
    return s.emit .value rest
  | none =>
    let s ← s.blockSign .blockMappingStart
    let s ← { s with keyAllowed := s.level == 0 }.dropCandidate
    return s.emit .value rest

/-- A directive or a document marker: all blocks are closed. -/
def documentSign (s : Scan) (t : Token) (rest : List Char) : Except ReadError Scan := do
  let s ← (s.unwind (-1)).dropCandidate
  return { s with keyAllowed := false }.emit t rest

/-- A token that may be a key as a whole. -/
def word (s : Scan) (read : Except ReadError (Token × List Char)) : Except ReadError Scan := do
  let s ← s.saveCandidate
  let (t, rest) ← read
  return { s with keyAllowed := false }.emit t rest

def block (s : Scan) (folded : Bool) (rest : List Char) : Except ReadError Scan := do
  let s ← { s with keyAllowed := true }.dropCandidate
  let (t, rest) ← blockScalar folded s.indent rest
  return s.emit (.scalar false t) rest

def plain (s : Scan) : Except ReadError Scan := do
  let s ← s.saveCandidate
  let column (r : List Char) : Nat := (s.cursor.moveTo r).column
  let p := plainWords (s.level != 0) (s.indent + 1).toNat column s.cursor.rest.length s.cursor.rest
  return { s with keyAllowed := p.breaksLine }.emit (.scalar true p.text) p.rest

def finish (s : Scan) : Except ReadError Scan := do
  let s ← (s.unwind (-1)).dropCandidate
  return { s with done := true }.emit .streamEnd []

/-- Reads the token at the current place, and whatever tokens its place calls for. -/
def token (s : Scan) : Except ReadError Scan :=
  let cs := s.cursor.rest
  let flow := s.level != 0
  let lineStart := s.cursor.column == 0
  match cs with
  | [] => s.finish
  | c :: r =>
    let spaced := endsOr isSpacing r
    if c == '%' && lineStart then do
      let (t, rest) ← directive r
      s.documentSign t rest
    else if lineStart && isMarker '-' cs then s.documentSign .documentStart (cs.drop 3)
    else if lineStart && isMarker '.' cs then s.documentSign .documentEnd (cs.drop 3)
    else if c == '[' then s.openFlow .flowSequenceStart r
    else if c == '{' then s.openFlow .flowMappingStart r
    else if c == ']' then s.closeFlow .flowSequenceEnd r
    else if c == '}' then s.closeFlow .flowMappingEnd r
    else if c == ',' then do
      let s ← { s with keyAllowed := true }.dropCandidate
      return s.emit .flowEntry r
    else if c == '-' && spaced then s.entrySign r
    else if c == '?' && (flow || spaced) then s.keySign r
    else if c == ':' && (flow || spaced) then s.valueSign r
    else if c == '*' then s.word ((anchorName r).map fun (name, rest) => (.reference name, rest))
    else if c == '&' then s.word ((anchorName r).map fun (name, rest) => (.anchor name, rest))
    else if c == '!' then s.word (tagToken cs)
    else if c == '|' && !flow then s.block false r
    else if c == '>' && !flow then s.block true r
    else if c == '\'' then
      s.word ((quotedScalar .single r).map fun (t, rest) => (.scalar false t, rest))
    else if c == '"' then
      s.word ((quotedScalar .double r).map fun (t, rest) => (.scalar false t, rest))
    else if startsPlain flow cs then s.plain
    else .error .malformed

/-- Moves to the next token and reads it. -/
def next (s : Scan) : Except ReadError Scan := do
  let s ← s.advance.dropStale
  (s.unwind s.cursor.column).token

end Scan

/-- The tokens of a text, as far as they can be read. -/
structure TokenStream where
  tokens : List Token
  /-- Why there are no more tokens; nothing if the text is at its end. -/
  failure : Option ReadError

/-- The tokens that are certain: no key token can be put before one of them any more. -/
def Scan.certain (s : Scan) : List Token :=
  let positions := (s.candidates.filter s.isFresh).map KeyCandidate.position
  let ordered := s.tokens.reverse
  match positions.min? with
  | some n => ordered.take n
  | none => ordered

/-- Reads tokens up to the end; `fuel` bounds their number. -/
def TokenStream.from : Nat → Scan → TokenStream
  | 0, s => ⟨s.certain, some .malformed⟩
  | fuel + 1, s =>
    match s.next with
    | .error e => ⟨s.certain, some e⟩
    | .ok s => if s.done then ⟨s.tokens.reverse, none⟩ else TokenStream.from fuel s

/-- The tokens of a text. Each of them takes a character, but for those of the end. -/
def TokenStream.ofChars (cs : List Char) : TokenStream :=
  if cs.all isAllowed then TokenStream.from (cs.length + 2) { cursor := { rest := cs } }
  else ⟨[], some .malformed⟩

end CustomElements.Yaml
