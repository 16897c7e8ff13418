import CustomElements.Yaml.Character

/-!
# Block scalars

A block scalar is a row of lines that are indented by the same number of spaces. Its header says how
its lines are joined and what becomes of the line ends after the last one.
-/

namespace CustomElements.Yaml

/-- What becomes of the line ends after the last line. -/
inductive Chomping where
  /-- One is kept. -/
  | clip
  /-- None is kept. -/
  | strip
  /-- All are kept. -/
  | keep
deriving DecidableEq

/-- The header of a block scalar. -/
structure BlockHeader where
  chomping : Chomping := .clip
  /-- The indentation beyond that of the block around, if it is given. -/
  increment : Option Nat := none

def chomping? (c : Char) : Option Chomping :=
  match c with
  | '+' => some .keep
  | '-' => some .strip
  | _ => none

/-- The indentation that a digit gives; it is not zero. -/
def increment? (c : Char) : Except ReadError (Option Nat) :=
  if c == '0' then .error .malformed
  else if c.isDigit then .ok (some (c.toNat - '0'.toNat))
  else .ok none

/-- Reads the header after its sign, through the end of the line. -/
def blockHeader (cs : List Char) : Except ReadError (BlockHeader × List Char) := do
  let (header, rest) ← match cs with
    | [] => pure (({} : BlockHeader), [])
    | c :: r =>
      match chomping? c with
      | some k =>
        match r with
        | [] => pure (⟨k, none⟩, [])
        | d :: q =>
          match ← increment? d with
          | some i => pure (⟨k, some i⟩, q)
          | none => pure (⟨k, none⟩, r)
      | none =>
        match ← increment? c with
        | none => pure ({}, c :: r)
        | some i =>
          match r with
          | [] => pure (⟨.clip, some i⟩, [])
          | d :: q => pure (match chomping? d with
            | some k => (⟨k, some i⟩, q)
            | none => (⟨.clip, some i⟩, r))
  if endsOr (fun c => c == ' ' || isBreak c) rest then return (header, ← skipLineRest rest)
  else .error .malformed

/-- Where a search for the next line with content ends. -/
structure BlankLines where
  /-- The line ends passed. -/
  breaks : Text
  /-- The column of the next character. -/
  column : Nat
  /-- The greatest column that spaces reached. -/
  widest : Nat
  rest : List Char

/-- Passes over lines without content; spaces beyond column `limit`, if there is
one, are content. -/
def blankLines (limit : Option Nat) (column widest : Nat) : List Char → BlankLines
  | [] => ⟨[], column, widest, []⟩
  | c :: r =>
    if c == ' ' && limit.all (column < ·) then
      blankLines limit (column + 1) (max widest (column + 1)) r
    else if isBreak c then
      let next := blankLines limit 0 widest r
      { next with breaks := .scalar (breakChar c) :: next.breaks }
    else ⟨[], column, widest, c :: r⟩

/-- Whether a line starts with a blank, so that it is not joined to the line before. -/
def startsBlank (cs : List Char) : Bool :=
  match cs with
  | c :: _ => c == ' ' || c == '\t'
  | [] => false

/-- The text of a block, with the line ends after its last line. -/
structure BlockLines where
  text : Text
  lastBreak : Text
  breaks : Text
  column : Nat
  rest : List Char

/--
The lines of a block that is indented to column `indent`, from its first character on; `fuel`
bounds their number. In a folded block a single line end between two lines that do not start with a
blank is a space.
-/
def blockLines (folded : Bool) (indent : Nat) : Nat → List Char → BlockLines
  | 0, cs => ⟨[], [], [], indent, cs⟩
  | fuel + 1, cs =>
    let line := cs.takeWhile fun c => !isBreak c
    let (lineBreak, after) := match cs.dropWhile fun c => !isBreak c with
      | [] => (([] : Text), [])
      | c :: r => ([.scalar (breakChar c)], r)
    let column := if lineBreak.isEmpty then indent + line.length else 0
    let next := blankLines (some indent) column 0 after
    if next.column == indent && !next.rest.isEmpty && !lineBreak.isEmpty then
      let joint : Text :=
        if folded && lineBreak = ("\n" : Text) && !startsBlank cs && !startsBlank next.rest then
          (if next.breaks.isEmpty then " " else [])
        else lineBreak
      let more := blockLines folded indent fuel next.rest
      { more with text := .ofChars line ++ joint ++ next.breaks ++ more.text }
    else ⟨.ofChars line, lineBreak, next.breaks, next.column, next.rest⟩

/--
A block scalar after its sign, where the block around it is indented to column `outer`: its text,
and the rest of the source.
-/
def blockScalar (folded : Bool) (outer : Int) (cs : List Char) :
    Except ReadError (Text × List Char) := do
  let (header, rest) ← blockHeader cs
  let least := max (outer + 1).toNat 1
  let (start, indent) := match header.increment with
    | none =>
      let start := blankLines none 0 0 rest
      (start, max least start.widest)
    | some i => (blankLines (some (least + i - 1)) 0 0 rest, least + i - 1)
  let body : BlockLines :=
    if start.column == indent && !start.rest.isEmpty then
      let lines := blockLines folded indent (start.rest.length + 1) start.rest
      { lines with text := start.breaks ++ lines.text }
    else ⟨[], [], start.breaks, start.column, start.rest⟩
  let ending : Text := match header.chomping with
    | .clip => body.lastBreak
    | .strip => []
    | .keep => body.lastBreak ++ body.breaks
  return (body.text ++ ending, body.rest)

end CustomElements.Yaml
