import CustomElements.Files.Path

/-!
# Name patterns

A pattern is a row of items: an asterisk stands for any characters, a question mark for one
character, and brackets for one character of a set.
-/

namespace CustomElements

inductive PatternItem where
  /-- Any row of characters. -/
  | anything
  /-- One character, whatever it is. -/
  | one
  | literal (c : CodePoint)
  /-- One character in one of the ranges, or in none of them if negated. -/
  | set (negated : Bool) (ranges : List (Nat × Nat))
deriving DecidableEq

namespace PatternItem

/-- Whether a single character matches the item. -/
def accepts (c : CodePoint) : PatternItem → Bool
  | anything | one => true
  | literal d => decide (c = d)
  | set negated ranges => negated != ranges.any fun r => r.1 ≤ c.val && c.val ≤ r.2

end PatternItem

namespace Pattern

/-- The pieces of a bracket between its hyphens; the first character of a piece is
never a hyphen. -/
def hyphenPieces (piece : Text) (keep : Nat) : Text → List Text
  | [] => [piece]
  | c :: r =>
    match keep with
    | k + 1 => hyphenPieces (piece ++ [c]) k r
    | 0 =>
      if c = .scalar '-' then piece :: hyphenPieces [] 2 r
      else hyphenPieces (piece ++ [c]) 0 r

/-- The hyphen of a bracket that ends with it belongs to the piece before. -/
def closePieces : List Text → List Text
  | [] => []
  | [p] => [p]
  | [p, []] => [p ++ "-"]
  | p :: ps => p :: closePieces ps

/-- Removes ranges that hold nothing, last one first, with both of their ends. -/
def dropEmptyRanges : List Text → List Text
  | [] => []
  | p :: ps =>
    match dropEmptyRanges ps with
    | q :: qs =>
      match p.getLast?, q.head? with
      | some a, some b => if b.val < a.val then (p.dropLast ++ q.drop 1) :: qs else p :: q :: qs
      | _, _ => p :: q :: qs
    | [] => [p]

/-- The ranges of one piece: single characters, apart from those that end a range on either side. -/
def pieceRanges (afterHyphen beforeHyphen : Bool) (piece : Text) : List (Nat × Nat) :=
  let inner := if afterHyphen then piece.drop 1 else piece
  let inner := if beforeHyphen then inner.dropLast else inner
  inner.map fun c => (c.val, c.val)

/-- The ranges of pieces with hyphens between them. -/
def rangesOf (afterHyphen : Bool) : List Text → List (Nat × Nat)
  | [] => []
  | [p] => pieceRanges afterHyphen false p
  | p :: q :: ps =>
    let range := match p.getLast?, q.head? with
      | some a, some b => [(a.val, b.val)]
      | _, _ => []
    pieceRanges afterHyphen true p ++ range ++ rangesOf true (q :: ps)

/-- The set that the text between brackets stands for. -/
def setOf (body : Text) : PatternItem :=
  let (negated, body) := match body with
    | .scalar '!' :: r => (true, r)
    | r => (false, r)
  let pieces := match body with
    | c :: r => hyphenPieces [c] 0 r
    | [] => [[]]
  .set negated (rangesOf false (dropEmptyRanges (closePieces pieces)))

/--
The length of the text between brackets, without the closing one. A closing bracket right at the
start, or right after an exclamation mark, is a character of the set.
-/
def bracketLength? (t : Text) : Option Nat :=
  let lead := match t with
    | .scalar '!' :: .scalar ']' :: _ => 2
    | .scalar '!' :: _ => 1
    | .scalar ']' :: _ => 1
    | _ => 0
  let k := ((t.drop lead).takeWhile fun c => decide (c ≠ .scalar ']')).length
  if lead + k < t.length then some (lead + k) else none

/-- Reads a pattern; `skip` characters are still part of the last item. -/
def itemsFrom (skip : Nat) : Text → List PatternItem
  | [] => []
  | c :: r =>
    match skip with
    | k + 1 => itemsFrom k r
    | 0 =>
      match c with
      | .scalar '*' => .anything :: itemsFrom 0 r
      | .scalar '?' => .one :: itemsFrom 0 r
      | .scalar '[' =>
        match bracketLength? r with
        | some k => setOf (r.take k) :: itemsFrom (k + 1) r
        | none => .literal c :: itemsFrom 0 r
      | c => .literal c :: itemsFrom 0 r

def items (t : Text) : List PatternItem := itemsFrom 0 t

/-- A text and all that is left of it after dropping characters from its front. -/
def suffixes : Text → List Text
  | [] => [[]]
  | c :: t => (c :: t) :: suffixes t

/-- Whether a text matches a row of items. -/
def matchesItems : List PatternItem → Text → Bool
  | [], t => t.isEmpty
  | .anything :: is, t => (suffixes t).any (matchesItems is)
  | i :: is, t =>
    match t with
    | c :: r => i.accepts c && matchesItems is r
    | [] => false

def accepts (pattern t : Text) : Bool := matchesItems (items pattern) t

/-- Whether a pattern holds a character with a meaning of its own. -/
def hasWildcard (pattern : Text) : Bool :=
  pattern.any fun c => decide (c = .scalar '*' ∨ c = .scalar '?' ∨ c = .scalar '[')

end Pattern

end CustomElements
