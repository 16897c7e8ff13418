import CustomElements.Text.Basic

/-!
# Paths

A path is a row of names after an anchor. Empty names and single dots vanish when a path is read;
two dots stay, since what they mean depends on the directory before them.
-/

namespace CustomElements

/-- What a path starts from. -/
inductive Anchor where
  /-- The current directory. -/
  | here
  /-- The root. -/
  | root
  /-- The root, written with two slashes, which is kept apart. -/
  | doubleRoot
deriving DecidableEq, Repr, Inhabited

structure Path where
  anchor : Anchor
  parts : List Text
deriving DecidableEq, Inhabited

namespace Path

/-- The names of a path text, without empty ones and single dots. -/
def partsOf (t : Text) : List Text :=
  (t.splitOn '/').filter fun p => !p.isEmpty && decide (p ≠ ("." : Text))

/-- The path that a text names. -/
def ofText (t : Text) : Path :=
  let slashes := (t.takeWhile fun c => decide (c = .scalar '/')).length
  let anchor := match slashes with
    | 0 => Anchor.here
    | 2 => Anchor.doubleRoot
    | _ => Anchor.root
  ⟨anchor, partsOf t⟩

instance : Coe String Path := ⟨fun s => ofText s⟩

def isAbsolute (p : Path) : Bool := decide (p.anchor ≠ .here)

def anchorText : Anchor → Text
  | .here => []
  | .root => "/"
  | .doubleRoot => "//"

/-- The text of a path; the current directory is a dot. -/
def text (p : Path) : Text :=
  if p.anchor = .here && p.parts.isEmpty then "."
  else anchorText p.anchor ++ Text.join "/" p.parts

/-- A path seen from another one: an absolute path is itself. -/
def join (base p : Path) : Path :=
  if p.isAbsolute then p else ⟨base.anchor, base.parts ++ p.parts⟩

/-- The path of an entry with one name. -/
def child (base : Path) (name : Text) : Path := ⟨base.anchor, base.parts ++ [name]⟩

def parent (p : Path) : Path := ⟨p.anchor, p.parts.dropLast⟩

def name (p : Path) : Text := p.parts.getLast?.getD []

/-- The position of the last dot of a text. -/
def lastDot? (t : Text) : Option Nat :=
  let after := (t.reverse.takeWhile fun c => decide (c ≠ .scalar '.')).length
  if after < t.length then some (t.length - 1 - after) else none

/-- The last name from its last dot on; a dot at either end of the name does not count. -/
def suffix (p : Path) : Text :=
  match lastDot? p.name with
  | some i => if 0 < i && i + 1 < p.name.length then p.name.drop i else []
  | none => []

/-- The path with another last name. -/
def withName (p : Path) (name : Text) : Path := ⟨p.anchor, p.parts.dropLast ++ [name]⟩

/-- The path as seen from `base`, if its names start with those of `base`. -/
def relativeTo? (p base : Path) : Option Path :=
  if p.anchor = base.anchor && base.parts.isPrefixOf p.parts then
    some ⟨.here, p.parts.drop base.parts.length⟩
  else none

/-- Whether the path is `base` or lies below it. -/
def isBelow (p base : Path) : Bool := (p.relativeTo? base).isSome

/-- The text of the path seen from `base`, or of the path itself if it does not lie below. -/
def textFrom (p base : Path) : Text := ((p.relativeTo? base).getD p).text

/-- Lists of names are ordered by their first differing name. -/
def partsLe : List Text → List Text → Bool
  | [], _ => true
  | _ :: _, [] => false
  | a :: as, b :: bs => if a = b then partsLe as bs else Text.le a b

/-- Paths are ordered by their anchors and then by their names. -/
def le (p q : Path) : Bool :=
  let anchored (r : Path) : List Text :=
    if r.anchor = .here then r.parts else anchorText r.anchor :: r.parts
  partsLe (anchored p) (anchored q)

/-- Takes one name into a row of names: two dots remove the last one. -/
def pushPart (parts : List Text) (p : Text) : List Text :=
  if p = (".." : Text) then parts.dropLast else parts ++ [p]

/-- The names of an absolute path without two dots. -/
def normalParts (parts : List Text) : List Text := parts.foldl pushPart []

/-- The absolute path without two dots that a path names when the current directory is `current`. -/
def normal (current p : Path) : Path := ⟨.root, normalParts (current.join p).parts⟩

end Path

end CustomElements
