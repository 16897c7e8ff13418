import CustomElements.Files.Pattern
import CustomElements.Workspace

/-!
# Searching a directory

A search pattern has a part for each level below the start: two asterisks for any number of
directories, a name pattern, or a name.
-/

namespace CustomElements

namespace FileTree

mutual

/-- The directories of a tree, itself included, with their names from it. -/
def directories : FileTree → List (List Text)
  | file _ => []
  | dir es => [] :: directoriesIn es

/-- The directories among and below the entries of a directory. -/
def directoriesIn : List (Text × FileTree) → List (List Text)
  | [] => []
  | (name, e) :: es => (directories e).map (name :: ·) ++ directoriesIn es

end

end FileTree

namespace Workspace

inductive SearchPart where
  /-- Any number of directories. -/
  | anyDepth
  | matching (items : List PatternItem)
  | named (name : Text)

/-- The part that a text stands for. Two asterisks have to stand alone. -/
def SearchPart.ofText (t : Text) : Except Fault SearchPart :=
  if t = ("**" : Text) then .ok anyDepth
  else if t.contains "**" then .error .badValue
  else if Pattern.hasWildcard t then .ok (matching (Pattern.items t))
  else .ok (named t)

/-- The paths below `start` that the parts lead to. -/
def search (w : Workspace) (start : Path) : List SearchPart → List Path
  | [] => [start]
  | .anyDepth :: parts =>
    match w.entryAt? start with
    | some e =>
      e.directories.flatMap fun names => w.search ⟨start.anchor, start.parts ++ names⟩ parts
    | none => []
  | .matching items :: parts =>
    ((w.entries start).filter fun e =>
        (parts.isEmpty || e.2.isDir) && Pattern.matchesItems items e.1).flatMap fun e =>
      w.search (start.child e.1) parts
  | .named name :: parts =>
    let next := start.child name
    let found := if parts.isEmpty then (w.entryAt? next).isSome else w.isDir next
    if found then w.search next parts else []

/-- The paths below `start` that match a search pattern, in the order of paths. -/
def glob (w : Workspace) (start : Path) (pattern : Text) : Except Fault (List Path) := do
  let p := Path.ofText pattern
  if p.isAbsolute then throw .absolutePattern
  let parts ← p.parts.mapM SearchPart.ofText
  if w.isDir start then return (w.search start parts).mergeSort Path.le else return []

end Workspace

end CustomElements
