import CustomElements.Files.Encoding
import CustomElements.Files.Path

/-!
# File trees

A file tree is a file or a directory of named trees. A path is followed name by name from the root,
two dots leading back to the directory above; a name is only followed inside a directory.
-/

namespace CustomElements

/-- A file with its contents, or a directory with its entries. -/
inductive FileTree where
  | file (content : Bytes)
  | dir (entries : List (Text × FileTree))
deriving Inhabited

namespace FileTree

/-- The entries of a directory; a file has none. -/
def entries : FileTree → List (Text × FileTree)
  | file _ => []
  | dir es => es

def isDir : FileTree → Bool
  | file _ => false
  | dir _ => true

def content? : FileTree → Option Bytes
  | file c => some c
  | dir _ => none

/-- The tree at a row of names, none of which is two dots. -/
def get? (t : FileTree) : List Text → Option FileTree
  | [] => some t
  | name :: names =>
    match t.entries.lookup name with
    | some e => e.get? names
    | none => none

/-- Gives an entry of a list another tree, or adds it at the end. -/
def setEntry (name : Text) (e : FileTree) : List (Text × FileTree) → List (Text × FileTree)
  | [] => [(name, e)]
  | x :: xs => if x.1 = name then (name, e) :: xs else x :: setEntry name e xs

/-- The tree with `new` at a row of names; directories on the way have to be there. -/
def put (t : FileTree) (new : FileTree) : List Text → FileTree
  | [] => new
  | name :: names =>
    match t with
    | file c => file c
    | dir es =>
      match names, es.lookup name with
      | [], _ => dir (setEntry name new es)
      | _, some e => dir (setEntry name (e.put new names) es)
      | _, none => dir es

/-- The tree without the entry at a row of names. -/
def remove (t : FileTree) : List Text → FileTree
  | [] => t
  | name :: names =>
    match t with
    | file c => file c
    | dir es =>
      match names, es.lookup name with
      | [], _ => dir (es.filter fun e => decide (e.1 ≠ name))
      | _, some e => dir (setEntry name (e.remove names) es)
      | _, none => dir es

/-- Follows names from the directory at `at`; gives the names from the root without two dots. -/
def walk (t : FileTree) (current : List Text) : List Text → Except Fault (List Text)
  | [] => .ok current
  | name :: names =>
    match t.get? current with
    | none => .error .noSuchFile
    | some (file _) => .error .notDirectory
    | some (dir es) =>
      if name = ("..": Text) then t.walk current.dropLast names
      else
        match es.lookup name with
        | some _ => t.walk (current ++ [name]) names
        | none => .error .noSuchFile

/-- The names from the root of the directory entry that a path names, whether the entry is
there or not. -/
def locate (t : FileTree) (parts : List Text) : Except Fault (List Text) :=
  match parts.getLast? with
  | none => .ok []
  | some name =>
    if name = ("..": Text) then t.walk [] parts
    else do
      let parent ← t.walk [] parts.dropLast
      match t.get? parent with
      | some (dir _) => .ok (parent ++ [name])
      | some (file _) => .error .notDirectory
      | none => .error .noSuchFile

def stat (t : FileTree) (parts : List Text) : Except Fault FileTree := do
  match t.get? (← t.walk [] parts) with
  | some e => .ok e
  | none => .error .noSuchFile

/-- The contents of the file at a path. -/
def read (t : FileTree) (parts : List Text) : Except Fault Bytes := do
  match ← t.stat parts with
  | file c => .ok c
  | dir _ => .error .isDirectory

/-- The tree with the contents of the file at a path replaced, or with a new file there. -/
def write (t : FileTree) (parts : List Text) (content : Bytes) : Except Fault FileTree := do
  let place ← t.locate parts
  match t.get? place with
  | some (dir _) => .error .isDirectory
  | _ => .ok (t.put (file content) place)

/-- The tree with a new directory at a path. -/
def makeDir (t : FileTree) (parts : List Text) : Except Fault FileTree := do
  let place ← t.locate parts
  match t.get? place with
  | some _ => .error .fileExists
  | none => .ok (t.put (dir []) place)

/--
The tree with a directory at a path and at all paths above it, as far as they can be made. The names
are given last one first.
-/
def makeDirs (t : FileTree) : List Text → FileTree × Option Fault
  | [] => (t, none)
  | name :: above =>
    let parts := (name :: above).reverse
    match t.makeDir parts with
    | .ok t' => (t', none)
    | .error .noSuchFile =>
      match t.makeDirs above with
      | (t', some f) => (t', some f)
      | (t', none) =>
        match t'.makeDir parts with
        | .ok t'' => (t'', none)
        | .error f => settle t' parts f
    | .error f => settle t parts f
where
  /-- A directory that is there already is no failure. -/
  settle (t : FileTree) (parts : List Text) (f : Fault) : FileTree × Option Fault :=
    match t.stat parts with
    | .ok (dir _) => (t, none)
    | _ => (t, some f)

/-- The tree with the file at one path moved to another one. -/
def rename (t : FileTree) (source target : List Text) : Except Fault FileTree := do
  let origin ← t.locate source
  match t.get? origin with
  | none => .error .noSuchFile
  | some e =>
    let place ← t.locate target
    match e, t.get? place with
    | file _, some (dir _) => .error .isDirectory
    | _, _ => .ok (if origin = place then t else (t.remove origin).put e place)

/-- The tree without the file at a path. -/
def delete (t : FileTree) (parts : List Text) : Except Fault FileTree := do
  let place ← t.locate parts
  match t.get? place with
  | none => .error .noSuchFile
  | some (dir _) => .error .isDirectory
  | some (file _) => .ok (t.remove place)

mutual

/-- All files below a tree, with their names from it. -/
def files : FileTree → List (List Text × Bytes)
  | file c => [([], c)]
  | dir es => filesIn es

/-- All files below the entries of a directory. -/
def filesIn : List (Text × FileTree) → List (List Text × Bytes)
  | [] => []
  | (name, e) :: es => (files e).map (fun f => (name :: f.1, f.2)) ++ filesIn es

end

/-- The files of a later tree that are new or have other contents than before. -/
def written (before after : FileTree) : List (List Text × Bytes) :=
  after.files.filter fun f => (before.get? f.1).bind content? != some f.2

/-- The files that a later tree has no more. -/
def removed (before after : FileTree) : List (List Text) :=
  (before.files.filter fun f => ((after.get? f.1).bind content?).isNone).map Prod.fst

end FileTree

end CustomElements
