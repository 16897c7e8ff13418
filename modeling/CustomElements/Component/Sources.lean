import CustomElements.Component.Reference
import CustomElements.ProjectFile.Extends
import CustomElements.TypeScript.Grammar

/-!
# Loading sources

A source file is read once and kept under its absolute path, in load order. A file that is asked for
has to be there and to follow the grammar; a file that was merely found is left out with a warning.
-/

namespace CustomElements

open TypeScript (Dialect)

/-- A class and the file it was found in. -/
structure LocatedClass where
  file : SourceFile
  declaration : ClassDeclaration

/-- A located class in a message. -/
def LocatedClass.text (c : LocatedClass) : Text :=
  let name : Text := match c.declaration.name with
    | some n => n.quoted
    | none => "None"
  "ClassHandle(" ++ name ++ ", " ++ c.file.path.text.quoted ++ ")"

/-- The dialect of a file: elements in angle brackets are part of it if the name says so. -/
def Path.dialect (p : Path) : Dialect :=
  if p.suffix = (".tsx" : Text) then .withElements else .plain

/-- The directories that a scan for sources does not enter. -/
def unscannedDirectories : List Text := ["node_modules", "dist", "build", "out", "coverage"]

/-- Whether a scan enters a directory: dependencies, outputs and hidden directories
are passed over. -/
def isScanned (name : Text) : Bool :=
  !unscannedDirectories.contains name && !Text.startsWith name "."

namespace FileTree

/-- What a scan finds under one entry of a directory. -/
structure Found where
  name : Text
  isDir : Bool
  files : List (List Text)

/-- The finds of a directory in order: its own files by name, then its directories by name. -/
def inScanOrder (found : List Found) : List (List Text) :=
  let sorted := found.mergeSort fun a b => Text.le a.name b.name
  (sorted.filter fun f => !f.isDir).flatMap Found.files
    ++ (sorted.filter Found.isDir).flatMap Found.files

mutual

/-- The source files that a scan of a directory finds, by their names from it. -/
def sources : FileTree → List (List Text)
  | file _ => []
  | dir es => inScanOrder (sourcesIn es)

/-- What a scan finds under each entry of a directory. -/
def sourcesIn : List (Text × FileTree) → List Found
  | [] => []
  | (name, e) :: es =>
    let below := if isScanned name then (sources e).map (name :: ·) else []
    let own := if isSourceName name then [[name]] else []
    ⟨name, e.isDir, if e.isDir then below else own⟩ :: sourcesIn es

end

end FileTree

def Workspace.source (w : Workspace) (p : Path) : Except Mistake SourceFile :=
  if !w.isFile p then .error (.sourceMissing p.text)
  else match (w.read p).toOption.bind Bytes.chars? with
    | none => .error (.sourceUnreadable p)
    | some cs =>
      match TypeScript.parse? p.dialect cs with
      | none => .error (.sourceMalformed p)
      | some tree => .ok ⟨p, tree⟩

namespace Project

/-- The loaded file with this absolute path. -/
def file? (project : Project) (p : Path) : Option SourceFile :=
  project.files.find? fun f => decide (f.path = p)

/-- The classes of all loaded files, in load order and then in declaration order. -/
def classes (project : Project) : List LocatedClass :=
  project.files.flatMap fun f => f.classes.map fun c => ⟨f, c⟩

/-- The absolute path of a file or directory that a project refers to. -/
def locate (p : Path) : Action Path := Action.look fun w => w.resolveFrom w.project.root p

/-- The loaded file at a path, if it has been loaded. -/
def find? (p : Path) : Action (Option SourceFile) := do
  let path ← locate p
  return (← get).project.file? path

/-- Loads a file that is not loaded yet; a file that cannot be loaded is a mistake. -/
def require (p : Path) : Action SourceFile := do
  let path ← locate p
  let w ← get
  match w.project.file? path with
  | some f => return f
  | none =>
    match w.source path with
    | .error m => Action.fail m
    | .ok f => do
      set { w with project := { w.project with files := w.project.files ++ [f] } }
      return f

/-- Loads a file that is not loaded yet; a file that cannot be loaded is left out. -/
def offer (p : Path) : Action (Option SourceFile) := do
  let path ← locate p
  let w ← get
  match w.project.file? path with
  | some f => return some f
  | none =>
    match w.source path with
    | .error m => do
      Action.record .warning "source" m.message
      return none
    | .ok f => do
      set { w with project := { w.project with files := w.project.files ++ [f] } }
      return some f

/-- Loads all sources of a directory and of the directories below it. -/
def addDirectory (p : Path) : Action (List SourceFile) := do
  let base ← locate p
  let names := ((← get).entryAt? base).elim [] FileTree.sources
  let found ← names.mapM fun ns => offer ⟨base.anchor, base.parts ++ ns⟩
  return found.filterMap id

def start (root : Path) : Action Unit := do
  let path ← Action.look fun w => do w.resolve (← w.expandHome root)
  modify fun w => { w with project := ⟨path, []⟩ }

/--
Starts with the files that a project file selects; without a root of its own, the project has that
of the project file. If that fails, the project is what it was.
-/
def startFrom (file : Path) (root : Option Path) : Action Unit := do
  let before := (← get).project
  let selection ← ProjectFile.load file
  try
    start (root.getD selection.path.parent)
    let (files, fault) := selection.select (← get)
    for p in files do
      let _ ← offer p
    match fault with
    | some f => Action.faulty f
    | none =>
      Action.record .debug "source" ("Loaded " ++ Text.ofNat (← get).project.files.length
        ++ " source files from " ++ selection.path.text)
  catch e =>
    modify fun w => { w with project := before }
    throw e

/-- The class that a reference means: the first one of its file, or the only one of
all loaded files. An empty path is none. -/
def resolve (ref : ComponentRef) : Action LocatedClass := do
  match nonempty? ref.file with
  | some t =>
    let f ← require (.ofText t)
    match f.classes.find? fun c => decide (c.name = some ref.className) with
    | some c => return ⟨f, c⟩
    | none => Action.fail (.classNotInFile ref.className f.path)
  | none =>
    let classes := (← get).project.classes
    match classes.filter fun c => decide (c.declaration.name = some ref.className) with
    | [c] => return c
    | [] => Action.fail (.classUnknown ref.className)
    | cs => Action.fail (.classAmbiguous ref.className cs.length)

end Project

end CustomElements
