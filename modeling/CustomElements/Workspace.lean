import CustomElements.Build.Target
import CustomElements.Component.Class
import CustomElements.Failure
import CustomElements.Files.Tree

/-!
# The workspace

All that a run reads and changes is one value: the file tree, the log, the loaded sources, the
written artifacts, and the calls of other programs. An action maps a workspace to a result and a
workspace; what an action did before it failed stays done.
-/

namespace CustomElements

inductive LogLevel where
  | debug
  | info
  | warning
  | error
deriving DecidableEq, Repr

/-- The name of a level in log lines. -/
def LogLevel.text : LogLevel → Text
  | debug => "DEBUG"
  | info => "INFO"
  | warning => "WARNING"
  | error => "ERROR"

/-- Levels by rising weight. -/
def LogLevel.weight : LogLevel → Nat
  | debug => 0
  | info => 1
  | warning => 2
  | error => 3

/-- A log record of one part of the program. -/
structure LogRecord where
  level : LogLevel
  logger : Text
  message : Text

/-- What the names of all parts of the program start with in the log. -/
def loggerRoot : Text := "elementgen."

/-- The line of a record in a log file. -/
def LogRecord.fileLine (r : LogRecord) : Text :=
  "TIME " ++ r.level.text ++ " " ++ r.logger ++ ": " ++ r.message ++ "\n"

/-- The line of a record on the console. -/
def LogRecord.consoleLine (r : LogRecord) : Text :=
  "[elementgen] " ++ r.level.text ++ " " ++ r.message ++ "\n"

/-- A loaded source file and its tree. -/
structure SourceFile where
  path : Path
  tree : TypeScript.Node

/-- The classes at the top level of a file. -/
def SourceFile.classes (f : SourceFile) : List ClassDeclaration := classesOf f.tree

/-- Source files under analysis, in load order. -/
structure Project where
  root : Path
  files : List SourceFile

/-- A build that is asked for: bundle `entry` into `outputPath`. -/
structure BuildRequest where
  target : BuildTarget
  entry : Path
  outputPath : Path
  options : List (Value × Value)
  directory : Path

/-- A command that is started, with the directory it runs in. -/
structure Command where
  arguments : List Text
  directory : Path

/-- All that a run reads and changes. -/
structure Workspace where
  files : FileTree
  /-- The current directory. -/
  current : Path
  /-- The directory that a leading tilde stands for. -/
  home : Path
  log : List LogRecord := []
  /-- The file that all log records are added to. -/
  logFile : Option Path := none
  /-- The least level of the log records that are shown on the console. -/
  consoleLevel : Option LogLevel := none
  stdout : Text := []
  stderr : Text := []
  project : Project
  /-- The artifacts written so far. -/
  written : List Path := []
  /-- The builds asked for so far. -/
  builds : List BuildRequest := []
  /-- The commands started so far. -/
  commands : List Command := []

namespace Workspace

/-- Whether a code point has no place in a file name: a surrogate that stands for no stray byte. -/
def isUnencodable : CodePoint → Bool
  | .surrogate k => !(0x480 ≤ k.val && k.val ≤ 0x4FF)
  | .scalar _ => false

/-- A name that no file can have is a fault. -/
def checkName (name : Text) : Except Fault Unit :=
  if name.any isUnencodable then .error .unencodable
  else if name.any fun c => decide (c = .scalar '\x00') then .error .badValue
  else .ok ()

/-- The names of a path from the root; a name that no file can have is a fault. -/
def place (w : Workspace) (p : Path) : Except Fault (List Text) :=
  let parts := (w.current.join p).parts
  if parts.any fun t => t.any isUnencodable then .error .unencodable
  else if parts.any fun t => t.any fun c => decide (c = .scalar '\x00') then .error .badValue
  else .ok parts

/-- The tree at a path, if there is one. -/
def entryAt? (w : Workspace) (p : Path) : Option FileTree :=
  match w.place p with
  | .ok parts => (w.files.stat parts).toOption
  | .error _ => none

def isFile (w : Workspace) (p : Path) : Bool := (w.entryAt? p).any fun e => !e.isDir

def isDir (w : Workspace) (p : Path) : Bool := (w.entryAt? p).any FileTree.isDir

def entries (w : Workspace) (p : Path) : List (Text × FileTree) :=
  ((w.entryAt? p).map FileTree.entries).getD []

/-- The path with a leading tilde replaced. -/
def expandHome (w : Workspace) (p : Path) : Except Fault Path :=
  match p.anchor, p.parts with
  | .here, [.scalar '~'] :: rest => .ok ⟨w.home.anchor, w.home.parts ++ rest⟩
  | .here, (.scalar '~' :: _) :: _ => .error .noHome
  | _, _ => .ok p

/-- The absolute path without two dots that a path names. The first name that no file
can have decides. -/
def resolve (w : Workspace) (p : Path) : Except Fault Path := do
  (w.current.join p).parts.forM checkName
  return Path.normal w.current p

/-- The path seen from `base`, with a leading tilde replaced and without two dots. -/
def resolveFrom (w : Workspace) (base p : Path) : Except Fault Path := do
  w.resolve (base.join (← w.expandHome p))

def read (w : Workspace) (p : Path) : Except Fault Bytes := do
  w.files.read (← w.place p)

/-- The text of a file, its line ends unified. -/
def readText (w : Workspace) (p : Path) : Except Fault (List Char) := do
  match (← w.read p).chars? with
  | some cs => return unifyLineEnds cs
  | none => throw .undecodable

/-- The file tree with the line of a record added to the log file, if there is one. A line that
cannot be added is lost. -/
def loggedFiles (w : Workspace) (r : LogRecord) : FileTree :=
  match w.logFile, Bytes.ofText? r.fileLine with
  | some p, some line =>
    let changed : Except Fault FileTree := do
      w.files.write (← w.place p) ((← w.read p) ++ line)
    changed.toOption.getD w.files
  | _, _ => w.files

/-- What the console shows after a record; only records that are heavy enough are shown. -/
def loggedConsole (w : Workspace) (r : LogRecord) : Text :=
  if w.consoleLevel.any fun l => l.weight ≤ r.level.weight then w.stderr ++ r.consoleLine
  else w.stderr

/-- The workspace after a log record. -/
def note (w : Workspace) (r : LogRecord) : Workspace :=
  { w with files := w.loggedFiles r, stderr := w.loggedConsole r, log := w.log ++ [r] }

end Workspace

/-- A step of a run. -/
abbrev Action := ExceptT Failure (StateM Workspace)

namespace Action

def fail {α : Type} (m : Mistake) : Action α := throw (.mistake m)

def faulty {α : Type} (f : Fault) : Action α := throw (.fault f)

/-- The result of a computation that meets faults only. -/
def ofFaults {α : Type} : Except Fault α → Action α
  | .ok a => pure a
  | .error f => faulty f

/-- A look at the workspace that may meet a fault. -/
def look {α : Type} (f : Workspace → Except Fault α) : Action α := do
  ofFaults (f (← get))

/-- The failure that an escape sequence without a meaning is. -/
def ofEscapes {α : Type} : Except TypeScript.EscapeError α → Action α
  | .ok a => pure a
  | .error .noCodePoint => faulty .badValue
  | .error .beyondRange => faulty .beyondRange

/-- Adds a record to the log, shows it on the console, and adds its line to the log file. -/
def record (level : LogLevel) (logger message : Text) : Action Unit :=
  let r : LogRecord := ⟨level, loggerRoot ++ logger, message⟩
  modify fun w => w.note r

/-- Changes the file tree, unless that meets a fault. -/
def change (f : Workspace → Except Fault FileTree) : Action Unit := do
  let files ← look f
  modify fun w => { w with files := files }

/-- Replaces the contents of a file, or makes a new one. -/
def writeBytes (p : Path) (content : Bytes) : Action Unit :=
  change fun w => do w.files.write (← w.place p) content

/-- Writes a text to a file. The file is emptied before it turns out that a text has no encoding. -/
def writeText (p : Path) (content : Text) : Action Unit := do
  match Bytes.ofText? content with
  | some bytes => writeBytes p bytes
  | none => do
    writeBytes p ByteArray.empty
    faulty .unencodable

/-- Makes a directory and those above it, where they are missing. -/
def makeDirs (p : Path) : Action Unit := do
  let parts ← look fun w => w.place p
  let made := (← get).files.makeDirs parts.reverse
  modify fun w => { w with files := made.1 }
  match made.2 with
  | some f => faulty f
  | none => return ()

def delete (p : Path) : Action Unit := change fun w => do w.files.delete (← w.place p)

def rename (source target : Path) : Action Unit :=
  change fun w => do w.files.rename (← w.place source) (← w.place target)

end Action

end CustomElements
