import CustomElements.CommandLine.Run

/-!
# The program

Runs a command line on the files below the current directory. They are read before the run, and what
the run has changed is written back after it. Other programs are not started from here: a build is
told as one that could not be started.
-/

namespace CustomElements.Program

/-- The tree of a directory. Links are not followed, and what cannot be read is left out. -/
partial def readTree (found : Array IO.FS.DirEntry) : IO FileTree := do
  let mut entries : List (Text × FileTree) := []
  for e in found do
    try
      match (← e.path.symlinkMetadata).type with
      | .dir => entries := (.ofString e.fileName, ← readTree (← e.path.readDir)) :: entries
      | .file => entries := (.ofString e.fileName, .file (← IO.FS.readBinFile e.path)) :: entries
      | _ => pure ()
    catch _ => pure ()
  return .dir entries.reverse

/-- The characters of a text as they can be shown. -/
def shownString (t : Text) : String := String.ofList (t.filterMap CodePoint.char?)

/-- The name of a place by which the system knows it. -/
def placeString (names : List Text) : String := shownString (Path.mk .root names).text

/-- Makes the files of the system those of a later tree. -/
def writeChanges (before after : FileTree) : IO Unit := do
  for (names, content) in before.written after do
    IO.FS.createDirAll (placeString names.dropLast)
    IO.FS.writeBinFile (placeString names) content
  for names in before.removed after do
    IO.FS.removeFile (placeString names)

/-- The workspace that holds the files below the current directory. -/
def currentWorkspace : IO Workspace := do
  let place ← IO.currentDir
  let current := Path.ofText (.ofString place.toString)
  let tree ← readTree (← place.readDir)
  return {
    files := ((FileTree.dir []).makeDirs current.parts.reverse).1.put tree current.parts
    current := current
    home := .ofText (.ofString ((← IO.getEnv "HOME").getD "/"))
    project := ⟨current, []⟩ }

def usage : Text := "usage: elementgen " ++ Text.join " " (OptionKind.names.map Prod.fst) ++ "\n"

/-- The wording of what ended a run early. -/
def failureText : Failure → Text
  | .mistake m => m.message
  | .fault f => .ofString (reprStr f)

/-- Runs a command line; gives the exit status. -/
def run (arguments : List String) : IO UInt32 := do
  let before ← currentWorkspace
  let notStarted : CommandRunner := fun _ =>
    return .error "other programs are not started from here"
  let action := runCommandLine notStarted (arguments.map Text.ofString)
  let (result, after) := Id.run (action.run.run before)
  writeChanges before.files after.files
  IO.print (shownString after.stdout)
  IO.eprint (shownString after.stderr)
  match result with
  | .ok status =>
    if status = UsageStop.misused.status then IO.eprint (shownString usage)
    return status.toUInt32
  | .error e =>
    IO.eprintln (shownString (failureText e))
    return 1

end CustomElements.Program

def main (arguments : List String) : IO UInt32 := CustomElements.Program.run arguments
