import CustomElements.Files.Glob

/-!
# File selection of a project file

A project file selects sources: those it lists, and those its include patterns match and neither its
exclude patterns nor its output directory take out. Each pattern belongs to the directory of the
file that wrote it.
-/

namespace CustomElements

/-- A pattern and the directory it starts from. -/
structure FileRule where
  base : Path
  pattern : Text

/-- The file selection of a project file and of the files it extends. -/
structure ProjectFile where
  path : Path
  files : List Path := []
  includes : List FileRule := []
  excludes : List FileRule := []
  outDir : Option Path := none

/-- Whether a file name is that of a source, and not of a declaration file. -/
def isSourceName (name : Text) : Bool :=
  (Text.endsWith name ".ts" || Text.endsWith name ".tsx") && !Text.endsWith name ".d.ts"

/-- The text without slashes at its end. -/
def dropSlashes (t : Text) : Text := t.dropRightWhile fun c => decide (c = .scalar '/')

/-- Whether an exclude rule takes out a path: it matches the path or a directory above it. -/
def FileRule.takesOut (r : FileRule) (p : Path) : Bool :=
  match p.relativeTo? r.base with
  | none => false
  | some relative =>
    let pattern := dropSlashes r.pattern
    let candidates := if Text.startsWith pattern "**/" then [pattern, pattern.drop 3] else [pattern]
    candidates.any fun c =>
      Pattern.accepts c relative.text || Pattern.accepts (c ++ "/*") relative.text

/-- The sources that an include rule matches, in the order of paths. -/
def FileRule.expand (w : Workspace) (r : FileRule) : Except Fault (List Path) := do
  let pattern := dropSlashes r.pattern.strip
  if pattern.isEmpty then return []
  let target := r.base.join (.ofText pattern)
  let wild := Pattern.hasWildcard pattern
  if !wild && w.isFile target then
    if isSourceName target.name then return [← w.resolve target] else return []
  if !wild && !w.isDir target then return []
  let pattern := if wild then pattern else pattern ++ "/**/*"
  let pattern := if Text.endsWith pattern "**" then pattern ++ "/*" else pattern
  let found ← w.glob r.base pattern
  (found.filter fun p =>
    w.isFile p && isSourceName p.name && !p.parts.contains ("node_modules" : Text)).mapM w.resolve

namespace ProjectFile

/-- Whether a path is taken out of the selection. -/
def takesOut (s : ProjectFile) (p : Path) : Bool :=
  s.outDir.any p.isBelow || s.excludes.any fun r => r.takesOut p

/-- The listed files that are there, each once, after those selected so far. -/
def listed (w : Workspace) : List Path → List Path → List Path
  | selected, [] => selected
  | selected, p :: ps =>
    let selected := if !selected.contains p && w.isFile p then selected ++ [p] else selected
    listed w selected ps

/-- The paths that are neither selected nor taken out, each once, after those selected so far. -/
def added (s : ProjectFile) : List Path → List Path → List Path
  | selected, [] => selected
  | selected, p :: ps =>
    let selected := if selected.contains p || s.takesOut p then selected else selected ++ [p]
    s.added selected ps

/-- Adds what the include rules match; a rule that meets a fault ends the selection. -/
def included (s : ProjectFile) (w : Workspace) :
    List Path → List FileRule → List Path × Option Fault
  | selected, [] => (selected, none)
  | selected, r :: rs =>
    match r.expand w with
    | .ok ps => s.included w (s.added selected ps) rs
    | .error f => (selected, some f)

/-- The selected sources in order, and the fault that ended the selection early. -/
def select (s : ProjectFile) (w : Workspace) : List Path × Option Fault :=
  s.included w (listed w [] s.files) s.includes

end ProjectFile

end CustomElements
