import CustomElements.Json.Comments
import CustomElements.Json.Reader
import CustomElements.ProjectFile.Settings

/-!
# Reading project files

A project file may extend others. What it does not say itself it takes from them; of several bases
the later ones go first. Only a file without a base has defaults of its own.
-/

namespace CustomElements

/-- The directories that are excluded if no file says what is. -/
def defaultExcludes : List Text := ["node_modules", "bower_components", "jspm_packages"]

/-- A step of reading: the files visited so far are not visited again. -/
abbrev ReadAction := StateT (List Path) Action

/-- The settings that a project file writes down. -/
def readSettings (file : Path) : Action Value := do
  match (← get).readText file with
  | .error _ => Action.fail (.projectUnreadable file)
  | .ok cs =>
    let plain := Json.plain (.ofChars cs)
    match Json.parse (if plain.isEmpty then "\x7b\x7d" else plain) with
    | .error .malformed => Action.fail (.projectMalformed file)
    | .error .tooManyDigits => Action.faulty .badValue
    | .ok (.object ms) => return Value.ofJsonLast (.object ms)
    | .ok _ => Action.fail (.projectNoObject file)

/-- The items of a list; other values have none. -/
def Value.items? : Value → Option (List Value)
  | .list vs => some vs
  | _ => none

/-- What a list says, or what was said before. -/
def orElseList {α : Type} (later earlier : List α) : List α :=
  if later.isEmpty then earlier else later

/-- Two bases as one: the second one goes first where it says something. -/
def ProjectFile.override (first second : ProjectFile) : ProjectFile where
  path := first.path
  files := orElseList second.files first.files
  includes := orElseList second.includes first.includes
  excludes := orElseList second.excludes first.excludes
  outDir := second.outDir <|> first.outDir

/-- The file that a base is read from: with `.json` added, if it has another ending and
is not there. -/
def baseFile (w : Workspace) (directory : Path) (text : Text) : Except Fault Path := do
  let p ← w.resolve (directory.join (.ofText text))
  if p.suffix ≠ (".json" : Text) && !w.isFile p then
    if p.parts.isEmpty then throw .badValue
    return p.withName (p.name ++ ".json")
  else return p

mutual

/-- The base that an `extends` value names, read by `load`. -/
def baseOf (load : Path → ReadAction ProjectFile) (directory : Path) :
    Value → ReadAction (Option ProjectFile)
  | .list vs => baseOfList load directory none vs
  | .text t =>
    if t.isEmpty then return none
    else if Text.startsWith t "." then do
      return some (← load (← (Action.look fun w => baseFile w directory t : Action Path)))
    else do
      (Action.record .debug "tsconfig" ("Skipping non-relative tsconfig base " ++ t) : Action Unit)
      return none
  | _ => return none

/-- The bases of a list as one, after those read before. -/
def baseOfList (load : Path → ReadAction ProjectFile) (directory : Path)
    (merged : Option ProjectFile) : List Value → ReadAction (Option ProjectFile)
  | [] => return merged
  | v :: vs => do
    match ← baseOf load directory v, merged with
    | none, _ => baseOfList load directory merged vs
    | some s, none => baseOfList load directory (some s) vs
    | some s, some m => baseOfList load directory (some (m.override s)) vs

end

/-- The settings of a project file, given its base and what it writes down. -/
def settingsOf (file : Path) (base : Option ProjectFile) (data : Value) :
    Workspace → Except Fault ProjectFile := fun w => do
  let directory := file.parent
  let inherited : ProjectFile := match base with
    | some b => { b with path := file }
    | none => { path := file }
  let outDir ← match (data.get "compilerOptions").get "outDir" with
    | .text t => some <$> w.resolve (directory.join (.ofText t))
    | _ => pure inherited.outDir
  let rules (vs : List Value) : List FileRule := vs.map fun v => ⟨directory, v.shown⟩
  let files := (data.get "files").items?
  let includes := (data.get "include").items?
  let excludes := (data.get "exclude").items?
  let listed ← match files with
    | some vs => vs.mapM fun v => w.resolve (directory.join (.ofText v.shown))
    | none => pure inherited.files
  let defaultInclude : List FileRule :=
    if base.isNone && files.isNone then [⟨directory, "**/*"⟩] else inherited.includes
  let defaultExclude : List FileRule :=
    if base.isNone then defaultExcludes.map fun t => ⟨directory, t⟩ else inherited.excludes
  return {
    path := file
    files := listed
    includes := (includes.map rules).getD defaultInclude
    excludes := (excludes.map rules).getD defaultExclude
    outDir := outDir }

/-- Reads a project file and its bases; `fuel` bounds the length of a chain of bases. -/
def loadFrom : Nat → Path → ReadAction ProjectFile
  | 0, file => (Action.fail (.projectCircular file) : Action ProjectFile)
  | fuel + 1, file => do
    let seen ← get
    if seen.contains file then (Action.fail (.projectCircular file) : Action ProjectFile)
    else
      set (seen ++ [file])
      let data ← (readSettings file : Action Value)
      let base ← baseOf (loadFrom fuel) file.parent (data.get "extends")
      (Action.look (settingsOf file base data) : Action ProjectFile)

/-- Reads a project file and its bases. A chain of different files is no longer than
there are files. -/
def ProjectFile.load (p : Path) : Action ProjectFile := do
  let w ← get
  let file ← Action.look fun w => do w.resolve (← w.expandHome p)
  return (← (loadFrom (w.files.files.length + 2) file).run []).1

end CustomElements
