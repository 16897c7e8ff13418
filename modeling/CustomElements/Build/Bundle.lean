import CustomElements.Text.LowerCase
import CustomElements.Workspace

/-!
# The main bundle

A build names its main bundle as it likes. Afterwards the bundle and its source map get the name
that the configuration asks for, in the directory they are in.
-/

namespace CustomElements

/-- The folder of the output directory that builds write bundles to. -/
def browserFolder : Text := "browser"

/-- Whether a file name is that of a main bundle. -/
def isMainBundle (name : Text) : Bool := Text.startsWith name "main" && Text.endsWith name ".js"

/-- The names of the main bundles in a directory, in order. -/
def Workspace.mainBundles (w : Workspace) (directory : Path) : List Text :=
  let bundles := (w.entries directory).filter fun e => !e.2.isDir && isMainBundle e.1
  (bundles.map Prod.fst).mergeSort Text.le

/-- The file name of a bundle: with the ending of a script, if the given name has another one. -/
def bundleName (name : Text) : Text :=
  if Text.endsWith (Text.lower name) ".js" then name else name ++ ".js"

/-- Gives the main bundle another name; tells its new path, if there is a main bundle. -/
def renameBundle (outDir : Path) (name : Text) : Action (Option Path) := do
  let target := bundleName name
  let w ← get
  let found := [outDir.child browserFolder, outDir].findSome? fun d =>
    (w.mainBundles d).head?.map fun b => (d, b)
  match found with
  | none => do
    Action.record .warning "build" ("No main bundle (main.js or main-*.js) found in " ++ outDir.text
      ++ "; skipping rename.")
    return none
  | some (directory, bundle) => do
    let destination := directory.join (.ofText target)
    Action.rename (directory.child bundle) destination
    let sourceMap := directory.child (bundle ++ ".map")
    if (← get).isFile sourceMap then
      Action.rename sourceMap (directory.join (.ofText (target ++ ".map")))
    Action.record .info "build" ("Renamed main bundle to " ++ target
      ++ ". Load with <script type=\"module\" src=\"" ++ target ++ "\">.")
    return some destination

end CustomElements
