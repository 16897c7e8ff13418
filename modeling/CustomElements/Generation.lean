import CustomElements.Build.Bundle
import CustomElements.Build.Runner
import CustomElements.Build.SourceRoot
import CustomElements.Configuration.Basic
import CustomElements.Configuration.Elements
import CustomElements.Output.Declarations
import CustomElements.Output.Manifest
import CustomElements.Output.Registration
import CustomElements.Output.Store

/-!
# Generation

One run: the configuration is checked, sources are loaded, elements become components, outputs are
written, and the browser bundle is built. The first mistake ends the run.
-/

namespace CustomElements

structure GenerationResult where
  components : List Component
  /-- The written artifacts by kind, in order. -/
  artifacts : List (Text × Path) := []
  build : Option BuildResult := none
  bundle : Option Path := none

/-- A run fails after its outputs are written only if the build fails. -/
def GenerationResult.success (r : GenerationResult) : Bool := r.build.all BuildResult.success

/-- A failed build without a message. -/
def unknownError : Text := "unknown error"

def BuildResult.errorText (b : BuildResult) : Text := (nonempty? b.error).getD unknownError

/-- The names of the artifacts. -/
def manifestFileName : Text := "custom-elements.json"

def typesFileName : Text := "custom-elements.d.ts"

def moduleFileName : Text := "elements.ts"

def browserEntryFileName : Text := "elements.browser.entry.ts"

/-- The outputs that are asked for, each once. -/
def requestedOutputs : List Text → List Text → Except Mistake (List Text)
  | chosen, [] => .ok chosen
  | chosen, kind :: kinds =>
    if !supportedOutputs.contains kind then .error (.outputUnsupported kind)
    else requestedOutputs (if chosen.contains kind then chosen else chosen ++ [kind]) kinds

/-- A result that only a mistake prevents. -/
def Action.ofMistakes {α : Type} : Except Mistake α → Action α
  | .ok a => pure a
  | .error m => throw m.failure

/-- Starts with the sources of the project file: the given one, or the usual one if it is there. -/
def loadProjectFile (c : Configuration) : Action Unit := do
  let named ← c.projectFile.mapM c.resolve
  let usual := c.root.child "tsconfig.json"
  let file := if named.isNone && (← get).isFile usual then some usual else named
  match file with
  | some p =>
    Action.record .debug "orchestrator" ("Loading project from " ++ p.text)
    Project.startFrom p (some c.root)
  | none => Project.start c.root

/-- Loads the sources of the source directory, if there is one. -/
def loadSourceDirectory (c : Configuration) : Action Unit := do
  match c.rootDir with
  | some d =>
    let _ ← Project.addDirectory (← c.resolve d)
  | none => return ()

/-- Loads the sources of a run: those of the project file, and those of the source directory. -/
def loadSources (c : Configuration) : Action Unit := do
  loadProjectFile c
  loadSourceDirectory c

/-- The number of members of a kind. -/
def countKind (kind : MemberKind) (ms : List Member) : Text :=
  .ofNat (ms.filter fun m => decide (m.kind = kind)).length

def componentOf (e : ElementEntry) : Action Component := do
  let ref ← Action.ofMistakes (ComponentRef.parse e.component)
  let found ← Project.resolve ref
  let members ← Action.ofEscapes found.declaration.members
  let name := found.declaration.name
  Action.record .debug "orchestrator" ("<" ++ e.tag ++ "> " ++ name.getD "None" ++ ": "
    ++ countKind .input members ++ " input(s), " ++ countKind .output members ++ " output(s)")
  return {
    tag := e.tag, className := name.getD ref.className, file := found.file.path,
    members := members }

def writeRegistration (c : Configuration) (mode : RegistrationMode) (path : Path)
    (cs : List Component) : Action Path := do
  let settings : RegistrationSettings := {
    mode := mode
    directory := path.parent
    importExtension := c.importExtension
    inlineComponents := c.inlineComponents.getD (decide (mode = .browser)) }
  writeArtifact path (registrationModule (← get).current settings cs)

/--
The directory of the browser entry module: the given one, or one among the sources of the build, so
that the build takes in what the components refer to.
-/
def entryDirectory (c : Configuration) (target : BuildTarget) (outDir : Path) : Action Path := do
  match c.build.entryDir with
  | some d => c.resolve d
  | none =>
    if (← get).isFile (c.root.child workspaceFileName) then
      let source ← sourceRoot c.root target.project
      return (c.root.join (.ofText source)).child "generated"
    else return outDir

/-- The options that a build is asked for with. -/
def buildOptions (c : Configuration) : List (Value × Value) :=
  let own : List (Value × Value) := [(.text "sourceMap", .bool c.build.sourceMap)]
  let own := match c.build.outputHashing with
    | some t => own ++ [(.text "outputHashing", .text t)]
    | none => own
  c.build.options.foldl (fun es o => Value.assign o.1 o.2 es) own

/-- Builds the browser bundle and gives it its name. -/
def runBuild (builder : Builder) (c : Configuration) (target : BuildTarget) (entry outDir : Path) :
    Action (BuildResult × Option Path) := do
  Action.record .info "orchestrator" ("Delegating browser bundle to build target " ++ target.text)
  let build ← builder {
    target := target
    entry := entry
    outputPath := outDir
    options := buildOptions c
    directory := c.root }
  if !build.success then
    Action.record .error "orchestrator"
      ("Build target " ++ target.text ++ " failed: " ++ build.errorText)
    return (build, none)
  match nonempty? c.build.outputFileName with
  | some name => return (build, ← renameBundle outDir name)
  | none =>
    Action.record .info "orchestrator"
      ("Browser bundle emitted by Angular (main-*.js). "
        ++ "Load with <script type=\"module\" src=\"main-*.js\">.")
    return (build, none)

/-- Writes the output of one kind, besides the manifest and the types. -/
def writeOutput (builder : Builder) (c : Configuration) (target : Option BuildTarget)
    (outDir : Path) (result : GenerationResult) (kind : Text) : Action GenerationResult := do
  if kind = moduleOutput then
    let path ← writeRegistration c .module (outDir.child moduleFileName) result.components
    return { result with artifacts := result.artifacts ++ [(kind, path)] }
  else if kind = browserOutput then
    match target with
    | none => return result
    | some target =>
      let directory ← entryDirectory c target outDir
      let entry := directory.child browserEntryFileName
      let entry ← writeRegistration c .browser entry result.components
      let (build, bundle) ← runBuild builder c target entry outDir
      return { result with
        artifacts := result.artifacts ++ [(kind, entry)]
        build := some build
        bundle := bundle }
  else return result

/-- What is known before anything is written: the outputs that are asked for, the target of the
build, and the components. -/
structure Preparation where
  outputs : List Text
  target : Option BuildTarget
  components : List Component

/-- The elements of a run: those of the configuration, or else the marked classes. -/
def runElements (c : Configuration) : Option (List ElementEntry) → Action (List ElementEntry)
  | some es => pure es
  | none => do
    let found ← Project.discover c.discovery
    if found.isEmpty then
      Action.record .warning "orchestrator"
        ("No @" ++ c.discovery.marker ++ " components discovered")
    pure found

/-- A browser bundle needs a build target. -/
def checkTarget (outputs : List Text) (target : Option BuildTarget) : Except Mistake Unit :=
  if outputs.contains browserOutput && target.isNone then .error .bundleWithoutTarget else .ok ()

/-- Checks the configuration, loads the sources, and makes the components. -/
def prepare (c : Configuration) : Action Preparation := do
  let outputs ← Action.ofMistakes (requestedOutputs [] c.outputs)
  let target ← Action.ofMistakes ((nonempty? c.build.target).mapM BuildTarget.parse)
  Action.ofMistakes (checkTarget outputs target)
  let listed ← Action.ofMistakes (c.elements.mapM elementEntries)
  loadSources c
  let entries ← runElements c listed
  Action.record .info "orchestrator" ("Analyzing " ++ Text.ofNat entries.length ++ " component(s)")
  let components ← entries.mapM componentOf
  return ⟨outputs, target, components⟩

/-- Writes the outputs and has the browser bundle built. -/
def emit (builder : Builder) (c : Configuration) (p : Preparation) : Action GenerationResult := do
  let outDir ← c.resolvedOutDir
  let manifest := manifestText (some c.root) p.components
  let manifestPath ← writeArtifact (outDir.child manifestFileName) manifest
  let typesPath ← writeArtifact (outDir.child typesFileName) (typeDeclarations p.components)
  let basic : GenerationResult := {
    components := p.components
    artifacts := [(manifestOutput, manifestPath), ("types", typesPath)] }
  let result ← p.outputs.foldlM (writeOutput builder c p.target outDir) basic
  Action.record .info "orchestrator"
    ("Wrote " ++ Text.ofNat result.artifacts.length ++ " artifact(s) to " ++ outDir.text)
  return result

def generate (builder : Builder) (c : Configuration) : Action GenerationResult := do
  emit builder c (← prepare c)

end CustomElements
