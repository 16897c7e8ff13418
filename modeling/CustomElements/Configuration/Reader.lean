import CustomElements.Configuration.Basic
import CustomElements.Json.Reader
import CustomElements.Text.LowerCase
import CustomElements.Yaml.Document

/-!
# Reading configuration files

A configuration file is JSON or YAML by its ending. Each setting takes the values that make sense
for it; any other value counts as not given.
-/

namespace CustomElements

/-! ### Settings of one kind -/

/-- The text of a value as a setting; an integer with too many digits has none. -/
def settingText (v : Value) : Except Fault Text :=
  match v with
  | .int n => if n.natAbs < tenTo Numeral.digitLimit then .ok v.shown else .error .badValue
  | _ => .ok v.shown

/-- A text setting: texts and numbers. -/
def asText (v : Value) : Except Fault (Option Text) :=
  match v with
  | .text _ | .int _ | .float _ => some <$> settingText v
  | _ => .ok none

/-- A yes or no setting: truth values and some words. -/
def asBool (v : Value) : Option Bool :=
  match v with
  | .bool b => some b
  | .text t =>
    let word := Text.lower t.strip
    if ["true", "yes", "1"].any fun w => decide (word = Text.ofString w) then some true
    else if ["false", "no", "0"].any fun w => decide (word = Text.ofString w) then some false
    else none
  | _ => none

/-- A setting that lists texts: one text, or a list in which only texts, numbers and
truth values count. -/
def asTexts (v : Value) : Except Fault (List Text) :=
  match v with
  | .text t => .ok [t]
  | .list vs =>
    (vs.filter fun i => match i with
      | .text _ | .int _ | .float _ | .bool _ => true
      | _ => false).mapM settingText
  | .bytes bs => .ok (bs.map fun b => Text.ofNat b.toNat)
  | _ => .ok []

def asEntries (v : Value) : List (Value × Value) :=
  match v with
  | .map es => es
  | _ => []

/-- A build target: a text, or its parts. -/
def asBuildTarget (v : Value) : Action (Option Text) := do
  match v with
  | .map _ =>
    let project ← Action.ofFaults (asText (v.get "project"))
    let target ← Action.ofFaults (asText (v.get "target"))
    let configuration ← Action.ofFaults (asText (v.get "configuration"))
    match nonempty? project, nonempty? target with
    | some p, some t => return some (Text.join ":" ([p, t] ++ (nonempty? configuration).toList))
    | _, _ => Action.fail .targetIncomplete
  | _ => Action.ofFaults (asText v)

/-- A path, seen from `root`; an empty text is none. -/
def asPath (root : Path) (v : Value) : Action (Option Path) := do
  match nonempty? (← Action.ofFaults (asText v)) with
  | some t => return some (← Action.look fun w => w.resolveFrom root (.ofText t))
  | none => return none

/-! ### Files -/

/-- The value of a configuration file. A blank file holds an empty mapping, whatever its name. -/
def configurationValue (file : Path) : Action Value := do
  match (← get).readText file with
  | .error _ => Action.fail .configUnreadable
  | .ok cs =>
    let t : Text := .ofChars cs
    let suffix := Text.lower file.suffix
    if Text.isBlank t then return .map []
    else if suffix = (".json" : Text) then
      match Json.parse t with
      | .ok v => return .ofJson v
      | .error .malformed => Action.fail (.configMalformed file.name)
      | .error .tooManyDigits => Action.faulty .badValue
    else if suffix = (".yml" : Text) || suffix = (".yaml" : Text) then
      match Yaml.read cs with
      | .ok v => return v
      | .error .malformed => Action.fail (.configMalformed file.name)
      | .error (.fault f) => Action.faulty f
    else Action.fail (.configFormat file.suffix)

def Configuration.load (p : Path) : Action Configuration := do
  let file ← Action.look fun w => do w.resolve (← w.expandHome p)
  if !(← get).isFile file then Action.fail (.configMissing file)
  let root := file.parent
  let data ← configurationValue file
  match data with
  | .map _ =>
    let elements := data.get "elements"
    match elements with
    | .null | .map _ | .list _ => pure ()
    | _ => Action.fail .elementsNoCollection
    let outputs ← Action.ofFaults (asTexts (data.get "elementOutputs"))
    let target ← asBuildTarget (data.get "buildTarget")
    let build : BuildSettings := {
      target := target
      sourceMap := (asBool (data.get "sourceMap")).getD false
      outputHashing := ← Action.ofFaults (asText (data.get "outputHashing"))
      outputFileName := ← Action.ofFaults (asText (data.get "outputFileName"))
      options := asEntries (data.get "buildTargetOptions")
      entryDir := ← asPath root (data.get "browserEntryDir") }
    let found := Value.map (asEntries (data.get "discovery"))
    let marker ← Action.ofFaults (asText (found.get "marker"))
    let discovery : DiscoveryRule := {
      marker := (nonempty? marker).getD ({} : DiscoveryRule).marker
      selectorFallback := (asBool (found.get "selectorFallback")).getD false }
    return {
      root := root
      elements := match elements with
        | .null => none
        | v => some v
      projectFile := ← asPath root (data.get "tsconfig")
      outDir := ← asPath root (data.get "outDir")
      rootDir := ← asPath root (data.get "rootDir")
      outputs := if outputs.isEmpty then [manifestOutput] else outputs
      importExtension := ← Action.ofFaults (asText (data.get "importExtension"))
      inlineComponents := asBool (data.get "inlineComponents")
      build := build
      discovery := discovery }
  | _ => Action.fail (.configNoMapping file.name)

end CustomElements
