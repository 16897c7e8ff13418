import CustomElements.Files.Fault
import CustomElements.Files.Path
import CustomElements.Value.Literal

/-!
# Failures

A run fails because of a mistake in its configuration or in a component, or because of a fault of
its surroundings. A mistake is kept as its cause; `Mistake.message` words it. A mistake whose message
would show a value that cannot be shown ends the run as a fault.
-/

namespace CustomElements

/-- Mistakes in configurations and components, by what a user has to mend. -/
inductive Mistake where
  -- the configuration file
  | configMissing (file : Path)
  | configUnreadable
  | configMalformed (fileName : Text)
  | configFormat (suffix : Text)
  | configNoMapping (fileName : Text)
  | elementsNoCollection
  | targetIncomplete
  -- the element list
  | elementsShape
  | entryShape (entry : Value)
  | entryWithoutTag (component : Value)
  | entryWithoutComponent (tag : Text)
  -- the project file
  | projectCircular (file : Path)
  | projectUnreadable (file : Path)
  | projectMalformed (file : Path)
  | projectNoObject (file : Path)
  -- component references and sources
  | referenceBlank (reference : Text)
  | referenceMalformed (reference : Text)
  | sourceMissing (file : Text)
  | sourceUnreadable (file : Path)
  | sourceMalformed (file : Path)
  | classNotInFile (name : Text) (file : Path)
  | classUnknown (name : Text)
  | classAmbiguous (name : Text) (count : Nat)
  -- discovery
  | markerOnAnonymousClass (marker : Text) (file : Path)
  | markerWithoutTag (marker name : Text) (file : Path)
  | duplicateTag (tag : Text) (owners : Option (Text × Text))
  -- outputs and builds
  | bundleWithoutTarget
  | outputUnsupported (kind : Text)
  | modeUnsupported (mode : Text)
  | targetMalformed (target : Text)

/--
Stands in messages for the description of an underlying fault, the wording of which is left to the
system.
-/
def causeText : Text := "<cause>"

/-- The element outputs that can be asked for. -/
def supportedOutputs : List Text := ["manifest", "module", "browser"]

namespace Mistake

/-- What every message about a configuration file starts with. -/
def configLead : Text := "Registry could not be parsed: "

def message : Mistake → Text
  | configMissing file => configLead ++ file.text ++ " does not exist"
  | configUnreadable => configLead ++ causeText
  | configMalformed name => configLead ++ name ++ ": " ++ causeText
  | configFormat suffix => configLead ++ "unsupported config format '" ++ suffix ++ "'"
  | configNoMapping name => configLead ++ name ++ " must contain a mapping at the root"
  | elementsNoCollection => configLead ++ "'elements' must be a mapping or a list"
  | targetIncomplete => configLead ++ "buildTarget needs both project and target"
  | elementsShape => "'elements' must be a mapping of tag to component or a list of entries"
  | entryShape entry => "Element entry must be \x7btag, component\x7d, got: " ++ entry.literal
  | entryWithoutTag component => "Element entry is missing a tag: " ++ component.literal
  | entryWithoutComponent tag => "Element <" ++ tag ++ "> is missing a component reference"
  | projectCircular file => "tsconfig extends chain is circular at " ++ file.text
  | projectUnreadable file => "tsconfig could not be read: " ++ file.text ++ ": " ++ causeText
  | projectMalformed file => "tsconfig could not be parsed: " ++ file.text ++ ": " ++ causeText
  | projectNoObject file => "tsconfig must contain an object at the root: " ++ file.text
  | referenceBlank reference => "Component reference could not be parsed: " ++ reference.quoted
  | referenceMalformed reference => "Component reference could not be parsed: " ++ reference
  | sourceMissing file => "Component source file not found: " ++ file
  | sourceUnreadable file =>
    "Component source file could not be read: " ++ file.text ++ ": " ++ causeText
  | sourceMalformed file => "Component source file could not be parsed: " ++ file.text
  | classNotInFile name file =>
    "Component symbol cannot be resolved to class: " ++ name ++ " (in " ++ file.text ++ ")"
  | classUnknown name =>
    "Component symbol cannot be resolved to class: " ++ name ++ " (no matching class)"
  | classAmbiguous name count =>
    "Component symbol cannot be resolved to class: " ++ name ++ " (" ++ Text.ofNat count
      ++ " matching classes)"
  | markerOnAnonymousClass marker file =>
    "@" ++ marker ++ " found on an anonymous class in " ++ file.text ++ "; give the class a name"
  | markerWithoutTag marker name file =>
    "@" ++ marker ++ " on " ++ name ++ " (" ++ file.text ++ ") does not declare a tag"
  | duplicateTag tag none => "Tag is duplicated: " ++ tag
  | duplicateTag tag (some (first, second)) =>
    "Tag is duplicated: " ++ tag ++ " (" ++ first ++ " and " ++ second ++ ")"
  | bundleWithoutTarget =>
    "browser output requires a build target so the Angular build produces the bundle. "
      ++ "Set buildTarget (e.g. \"myApp:build\") in the generator config."
  | outputUnsupported kind =>
    "Unsupported element output '" ++ kind ++ "' (expected one of: "
      ++ Text.join ", " supportedOutputs ++ ")"
  | modeUnsupported mode => "Unsupported registration mode: " ++ mode
  | targetMalformed target =>
    "Invalid buildTarget \"" ++ target
      ++ "\"; expected \"project:target\" or \"project:target:configuration\"."

/-- Whether the message of a mistake can be written. -/
def isWordable : Mistake → Bool
  | entryShape entry => entry.isShowable
  | entryWithoutTag component => component.isShowable
  | _ => true

end Mistake

/-- Why a run fails. -/
inductive Failure where
  | mistake (m : Mistake)
  | fault (f : Fault)

/-- The failure that a mistake leads to. -/
def Mistake.failure (m : Mistake) : Failure :=
  if m.isWordable then .mistake m else .fault .badValue

theorem Mistake.failure_eq_mistake {m : Mistake} : m.failure = .mistake m ↔ m.isWordable := by
  simp [Mistake.failure]

instance : Coe Mistake Failure := ⟨.mistake⟩

instance : Coe Fault Failure := ⟨.fault⟩

end CustomElements
