import CustomElements.Component.Basic
import CustomElements.Failure
import CustomElements.Json.Printer
import CustomElements.Output.Specifier

/-!
# The registration module

A module that defines the custom elements. Components are imported at the top or loaded on demand;
in the browser the module runs by itself.
-/

namespace CustomElements

/-- Where a registration module is used. -/
inductive RegistrationMode where
  | module
  | browser
deriving DecidableEq, Repr

def RegistrationMode.ofText (t : Text) : Except Mistake RegistrationMode :=
  if t = ("browser" : Text) then .ok .browser
  else if t = ("module" : Text) then .ok .module
  else .error (.modeUnsupported t)

/-- What a registration module is made for. -/
structure RegistrationSettings where
  mode : RegistrationMode
  /-- The directory of the module. -/
  directory : Path
  importExtension : Option Text := none
  /-- Whether components are imported at the top. -/
  inlineComponents : Bool := false

/-- The global variable that holds the promise of the registration. -/
def readyVariable : Text := "ngElementsReady"

/-- The import lines of the component with this index. -/
def importLines (inlined : Bool) (index : Nat) (c : Component) (specifier : Text) : List Text :=
  let number := Text.ofNat index
  let source := Json.quote specifier
  if inlined then
    [("import * as Component" : Text) ++ number ++ "Module from " ++ source ++ ";",
      "const Component" ++ number ++ " = (Component" ++ number
        ++ "Module as Record<string, unknown>)[" ++ Json.quote c.className ++ "];"]
  else [("const loadComponent" : Text) ++ number ++ " = () => import(" ++ source ++ ");"]

/-- The entry of the component with this index in the list of elements. -/
def definitionLine (inlined : Bool) (index : Nat) (c : Component) : Text :=
  let number := Text.ofNat index
  "  \x7b tag: " ++ Json.quote c.tag ++ ", "
    ++ (if inlined then ("component: Component" : Text) ++ number
      else "className: " ++ Json.quote c.className ++ ", load: loadComponent" ++ number)
    ++ " \x7d,"

/-- The lines that find the class of an element. -/
def resolveLines (inlined : Bool) : List Text :=
  if inlined then
    ["    const component = def.component as import(\"@angular/core\").Type<unknown>;"]
  else
    ["    const module = await def.load();",
      "    const component = module[def.className] ?? module.default;",
      "    if (!component) \x7b",
      "      throw new Error(\x60RegisterWebComponent: $\x7bdef.className\x7d not found in module "
        ++ "for $\x7bdef.tag\x7d\x60);",
      "    \x7d"]

/-- The lines that run the registration when the module is loaded. -/
def selfRegistrationLines : List Text :=
  ["",
    "var " ++ readyVariable ++ " = registerElements().catch(function (err) \x7b",
    "  if (typeof console !== \"undefined\" && console.error) "
      ++ "console.error(\"[elementgen] Registration failed:\", err);",
    "  throw err;",
    "\x7d);",
    "if (typeof window !== \"undefined\") (window as unknown as Record<string, unknown>)["
      ++ Json.quote readyVariable ++ "] = " ++ readyVariable ++ ";"]

/-- The lines before the imports of the components. -/
def headLines : List Text :=
  ["import \"@angular/compiler\";",
    "import \x7b createApplication \x7d from \"@angular/platform-browser\";",
    "import \x7b createCustomElement \x7d from \"@angular/elements\";",
    ""]

/-- The lines between the list of elements and those that find a class. -/
def loopLines : List Text :=
  ["];",
    "",
    "export async function registerElements() \x7b",
    "  const app = await createApplication();",
    "  for (const def of elementDefinitions) \x7b",
    "    if (customElements.get(def.tag)) \x7b",
    "      continue;",
    "    \x7d"]

/-- The lines that define an element, and the end of the loop. -/
def defineLines : List Text :=
  ["    const element = createCustomElement(component, \x7b injector: app.injector \x7d);",
    "    customElements.define(def.tag, element);",
    "  \x7d",
    "\x7d"]

def registrationLines (imports definitions : List Text) (settings : RegistrationSettings) :
    List Text :=
  headLines ++ imports ++ [[], "const elementDefinitions = ["] ++ definitions ++ loopLines
    ++ resolveLines settings.inlineComponents ++ defineLines
    ++ (if settings.mode = .browser then selfRegistrationLines else [])

/-- The text of the registration module of components, whose files are seen from `current`. -/
def registrationModule (current : Path) (settings : RegistrationSettings) (cs : List Component) :
    Text :=
  let inlined := settings.inlineComponents
  let specifier (c : Component) : Text :=
    moduleSpecifier current c.file settings.directory settings.importExtension
  let imports := (cs.zipIdx.map fun (c, i) => importLines inlined i c (specifier c)).flatten
  let definitions := cs.zipIdx.map fun (c, i) => definitionLine inlined i c
  (registrationLines imports definitions settings).flatMap fun (l : Text) => l ++ "\n"

end CustomElements
