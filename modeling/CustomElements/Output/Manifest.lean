import CustomElements.Component.Basic
import CustomElements.Json.Printer

/-!
# The manifest

A JSON description of each component: its inputs as properties and as attributes,
its outputs as events.
-/

namespace CustomElements

/-- The version of the form of the manifest. -/
def manifestVersion : Text := "1.0.0"

/-- A member by the name under which it is visible, with its type. -/
def memberEntries (m : Member) : List (Text × Json) :=
  [("name", .string m.effectiveName), ("type", .object [("text", .string m.type)])]

/-- The description of a component; its file is seen from `root` if it lies below. -/
def manifestModule (root : Option Path) (c : Component) : Json :=
  let path := match root with
    | some r => c.file.textFrom r
    | none => c.file.text
  .object [
    ("kind", .string "javascript-module"),
    ("path", .string path),
    ("declarations", .array [.object [
      ("kind", .string "class"),
      ("name", .string c.className),
      ("tagName", .string c.tag),
      ("customElement", .bool true),
      ("members", .array (c.inputs.map fun m =>
        .object (("kind", .string "field") :: memberEntries m))),
      ("events", .array (c.outputs.map fun m => .object (memberEntries m))),
      ("attributes", .array (c.inputs.map fun m => .object (memberEntries m)))]])]

def manifest (root : Option Path) (cs : List Component) : Json :=
  .object [
    ("schemaVersion", .string manifestVersion),
    ("readme", .string []),
    ("modules", .array (cs.map (manifestModule root)))]

def manifestText (root : Option Path) (cs : List Component) : Text :=
  Json.render .indented (manifest root cs) ++ "\n"

end CustomElements
