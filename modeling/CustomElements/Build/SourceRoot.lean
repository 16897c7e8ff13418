import CustomElements.Json.Reader
import CustomElements.Workspace

/-!
# Source roots

The workspace file of a build says for each project where its sources are.
-/

namespace CustomElements

def workspaceFileName : Text := "angular.json"

/-- The directory of the sources if nothing says where they are. -/
def defaultSourceRoot : Text := "src"

/-- The source root that a workspace file gives a project. -/
def sourceRootIn (data : Json) (project : Text) : Text :=
  let settings := (data.member? "projects").bind (Json.member? project)
  match settings.bind (Json.member? "sourceRoot") with
  | some (.string t) => if t.isEmpty then defaultSourceRoot else t
  | _ => defaultSourceRoot

/-- The source root of a project. A workspace file that is there but cannot be read is warned of. -/
def sourceRoot (root : Path) (project : Text) : Action Text := do
  let file := root.child workspaceFileName
  let unread : Action Text := do
    Action.record .warning "build.target" ("Could not read " ++ file.text ++ " (" ++ causeText
      ++ "); assuming sourceRoot '" ++ defaultSourceRoot ++ "'")
    return defaultSourceRoot
  match (← get).readText file with
  | .error .noSuchFile => return defaultSourceRoot
  | .error .undecodable => Action.faulty .undecodable
  | .error .unencodable => Action.faulty .unencodable
  | .error .badValue => Action.faulty .badValue
  | .error _ => unread
  | .ok cs =>
    match Json.parse (.ofChars cs) with
    | .ok data => return sourceRootIn data project
    | .error .malformed => unread
    | .error .tooManyDigits => Action.faulty .badValue

end CustomElements
