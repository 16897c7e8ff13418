import CustomElements.Json.Printer
import CustomElements.Text.LowerCase
import CustomElements.Value.Literal
import CustomElements.Workspace

/-!
# Build commands

The options of a build become flags of its command. Some options are always those of
the build at hand.
-/

namespace CustomElements

/-- The text of a value as a key of a JSON object; some values are none. -/
def jsonKey? : Value → Option Text
  | .text t => some t
  | .bool true => some "true"
  | .bool false => some "false"
  | .null => some "null"
  | .int n => some (.ofInt n)
  | .float x => some (Json.floatText x)
  | _ => none

mutual

/-- The JSON value of a configuration value; some values have none. -/
def Value.json? : Value → Option Json
  | .null => some .null
  | .bool b => some (.bool b)
  | .int n => some (.int n)
  | .float x => some (.float x)
  | .text t => some (.string t)
  | .list vs => (jsonItems? vs).map .array
  | .pair k v => do return .array [← Value.json? k, ← Value.json? v]
  | .map es => (jsonMembers? es).map .object
  | _ => none

def jsonItems? : List Value → Option (List Json)
  | [] => some []
  | v :: vs => do return (← Value.json? v) :: (← jsonItems? vs)

def jsonMembers? : List (Value × Value) → Option (List (Text × Json))
  | [] => some []
  | (k, v) :: es => do return (← jsonKey? k, ← Value.json? v) :: (← jsonMembers? es)

end

/-- The text with a hyphen before each ASCII capital, but for the first character. -/
def hyphenated : Text → Text
  | [] => []
  | first :: rest => first :: rest.flatMap fun p =>
      if p.satisfies Char.isUpper then ([.scalar '-', p] : Text) else [p]

/-- The name of the flag of an option. -/
def flagName (key : Text) : Text := Text.lower (hyphenated key)

def flagValue (v : Value) : Except Fault Text :=
  match v with
  | .bool b => .ok (if b then "true" else "false")
  | .map _ | .list _ =>
    match v.json? with
    | some j => .ok (Json.render .compact j)
    | none => .error .wrongType
  | _ => .ok v.shown

/-- The flag of an option; a null option has none. -/
def flag? (option : Value × Value) : Except Fault (Option Text) := do
  match option with
  | (_, .null) => return none
  | (.text key, v) => return some ("--" ++ flagName key ++ "=" ++ (← flagValue v))
  | _ => throw .wrongType

/-- The options of a build, with those that are always set. -/
def BuildRequest.allOptions (r : BuildRequest) : List (Value × Value) :=
  let own : List (Text × Value) :=
    [("browser", .text (r.entry.textFrom r.directory)),
      ("outputPath", .text (r.outputPath.textFrom r.directory)),
      ("deleteOutputPath", .bool false)]
  own.foldl (fun es o => Value.assign (.text o.1) o.2 es) r.options

/-- The arguments of a build, the command itself first. -/
def buildArguments (command : List Text) (r : BuildRequest) : Except Fault (List Text) := do
  let flags ← r.allOptions.mapM flag?
  return command ++ ([("run" : Text), r.target.text] : List Text) ++ flags.filterMap id

end CustomElements
