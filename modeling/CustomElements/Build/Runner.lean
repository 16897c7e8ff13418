import CustomElements.Build.Flags

/-!
# Running builds

A build is a command that is started in the directory of the configuration and succeeds if its
exit code is zero.
-/

namespace CustomElements

/-- What a command leaves behind when it exits. -/
structure CommandResult where
  exitCode : Int := 0
  stdout : Option Text := none
  stderr : Option Text := none

/-- Starts a command; the text says why it could not be started. -/
abbrev CommandRunner := Command → Action (Except Text CommandResult)

structure BuildResult where
  success : Bool
  error : Option Text := none
  output : Text := []

/-- Runs builds. -/
abbrev Builder := BuildRequest → Action BuildResult

/-- The command that builds are run with. -/
def defaultBuildCommand : List Text := ["npx", "ng"]

def buildByCommand (command : List Text) (run : CommandRunner) : Builder := fun r => do
  let arguments ← Action.ofFaults (buildArguments command r)
  Action.record .info "build" ("Running " ++ Text.join " " arguments)
  modify fun w => { w with commands := w.commands ++ [⟨arguments, r.directory⟩] }
  match ← run ⟨arguments, r.directory⟩ with
  | .error reason =>
    return { success := false, error := some ("Build command could not be started: " ++ reason) }
  | .ok result =>
    let output := result.stdout.getD [] ++ result.stderr.getD []
    if result.exitCode == 0 then return { success := true, output := output }
    else return {
      success := false
      error := some ("Build target " ++ r.target.text ++ " failed with exit code "
        ++ Text.ofInt result.exitCode)
      output := output }

end CustomElements
