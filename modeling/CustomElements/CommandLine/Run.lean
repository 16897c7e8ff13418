import CustomElements.CommandLine.Options
import CustomElements.Component.Metadata
import CustomElements.Configuration.Reader
import CustomElements.Generation

/-!
# Runs from the command line

Options go before the configuration file. What was made goes to standard output, the log and the
reason of a failure to standard error.
-/

namespace CustomElements

namespace Action

def print (line : Text) : Action Unit :=
  modify fun w => { w with stdout := w.stdout ++ line ++ "\n" }

/-- Ends with a message on standard error. -/
def stop (status : Nat) (message : Text) : Action Nat := do
  modify fun w => { w with stderr := w.stderr ++ message }
  return status

/-- The result of an action, or the mistake that it met; a fault stays one. -/
def mistakes {α : Type} (a : Action α) : Action (Except Mistake α) :=
  tryCatch (Except.ok <$> a) fun
    | .mistake m => return .error m
    | .fault f => throw (.fault f)

end Action

/-- Sends the log to the console and, if one is named, to a log file. -/
def startLog (verbose : Bool) (logFile : Option Path) : Action Unit := do
  modify fun w => { w with consoleLevel := some (if verbose then .debug else .info) }
  match logFile with
  | none => return ()
  | some p =>
    Action.makeDirs p.parent
    let file := Path.normal (← get).current p
    Action.writeBytes file ByteArray.empty
    modify fun w => { w with logFile := some file }

/-- A path as it is shown: seen from the current directory if it lies below. -/
def shownPath (p : Path) : Action Text := do return p.textFrom (← get).current

/-- Completes the metadata of source files, one after the other. -/
def completeFiles : List Path → Action Nat
  | [] => return 0
  | p :: ps => do
    match ← Action.mistakes (completeFile p) with
    | .error m => Action.stop 1 ("elementgen failed: " ++ m.message ++ "\n")
    | .ok changed =>
      let file ← Action.look fun w => w.resolve p
      Action.print ((if changed then "normalized: " else "unchanged: ") ++ (← shownPath file))
      completeFiles ps

/-- The configuration of a run: that of the file, if there is one, with the options in place
of its own. -/
def chosenConfiguration (o : Options) : Action Configuration := do
  let base ← match o.config with
    | some p => Configuration.load p
    | none => do
      let current := (← get).current
      pure { root := ← Action.look fun w => w.resolve current }
  let absolute (p : Path) : Action Path := Action.look fun w => do w.resolve (← w.expandHome p)
  let outDir ← o.outDir.mapM absolute
  let projectFile ← o.projectFile.mapM absolute
  let rootDir ← o.rootDir.mapM absolute
  let target := nonempty? o.buildTarget
  return { base with
    outDir := outDir <|> base.outDir
    projectFile := projectFile <|> base.projectFile
    rootDir := rootDir <|> base.rootDir
    outputs := if o.outputs.isEmpty then base.outputs else o.outputs
    build := { base.build with target := target <|> base.build.target } }

def report (r : GenerationResult) : Action Unit := do
  Action.print ("Generated " ++ Text.ofNat r.components.length ++ " element(s)")
  for (kind, path) in r.artifacts do
    Action.print ("  " ++ kind ++ ": " ++ (← shownPath path))
  match r.bundle with
  | some p => Action.print ("  bundle: " ++ (← shownPath p))
  | none => return ()

/-- Does what the options ask for; gives the exit status. -/
def runOptions (run : CommandRunner) (o : Options) : Action Nat := do
  startLog o.verbose o.logFile
  if !o.normalize.isEmpty then completeFiles o.normalize
  else
    let outcome ← Action.mistakes do
      generate (buildByCommand defaultBuildCommand run) (← chosenConfiguration o)
    match outcome with
    | .error m =>
      Action.stop 1
        ("elementgen failed: " ++ m.message ++ "\nRun with --verbose for more details.\n")
    | .ok result =>
      report result
      if result.success then return 0
      else
        let reason := (result.build.map BuildResult.errorText).getD unknownError
        Action.stop 1 ("elementgen build failed: " ++ reason ++ "\n")

/-- The exit status of a command line that asks for no run. -/
def UsageStop.status : UsageStop → Nat
  | misused => 2
  | help => 0

/-- Does what a command line asks for; gives the exit status. -/
def runCommandLine (run : CommandRunner) (arguments : List Text) : Action Nat := do
  match Options.parse arguments with
  | .ok o => runOptions run o
  | .error s => return s.status

end CustomElements
