import CustomElements.Failure

/-!
# Build targets

A build target is written `project:target` or `project:target:configuration`.
-/

namespace CustomElements

/-- A target of the build of a project, in one of its configurations if that is given. -/
structure BuildTarget where
  project : Text
  target : Text
  configuration : Option Text := none
deriving DecidableEq

namespace BuildTarget

/-- Reads a target. The configuration may hold colons; an empty one is none. -/
def parse (t : Text) : Except Mistake BuildTarget :=
  match t.splitOn ':' with
  | project :: target :: rest =>
    if project.isEmpty || target.isEmpty then .error (.targetMalformed t)
    else
      let configuration := Text.join ":" rest
      .ok ⟨project, target, if configuration.isEmpty then none else some configuration⟩
  | _ => .error (.targetMalformed t)

def text (b : BuildTarget) : Text :=
  let base := b.project ++ ":" ++ b.target
  match b.configuration with
  | some c => if c.isEmpty then base else base ++ ":" ++ c
  | none => base

end BuildTarget

end CustomElements
