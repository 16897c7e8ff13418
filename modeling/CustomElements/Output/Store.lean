import CustomElements.Workspace

/-!
# Writing artifacts

An artifact is written together with the directories it is in, and its path is kept.
-/

namespace CustomElements

/-- Writes an artifact and keeps its path. -/
def writeArtifact (p : Path) (content : Text) : Action Path := do
  Action.makeDirs p.parent
  Action.writeText p content
  modify fun w => { w with written := w.written ++ [p] }
  let size := ((Bytes.ofText? content).map ByteArray.size).getD 0
  Action.record .debug "store" ("Wrote " ++ p.text ++ " (" ++ Text.ofNat size ++ " bytes)")
  return p

end CustomElements
