import CustomElements.Component.Discovery

/-!
# Configurations

What one run is asked to do.
-/

namespace CustomElements

structure BuildSettings where
  target : Option Text := none
  sourceMap : Bool := false
  outputHashing : Option Text := none
  /-- The name that the bundle is given. -/
  outputFileName : Option Text := none
  /-- Further options of the build. -/
  options : List (Value × Value) := []
  /-- The directory of the entry module. -/
  entryDir : Option Path := none

/-- The kinds of outputs. -/
def manifestOutput : Text := "manifest"

def moduleOutput : Text := "module"

def browserOutput : Text := "browser"

/-- A configuration. Paths that are not absolute are seen from `root`. -/
structure Configuration where
  root : Path
  /-- The elements and their components; without them, the marked classes are the elements. -/
  elements : Option Value := none
  projectFile : Option Path := none
  outDir : Option Path := none
  /-- A directory all sources of which are loaded. -/
  rootDir : Option Path := none
  outputs : List Text := [manifestOutput]
  importExtension : Option Text := none
  inlineComponents : Option Bool := none
  build : BuildSettings := {}
  discovery : DiscoveryRule := {}

namespace Configuration

/-- The absolute path of a path in the configuration. -/
def resolve (c : Configuration) (p : Path) : Action Path :=
  Action.look fun w => w.resolveFrom c.root p

/-- The absolute path of the directory that the outputs are written to. -/
def resolvedOutDir (c : Configuration) : Action Path := c.resolve (c.outDir.getD "dist")

end Configuration

end CustomElements
