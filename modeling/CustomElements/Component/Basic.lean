import CustomElements.Component.Member
import CustomElements.Files.Path

/-!
# Components

What the outputs are made from: the tag of an element, the class behind it, and its members.
-/

namespace CustomElements

structure Component where
  tag : Text
  className : Text
  file : Path
  members : List Member
deriving DecidableEq

namespace Component

/-- The members that take values. -/
def inputs (c : Component) : List Member := c.members.filter fun m => decide (m.kind = .input)

/-- The members that send events. -/
def outputs (c : Component) : List Member := c.members.filter fun m => decide (m.kind = .output)

end Component

end CustomElements
