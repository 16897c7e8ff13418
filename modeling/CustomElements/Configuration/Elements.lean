import CustomElements.Component.Discovery
import CustomElements.Text.Blank

/-!
# Element lists

The elements of a configuration are a mapping from tags to component references, or a list of
entries. Tags and references are texts that are not blank, and no tag occurs twice.
-/

namespace CustomElements

/-- The tag and the component that an entry of a list gives, whatever values they are. -/
def entryPair : Value → Except Mistake (Value × Value)
  | .map es => .ok ((Value.map es).get "tag", (Value.map es).get "component")
  | .pair k v => .ok (k, v)
  | .list [k, v] => .ok (k, v)
  | v => .error (.entryShape v)

/-- The pairs of tag and component that an `elements` value holds. -/
def elementPairs : Value → Except Mistake (List (Value × Value))
  | .map es => .ok es
  | .list vs => vs.mapM entryPair
  | _ => .error .elementsShape

/-- The entries of pairs, after those read before. -/
def entriesFrom (read : List ElementEntry) :
    List (Value × Value) → Except Mistake (List ElementEntry)
  | [] => .ok read
  | (.text tag, component) :: pairs =>
    if Text.isBlank tag then .error (.entryWithoutTag component)
    else match component with
      | .text reference =>
        if Text.isBlank reference then .error (.entryWithoutComponent tag)
        else if read.any fun e => decide (e.tag = tag) then .error (.duplicateTag tag none)
        else entriesFrom (read ++ [⟨tag, reference⟩]) pairs
      | _ => .error (.entryWithoutComponent tag)
  | (_, component) :: _ => .error (.entryWithoutTag component)

def elementEntries (v : Value) : Except Mistake (List ElementEntry) := do
  entriesFrom [] (← elementPairs v)

end CustomElements
