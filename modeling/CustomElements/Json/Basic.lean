import CustomElements.Number.Shortest

/-!
# JSON values

The members of an object are kept in source order, repeated keys included.
-/

namespace CustomElements

inductive Json where
  | null
  | bool (b : Bool)
  | int (n : Int)
  | float (x : Binary64)
  | string (t : Text)
  | array (items : List Json)
  | object (members : List (Text × Json))
deriving Inhabited

namespace Json

/-- The value of the last member with this key, which is the one that counts. -/
def member? (key : Text) : Json → Option Json
  | object ms => (ms.reverse.find? fun m => decide (m.1 = key)).map Prod.snd
  | _ => none

end Json

end CustomElements
