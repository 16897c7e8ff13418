import CustomElements.Yaml.Node
import CustomElements.Yaml.Scalar

/-!
# Documents as values

A node becomes a value according to its tag. Before a mapping becomes a value, the mappings that it
merges are put in front of its own entries; keys that then occur twice keep all their pairs.
-/

namespace CustomElements.Yaml

/-- Faults in values, as reasons why a text is not read. -/
def ofFault {α : Type} : Except Fault α → Except ReadError α
  | .ok a => .ok a
  | .error f => .error (.fault f)

/-- What is no value at all makes a text malformed. -/
def orMalformed {α : Type} : Option α → Except ReadError α
  | some a => .ok a
  | none => .error .malformed

namespace Node

mutual

/-- The text of a scalar; a mapping with a main value has the text of that. -/
def scalarText? : Node → Option Text
  | scalar _ t => some t
  | mapping _ _ es => mainText? es
  | _ => none

/-- The text of the main value among entries. -/
def mainText? : List (Node × Node) → Option Text
  | [] => none
  | (k, v) :: es => if k.tag = .defaultValue then scalarText? v else mainText? es

end

/-- A key as an ordinary one: the sign of a main value is a text. -/
def asKey (k : Node) : Node :=
  if k.tag ≠ .defaultValue then k
  else match k with
    | scalar _ t => scalar .text t
    | sequence _ a items => sequence .text a items
    | mapping _ a es => mapping .text a es
    | loop a => loop a

mutual

/-- The entries that a mapping merges, and its own ones. -/
def split : List (Node × Node) → Except ReadError (List (Node × Node) × List (Node × Node))
  | [] => .ok ([], [])
  | (k, v) :: es => do
    let (merged, own) ← split es
    if k.tag = .merge then return ((← mergedBy v) ++ merged, own)
    else return (merged, (k.asKey, v) :: own)
termination_by structural es => es

/-- The entries that a merge of this value adds: those of a mapping, or of several in a list. -/
def mergedBy : Node → Except ReadError (List (Node × Node))
  | mapping _ _ sub => do
    let (merged, own) ← split sub
    return merged ++ own
  | sequence _ _ items => mergedItems items
  | _ => .error .malformed
termination_by structural v => v

/-- The entries of mappings in a list, those of the last one first. -/
def mergedItems : List Node → Except ReadError (List (Node × Node))
  | [] => .ok []
  | v :: items => do
    match v with
    | mapping _ _ sub =>
      let (merged, own) ← split sub
      return (← mergedItems items) ++ (merged ++ own)
    | _ => .error .malformed
termination_by structural items => items

end

/-- The entries of a mapping, those of merged mappings before its own ones. -/
def flatten (es : List (Node × Node)) : Except ReadError (List (Node × Node)) := do
  let (merged, own) ← split es
  return merged ++ own

mutual

def depth : Node → Nat
  | scalar _ _ => 1
  | loop _ => 1
  | sequence _ _ items => depthOfItems items + 1
  | mapping _ _ es => depthOfEntries es + 1

def depthOfItems : List Node → Nat
  | [] => 0
  | n :: ns => max (depth n) (depthOfItems ns)

/-- The greatest depth of keys and values. -/
def depthOfEntries : List (Node × Node) → Nat
  | [] => 0
  | (k, v) :: es => max (max (depth k) (depth v)) (depthOfEntries es)

end

/-- The names in `opened` and that of a node. -/
def openedWith (opened : List Text) (anchor : Option Text) : List Text := anchor.toList ++ opened

/--
The value of a node; `fuel` bounds its depth. Inside a mapping (`deep`) a node cannot contain
itself. Elsewhere a list can, and `opened` holds the anchors of the lists around the node; since
such a list is no configuration, the place of the list inside itself is left empty.
-/
def valueAt : Nat → Bool → List Text → Node → Except ReadError Value
  | 0, _, _, _ => .error .malformed
  | _, _, opened, loop a => if opened.contains a then .ok .null else .error .malformed
  | fuel + 1, deep, opened, n =>
    let pairOf (deep : Bool) (opened : List Text) (e : Node × Node) :
        Except ReadError (Value × Value) := do
      let k ← valueAt fuel deep opened e.1
      return (k, ← valueAt fuel deep opened e.2)
    match n.tag with
    | .null => do
      let _ ← orMalformed n.scalarText?
      return .null
    | .bool => do return .bool (← ofFault (boolValue (← orMalformed n.scalarText?)))
    | .int => do return .int (← ofFault (integerValue (← orMalformed n.scalarText?)))
    | .float => do return .float (← ofFault (floatValue (← orMalformed n.scalarText?)))
    | .text => do return .text (← orMalformed n.scalarText?)
    | .binary => do return .bytes (← orMalformed (bytesValue? (← orMalformed n.scalarText?)))
    | .timestamp =>
      match n with
      | scalar _ t => ofFault (timeValue t)
      | _ => .error .malformed
    | .sequence =>
      match n with
      | sequence _ a items => do
        let opened := if deep then opened else openedWith opened a
        return .list (← items.mapM fun i => valueAt fuel deep opened i)
      | _ => .error .malformed
    | .mapping =>
      match n with
      | mapping _ _ es => do
        let pairs ← (← flatten es).mapM fun e => pairOf true opened e
        if pairs.all fun p => p.1.isKey then return .ofPairs pairs else .error .malformed
      | scalar _ (_ :: _) => .error (.fault .badValue)
      | _ => .error .malformed
    | .set =>
      match n with
      | mapping _ a es => do
        let opened := if deep then opened else openedWith opened a
        let entries ← (← flatten es).foldlM (fun entries e => do
          let k ← valueAt fuel deep opened e.1
          if !k.isKey then .error .malformed
          return Value.assign k (← valueAt fuel deep opened e.2) entries) []
        return .set (entries.map Prod.fst)
      | _ => .error .malformed
    | .orderedMapping | .pairs =>
      match n with
      | sequence _ a items => do
        let opened := if deep then opened else openedWith opened a
        let entries ← items.mapM fun i => match i with
          | mapping _ _ [e] => pairOf deep opened e
          | _ => .error .malformed
        return .list (entries.map fun e => .pair e.1 e.2)
      | _ => .error .malformed
    | .merge | .defaultValue | .unknown => .error .malformed

def value (n : Node) : Except ReadError Value := valueAt (n.depth + 1) false [] n

end Node

/-- The value of a text; a text without a document is null. -/
def read (cs : List Char) : Except ReadError Value := do
  match ← Node.ofStream? (.ofChars cs) with
  | some n => n.value
  | none => return .null

end CustomElements.Yaml
