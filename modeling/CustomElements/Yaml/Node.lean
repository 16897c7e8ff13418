import CustomElements.Yaml.Tag
import CustomElements.Yaml.TokenStream

/-!
# Nodes

The tokens of a document form a tree of nodes, each with its tag. An alias is the node with its
anchor; an alias inside the node it refers to is a loop.
-/

namespace CustomElements.Yaml

inductive Node where
  | scalar (tag : Tag) (text : Text)
  | sequence (tag : Tag) (anchor : Option Text) (items : List Node)
  | mapping (tag : Tag) (anchor : Option Text) (entries : List (Node × Node))
  /-- The sequence or mapping around this node that has the anchor. -/
  | loop (anchor : Text)
deriving Inhabited

namespace Node

/-- The tag of a node; a loop has none of its own. -/
def tag : Node → Tag
  | scalar t _ => t
  | sequence t _ _ => t
  | mapping t _ _ => t
  | loop _ => .unknown

/-- The node that nothing at all stands for. -/
def empty : Node := scalar .null []

/--
The entries of a mapping, where the mapping merges itself: what it merges then are its entries so
far without merges, which are `plain`, and all that follow.
-/
def mergeSelf (anchor : Text) (plain : List (Node × Node)) : List (Node × Node) → List (Node × Node)
  | [] => []
  | (k, v) :: es =>
    if k.tag = .merge then
      let rest := mergeSelf anchor plain es
      let written (n : Node) : Node := match n with
        | loop a => if a = anchor then mapping .mapping none (plain ++ rest) else n
        | n => n
      match v with
      | sequence t a items => (k, sequence t a (items.map written)) :: rest
      | v => (k, written v) :: rest
    else (k, v) :: mergeSelf anchor (plain ++ [(k, v)]) es

/-- The entries of a mapping with an anchor. -/
def ownEntries (anchor : Option Text) (es : List (Node × Node)) : List (Node × Node) :=
  match anchor with
  | some a => mergeSelf a [] es
  | none => es

end Node

/-- What is known while a document is read. -/
structure DocumentState where
  stream : TokenStream
  /-- What the tag handles stand for. -/
  handles : List (Text × Text)
  /-- The nodes with anchors. -/
  anchors : List (Text × Node) := []

/-- A step of reading a document. -/
abbrev Reading := StateT DocumentState (Except ReadError)

namespace Reading

def malformed {α : Type} : Reading α := throw .malformed

def peek : Reading Token := do
  let s ← get
  match s.stream.tokens, s.stream.failure with
  | t :: _, _ => return t
  | [], some e => throw e
  | [], none => return .streamEnd

/-- Moves on to the token after the next one. -/
def skip : Reading Unit :=
  modify fun s => { s with stream := { s.stream with tokens := s.stream.tokens.drop 1 } }

/-- Whether the next token is one of these. -/
def sees (ts : List Token) : Reading Bool := do return ts.contains (← peek)

end Reading

open Reading

/--
The complete text of the tag that is written before a node. An exclamation mark alone says that the
form of the node implies its tag.
-/
abbrev WrittenTag := Text

/-- An anchor and a tag, in any order. -/
def nodeProperties : Reading (Option Text × Option WrittenTag) := do
  let resolve (handle : Option Text) (suffix : Text) : Reading WrittenTag := do
    match handle with
    | none => return suffix
    | some h =>
      match (← get).handles.lookup h with
      | some meaning => return meaning ++ suffix
      | none => malformed
  match ← peek with
  | .anchor name =>
    skip
    match ← peek with
    | .tag h t => do
      skip
      return (some name, some (← resolve h t))
    | _ => return (some name, none)
  | .tag h t =>
    skip
    match ← peek with
    | .anchor name => do
      skip
      return (some name, some (← resolve h t))
    | _ => return (none, some (← resolve h t))
  | _ => return (none, none)

/-- The tag of a sequence or a mapping. -/
def collectionTag (written : Option WrittenTag) (default : Tag) : Tag :=
  match written with
  | some w => if w = ("!" : Text) then default else .ofText w
  | none => default

def scalarTag (written : Option WrittenTag) (plain : Bool) (t : Text) : Tag :=
  match written with
  | some w => if w = ("!" : Text) then impliedTag t else .ofText w
  | none => if plain then impliedTag t else .text

/--
Where a node stands: outside brackets there are blocks, and a value may be a sequence without
indentation.
-/
inductive Place where
  | flow
  | block
  | blockValue
deriving DecidableEq

/-- An anchor names one node only. -/
def requireFree (anchor : Option Text) : Reading Unit := do
  match anchor with
  | some name => if ((← get).anchors.lookup name).isSome then malformed else return ()
  | none => return ()

/-- Lets an anchor stand for a node. -/
def bind (anchor : Option Text) (n : Node) : Reading Unit :=
  match anchor with
  | some name => modify fun s => { s with anchors := (name, n) :: s.anchors }
  | none => pure ()

mutual

/-- A node; `fuel` bounds the number of steps. -/
def node : Nat → Place → Reading Node
  | 0, _ => malformed
  | fuel + 1, place => do
    match ← peek with
    | .reference name =>
      skip
      match (← get).anchors.lookup name with
      | some n => return n
      | none => malformed
    | _ =>
      let (anchor, written) ← nodeProperties
      let sequence (items : Reading (List Node)) : Reading Node := do
        requireFree anchor
        bind anchor (.loop (anchor.getD []))
        let n := Node.sequence (collectionTag written .sequence) anchor (← items)
        bind anchor n
        return n
      let mapping (entries : Reading (List (Node × Node))) : Reading Node := do
        requireFree anchor
        bind anchor (.loop (anchor.getD []))
        let es := Node.ownEntries anchor (← entries)
        let n := Node.mapping (collectionTag written .mapping) anchor es
        bind anchor n
        return n
      match ← peek, place with
      | .blockEntry, .blockValue => sequence (bareItems fuel)
      | .scalar plain t, _ =>
        skip
        requireFree anchor
        let n := Node.scalar (scalarTag written plain t) t
        bind anchor n
        return n
      | .flowSequenceStart, _ => sequence (do skip; flowItems fuel true)
      | .flowMappingStart, _ => mapping (do skip; flowEntries fuel true)
      | t, place =>
        if t = .blockSequenceStart && place ≠ .flow then sequence (do skip; blockItems fuel)
        else if t = .blockMappingStart && place ≠ .flow then mapping (do skip; blockEntries fuel)
        else if anchor.isSome || written.isSome then do
          requireFree anchor
          let n := Node.scalar (scalarTag written true []) []
          bind anchor n
          return n
        else malformed

/-- A node, or the empty one if one of these tokens follows. -/
def nodeUnless (fuel : Nat) (place : Place) (ends : List Token) : Reading Node := do
  match fuel with
  | 0 => malformed
  | fuel + 1 => if ← sees ends then return .empty else node fuel place

def blockItems : Nat → Reading (List Node)
  | 0 => malformed
  | fuel + 1 => do
    match ← peek with
    | .blockEntry =>
      skip
      let n ← nodeUnless fuel .block [.blockEntry, .blockEnd]
      return n :: (← blockItems fuel)
    | .blockEnd =>
      skip
      return []
    | _ => malformed

/-- The items of a sequence that is not indented. -/
def bareItems : Nat → Reading (List Node)
  | 0 => malformed
  | fuel + 1 => do
    match ← peek with
    | .blockEntry =>
      skip
      let n ← nodeUnless fuel .block [.blockEntry, .key, .value, .blockEnd]
      return n :: (← bareItems fuel)
    | _ => return []

def blockEntries : Nat → Reading (List (Node × Node))
  | 0 => malformed
  | fuel + 1 => do
    match ← peek with
    | .blockEnd =>
      skip
      return []
    | .key =>
      skip
      let k ← nodeUnless fuel .blockValue [.key, .value, .blockEnd]
      let v ← blockEntryValue fuel
      return (k, v) :: (← blockEntries fuel)
    | _ => malformed

/-- The value after a key of an indented mapping. -/
def blockEntryValue (fuel : Nat) : Reading Node := do
  match fuel with
  | 0 => malformed
  | fuel + 1 =>
    match ← peek with
    | .value =>
      skip
      nodeUnless fuel .blockValue [.key, .value, .blockEnd]
    | _ => return .empty

/-- The items of a sequence in brackets. -/
def flowItems : Nat → Bool → Reading (List Node)
  | 0, _ => malformed
  | fuel + 1, first => do
    if ← sees [.flowSequenceEnd] then
      skip
      return []
    if !first then
      if ← sees [.flowEntry] then skip else malformed
    match ← peek with
    | .key =>
      skip
      let k ← nodeUnless fuel .flow [.value, .flowEntry, .flowSequenceEnd]
      let v ← flowEntryValue fuel [.flowEntry, .flowSequenceEnd]
      return .mapping .mapping none [(k, v)] :: (← flowItems fuel false)
    | .flowSequenceEnd =>
      skip
      return []
    | _ =>
      let n ← node fuel .flow
      return n :: (← flowItems fuel false)

/-- The value after a key between brackets, which these tokens end. -/
def flowEntryValue (fuel : Nat) (ends : List Token) : Reading Node := do
  match fuel with
  | 0 => malformed
  | fuel + 1 =>
    match ← peek with
    | .value =>
      skip
      nodeUnless fuel .flow ends
    | _ => return .empty

/-- The entries of a mapping in braces. -/
def flowEntries : Nat → Bool → Reading (List (Node × Node))
  | 0, _ => malformed
  | fuel + 1, first => do
    if ← sees [.flowMappingEnd] then
      skip
      return []
    if !first then
      if ← sees [.flowEntry] then skip else malformed
    match ← peek with
    | .key =>
      skip
      let k ← nodeUnless fuel .flow [.value, .flowEntry, .flowMappingEnd]
      let v ← flowEntryValue fuel [.flowEntry, .flowMappingEnd]
      return (k, v) :: (← flowEntries fuel false)
    | .flowMappingEnd =>
      skip
      return []
    | _ =>
      let k ← node fuel .flow
      return (k, .empty) :: (← flowEntries fuel false)

end

/-! ### Documents -/

/-- What tag handles stand for if no directive says otherwise. -/
def defaultHandles : List (Text × Text) := [("!", "!"), ("!!", tagNamespace)]

/-- Reads directives: at most one version, which starts with one, and each handle once. -/
def directives : Nat → Bool → List (Text × Text) → Reading (List (Text × Text))
  | 0, _, _ => malformed
  | fuel + 1, versioned, handles => do
    match ← peek with
    | .directive (.version major _) =>
      skip
      if versioned || major != 1 then malformed
      directives fuel true handles
    | .directive (.handle h meaning) =>
      skip
      if (handles.lookup h).isSome then malformed
      directives fuel versioned ((h, meaning) :: handles)
    | .directive .unknown =>
      skip
      directives fuel versioned handles
    | _ => return handles

/-- Skips the markers of the end of a document. -/
def skipEnds : Nat → Reading Unit
  | 0 => malformed
  | fuel + 1 => do
    if ← sees [.documentEnd] then
      skip
      skipEnds fuel

/-- Reads the only document of a text; there may be none. -/
def document (fuel : Nat) : Reading (Option Node) := do
  match ← peek with
  | .streamEnd => return none
  | .directive _ | .documentStart =>
    let handles ← directives fuel false []
    if !(← sees [.documentStart]) then malformed
    skip
    modify fun s => { s with handles := handles ++ defaultHandles }
    match ← peek with
    | .directive _ | .documentStart | .documentEnd | .streamEnd => finish (some .empty)
    | _ => finish (some (← node fuel .block))
  | _ => finish (some (← node fuel .block))
where
  /-- No further document follows. -/
  finish (n : Option Node) : Reading (Option Node) := do
    skipEnds fuel
    if ← sees [.streamEnd] then return n
    let _ ← directives fuel false []
    malformed

def Node.ofStream? (stream : TokenStream) : Except ReadError (Option Node) := do
  let steps := 4 * stream.tokens.length + 8
  return (← (document steps).run { stream := stream, handles := defaultHandles }).1

end CustomElements.Yaml
