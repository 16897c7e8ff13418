import CustomElements.Component.Discovery

/-!
# Component metadata

The compiler that runs in the browser expects some lists in the metadata of a component. Where one
is missing, an empty list is written into the source text; all other text stays as it is.
-/

namespace CustomElements

open TypeScript (Node Dialect EscapeError)

/-- The metadata lists that a component needs. -/
def metadataLists : List Text := ["styles", "animations", "imports", "schemas"]

/-- Whether a decorator makes its class a component. -/
def isComponent (n : Node) : Bool :=
  (Decorator.ofNode? n).any fun d => decide (d.name = componentDecorator)

/-- A node with the number of characters before it in its source. -/
structure PlacedNode where
  offset : Nat
  node : Node

namespace PlacedNode

/-- Nodes in a row with their places, the first one at `offset`. -/
def row (offset : Nat) : List Node → List PlacedNode
  | [] => []
  | n :: ns => ⟨offset, n⟩ :: row (offset + n.text.length) ns

def children (p : PlacedNode) : List PlacedNode := row p.offset p.node.children

/-- The first child of the given kind. -/
def child? (p : PlacedNode) (k : TypeScript.Kind) : Option PlacedNode :=
  p.children.find? fun c => decide (c.node.kind = k)

/-- The children that carry meaning. -/
def parts (p : PlacedNode) : List PlacedNode :=
  p.children.filter fun c => c.node.isNamed && decide (c.node.kind ≠ .comment)

/-- The decorators that belong to the class of a statement, in source order. -/
def decorators (p : PlacedNode) : List PlacedNode :=
  let own (q : PlacedNode) := q.children.filter fun c => decide (c.node.kind = .decorator)
  match p.node.kind with
  | .classDeclaration => own p
  | .exportStatement => own p ++ ((p.child? .classDeclaration).map own).getD []
  | _ => []

def call? (p : PlacedNode) : Option PlacedNode :=
  p.parts.head?.filter fun c => decide (c.node.kind = .call)

/-- The first argument of a call, if that is an object literal. -/
def firstObject? (p : PlacedNode) : Option PlacedNode := do
  let arguments ← p.child? .arguments
  arguments.parts.head?.filter fun a => decide (a.node.kind = .object)

/-- The number of characters before the end of the node. -/
def stop (p : PlacedNode) : Nat := p.offset + p.node.text.length

end PlacedNode

/-- Whether a member is a shorthand or a method of this name. -/
def isWrittenAs (name : Text) (m : Node) : Bool :=
  match m.kind with
  | .shorthand => decide (m.sourceText = name)
  | .method => m.parts.head?.any fun n => decide (n.sourceText = name)
  | _ => false

/-- Whether an object literal has a member with this name: a pair, a shorthand or a method. -/
def hasMember (object : Node) (name : Text) : Except EscapeError Bool := do
  return (← object.property? name).isSome || object.parts.any (isWrittenAs name)

/-- The names without a member in an object literal. -/
def missingAmong (object : Node) : List Text → Except EscapeError (List Text)
  | [] => .ok []
  | name :: names => do
    let present ← hasMember object name
    let missing ← missingAmong object names
    return if present then missing else name :: missing

/-- The metadata lists that an object literal lacks. -/
def missingLists (object : Node) : Except EscapeError (List Text) :=
  missingAmong object metadataLists

/-- The number of bytes after the last line feed. -/
def columnAfter (before : List Char) : Nat :=
  (before.reverse.takeWhile (· != '\n')).foldl (fun n c => n + c.utf8Size) 0

/-- Where a search for a comma stands. -/
inductive CommaSearch where
  | outside
  | inLine
  | inBlock

/-- The number of characters up to and with the first comma outside comments. -/
def throughComma : CommaSearch → List Char → Option Nat
  | _, [] => none
  | .outside, '/' :: '/' :: r => (throughComma .inLine r).map (· + 2)
  | .outside, '/' :: '*' :: r => (throughComma .inBlock r).map (· + 2)
  | .outside, c :: r => if c == ',' then some 1 else (throughComma .outside r).map (· + 1)
  | .inLine, c :: r => (throughComma (if c == '\n' then .outside else .inLine) r).map (· + 1)
  | .inBlock, '*' :: '/' :: r => (throughComma .outside r).map (· + 2)
  | .inBlock, _ :: r => (throughComma .inBlock r).map (· + 1)

/-- A text that is to be written into a source after the given number of characters. -/
structure Insertion where
  offset : Nat
  text : Text
deriving DecidableEq

def emptyList (name : Text) : Text := name ++ ": []"

/-- The entries of empty lists in a row, with a comma and `gap` between neighbours. -/
def emptyLists (gap : Text) (names : List Text) : Text :=
  Text.join ("," ++ gap) (names.map emptyList)

/-- What is written before each list after the last member: a blank, or a new line with the indent
of the member if the literal has several lines. -/
def entryGap (source : List Char) (object last : PlacedNode) : Text :=
  if object.node.text.contains '\n'
    then "\n" ++ List.replicate (columnAfter (source.take last.offset)) (CodePoint.scalar ' ')
    else " "

/-- Where and how missing lists are written into an object literal: after its last member and the
comma that follows it. -/
def metadataInsertion (source : List Char) (object : PlacedNode) (missing : List Text) :
    Insertion :=
  let closing := object.stop - 1
  match object.parts.getLast? with
  | none =>
    ⟨closing, if object.node.text.contains '\n' then "  " ++ emptyLists " " missing ++ "\n"
      else " " ++ emptyLists " " missing ++ " "⟩
  | some last =>
    let gap := entryGap source object last
    match throughComma .outside ((source.take closing).drop last.stop) with
    | some k => ⟨last.stop + k, gap ++ emptyLists gap missing ++ ","⟩
    | none => ⟨last.stop, "," ++ gap ++ emptyLists gap missing⟩

/-- A class at the top level of a file whose metadata is an object literal. -/
structure DescribedClass where
  declaration : ClassDeclaration
  metadata : PlacedNode

/-- The class of a statement, if its first component decorator is called with an object literal. -/
def DescribedClass.ofStatement? (statement : PlacedNode) : Option DescribedClass := do
  let declaration ← ClassDeclaration.ofStatement? statement.node
  let decorator ← statement.decorators.find? fun d => isComponent d.node
  let call ← decorator.call?
  return ⟨declaration, ← call.firstObject?⟩

/-- The classes of a file that have metadata, in declaration order. -/
def describedClasses (tree : Node) : List DescribedClass :=
  (PlacedNode.mk 0 tree).children.filterMap DescribedClass.ofStatement?

/-- The lists that the metadata of a class lacks, with the name of the class and where they go. -/
structure MetadataGap where
  className : Option Text
  missing : List Text
  insertion : Insertion

/-- What the metadata of a class lacks, if it lacks anything. -/
def DescribedClass.gap? (source : List Char) (c : DescribedClass) :
    Except EscapeError (Option MetadataGap) := do
  let missing ← missingLists c.metadata.node
  if missing.isEmpty then return none
  return some ⟨c.declaration.name, missing, metadataInsertion source c.metadata missing⟩

/-- What the classes of a source file lack, and the error that ended the search early. -/
def metadataGaps (source : List Char) : List DescribedClass → List MetadataGap × Option EscapeError
  | [] => ([], none)
  | c :: cs =>
    match c.gap? source with
    | .error e => ([], some e)
    | .ok none => metadataGaps source cs
    | .ok (some gap) =>
      let (gaps, e) := metadataGaps source cs
      (gap :: gaps, e)

/-- A text with insertions, which are given in the order of their places. -/
def insertAll (insertions : List Insertion) (source : Text) : Text :=
  insertions.foldr (fun i t => t.take i.offset ++ i.text ++ t.drop i.offset) source

/-- The source text with the missing metadata lists. A text that does not follow the grammar stays
as it is. -/
def completeMetadata (dialect : Dialect) (source : List Char) : Action Text := do
  match TypeScript.parse? dialect source with
  | none => return .ofChars source
  | some tree =>
    let (gaps, e) := metadataGaps source (describedClasses tree)
    for gap in gaps do
      Action.record .debug "normalizer" ("Adding " ++ Text.join ", " gap.missing ++ " to @"
        ++ componentDecorator ++ " of " ++ gap.className.getD "None")
    match e with
    | some e => Action.ofEscapes (.error e)
    | none => return insertAll (gaps.map MetadataGap.insertion) (.ofChars source)

/-- The source text with the missing metadata lists. A text with a lone surrogate is no source. -/
def completeSource (dialect : Dialect) (source : Text) : Action Text :=
  match source.chars? with
  | some cs => completeMetadata dialect cs
  | none => Action.faulty .unencodable

/-- Writes the missing metadata lists into a source file; tells whether that changed it. -/
def completeFile (p : Path) : Action Bool := do
  match (← get).readText p with
  | .error .unencodable => Action.faulty .unencodable
  | .error .badValue => Action.faulty .badValue
  | .error _ => Action.fail (.sourceUnreadable p)
  | .ok source =>
    let completed ← completeMetadata p.dialect source
    if completed = .ofChars source then return false
    Action.writeText p completed
    Action.record .info "normalizer" ("Added JIT defaults to " ++ p.text)
    return true

end CustomElements
