import CustomElements.TypeScript.Literal

/-!
# Top-level classes of a source file

The classes that a file declares or exports at its top level, with their decorators and fields.
-/

namespace CustomElements

open TypeScript (Node EscapeError)

/-- A decorator of a class: its name and its arguments. -/
structure Decorator where
  name : Text
  arguments : List Node

/-- A field of a class, with the first node of its ascription and its initial value. -/
structure Field where
  name : Text
  ascription : Option Node
  initializer : Option Node

/-- A class at the top level of a file, with the decorators before it in source order. -/
structure ClassDeclaration where
  node : Node
  decoratorNodes : List Node

/-- The name under which something is applied: a name, or the last name of a dotted one. -/
def appliedName? (n : Node) : Option Text :=
  match n.kind with
  | .identifier => some n.sourceText
  | .member => n.parts.getLast?.map Node.sourceText
  | _ => none

/-- What a call applies; other nodes are applied themselves. -/
def callee? (n : Node) : Option Node := if n.kind = .call then n.parts.head? else some n

/-- The decorator that a node is, if what is applied is a name or a call of a name. -/
def Decorator.ofNode? (n : Node) : Option Decorator := do
  let applied ← n.parts.head?
  let name ← (callee? applied).bind appliedName?
  return ⟨name, if applied.kind = .call then applied.callArguments else []⟩

/-- The field that a member of a class body is. -/
def Field.ofNode? (n : Node) : Except EscapeError (Option Field) := do
  let isName (c : Node) : Bool := match c.kind with
    | .string | .number | .privateName | .computedName | .propertyName => true
    | _ => false
  match n.children.find? isName with
  | none => return none
  | some name =>
    return some {
      name := (← name.keyName?).getD name.sourceText
      ascription := do (← n.child? .ascription).namedChildren.head?
      initializer := do (← n.child? .initializer).parts.getLast? }

namespace ClassDeclaration

/-- The name of the class; a default export may have none. -/
def name (c : ClassDeclaration) : Option Text := (c.node.child? .identifier).map Node.sourceText

def decorators (c : ClassDeclaration) : List Decorator :=
  c.decoratorNodes.filterMap Decorator.ofNode?

/-- The first decorator of the given name. -/
def decorator? (c : ClassDeclaration) (name : Text) : Option Decorator :=
  c.decorators.find? fun d => decide (d.name = name)

/-- The fields of the class in declaration order. -/
def fields (c : ClassDeclaration) : Except EscapeError (List Field) :=
  match c.node.child? .classBody with
  | none => .ok []
  | some body => do return (← (body.childrenOf .field).mapM Field.ofNode?).filterMap id

end ClassDeclaration

/-- The class that a statement declares or exports. -/
def ClassDeclaration.ofStatement? (n : Node) : Option ClassDeclaration :=
  match n.kind with
  | .classDeclaration => some ⟨n, n.childrenOf .decorator⟩
  | .exportStatement => do
    let exported ← n.child? .classDeclaration
    return ⟨exported, n.childrenOf .decorator ++ exported.childrenOf .decorator⟩
  | _ => none

/-- The classes at the top level of a file, in declaration order. -/
def classesOf (tree : Node) : List ClassDeclaration :=
  tree.children.filterMap ClassDeclaration.ofStatement?

end CustomElements
