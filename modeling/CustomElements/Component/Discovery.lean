import CustomElements.Component.Sources

/-!
# Discovery of marked classes

Without an element list, the elements are the classes that carry a marker decorator. Files are
visited in load order and classes in declaration order; each tag belongs to one class.
-/

namespace CustomElements

open TypeScript (Node EscapeError)

/-- An element: its tag and the reference of its component. -/
structure ElementEntry where
  tag : Text
  component : Text
deriving DecidableEq

/-- How marked classes are found. -/
structure DiscoveryRule where
  marker : Text := "RegisterWebComponent"
  /-- A marker without a tag takes the selector of the component. -/
  selectorFallback : Bool := false

/-- The decorator that makes a class a component. -/
def componentDecorator : Text := "Component"

/-- The tag that the first argument of a marker gives: as a string, or as `tag` or `selector`. -/
def tagOfArgument (n : Node) : Except EscapeError (Option Text) := do
  match nonempty? (← n.stringValue?) with
  | some t => return some t
  | none =>
    match nonempty? (← n.stringProperty? "tag") with
    | some t => return some t
    | none => return nonempty? (← n.stringProperty? "selector")

def ClassDeclaration.selector (c : ClassDeclaration) : Except EscapeError (Option Text) :=
  match (c.decorator? componentDecorator).bind fun d => d.arguments.head? with
  | some n => do return nonempty? (← n.stringProperty? "selector")
  | none => .ok none

/-- The tag of a class that carries the marker `d`. -/
def ClassDeclaration.tag? (c : ClassDeclaration) (d : Decorator) (selectorFallback : Bool) :
    Except EscapeError (Option Text) := do
  let tag ← match d.arguments.head? with
    | some n => tagOfArgument n
    | none => pure none
  match tag with
  | some t => return some t
  | none => if selectorFallback then c.selector else return none

/-- The element that a class is, if it carries the marker. -/
def LocatedClass.element? (c : LocatedClass) (rule : DiscoveryRule) :
    Except Failure (Option ElementEntry) :=
  match c.declaration.decorator? rule.marker with
  | none => .ok none
  | some d =>
    match c.declaration.name with
    | none => .error (Mistake.markerOnAnonymousClass rule.marker c.file.path)
    | some name =>
      match c.declaration.tag? d rule.selectorFallback with
      | .error .noCodePoint => .error Fault.badValue
      | .error .beyondRange => .error Fault.beyondRange
      | .ok none => .error (Mistake.markerWithoutTag rule.marker name c.file.path)
      | .ok (some tag) => .ok (some ⟨tag, c.file.path.text ++ "#" ++ name⟩)

/-- The elements among classes, after those found before, and the failure that ended
the search early. -/
def elementsFrom (rule : DiscoveryRule) (found : List ElementEntry) :
    List LocatedClass → List ElementEntry × Option Failure
  | [] => (found, none)
  | c :: cs =>
    match c.element? rule with
    | .error f => (found, some f)
    | .ok none => elementsFrom rule found cs
    | .ok (some e) =>
      match found.find? fun o => decide (o.tag = e.tag) with
      | some owner =>
        (found, some (Mistake.duplicateTag e.tag (some (owner.component, e.component))))
      | none => elementsFrom rule (found ++ [e]) cs

def Project.elements (project : Project) (rule : DiscoveryRule) :
    List ElementEntry × Option Failure :=
  elementsFrom rule [] project.classes

/-- Finds the elements of the loaded files. -/
def Project.discover (rule : DiscoveryRule) : Action (List ElementEntry) := do
  let (entries, failure) := (← get).project.elements rule
  for e in entries do
    Action.record .debug "discovery" ("Discovered <" ++ e.tag ++ "> -> " ++ e.component)
  match failure with
  | some f => throw f
  | none => return entries

end CustomElements
