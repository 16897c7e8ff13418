import CustomElements.Component.Class
import CustomElements.Text.Blank

/-!
# Reactive members

A field is a reactive member if its initial value is a call of `input`, `output` or
`input.required`. The type of a member is written in its source, or follows from a literal first
argument, or is unknown.
-/

namespace CustomElements

open TypeScript (Node EscapeError)

/-- The two sides of a component that a member can be on. -/
inductive MemberKind where
  | input
  | output
deriving DecidableEq, Repr

/-- The forms of a field's initial value. -/
inductive CallShape where
  | bareInput
  | bareOutput
  | requiredInput
  | other
deriving DecidableEq, Repr

/-- The kind of member that a call of this form makes. -/
def CallShape.kind? : CallShape → Option MemberKind
  | bareInput | requiredInput => some .input
  | bareOutput => some .output
  | other => none

/-- A declared input or output of a component. -/
structure Member where
  name : Text
  kind : MemberKind
  required : Bool
  type : Text
  /-- The name under which the member is visible from outside, if it is not its own. -/
  publicName : Option Text := none
deriving DecidableEq

/-- The name under which the member is visible from outside. -/
def Member.effectiveName (m : Member) : Text :=
  match m.publicName with
  | some a => if a.isEmpty then m.name else a
  | none => m.name

/-- The type of which nothing is known. -/
def unknownType : Text := "unknown"

def CallShape.ofNode (n : Node) : CallShape :=
  if n.kind ≠ .call then other
  else match n.parts.head? with
    | none => other
    | some callee =>
      match callee.kind with
      | .identifier =>
        if callee.sourceText = ("input" : Text) then bareInput
        else if callee.sourceText = ("output" : Text) then bareOutput
        else other
      | .member =>
        match callee.parts.head?, callee.parts.getLast? with
        | some target, some property =>
          if target.kind = .identifier && target.sourceText = ("input" : Text)
              && property.sourceText = ("required" : Text) then requiredInput
          else other
        | _, _ => other
      | _ => other

/-- The form of a field's initial value; a field without one has no form of its own. -/
def Field.shape (f : Field) : CallShape :=
  match f.initializer with
  | some n => .ofNode n
  | none => .other

/-- The signal types that stand for a value type nobody has named. -/
def unresolvedSignals : List Text := ["InputSignal<unknown>", "OutputEmitterRef<unknown>"]

/-- A type without the blanks around it; unresolved signals, `any` and nothing at
all are unknown. -/
def sanitizeType (type : Text) : Text :=
  let t : Text := type.strip
  if unresolvedSignals.any (Text.contains t) then unknownType
  else if t.isEmpty || t = ("any" : Text) then unknownType
  else t

def literalType (n : Node) : Text :=
  match n.kind with
  | .number => "number"
  | .string | .template => "string"
  | .trueLiteral | .falseLiteral => "boolean"
  | .nullLiteral => "null"
  | .undefinedLiteral => "undefined"
  | _ => unknownType

/-- The signal type of a call whose type is not written down. -/
def inferredSignal (call : Node) (shape : CallShape) : Text :=
  match shape with
  | .bareInput =>
    match call.callArguments.head? with
    | some a => "InputSignal<" ++ literalType a ++ ">"
    | none => "InputSignal<" ++ unknownType ++ ">"
  | .requiredInput | .other => "InputSignal<" ++ unknownType ++ ">"
  | .bareOutput => "OutputEmitterRef<" ++ unknownType ++ ">"

/-- The type of a member: the first type argument, or the ascription, or the
inferred signal type. -/
def memberType (f : Field) (call : Node) (shape : CallShape) : Text :=
  match call.callTypeArguments.head? with
  | some t => t.sourceText
  | none =>
    match f.ascription with
    | some t => t.sourceText
    | none => sanitizeType (inferredSignal call shape)

/-- The first `alias` that is a string with characters in it, among objects. -/
def aliasAmong : List Node → Except EscapeError (Option Text)
  | [] => .ok none
  | n :: r => do
    match ← n.stringProperty? "alias" with
    | some a => if a.isEmpty then aliasAmong r else return some a
    | none => aliasAmong r

/-- The alias that a call gives in its first two arguments. -/
def aliasOf (call : Node) : Except EscapeError (Option Text) :=
  aliasAmong (call.callArguments.take 2)

def Field.member? (f : Field) : Except EscapeError (Option Member) :=
  match f.initializer with
  | none => .ok none
  | some call =>
    let shape := CallShape.ofNode call
    match shape.kind? with
    | none => .ok none
    | some kind => do
      return some {
        name := f.name
        kind := kind
        required := decide (shape = .requiredInput)
        type := memberType f call shape
        publicName := ← aliasOf call }

/-- The members of a class in declaration order. -/
def ClassDeclaration.members (c : ClassDeclaration) : Except EscapeError (List Member) := do
  return (← (← c.fields).mapM Field.member?).filterMap id

end CustomElements
