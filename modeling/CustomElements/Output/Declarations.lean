import CustomElements.Component.Basic

/-!
# Type declarations

For each element an interface of its own and one of its properties, both made known to the
document and to JSX.
-/

namespace CustomElements

/-- The ASCII letters and digits. -/
def isWordPoint (p : CodePoint) : Bool := p.satisfies Char.isAlphanum

/-- The rows of letters and digits in a text. -/
def wordsOf : Text → List Text
  | [] => []
  | p :: r =>
    if !isWordPoint p then wordsOf r
    else match r, wordsOf r with
      | q :: _, w :: ws => if isWordPoint q then (p :: w) :: ws else [p] :: w :: ws
      | _, ws => [p] :: ws

/-- The word with a capital first letter. -/
def capitalise : Text → Text
  | .scalar c :: r => .scalar c.toUpper :: r
  | t => t

/-- The words of a text in a row, each with a capital first letter. -/
def pascalCase (t : Text) : Text := ((wordsOf t).map capitalise).flatten

/-- Whether a text is a name that needs no quotes; a line feed at its end does not count. -/
def isPlainName (t : Text) : Bool :=
  let starts (c : Char) : Bool := c.isAlpha || c == '_' || c == '$'
  let name := if t.getLast? = some (.scalar '\n') then t.dropLast else t
  match name with
  | p :: r => p.satisfies starts && r.all (CodePoint.satisfies fun c => starts c || c.isDigit)
  | [] => false

/-- A name as a property key. -/
def propertyKey (name : Text) : Text := if isPlainName name then name else "\"" ++ name ++ "\""

def inputProperty (m : Member) : Text :=
  "  " ++ propertyKey m.effectiveName ++ (if m.required then ": " else "?: ") ++ m.type ++ ";"

def outputProperty (m : Member) : Text :=
  "  on" ++ pascalCase m.effectiveName ++ "?: (e: CustomEvent<" ++ m.type ++ ">) => void;"

def declarationLines (c : Component) : List Text :=
  let base := pascalCase c.tag
  let element := base ++ "Element"
  let props := base ++ "Props"
  [("export interface " : Text) ++ element ++ " extends HTMLElement \x7b\x7d",
    "export interface " ++ props ++ " \x7b"]
  ++ c.inputs.map inputProperty ++ c.outputs.map outputProperty
  ++ [("\x7d" : Text), "",
    "declare global \x7b",
    "  interface HTMLElementTagNameMap \x7b",
    ("    \"" : Text) ++ c.tag ++ "\": " ++ element ++ ";",
    "  \x7d",
    "",
    "  namespace JSX \x7b",
    "    interface IntrinsicElements \x7b",
    ("      \"" : Text) ++ c.tag ++ "\": " ++ props ++ ";",
    "    \x7d",
    "  \x7d",
    "\x7d",
    ""]

/-- The text of the declarations of components. -/
def typeDeclarations (cs : List Component) : Text :=
  Text.join "\n" ([("export \x7b\x7d;" : Text), ""] ++ cs.flatMap declarationLines)

end CustomElements
