/-!
# Syntax trees that keep every character

A node is a leaf with its text, or a branch with its children in source order. Blanks and comments
are leaves too, so the text of a tree is the source it was read from. A branch never starts or ends
with a blank or a comment: these belong to the smallest branch around them.
-/

namespace CustomElements.TypeScript

/-- What a node of a syntax tree is. -/
inductive Kind where
  /-- White space between tokens. -/
  | blank
  /-- A line comment or a block comment. -/
  | comment
  /-- Punctuation or a keyword. -/
  | mark
  | identifier
  /-- A name after a dot, or the unquoted name of a member. -/
  | propertyName
  /-- A name that starts with `#`. -/
  | privateName
  /-- A name in brackets. -/
  | computedName
  /-- A name that stands for a property and for its value. -/
  | shorthand
  | number
  | trueLiteral
  | falseLiteral
  | nullLiteral
  | undefinedLiteral
  | string
  /-- Characters of a string that stand for themselves. -/
  | fragment
  /-- An escape sequence of a string. -/
  | escape
  | template
  /-- A call, or a tagged template. -/
  | call
  /-- An access to a member with a dot. -/
  | member
  | arguments
  | typeArguments
  | type
  | spread
  | object
  | pair
  /-- A method of an object literal. -/
  | method
  /-- A type after a colon. -/
  | ascription
  /-- An equals sign and the value after it. -/
  | initializer
  | field
  | classBody
  | classDeclaration
  | decorator
  | exportStatement
  | source
  /-- Any other construct. -/
  | other
deriving DecidableEq, Repr, Inhabited

/-- A syntax tree. -/
inductive Node where
  | leaf (kind : Kind) (text : List Char)
  | branch (kind : Kind) (children : List Node)
deriving Inhabited

namespace Node

def kind : Node → Kind
  | leaf k _ => k
  | branch k _ => k

/-- The children of a branch; a leaf has none. -/
def children : Node → List Node
  | leaf _ _ => []
  | branch _ cs => cs

mutual

def text : Node → List Char
  | leaf _ s => s
  | branch _ cs => textOf cs

/-- The source text of a row of nodes. -/
def textOf : List Node → List Char
  | [] => []
  | n :: ns => n.text ++ textOf ns

end

@[simp] theorem text_leaf (k : Kind) (s : List Char) : (leaf k s).text = s := by
  rw [text]

@[simp] theorem text_branch (k : Kind) (cs : List Node) : (branch k cs).text = textOf cs := by
  rw [text]

@[simp] theorem textOf_nil : textOf [] = [] := by
  rw [textOf]

@[simp] theorem textOf_cons (n : Node) (ns : List Node) :
    textOf (n :: ns) = n.text ++ textOf ns := by
  rw [textOf]

@[simp] theorem textOf_append (ms ns : List Node) : textOf (ms ++ ns) = textOf ms ++ textOf ns := by
  induction ms with
  | nil => simp
  | cons m ms ih => simp [ih]

mutual

def decEq : (m n : Node) → Decidable (m = n)
  | leaf k s, leaf k' s' => decidable_of_iff (k = k' ∧ s = s') (by simp)
  | branch k cs, branch k' cs' =>
    match decEqRow cs cs' with
    | isTrue h => decidable_of_iff (k = k') (by simp [h])
    | isFalse h => isFalse (by simp [h])
  | leaf .., branch .. => isFalse nofun
  | branch .., leaf .. => isFalse nofun

/-- Whether two rows of nodes are the same. -/
def decEqRow : (ms ns : List Node) → Decidable (ms = ns)
  | [], [] => isTrue rfl
  | m :: ms, n :: ns =>
    match decEq m n, decEqRow ms ns with
    | isTrue h, isTrue h' => isTrue (by rw [h, h'])
    | isFalse h, _ => isFalse (by simp [h])
    | _, isFalse h => isFalse (by simp [h])
  | [], _ :: _ => isFalse nofun
  | _ :: _, [] => isFalse nofun

end

instance : DecidableEq Node := decEq

/-- The nodes that carry meaning or are comments: neither blanks, nor punctuation, nor keywords. -/
def isNamed (n : Node) : Bool :=
  match n.kind with
  | .blank | .mark => false
  | _ => true

/-- The children with a name of their own, comments included. -/
def namedChildren (n : Node) : List Node := n.children.filter isNamed

/-- The children that carry meaning: no blanks, comments, punctuation or keywords. -/
def parts (n : Node) : List Node := n.namedChildren.filter fun c => decide (c.kind ≠ .comment)

/-- The first child of the given kind. -/
def child? (n : Node) (k : Kind) : Option Node := n.children.find? fun c => decide (c.kind = k)

def childrenOf (n : Node) (k : Kind) : List Node := n.children.filter fun c => decide (c.kind = k)

end Node

end CustomElements.TypeScript
