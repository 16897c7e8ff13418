import CustomElements.TypeScript.Grammar.Types

/-!
# Rules for expressions

Binary operators are read as one row; their precedence decides neither which texts are accepted nor
what a reader of the tree needs to know.
-/

namespace CustomElements.TypeScript.Grammar

open Rule

/-- The mark of an optional access; before a digit it is a question mark and a number. -/
def optionalMark : Rule Nonterminal := symbolNot "?." "0123456789"

/-- The question mark of a conditional expression. -/
def questionMark : Rule Nonterminal := notAhead optionalMark ++ symbolNot "?" "?"

def binaryOperator : Rule Nonterminal :=
  symbolNot "**" "=" <|> symbolNot "*" "*=" <|> symbolNot "/" "/*=" <|> symbolNot "%" "="
  <|> symbolNot "+" "+=" <|> symbolNot "-" "-="
  <|> symbolNot "<<" "=" <|> symbolNot ">>>" "=" <|> symbolNot ">>" ">=" <|> symbolNot "<" "<="
  <|> symbolNot ">" ">=" <|> symbol "<=" <|> symbol ">="
  <|> word "instanceof" <|> word "in"
  <|> symbol "===" <|> symbol "!==" <|> symbolNot "==" "=" <|> symbolNot "!=" "="
  <|> symbolNot "&&" "=" <|> symbolNot "||" "=" <|> symbolNot "??" "="
  <|> symbolNot "&" "&=" <|> symbolNot "|" "|=" <|> symbolNot "^" "="

def assignmentOperator : Rule Nonterminal :=
  symbolNot "=" "=>"
  <|> symbol "+=" <|> symbol "-=" <|> symbol "**=" <|> symbol "*=" <|> symbol "/=" <|> symbol "%="
  <|> symbol "<<=" <|> symbol ">>>=" <|> symbol ">>=" <|> symbol "&&=" <|> symbol "||="
  <|> symbol "??=" <|> symbol "&=" <|> symbol "|=" <|> symbol "^="

def memberStep : Rule Nonterminal :=
  branch .member ((optionalMark <|> symbolNot "." ".") ++ (privateName <|> propertyName))

def indexStep : Rule Nonterminal :=
  branch .other (opt optionalMark ++ symbol "[" ++ the .expression ++ symbol "]")

/-- The assertion that a value is present. -/
def presentStep : Rule Nonterminal := sameLine ++ branch .other (symbolNot "!" "=")

/-- A template after its tag. -/
def taggedStep : Rule Nonterminal := branch .call (opt (the .typeArguments) ++ the .template)

/-- What may follow type arguments that no call follows. -/
def endsInstance : Rule Nonterminal :=
  ahead (lineBreak <|> finish <|> symbol ")" <|> symbol "]" <|> rightBrace <|> symbol ":"
    <|> symbol ";" <|> symbol "," <|> symbol "." <|> symbol "?" <|> symbol "=" <|> symbol "!="
    <|> symbol "&" <|> symbol "|" <|> symbol "^" <|> word "as" <|> word "satisfies")

/-- The modifiers of a method in an object literal, then its name. -/
def methodHead : Rule Nonterminal :=
  word "async" ++ sameLine ++ opt (symbol "*") ++ the .memberName
  <|> anyWord ["get", "set"] ++ the .memberName
  <|> symbol "*" ++ the .memberName
  <|> the .memberName

/-- What stands in an object literal, its braces included. -/
def objectBody : Rule Nonterminal := leftBrace ++ commaList (the .objectMember) ++ rightBrace

/-- The part of a function after its name. -/
def functionTail : Rule Nonterminal :=
  opt (the .typeParameters) ++ the .parameters ++ opt (the .returnAscription) ++ the .block

def functionExpression : Rule Nonterminal :=
  branch .other
    (opt (word "async" ++ sameLine) ++ word "function" ++ opt (symbol "*") ++ opt identifier
      ++ functionTail)

def arrowFunction : Rule Nonterminal :=
  let body := sameLine ++ symbol "=>" ++ (the .block <|> the .assignment)
  let head := opt (the .typeParameters) ++ the .parameters ++ opt (the .returnAscription)
  branch .other
    (identifier ++ body
    <|> word "async" ++ sameLine ++ identifier ++ body
    <|> head ++ body
    <|> word "async" ++ sameLine ++ head ++ body)

def elementName : Rule Nonterminal :=
  token .identifier .elementName
    ++ many (symbol "." ++ propertyName <|> symbol ":" ++ token .identifier .elementName)

/-- The value of an attribute in the given quotes. -/
def attributeValue (quote : String) (q : Char) : Rule Nonterminal :=
  symbol quote ++ opt (glued .fragment (.attributeText q)) ++ gluedSymbol quote

/-- A placeholder between braces. -/
def elementSlot : Rule Nonterminal :=
  leftBrace ++ opt (opt (symbol "...") ++ the .expression) ++ rightBrace

def expressionRule (dialect : Dialect) : Nonterminal → Option (Rule Nonterminal)
  | .expression => some <|
      extend (the .assignment) (branch .other (symbol "," ++ the .assignment))
  | .assignment => some <|
      arrowFunction
      <|> branch .other
        (word "yield"
          ++ opt (sameLine ++ (symbolNot "*" "=" ++ the .assignment <|> the .assignment))
          ++ notAhead (symbolNot "=" "="))
      <|> branch .other
        (ahead (leftBrace <|> symbol "[") ++ the .bindingTarget ++ symbolNot "=" "=>"
          ++ the .assignment)
      <|> the .plainAssignment
  | .plainAssignment => some <|
      extend (the .conditional) (branch .other (assignmentOperator ++ the .assignment))
  | .conditional => some <|
      -- a name in parentheses and a colon may start an arrow function or be all of the first branch
      extend (the .binary)
        (branch .other (questionMark ++ the .assignment ++ symbol ":" ++ the .assignment)
        <|> branch .other (questionMark ++ the .plainAssignment ++ symbol ":" ++ the .assignment))
  | .binary => some <|
      extend (the .unary)
        (sameLine ++ branch .other (word "as" ++ (word "const" <|> the .type))
        <|> sameLine ++ branch .other (word "satisfies" ++ the .type)
        <|> branch .other (binaryOperator ++ the .unary))
  | .unary => some <|
      let operator := symbol "++" <|> symbol "--" <|> symbolNot "+" "+=" <|> symbolNot "-" "-="
        <|> symbolNot "!" "=" <|> symbol "~"
        <|> anyWord ["typeof", "void", "delete", "await"]
      let prefixed := branch .other (operator ++ the .unary)
      match dialect with
      | .plain =>
        prefixed
        <|> branch .other (symbolNot "<" "<=" ++ (word "const" <|> the .type) ++ symbol ">"
          ++ the .unary)
        <|> the .operand
      | .withElements => prefixed <|> the .operand
  | .operand => some <|
      extend (the .leftHand) (sameLine ++ branch .other (symbol "++" <|> symbol "--"))
  | .leftHand => some <|
      extend (the .primary)
        (memberStep
        <|> branch .call (opt optionalMark ++ opt (the .typeArguments) ++ the .arguments)
        <|> taggedStep <|> indexStep <|> presentStep
        <|> branch .other (the .typeArguments ++ endsInstance))
  | .newTarget => some <|
      extend (the .primary) (memberStep <|> taggedStep <|> indexStep <|> presentStep)
  | .primary => some <|
      the .string
      <|> token .number .number
      <|> the .template
      <|> token .trueLiteral (.word "true".toList)
      <|> token .falseLiteral (.word "false".toList)
      <|> token .nullLiteral (.word "null".toList)
      <|> token .undefinedLiteral (.word "undefined".toList)
      <|> token .other (.word "this".toList)
      <|> token .other (.word "super".toList)
      <|> branch .object objectBody
      <|> branch .other
        (symbol "["
          ++ many (opt (opt (symbol "...") ++ the .assignment) ++ symbol ",")
          ++ opt (opt (symbol "...") ++ the .assignment) ++ symbol "]")
      <|> branch .other (symbol "(" ++ the .expression ++ symbol ")")
      <|> functionExpression
      <|> branch .other (many (the .decorator) ++ word "class" ++ opt identifier ++ the .classTail)
      <|> branch .other
        (word "new"
          ++ (symbol "." ++ propertyName
            <|> the .newTarget ++ opt (the .typeArguments) ++ opt (the .arguments)))
      <|> token .other (.word "import".toList) ++ ahead (symbol "(" <|> symbol ".")
      <|> token .other .regex
      <|> privateName ++ ahead (word "in")
      <|> identifier
      <|> the .element
  | .objectMember => some <|
      branch .spread (symbol "..." ++ the .assignment)
      <|> branch .method (methodHead ++ functionTail)
      <|> branch .pair (the .memberName ++ symbol ":" ++ the .assignment)
      <|> token .shorthand .identifier ++ ahead (symbol "," <|> rightBrace)
  | .element => some <|
      match dialect with
      | .plain => notAhead empty
      | .withElements =>
        let item := leftBrace ++ symbol "..." ++ the .expression ++ rightBrace
          <|> elementName ++ opt (symbol "="
            ++ (attributeValue "\"" '"' <|> attributeValue "'" '\'' <|> elementSlot
              <|> the .element))
        branch .other
          (symbol "<" ++ symbol ">" ++ many (the .elementChild)
            ++ symbol "<" ++ symbol "/" ++ symbol ">"
          <|> symbol "<" ++ elementName ++ opt (the .typeArguments) ++ many item
            ++ (symbol "/" ++ symbol ">"
              <|> symbol ">" ++ many (the .elementChild)
                ++ symbol "<" ++ symbol "/" ++ elementName ++ symbol ">"))
  | .elementChild => some <|
      glued .fragment .elementText <|> the .element <|> elementSlot
  | _ => none

end CustomElements.TypeScript.Grammar
