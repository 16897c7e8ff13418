import CustomElements.TypeScript.Grammar.Expressions

/-!
# Rules for classes and statements
-/

namespace CustomElements.TypeScript.Grammar

open Rule

def declarators : Rule Nonterminal :=
  commaRow
    (the .bindingTarget ++ opt (symbol "!") ++ opt (the .ascription) ++ opt (the .initializer))

/-- The word that opens a declaration of variables. -/
def variableWord : Rule Nonterminal := anyWord ["var", "let", "const"]

def classRule : Nonterminal → Option (Rule Nonterminal)
  | .classTail => some <|
      opt (the .typeParameters)
        ++ opt (word "extends" ++ the .leftHand ++ opt (the .typeArguments))
        ++ opt (word "implements" ++ commaRow (the .type))
        ++ branch .classBody (leftBrace ++ many (the .classMember) ++ rightBrace)
  | .memberModifier => some <|
      anyWord ["static", "get", "set"] ++ startsMember
      <|> anyWord ["public", "private", "protected", "abstract", "override", "readonly", "declare",
          "accessor", "async"]
        ++ sameLine ++ startsMember
  | .classMember => some <|
      let head := many (the .decorator) ++ many (the .memberModifier)
      symbol ";"
      <|> branch .other (word "static" ++ the .block)
      <|> branch .other
        (head ++ symbol "[" ++ identifier ++ the .ascription ++ symbol "]" ++ the .ascription)
        ++ memberEnd
      <|> branch .other
        (head ++ opt (symbol "*") ++ the .memberName ++ opt (symbol "?" <|> symbol "!")
          ++ opt (the .typeParameters) ++ the .parameters ++ opt (the .returnAscription)
          ++ (the .block <|> memberEnd))
      <|> branch .field
        (head ++ the .memberName ++ opt (symbol "?" <|> symbolNot "!" "=") ++ opt (the .ascription)
          ++ opt (the .initializer))
        ++ memberEnd
  | .classDeclaration => some <|
      branch .classDeclaration
        (many (the .decorator) ++ opt (word "abstract" ++ sameLine) ++ word "class" ++ identifier
          ++ the .classTail)
  | _ => none

/-- The head of a loop that goes through values, or the three parts of a counting loop. -/
def loopHead : Rule Nonterminal :=
  let range := word "of" ++ the .assignment <|> word "in" ++ the .expression
  variableWord ++ the .bindingTarget ++ opt (the .ascription) ++ range
  <|> the .leftHand ++ range
  <|> opt (variableWord ++ declarators <|> the .expression) ++ symbol ";" ++ opt (the .expression)
    ++ symbol ";" ++ opt (the .expression)

def importAttributes : Rule Nonterminal :=
  opt (anyWord ["with", "assert"] ++ sameLine ++ leftBrace
    ++ commaList (the .memberName ++ symbol ":" ++ the .string) ++ rightBrace)

def fromModule : Rule Nonterminal := word "from" ++ the .string ++ importAttributes

/-- Names in braces, each maybe under another name. -/
def nameList : Rule Nonterminal :=
  let name := propertyName <|> the .string
  leftBrace
    ++ commaList (word "type" ++ name ++ word "as" ++ name
      <|> word "type" ++ name ++ ahead (symbol "," <|> rightBrace)
      <|> name ++ opt (word "as" ++ name))
    ++ rightBrace

/-- The rules for declarations that may follow `export` and `declare`. -/
def declarationRule : Nonterminal → Option (Rule Nonterminal)
  | .variableDeclaration => some <|
      branch .other (variableWord ++ declarators ++ statementEnd)
  | .functionDeclaration => some <|
      branch .other
        (opt (word "async" ++ sameLine) ++ word "function" ++ opt (symbol "*") ++ identifier
          ++ opt (the .typeParameters) ++ the .parameters ++ opt (the .returnAscription)
          ++ (the .block <|> statementEnd))
  | .simpleDeclaration => some <|
      branch .other
        (word "type" ++ sameLine ++ identifier ++ opt (the .typeParameters) ++ symbol "="
          ++ the .type ++ statementEnd
        <|> word "interface" ++ sameLine ++ identifier ++ opt (the .typeParameters)
          ++ opt (word "extends" ++ commaRow (the .type))
          ++ leftBrace ++ many (the .typeMember) ++ rightBrace
        <|> opt (word "const") ++ word "enum" ++ identifier ++ leftBrace
          ++ commaList (the .memberName ++ opt (the .initializer)) ++ rightBrace
        <|> anyWord ["namespace", "module"] ++ sameLine ++ the .moduleName
          ++ (the .block <|> statementEnd)
        <|> word "declare" ++ sameLine
          ++ (word "global" ++ the .block <|> the .declaration))
  | .moduleName => some <| the .string <|> dotted identifier
  | .declaration => some <|
      the .simpleDeclaration <|> the .variableDeclaration <|> the .functionDeclaration
      <|> the .classDeclaration
  | .importStatement => some <|
      let names := symbol "*" ++ word "as" ++ identifier <|> nameList
      let clause := names <|> identifier ++ opt (symbol "," ++ names)
      branch .other
        (word "import"
          ++ (the .string ++ importAttributes
            <|> opt (word "type") ++ identifier ++ symbolNot "=" "=>"
              ++ (word "require" ++ symbol "(" ++ the .string ++ symbol ")" <|> dotted identifier)
            <|> word "type" ++ clause ++ fromModule
            <|> clause ++ fromModule)
          ++ statementEnd)
  | .exportStatement => some <|
      let anonymousClass := branch .classDeclaration
        (many (the .decorator) ++ opt (word "abstract" ++ sameLine) ++ word "class"
          ++ opt identifier ++ the .classTail)
      let anonymousFunction := branch .other
        (opt (word "async" ++ sameLine) ++ word "function" ++ opt (symbol "*") ++ opt identifier
          ++ opt (the .typeParameters) ++ the .parameters ++ opt (the .returnAscription)
          ++ (the .block <|> statementEnd))
      branch .exportStatement
        (many (the .decorator) ++ word "export"
          ++ (word "default"
              ++ (anonymousClass <|> anonymousFunction <|> the .simpleDeclaration
                <|> the .expression ++ statementEnd)
            <|> the .declaration
            <|> the .importStatement
            <|> opt (word "type") ++ symbol "*" ++ opt (word "as" ++ (propertyName <|> the .string))
              ++ fromModule ++ statementEnd
            <|> opt (word "type") ++ nameList ++ opt fromModule ++ statementEnd
            <|> symbolNot "=" "=>" ++ branch .other (the .expression) ++ statementEnd
            <|> word "as" ++ word "namespace" ++ identifier ++ statementEnd))
  | _ => none

def statementRule : Nonterminal → Option (Rule Nonterminal)
  | .statement => some <|
      let condition := symbol "(" ++ the .expression ++ symbol ")"
      let clause := (word "case" ++ the .expression <|> word "default") ++ symbol ":"
        ++ many (the .statement)
      the .exportStatement
      <|> the .classDeclaration
      <|> the .importStatement
      <|> the .simpleDeclaration
      <|> the .functionDeclaration
      <|> the .variableDeclaration
      <|> the .block
      <|> branch .other
        (symbol ";"
        <|> word "if" ++ condition ++ the .statement ++ opt (word "else" ++ the .statement)
        <|> word "for" ++ opt (word "await") ++ symbol "(" ++ loopHead ++ symbol ")"
          ++ the .statement
        <|> word "while" ++ condition ++ the .statement
        <|> word "do" ++ the .statement ++ word "while" ++ condition ++ opt (symbol ";")
        <|> word "switch" ++ condition ++ leftBrace ++ many clause ++ rightBrace
        <|> word "try" ++ the .block
          ++ opt (word "catch"
            ++ opt (symbol "(" ++ the .bindingTarget ++ opt (the .ascription) ++ symbol ")")
            ++ the .block)
          ++ opt (word "finally" ++ the .block)
        <|> word "return" ++ opt (sameLine ++ the .expression) ++ statementEnd
        <|> word "throw" ++ sameLine ++ the .expression ++ statementEnd
        <|> anyWord ["break", "continue"] ++ opt (sameLine ++ identifier) ++ statementEnd
        <|> word "debugger" ++ statementEnd
        <|> word "with" ++ condition ++ the .statement
        <|> identifier ++ symbol ":" ++ the .statement
        <|> notAhead (leftBrace <|> symbol "@" <|> word "function" <|> word "class"
              <|> word "async" ++ sameLine ++ word "function")
          ++ the .expression ++ statementEnd)
  | _ => none

end CustomElements.TypeScript.Grammar
