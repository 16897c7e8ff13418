import CustomElements.TypeScript.Rule

/-!
# The nonterminals of the grammar

The two dialects differ in one place: where an expression may start with `<`, the plain dialect
reads a type assertion and the other one an element.
-/

namespace CustomElements.TypeScript

inductive Dialect where
  | plain
  /-- With elements such as `<p>text</p>` as expressions. -/
  | withElements
deriving DecidableEq, Inhabited

/-- The constructs that rules refer to by name. -/
inductive Nonterminal where
  -- names and literals
  | memberName | string | template | arguments | block | decorator
  -- bindings
  | bindingTarget | bindingElement | parameters
  -- types
  | type | bareType | unionType | operandType | primaryType | typeMember | memberType
  | typeParameters | typeArguments | returned | ascription | returnAscription
  -- expressions
  | expression | assignment | plainAssignment | conditional | binary | unary | operand | leftHand
  | newTarget | primary | objectMember | element | elementChild
  -- classes
  | classTail | classMember | memberModifier | initializer
  -- statements
  | statement | declaration | classDeclaration | functionDeclaration | variableDeclaration
  | simpleDeclaration | exportStatement | importStatement | moduleName
deriving DecidableEq

namespace Grammar

open Rule

abbrev the (n : Nonterminal) : Rule Nonterminal := .nonterminal n

/-- A name that is not reserved. -/
def identifier : Rule Nonterminal := token .identifier .identifier

def propertyName : Rule Nonterminal := token .propertyName .name

def privateName : Rule Nonterminal := token .privateName .privateName

def leftBrace : Rule Nonterminal := symbol "\x7b"

def rightBrace : Rule Nonterminal := symbol "\x7d"

/-- The end of a statement: a semicolon, or nothing before a brace, a new line or the end
of the text. -/
def statementEnd : Rule Nonterminal :=
  symbol ";" <|> ahead rightBrace <|> lineBreak <|> ahead finish

/-- The end of a class member without a body. -/
def memberEnd : Rule Nonterminal := symbol ";" <|> ahead rightBrace <|> lineBreak

def quoted (quote : String) (q : Char) : Rule Nonterminal :=
  symbol quote ++ many (glued .fragment (.fragment q) <|> glued .escape .escape)
    ++ gluedSymbol quote

/-- The rules for names, literals and bindings. -/
def bindingRule : Nonterminal → Option (Rule Nonterminal)
  | .memberName => some <|
      the .string
      <|> token .number .number
      <|> privateName
      <|> branch .computedName (symbol "[" ++ the .assignment ++ symbol "]")
      <|> propertyName
  | .string => some <|
      branch .string (quoted "\"" '"' <|> quoted "'" '\'')
  | .template => some <|
      branch .template
        (symbol "\x60"
          ++ many (glued .fragment .templateText
            <|> gluedSymbol "$\x7b" ++ the .expression ++ symbol "\x7d")
          ++ gluedSymbol "\x60")
  | .arguments => some <|
      branch .arguments
        (symbol "("
          ++ commaList (branch .spread (symbol "..." ++ the .assignment) <|> the .assignment)
          ++ symbol ")")
  | .block => some <|
      branch .other (leftBrace ++ many (the .statement) ++ rightBrace)
  | .decorator => some <|
      let target := extend (branch .other (symbol "(" ++ the .expression ++ symbol ")")
          <|> token .other (.word "this".toList) <|> identifier)
        (branch .member (symbol "." ++ (propertyName <|> privateName)))
      branch .decorator
        (symbol "@"
          ++ extend target
            (branch .call (opt (the .typeArguments) ++ the .arguments)))
  | .bindingTarget => some <|
      branch .other
        (leftBrace
          ++ commaList (symbol "..." ++ the .bindingTarget
            <|> the .memberName ++ symbol ":" ++ the .bindingElement
            <|> identifier ++ opt (the .initializer))
          ++ rightBrace)
      <|> branch .other
        (symbol "["
          ++ many (opt (the .bindingElement) ++ symbol ",")
          ++ opt (the .bindingElement) ++ symbol "]")
      <|> identifier
  | .bindingElement => some <|
      opt (symbol "...") ++ the .bindingTarget ++ opt (the .initializer)
  | .parameters => some <|
      let modifier := anyWord ["public", "private", "protected", "readonly", "override"]
        ++ ahead (identifier <|> leftBrace <|> symbol "[")
      branch .other
        (symbol "("
          ++ commaList (many (the .decorator)
            ++ (word "this" ++ opt (the .ascription)
              <|> many modifier ++ opt (symbol "...") ++ the .bindingTarget ++ opt (symbol "?")
                ++ opt (the .ascription) ++ opt (the .initializer)))
          ++ symbol ")")
  | .initializer => some <|
      branch .initializer (symbolNot "=" "=>" ++ the .assignment)
  | _ => none

end Grammar

end CustomElements.TypeScript
