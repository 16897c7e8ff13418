import CustomElements.TypeScript.Grammar.Nonterminal

/-!
# Rules for types
-/

namespace CustomElements.TypeScript.Grammar

open Rule

/-- What may follow a modifier: the start of a member's name. -/
def startsMember : Rule Nonterminal :=
  ahead (symbol "[" <|> symbol "*" <|> propertyName <|> privateName <|> symbol "\"" <|> symbol "'"
    <|> token .number .number)

/-- A dotted name. -/
def dotted (base : Rule Nonterminal) : Rule Nonterminal :=
  base ++ many (symbol "." ++ (propertyName <|> privateName))

def typeRule : Nonterminal → Option (Rule Nonterminal)
  | .type => some <| branch .type (the .bareType)
  | .bareType => some <|
      opt (the .typeParameters) ++ the .parameters ++ symbol "=>" ++ the .returned
      <|> opt (word "abstract") ++ word "new" ++ opt (the .typeParameters) ++ the .parameters
        ++ symbol "=>" ++ the .type
      <|> the .unionType
        ++ opt (sameLine ++ word "extends" ++ the .unionType ++ symbol "?" ++ the .type
          ++ symbol ":" ++ the .type)
  | .unionType => some <|
      let intersection := opt (symbol "&") ++ the .operandType
        ++ many (symbolNot "&" "&" ++ the .operandType)
      opt (symbol "|") ++ intersection ++ many (symbolNot "|" "|" ++ intersection)
  | .operandType => some <|
      anyWord ["keyof", "unique", "readonly"] ++ the .operandType
      <|> word "infer" ++ identifier
        ++ opt (word "extends" ++ the .unionType ++ notAhead (symbol "?"))
      <|> the .primaryType
        ++ many (sameLine ++ symbol "[" ++ opt (the .type) ++ symbol "]")
  | .primaryType => some <|
      the .string
      <|> branch .template
        (symbol "\x60"
          ++ many (glued .fragment .templateText
            <|> gluedSymbol "$\x7b" ++ the .type ++ symbol "\x7d")
          ++ gluedSymbol "\x60")
      <|> token .number .number
      <|> symbol "-" ++ token .number .number
      <|> opt (the .typeParameters) ++ the .parameters ++ symbol "=>" ++ the .returned
      <|> symbol "(" ++ the .type ++ symbol ")"
      <|> symbol "[" ++ commaList (the .memberType) ++ symbol "]"
      <|> leftBrace ++ opt (symbol "-" <|> symbol "+") ++ opt (word "readonly")
        ++ symbol "[" ++ identifier ++ word "in" ++ the .type ++ opt (word "as" ++ the .type)
        ++ symbol "]" ++ opt (symbol "-" <|> symbol "+") ++ opt (symbol "?")
        ++ opt (the .ascription) ++ opt (symbol ";" <|> symbol ",") ++ rightBrace
      <|> leftBrace ++ many (the .typeMember) ++ rightBrace
      <|> word "typeof"
        ++ (word "import" ++ symbol "(" ++ the .type ++ symbol ")"
            ++ many (symbol "." ++ propertyName)
          <|> dotted (word "this" <|> identifier))
        ++ opt (sameLine ++ the .typeArguments)
      <|> word "import" ++ symbol "(" ++ the .type ++ opt (symbol "," ++ the .assignment)
        ++ symbol ")" ++ many (symbol "." ++ propertyName) ++ opt (the .typeArguments)
      <|> anyWord ["void", "null", "true", "false", "this"]
      <|> dotted identifier ++ opt (sameLine ++ the .typeArguments)
  | .memberType => some <|
      opt (symbol "...")
        ++ (propertyName ++ opt (symbol "?") ++ symbolNot ":" ":" ++ the .type
          <|> the .type ++ opt (symbol "?"))
  | .typeMember => some <|
      let signature := opt (the .typeParameters) ++ the .parameters ++ opt (the .returnAscription)
      let member :=
        many (anyWord ["readonly", "static", "public", "private", "protected"] ++ startsMember)
            ++ symbol "[" ++ identifier ++ the .ascription ++ symbol "]" ++ opt (the .ascription)
        <|> signature
        <|> word "new" ++ signature
        <|> anyWord ["get", "set"] ++ startsMember ++ the .memberName ++ signature
        <|> the .memberName ++ opt (symbol "?") ++ signature
        <|> many (anyWord ["readonly", "public", "private", "protected"] ++ startsMember)
          ++ the .memberName ++ opt (symbol "?") ++ opt (the .ascription)
      member ++ (symbol ";" <|> symbol "," <|> ahead rightBrace <|> lineBreak)
  | .typeParameters => some <|
      symbol "<"
        ++ commaList (many (anyWord ["const", "in", "out"] ++ ahead propertyName
              ++ notAhead (word "extends")) ++ identifier
          ++ opt (word "extends" ++ the .type) ++ opt (symbol "=" ++ the .type))
        ++ symbol ">"
  | .typeArguments => some <|
      branch .typeArguments (symbolNot "<" "<=" ++ commaRow (the .type) ++ symbol ">")
  | .returned => some <|
      branch .type
        (word "asserts" ++ sameLine ++ (word "this" <|> identifier) ++ opt (word "is" ++ the .type)
        <|> (word "this" <|> identifier) ++ sameLine ++ word "is" ++ the .type
        <|> the .bareType)
  | .ascription => some <| branch .ascription (symbol ":" ++ the .type)
  | .returnAscription => some <| branch .ascription (symbol ":" ++ the .returned)
  | _ => none

end CustomElements.TypeScript.Grammar
