import CustomElements.Text.Blank

/-!
# JSON with comments and trailing commas

Two passes turn a text with comments and trailing commas into plain JSON. Both keep string literals
as they are: the first one skips a character after a backslash, the second one counts the
backslashes before a quote.
-/

namespace CustomElements.Json

mutual

/-- Removes comments, outside a string. -/
def stripComments : Text → Text
  | [] => []
  | .scalar '/' :: .scalar '/' :: r => stripLine r
  | .scalar '/' :: .scalar '*' :: r => stripBlock r
  | .scalar '"' :: r => .scalar '"' :: keepString r
  | c :: r => c :: stripComments r

/-- Keeps the rest of a string, then removes comments. -/
def keepString : Text → Text
  | [] => []
  | .scalar '\\' :: c :: r => .scalar '\\' :: c :: keepString r
  | .scalar '"' :: r => .scalar '"' :: stripComments r
  | c :: r => c :: keepString r

/-- Removes the rest of a line comment; the line feed stays. -/
def stripLine : Text → Text
  | [] => []
  | .scalar '\n' :: r => .scalar '\n' :: stripComments r
  | _ :: r => stripLine r

/-- Removes the rest of a block comment. -/
def stripBlock : Text → Text
  | [] => []
  | .scalar '*' :: .scalar '/' :: r => stripComments r
  | _ :: r => stripBlock r

end

/-- Whether the first character that is not blank closes an array or an object. -/
def closesNext (t : Text) : Bool :=
  match t.stripLeft.head? with
  | some (.scalar c) => c == '}' || c == ']'
  | _ => false

mutual

/-- Removes commas before a closing bracket, outside a string. -/
def stripTrailingCommas : Text → Text
  | [] => []
  | .scalar '"' :: r => .scalar '"' :: keepQuoted 0 r
  | .scalar ',' :: r =>
    if closesNext r then stripTrailingCommas r else .scalar ',' :: stripTrailingCommas r
  | c :: r => c :: stripTrailingCommas r

/--
Keeps the rest of a string, then removes trailing commas. `slashes` backslashes stand right before;
a quote after an odd number of them does not end the string.
-/
def keepQuoted (slashes : Nat) : Text → Text
  | [] => []
  | .scalar '"' :: r =>
    .scalar '"' :: (if slashes % 2 == 1 then keepQuoted 0 r else stripTrailingCommas r)
  | .scalar '\\' :: r => .scalar '\\' :: keepQuoted (slashes + 1) r
  | c :: r => c :: keepQuoted 0 r

end

/-- Plain JSON out of a text with comments and trailing commas. -/
def plain (t : Text) : Text := stripTrailingCommas (stripComments t)

end CustomElements.Json
