import CustomElements.Text.Printable

/-!
# Quoted text

Text in quotes, as messages show it: in single quotes, unless it holds single quotes and no double
ones. Characters that are not printable are shown by their numbers.
-/

namespace CustomElements.Text

/-- The hexadecimal digits of a number, at least `width` of them. -/
def hexadecimal (width n : Nat) : Text :=
  let digits := Nat.toDigits 16 n
  .ofChars (List.replicate (width - digits.length) '0' ++ digits)

/-- A code point inside the given quotes. -/
def quotedPoint (quote : Char) (p : CodePoint) : Text :=
  match p with
  | .scalar '\\' => "\\\\"
  | .scalar '\n' => "\\n"
  | .scalar '\r' => "\\r"
  | .scalar '\t' => "\\t"
  | p =>
    if p = .scalar quote then ['\\', quote]
    else if p.isPrintable then [p]
    else if p.val < 0x100 then "\\x" ++ hexadecimal 2 p.val
    else if p.val < 0x10000 then "\\u" ++ hexadecimal 4 p.val
    else "\\U" ++ hexadecimal 8 p.val

/-- The quotes that a text is shown in. -/
def quoteFor (t : Text) : Char :=
  if t.any (· = .scalar '\'') && !t.any (· = .scalar '"') then '"' else '\''

def quoted (t : Text) : Text :=
  let q := quoteFor t
  ([.scalar q] : Text) ++ t.flatMap (quotedPoint q) ++ [.scalar q]

end CustomElements.Text
