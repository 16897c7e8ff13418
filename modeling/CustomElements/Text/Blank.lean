import CustomElements.Text.Basic

/-!
# Blank characters

The characters that trimming removes: the Unicode white space characters and the four information
separators. A zero width space or a byte order mark is no blank.
-/

namespace CustomElements

/-- The blank characters. -/
def isBlankChar (c : Char) : Bool :=
  let n := c.toNat
  (0x09 ≤ n && n ≤ 0x0D) || (0x1C ≤ n && n ≤ 0x20) || n == 0x85 || n == 0xA0 || n == 0x1680 ||
    (0x2000 ≤ n && n ≤ 0x200A) || n == 0x2028 || n == 0x2029 || n == 0x202F || n == 0x205F ||
    n == 0x3000

theorem isBlankChar_of_isWhitespace {c : Char} (h : c.isWhitespace = true) :
    isBlankChar c = true := by
  simp only [Char.isWhitespace, Bool.or_eq_true, decide_eq_true_eq] at h
  rcases h with ((h | h) | h) | h <;> subst h <;> decide

namespace CodePoint

/-- A blank code point; no surrogate is blank. -/
def isBlank (p : CodePoint) : Bool := p.satisfies isBlankChar

end CodePoint

namespace Text

def stripLeft (t : Text) : Text := t.dropWhile CodePoint.isBlank

def stripRight (t : Text) : Text := t.dropRightWhile CodePoint.isBlank

/-- The text without blanks at either end. -/
def strip (t : Text) : Text := t.stripLeft.stripRight

/-- Whether the text holds nothing but blanks. -/
def isBlank (t : Text) : Bool := t.all CodePoint.isBlank

end Text

end CustomElements
