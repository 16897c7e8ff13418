import CustomElements.Files.Fault
import CustomElements.Text.Basic

/-!
# Bytes and texts

Files are read and written as UTF-8. A text with a lone surrogate has no encoding.
-/

namespace CustomElements

abbrev Bytes := ByteArray

namespace Bytes

def ofChars (cs : List Char) : Bytes := (String.ofList cs).toUTF8

def ofText? (t : Text) : Option Bytes := t.chars?.map ofChars

def chars? (b : Bytes) : Option (List Char) := (String.fromUTF8? b).map String.toList

theorem chars?_ofChars (cs : List Char) : chars? (ofChars cs) = some cs := by
  have hdecode : String.fromUTF8? (String.ofList cs).toUTF8 = some (String.ofList cs) :=
    dif_pos (String.ofList cs).isValidUTF8
  rw [chars?, ofChars, hdecode, Option.map_some, String.toList_ofList]

end Bytes

/-- Line ends of all kinds become line feeds. -/
def unifyLineEnds : List Char → List Char
  | '\r' :: '\n' :: r => '\n' :: unifyLineEnds r
  | '\r' :: r => '\n' :: unifyLineEnds r
  | c :: r => c :: unifyLineEnds r
  | [] => []

end CustomElements
