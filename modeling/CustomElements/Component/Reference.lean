import CustomElements.Failure
import CustomElements.Text.Blank

/-!
# Component references

A component is named by its class alone, or by a file and the class in it with a
number sign between them.
-/

namespace CustomElements

/-- A component class, and the file it is in if that is known. -/
structure ComponentRef where
  className : Text
  file : Option Text := none
deriving DecidableEq

/-- Reads a reference. Blanks around either part do not count, and neither part is blank. -/
def ComponentRef.parse (t : Text) : Except Mistake ComponentRef :=
  let body : Text := t.strip
  if body.isEmpty then .error (.referenceBlank t)
  else match body.splitOn '#' with
    | [className] => .ok ⟨className, none⟩
    | [file, className] =>
      if Text.isBlank file || Text.isBlank className then .error (.referenceMalformed t)
      else .ok ⟨Text.strip className, some (Text.strip file)⟩
    | _ => .error (.referenceMalformed t)

end CustomElements
