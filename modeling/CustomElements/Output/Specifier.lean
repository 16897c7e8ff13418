import CustomElements.Files.Fault
import CustomElements.Files.Path

/-!
# Module specifiers

How a module is named in an import of a module of another directory: by the relative path without
its ending, which may get another one.
-/

namespace CustomElements

/-- The number of leading names that two rows of names share. -/
def sharedLength : List Text → List Text → Nat
  | a :: as, b :: bs => if a = b then sharedLength as bs + 1 else 0
  | _, _ => 0

/-- The way from one directory to a path, both given by their names from the root. -/
def relativeParts (directory target : List Text) : List Text :=
  let shared := sharedLength directory target
  List.replicate (directory.length - shared) ("..": Text) ++ target.drop shared

/-- The text without its last dot and what follows it, if that is something without a slash. -/
def dropEnding (t : Text) : Text :=
  let ending := (t.reverse.takeWhile fun p => decide (p ≠ .scalar '.' ∧ p ≠ .scalar '/')).length
  match (t.take (t.length - ending)).getLast? with
  | some (.scalar '.') => if ending == 0 then t else t.take (t.length - ending - 1)
  | _ => t

/-- The specifier of a file for imports from a directory, both seen from `current`. -/
def moduleSpecifier (current : Path) (file directory : Path) (extension : Option Text) : Text :=
  let parts := relativeParts (Path.normal current directory).parts (Path.normal current file).parts
  let relative := dropEnding (if parts.isEmpty then "." else Text.join "/" parts)
  let relative := match extension with
    | some e =>
      if e.isEmpty then relative
      else relative ++ "." ++ e.dropWhile fun p => decide (p = .scalar '.')
    | none => relative
  if Text.startsWith relative "." then relative else "./" ++ relative

/-- The specifier of the file that a text names; an empty text names none. -/
def textSpecifier (current : Path) (file directory : Text) (extension : Option Text) :
    Except Fault Text :=
  if file.isEmpty then .error .badValue
  else .ok (moduleSpecifier current (.ofText file) (.ofText directory) extension)

end CustomElements
