/-!
# Faults

Failures that are no mistake in a configuration or in a component: of the file system, of encodings,
and of values outside their range.
-/

namespace CustomElements

/-- A failure of the surroundings. -/
inductive Fault where
  | noSuchFile
  | fileExists
  | isDirectory
  | notDirectory
  /-- A text with a lone surrogate cannot be written. -/
  | unencodable
  /-- Bytes that are no text. -/
  | undecodable
  /-- A value that the operation does not take. -/
  | badValue
  /-- A number outside the integers of the machine. -/
  | beyondRange
  /-- A value of the wrong type. -/
  | wrongType
  /-- A word that is none of those expected. -/
  | unknownWord
  /-- A number without digits. -/
  | noDigits
  /-- A text that should be a time and is none. -/
  | noTime
  /-- A search pattern that starts at the root. -/
  | absolutePattern
  /-- The home directory of the named user is not known. -/
  | noHome
deriving DecidableEq, Repr, Inhabited

end CustomElements
