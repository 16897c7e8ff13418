import CustomElements.Text.Basic

/-!
# Tags

The tag of a node says what kind of value it is. A plain scalar without a tag has the one that its
form implies; any other node without a tag is a text, a sequence or a mapping.
-/

namespace CustomElements.Yaml

/-- The tags with a meaning of their own. -/
inductive Tag where
  | null
  | bool
  | int
  | float
  | text
  | binary
  | timestamp
  | sequence
  | mapping
  | set
  | orderedMapping
  | pairs
  /-- The key whose value is merged into the mapping. -/
  | merge
  /-- The key of the main value of a mapping. -/
  | defaultValue
  /-- A tag that no value has. -/
  | unknown
deriving DecidableEq

/-- What the names of the tags start with. -/
def tagNamespace : Text := "tag:yaml.org,2002:"

/-- The names of the tags in their namespace. -/
def tagNames : List (Text × Tag) :=
  [("null", .null), ("bool", .bool), ("int", .int), ("float", .float), ("str", .text),
    ("binary", .binary), ("timestamp", .timestamp), ("seq", .sequence), ("map", .mapping),
    ("set", .set), ("omap", .orderedMapping), ("pairs", .pairs), ("merge", .merge),
    ("value", .defaultValue)]

def Tag.ofText (t : Text) : Tag :=
  if Text.startsWith t tagNamespace then
    ((tagNames.lookup (t.drop tagNamespace.length)).getD .unknown)
  else .unknown

/-! ### Forms of plain scalars -/

/-- The text without a sign at its front. -/
def dropSign : List Char → List Char
  | '+' :: r => r
  | '-' :: r => r
  | r => r

/-- A row of digits and underscores, the first of which is a digit. -/
def isDigitRow : List Char → Bool
  | [] => false
  | c :: r => c.isDigit && r.all fun d => d.isDigit || d == '_'

/-- A number of sixtieths: one or two digits, the first of two being at most five. -/
def isSixtieth : List Char → Bool
  | [a] => a.isDigit
  | [a, b] => '0' ≤ a && a ≤ '5' && b.isDigit
  | _ => false

def colonPieces : List Char → List (List Char)
  | [] => [[]]
  | c :: r =>
    if c == ':' then [] :: colonPieces r
    else match colonPieces r with
      | [] => [[c]]
      | piece :: pieces => (c :: piece) :: pieces

/-- A number to base sixty whose first piece satisfies `p`. -/
def isSexagesimal (p : List Char → Bool) (cs : List Char) : Bool :=
  match colonPieces cs with
  | first :: second :: more => p first && isSixtieth second && more.all isSixtieth
  | _ => false

def isIntForm (cs : List Char) : Bool :=
  let body := dropSign cs
  let startsNonzero (r : List Char) : Bool := isDigitRow r && r.head? ≠ some '0'
  (match body with
    | '0' :: 'b' :: r => !r.isEmpty && r.all fun c => c == '0' || c == '1' || c == '_'
    | '0' :: 'x' :: r => !r.isEmpty && r.all fun c =>
        c.isDigit || ('a' ≤ c && c ≤ 'f') || ('A' ≤ c && c ≤ 'F') || c == '_'
    | '0' :: r => r.all fun c => ('0' ≤ c && c ≤ '7') || c == '_'
    | _ => false)
  || startsNonzero body || isSexagesimal startsNonzero body

/-- The form of a signed exponent; it may be missing. -/
def isExponentForm : List Char → Bool
  | [] => true
  | e :: s :: r =>
    (e == 'e' || e == 'E') && (s == '-' || s == '+') && !r.isEmpty && r.all Char.isDigit
  | _ => false

/-- The form of a fraction after its point: digits and underscores, then an exponent. -/
def isFractionForm (cs : List Char) : Bool :=
  isExponentForm (cs.dropWhile fun c => c.isDigit || c == '_')

/-- The form of a floating point number. -/
def isFloatForm (cs : List Char) : Bool :=
  let body := dropSign cs
  let whole := body.takeWhile (· != '.')
  let fraction := (body.dropWhile (· != '.')).drop 1
  let hasPoint := body.contains '.'
  (hasPoint && isDigitRow whole && isFractionForm fraction)
    || (match cs with
        | '.' :: d :: r => d.isDigit && isFractionForm r
        | _ => false)
    || (hasPoint && isSexagesimal isDigitRow whole && fraction.all fun c => c.isDigit || c == '_')
    || [".inf", ".Inf", ".INF"].contains (String.ofList body)
    || [".nan", ".NaN", ".NAN"].contains (String.ofList cs)

/-- The numbers of a point in time, as they are written. -/
structure TimeForm where
  year : List Char
  month : List Char
  day : List Char
  /-- Hour, minute, second and fraction of the clock, if there is one. -/
  clock : Option (List Char × List Char × List Char × List Char) := none
  /-- The zone after the clock: its sign, hours and minutes; without a sign it is universal time. -/
  zone : Option (Option Char × List Char × List Char) := none

/-- At least `least` and at most `most` digits at the front of a text, and the rest. -/
def takeDigits (least most : Nat) (cs : List Char) : Option (List Char × List Char) :=
  let digits := (cs.take most).takeWhile Char.isDigit
  if least ≤ digits.length then some (digits, cs.drop digits.length) else none

/-- The rest of a text after this character. -/
def dropChar? (c : Char) : List Char → Option (List Char)
  | d :: r => if d == c then some r else none
  | [] => none

/-- The zone of a point in time. -/
def zoneForm? (cs : List Char) : Option (Option (Option Char × List Char × List Char)) :=
  if cs.isEmpty then some none
  else match cs.dropWhile fun c => c == ' ' || c == '\t' with
    | [] => none
    | ['Z'] => some (some (none, [], []))
    | s :: r =>
      if s == '+' || s == '-' then do
        let (hours, r) ← takeDigits 1 2 r
        if r.isEmpty then return some (some s, hours, [])
        let (minutes, r) ← takeDigits 2 2 (← dropChar? ':' r)
        if r.isEmpty then return some (some s, hours, minutes) else none
      else none

/-- Reads the form of a point in time: a date, or a date and a clock with an optional zone. -/
def timeForm? (cs : List Char) : Option TimeForm := do
  let (year, r) ← takeDigits 4 4 cs
  let (month, r) ← takeDigits 1 2 (← dropChar? '-' r)
  let (day, r) ← takeDigits 1 2 (← dropChar? '-' r)
  if r.isEmpty then return { year, month, day }
  let isGap (c : Char) : Bool := c == ' ' || c == '\t'
  let r ← match r with
    | 'T' :: q => some q
    | 't' :: q => some q
    | c :: q => if isGap c then some (q.dropWhile isGap) else none
    | [] => none
  let (hour, r) ← takeDigits 1 2 r
  let (minute, r) ← takeDigits 2 2 (← dropChar? ':' r)
  let (second, r) ← takeDigits 2 2 (← dropChar? ':' r)
  let (fraction, r) := match r with
    | '.' :: q => (q.takeWhile Char.isDigit, q.dropWhile Char.isDigit)
    | q => ([], q)
  let zone ← zoneForm? r
  return { year, month, day, clock := some (hour, minute, second, fraction), zone }

/-- The form of a point in time that needs no tag: a date alone has two digits for month and day. -/
def isTimeForm (cs : List Char) : Bool :=
  match timeForm? cs with
  | some t => t.clock.isSome || (t.month.length == 2 && t.day.length == 2)
  | none => false

/-- The words for truth and falsehood; in texts they occur in lower case, capitalised
and in capitals. -/
def boolWords : List (String × Bool) :=
  [("yes", true), ("no", false), ("true", true), ("false", false), ("on", true), ("off", false)]

/-- The text with a capital first letter. -/
def capitalised : List Char → List Char
  | [] => []
  | c :: r => c.toUpper :: r

/-- Whether a text is the word in lower case, capitalised or in capitals. -/
def isCasedWord (cs : List Char) (word : String) : Bool :=
  let w := word.toList
  cs = w || cs = capitalised w || cs = w.map Char.toUpper

/-- The tag that the form of a plain scalar implies. A line feed at the end does not count. -/
def impliedTag (t : Text) : Tag :=
  match t.chars? with
  | none => .text
  | some written =>
    let cs := if written.getLast? = some '\n' then written.dropLast else written
    if written.isEmpty then .null
    else if boolWords.any fun w => isCasedWord cs w.1 then .bool
    else if isFloatForm cs then .float
    else if isIntForm cs then .int
    else if cs = ['<', '<'] then .merge
    else if cs = ['~'] || isCasedWord cs "null" then .null
    else if isTimeForm cs then .timestamp
    else if cs = ['='] then .defaultValue
    else if cs = ['!'] || cs = ['&'] || cs = ['*'] then .unknown
    else .text

end CustomElements.Yaml
