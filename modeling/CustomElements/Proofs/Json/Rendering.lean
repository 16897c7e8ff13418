import CustomElements.Json.Comments
import CustomElements.Json.Reader
import CustomElements.Proofs.Json.StringLiteral

/-!
# Renderings of a JSON value

A value can be written in many ways: with white space and comments between its tokens, and with a
comma behind the last entry of an array or an object. A rendering is one of these ways; it knows its
value, and the row of chunks that its text is made of.

A number literal has a sign, digits without a needless zero in front, and perhaps a fraction and an
exponent. The reader takes all of it, as long as what follows cannot belong to a number.
-/

namespace CustomElements.Json

/-! ### Number literals -/

/-- A row of decimal digits, at least one. -/
structure Digits where
  chars : List Char
  decimal : ∀ c ∈ chars, c.isDigit
  nonempty : chars ≠ []

inductive Sign where
  | unsigned
  | plus
  | minus
deriving DecidableEq

def Sign.text : Sign → Text
  | unsigned => []
  | plus => [.scalar '+']
  | minus => [.scalar '-']

structure Exponent where
  letter : Char
  isLetter : letter = 'e' ∨ letter = 'E'
  sign : Sign
  digits : Digits

structure NumberLiteral where
  negative : Bool
  whole : Digits
  /-- A zero in front stands alone. -/
  leading : whole.chars.head? = some '0' → whole.chars = ['0']
  fraction : Option Digits
  exponent : Option Exponent

def Digits.text (d : Digits) : Text := .ofChars d.chars

def fractionText : Option Digits → Text
  | none => []
  | some d => .scalar '.' :: d.text

def exponentText : Option Exponent → Text
  | none => []
  | some e => .scalar e.letter :: (e.sign.text ++ e.digits.text)

def Exponent.value (e : Exponent) : Int :=
  if e.sign = .minus then -(decimalValue e.digits.chars : Int) else decimalValue e.digits.chars

namespace NumberLiteral

variable (n : NumberLiteral)

/-- The literal without its sign. -/
def magnitude : Text := n.whole.text ++ fractionText n.fraction ++ exponentText n.exponent

def text : Text := if n.negative then .scalar '-' :: n.magnitude else n.magnitude

def isInteger : Bool := n.fraction.isNone && n.exponent.isNone

/-- The reader takes integers up to a number of digits. -/
def Fits : Prop := n.isInteger → n.whole.chars.length ≤ Numeral.digitLimit

instance : Decidable n.Fits := inferInstanceAs (Decidable (_ → _))

def fractionDigits : List Char := (n.fraction.map Digits.chars).getD []

/-- The number that a literal stands for: an integer if there is neither a fraction nor an
exponent, and the nearest floating point number otherwise. -/
def value : Json :=
  if n.isInteger then
    .int (if n.negative then -(decimalValue n.whole.chars : Int) else decimalValue n.whole.chars)
  else .float (.ofDecimal n.negative (decimalValue (n.whole.chars ++ n.fractionDigits))
    ((n.exponent.map Exponent.value).getD 0 - n.fractionDigits.length))

end NumberLiteral

/-- Whether a text starts with a character that cannot go on with a number. -/
def EndsNumber (rest : Text) : Prop :=
  ∀ p ∈ rest.head?, p.satisfies Char.isDigit = false ∧
    p ≠ .scalar '.' ∧ p ≠ .scalar 'e' ∧ p ≠ .scalar 'E'

theorem takeDigits_stop {rest : Text} (h : ∀ p ∈ rest.head?, p.satisfies Char.isDigit = false) :
    takeDigits rest = ([], rest) := by
  cases rest with
  | nil => rfl
  | cons p r =>
    have hp := h p rfl
    cases p with
    | surrogate k => rfl
    | scalar c => rw [takeDigits, if_neg (by simpa [CodePoint.satisfies] using hp)]

theorem takeDigits_digits (d : Digits) {rest : Text}
    (h : ∀ p ∈ rest.head?, p.satisfies Char.isDigit = false) :
    takeDigits (d.text ++ rest) = (d.chars, rest) := by
  have hrow (cs : List Char) (hcs : ∀ c ∈ cs, c.isDigit) :
      takeDigits (.ofChars cs ++ rest) = (cs, rest) := by
    induction cs with
    | nil => exact takeDigits_stop h
    | cons c cs ih =>
      rw [List.forall_mem_cons] at hcs
      have hrest := ih hcs.2
      rw [Text.ofChars] at hrest
      rw [Text.ofChars, List.map_cons, List.cons_append, takeDigits, if_pos hcs.1, hrest]
  exact hrow d.chars d.decimal

theorem takeFraction_text (fraction : Option Digits) {rest : Text}
    (h : ∀ p ∈ rest.head?, p.satisfies Char.isDigit = false ∧ p ≠ .scalar '.') :
    takeFraction (fractionText fraction ++ rest) =
      ((fraction.map Digits.chars).getD [], rest) := by
  cases fraction with
  | none =>
    rw [fractionText, List.nil_append]
    unfold takeFraction
    split
    · exact absurd rfl (h _ rfl).2
    · rfl
  | some d =>
    have hdigits := takeDigits_digits d fun p hp => (h p hp).1
    obtain ⟨c, cs, hchars⟩ := List.exists_cons_of_ne_nil d.nonempty
    rw [fractionText, List.cons_append, takeFraction, hdigits, Option.map_some, Option.getD_some]
    · rw [hchars]

theorem takeExponent_none {rest : Text} (h : EndsNumber rest) :
    takeExponent rest = (none, rest) := by
  unfold takeExponent
  split
  · next e r =>
    have he := (h _ rfl).2.2
    rw [if_neg (by simpa using he)]
  · rfl

theorem takeExponent_text (exponent : Option Exponent) {rest : Text} (h : EndsNumber rest) :
    takeExponent (exponentText exponent ++ rest) = (exponent.map Exponent.value, rest) := by
  cases exponent with
  | none => exact takeExponent_none h
  | some e =>
    have hletter : (e.letter == 'e' || e.letter == 'E') = true := by
      rcases e.isLetter with h | h <;> rw [h] <;> rfl
    have hdigits := takeDigits_digits e.digits fun p hp => (h p hp).1
    obtain ⟨c, cs, hchars⟩ := List.exists_cons_of_ne_nil e.digits.nonempty
    have hc : c.isDigit := e.digits.decimal c (by rw [hchars]; exact List.mem_cons_self)
    rw [exponentText, List.cons_append, List.append_assoc, Option.map_some, Exponent.value]
    cases e.sign with
    | plus | minus =>
      simp [takeExponent, hletter, Sign.text, hdigits, hchars]
    | unsigned =>
      -- without a sign, the first digit must not be taken for one
      have hminus : c ≠ '-' := by
        rintro rfl
        cases hc
      have hplus : c ≠ '+' := by
        rintro rfl
        cases hc
      have htext : e.digits.text = .scalar c :: Text.ofChars cs := by
        rw [Digits.text, hchars]
        rfl
      rw [htext] at hdigits
      simp_all [takeExponent, Sign.text]

theorem exponentText_start (exponent : Option Exponent) {rest : Text} (h : EndsNumber rest) :
    ∀ p ∈ (exponentText exponent ++ rest).head?,
      p.satisfies Char.isDigit = false ∧ p ≠ .scalar '.' := by
  intro p hp
  cases exponent with
  | none => exact ⟨(h p hp).1, (h p hp).2.1⟩
  | some e =>
    obtain rfl : .scalar e.letter = p := Option.some.inj hp
    rcases e.isLetter with he | he <;> rw [he] <;> decide

theorem fractionText_start (fraction : Option Digits) {rest : Text}
    (h : ∀ p ∈ rest.head?, p.satisfies Char.isDigit = false) :
    ∀ p ∈ (fractionText fraction ++ rest).head?, p.satisfies Char.isDigit = false := by
  intro p hp
  cases fraction with
  | none => exact h p hp
  | some d =>
    obtain rfl : .scalar '.' = p := Option.some.inj hp
    rfl

namespace NumberLiteral

variable (n : NumberLiteral)

theorem isInteger_eq :
    (n.fractionDigits.isEmpty && (n.exponent.map Exponent.value).isNone) = n.isInteger := by
  have hdigits : n.fractionDigits.isEmpty = n.fraction.isNone := by
    rw [fractionDigits]
    cases n.fraction with
    | none => rfl
    | some d => simpa using d.nonempty
  rw [hdigits, Option.isNone_map, isInteger]

theorem exists_magnitude_head : ∃ c t, n.magnitude = .scalar c :: t ∧ c.isDigit := by
  obtain ⟨c, cs, hchars⟩ := List.exists_cons_of_ne_nil n.whole.nonempty
  have hc : c.isDigit := n.whole.decimal c (by rw [hchars]; exact List.mem_cons_self)
  refine ⟨c, Text.ofChars cs ++ fractionText n.fraction ++ exponentText n.exponent, ?_, hc⟩
  rw [magnitude, Digits.text, hchars]
  rfl

theorem exists_head : ∃ c t, n.text = .scalar c :: t ∧ (c = '-' ∨ c.isDigit) := by
  rw [text]
  split
  · exact ⟨'-', _, rfl, .inl rfl⟩
  · obtain ⟨c, t, ht, hc⟩ := n.exists_magnitude_head
    exact ⟨c, t, ht, .inr hc⟩

/-- Reading only the first digit after a zero, as the reader does, takes all digits. -/
theorem whole_eq {c : Char} {cs : List Char} (hchars : n.whole.chars = c :: cs) (rest : Text) :
    (if c == '0' then ([c], (n.whole.text ++ rest).drop 1) else (c :: cs, rest)) =
      (n.whole.chars, rest) := by
  split
  · next hc =>
    have hc : c = '0' := by simpa using hc
    have hzero := n.leading (by rw [hchars, hc]; rfl)
    rw [Digits.text, hzero, hc]
    rfl
  · rw [hchars]

/-- The reader takes a whole literal and gives its number, unless that has too many digits. -/
theorem number_magnitude {rest : Text} (h : EndsNumber rest) :
    number n.negative (n.magnitude ++ rest) =
      if n.Fits then .ok (n.value, rest) else .error .tooManyDigits := by
  have hstart := exponentText_start n.exponent h
  obtain ⟨c, cs, hchars⟩ := List.exists_cons_of_ne_nil n.whole.nonempty
  have hwhole := takeDigits_digits n.whole
    (fractionText_start n.fraction fun p hp => (hstart p hp).1)
  have hfraction := takeFraction_text n.fraction hstart
  have hexponent := takeExponent_text n.exponent h
  rw [hchars] at hwhole
  rw [magnitude, List.append_assoc, List.append_assoc, number, hwhole]
  simp only [n.whole_eq hchars, hfraction, hexponent]
  rw [← fractionDigits, isInteger_eq, value]
  by_cases hinteger : n.isInteger
  · rw [if_pos hinteger, if_pos hinteger]
    by_cases hlength : n.whole.chars.length ≤ Numeral.digitLimit
    · rw [if_neg (Nat.not_lt.2 hlength), if_pos (show n.Fits from fun _ => hlength)]
    · rw [if_pos (Nat.not_le.1 hlength), if_neg fun hfits : n.Fits => hlength (hfits hinteger)]
  · rw [if_neg hinteger, if_neg hinteger, if_pos (show n.Fits from fun h => absurd h hinteger)]

end NumberLiteral

/-! ### Renderings -/

inductive Word where
  | null
  | true
  | false
deriving DecidableEq

inductive Shape where
  | array
  | object
deriving DecidableEq

/-- What may stand between two tokens. The line feed that ends a line comment belongs to it. -/
inductive GapItem where
  | space (p : CodePoint) (blank : isSpace p)
  | line (body : Text) (inLine : .scalar '\n' ∉ body)
  | block (body : Text) (unclosed : ¬[.scalar '*', .scalar '/'] <:+: body)

abbrev Gap := List GapItem

/-- What an entry has before its value: nothing in an array, its key and a colon in an object. -/
inductive Label : Shape → Type where
  | item : Label .array
  | key (pieces : List StringPiece) (before after : Gap) : Label .object

mutual

inductive Rendering where
  | word (w : Word)
  | number (n : NumberLiteral)
  | string (pieces : List StringPiece)
  | empty (s : Shape) (gap : Gap)
  | full (s : Shape) (gap : Gap) (row : Row s)

/-- The entries of an array or an object, at least one, up to and with the closing bracket. Behind
the last one there may be a comma and another gap. -/
inductive Row : Shape → Type where
  | last {s : Shape} (label : Label s) (value : Rendering) (gap : Gap)
      (trailing : Option Gap) : Row s
  | more {s : Shape} (label : Label s) (value : Rendering) (gap after : Gap) (rest : Row s) : Row s

end

/-- A rendering with what stands around it; a line comment at the end needs no line feed. -/
structure Document where
  before : Gap
  root : Rendering
  after : Gap
  last : Option (Subtype fun body : Text => .scalar '\n' ∉ body)

/-- A part of the text of a rendering. -/
inductive Chunk where
  | space (p : CodePoint) (blank : isSpace p)
  | line (body : Text) (inLine : .scalar '\n' ∉ body)
  | block (body : Text) (unclosed : ¬[.scalar '*', .scalar '/'] <:+: body)
  | opening (s : Shape)
  | closing (s : Shape)
  | colon
  /-- A comma between two entries. -/
  | comma
  /-- A comma behind the last entry. -/
  | trailingComma
  | word (w : Word)
  | number (n : NumberLiteral)
  | string (pieces : List StringPiece)

def Word.text : Word → Text
  | null => "null"
  | true => "true"
  | false => "false"

def Word.value : Word → Json
  | null => .null
  | true => .bool .true
  | false => .bool .false

def Shape.openChar : Shape → Char
  | array => '['
  | object => '\x7b'

def Shape.closeChar : Shape → Char
  | array => ']'
  | object => '\x7d'

namespace Chunk

def text : Chunk → Text
  | space p _ => [p]
  | line body _ => .scalar '/' :: .scalar '/' :: body
  | block body _ => .scalar '/' :: .scalar '*' :: (body ++ [.scalar '*', .scalar '/'])
  | opening s => [.scalar s.openChar]
  | closing s => [.scalar s.closeChar]
  | colon => [.scalar ':']
  | comma | trailingComma => [.scalar ',']
  | word w => w.text
  | number n => n.text
  | string pieces => .scalar '"' :: (piecesText pieces ++ [.scalar '"'])

def isComment : Chunk → Bool
  | line .. | block .. => true
  | _ => false

/-- Whether the chunk belongs to plain JSON. -/
def isPlain : Chunk → Bool
  | line .. | block .. | trailingComma => false
  | _ => true

/-- Integers are read up to a number of digits. -/
def Fits : Chunk → Prop
  | number n => n.Fits
  | _ => True

instance : (c : Chunk) → Decidable c.Fits
  | number n => inferInstanceAs (Decidable n.Fits)
  | space .. | line .. | block .. | opening _ | closing _ | colon | comma | trailingComma | word _
  | string _ => isTrue trivial

end Chunk

/-- The text of a row of chunks. -/
def textOf (cs : List Chunk) : Text := cs.flatMap Chunk.text

@[simp] theorem textOf_nil : textOf [] = [] := rfl

@[simp] theorem textOf_cons (c : Chunk) (cs : List Chunk) :
    textOf (c :: cs) = c.text ++ textOf cs := rfl

@[simp] theorem textOf_append (cs ds : List Chunk) :
    textOf (cs ++ ds) = textOf cs ++ textOf ds := List.flatMap_append

def GapItem.chunks : GapItem → List Chunk
  | space p blank => [.space p blank]
  | line body inLine => [.line body inLine, .space (.scalar '\n') rfl]
  | block body unclosed => [.block body unclosed]

def Gap.chunks (g : Gap) : List Chunk := g.flatMap GapItem.chunks

def Label.chunks {s : Shape} : Label s → List Chunk
  | item => []
  | key pieces before after =>
    .string pieces :: (Gap.chunks before ++ .colon :: Gap.chunks after)

def trailingChunks : Option Gap → List Chunk
  | none => []
  | some gap => .trailingComma :: Gap.chunks gap

mutual

def Rendering.chunks : Rendering → List Chunk
  | .word w => [.word w]
  | .number n => [.number n]
  | .string pieces => [.string pieces]
  | .empty s gap => .opening s :: (Gap.chunks gap ++ [.closing s])
  | .full s gap row => .opening s :: (Gap.chunks gap ++ row.chunks)

def Row.chunks {s : Shape} : Row s → List Chunk
  | .last label value gap trailing =>
    label.chunks ++ (value.chunks ++ (Gap.chunks gap ++ (trailingChunks trailing ++ [.closing s])))
  | .more label value gap after rest =>
    label.chunks ++
      (value.chunks ++ (Gap.chunks gap ++ .comma :: (Gap.chunks after ++ rest.chunks)))

end

def lastChunks : Option (Subtype fun body : Text => .scalar '\n' ∉ body) → List Chunk
  | none => []
  | some body => [.line body.1 body.2]

def Document.chunks (d : Document) : List Chunk :=
  Gap.chunks d.before ++ (d.root.chunks ++ (Gap.chunks d.after ++ lastChunks d.last))

def Document.text (d : Document) : Text := textOf d.chunks

/-- The key of an entry, empty in an array. -/
def Label.name {s : Shape} : Label s → Text
  | item => []
  | key pieces _ _ => decode pieces

mutual

/-- The value that a rendering is written for. -/
def Rendering.value : Rendering → Json
  | .word w => w.value
  | .number n => n.value
  | .string pieces => .string (decode pieces)
  | .empty .array _ => .array []
  | .empty .object _ => .object []
  | .full .array _ row => .array (row.entries.map Prod.snd)
  | .full .object _ row => .object row.entries

def Row.entries {s : Shape} : Row s → List (Text × Json)
  | .last label value _ _ => [(label.name, value.value)]
  | .more label value _ _ rest => (label.name, value.value) :: rest.entries

end

end CustomElements.Json
