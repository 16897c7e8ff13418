/-!
# Texts that may hold lone surrogates

String literals and escapes can denote half of a surrogate pair on its own, which is no character. A
text is therefore a list of code points, and a code point is a character or a surrogate that stands
alone. Two surrogates in a row stay two code points; only a text of characters can be encoded.
-/

namespace CustomElements

/-- A code point of a text: a character, or a surrogate that stands alone. -/
inductive CodePoint where
  | scalar (c : Char)
  | surrogate (offset : Fin 0x800)
deriving DecidableEq, Inhabited

namespace CodePoint

/-- The number of the code point; the surrogates start at `0xD800`. -/
def val : CodePoint → Nat
  | scalar c => c.toNat
  | surrogate k => 0xD800 + k.val

/-- The code point with this number, if it is below `0x110000`. -/
def ofNat? (n : Nat) : Option CodePoint :=
  if h : n.isValidChar then some (scalar (Char.ofNatAux n h))
  else if n < 0x110000 then some (surrogate (Fin.ofNat 0x800 (n - 0xD800)))
  else none

instance : Coe Char CodePoint := ⟨scalar⟩

/-- The character, unless the code point is a surrogate. -/
def char? : CodePoint → Option Char
  | scalar c => some c
  | surrogate _ => none

/-- Whether the code point is a character that satisfies `p`. -/
def satisfies (p : Char → Bool) : CodePoint → Bool
  | scalar c => p c
  | surrogate _ => false

end CodePoint

/-- A text is a list of code points. -/
abbrev Text := List CodePoint

namespace Text

def ofChars (cs : List Char) : Text := cs.map .scalar

def ofString (s : String) : Text := ofChars s.toList

instance : Coe String Text := ⟨ofString⟩

/-- The characters of a text without surrogates. -/
def chars? : Text → Option (List Char)
  | [] => some []
  | .scalar c :: r => (chars? r).map (c :: ·)
  | .surrogate _ :: _ => none

/-- The text as a string, if it holds no surrogate. -/
def toString? (t : Text) : Option String := t.chars?.map String.ofList

def ofNat (n : Nat) : Text := ofChars (Nat.toDigits 10 n)

/-- The decimal digits of an integer, after a minus sign if it is negative. -/
def ofInt : Int → Text
  | .ofNat n => ofNat n
  | .negSucc n => '-' :: ofNat (n + 1)

@[simp] theorem chars?_ofChars (cs : List Char) : chars? (ofChars cs) = some cs := by
  induction cs with
  | nil => rfl
  | cons c cs ih => simpa [ofChars, chars?] using ih

theorem eq_ofChars_of_chars? {t : Text} {cs : List Char} (h : chars? t = some cs) :
    t = ofChars cs := by
  induction t generalizing cs with
  | nil => cases h; rfl
  | cons p r ih =>
    cases p with
    | surrogate k => cases h
    | scalar c =>
      obtain ⟨ds, hd, rfl⟩ := Option.map_eq_some_iff.1 h
      simpa [ofChars] using ih hd

def startsWith (t head : Text) : Bool := head.isPrefixOf t

def endsWith (t tail : Text) : Bool := tail.isSuffixOf t

def contains (t part : Text) : Bool :=
  match t with
  | [] => part.isEmpty
  | _ :: r => part.isPrefixOf t || contains r part

/-- The pieces between the occurrences of `sep`; there is one piece more than
there are occurrences. -/
def splitOn (sep : CodePoint) : Text → List Text
  | [] => [[]]
  | c :: r =>
    if c = sep then [] :: splitOn sep r
    else match splitOn sep r with
      | [] => [[c]]
      | piece :: pieces => (c :: piece) :: pieces

/-- The pieces in a row with `sep` between neighbours. -/
def join (sep : Text) : List Text → Text
  | [] => []
  | [t] => t
  | t :: rest => t ++ sep ++ join sep rest

/-- The text without the characters at its end that satisfy `p`. -/
def dropRightWhile (p : CodePoint → Bool) (t : Text) : Text := (t.reverse.dropWhile p).reverse

/-- Texts are ordered by their first differing code point; a text comes before its continuations. -/
def le : Text → Text → Bool
  | [], _ => true
  | _ :: _, [] => false
  | a :: as, b :: bs => a.val < b.val || (a.val == b.val && le as bs)

end Text

/-- A text that is there and has characters. -/
def nonempty? (t : Option Text) : Option Text := t.filter fun s => !s.isEmpty

theorem nonempty?_eq_some {o : Option Text} {t : Text} :
    nonempty? o = some t ↔ o = some t ∧ t ≠ [] := by
  simp [nonempty?, Option.filter_eq_some_iff]

end CustomElements
