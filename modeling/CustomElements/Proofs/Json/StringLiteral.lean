import CustomElements.Json.Reader
import CustomElements.Proofs.Text.CodePoints
import CustomElements.Proofs.Text.Hexadecimal

/-!
# String literals

The body of a string literal is a row of pieces: characters that stand for themselves, short
escapes, and escapes of 16 bit units. Reading it gives back the units that the pieces stand for;
two escapes that make a surrogate pair become one character, which is the same two units.
-/

namespace CustomElements

/-- The 16 bit units of a code point. -/
def CodePoint.units (p : CodePoint) : List Nat :=
  if p.val < 0x10000 then [p.val]
  else [0xD800 + (p.val - 0x10000) / 0x400, 0xDC00 + (p.val - 0x10000) % 0x400]

/-- The 16 bit units of a text. -/
def Text.units (t : Text) : List Nat := t.flatMap CodePoint.units

/-- The code point of a number that is small enough. -/
def CodePoint.ofNat (n : Nat) : CodePoint := (CodePoint.ofNat? n).getD default

theorem CodePoint.ofNat?_eq {n : Nat} (h : n < 0x110000) :
    CodePoint.ofNat? n = some (CodePoint.ofNat n) ∧ (CodePoint.ofNat n).val = n := by
  obtain ⟨p, hp, hv⟩ := CodePoint.exists_ofNat? h
  rw [CodePoint.ofNat, hp]
  exact ⟨rfl, hv⟩

namespace Json

/-- Four hexadecimal digits stand for a unit. -/
theorem unit_lt {a b c d : Char} {n : Nat} (h : hexValue? [a, b, c, d] = some n) :
    n < 0x10000 := by
  have hlt := hexValue?_lt h
  simpa using hlt

/-- A piece of the body of a string literal. -/
inductive StringPiece where
  /-- A character that stands for itself. -/
  | plain (p : CodePoint) (printed : 0x20 ≤ p.val) (inside : p ≠ .scalar '"' ∧ p ≠ .scalar '\\')
  /-- A backslash and a letter that stand for a character. -/
  | short (e : CodePoint) (c : Char) (escape : shortEscape? e = some c)
  /-- Four hexadecimal digits that stand for a unit. -/
  | unit (a b c d : Char) (n : Nat) (digits : hexValue? [a, b, c, d] = some n)

namespace StringPiece

def text : StringPiece → Text
  | plain p _ _ => [p]
  | short e _ _ => [.scalar '\\', e]
  | unit a b c d _ _ => .ofChars ['\\', 'u', a, b, c, d]

/-- The 16 bit units that a piece stands for. -/
def units : StringPiece → List Nat
  | plain p _ _ => p.units
  | short _ c _ => (CodePoint.scalar c).units
  | unit _ _ _ _ n _ => [n]

end StringPiece

def isHighUnit (n : Nat) : Bool := 0xD800 ≤ n && n ≤ 0xDBFF

def isLowUnit (n : Nat) : Bool := 0xDC00 ≤ n && n ≤ 0xDFFF

/-- The text that a row of pieces stands for. -/
def decode : List StringPiece → Text
  | [] => []
  | .plain p _ _ :: ps => p :: decode ps
  | .short _ c _ :: ps => .scalar c :: decode ps
  | .unit _ _ _ _ n _ :: ps =>
    match ps with
    | .unit a b c d m h :: qs =>
      if isHighUnit n && isLowUnit m then
        .ofNat (0x10000 + (n - 0xD800) * 0x400 + (m - 0xDC00)) :: decode qs
      else .ofNat n :: decode (.unit a b c d m h :: qs)
    | ps => .ofNat n :: decode ps

theorem units_ofNat {n : Nat} (h : n < 0x10000) : (CodePoint.ofNat n).units = [n] := by
  have hv : (CodePoint.ofNat n).val = n := (CodePoint.ofNat?_eq (by omega)).2
  rw [CodePoint.units, hv, if_pos h]

/-- A surrogate pair is the two units of its character. -/
theorem units_ofNat_pair {n m : Nat} (hn : isHighUnit n) (hm : isLowUnit m) :
    (CodePoint.ofNat (0x10000 + (n - 0xD800) * 0x400 + (m - 0xDC00))).units = [n, m] := by
  rw [isHighUnit, Bool.and_eq_true, decide_eq_true_eq, decide_eq_true_eq] at hn
  rw [isLowUnit, Bool.and_eq_true, decide_eq_true_eq, decide_eq_true_eq] at hm
  have hv := (@CodePoint.ofNat?_eq (0x10000 + (n - 0xD800) * 0x400 + (m - 0xDC00)) (by omega)).2
  rw [CodePoint.units, hv, if_neg (by omega)]
  have hhigh : 0xD800 + (0x10000 + (n - 0xD800) * 0x400 + (m - 0xDC00) - 0x10000) / 0x400 = n := by
    omega
  have hlow : 0xDC00 + (0x10000 + (n - 0xD800) * 0x400 + (m - 0xDC00) - 0x10000) % 0x400 = m := by
    omega
  rw [hhigh, hlow]

/-- Decoding keeps the units. -/
theorem units_decode (ps : List StringPiece) :
    (decode ps).units = ps.flatMap StringPiece.units := by
  induction ps using decode.induct with
  | case1 => rfl
  | case2 p _ _ ps ih | case3 e c _ ps ih =>
    rw [decode, Text.units, List.flatMap_cons, List.flatMap_cons, ← ih]
    rfl
  | case4 a b c d n digits a' b' c' d' m h qs hpair ih =>
    have hp := Bool.and_eq_true _ _ ▸ hpair
    rw [decode, if_pos hpair, Text.units, List.flatMap_cons, units_ofNat_pair hp.1 hp.2,
      List.flatMap_cons, List.flatMap_cons, ← ih]
    rfl
  | case5 a b c d n digits a' b' c' d' m h qs hpair ih =>
    rw [decode, if_neg hpair, Text.units, List.flatMap_cons, units_ofNat (unit_lt digits),
      List.flatMap_cons, ← ih]
    rfl
  | case6 a b c d n digits ps hnext ih =>
    rw [decode, Text.units, List.flatMap_cons, units_ofNat (unit_lt digits),
      List.flatMap_cons, ← ih]
    · rfl
    · exact hnext

theorem hex4?_digits {a b c d : Char} {n : Nat} (h : hexValue? [a, b, c, d] = some n) (r : Text) :
    hex4? (.scalar a :: .scalar b :: .scalar c :: .scalar d :: r) = some (n, r) := by
  simp [hex4?, Text.chars?, h]

/-- An escape whose unit makes no pair with what follows is read by itself. -/
theorem unicodeEscape?_single {a b c d : Char} {n : Nat} (h : hexValue? [a, b, c, d] = some n)
    {r : Text} (hr : isHighUnit n → ∀ q, r = .scalar '\\' :: .scalar 'u' :: q →
      ∃ m q', hex4? q = some (m, q') ∧ ¬isLowUnit m) :
    unicodeEscape? (.scalar a :: .scalar b :: .scalar c :: .scalar d :: r) =
      some (.ofNat n, r) := by
  have hn : CodePoint.ofNat? n = some (.ofNat n) :=
    (CodePoint.ofNat?_eq (by have := unit_lt h; omega)).1
  simp only [unicodeEscape?, hex4?_digits h, Option.bind_eq_bind, Option.bind_some]
  split
  · next hhigh =>
    split
    · next q =>
      obtain ⟨m, q', hq, hlow⟩ := hr (by rw [isHighUnit]; exact hhigh) q rfl
      rw [isLowUnit] at hlow
      rw [hq]
      dsimp only
      rw [if_neg hlow, hn]
      rfl
    · rw [hn]
      rfl
  · rw [hn]
    rfl

theorem unicodeEscape?_pair {a b c d a' b' c' d' : Char} {n m : Nat}
    (h : hexValue? [a, b, c, d] = some n) (h' : hexValue? [a', b', c', d'] = some m)
    (hn : isHighUnit n) (hm : isLowUnit m) (r : Text) :
    unicodeEscape? (.scalar a :: .scalar b :: .scalar c :: .scalar d ::
        .scalar '\\' :: .scalar 'u' :: .scalar a' :: .scalar b' :: .scalar c' :: .scalar d' :: r) =
      some (.ofNat (0x10000 + (n - 0xD800) * 0x400 + (m - 0xDC00)), r) := by
  have hpair := hn
  rw [isHighUnit, Bool.and_eq_true, decide_eq_true_eq, decide_eq_true_eq] at hpair
  have hlow := hm
  rw [isLowUnit, Bool.and_eq_true, decide_eq_true_eq, decide_eq_true_eq] at hlow
  have hp := (@CodePoint.ofNat?_eq (0x10000 + (n - 0xD800) * 0x400 + (m - 0xDC00)) (by omega)).1
  rw [isHighUnit] at hn
  rw [isLowUnit] at hm
  simp only [unicodeEscape?, hex4?_digits h, hex4?_digits h', Option.bind_eq_bind, Option.bind_some,
    if_pos hn, if_pos hm, hp]
  rfl

/-- The text of a row of pieces. -/
def piecesText (ps : List StringPiece) : Text := ps.flatMap StringPiece.text

@[simp] theorem piecesText_nil : piecesText [] = [] := rfl

@[simp] theorem piecesText_cons (p : StringPiece) (ps : List StringPiece) :
    piecesText (p :: ps) = p.text ++ piecesText ps := rfl

theorem length_le_piecesText (ps : List StringPiece) : ps.length ≤ (piecesText ps).length := by
  induction ps with
  | nil => exact Nat.le_refl _
  | cons p ps ih =>
    have hpos : 0 < p.text.length := by
      cases p <;> simp [StringPiece.text, Text.ofChars]
    rw [piecesText_cons, List.length_append, List.length_cons]
    omega

/-- Only the escape of a unit starts like one. -/
theorem eq_unit_of_text {ps : List StringPiece} {rest q : Text}
    (h : piecesText ps ++ .scalar '"' :: rest = .scalar '\\' :: .scalar 'u' :: q) :
    ∃ a b c d m hm qs, ps = .unit a b c d m hm :: qs := by
  cases ps with
  | nil => cases h
  | cons p qs =>
    cases p with
    | plain p _ inside =>
      rw [piecesText_cons, StringPiece.text, List.append_assoc, List.singleton_append,
        List.cons.injEq] at h
      exact absurd h.1 inside.2
    | short e c escape =>
      rw [piecesText_cons, StringPiece.text, List.append_assoc, List.cons_append, List.cons_append,
        List.cons.injEq, List.cons.injEq] at h
      rw [h.2.1] at escape
      cases escape
    | unit a b c d m hm => exact ⟨a, b, c, d, m, hm, qs, rfl⟩

theorem stringRest_unit {fuel : Nat} {q r t rest : Text} {p : CodePoint}
    (hp : unicodeEscape? q = some (p, r)) (hr : stringRest fuel r = some (t, rest)) :
    stringRest (fuel + 1) (.scalar '\\' :: .scalar 'u' :: q) = some (p :: t, rest) := by
  rw [stringRest]
  simp [hp, hr]

/-- Reading the body of a string literal gives the text that its pieces stand for, and stops right
behind the quote that closes it. -/
theorem stringRest_pieces (ps : List StringPiece) {fuel : Nat} (hf : ps.length < fuel)
    (rest : Text) :
    stringRest fuel (piecesText ps ++ .scalar '"' :: rest) = some (decode ps, rest) := by
  induction ps using decode.induct generalizing fuel with
  | case1 =>
    obtain ⟨fuel, rfl⟩ := Nat.exists_eq_add_one.2 hf
    rfl
  | case2 p printed inside ps ih =>
    obtain ⟨fuel, rfl⟩ := Nat.exists_eq_add_one.2 (Nat.zero_lt_of_lt hf)
    have hrest := ih (Nat.lt_of_succ_lt_succ hf)
    rw [piecesText_cons, StringPiece.text, List.append_assoc, List.singleton_append, stringRest,
      if_neg (by omega), hrest, decode]
    · rfl
    · exact inside.1
    · exact inside.2
  | case3 e c escape ps ih =>
    obtain ⟨fuel, rfl⟩ := Nat.exists_eq_add_one.2 (Nat.zero_lt_of_lt hf)
    have hrest := ih (Nat.lt_of_succ_lt_succ hf)
    have hu : e ≠ .scalar 'u' := by
      rintro rfl
      cases escape
    rw [piecesText_cons, StringPiece.text, List.append_assoc, List.cons_append, List.cons_append,
      List.nil_append, stringRest, decode]
    simp [escape, hrest]
    exact hu
  | case4 a b c d n digits a' b' c' d' m h qs hpair ih =>
    obtain ⟨fuel, rfl⟩ := Nat.exists_eq_add_one.2 (Nat.zero_lt_of_lt hf)
    have hp := Bool.and_eq_true _ _ ▸ hpair
    have hlength : qs.length < fuel := by
      rw [List.length_cons, List.length_cons] at hf
      omega
    rw [decode, if_pos hpair]
    exact stringRest_unit (unicodeEscape?_pair digits h hp.1 hp.2 _) (ih hlength)
  | case5 a b c d n digits a' b' c' d' m h qs hpair ih =>
    obtain ⟨fuel, rfl⟩ := Nat.exists_eq_add_one.2 (Nat.zero_lt_of_lt hf)
    rw [decode, if_neg hpair]
    refine stringRest_unit (unicodeEscape?_single digits ?_) (ih (Nat.lt_of_succ_lt_succ hf))
    intro hn q hq
    obtain ⟨rfl⟩ := hq
    refine ⟨m, _, hex4?_digits h _, fun hm => hpair ?_⟩
    rw [hn, hm]
    rfl
  | case6 a b c d n digits ps hnext ih =>
    obtain ⟨fuel, rfl⟩ := Nat.exists_eq_add_one.2 (Nat.zero_lt_of_lt hf)
    rw [decode]
    · refine stringRest_unit (unicodeEscape?_single digits ?_) (ih (Nat.lt_of_succ_lt_succ hf))
      intro _ q hq
      obtain ⟨a', b', c', d', m, hm, qs, rfl⟩ := eq_unit_of_text hq
      exact (hnext a' b' c' d' m hm qs rfl).elim
    · exact hnext

theorem hex4?_suffix {t r : Text} {n : Nat} (h : hex4? t = some (n, r)) : r <:+ t := by
  unfold hex4? at h
  split at h
  · next a b c d q =>
    simp only [Option.bind_eq_bind, Option.bind_eq_some_iff, Option.pure_def, Option.some.injEq,
      Prod.mk.injEq] at h
    obtain ⟨_, _, _, _, _, rfl⟩ := h
    exact ⟨[a, b, c, d], rfl⟩
  · cases h

theorem unicodeEscape?_suffix {t r : Text} {p : CodePoint} (h : unicodeEscape? t = some (p, r)) :
    r <:+ t := by
  unfold unicodeEscape? at h
  rw [Option.bind_eq_bind, Option.bind_eq_some_iff] at h
  obtain ⟨⟨n, r'⟩, hr, h⟩ := h
  have hfirst := hex4?_suffix hr
  dsimp only at h
  split at h
  · split at h
    · next q =>
      split at h
      · next m q' hq =>
        have hsecond := hex4?_suffix hq
        split at h
        · obtain ⟨_, _, h⟩ := Option.bind_eq_some_iff.1 h
          obtain ⟨_, rfl⟩ := Prod.mk.inj (Option.some.inj h)
          exact hsecond.trans (((List.suffix_cons _ _).trans (List.suffix_cons _ _)).trans hfirst)
        · obtain ⟨_, _, h⟩ := Option.bind_eq_some_iff.1 h
          obtain ⟨_, rfl⟩ := Prod.mk.inj (Option.some.inj h)
          exact hfirst
      · cases h
    · obtain ⟨_, _, h⟩ := Option.bind_eq_some_iff.1 h
      obtain ⟨_, rfl⟩ := Prod.mk.inj (Option.some.inj h)
      exact hfirst
  · obtain ⟨_, _, h⟩ := Option.bind_eq_some_iff.1 h
    obtain ⟨_, rfl⟩ := Prod.mk.inj (Option.some.inj h)
    exact hfirst

/-- What is left behind a string literal is the end of the text. -/
theorem stringRest_suffix {fuel : Nat} {t v rest : Text} (h : stringRest fuel t = some (v, rest)) :
    rest <:+ t := by
  induction fuel generalizing t v with
  | zero => cases h
  | succ fuel ih =>
    have hskip {c : CodePoint} {r : Text} (hr : rest <:+ r) : rest <:+ c :: r :=
      hr.trans (List.suffix_cons _ _)
    cases t with
    | nil => cases h
    | cons c r =>
      by_cases hquote : c = .scalar '"'
      · subst hquote
        cases h
        exact List.suffix_cons _ _
      · by_cases hslash : c = .scalar '\\'
        · subst hslash
          cases r with
          | nil => cases h
          | cons e q =>
            by_cases hu : e = .scalar 'u'
            · subst hu
              rw [stringRest] at h
              simp only [Option.bind_eq_bind, Option.bind_eq_some_iff] at h
              obtain ⟨⟨p, r⟩, hp, ⟨u, rest'⟩, hu, h⟩ := h
              cases h
              exact hskip (hskip ((ih hu).trans (unicodeEscape?_suffix hp)))
            · rw [stringRest] at h
              · simp only [Option.bind_eq_bind, Option.bind_eq_some_iff] at h
                obtain ⟨c, _, ⟨u, rest'⟩, hu, h⟩ := h
                cases h
                exact hskip (hskip (ih hu))
              · exact hu
        · rw [stringRest] at h
          · split at h
            · cases h
            · simp only [Option.bind_eq_bind, Option.bind_eq_some_iff] at h
              obtain ⟨⟨u, rest'⟩, hu, h⟩ := h
              cases h
              exact hskip (ih hu)
          · exact hquote
          · exact hslash

end Json

end CustomElements
