import Mathlib.Data.List.TakeWhile
import Mathlib.Tactic.SplitIfs
import CustomElements.Output.Declarations
import CustomElements.Proofs.Output.ModuleReader
import CustomElements.Proofs.Text.Hexadecimal
import CustomElements.Text.Digit
import CustomElements.TypeScript.Lexeme

/-!
# Reading property names

A property name is an identifier or a string literal. The reader below follows the grammar of
literals and knows nothing of how a name was written. A quoted name is put between quotes as it is,
so it is read back only if no code point of it means anything to the reader.
-/

namespace CustomElements

namespace Literal

open TypeScript.Lexeme (isLineEnd)

/-- What a literal begins and ends with. -/
abbrev quote : CodePoint := .scalar '"'

/-- The code point with this number in hexadecimal digits. -/
def hexPoint? (digits : Text) : Option CodePoint := do
  let cs ← digits.chars?
  if cs.isEmpty then none else CodePoint.ofNat? (← hexValue? cs)

/-- The letters that stand for a control character after a backslash. -/
def letterValues : List (Char × Char) :=
  [('b', '\x08'), ('f', '\x0c'), ('n', '\n'), ('r', '\r'), ('t', '\t'), ('v', '\x0b')]

/-- The code point whose number stands after the letter `u`, in four digits or between braces, and how
many code points the number takes. -/
def unicodeAt : Text → Option (CodePoint × Nat)
  | .scalar '{' :: r =>
    let digits := r.takeWhile fun p => p.satisfies isHexDigit
    if (r.drop digits.length).head? = some (.scalar '}') then
      (hexPoint? digits).map fun p => (p, digits.length + 2)
    else none
  | r => (hexPoint? (r.take 4)).map fun p => (p, 4)

/-- What an escape sequence stands for whose backslash is left out, and how many code points it has.
A line end after the backslash stands for nothing; digits other than a lone zero are not allowed. -/
def escapeAt : Text → Option (Text × Nat)
  | [] => none
  | .surrogate k :: _ => some ([.surrogate k], 1)
  | .scalar c :: r =>
    match letterValues.lookup c with
    | some d => some ([.scalar d], 1)
    | none =>
      if c = 'x' then (hexPoint? (r.take 2)).map fun p => ([p], 3)
      else if c = 'u' then (unicodeAt r).map fun u => ([u.1], u.2 + 1)
      else if c.isDigit then
        if c = '0' && !(r.head?.any fun p => p.satisfies Char.isDigit) then
          some ([.scalar '\x00'], 1)
        else none
      else if c = '\r' && r.head? = some (.scalar '\n') then some ([], 2)
      else if isLineEnd c then some ([], 1)
      else some ([.scalar c], 1)

/-- Reads the rest of a literal, after `passed` code points of an escape sequence that has been read
already. Tells the text that the literal stands for, and what comes after it. -/
def readRest : Nat → Text → Option (Text × Text)
  | _, [] => none
  | passed + 1, _ :: r => readRest passed r
  | 0, p :: r =>
    if p = quote then some ([], r)
    else if p = .scalar '\n' || p = .scalar '\r' then none
    else if p = .scalar '\\' then do
      let (value, length) ← escapeAt r
      let (t, rest) ← readRest length r
      return (value ++ t, rest)
    else do
      let (t, rest) ← readRest 0 r
      return (p :: t, rest)

/-- Reads a literal between double quotes. -/
def read : Text → Option (Text × Text)
  | .scalar '"' :: r => readRest 0 r
  | _ => none

/-- No quote is among digits. -/
theorem quote_not_mem_digits {digits : Text} {p : CodePoint} (h : hexPoint? digits = some p) :
    quote ∉ digits := by
  unfold hexPoint? at h
  rw [Option.bind_eq_bind, Option.bind_eq_some_iff] at h
  obtain ⟨cs, hcs, h⟩ := h
  obtain rfl := Text.eq_ofChars_of_chars? hcs
  split at h
  · cases h
  · obtain ⟨n, hn, -⟩ := Option.bind_eq_some_iff.1 h
    intro hm
    obtain ⟨c, hc, hq⟩ := List.mem_map.1 hm
    have hdigit := isHexDigit_of_hexValue? hn c hc
    obtain rfl := CodePoint.scalar.inj hq
    revert hdigit
    decide

theorem quote_not_mem_cons {c : Char} {t : Text} (hc : c ≠ '"') (ht : quote ∉ t) :
    quote ∉ .scalar c :: t := by
  rw [List.mem_cons, not_or]
  exact ⟨fun h => hc (CodePoint.scalar.inj h).symm, ht⟩

theorem quote_not_mem_unicode {t : Text} {p : CodePoint} {n : Nat}
    (h : unicodeAt t = some (p, n)) : quote ∉ t.take n := by
  unfold unicodeAt at h
  split at h
  · next r =>
    obtain ⟨rest, hrest⟩ := List.takeWhile_prefix (l := r) fun p => p.satisfies isHexDigit
    dsimp only at h
    generalize (r.takeWhile fun p => p.satisfies isHexDigit) = digits at h hrest
    subst hrest
    rw [List.drop_left] at h
    split at h
    · next hbrace =>
      obtain ⟨q, hq, heq⟩ := Option.map_eq_some_iff.1 h
      obtain ⟨rest, rfl⟩ := List.head?_eq_some_iff.1 hbrace
      cases heq
      rw [List.take_succ_cons, List.take_length_add_append]
      refine quote_not_mem_cons (by decide) fun hm => ?_
      rcases List.mem_append.1 hm with hm | hm
      · exact quote_not_mem_digits hq hm
      · exact quote_not_mem_cons (by decide) List.not_mem_nil hm
    · cases h
  · obtain ⟨q, hq, heq⟩ := Option.map_eq_some_iff.1 h
    cases heq
    exact quote_not_mem_digits hq

/-- What an escape sequence stands for is no longer than the sequence without its backslash, and has
the quotes of the sequence. -/
theorem escapeAt_bounds {t value : Text} {n : Nat} (h : escapeAt t = some (value, n)) :
    value.length ≤ n ∧ (t.take n).count quote ≤ value.count quote := by
  unfold escapeAt at h
  split at h
  · cases h
  · cases h
    exact ⟨le_rfl, le_rfl⟩
  · next c r =>
    by_cases hc : c = '"'
    · subst hc
      cases h
      exact ⟨le_rfl, le_rfl⟩
    · -- no other sequence has a quote
      have hnone {t : Text} (ht : quote ∉ t) :
          (CodePoint.scalar c :: t).count quote ≤ value.count quote := by
        rw [List.count_eq_zero.2 (quote_not_mem_cons hc ht)]
        exact Nat.zero_le _
      have hone : quote ∉ ([] : Text) := List.not_mem_nil
      split at h
      · cases h
        exact ⟨le_rfl, hnone hone⟩
      · split_ifs at h with hx hu hdigit hzero hfeed hline
        · obtain ⟨p, hp, heq⟩ := Option.map_eq_some_iff.1 h
          cases heq
          exact ⟨Nat.le_add_left 1 2, hnone (quote_not_mem_digits hp)⟩
        · obtain ⟨⟨p, k⟩, hp, heq⟩ := Option.map_eq_some_iff.1 h
          cases heq
          exact ⟨Nat.le_add_left 1 k, hnone (quote_not_mem_unicode hp)⟩
        · cases h
          exact ⟨le_rfl, hnone hone⟩
        · rw [Bool.and_eq_true, decide_eq_true_eq, decide_eq_true_eq] at hfeed
          obtain ⟨rest, rfl⟩ := List.head?_eq_some_iff.1 hfeed.2
          cases h
          exact ⟨Nat.zero_le _, hnone (quote_not_mem_cons (by decide) hone)⟩
        · cases h
          exact ⟨Nat.zero_le _, hnone hone⟩
        · cases h
          exact ⟨le_rfl, le_rfl⟩

/-- A text that means nothing but itself between quotes. -/
def IsVerbatim (t : Text) : Prop :=
  ∀ p ∈ t, p ≠ quote ∧ p ≠ .scalar '\\' ∧ p ≠ .scalar '\n' ∧ p ≠ .scalar '\r'

instance (t : Text) : Decidable (IsVerbatim t) := inferInstanceAs (Decidable (∀ p ∈ t, _))

theorem readRest_plain {p : CodePoint} (hp : p ≠ quote ∧ p ≠ .scalar '\\' ∧ p ≠ .scalar '\n' ∧
    p ≠ .scalar '\r') (r : Text) :
    readRest 0 (p :: r) = (readRest 0 r).map fun u => (p :: u.1, u.2) := by
  rw [readRest, if_neg hp.1, if_neg (by simp [hp.2.2]), if_neg hp.2.1]
  cases readRest 0 r <;> rfl

/-- A verbatim text is read back as it is. -/
theorem readRest_verbatim {t : Text} (h : IsVerbatim t) (rest : Text) :
    readRest 0 (t ++ quote :: rest) = some (t, rest) := by
  induction t with
  | nil => rfl
  | cons p t ih =>
    rw [IsVerbatim, List.forall_mem_cons] at h
    rw [List.cons_append, readRest_plain h.1, ih h.2]
    rfl

/--
How much is read of a text between quotes. If reading stops before or at the closing quote, what was
read is no longer than the text, and as long only if that is verbatim. If an escape sequence takes
the closing quote for its own, what was read has more quotes than the text.
-/
theorem readRest_bounds {t rest value rest' : Text} {passed : Nat} (hp : passed ≤ t.length)
    (h : readRest passed (t ++ quote :: rest) = some (value, rest')) :
    (value.length + passed ≤ t.length ∧
        (value.length + passed = t.length → IsVerbatim (t.drop passed))) ∨
      (t.drop passed).count quote < value.count quote := by
  induction t generalizing passed value with
  | nil =>
    obtain rfl := Nat.le_zero.1 hp
    cases h
    exact .inl ⟨le_rfl, fun _ => by simp [IsVerbatim]⟩
  | cons p t ih =>
    cases passed with
    | succ passed =>
      rw [List.length_cons] at hp ⊢
      rw [List.drop_succ_cons]
      rcases ih (Nat.le_of_succ_le_succ hp) h with ⟨hle, hverbatim⟩ | hcount
      · exact .inl ⟨by omega, fun heq => hverbatim (by omega)⟩
      · exact .inr hcount
    | zero =>
      by_cases hplain : p ≠ quote ∧ p ≠ .scalar '\\' ∧ p ≠ .scalar '\n' ∧ p ≠ .scalar '\r'
      · rw [List.cons_append, readRest_plain hplain] at h
        obtain ⟨⟨value, rest'⟩, hrest, heq⟩ := Option.map_eq_some_iff.1 h
        cases heq
        rw [List.drop_zero, List.count_cons_of_ne hplain.1, List.count_cons_of_ne hplain.1,
          List.length_cons, List.length_cons]
        dsimp only
        rcases ih (Nat.zero_le _) hrest with ⟨hle, hverbatim⟩ | hcount
        · refine .inl ⟨by omega, fun heq => ?_⟩
          exact List.forall_mem_cons.2 ⟨hplain, hverbatim (by omega)⟩
        · exact .inr hcount
      · rw [List.cons_append, readRest] at h
        split_ifs at h with hquote hend hslash
        · cases h
          exact .inl ⟨Nat.zero_le _, fun heq => by simp at heq⟩
        · rw [Option.bind_eq_bind, Option.bind_eq_some_iff] at h
          obtain ⟨⟨d, n⟩, hescape, h⟩ := h
          obtain ⟨⟨v, _⟩, hrest, heq⟩ := Option.bind_eq_some_iff.1 h
          cases heq
          obtain ⟨hlength, hquotes⟩ := escapeAt_bounds hescape
          rw [List.drop_zero, List.count_cons_of_ne hquote, List.count_append, List.length_append,
            List.length_cons]
          by_cases hn : n ≤ t.length
          · rw [List.take_append_of_le_length hn] at hquotes
            rcases ih hn hrest with ⟨hle, -⟩ | hcount
            · exact .inl ⟨by omega, fun heq => by omega⟩
            · have hsum : (t.take n ++ t.drop n).count quote =
                  (t.take n).count quote + (t.drop n).count quote := List.count_append
              rw [List.take_append_drop] at hsum
              exact .inr (by omega)
          · -- the closing quote is part of the sequence
            obtain ⟨k, rfl⟩ := Nat.exists_eq_add_of_lt (Nat.lt_of_not_le hn)
            rw [Nat.add_assoc, List.take_length_add_append, List.count_append,
              List.take_succ_cons, List.count_cons_self] at hquotes
            exact .inr (by omega)
        · simp only [Bool.or_eq_true, decide_eq_true_eq, not_or] at hend
          exact absurd ⟨hquote, hslash, hend⟩ hplain

/-- A text between quotes is read as itself exactly if it is verbatim; then the literal ends at the
closing quote. -/
theorem read_quoted_iff (t rest : Text) :
    (read (quote :: (t ++ quote :: rest))).map Prod.fst = some t ↔ IsVerbatim t := by
  show (readRest 0 (t ++ quote :: rest)).map Prod.fst = some t ↔ _
  constructor
  · intro h
    obtain ⟨⟨value, rest'⟩, hread, rfl⟩ := Option.map_eq_some_iff.1 h
    rcases readRest_bounds (Nat.zero_le _) hread with ⟨-, hverbatim⟩ | hcount
    · exact hverbatim rfl
    · exact absurd hcount (Nat.lt_irrefl _)
  · intro h
    rw [readRest_verbatim h]
    rfl

end Literal

open Literal (quote IsVerbatim)

/-- Reads a property name: a literal, or an identifier of ASCII characters. -/
def readPropertyName (t : Text) : Option (Text × Text) :=
  if t.head? = some quote then Literal.read t
  else
    let name := t.takeWhile Segment.isNamePoint
    if name.head?.any fun p => !p.satisfies Char.isDigit then
      some (name, t.dropWhile Segment.isNamePoint)
    else none

/-- A text that goes on with no more of a name. -/
def StopsName (t : Text) : Prop := ∃ p r, t = p :: r ∧ Segment.isNamePoint p = false

theorem isVerbatim_of_isNamePoint {t : Text} (h : ∀ p ∈ t, Segment.isNamePoint p) :
    IsVerbatim t := by
  intro p hp
  have hpoint := h p hp
  refine ⟨?_, ?_, ?_, ?_⟩
  all_goals
    rintro rfl
    revert hpoint
    decide

theorem not_isDigit_of_starts {c : Char} (h : (c.isAlpha || c == '_' || c == '$') = true) :
    c.isDigit = false := by
  simp only [Bool.or_eq_true, beq_iff_eq] at h
  rcases h with (hletter | rfl) | rfl
  · by_contra hdigit
    unfold Char.isAlpha Char.isUpper Char.isLower at hletter
    simp only [Char.isDigit, Bool.or_eq_true, Bool.and_eq_true, decide_eq_true_eq, ge_iff_le,
      UInt32.le_iff_toNat_le, Bool.not_eq_false] at hletter hdigit
    have hletters : 'A'.val.toNat = 65 ∧ 'a'.val.toNat = 97 := ⟨rfl, rfl⟩
    have hdigits : '9'.val.toNat = 57 := rfl
    omega
  · rfl
  · rfl

theorem isNamePoint_scalar (c : Char) : Segment.isNamePoint (.scalar c) =
    ((c.isAlpha || c == '_' || c == '$') || c.isDigit) := by
  simp only [Segment.isNamePoint, CodePoint.satisfies, Char.isAlphanum]
  cases c.isAlpha <;> cases c.isDigit <;> cases c == '_' <;> cases c == '$' <;> rfl

/-- A plain name is an identifier, but for a line feed at its end. -/
theorem exists_of_isPlainName {name : Text} (h : isPlainName name) :
    ∃ p r ended, name = p :: r ++ ended ∧ (ended = [] ∨ ended = [.scalar '\n']) ∧
      p.satisfies Char.isDigit = false ∧ ∀ q ∈ p :: r, Segment.isNamePoint q := by
  have hname : ∃ front ended, name = front ++ ended ∧ (ended = [] ∨ ended = [.scalar '\n']) ∧
      (if name.getLast? = some (.scalar '\n') then name.dropLast else name) = front := by
    by_cases hfeed : name.getLast? = some (.scalar '\n')
    · obtain ⟨front, rfl⟩ := List.getLast?_eq_some_iff.1 hfeed
      rw [if_pos hfeed, List.dropLast_concat]
      exact ⟨front, _, rfl, .inr rfl, rfl⟩
    · rw [if_neg hfeed]
      exact ⟨name, [], (List.append_nil _).symm, .inl rfl, rfl⟩
  obtain ⟨front, ended, hsplit, hended, hfront⟩ := hname
  unfold isPlainName at h
  dsimp only at h
  rw [hfront] at h
  cases front with
  | nil => cases h
  | cons p r =>
    rw [Bool.and_eq_true, List.all_eq_true] at h
    obtain ⟨hfirst, hothers⟩ := h
    refine ⟨p, r, ended, hsplit, hended, ?_, List.forall_mem_cons.2 ⟨?_, fun q hq => ?_⟩⟩
    · cases p with
      | surrogate k => rfl
      | scalar c => exact not_isDigit_of_starts hfirst
    · cases p with
      | surrogate k => cases hfirst
      | scalar c =>
        rw [isNamePoint_scalar, Bool.or_eq_true]
        exact .inl hfirst
    · have hq' := hothers q hq
      cases q with
      | surrogate k => cases hq'
      | scalar c =>
        rw [isNamePoint_scalar]
        exact hq'

/-- An identifier is read up to where it stops. -/
theorem readPropertyName_identifier {p : CodePoint} {r rest : Text}
    (hdigit : p.satisfies Char.isDigit = false) (hname : ∀ q ∈ p :: r, Segment.isNamePoint q)
    (hrest : StopsName rest) : readPropertyName (p :: r ++ rest) = some (p :: r, rest) := by
  obtain ⟨q, r', rfl, hq⟩ := hrest
  have hquote : (p :: r ++ q :: r').head? ≠ some quote := by
    intro heq
    obtain rfl := Option.some.inj heq
    exact absurd (hname _ List.mem_cons_self) (by decide)
  have hstop : ¬Segment.isNamePoint q = true := by rw [hq]; decide
  have htake : (p :: r ++ q :: r').takeWhile Segment.isNamePoint = p :: r := by
    rw [List.takeWhile_append_of_pos hname, List.takeWhile_cons_of_neg hstop, List.append_nil]
  have hdrop : (p :: r ++ q :: r').dropWhile Segment.isNamePoint = q :: r' := by
    rw [List.dropWhile_append_of_pos hname, List.dropWhile_cons_of_neg hstop]
  rw [readPropertyName, if_neg hquote, htake, hdrop]
  simp [hdigit]

theorem readPropertyName_quote (t : Text) :
    readPropertyName (quote :: t) = Literal.read (quote :: t) := if_pos rfl

/-- A text between quotes, and what comes after it. -/
theorem quoted_append (t rest : Text) :
    (("\"" : Text) ++ t ++ ("\"" : Text)) ++ rest = quote :: (t ++ quote :: rest) := by
  simp [Text.ofString, Text.ofChars]

/-- The key of a verbatim name is read back as the name, and ends where the key ends. -/
theorem readPropertyName_key {name rest : Text} (hrest : StopsName rest) (h : IsVerbatim name) :
    readPropertyName (propertyKey name ++ rest) = some (name, rest) := by
  unfold propertyKey
  split
  · next hplain =>
    obtain ⟨p, r, ended, rfl, hended, hdigit, hname⟩ := exists_of_isPlainName hplain
    rcases hended with rfl | rfl
    · rw [List.append_nil]
      exact readPropertyName_identifier hdigit hname hrest
    · have hfeed := h (.scalar '\n') (List.mem_append_right _ List.mem_cons_self)
      exact absurd rfl hfeed.2.2.1
  · rw [quoted_append, readPropertyName_quote]
    exact Literal.readRest_verbatim h rest

/-- The key of a name is read back as the name exactly if the name is verbatim. -/
theorem readPropertyName_key_iff {name rest : Text} (hrest : StopsName rest) :
    (readPropertyName (propertyKey name ++ rest)).map Prod.fst = some name ↔
      IsVerbatim name := by
  constructor
  · intro h
    by_cases hplain : isPlainName name
    · obtain ⟨p, r, ended, rfl, hended, hdigit, hname⟩ := exists_of_isPlainName hplain
      rcases hended with rfl | rfl
      · rw [List.append_nil]
        exact isVerbatim_of_isNamePoint hname
      · -- the line feed is not part of what is read
        have hstop : StopsName ([.scalar '\n'] ++ rest) := ⟨_, _, rfl, by decide⟩
        rw [propertyKey, if_pos hplain, List.append_assoc,
          readPropertyName_identifier hdigit hname hstop] at h
        have hlength := congrArg List.length (Option.some.inj h)
        simp at hlength
    · rw [propertyKey, if_neg hplain, quoted_append, readPropertyName_quote] at h
      exact (Literal.read_quoted_iff name rest).1 h
  · intro h
    rw [readPropertyName_key hrest h]
    rfl

end CustomElements
