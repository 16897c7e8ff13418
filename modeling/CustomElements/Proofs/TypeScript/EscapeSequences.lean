import Mathlib.Data.List.Basic
import Mathlib.Tactic.SplitIfs
import CustomElements.Proofs.Answers
import CustomElements.Proofs.Text.Hexadecimal
import CustomElements.Proofs.TypeScript.Names
import CustomElements.TypeScript.Literal

/-!
# What escape sequences denote

The escape sequences that are read denote a text, whatever they are spelled like, but for one
spelling: a number in braces that no code point has denotes nothing (`unescape_ok_iff`). A
string literal has a value if it holds no such sequence (`literalValue_ok_iff`).
-/

namespace CustomElements.TypeScript

open CustomElements

/-- The escape sequences that are read, by how they are spelled. -/
inductive EscapeSequence : List Char → Prop where
  | byte {a b : Char} (digits : ∀ d ∈ [a, b], isHexDigit d) : EscapeSequence ['\\', 'x', a, b]
  | unit {a b c d : Char} (digits : ∀ e ∈ [a, b, c, d], isHexDigit e) :
      EscapeSequence ['\\', 'u', a, b, c, d]
  | braced {ds : List Char} (nonempty : ds ≠ []) (digits : ∀ d ∈ ds, isHexDigit d) :
      EscapeSequence ('\\' :: 'u' :: '{' :: (ds ++ ['}']))
  | other {c : Char} {r : List Char} (unmarked : c ≠ 'x' ∧ c ≠ 'u') :
      EscapeSequence ('\\' :: c :: r)

namespace Lexeme

theorem span_le_length (p : Char → Bool) (s : List Char) : span p s ≤ s.length := by
  induction s with
  | nil => exact Nat.le_refl 0
  | cons c r ih =>
    rw [span]
    split
    · exact Nat.succ_le_succ ih
    · exact Nat.zero_le _

/-- If the first characters of a text satisfy `p`, then it has that many of them. -/
theorem forall_take_of_le_span {p : Char → Bool} {n : Nat} {s : List Char}
    (h : n ≤ span p (s.take n)) : (s.take n).length = n ∧ ∀ c ∈ s.take n, p c := by
  have hlength : (s.take n).length = n := by
    have hspan := span_le_length p (s.take n)
    have htake := List.length_take_le n s
    omega
  have hall := take_span p (s.take n)
  rw [List.take_of_length_le (by omega)] at hall
  refine ⟨hlength, fun c hc => ?_⟩
  rw [hall] at hc
  exact List.mem_takeWhile_imp hc

theorem escapeSequence_byte {r : List Char} (h : 2 ≤ span isHexDigit (r.take 2)) :
    EscapeSequence ('\\' :: 'x' :: r.take 2) := by
  obtain ⟨htake, hdigits⟩ := forall_take_of_le_span h
  obtain ⟨a, b, hdigit⟩ := List.length_eq_two.1 htake
  rw [hdigit] at hdigits ⊢
  exact .byte hdigits

theorem escapeSequence_unit {r : List Char} (h : 4 ≤ span isHexDigit (r.take 4)) :
    EscapeSequence ('\\' :: 'u' :: r.take 4) := by
  obtain ⟨htake, hdigits⟩ := forall_take_of_le_span h
  obtain ⟨a, b, c, d, hdigit⟩ := List.length_eq_four.1 htake
  rw [hdigit] at hdigits ⊢
  exact .unit hdigits

/-- Digits and a closing brace. -/
theorem escapeSequence_braced {q : List Char} (hpos : 0 < span isHexDigit q)
    (hclosed : (q.drop (span isHexDigit q)).head? = some '}') :
    EscapeSequence ('\\' :: 'u' :: '{' :: q.take (span isHexDigit q + 1)) := by
  obtain ⟨t, ht⟩ := List.head?_eq_some_iff.1 hclosed
  have htake : q.take (span isHexDigit q + 1) = q.take (span isHexDigit q) ++ ['}'] := by
    rw [List.take_add, ht]
    rfl
  rw [htake]
  refine .braced ?_ fun d hd => ?_
  · exact take_ne_nil_of_pos hpos (by rintro rfl; cases hpos)
  · rw [take_span] at hd
    exact List.mem_takeWhile_imp hd

/-- A token that is read as an escape sequence is one. -/
theorem escapeSequence_of_measure {s : List Char} {k : Nat}
    (h : Lexeme.escape.measure s = some k) : EscapeSequence (s.take k) := by
  have hlength : escapeLength s = k ∧ k ≠ 0 := by
    simp only [measure] at h
    split at h
    · cases h
    · next hk =>
      obtain rfl := Option.some.inj h
      exact ⟨rfl, hk⟩
  obtain ⟨hlength, hk⟩ := hlength
  unfold escapeLength at hlength
  split at hlength
  · next c r =>
    split at hlength
    · next hx =>
      obtain rfl := beq_iff_eq.1 hx
      split at hlength
      · next hspan => exact hlength ▸ escapeSequence_byte hspan
      · exact absurd hlength.symm hk
    next hx =>
    split at hlength
    · next hu =>
      obtain rfl := beq_iff_eq.1 hu
      split at hlength
      · next q =>
        dsimp only at hlength
        split at hlength
        · next hbrace =>
          rw [Bool.and_eq_true, decide_eq_true_eq, beq_iff_eq] at hbrace
          exact hlength ▸ escapeSequence_braced hbrace.1 hbrace.2
        · exact absurd hlength.symm hk
      · split at hlength
        · next hspan => exact hlength ▸ escapeSequence_unit hspan
        · exact absurd hlength.symm hk
    · next hu =>
      have hc : c ≠ 'x' ∧ c ≠ 'u' := ⟨by simpa using hx, by simpa using hu⟩
      have htwo : 2 ≤ k := by
        subst hlength
        split_ifs <;> omega
      obtain ⟨k, rfl⟩ := Nat.exists_eq_add_of_le' htwo
      rw [List.take_succ_cons, List.take_succ_cons]
      exact .other hc
  · exact absurd hlength.symm hk

end Lexeme

/-! ### What the sequences denote -/

section Values

variable {c d : Char} {ds r : List Char} {p : CodePoint} {n : Nat}

theorem codePointOf_val (p : CodePoint) : codePointOf p.val = .ok p := by
  have hlt := p.val_lt
  rw [codePointOf, if_neg (by simp; omega), if_neg (by omega), Int.toNat_natCast,
    CodePoint.ofNat?_val]

/-- A number beyond those of the code points denotes nothing. -/
theorem codePointOf_beyond (h : 0x110000 ≤ n) : ∃ e, codePointOf n = .error e := by
  unfold codePointOf
  by_cases hn : n < 0x80000000
  · have hnone : CodePoint.ofNat? n = none := by
      rw [CodePoint.ofNat?, dif_neg (by unfold Nat.isValidChar; omega), if_neg (by omega)]
    rw [if_neg (by simp; omega), if_neg (by omega), Int.toNat_natCast, hnone]
    exact ⟨_, rfl⟩
  · rw [if_pos (by simp; omega)]
    exact ⟨_, rfl⟩

/-- The letters of the escapes of one letter. -/
theorem lookup_letterEscapes_of_not_mem (h : c ∉ "nrtbfv0".toList) :
    letterEscapes.lookup (.ofChars [c]) = none := by
  have hkeys : ∀ e ∈ letterEscapes, e.1 ∈ "nrtbfv0".toList.map fun d => Text.ofChars [d] := by
    decide
  rw [List.lookup_eq_none_iff]
  intro e he
  obtain ⟨d, hd, heq⟩ := List.mem_map.1 (hkeys e he)
  rw [← heq, bne_iff_ne]
  rintro ⟨rfl⟩
  exact h hd

theorem lookup_letterEscapes_of_two (c d : Char) (r : List Char) :
    letterEscapes.lookup (.ofChars (c :: d :: r)) = none := by
  have hkeys : ∀ e ∈ letterEscapes, e.1.length = 1 := by decide
  rw [List.lookup_eq_none_iff]
  intro e he
  rw [bne_iff_ne]
  intro heq
  have hlength := hkeys e he
  rw [← heq] at hlength
  simp [Text.ofChars] at hlength

/-- A text of characters starts with a text if its characters do. -/
theorem startsWith_ofChars (s t : List Char) :
    Text.startsWith (.ofChars s) (.ofChars t) = t.isPrefixOf s := by
  rw [Bool.eq_iff_iff, Text.startsWith, List.isPrefixOf_iff_prefix, List.isPrefixOf_iff_prefix]
  exact List.prefix_map_iff_of_injective fun _ _ h => CodePoint.scalar.inj h

/-- Hexadecimal digits behind their mark denote the code point of their number. -/
theorem unescape_hexadecimal (hm : c = 'x' ∨ c = 'u') (hne : ds ≠ [])
    (number : hexValue? ds = some p.val) : unescape (.ofChars ('\\' :: c :: ds)) = .ok [p] := by
  obtain ⟨d, ds, rfl⟩ := List.exists_cons_of_ne_nil hne
  have hbrace : '{' ≠ d :=
    (ne_brace_of_isHexDigit (isHexDigit_of_hexValue? number d List.mem_cons_self)).symm
  have hbody : (Text.ofChars ('\\' :: c :: d :: ds)).drop 1 = Text.ofChars (c :: d :: ds) := rfl
  have hdigits : (Text.ofChars (c :: d :: ds)).drop 1 = Text.ofChars (d :: ds) := rfl
  have hopen : Text.startsWith (.ofChars (c :: d :: ds)) "u\x7b" = false := by
    refine (startsWith_ofChars _ ['u', '{']).trans ?_
    simp [List.isPrefixOf, hbrace]
  have hmark : (Text.startsWith (.ofChars (c :: d :: ds)) "u" ||
      Text.startsWith (.ofChars (c :: d :: ds)) "x") = true := by
    rw [show Text.startsWith (.ofChars (c :: d :: ds)) "u" = _ from startsWith_ofChars _ ['u'],
      show Text.startsWith (.ofChars (c :: d :: ds)) "x" = _ from startsWith_ofChars _ ['x']]
    rcases hm with rfl | rfl <;> rfl
  have hlong : decide (1 < (Text.ofChars (c :: d :: ds)).length) = true := by
    simp [Text.ofChars]
  simp only [unescape, hbody, lookup_letterEscapes_of_two, hdigits, hopen, hmark, hlong,
    Numeral.hexadecimal?_ofChars hne number, codePointOf_val]
  rfl

/-- Hexadecimal digits in braces denote the code point of their number. -/
theorem unescape_braced (hne : ds ≠ []) (number : hexValue? ds = some n) :
    unescape (.ofChars ('\\' :: 'u' :: '{' :: (ds ++ ['}']))) =
      (codePointOf n).map fun p => [p] := by
  have hbody : (Text.ofChars ('\\' :: 'u' :: '{' :: (ds ++ ['}']))).drop 1 =
      Text.ofChars ('u' :: '{' :: (ds ++ ['}'])) := rfl
  have hdigits : ((Text.ofChars ('u' :: '{' :: (ds ++ ['}']))).drop 2).dropLast =
      Text.ofChars ds := by
    simp [Text.ofChars]
  have hopen : Text.startsWith (.ofChars ('u' :: '{' :: (ds ++ ['}']))) "u\x7b" = true :=
    startsWith_ofChars _ ['u', '{']
  have hclose : Text.endsWith (.ofChars ('u' :: '{' :: (ds ++ ['}']))) "\x7d" = true :=
    List.isSuffixOf_iff_suffix.2 ⟨Text.ofChars ('u' :: '{' :: ds), by
      simp [Text.ofChars, Text.ofString]⟩
  simp only [unescape, hbody, lookup_letterEscapes_of_two, hdigits, hopen, hclose,
    Numeral.hexadecimal?_ofChars hne number]
  rfl

/-- Without a mark, a sequence denotes a character by its letter, or nothing behind a line end, or
its characters. -/
theorem unescape_unmarked (hc : c ≠ 'x' ∧ c ≠ 'u') (r : List Char) :
    unescape (.ofChars ('\\' :: c :: r)) =
      .ok ((letterEscapes.lookup (.ofChars (c :: r))).getD
        (if ['\r', '\n'].isPrefixOf (c :: r) || ['\n'].isPrefixOf (c :: r) then []
          else .ofChars (c :: r))) := by
  have hbody : (Text.ofChars ('\\' :: c :: r)).drop 1 = Text.ofChars (c :: r) := rfl
  have hmark {d : Char} (t : List Char) (hd : c ≠ d) :
      Text.startsWith (.ofChars (c :: r)) (.ofChars (d :: t)) = false := by
    rw [startsWith_ofChars, List.isPrefixOf, beq_eq_false_iff_ne.2 hd.symm, Bool.false_and]
  have hopen : Text.startsWith (.ofChars (c :: r)) "u\x7b" = false := hmark ['{'] hc.2
  have hu : Text.startsWith (.ofChars (c :: r)) "u" = false := hmark [] hc.2
  have hx : Text.startsWith (.ofChars (c :: r)) "x" = false := hmark [] hc.1
  have hreturn : Text.startsWith (.ofChars (c :: r)) "\r\n" = ['\r', '\n'].isPrefixOf (c :: r) :=
    startsWith_ofChars _ _
  have hfeed : Text.startsWith (.ofChars (c :: r)) "\n" = ['\n'].isPrefixOf (c :: r) :=
    startsWith_ofChars _ _
  simp only [unescape, hbody, hopen, hu, hx, hreturn, hfeed, Bool.false_and, Bool.false_or,
    Bool.false_eq_true, if_false]
  cases letterEscapes.lookup (.ofChars (c :: r)) with
  | some t => rfl
  | none => exact (apply_ite Except.ok _ _ _).symm

end Values

/-- A number in braces that is beyond those of the code points. -/
def IsBeyond (s : List Char) : Prop :=
  ∃ ds n, s = '\\' :: 'u' :: '{' :: (ds ++ ['}']) ∧ hexValue? ds = some n ∧ 0x110000 ≤ n

theorem exists_val_of_digits {ds : List Char} (hdigits : ∀ d ∈ ds, isHexDigit d)
    (hlength : ds.length ≤ 4) : ∃ p : CodePoint, hexValue? ds = some p.val := by
  obtain ⟨n, hn⟩ := exists_hexValue? hdigits
  have hpow : 16 ^ ds.length ≤ 16 ^ 4 := Nat.pow_le_pow_right (by decide) hlength
  obtain ⟨p, -, hp⟩ := CodePoint.exists_ofNat? (n := n) (by have := hexValue?_lt hn; omega)
  exact ⟨p, by rw [hn, hp]⟩

/-- A sequence that is read denotes a text, unless its number is beyond those of the code points. -/
theorem unescape_ok_iff {s : List Char} (h : EscapeSequence s) :
    (∃ t, unescape (.ofChars s) = .ok t) ↔ ¬ IsBeyond s := by
  cases h with
  | byte digits =>
    obtain ⟨p, hp⟩ := exists_val_of_digits digits (by simp)
    refine iff_of_true ⟨_, unescape_hexadecimal (.inl rfl) (List.cons_ne_nil _ _) hp⟩ ?_
    rintro ⟨ds, n, hs, -⟩
    cases hs
  | unit digits =>
    obtain ⟨p, hp⟩ := exists_val_of_digits digits (by simp)
    refine iff_of_true ⟨_, unescape_hexadecimal (.inr rfl) (List.cons_ne_nil _ _) hp⟩ ?_
    rintro ⟨ds, n, hs, -⟩
    exact ne_brace_of_isHexDigit (digits _ List.mem_cons_self)
      (List.cons.inj (List.cons.inj (List.cons.inj hs).2).2).1
  | @braced ds nonempty digits =>
    obtain ⟨n, hn⟩ := exists_hexValue? digits
    rw [unescape_braced nonempty hn]
    by_cases hlt : n < 0x110000
    · obtain ⟨p, -, rfl⟩ := CodePoint.exists_ofNat? hlt
      refine iff_of_true ⟨[p], by rw [codePointOf_val]; rfl⟩ ?_
      rintro ⟨ds', m, hs, hm, hbeyond⟩
      obtain rfl := List.append_cancel_right (List.cons.inj (List.cons.inj (List.cons.inj hs).2).2).2
      rw [hn, Option.some.injEq] at hm
      omega
    · obtain ⟨e, he⟩ := codePointOf_beyond (Nat.le_of_not_lt hlt)
      rw [he]
      exact iff_of_false nofun (not_not_intro ⟨ds, n, rfl, hn, Nat.le_of_not_lt hlt⟩)
  | other unmarked =>
    refine iff_of_true ⟨_, unescape_unmarked unmarked _⟩ ?_
    rintro ⟨ds, n, hs, -⟩
    exact unmarked.2 (List.cons.inj (List.cons.inj hs).2).1

/-! ### Which literals have a value -/

namespace Node

/-- An escape sequence as a node. -/
def IsEscape (n : Node) : Prop := ∃ s, n = .leaf .escape s ∧ EscapeSequence s

/-- A string literal with an escape sequence whose number is beyond those of the code points. -/
def IsSenseless (n : Node) : Prop :=
  n.kind = .string ∧ ∃ c ∈ n.children, c.kind = .escape ∧ IsBeyond c.text

variable {n : Node} {ns : List Node}

/-- What one node adds to the value of a literal. -/
def pieceValue : Node → Except EscapeError Text
  | .leaf .fragment s => .ok (.ofChars s)
  | .leaf .escape s => unescape (.ofChars s)
  | _ => .ok []

theorem pieceValue_of_other (hf : n.kind ≠ .fragment) (he : n.kind ≠ .escape) :
    n.pieceValue = .ok [] := by
  unfold pieceValue
  split
  · exact (hf rfl).elim
  · exact (he rfl).elim
  · rfl

/-- The value of a literal is that of its pieces, one after the other. -/
theorem literalValue_cons (n : Node) (ns : List Node) : literalValue (n :: ns) =
    n.pieceValue >>= fun t => literalValue ns >>= fun r => .ok (t ++ r) := by
  have hother : literalValue ns = Except.ok [] >>= fun t => literalValue ns >>= fun r =>
      .ok (t ++ r) := by
    cases literalValue ns <;> rfl
  cases n with
  | branch k cs => exact hother
  | leaf k s => cases k <;> first | exact hother | rfl

/-- A literal has a value if each of its pieces has one. -/
theorem literalValue_cons_ok_iff : (∃ t, literalValue (n :: ns) = .ok t) ↔
    (∃ t, n.pieceValue = .ok t) ∧ ∃ t, literalValue ns = .ok t := by
  simp only [literalValue_cons, exceptBind_eq_ok]
  constructor
  · rintro ⟨-, t, ht, r, hr, -⟩
    exact ⟨⟨t, ht⟩, r, hr⟩
  · rintro ⟨⟨t, ht⟩, r, hr⟩
    exact ⟨_, t, ht, r, hr, rfl⟩

theorem pieceValue_ok_iff (h : n.kind = .escape → n.IsEscape) :
    (∃ t, n.pieceValue = .ok t) ↔ (n.kind = .escape → ¬ IsBeyond n.text) := by
  by_cases he : n.kind = .escape
  · obtain ⟨s, rfl, hs⟩ := h he
    rw [forall_prop_of_true he, text_leaf]
    exact unescape_ok_iff hs
  · refine iff_of_true ?_ fun hk => (he hk).elim
    by_cases hf : ∃ s, n = .leaf .fragment s
    · obtain ⟨s, rfl⟩ := hf
      exact ⟨_, rfl⟩
    · refine ⟨[], ?_⟩
      unfold pieceValue
      split
      · exact (hf ⟨_, rfl⟩).elim
      · exact (he rfl).elim
      · rfl

theorem literalValue_ok_iff (h : ∀ c ∈ ns, c.kind = .escape → c.IsEscape) :
    (∃ t, literalValue ns = .ok t) ↔ ∀ c ∈ ns, c.kind = .escape → ¬ IsBeyond c.text := by
  induction ns with
  | nil => exact iff_of_true ⟨[], rfl⟩ (List.forall_mem_nil _)
  | cons c ns ih =>
    rw [List.forall_mem_cons] at h ⊢
    rw [literalValue_cons_ok_iff, pieceValue_ok_iff h.1, ih h.2]

/-- A string literal has a value if all of its escape sequences have one. -/
theorem stringValue?_ok_iff (h : ∀ c ∈ n.children, c.kind = .escape → c.IsEscape) :
    (∃ t, n.stringValue? = .ok t) ↔ ¬ n.IsSenseless := by
  rw [stringValue?]
  by_cases hk : n.kind = .string
  · have hall : ¬ n.IsSenseless ↔ ∀ c ∈ n.children, c.kind = .escape → ¬ IsBeyond c.text :=
      ⟨fun hs c hc he hb => hs ⟨hk, c, hc, he, hb⟩, fun hs ⟨_, c, hc, he, hb⟩ => hs c hc he hb⟩
    rw [if_pos hk, hall, ← literalValue_ok_iff h]
    constructor
    · rintro ⟨t, ht⟩
      obtain ⟨v, hv, -⟩ := exceptMap_eq_ok.1 ht
      exact ⟨v, hv⟩
    · rintro ⟨v, hv⟩
      exact ⟨some v, exceptMap_eq_ok.2 ⟨v, hv, rfl⟩⟩
  · rw [if_neg hk]
    exact iff_of_true ⟨none, rfl⟩ fun hs => hk hs.1

/-- The same holds of the name that a pair or a field is written under. -/
theorem keyName?_ok_iff (h : ∀ c ∈ n.children, c.kind = .escape → c.IsEscape) :
    (∃ t, n.keyName? = .ok t) ↔ ¬ n.IsSenseless := by
  by_cases hk : n.kind = .string
  · have hkey : n.keyName? = n.stringValue? := by rw [keyName?, hk]
    rw [hkey]
    exact stringValue?_ok_iff h
  · refine iff_of_true ?_ fun hs => hk hs.1
    unfold keyName?
    split
    · next hstring => exact (hk hstring).elim
    all_goals exact ⟨_, rfl⟩

end Node

theorem grammar_readsOnly_escape (dialect : Dialect) (n : Nonterminal) :
    (grammar dialect n).readsOnly .escape [.escape] := by
  cases dialect <;> cases n <;> decide +kernel

/-- In the tree of a file, the escape sequences are as they are read. -/
theorem escape_of_parse? {dialect : Dialect} {source : List Char} {tree : Node}
    (h : parse? dialect source = some tree) :
    tree.Everywhere fun n => n.kind = .escape → n.IsEscape := by
  obtain ⟨nodes, rfl, hreads⟩ := reads_of_parse? h
  have hall := hreads.readOnly (by decide) (by decide) (grammar_readsOnly_escape dialect)
    (by decide +kernel)
  refine .branch nofun fun x hx => (hall x hx).mono fun n hn hk => ?_
  obtain ⟨lexeme, hl, s, k, fits, rfl⟩ := hn hk
  obtain rfl := List.mem_singleton.1 hl
  exact ⟨_, rfl, Lexeme.escapeSequence_of_measure fits⟩

end CustomElements.TypeScript
