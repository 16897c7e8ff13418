import CustomElements.Json.Printer
import CustomElements.Proofs.Json.StringLiteral

/-!
# Quoting

A quoted text is a string literal that reads as the same units. It holds printable ASCII characters
only, so that no text, whatever it is made of, gets out of its quotes or off its line.
-/

namespace CustomElements.Json

theorem hexDigitValue?_hexDigit (n : Nat) : hexDigitValue? (hexDigit n) = some (n % 16) := by
  have hdigit : ∀ k < 16, hexDigitValue? (Nat.digitChar k) = some k := by decide
  exact hdigit _ (Nat.mod_lt _ (by omega))

theorem hexValue?_hexDigits {n : Nat} (h : n < 0x10000) :
    hexValue? [hexDigit (n / 4096), hexDigit (n / 256), hexDigit (n / 16), hexDigit n] =
      some n := by
  have hsum : (((0 * 16 + n / 4096 % 16) * 16 + n / 256 % 16) * 16 + n / 16 % 16) * 16 + n % 16 =
      n := by
    omega
  simp only [hexValue?, List.foldlM_cons, List.foldlM_nil, hexDigitValue?_hexDigit,
    Option.map_some, Option.bind_eq_bind, Option.bind_some, Option.pure_def, hsum]

/-- The escape of a unit is a piece that stands for it. -/
theorem exists_piece_unitEscape {n : Nat} (h : n < 0x10000) :
    ∃ piece : StringPiece, unitEscape n = piece.text ∧ piece.units = [n] :=
  ⟨.unit _ _ _ _ n (hexValue?_hexDigits h), rfl, rfl⟩

/-- What stands for a code point in a quoted text are pieces with its units. -/
theorem exists_pieces_escapePoint (p : CodePoint) :
    ∃ ps, escapePoint p = piecesText ps ∧ ps.flatMap StringPiece.units = p.units := by
  unfold escapePoint
  split
  · exact ⟨[.short (.scalar '"') '"' rfl], rfl, rfl⟩
  · exact ⟨[.short (.scalar '\\') '\\' rfl], rfl, rfl⟩
  · exact ⟨[.short (.scalar 'n') '\n' rfl], rfl, rfl⟩
  · exact ⟨[.short (.scalar 'r') '\r' rfl], rfl, rfl⟩
  · exact ⟨[.short (.scalar 't') '\t' rfl], rfl, rfl⟩
  · exact ⟨[.short (.scalar 'f') '\x0c' rfl], rfl, rfl⟩
  · exact ⟨[.short (.scalar 'b') '\x08' rfl], rfl, rfl⟩
  · next hquote hslash _ _ _ _ _ =>
    dsimp only
    split
    · next hprinted =>
      rw [Bool.and_eq_true, decide_eq_true_eq, decide_eq_true_eq] at hprinted
      exact ⟨[.plain p hprinted.1 ⟨hquote, hslash⟩], rfl, List.append_nil _⟩
    · split
      · next hsmall =>
        obtain ⟨piece, ht, hu⟩ := exists_piece_unitEscape hsmall
        refine ⟨[piece], ?_, ?_⟩
        · rw [ht, piecesText_cons, piecesText_nil, List.append_nil]
        · rw [List.flatMap_singleton, hu, CodePoint.units, if_pos hsmall]
      · next hlarge =>
        have hbound := p.val_lt
        obtain ⟨high, ht, hu⟩ := @exists_piece_unitEscape (0xD800 + (p.val - 0x10000) / 0x400)
          (by omega)
        obtain ⟨low, ht', hu'⟩ := @exists_piece_unitEscape (0xDC00 + (p.val - 0x10000) % 0x400)
          (by omega)
        refine ⟨[high, low], ?_, ?_⟩
        · rw [ht, ht', piecesText_cons, piecesText_cons, piecesText_nil, List.append_nil]
        · rw [List.flatMap_cons, List.flatMap_singleton, hu, hu', CodePoint.units, if_neg hlarge]
          rfl

/-- A quoted text is a string literal with the units of the text. -/
theorem exists_pieces_quote (t : Text) :
    ∃ ps, quote t = .scalar '"' :: (piecesText ps ++ [.scalar '"']) ∧
      (decode ps).units = t.units := by
  have hbody : ∃ ps, t.flatMap escapePoint = piecesText ps ∧
      ps.flatMap StringPiece.units = t.units := by
    induction t with
    | nil => exact ⟨[], rfl, rfl⟩
    | cons p t ih =>
      obtain ⟨ps, ht, hu⟩ := exists_pieces_escapePoint p
      obtain ⟨qs, ht', hu'⟩ := ih
      refine ⟨ps ++ qs, ?_, ?_⟩
      · rw [List.flatMap_cons, ht, ht', piecesText, piecesText, piecesText, List.flatMap_append]
      · rw [List.flatMap_append, hu, hu', Text.units, Text.units, List.flatMap_cons]
  obtain ⟨ps, ht, hu⟩ := hbody
  refine ⟨ps, ?_, ?_⟩
  · rw [quote, ht]
    rfl
  · rw [units_decode, hu]

/-- A printable ASCII character. -/
def IsPrintable (p : CodePoint) : Prop := 0x20 ≤ p.val ∧ p.val ≤ 0x7E

instance (p : CodePoint) : Decidable (IsPrintable p) := inferInstanceAs (Decidable (_ ∧ _))

theorem unitEscape_printable (n : Nat) : ∀ p ∈ unitEscape n, IsPrintable p := by
  have hdigit : ∀ k < 16, IsPrintable (.scalar (Nat.digitChar k)) := by decide
  have hhex (m : Nat) : IsPrintable (.scalar (hexDigit m)) := hdigit _ (Nat.mod_lt _ (by omega))
  intro p hp
  simp only [unitEscape, Text.ofChars, List.map_cons, List.map_nil, List.mem_cons,
    List.not_mem_nil, or_false] at hp
  rcases hp with rfl | rfl | rfl | rfl | rfl | rfl
  · decide
  · decide
  all_goals exact hhex _

theorem escapePoint_printable (p : CodePoint) : ∀ q ∈ escapePoint p, IsPrintable q := by
  unfold escapePoint
  split
  iterate 7 decide
  · dsimp only
    split
    · next hprinted =>
      rw [Bool.and_eq_true, decide_eq_true_eq, decide_eq_true_eq] at hprinted
      intro q hq
      obtain rfl := List.mem_singleton.1 hq
      exact hprinted
    · split
      · exact unitEscape_printable _
      · intro q hq
        rcases List.mem_append.1 hq with hq | hq
        · exact unitEscape_printable _ q hq
        · exact unitEscape_printable _ q hq

theorem quote_printable (t : Text) : ∀ q ∈ quote t, IsPrintable q := by
  have hquotes : ∀ q ∈ ("\"" : Text), IsPrintable q := by decide
  intro q hq
  rw [quote, List.mem_append, List.mem_append, List.mem_flatMap] at hq
  rcases hq with (hq | ⟨p, _, hq⟩) | hq
  · exact hquotes q hq
  · exact escapePoint_printable p q hq
  · exact hquotes q hq

end CustomElements.Json
