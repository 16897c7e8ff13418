import CustomElements.Proofs.Json.Rendering

/-!
# Comments and trailing commas are taken out

The first pass takes the comments out of the text of a rendering, the second one its trailing
commas; neither touches anything else. Both run over the chunks: a string literal is skipped as a
whole, and the text behind a comma tells the two kinds of commas apart.
-/

namespace CustomElements.Json

/-- A character that neither begins a string or a comment nor separates entries. -/
def IsMark (p : CodePoint) : Prop := p ≠ .scalar '"' ∧ p ≠ .scalar '/' ∧ p ≠ .scalar ','

instance (p : CodePoint) : Decidable (IsMark p) := inferInstanceAs (Decidable (_ ∧ _))

/-- A chunk without quotes, slashes and commas. -/
def Chunk.isMark : Chunk → Bool
  | space .. | opening _ | closing _ | colon | word _ | number _ => true
  | line .. | block .. | comma | trailingComma | string _ => false

theorem isMark_of_isSpace {p : CodePoint} (h : isSpace p) : IsMark p := by
  cases p with
  | surrogate k => cases h
  | scalar c =>
    simp only [isSpace, Bool.or_eq_true, beq_iff_eq] at h
    rcases h with ((rfl | rfl) | rfl) | rfl <;> decide

theorem isMark_of_isDigit {c : Char} (h : c.isDigit) : IsMark (.scalar c) := by
  refine ⟨?_, ?_, ?_⟩ <;> rintro ⟨rfl⟩ <;> cases h

theorem Digits.text_isMark (d : Digits) : ∀ p ∈ d.text, IsMark p := by
  intro p hp
  obtain ⟨c, hc, rfl⟩ := List.mem_map.1 hp
  exact isMark_of_isDigit (d.decimal c hc)

theorem NumberLiteral.text_isMark (n : NumberLiteral) : ∀ p ∈ n.text, IsMark p := by
  have hfraction : ∀ p ∈ fractionText n.fraction, IsMark p := by
    cases n.fraction with
    | none => exact List.forall_mem_nil _
    | some d => exact List.forall_mem_cons.2 ⟨by decide, d.text_isMark⟩
  have hexponent : ∀ p ∈ exponentText n.exponent, IsMark p := by
    cases n.exponent with
    | none => exact List.forall_mem_nil _
    | some e =>
      have hletter : IsMark (.scalar e.letter) := by
        rcases e.isLetter with h | h <;> rw [h] <;> decide
      have hsign : ∀ p ∈ e.sign.text, IsMark p := by
        cases e.sign <;> decide
      exact List.forall_mem_cons.2
        ⟨hletter, List.forall_mem_append.2 ⟨hsign, e.digits.text_isMark⟩⟩
  have hmagnitude : ∀ p ∈ n.magnitude, IsMark p :=
    List.forall_mem_append.2 ⟨List.forall_mem_append.2 ⟨n.whole.text_isMark, hfraction⟩, hexponent⟩
  rw [text]
  split
  · exact List.forall_mem_cons.2 ⟨by decide, hmagnitude⟩
  · exact hmagnitude

theorem Chunk.text_isMark {c : Chunk} (h : c.isMark) : ∀ p ∈ c.text, IsMark p := by
  cases c with
  | space p blank => exact List.forall_mem_singleton.2 (isMark_of_isSpace blank)
  | opening s | closing s => cases s <;> decide
  | colon => decide
  | word w => cases w <;> decide
  | number n => exact n.text_isMark
  | line | block | comma | trailingComma | string => cases h

section Comments

theorem stripComments_plain {t : Text} (h : ∀ p ∈ t, p ≠ .scalar '"' ∧ p ≠ .scalar '/')
    (rest : Text) : stripComments (t ++ rest) = t ++ stripComments rest := by
  induction t with
  | nil => rfl
  | cons p t ih =>
    obtain ⟨hp, ht⟩ := List.forall_mem_cons.1 h
    rw [List.cons_append, stripComments, ih ht, List.cons_append]
    · exact fun _ hslash => absurd hslash hp.2
    · exact fun _ hslash => absurd hslash hp.2
    · exact hp.1

theorem keepString_plain {p : CodePoint} (h : p ≠ .scalar '"' ∧ p ≠ .scalar '\\') (rest : Text) :
    keepString (p :: rest) = p :: keepString rest := by
  rw [keepString]
  · exact fun _ _ hslash => absurd hslash h.2
  · exact h.1

/-- The digits of an escape are no quotes and no backslashes. -/
theorem plain_of_hexDigit {c : Char} {k : Nat} (h : hexDigitValue? c = some k) :
    CodePoint.scalar c ≠ .scalar '"' ∧ CodePoint.scalar c ≠ .scalar '\\' := by
  constructor <;> rintro ⟨rfl⟩ <;> cases h

theorem exists_hexDigits {a b c d : Char} {n : Nat} (h : hexValue? [a, b, c, d] = some n) :
    ∀ x ∈ [a, b, c, d], ∃ k, hexDigitValue? x = some k := by
  simp only [hexValue?, List.foldlM_cons, List.foldlM_nil, Option.bind_eq_bind,
    Option.bind_eq_some_iff, Option.map_eq_some_iff] at h
  obtain ⟨_, ⟨i, ha, _⟩, _, ⟨j, hb, _⟩, _, ⟨k, hc, _⟩, _, ⟨l, hd, _⟩, _⟩ := h
  simp [ha, hb, hc, hd]

theorem keepString_piece (piece : StringPiece) (rest : Text) :
    keepString (piece.text ++ rest) = piece.text ++ keepString rest := by
  cases piece with
  | plain p _ inside => exact keepString_plain inside rest
  | short e c escape => rfl
  | unit a b c d n digits =>
    have hdigit (x : Char) (hx : x ∈ [a, b, c, d]) := (exists_hexDigits digits x hx).elim
      fun _ => plain_of_hexDigit
    simp only [StringPiece.text, Text.ofChars, List.map_cons, List.map_nil, List.cons_append,
      List.nil_append]
    rw [keepString, keepString_plain (hdigit a (by simp)), keepString_plain (hdigit b (by simp)),
      keepString_plain (hdigit c (by simp)), keepString_plain (hdigit d (by simp))]

theorem keepString_pieces (ps : List StringPiece) (rest : Text) :
    keepString (piecesText ps ++ .scalar '"' :: rest) =
      piecesText ps ++ .scalar '"' :: stripComments rest := by
  induction ps with
  | nil => rfl
  | cons p ps ih =>
    rw [piecesText_cons, List.append_assoc, keepString_piece, ih, List.append_assoc]

theorem stripLine_body {body : Text} (h : .scalar '\n' ∉ body) (rest : Text) :
    stripLine (body ++ .scalar '\n' :: rest) = .scalar '\n' :: stripComments rest := by
  induction body with
  | nil => rfl
  | cons p body ih =>
    rw [List.mem_cons, not_or] at h
    rw [List.cons_append, stripLine, ih h.2]
    exact Ne.symm h.1

theorem stripLine_last {body : Text} (h : .scalar '\n' ∉ body) : stripLine body = [] := by
  induction body with
  | nil => rfl
  | cons p body ih =>
    rw [List.mem_cons, not_or] at h
    rw [stripLine, ih h.2]
    exact Ne.symm h.1

theorem stripBlock_body {body : Text} (h : ¬[.scalar '*', .scalar '/'] <:+: body) (rest : Text) :
    stripBlock (body ++ .scalar '*' :: .scalar '/' :: rest) = stripComments rest := by
  induction body with
  | nil => rfl
  | cons p body ih =>
    have hbody : ¬[.scalar '*', .scalar '/'] <:+: body :=
      fun hm => h (hm.trans (List.suffix_cons p body).isInfix)
    rw [List.cons_append, stripBlock, ih hbody]
    rintro r rfl hr
    cases body with
    | nil => cases hr
    | cons q body =>
      obtain ⟨rfl, _⟩ := List.cons.inj hr
      exact h ⟨[], body, rfl⟩

/-- The chunks that the first pass leaves. -/
def uncommented (cs : List Chunk) : List Chunk := cs.filter fun c => !c.isComment

theorem uncommented_cons {c : Chunk} (h : c.isComment = false) (cs : List Chunk) :
    uncommented (c :: cs) = c :: uncommented cs := List.filter_cons_of_pos (by rw [h]; rfl)

theorem uncommented_comment {c : Chunk} (h : c.isComment) (cs : List Chunk) :
    uncommented (c :: cs) = uncommented cs := List.filter_cons_of_neg (by rw [h]; decide)

/-- Each chunk is what it looks like where it stands: a line comment goes on to the end of its
line, and only behind a trailing comma a closing bracket is next. -/
def WellPlaced : List Chunk → Prop
  | [] => True
  | .line _ _ :: cs =>
    (cs = [] ∨ ∃ ds, cs = .space (.scalar '\n') rfl :: ds) ∧ WellPlaced cs
  | .comma :: cs => closesNext (textOf (uncommented cs)) = false ∧ WellPlaced cs
  | .trailingComma :: cs => closesNext (textOf (uncommented cs)) = true ∧ WellPlaced cs
  | _ :: cs => WellPlaced cs

theorem WellPlaced.tail {c : Chunk} {cs : List Chunk} (h : WellPlaced (c :: cs)) :
    WellPlaced cs := by
  cases c with
  | line | comma | trailingComma => exact h.2
  | space | block | opening | closing | colon | word | number | string => exact h

/-- The first pass keeps a chunk that is no comment. -/
theorem stripComments_chunk {c : Chunk} (h : c.isComment = false) (rest : Text) :
    stripComments (c.text ++ rest) = c.text ++ stripComments rest := by
  have hmark (hc : c.isMark) :=
    stripComments_plain (fun p hp => ⟨(c.text_isMark hc p hp).1, (c.text_isMark hc p hp).2.1⟩) rest
  cases c with
  | line | block => cases h
  | comma | trailingComma => rfl
  | string pieces =>
    rw [Chunk.text, List.cons_append, List.append_assoc, stripComments, List.singleton_append,
      keepString_pieces, List.cons_append, List.append_assoc, List.singleton_append]
  | space | opening | closing | colon | word | number => exact hmark rfl

/-- The first pass takes out the comments. -/
theorem stripComments_textOf {cs : List Chunk} (h : WellPlaced cs) :
    stripComments (textOf cs) = textOf (uncommented cs) := by
  induction cs with
  | nil => rfl
  | cons c cs ih =>
    have hrest := ih h.tail
    have hkept (hc : c.isComment = false) :
        stripComments (textOf (c :: cs)) = textOf (uncommented (c :: cs)) := by
      rw [uncommented_cons hc, textOf_cons, stripComments_chunk hc, hrest, textOf_cons]
    cases c with
    | line body inLine =>
      rw [uncommented_comment rfl, ← hrest]
      obtain ⟨rfl | ⟨ds, rfl⟩, _⟩ := h
      · rw [textOf_cons, textOf_nil, List.append_nil]
        exact stripLine_last inLine
      · exact stripLine_body inLine (textOf ds)
    | block body unclosed =>
      rw [uncommented_comment rfl, ← hrest, textOf_cons, Chunk.text, List.cons_append,
        List.cons_append, List.append_assoc]
      exact stripBlock_body unclosed (textOf cs)
    | space | opening | closing | colon | comma | trailingComma | word | number | string =>
      exact hkept rfl

end Comments

section TrailingCommas

theorem stripTrailingCommas_plain {t : Text} (h : ∀ p ∈ t, p ≠ .scalar '"' ∧ p ≠ .scalar ',')
    (rest : Text) : stripTrailingCommas (t ++ rest) = t ++ stripTrailingCommas rest := by
  induction t with
  | nil => rfl
  | cons p t ih =>
    obtain ⟨hp, ht⟩ := List.forall_mem_cons.1 h
    rw [List.cons_append, stripTrailingCommas, ih ht, List.cons_append]
    · exact hp.1
    · exact hp.2

theorem keepQuoted_plain {p : CodePoint} (h : p ≠ .scalar '"' ∧ p ≠ .scalar '\\') (n : Nat)
    (rest : Text) : keepQuoted n (p :: rest) = p :: keepQuoted 0 rest := by
  rw [keepQuoted]
  · exact h.1
  · exact h.2

/-- After a whole piece an even number of backslashes stands before the next character, so that a
quote there ends the string. -/
theorem keepQuoted_piece (piece : StringPiece) {n : Nat} (hn : n % 2 = 0) (rest : Text) :
    ∃ m, m % 2 = 0 ∧ keepQuoted n (piece.text ++ rest) = piece.text ++ keepQuoted m rest := by
  cases piece with
  | plain p _ inside => exact ⟨0, rfl, keepQuoted_plain inside n rest⟩
  | short e c escape =>
    by_cases hquote : e = .scalar '"'
    · subst hquote
      refine ⟨0, rfl, ?_⟩
      have hodd : ((n + 1) % 2 == 1) = true := by
        rw [beq_iff_eq]
        omega
      simp [StringPiece.text, keepQuoted, hodd]
    · by_cases hslash : e = .scalar '\\'
      · subst hslash
        exact ⟨n + 2, by omega, rfl⟩
      · refine ⟨0, rfl, ?_⟩
        rw [StringPiece.text, List.cons_append, keepQuoted, List.singleton_append,
          keepQuoted_plain ⟨hquote, hslash⟩, List.cons_append, List.singleton_append]
  | unit a b c d k digits =>
    have hdigit (x : Char) (hx : x ∈ [a, b, c, d]) := (exists_hexDigits digits x hx).elim
      fun _ => plain_of_hexDigit
    have hu : CodePoint.scalar 'u' ≠ .scalar '"' ∧ CodePoint.scalar 'u' ≠ .scalar '\\' := by decide
    refine ⟨0, rfl, ?_⟩
    simp only [StringPiece.text, Text.ofChars, List.map_cons, List.map_nil, List.cons_append,
      List.nil_append]
    rw [keepQuoted, keepQuoted_plain hu, keepQuoted_plain (hdigit a (by simp)),
      keepQuoted_plain (hdigit b (by simp)), keepQuoted_plain (hdigit c (by simp)),
      keepQuoted_plain (hdigit d (by simp))]

theorem keepQuoted_pieces (ps : List StringPiece) {n : Nat} (hn : n % 2 = 0) (rest : Text) :
    keepQuoted n (piecesText ps ++ .scalar '"' :: rest) =
      piecesText ps ++ .scalar '"' :: stripTrailingCommas rest := by
  induction ps generalizing n with
  | nil =>
    have heven : (n % 2 == 1) = false := by
      rw [hn]
      rfl
    simp [keepQuoted, heven]
  | cons p ps ih =>
    obtain ⟨m, hm, hp⟩ := keepQuoted_piece p hn (piecesText ps ++ .scalar '"' :: rest)
    rw [piecesText_cons, List.append_assoc, hp, ih hm, List.append_assoc]

/-- The second pass takes out the trailing commas. -/
theorem stripTrailingCommas_textOf {cs : List Chunk} (h : WellPlaced cs) :
    stripTrailingCommas (textOf (uncommented cs)) = textOf (cs.filter Chunk.isPlain) := by
  induction cs with
  | nil => rfl
  | cons c cs ih =>
    have hrest := ih h.tail
    have hmark (hc : c.isMark) (hcomment : c.isComment = false) (hplain : c.isPlain) :
        stripTrailingCommas (textOf (uncommented (c :: cs))) =
          textOf ((c :: cs).filter Chunk.isPlain) := by
      have htext := stripTrailingCommas_plain
        (fun p hp => ⟨(c.text_isMark hc p hp).1, (c.text_isMark hc p hp).2.2⟩)
        (textOf (uncommented cs))
      rw [uncommented_cons hcomment, textOf_cons, htext, hrest, List.filter_cons_of_pos hplain,
        textOf_cons]
    cases c with
    | line | block => exact hrest
    | comma =>
      rw [uncommented_cons rfl, textOf_cons, List.filter_cons_of_pos rfl, textOf_cons, ← hrest,
        Chunk.text, List.singleton_append, stripTrailingCommas, h.1]
      rfl
    | trailingComma =>
      rw [uncommented_cons rfl, textOf_cons, List.filter_cons_of_neg (by decide), ← hrest,
        Chunk.text, List.singleton_append, stripTrailingCommas, if_pos h.1]
    | string pieces =>
      rw [uncommented_cons rfl, textOf_cons, List.filter_cons_of_pos rfl, textOf_cons, ← hrest,
        Chunk.text, List.cons_append, List.append_assoc, stripTrailingCommas, List.singleton_append,
        keepQuoted_pieces pieces rfl, List.cons_append, List.append_assoc, List.singleton_append]
    | space | opening | closing | colon | word | number => exact hmark rfl rfl rfl

end TrailingCommas

theorem plain_textOf {cs : List Chunk} (h : WellPlaced cs) :
    plain (textOf cs) = textOf (cs.filter Chunk.isPlain) := by
  rw [plain, stripComments_textOf h, stripTrailingCommas_textOf h]

end CustomElements.Json
