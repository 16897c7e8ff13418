import Mathlib.Data.List.Chain
import CustomElements.Proofs.TypeScript.EscapeSequences
import CustomElements.Proofs.TypeScript.ObjectLiteral
import CustomElements.Proofs.TypeScript.Settling

/-!
# String literals, piece by piece

A string literal is written as a row of pieces between two quotes: characters that stand for
themselves, and escape sequences of several spellings. However the pieces are mixed, the reader cuts
the literal where one piece ends and the next one starts, and its value is what the pieces denote,
one after the other (`stringLiteral_of_pieces`).
-/

namespace CustomElements.TypeScript

open CustomElements

/-- The escapes of one letter, and the characters that they denote. -/
def letterValues : List (Char × Char) :=
  [('n', '\n'), ('r', '\r'), ('t', '\t'), ('b', '\x08'), ('f', '\x0c'), ('v', '\x0b')]

/-- A backslash before such a character does not change what it stands for. -/
def StandsForItself (c : Char) : Prop :=
  c ∉ "nrtbfvxu".toList ∧ c.isDigit = false ∧ Lexeme.isLineEnd c = false

instance : DecidablePred StandsForItself := fun _ => inferInstanceAs (Decidable (_ ∧ _))

theorem StandsForItself.ne {c d : Char} (h : StandsForItself c)
    (hd : d ∈ "nrtbfvxu0\n\r".toList) : c ≠ d := by
  have hall : "nrtbfvxu0\n\r".toList.all (fun d => !decide (StandsForItself d)) = true := by
    decide
  rintro rfl
  have hc := List.all_eq_true.1 hall c hd
  rw [decide_eq_true h] at hc
  cases hc

/-- An escape sequence with a meaning, by its spelling. -/
inductive LiteralEscape where
  | letter (c v : Char) (known : (c, v) ∈ letterValues)
  | null
  | byte (a b : Char) (p : CodePoint) (number : hexValue? [a, b] = some p.val)
  | unit (a b c d : Char) (p : CodePoint) (number : hexValue? [a, b, c, d] = some p.val)
  | braced (ds : List Char) (p : CodePoint) (nonempty : ds ≠ [])
      (number : hexValue? ds = some p.val)
  /-- The end of a line, which is no part of the text. -/
  | continuation (lineEnd : List Char) (ends : lineEnd = ['\n'] ∨ lineEnd = ['\r', '\n'])
  | itself (c : Char) (other : StandsForItself c)

namespace LiteralEscape

def spelling : LiteralEscape → List Char
  | letter c _ _ => ['\\', c]
  | null => ['\\', '0']
  | byte a b _ _ => ['\\', 'x', a, b]
  | unit a b c d _ _ => ['\\', 'u', a, b, c, d]
  | braced ds _ _ _ => '\\' :: 'u' :: '{' :: (ds ++ ['}'])
  | continuation lineEnd _ => '\\' :: lineEnd
  | itself c _ => ['\\', c]

/-- What the sequence denotes. -/
def value : LiteralEscape → Text
  | letter _ v _ => [.scalar v]
  | null => [.scalar '\x00']
  | byte _ _ p _ | unit _ _ _ _ p _ | braced _ p _ _ => [p]
  | continuation _ _ => []
  | itself c _ => [.scalar c]

def isNull : LiteralEscape → Bool
  | null => true
  | _ => false

theorem spelling_eq_cons (e : LiteralEscape) : ∃ c r, e.spelling = '\\' :: c :: r := by
  cases e with
  | continuation lineEnd ends => rcases ends with rfl | rfl <;> exact ⟨_, _, rfl⟩
  | _ => exact ⟨_, _, rfl⟩

/-- Each sequence is read as what it denotes. -/
theorem unescape_spelling (e : LiteralEscape) : unescape (.ofChars e.spelling) = .ok e.value := by
  cases e with
  | letter c v known =>
    have hall : ∀ l ∈ letterValues, unescape (.ofChars ['\\', l.1]) = .ok [.scalar l.2] := by
      decide
    exact hall _ known
  | null => decide
  | byte a b p number => exact unescape_hexadecimal (.inl rfl) (List.cons_ne_nil _ _) number
  | unit a b c d p number => exact unescape_hexadecimal (.inr rfl) (List.cons_ne_nil _ _) number
  | braced ds p nonempty number =>
    rw [spelling, unescape_braced nonempty number, codePointOf_val]
    rfl
  | continuation lineEnd ends => rcases ends with rfl | rfl <;> decide
  | itself c other =>
    have hnone : letterEscapes.lookup (.ofChars [c]) = none :=
      lookup_letterEscapes_of_not_mem fun hc =>
        other.ne ((by decide : "nrtbfv0".toList ⊆ "nrtbfvxu0\n\r".toList) hc) rfl
    have hfeed : c ≠ '\n' := other.ne (by decide)
    rw [spelling, unescape_unmarked ⟨other.ne (by decide), other.ne (by decide)⟩, hnone]
    simp [List.isPrefixOf, hfeed.symm, value, Text.ofChars]

end LiteralEscape

/-! ### Where a sequence ends -/

namespace Lexeme

/-- A row of characters ends where one of them does not satisfy `p`. -/
theorem span_append {p : Char → Bool} {s t : List Char} (hs : ∀ c ∈ s, p c)
    (ht : ∀ c ∈ t.head?, p c = false) : span p (s ++ t) = s.length := by
  induction s with
  | nil =>
    cases t with
    | nil => rfl
    | cons c r =>
      rw [List.nil_append, span, ht c rfl]
      rfl
  | cons c s ih =>
    rw [List.forall_mem_cons] at hs
    rw [List.cons_append, span, if_pos hs.1, ih hs.2]
    rfl

theorem span_of_forall {p : Char → Bool} {s : List Char} (hs : ∀ c ∈ s, p c) :
    span p s = s.length := by
  have h := span_append (t := []) hs nofun
  rwa [List.append_nil] at h

theorem span_cons_of_false {p : Char → Bool} {c : Char} (hc : p c = false) (r : List Char) :
    span p (c :: r) = 0 := span_append (s := []) (List.forall_mem_nil _) (by simpa using hc)

end Lexeme

namespace LiteralEscape

theorem not_octal_of_isDigit {c : Char} (h : c.isDigit = false) :
    (decide ('0' ≤ c) && decide (c ≤ '7')) = false := by
  rw [Bool.eq_false_iff] at h ⊢
  intro hoctal
  rw [Bool.and_eq_true, decide_eq_true_eq, decide_eq_true_eq] at hoctal
  refine h (Bool.and_eq_true_iff.2 ⟨decide_eq_true hoctal.1, decide_eq_true ?_⟩)
  exact UInt32.le_trans hoctal.2 (by decide : '7'.val ≤ '9'.val)

/-- A sequence ends with its spelling, but for a digit behind the escape of the null character. -/
theorem escapeLength_append (e : LiteralEscape) {r : List Char}
    (h : e.isNull → ∀ d ∈ r.head?, d.isDigit = false) :
    Lexeme.escapeLength (e.spelling ++ r) = e.spelling.length := by
  cases e with
  | letter c v known =>
    have hall : ∀ l ∈ letterValues, Lexeme.escapeLength ('\\' :: l.1 :: r) = 2 := by
      simp [letterValues, Lexeme.escapeLength]
    exact hall _ known
  | null =>
    have hoctal : Lexeme.span (fun d => '0' ≤ d && d ≤ '7') (r.take 2) = 0 := by
      cases r with
      | nil => rfl
      | cons d r => exact Lexeme.span_cons_of_false (not_octal_of_isDigit (h rfl d rfl)) _
    simp [spelling, Lexeme.escapeLength, hoctal]
  | byte a b p number =>
    have hdigits := Lexeme.span_of_forall (isHexDigit_of_hexValue? number)
    simp [spelling, Lexeme.escapeLength, hdigits]
  | unit a b c d p number =>
    have hdigits := Lexeme.span_of_forall (isHexDigit_of_hexValue? number)
    have hbrace : a ≠ '{' :=
      ne_brace_of_isHexDigit (isHexDigit_of_hexValue? number a List.mem_cons_self)
    simp only [spelling, List.cons_append, Lexeme.escapeLength]
    rw [if_neg (by decide), if_pos (by decide)]
    split
    · next q hq => exact (hbrace (List.cons.inj hq).1).elim
    · simp [hdigits]
  | braced ds p nonempty number =>
    have hdigits : Lexeme.span isHexDigit (ds ++ '}' :: r) = ds.length :=
      Lexeme.span_append (isHexDigit_of_hexValue? number) (by simp; decide)
    have hpos := List.length_pos_iff.2 nonempty
    simp [spelling, Lexeme.escapeLength, hdigits, hpos]
  | continuation lineEnd ends =>
    rcases ends with rfl | rfl <;> simp [spelling, Lexeme.escapeLength]
  | itself c other =>
    have hx : c ≠ 'x' := other.ne (by decide)
    have hu : c ≠ 'u' := other.ne (by decide)
    have hreturn : c ≠ '\r' := other.ne (by decide)
    simp only [spelling, Lexeme.escapeLength, List.cons_append, not_octal_of_isDigit other.2.1]
    simp [hx, hu, hreturn]

theorem measure_append (e : LiteralEscape) {r : List Char}
    (h : e.isNull → ∀ d ∈ r.head?, d.isDigit = false) :
    Lexeme.escape.measure (e.spelling ++ r) = some e.spelling.length := by
  obtain ⟨c, q, hq⟩ := e.spelling_eq_cons
  rw [Lexeme.measure, escapeLength_append e h, hq]
  rfl

end LiteralEscape

/-- A character that a string literal in the given quotes holds as it is. -/
def IsPlain (quote c : Char) : Prop := c ≠ quote ∧ c ≠ '\\' ∧ c ≠ '\n' ∧ c ≠ '\r'

instance (quote : Char) : DecidablePred (IsPlain quote) := fun _ =>
  inferInstanceAs (Decidable (_ ∧ _))

/-- A piece of a string literal in the given quotes. -/
inductive LiteralPiece (quote : Char) where
  | raw (c : Char) (plain : IsPlain quote c)
  | escape (e : LiteralEscape)

namespace LiteralPiece

variable {q : Char}

def spelling : LiteralPiece q → List Char
  | raw c _ => [c]
  | escape e => e.spelling

def value : LiteralPiece q → Text
  | raw c _ => [.scalar c]
  | escape e => e.value

/-- A digit right behind the escape of the null character would be a part of the escape. -/
def MayPrecede : LiteralPiece q → LiteralPiece q → Prop
  | escape e, raw d _ => e.isNull → d.isDigit = false
  | _, _ => True

instance : DecidableRel (MayPrecede (q := q))
  | escape e, raw d _ => inferInstanceAs (Decidable (e.isNull → d.isDigit = false))
  | raw .., _ | escape _, escape _ => .isTrue trivial

/-- The text of a literal. -/
def literalText (ps : List (LiteralPiece q)) : List Char := q :: (ps.flatMap spelling ++ [q])

/-- Characters in a row are one fragment. -/
def fragment : List Char → List Node
  | [] => []
  | raws => [.leaf .fragment raws]

/-- The nodes of a row of pieces, behind some characters that stand for themselves. -/
def nodesFrom (raws : List Char) : List (LiteralPiece q) → List Node
  | [] => fragment raws
  | raw c _ :: ps => nodesFrom (raws ++ [c]) ps
  | escape e :: ps => fragment raws ++ .leaf .escape e.spelling :: nodesFrom [] ps

/-- The literal with its fragments and escape sequences as nodes. -/
def literalNode (ps : List (LiteralPiece q)) : Node :=
  .branch .string (Node.mark q :: (nodesFrom [] ps ++ [Node.mark q]))

theorem literalValue_fragment (raws : List Char) {ns : List Node} {t : Text}
    (h : Node.literalValue ns = .ok t) :
    Node.literalValue (fragment raws ++ ns) = .ok (Text.ofChars raws ++ t) := by
  cases raws with
  | nil => exact h
  | cons c raws =>
    show Node.literalValue (.leaf .fragment (c :: raws) :: ns) = _
    rw [Node.literalValue_cons, h]
    rfl

/-- The nodes of the pieces denote what the pieces denote. -/
theorem literalValue_nodesFrom (raws : List Char) (ps : List (LiteralPiece q)) :
    Node.literalValue (nodesFrom raws ps ++ [Node.mark q]) =
      .ok (Text.ofChars raws ++ ps.flatMap value) := by
  induction ps generalizing raws with
  | nil => exact literalValue_fragment raws rfl
  | cons p ps ih =>
    cases p with
    | raw c plain =>
      rw [nodesFrom, ih, List.flatMap_cons, Text.ofChars, List.map_append, List.append_assoc]
      rfl
    | escape e =>
      rw [nodesFrom, List.append_assoc, List.cons_append]
      refine literalValue_fragment raws ?_
      rw [Node.literalValue_cons, Node.pieceValue, e.unescape_spelling, ih []]
      rfl

theorem stringValue?_literalNode (ps : List (LiteralPiece q)) :
    (literalNode ps).stringValue? = .ok (some (ps.flatMap value)) := by
  have hvalue : Node.literalValue (literalNode ps).children = .ok (ps.flatMap value) := by
    rw [literalNode, Node.children, Node.literalValue_cons, literalValue_nodesFrom]
    rfl
  have hkind : (literalNode ps).kind = .string := rfl
  rw [Node.stringValue?, if_pos hkind, hvalue]
  rfl

/-! ### How the reader cuts a literal -/

section Reading

open Rule Grammar

variable {g : Nonterminal → Rule Nonterminal} {depth : Nat} {raws t rest : List Char}
  {xs : List Node} {ps : List (LiteralPiece q)}

/-- The rule for what stands between the quotes, one piece after the other. -/
def piecesRule (q : Char) : Rule Nonterminal :=
  .many (.choice (.glued .fragment (.fragment q)) (.glued .escape .escape))

/-- A row of plain characters ends here. -/
def EndsPlain (q : Char) (t : List Char) : Prop := ∃ c r, t = c :: r ∧ ¬ IsPlain q c

theorem endsPlain_quote (r : List Char) : EndsPlain q (q :: r) := ⟨q, r, rfl, fun h => h.1 rfl⟩

theorem endsPlain_spelling (e : LiteralEscape) (t : List Char) :
    EndsPlain q (e.spelling ++ t) := by
  obtain ⟨c, r, hspelling⟩ := e.spelling_eq_cons
  exact ⟨'\\', c :: r ++ t, by rw [hspelling]; rfl, fun h => h.2.1 rfl⟩

theorem measure_fragment (hraws : ∀ c ∈ raws, IsPlain q c) (h : EndsPlain q t) :
    (Lexeme.fragment q).measure (raws ++ t) = if raws = [] then none else some raws.length := by
  obtain ⟨c, r, rfl, hc⟩ := h
  have hiff (d : Char) : (!(d == q || d == '\\' || d == '\n' || d == '\r')) = true ↔
      IsPlain q d := by
    simp [IsPlain, and_assoc]
  have hspan := Lexeme.span_append (t := c :: r) (fun d hd => (hiff d).2 (hraws d hd))
    (fun d hd => by
      obtain rfl := Option.some.inj hd
      exact Bool.eq_false_iff.2 fun h => hc ((hiff c).1 h))
  rw [Lexeme.measure, hspan]
  cases raws <;> rfl

theorem measure_escape_none {c : Char} (hc : c ≠ '\\') (r : List Char) :
    Lexeme.escape.measure (c :: r) = none := by
  have hlength : Lexeme.escapeLength (c :: r) = 0 := by
    unfold Lexeme.escapeLength
    split
    · next h => exact (hc (List.cons.inj h).1).elim
    · rfl
  rw [Lexeme.measure, hlength]
  rfl

theorem measure_symbol (c : Char) (r : List Char) :
    (Lexeme.symbol [c] []).measure (c :: r) = some 1 := by
  cases r <;> simp [Lexeme.measure]

/-- Plain characters before a sequence or the closing quote are read as one fragment. -/
theorem settles_fragment (hraws : ∀ c ∈ raws, IsPlain q c) (ht : EndsPlain q t)
    (h : Settles g depth (piecesRule q) t (.read xs rest)) (hdepth : 2 ≤ depth) :
    Settles g (depth + 1) (piecesRule q) (raws ++ t) (.read (fragment raws ++ xs) rest) := by
  cases raws with
  | nil => exact h.mono (Nat.le_succ depth)
  | cons c raws =>
    have hread : Settles g 1 (.glued .fragment (.fragment q)) (c :: raws ++ t)
        (.read (fragment (c :: raws)) t) := by
      have hfits : (Lexeme.fragment q).measure (c :: raws ++ t) = some (c :: raws).length :=
        (measure_fragment hraws ht).trans (if_neg (List.cons_ne_nil c raws))
      have hglued : Settles g 1 (.glued .fragment (.fragment q)) (c :: raws ++ t) _ :=
        .glued hfits
      rwa [List.take_left, List.drop_left] at hglued
    exact .manyMore (hread.choiceFirst.mono hdepth) h

/-- An escape sequence is read as one. -/
theorem settles_escape (e : LiteralEscape)
    (hnull : e.isNull → ∀ d ∈ t.head?, d.isDigit = false)
    (h : Settles g depth (piecesRule q) t (.read xs rest)) (hdepth : 2 ≤ depth) :
    Settles g (depth + 1) (piecesRule q) (e.spelling ++ t)
      (.read (.leaf .escape e.spelling :: xs) rest) := by
  have hfragment : (Lexeme.fragment q).measure (e.spelling ++ t) = none :=
    measure_fragment (List.forall_mem_nil _) (endsPlain_spelling e t)
  have hread : Settles g 1 (.glued .escape .escape) (e.spelling ++ t)
      (.read [.leaf .escape e.spelling] t) := by
    have hglued : Settles g 1 (.glued .escape .escape) (e.spelling ++ t) _ :=
      .glued (e.measure_append hnull)
    rwa [List.take_left, List.drop_left] at hglued
  exact .manyMore ((Settles.glued_refused hfragment).choiceSecond hread |>.mono hdepth) h

/-- No digit follows the escape of the null character. -/
theorem isDigit_head? {e : LiteralEscape} (hq : q.isDigit = false)
    (apart : (escape e :: ps).IsChain MayPrecede) (hnull : e.isNull) :
    ∀ d ∈ (ps.flatMap spelling ++ q :: rest).head?, d.isDigit = false := by
  rintro d hd
  cases ps with
  | nil =>
    obtain rfl := Option.some.inj hd
    exact hq
  | cons p ps =>
    have hnext := (List.isChain_cons_cons.1 apart).1
    cases p with
    | raw c plain =>
      obtain rfl := Option.some.inj hd
      exact hnext hnull
    | escape f =>
      obtain ⟨c, r, hspelling⟩ := f.spelling_eq_cons
      rw [List.flatMap_cons, spelling, hspelling] at hd
      obtain rfl := Option.some.inj hd
      decide

/-- The pieces up to the closing quote are read as their nodes. By induction on the pieces, with the
plain characters that no node has been made of yet. -/
theorem settles_pieces (hq : q = '"' ∨ q = '\'') (apart : ps.IsChain MayPrecede)
    (hraws : ∀ c ∈ raws, IsPlain q c) :
    Settles g (2 * ps.length + 4) (piecesRule q) (raws ++ (ps.flatMap spelling ++ q :: rest))
      (.read (nodesFrom raws ps) (q :: rest)) := by
  induction ps generalizing raws with
  | nil =>
    have hslash : q ≠ '\\' := by rcases hq with rfl | rfl <;> decide
    have hfragment : (Lexeme.fragment q).measure (q :: rest) = none :=
      measure_fragment (List.forall_mem_nil _) (endsPlain_quote rest)
    have hstop : Settles g 3 (piecesRule q) (q :: rest) (.read [] (q :: rest)) :=
      .manyEnd ((Settles.glued_refused hfragment).choiceSecond
        (.glued_refused (measure_escape_none hslash rest)))
    have hread := settles_fragment hraws (endsPlain_quote rest) hstop (by decide)
    rwa [List.append_nil] at hread
  | cons p ps ih =>
    cases p with
    | raw c plain =>
      have hall : ∀ d ∈ raws ++ [c], IsPlain q d := by
        rw [List.forall_mem_append, List.forall_mem_singleton]
        exact ⟨hraws, plain⟩
      have hread := ih apart.tail hall
      rw [List.append_assoc] at hread
      exact hread.mono (by rw [List.length_cons]; omega)
    | escape e =>
      have hdigit : q.isDigit = false := by rcases hq with rfl | rfl <;> decide
      have hothers := ih apart.tail (List.forall_mem_nil (IsPlain q))
      have hescape := settles_escape e (isDigit_head? hdigit apart) hothers (by omega)
      have hread := settles_fragment hraws (endsPlain_spelling e _) hescape (by omega)
      rw [List.flatMap_cons, List.append_assoc]
      exact hread.mono (by rw [List.length_cons]; omega)

theorem bare_quote (hq : q = '"' ∨ q = '\'') (r : List Char) : Bare (q :: r) := by
  rcases hq with rfl | rfl <;> exact bare_cons (by decide) (by decide) r

/-- A literal in one sort of quotes is read as its node. -/
theorem settles_quoted (hq : q = '"' ∨ q = '\'') (apart : ps.IsChain MayPrecede)
    {quote : String} (hquote : quote.toList = [q]) :
    Settles g (2 * ps.length + 6) (quoted quote q) (literalText ps ++ rest)
      (.read (literalNode ps).children rest) := by
  have hpieces : Settles g _ (piecesRule q) (ps.flatMap spelling ++ q :: rest) _ :=
    settles_pieces hq apart (List.forall_mem_nil (IsPlain q))
  have hopen : Settles g 1 (symbol quote) (q :: (ps.flatMap spelling ++ q :: rest))
      (.read [Node.mark q] (ps.flatMap spelling ++ q :: rest)) := by
    rw [symbol, hquote]
    exact .token (bare_quote hq _) (measure_symbol q _)
  have hclose : Settles g 1 (gluedSymbol quote) (q :: rest) (.read [Node.mark q] rest) := by
    rw [gluedSymbol, hquote]
    exact .glued (measure_symbol q _)
  rw [literalText, List.cons_append, List.append_assoc]
  exact ((hopen.mono (by omega)).seq hpieces).seq (hclose.mono (by omega))

end Reading

/-- A string literal is read as its fragments and escape sequences, and has the value that its
pieces denote one after the other, a surrogate being a code point of its own. -/
theorem stringLiteral_of_pieces (hq : q = '"' ∨ q = '\'') {ps : List (LiteralPiece q)}
    (apart : ps.IsChain MayPrecede) (dialect : Dialect) (rest : List Char) :
    (∀ fuel, 2 * ps.length + 9 ≤ fuel →
      Rule.run (grammar dialect) fuel (Grammar.the .string) (literalText ps ++ rest) =
        .read [literalNode ps] rest) ∧
    (literalNode ps).stringValue? = .ok (some (ps.flatMap value)) := by
  refine ⟨?_, stringValue?_literalNode ps⟩
  have hquoted : Rule.Settles (grammar dialect) (2 * ps.length + 7)
      (.choice (Grammar.quoted "\"" '"') (Grammar.quoted "'" '\'')) (literalText ps ++ rest)
      (.read (literalNode ps).children rest) := by
    rcases hq with rfl | rfl
    · exact (settles_quoted (.inl rfl) apart rfl).choiceFirst
    · have hrefused : Rule.Settles (grammar dialect) 3 (Grammar.quoted "\"" '"')
          (literalText ps ++ rest) .refused :=
        .seq_refused (.seq_refused (.token_refused (bare_quote (.inr rfl) _) rfl))
      exact (hrefused.mono (by omega)).choiceSecond (settles_quoted (.inr rfl) apart rfl)
  have hrule : grammar dialect .string =
      .branch .string (.choice (Grammar.quoted "\"" '"') (Grammar.quoted "'" '\'')) := by
    cases dialect <;> rfl
  have hbranch : Rule.Settles (grammar dialect) _ (.branch .string _) _ _ :=
    hquoted.branch (bare_quote hq _)
  rw [← hrule] at hbranch
  exact hbranch.nonterminal

/-- A literal with all sorts of pieces. -/
theorem stringLiteral_of_pieces_mixed : ∃ ps : List (LiteralPiece '"'),
    ps.IsChain MayPrecede ∧
    literalText ps =
      "\"\\na\\0\\x4f8\\uD83d\\uDe00\\\r\n\\u\x7b001f600\x7d'\\\"\"".toList ∧
    (∀ fuel, 31 ≤ fuel →
      Rule.run (grammar .plain) fuel (Grammar.the .string) (literalText ps ++ [';']) =
        .read [literalNode ps] [';']) ∧
    (literalNode ps).stringValue? = .ok (some (["\na\x00O8".toList.map .scalar,
      [.surrogate 0x3D, .surrogate 0x600, .scalar '😀', .scalar '\'', .scalar '"']].flatten)) := by
  have apart : ([.escape (.letter 'n' '\n' (by decide)), .raw 'a' (by decide), .escape .null,
      .escape (.byte '4' 'f' (.scalar 'O') (by decide)), .raw '8' (by decide),
      .escape (.unit 'D' '8' '3' 'd' (.surrogate 0x3D) (by decide)),
      .escape (.unit 'D' 'e' '0' '0' (.surrogate 0x600) (by decide)),
      .escape (.continuation ['\r', '\n'] (by decide)),
      .escape (.braced ['0', '0', '1', 'f', '6', '0', '0'] (.scalar '😀') (by decide) (by decide)),
      .raw '\'' (by decide), .escape (.itself '"' (by decide))] :
      List (LiteralPiece '"')).IsChain MayPrecede := by
    decide
  have h := stringLiteral_of_pieces (.inl rfl) apart .plain [';']
  exact ⟨_, apart, by decide, h.1, h.2⟩

end LiteralPiece

end CustomElements.TypeScript
