import CustomElements.Proofs.Json.Stripping

/-!
# Where the chunks of a rendering stand

Behind a comma between two entries there is always the beginning of an entry, and behind a trailing
comma nothing but a gap and the closing bracket.
-/

namespace CustomElements.Json

/-- A text that starts with something else than white space or a closing bracket. -/
def Begins (t : Text) : Prop :=
  ∃ p r, t = p :: r ∧ p.isBlank = false ∧ p ≠ .scalar '\x7d' ∧ p ≠ .scalar ']'

theorem Begins.append {t : Text} (h : Begins t) (u : Text) : Begins (t ++ u) := by
  obtain ⟨p, r, rfl, hp⟩ := h
  exact ⟨p, r ++ u, rfl, hp⟩

theorem closesNext_begins {t : Text} (h : Begins t) : closesNext t = false := by
  obtain ⟨p, r, rfl, hblank, hbrace, hbracket⟩ := h
  rw [closesNext, Text.stripLeft, List.dropWhile_cons_of_neg (by rw [hblank]; decide),
    List.head?_cons]
  cases p with
  | surrogate k => rfl
  | scalar c =>
    have hc : c ≠ '\x7d' ∧ c ≠ ']' := ⟨fun h => hbrace (h ▸ rfl), fun h => hbracket (h ▸ rfl)⟩
    simpa using hc

theorem isBlank_of_isSpace {p : CodePoint} (h : isSpace p) : p.isBlank := by
  cases p with
  | surrogate k => cases h
  | scalar c =>
    simp only [isSpace, Bool.or_eq_true, beq_iff_eq] at h
    rcases h with ((rfl | rfl) | rfl) | rfl <;> rfl

theorem closesNext_space {p : CodePoint} (h : isSpace p) (t : Text) :
    closesNext (p :: t) = closesNext t := by
  rw [closesNext, Text.stripLeft, List.dropWhile_cons_of_pos (isBlank_of_isSpace h), closesNext,
    Text.stripLeft]

/-- A gap hides nothing from the second pass. -/
theorem closesNext_gap (g : Gap) (cs : List Chunk) :
    closesNext (textOf (uncommented (Gap.chunks g ++ cs))) =
      closesNext (textOf (uncommented cs)) := by
  induction g with
  | nil => rfl
  | cons i g ih =>
    rw [Gap.chunks, List.flatMap_cons, List.append_assoc, ← Gap.chunks]
    cases i with
    | space p blank => exact (closesNext_space blank _).trans ih
    | line body inLine => exact (closesNext_space rfl _).trans ih
    | block body unclosed => exact ih

theorem wellPlaced_gap (g : Gap) {cs : List Chunk} (h : WellPlaced cs) :
    WellPlaced (Gap.chunks g ++ cs) := by
  induction g with
  | nil => exact h
  | cons i g ih =>
    rw [Gap.chunks, List.flatMap_cons, List.append_assoc, ← Gap.chunks]
    cases i with
    | space p blank => exact ih
    | line body inLine => exact ⟨.inr ⟨_, rfl⟩, ih⟩
    | block body unclosed => exact ih

theorem isBlankChar_of_isDigit {c : Char} (h : c.isDigit) : isBlankChar c = false := by
  rw [Char.isDigit, Bool.and_eq_true, decide_eq_true_eq, decide_eq_true_eq] at h
  have hlow : 48 ≤ c.toNat := h.1
  have hhigh : c.toNat ≤ 57 := h.2
  simp only [isBlankChar, Bool.or_eq_false_iff, Bool.and_eq_false_iff, decide_eq_false_iff_not,
    beq_eq_false_iff_ne]
  omega

theorem begins_number (n : NumberLiteral) : Begins n.text := by
  obtain ⟨c, t, ht, rfl | hc⟩ := n.exists_head
  · exact ⟨_, t, ht, rfl, by decide, by decide⟩
  · refine ⟨_, t, ht, isBlankChar_of_isDigit hc, ?_, ?_⟩ <;>
      · rintro ⟨rfl⟩
        cases hc

/-- A rendering begins with a token. -/
theorem Rendering.exists_first (r : Rendering) :
    ∃ c cs, r.chunks = c :: cs ∧ c.isComment = false ∧ Begins c.text := by
  cases r with
  | word w =>
    refine ⟨.word w, [], by rw [chunks], rfl, ?_⟩
    cases w <;> exact ⟨_, _, rfl, rfl, by decide, by decide⟩
  | number n => exact ⟨.number n, [], by rw [chunks], rfl, begins_number n⟩
  | string pieces =>
    exact ⟨.string pieces, [], by rw [chunks], rfl, _, _, rfl, rfl, by decide, by decide⟩
  | empty s gap | full s gap row =>
    refine ⟨.opening s, _, by rw [chunks], rfl, ?_⟩
    cases s <;> exact ⟨_, _, rfl, rfl, by decide, by decide⟩

theorem Row.exists_first {s : Shape} (row : Row s) :
    ∃ c cs, row.chunks = c :: cs ∧ c.isComment = false ∧ Begins c.text := by
  have hlabel (label : Label s) (value : Rendering) (rest : List Chunk) :
      ∃ c cs, label.chunks ++ (value.chunks ++ rest) = c :: cs ∧ c.isComment = false ∧
        Begins c.text := by
    cases label with
    | key pieces before after =>
      exact ⟨.string pieces, _, rfl, rfl, _, _, rfl, rfl, by decide, by decide⟩
    | item =>
      obtain ⟨c, cs, hc, h⟩ := value.exists_first
      exact ⟨c, cs ++ rest, by rw [hc]; rfl, h⟩
  cases row with
  | last label value gap trailing =>
    rw [chunks]
    exact hlabel label value _
  | more label value gap after rest =>
    rw [chunks]
    exact hlabel label value _

theorem closesNext_row {s : Shape} (row : Row s) (rest : List Chunk) :
    closesNext (textOf (uncommented (row.chunks ++ rest))) = false := by
  obtain ⟨c, cs, hc, hcomment, hbegins⟩ := row.exists_first
  rw [hc, List.cons_append, uncommented_cons hcomment, textOf_cons]
  exact closesNext_begins (hbegins.append _)

theorem closesNext_closing (s : Shape) (cs : List Chunk) :
    closesNext (textOf (uncommented (.closing s :: cs))) = true := by
  cases s <;> rfl

theorem wellPlaced_label {s : Shape} (label : Label s) {cs : List Chunk} (h : WellPlaced cs) :
    WellPlaced (label.chunks ++ cs) := by
  cases label with
  | item => exact h
  | key pieces before after =>
    have hafter := wellPlaced_gap after h
    have hcolon : WellPlaced (.colon :: (Gap.chunks after ++ cs)) := hafter
    have hbefore := wellPlaced_gap before hcolon
    rw [Label.chunks, List.cons_append, List.append_assoc, List.cons_append]
    exact hbefore

theorem wellPlaced_trailing {s : Shape} (trailing : Option Gap) {cs : List Chunk}
    (h : WellPlaced cs) : WellPlaced (trailingChunks trailing ++ .closing s :: cs) := by
  have hclosing : WellPlaced (.closing s :: cs) := h
  cases trailing with
  | none => exact hclosing
  | some gap =>
    have hnext := (closesNext_gap gap (.closing s :: cs)).trans (closesNext_closing s cs)
    exact ⟨hnext, wellPlaced_gap gap hclosing⟩

mutual

theorem Rendering.wellPlaced (r : Rendering) {cs : List Chunk} (h : WellPlaced cs) :
    WellPlaced (r.chunks ++ cs) := by
  match r with
  | .word w | .number n | .string pieces =>
    rw [Rendering.chunks]
    exact h
  | .empty s gap =>
    have hclosing : WellPlaced (.closing s :: cs) := h
    rw [Rendering.chunks, List.cons_append, List.append_assoc]
    exact wellPlaced_gap gap hclosing
  | .full s gap row =>
    have hrow := row.wellPlaced h
    rw [Rendering.chunks, List.cons_append, List.append_assoc]
    exact wellPlaced_gap gap hrow

theorem Row.wellPlaced {s : Shape} (row : Row s) {cs : List Chunk} (h : WellPlaced cs) :
    WellPlaced (row.chunks ++ cs) := by
  match row with
  | .last label value gap trailing =>
    have hvalue := value.wellPlaced (wellPlaced_gap gap (wellPlaced_trailing (s := s) trailing h))
    rw [Row.chunks]
    simp only [List.append_assoc, List.singleton_append]
    exact wellPlaced_label label hvalue
  | .more label value gap after rest =>
    have hnext := (closesNext_gap after (rest.chunks ++ cs)).trans (closesNext_row rest cs)
    have hcomma : WellPlaced (.comma :: (Gap.chunks after ++ (rest.chunks ++ cs))) :=
      ⟨hnext, wellPlaced_gap after (rest.wellPlaced h)⟩
    have hvalue := value.wellPlaced (wellPlaced_gap gap hcomma)
    rw [Row.chunks]
    simp only [List.append_assoc, List.cons_append]
    exact wellPlaced_label label hvalue

end

theorem Document.wellPlaced (d : Document) : WellPlaced d.chunks := by
  have hlast : WellPlaced (lastChunks d.last) := by
    cases d.last with
    | none => exact trivial
    | some body => exact ⟨.inl rfl, trivial⟩
  exact wellPlaced_gap d.before (d.root.wellPlaced (wellPlaced_gap d.after hlast))

end CustomElements.Json
