import CustomElements.Proofs.Json.Placement

/-!
# Reading plain JSON

A rendering without comments and trailing commas is plain JSON, and the reader gives its value back.
-/

namespace CustomElements.Json

theorem isSpace_of_begins {t : Text} (h : Begins t) : ∀ p ∈ t.head?, isSpace p = false := by
  obtain ⟨p, r, rfl, hblank, _⟩ := h
  intro q hq
  obtain rfl := Option.some.inj hq
  rw [Bool.eq_false_iff]
  intro hspace
  rw [isBlank_of_isSpace hspace] at hblank
  cases hblank

theorem skipSpace_of_not_space {t : Text} (h : ∀ p ∈ t.head?, isSpace p = false) :
    skipSpace t = t := by
  cases t with
  | nil => rfl
  | cons p r => exact List.dropWhile_cons_of_neg (by rw [h p rfl]; decide)

/-- A plain gap is white space. -/
theorem isSpace_of_mem_gap {g : Gap} (hg : ∀ c ∈ Gap.chunks g, c.isPlain) :
    ∀ p ∈ textOf (Gap.chunks g), isSpace p := by
  induction g with
  | nil => exact List.forall_mem_nil _
  | cons i g ih =>
    rw [Gap.chunks, List.flatMap_cons, List.forall_mem_append] at hg
    have hrest := ih hg.2
    cases i with
    | space p blank => exact List.forall_mem_cons.2 ⟨blank, hrest⟩
    | line body inLine => exact absurd (hg.1 _ List.mem_cons_self) Bool.false_ne_true
    | block body unclosed => exact absurd (hg.1 _ List.mem_cons_self) Bool.false_ne_true

theorem skipSpace_gap {g : Gap} (hg : ∀ c ∈ Gap.chunks g, c.isPlain) {rest : Text}
    (h : ∀ p ∈ rest.head?, isSpace p = false) :
    skipSpace (textOf (Gap.chunks g) ++ rest) = rest := by
  rw [skipSpace, List.dropWhile_append_of_pos (isSpace_of_mem_gap hg)]
  exact skipSpace_of_not_space h

theorem endsNumber_gap {g : Gap} (hg : ∀ c ∈ Gap.chunks g, c.isPlain) {rest : Text}
    (h : EndsNumber rest) : EndsNumber (textOf (Gap.chunks g) ++ rest) := by
  have hspace := isSpace_of_mem_gap hg
  cases ht : textOf (Gap.chunks g) with
  | nil => exact h
  | cons p t =>
    rw [ht, List.forall_mem_cons] at hspace
    intro q hq
    obtain rfl : p = q := Option.some.inj hq
    cases p with
    | surrogate k => cases hspace.1
    | scalar c =>
      have hc := hspace.1
      simp only [isSpace, Bool.or_eq_true, beq_iff_eq] at hc
      rcases hc with ((rfl | rfl) | rfl) | rfl <;> decide

theorem endsNumber_comma (rest : Text) : EndsNumber (.scalar ',' :: rest) := by
  intro q hq
  obtain rfl := Option.some.inj hq
  decide

theorem endsNumber_closing (s : Shape) (rest : Text) :
    EndsNumber (.scalar s.closeChar :: rest) := by
  intro q hq
  obtain rfl := Option.some.inj hq
  cases s <;> decide

section Scalars

theorem startsWith_cons_ne {p q : CodePoint} (h : p ≠ q) (t w : Text) :
    Text.startsWith (p :: t) (q :: w) = false := by
  simp [Text.startsWith, List.isPrefixOf, h.symm]

theorem scalar_word (w : Word) (rest : Text) :
    Json.scalar (w.text ++ rest) = .ok (w.value, rest) := by
  cases w <;> rfl

theorem scalar_of_no_word {t : Text}
    (h : ∀ w ∈ (["null", "true", "false", "NaN", "Infinity", "-Infinity"] : List Text),
      Text.startsWith t w = false) :
    Json.scalar t =
      if t.head? = some (.scalar '-') then number true t.tail else number false t := by
  simp only [List.forall_mem_cons] at h
  obtain ⟨hnull, htrue, hfalse, hnan, hinfinity, hminus, _⟩ := h
  simp only [Json.scalar, List.find?_cons, List.find?_nil, hnull, htrue, hfalse, hnan, hinfinity,
    hminus]
  split
  · rfl
  · next hsign =>
    rw [if_neg]
    intro hhead
    obtain ⟨r, rfl⟩ := List.head?_eq_some_iff.1 hhead
    exact hsign r rfl

/-- No word starts with a digit, with or without a sign. -/
theorem scalar_digit {c : Char} (hc : c.isDigit) (t : Text) :
    Json.scalar (.scalar c :: t) = number false (.scalar c :: t) ∧
      Json.scalar (.scalar '-' :: .scalar c :: t) = number true (.scalar c :: t) := by
  have hdigit {q : Char} (hq : q.isDigit = false) (w : Text) :
      Text.startsWith (.scalar c :: t) (.scalar q :: w) = false := by
    refine startsWith_cons_ne ?_ _ _
    rintro ⟨rfl⟩
    exact absurd hc (by rw [hq]; decide)
  have hsign {q : Char} (hq : '-' ≠ q) (w : Text) :
      Text.startsWith (.scalar '-' :: .scalar c :: t) (.scalar q :: w) = false :=
    startsWith_cons_ne (fun h => hq (CodePoint.scalar.inj h)) _ _
  have hminus : ¬(CodePoint.scalar c :: t).head? = some (.scalar '-') := by
    rintro ⟨rfl⟩
    cases hc
  constructor
  · rw [scalar_of_no_word, if_neg hminus]
    simp only [List.forall_mem_cons]
    exact ⟨hdigit rfl _, hdigit rfl _, hdigit rfl _, hdigit rfl _, hdigit rfl _, hdigit rfl _,
      List.forall_mem_nil _⟩
  · rw [scalar_of_no_word, List.head?_cons, if_pos rfl, List.tail_cons]
    simp only [List.forall_mem_cons]
    have hinfinity : Text.startsWith (.scalar '-' :: .scalar c :: t) "-Infinity" = false :=
      hdigit (q := 'I') rfl _
    exact ⟨hsign (q := 'n') (by decide) _, hsign (q := 't') (by decide) _,
      hsign (q := 'f') (by decide) _, hsign (q := 'N') (by decide) _,
      hsign (q := 'I') (by decide) _, hinfinity, List.forall_mem_nil _⟩

theorem scalar_number (n : NumberLiteral) {rest : Text} (h : EndsNumber rest) :
    Json.scalar (n.text ++ rest) =
      if n.Fits then .ok (n.value, rest) else .error .tooManyDigits := by
  have hnumber := n.number_magnitude h
  obtain ⟨c, t, ht, hc⟩ := n.exists_magnitude_head
  rw [ht, List.cons_append] at hnumber
  rw [NumberLiteral.text, ht]
  cases hsign : n.negative with
  | true =>
    rw [hsign] at hnumber
    rw [if_pos rfl, List.cons_append, List.cons_append, ← hnumber]
    exact (scalar_digit hc _).2
  | false =>
    rw [hsign] at hnumber
    rw [if_neg Bool.false_ne_true, List.cons_append, ← hnumber]
    exact (scalar_digit hc _).1

end Scalars

section Values

theorem value_scalar {fuel : Nat} {t : Text} (h : ∀ p ∈ t.head?,
    p ≠ .scalar '"' ∧ p ≠ .scalar '[' ∧ p ≠ .scalar '{') :
    Json.value (fuel + 1) t = Json.scalar t := by
  rw [Json.value]
  · rintro r rfl
    exact (h _ rfl).1 rfl
  · rintro r rfl
    exact (h _ rfl).2.1 rfl
  · rintro r rfl
    exact (h _ rfl).2.2 rfl

theorem value_number (n : NumberLiteral) {fuel : Nat} (rest : Text) :
    Json.value (fuel + 1) (n.text ++ rest) = Json.scalar (n.text ++ rest) := by
  refine value_scalar fun p hp => ?_
  obtain ⟨c, t, ht, hc⟩ := n.exists_head
  rw [ht] at hp
  obtain rfl := Option.some.inj hp
  refine ⟨?_, ?_, ?_⟩ <;>
    · rintro ⟨rfl⟩
      rcases hc with hc | hc <;> cases hc

theorem value_string {fuel : Nat} {ps : List StringPiece} (hf : ps.length < fuel) (rest : Text) :
    Json.value (fuel + 1) (.scalar '"' :: (piecesText ps ++ .scalar '"' :: rest)) =
      .ok (.string (decode ps), rest) := by
  rw [Json.value, stringRest_pieces ps hf]

/-- The value of an array or an object with these entries. -/
def Shape.value (s : Shape) (entries : List (Text × Json)) : Json :=
  match s with
  | array => .array (entries.map Prod.snd)
  | object => .object entries

theorem value_empty {s : Shape} {fuel : Nat} {t rest : Text}
    (h : skipSpace t = .scalar s.closeChar :: rest) :
    Json.value (fuel + 1) (.scalar s.openChar :: t) = .ok (s.value [], rest) := by
  cases s with
  | array | object =>
    rw [Shape.openChar, Json.value, h]
    rfl

/-- Reading the entries of an array or an object. -/
def ReadsRow (s : Shape) (fuel : Nat) (t : Text) (entries : List (Text × Json)) (rest : Text) :
    Prop :=
  match s with
  | .array => elements fuel t = .ok (entries.map Prod.snd, rest)
  | .object => members fuel t = .ok (entries, rest)

/-- An array or an object that is not empty is read entry by entry. -/
theorem value_entries {s : Shape} {fuel : Nat} {t u : Text} (ht : skipSpace t = u)
    (hu : Begins u) : Json.value (fuel + 1) (.scalar s.openChar :: t) =
      match s with
      | .array => do
        let (items, rest) ← elements fuel u
        return (.array items, rest)
      | .object => do
        let (ms, rest) ← members fuel u
        return (.object ms, rest) := by
  obtain ⟨p, r, rfl, _, hbrace, hbracket⟩ := hu
  cases s with
  | array =>
    rw [Shape.openChar, Json.value, ht]
    split
    · next heq => exact absurd (List.cons.inj heq).1 hbracket
    · rfl
  | object =>
    rw [Shape.openChar, Json.value, ht]
    split
    · next heq => exact absurd (List.cons.inj heq).1 hbrace
    · rfl

theorem value_full {s : Shape} {fuel : Nat} {t u rest : Text} {entries : List (Text × Json)}
    (ht : skipSpace t = u) (hu : Begins u) (h : ReadsRow s fuel u entries rest) :
    Json.value (fuel + 1) (.scalar s.openChar :: t) = .ok (s.value entries, rest) := by
  rw [value_entries ht hu]
  cases s with
  | array =>
    have helements : elements fuel u = .ok (entries.map Prod.snd, rest) := h
    rw [helements]
    rfl
  | object =>
    have hmembers : members fuel u = .ok (entries, rest) := h
    rw [hmembers]
    rfl

/-- There is fuel enough for the key of an entry. -/
theorem length_pieces_lt {pieces : List StringPiece} {before after : Gap} {fuel : Nat}
    (hf : (textOf (Label.key pieces before after).chunks).length ≤ fuel) :
    pieces.length < fuel := by
  have hle := length_le_piecesText pieces
  simp only [Label.chunks, Chunk.text, textOf_cons, textOf_append, List.length_append,
    List.length_cons, List.length_nil] at hf
  omega

theorem members_key {pieces : List StringPiece} {before after : Gap}
    (hl : ∀ c ∈ (Label.key pieces before after).chunks, c.isPlain) {fuel : Nat}
    (hf : pieces.length < fuel) {t : Text} (ht : Begins t) :
    members (fuel + 1) (textOf (Label.key pieces before after).chunks ++ t) = (do
      let (v, r) ← Json.value fuel t
      match skipSpace r with
      | .scalar '}' :: rest => return ([(decode pieces, v)], rest)
      | .scalar ',' :: rest =>
        let (ms, rest) ← members fuel (skipSpace rest)
        return ((decode pieces, v) :: ms, rest)
      | _ => .error .malformed) := by
  rw [Label.chunks, List.forall_mem_cons, List.forall_mem_append, List.forall_mem_cons] at hl
  obtain ⟨_, hbefore, _, hafter⟩ := hl
  have htext : textOf (Label.key pieces before after).chunks ++ t = .scalar '"' ::
      (piecesText pieces ++ .scalar '"' :: (textOf (Gap.chunks before) ++
        .scalar ':' :: (textOf (Gap.chunks after) ++ t))) := by
    simp [Label.chunks, Chunk.text]
  have hcolon : skipSpace (textOf (Gap.chunks before) ++
      .scalar ':' :: (textOf (Gap.chunks after) ++ t)) =
        .scalar ':' :: (textOf (Gap.chunks after) ++ t) := by
    refine skipSpace_gap hbefore fun p hp => ?_
    obtain rfl := Option.some.inj hp
    rfl
  have hvalue := skipSpace_gap hafter (isSpace_of_begins ht)
  rw [htext, members, stringRest_pieces pieces hf]
  simp only [hcolon, hvalue] <;> rfl

/-- Reading the last entry of a row. -/
theorem readsRow_last {s : Shape} {label : Label s} (hl : ∀ c ∈ label.chunks, c.isPlain)
    {fuel : Nat} (hf : (textOf label.chunks).length ≤ fuel) {t r rest : Text} (ht : Begins t)
    {v : Json} (hv : Json.value fuel t = .ok (v, r))
    (hr : skipSpace r = .scalar s.closeChar :: rest) :
    ReadsRow s (fuel + 1) (textOf label.chunks ++ t) [(label.name, v)] rest := by
  cases label with
  | item =>
    have hstop : skipSpace r = .scalar ']' :: rest := hr
    show elements (fuel + 1) t = _
    rw [elements, hv]
    simp only [bind, Except.bind, hstop]
    rfl
  | key pieces before after =>
    have hstop : skipSpace r = .scalar '}' :: rest := hr
    show members (fuel + 1) _ = _
    rw [members_key hl (length_pieces_lt hf) ht, hv]
    simp only [bind, Except.bind, hstop]
    rfl

/-- Reading an entry that others follow. -/
theorem readsRow_more {s : Shape} {label : Label s} (hl : ∀ c ∈ label.chunks, c.isPlain)
    {fuel : Nat} (hf : (textOf label.chunks).length ≤ fuel) {t r q rest : Text} (ht : Begins t)
    {v : Json} (hv : Json.value fuel t = .ok (v, r)) (hr : skipSpace r = .scalar ',' :: q)
    {entries : List (Text × Json)} (hq : ReadsRow s fuel (skipSpace q) entries rest) :
    ReadsRow s (fuel + 1) (textOf label.chunks ++ t) ((label.name, v) :: entries) rest := by
  cases label with
  | item =>
    have hrest : elements fuel (skipSpace q) = .ok (entries.map Prod.snd, rest) := hq
    show elements (fuel + 1) t = _
    rw [elements, hv]
    simp only [bind, Except.bind, hr, hrest]
    rfl
  | key pieces before after =>
    have hrest : members fuel (skipSpace q) = .ok (entries, rest) := hq
    show members (fuel + 1) _ = _
    rw [members_key hl (length_pieces_lt hf) ht, hv]
    simp only [bind, Except.bind, hr, hrest]
    rfl

theorem exists_succ_of_begins {t : Text} (ht : Begins t) {fuel : Nat} (hf : 2 * t.length ≤ fuel) :
    ∃ n, fuel = n + 1 := by
  obtain ⟨p, r, rfl, _⟩ := ht
  rw [List.length_cons] at hf
  exact ⟨fuel - 1, by omega⟩

theorem Rendering.begins (r : Rendering) (rest : Text) : Begins (textOf r.chunks ++ rest) := by
  obtain ⟨c, cs, hc, _, hbegins⟩ := r.exists_first
  rw [hc, textOf_cons, List.append_assoc]
  exact hbegins.append _

theorem Row.begins {s : Shape} (row : Row s) (rest : Text) :
    Begins (textOf row.chunks ++ rest) := by
  obtain ⟨c, cs, hc, _, hbegins⟩ := row.exists_first
  rw [hc, textOf_cons, List.append_assoc]
  exact hbegins.append _

theorem closing_not_space (s : Shape) (rest : Text) :
    ∀ p ∈ (CodePoint.scalar s.closeChar :: rest).head?, isSpace p = false := by
  intro p hp
  obtain rfl := Option.some.inj hp
  cases s <;> rfl

theorem comma_not_space (rest : Text) :
    ∀ p ∈ (CodePoint.scalar ',' :: rest).head?, isSpace p = false := by
  intro p hp
  obtain rfl := Option.some.inj hp
  rfl

/-- A plain row has no comma at its end. -/
theorem trailing_eq_none {trailing : Option Gap} {cs : List Chunk}
    (h : ∀ c ∈ trailingChunks trailing ++ cs, c.isPlain) : trailing = none := by
  cases trailing with
  | none => rfl
  | some gap => exact absurd (h _ List.mem_cons_self) Bool.false_ne_true

end Values

mutual

/-- The reader gives back the value of a plain rendering and stops right behind it. Two units of
fuel for each character are enough. -/
theorem Rendering.read (r : Rendering) (h : ∀ c ∈ r.chunks, c.isPlain ∧ c.Fits) {fuel : Nat}
    (hf : 2 * (textOf r.chunks).length ≤ fuel) {rest : Text} (hrest : EndsNumber rest) :
    Json.value fuel (textOf r.chunks ++ rest) = .ok (r.value, rest) := by
  have hbegins := r.begins []
  rw [List.append_nil] at hbegins
  obtain ⟨fuel, rfl⟩ := exists_succ_of_begins hbegins hf
  match r with
  | .word w =>
    rw [Rendering.chunks, textOf_cons, textOf_nil, List.append_nil, Rendering.value]
    refine (value_scalar ?_).trans (scalar_word w rest)
    cases w <;> exact fun p hp => by cases hp; decide
  | .number n =>
    rw [Rendering.chunks, List.forall_mem_singleton] at h
    rw [Rendering.chunks, textOf_cons, textOf_nil, List.append_nil, Rendering.value]
    exact (value_number n rest).trans ((scalar_number n hrest).trans (if_pos h.2))
  | .string pieces =>
    have hle := length_le_piecesText pieces
    have hlength : pieces.length < fuel := by
      simp only [Rendering.chunks, Chunk.text, textOf_cons, textOf_nil, List.append_nil,
        List.length_cons, List.length_append, List.length_nil] at hf
      omega
    have hstring := value_string hlength rest
    simpa [Rendering.chunks, Chunk.text, Rendering.value] using hstring
  | .empty s gap =>
    rw [Rendering.chunks, List.forall_mem_cons, List.forall_mem_append] at h
    have hstop := skipSpace_gap (fun c hc => (h.2.1 c hc).1) (closing_not_space s rest)
    have hempty := @value_empty s fuel _ _ hstop
    have hvalue : (Rendering.empty s gap).value = s.value [] := by
      cases s <;> rfl
    rw [hvalue]
    simpa [Rendering.chunks, Chunk.text] using hempty
  | .full s gap row =>
    rw [Rendering.chunks, List.forall_mem_cons, List.forall_mem_append] at h
    have hlength : 2 * (textOf row.chunks).length ≤ fuel := by
      simp only [Rendering.chunks, Chunk.text, textOf_cons, textOf_append, List.length_append,
        List.length_cons, List.length_nil] at hf
      omega
    have hgap := skipSpace_gap (fun c hc => (h.2.1 c hc).1) (isSpace_of_begins (row.begins rest))
    have hfull := value_full hgap (row.begins rest) (row.read h.2.2 hlength rest)
    have hvalue : (Rendering.full s gap row).value = s.value row.entries := by
      cases s <;> rfl
    rw [hvalue]
    simpa [Rendering.chunks, Chunk.text] using hfull

theorem Row.read {s : Shape} (row : Row s) (h : ∀ c ∈ row.chunks, c.isPlain ∧ c.Fits) {fuel : Nat}
    (hf : 2 * (textOf row.chunks).length ≤ fuel) (rest : Text) :
    ReadsRow s fuel (textOf row.chunks ++ rest) row.entries rest := by
  have hbegins := row.begins []
  rw [List.append_nil] at hbegins
  obtain ⟨fuel, rfl⟩ := exists_succ_of_begins hbegins hf
  match row with
  | .last label value gap trailing =>
    rw [Row.chunks, List.forall_mem_append, List.forall_mem_append, List.forall_mem_append] at h
    obtain ⟨hlabel, hvalue, hgap, htail⟩ := h
    obtain rfl := trailing_eq_none fun c hc => (htail c hc).1
    simp only [Row.chunks, trailingChunks, Chunk.text, textOf_append, textOf_cons, textOf_nil,
      List.length_append, List.length_singleton, List.nil_append, List.append_nil] at hf
    have hlength : 2 * (textOf value.chunks).length ≤ fuel := by omega
    have hend := endsNumber_gap (fun c hc => (hgap c hc).1) (endsNumber_closing s rest)
    have hstop := skipSpace_gap (fun c hc => (hgap c hc).1) (closing_not_space s rest)
    have hlast := readsRow_last (fun c hc => (hlabel c hc).1) (by omega) (value.begins _)
      (value.read hvalue hlength hend) hstop
    simpa [Row.chunks, Row.entries, trailingChunks, Chunk.text] using hlast
  | .more label value gap after more =>
    rw [Row.chunks, List.forall_mem_append, List.forall_mem_append, List.forall_mem_append,
      List.forall_mem_cons, List.forall_mem_append] at h
    obtain ⟨hlabel, hvalue, hgap, _, hafter, hmore⟩ := h
    simp only [Row.chunks, Chunk.text, textOf_append, textOf_cons, List.length_append,
      List.length_singleton] at hf
    have hlength : 2 * (textOf value.chunks).length ≤ fuel := by omega
    have hlength' : 2 * (textOf more.chunks).length ≤ fuel := by omega
    have hend := endsNumber_gap (fun c hc => (hgap c hc).1)
      (endsNumber_comma (textOf (Gap.chunks after) ++ (textOf more.chunks ++ rest)))
    have hcomma := skipSpace_gap (fun c hc => (hgap c hc).1)
      (comma_not_space (textOf (Gap.chunks after) ++ (textOf more.chunks ++ rest)))
    have hskip := skipSpace_gap (fun c hc => (hafter c hc).1)
      (isSpace_of_begins (more.begins rest))
    have hrest := more.read hmore hlength' rest
    rw [← hskip] at hrest
    have hfirst := readsRow_more (fun c hc => (hlabel c hc).1) (by omega) (value.begins _)
      (value.read hvalue hlength hend) hcomma hrest
    simpa [Row.chunks, Row.entries, Chunk.text] using hfirst

end

/-! ### Integers with too many digits -/

section Overlong

/-- An integer among the entries of an array or an object has too many digits. -/
def RowIsOverlong (s : Shape) (fuel : Nat) (t : Text) : Prop :=
  match s with
  | .array => elements fuel t = .error .tooManyDigits
  | .object => members fuel t = .error .tooManyDigits

theorem value_overlong {s : Shape} {fuel : Nat} {t u : Text} (ht : skipSpace t = u)
    (hu : Begins u) (h : RowIsOverlong s fuel u) :
    Json.value (fuel + 1) (.scalar s.openChar :: t) = .error .tooManyDigits := by
  rw [value_entries ht hu]
  cases s with
  | array =>
    have helements : elements fuel u = .error .tooManyDigits := h
    rw [helements]
    rfl
  | object =>
    have hmembers : members fuel u = .error .tooManyDigits := h
    rw [hmembers]
    rfl

/-- An entry with such an integer. -/
theorem rowIsOverlong_first {s : Shape} {label : Label s} (hl : ∀ c ∈ label.chunks, c.isPlain)
    {fuel : Nat} (hf : (textOf label.chunks).length ≤ fuel) {t : Text} (ht : Begins t)
    (hv : Json.value fuel t = .error .tooManyDigits) :
    RowIsOverlong s (fuel + 1) (textOf label.chunks ++ t) := by
  cases label with
  | item =>
    show elements (fuel + 1) t = _
    rw [elements, hv]
    rfl
  | key pieces before after =>
    show members (fuel + 1) _ = _
    rw [members_key hl (length_pieces_lt hf) ht, hv]
    rfl

/-- Such an integer behind the first entry. -/
theorem rowIsOverlong_more {s : Shape} {label : Label s} (hl : ∀ c ∈ label.chunks, c.isPlain)
    {fuel : Nat} (hf : (textOf label.chunks).length ≤ fuel) {t r q : Text} (ht : Begins t)
    {v : Json} (hv : Json.value fuel t = .ok (v, r)) (hr : skipSpace r = .scalar ',' :: q)
    (hq : RowIsOverlong s fuel (skipSpace q)) :
    RowIsOverlong s (fuel + 1) (textOf label.chunks ++ t) := by
  cases label with
  | item =>
    have hrest : elements fuel (skipSpace q) = .error .tooManyDigits := hq
    show elements (fuel + 1) t = _
    rw [elements, hv]
    simp only [bind, Except.bind, hr, hrest]
  | key pieces before after =>
    have hrest : members fuel (skipSpace q) = .error .tooManyDigits := hq
    show members (fuel + 1) _ = _
    rw [members_key hl (length_pieces_lt hf) ht, hv]
    simp only [bind, Except.bind, hr, hrest]

/-- Only numbers may have too many digits. -/
theorem fits_gap (g : Gap) : ∀ c ∈ Gap.chunks g, c.Fits := by
  intro c hc
  obtain ⟨i, -, hc⟩ := List.mem_flatMap.1 hc
  cases i with
  | space | block =>
    obtain rfl := List.mem_singleton.1 hc
    trivial
  | line =>
    simp only [GapItem.chunks, List.mem_cons, List.not_mem_nil, or_false] at hc
    rcases hc with rfl | rfl <;> trivial

theorem fits_label {s : Shape} (label : Label s) : ∀ c ∈ label.chunks, c.Fits := by
  cases label with
  | item => exact List.forall_mem_nil _
  | key pieces before after =>
    rw [Label.chunks, List.forall_mem_cons, List.forall_mem_append, List.forall_mem_cons]
    exact ⟨trivial, fits_gap before, trivial, fits_gap after⟩

end Overlong

mutual

/-- A plain rendering with an integer that has too many digits is not read for that reason. -/
theorem Rendering.overlong (r : Rendering) (hplain : ∀ c ∈ r.chunks, c.isPlain)
    (h : ¬∀ c ∈ r.chunks, c.Fits) {fuel : Nat} (hf : 2 * (textOf r.chunks).length ≤ fuel)
    {rest : Text} (hrest : EndsNumber rest) :
    Json.value fuel (textOf r.chunks ++ rest) = .error .tooManyDigits := by
  have hbegins := r.begins []
  rw [List.append_nil] at hbegins
  obtain ⟨fuel, rfl⟩ := exists_succ_of_begins hbegins hf
  match r with
  | .word w => exact absurd (List.forall_mem_singleton.2 trivial) h
  | .string pieces => exact absurd (List.forall_mem_singleton.2 trivial) h
  | .number n =>
    rw [Rendering.chunks, List.forall_mem_singleton] at h
    rw [Rendering.chunks, textOf_cons, textOf_nil, List.append_nil]
    exact (value_number n rest).trans ((scalar_number n hrest).trans (if_neg h))
  | .empty s gap =>
    rw [Rendering.chunks, List.forall_mem_cons, List.forall_mem_append] at h
    exact absurd ⟨trivial, fits_gap gap, List.forall_mem_singleton.2 trivial⟩ h
  | .full s gap row =>
    rw [Rendering.chunks, List.forall_mem_cons, List.forall_mem_append] at hplain h
    have hrow : ¬∀ c ∈ row.chunks, c.Fits := fun hrow => h ⟨trivial, fits_gap gap, hrow⟩
    have hlength : 2 * (textOf row.chunks).length ≤ fuel := by
      simp only [Rendering.chunks, Chunk.text, textOf_cons, textOf_append, List.length_append,
        List.length_cons, List.length_nil] at hf
      omega
    have hgap := skipSpace_gap hplain.2.1 (isSpace_of_begins (row.begins rest))
    have hfull := value_overlong hgap (row.begins rest) (row.overlong hplain.2.2 hrow hlength rest)
    simpa [Rendering.chunks, Chunk.text] using hfull

theorem Row.overlong {s : Shape} (row : Row s) (hplain : ∀ c ∈ row.chunks, c.isPlain)
    (h : ¬∀ c ∈ row.chunks, c.Fits) {fuel : Nat} (hf : 2 * (textOf row.chunks).length ≤ fuel)
    (rest : Text) : RowIsOverlong s fuel (textOf row.chunks ++ rest) := by
  have hbegins := row.begins []
  rw [List.append_nil] at hbegins
  obtain ⟨fuel, rfl⟩ := exists_succ_of_begins hbegins hf
  match row with
  | .last label value gap trailing =>
    rw [Row.chunks, List.forall_mem_append, List.forall_mem_append, List.forall_mem_append]
      at hplain h
    obtain ⟨hlabel, hvalue, hgap, htail⟩ := hplain
    obtain rfl := trailing_eq_none htail
    have hoverlong : ¬∀ c ∈ value.chunks, c.Fits := fun hv =>
      h ⟨fits_label label, hv, fits_gap gap, List.forall_mem_singleton.2 trivial⟩
    simp only [Row.chunks, trailingChunks, Chunk.text, textOf_append, textOf_cons, textOf_nil,
      List.length_append, List.length_singleton, List.nil_append, List.append_nil] at hf
    have hlength : 2 * (textOf value.chunks).length ≤ fuel := by omega
    have hend := endsNumber_gap hgap (endsNumber_closing s rest)
    have hlast := rowIsOverlong_first hlabel (by omega) (value.begins _)
      (value.overlong hvalue hoverlong hlength hend)
    simpa [Row.chunks, trailingChunks, Chunk.text] using hlast
  | .more label value gap after more =>
    rw [Row.chunks, List.forall_mem_append, List.forall_mem_append, List.forall_mem_append,
      List.forall_mem_cons, List.forall_mem_append] at hplain h
    obtain ⟨hlabel, hvalue, hgap, _, hafter, hmore⟩ := hplain
    simp only [Row.chunks, Chunk.text, textOf_append, textOf_cons, List.length_append,
      List.length_singleton] at hf
    have hlength : 2 * (textOf value.chunks).length ≤ fuel := by omega
    have hlength' : 2 * (textOf more.chunks).length ≤ fuel := by omega
    have hend := endsNumber_gap hgap
      (endsNumber_comma (textOf (Gap.chunks after) ++ (textOf more.chunks ++ rest)))
    by_cases hfirst : ∀ c ∈ value.chunks, c.Fits
    · have hoverlong : ¬∀ c ∈ more.chunks, c.Fits := fun hm =>
        h ⟨fits_label label, hfirst, fits_gap gap, trivial, fits_gap after, hm⟩
      have hcomma := skipSpace_gap hgap
        (comma_not_space (textOf (Gap.chunks after) ++ (textOf more.chunks ++ rest)))
      have hskip := skipSpace_gap hafter (isSpace_of_begins (more.begins rest))
      have hrest := more.overlong hmore hoverlong hlength' rest
      rw [← hskip] at hrest
      have hread := value.read (fun c hc => ⟨hvalue c hc, hfirst c hc⟩) hlength hend
      have hbehind := rowIsOverlong_more hlabel (by omega) (value.begins _) hread hcomma hrest
      simpa [Row.chunks, Chunk.text] using hbehind
    · have hbefore := rowIsOverlong_first hlabel (by omega) (value.begins _)
        (value.overlong hvalue hfirst hlength hend)
      simpa [Row.chunks, Chunk.text] using hbefore

end

/-- A plain document is read unless an integer in it has too many digits. -/
theorem Document.parse_plain (d : Document) (h : ∀ c ∈ d.chunks, c.isPlain) :
    parse d.text =
      if ∀ c ∈ d.chunks, c.Fits then .ok d.root.value else .error .tooManyDigits := by
  have hfits : (∀ c ∈ d.chunks, c.Fits) ↔ ∀ c ∈ d.root.chunks, c.Fits := by
    rw [Document.chunks, List.forall_mem_append, List.forall_mem_append, List.forall_mem_append]
    refine ⟨fun hall => hall.2.1, fun hroot => ⟨fits_gap _, hroot, fits_gap _, ?_⟩⟩
    cases d.last with
    | none => exact List.forall_mem_nil _
    | some body => exact List.forall_mem_singleton.2 trivial
  rw [Document.chunks, List.forall_mem_append, List.forall_mem_append, List.forall_mem_append] at h
  obtain ⟨hbefore, hroot, hafter, hlast⟩ := h
  have hnone : d.last = none := by
    cases hd : d.last with
    | none => rfl
    | some body =>
      rw [hd] at hlast
      exact absurd (hlast _ List.mem_cons_self) Bool.false_ne_true
  have htext : d.text = textOf (Gap.chunks d.before) ++
      (textOf d.root.chunks ++ (textOf (Gap.chunks d.after) ++ [])) := by
    simp [Document.text, Document.chunks, hnone, lastChunks]
  have hskip := skipSpace_gap hbefore
    (isSpace_of_begins (d.root.begins (textOf (Gap.chunks d.after) ++ [])))
  have hempty : EndsNumber [] := fun p hp => by cases hp
  have hend := endsNumber_gap hafter hempty
  have hlength : 2 * (textOf d.root.chunks).length ≤ 2 * d.text.length + 2 := by
    simp only [htext, List.length_append]
    omega
  have hrest : skipSpace (textOf (Gap.chunks d.after) ++ []) = [] :=
    skipSpace_gap hafter fun p hp => by cases hp
  rw [parse]
  simp only [hfits]
  split
  · next hread =>
    have hvalue := d.root.read (fun c hc => ⟨hroot c hc, hread c hc⟩) hlength hend
    simp only [htext, hskip] at hvalue ⊢
    rw [hvalue]
    simp only [bind, Except.bind, hrest]
    rfl
  · next hoverlong =>
    have hvalue := d.root.overlong hroot hoverlong hlength hend
    simp only [htext, hskip] at hvalue ⊢
    rw [hvalue]
    rfl

theorem Document.read (d : Document) (h : ∀ c ∈ d.chunks, c.isPlain ∧ c.Fits) :
    parse d.text = .ok d.root.value :=
  (d.parse_plain fun c hc => (h c hc).1).trans (if_pos fun c hc => (h c hc).2)

end CustomElements.Json
