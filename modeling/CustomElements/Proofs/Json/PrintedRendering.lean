import CustomElements.Proofs.Json.PlainRendering
import CustomElements.Proofs.Json.Quoting
import CustomElements.Proofs.Text.Encodable

/-!
# Printing is a rendering

What the printer writes with each item on a line of its own is a rendering in plain JSON, so values
of words and texts of characters are read back as they are. A character beyond the first plane is
printed as two escapes that are read as the one character again. A text with surrogates may be read
as another one, since two of them in a row become one character.
-/

namespace CustomElements.Json

section Pieces

/-- A unit that is no high surrogate stands for itself, whatever comes after it. -/
theorem decode_unit {a b c d : Char} {n : Nat} (digits : hexValue? [a, b, c, d] = some n)
    (hn : isHighUnit n = false) (ps : List StringPiece) :
    decode (.unit a b c d n digits :: ps) = .ofNat n :: decode ps := by
  cases ps with
  | nil => rfl
  | cons q ps =>
    cases q with
    | plain _ _ _ | short _ _ _ => rfl
    | unit a' b' c' d' m h =>
      rw [decode, hn]
      rfl

/-- A high surrogate and the low one after it stand for one character. -/
theorem decode_pair {a b c d a' b' c' d' : Char} {n m : Nat}
    (digits : hexValue? [a, b, c, d] = some n) (digits' : hexValue? [a', b', c', d'] = some m)
    (hn : isHighUnit n) (hm : isLowUnit m) (ps : List StringPiece) :
    decode (.unit a b c d n digits :: .unit a' b' c' d' m digits' :: ps) =
      .ofNat (0x10000 + (n - 0xD800) * 0x400 + (m - 0xDC00)) :: decode ps := by
  rw [decode, hn, hm]
  rfl

theorem ofNat_val (p : CodePoint) : CodePoint.ofNat p.val = p := by
  rw [CodePoint.ofNat, CodePoint.ofNat?_val]
  rfl

/-- What stands for a character in a quoted text reads as the character, and has no effect on what
comes after it. -/
theorem exists_pieces_scalar (c : Char) :
    ∃ ps, escapePoint (.scalar c) = piecesText ps ∧
      ∀ qs, decode (ps ++ qs) = .scalar c :: decode qs := by
  generalize hp : CodePoint.scalar c = p
  unfold escapePoint
  split
  · exact ⟨[.short (.scalar '"') '"' rfl], rfl, fun _ => rfl⟩
  · exact ⟨[.short (.scalar '\\') '\\' rfl], rfl, fun _ => rfl⟩
  · exact ⟨[.short (.scalar 'n') '\n' rfl], rfl, fun _ => rfl⟩
  · exact ⟨[.short (.scalar 'r') '\r' rfl], rfl, fun _ => rfl⟩
  · exact ⟨[.short (.scalar 't') '\t' rfl], rfl, fun _ => rfl⟩
  · exact ⟨[.short (.scalar 'f') '\x0c' rfl], rfl, fun _ => rfl⟩
  · exact ⟨[.short (.scalar 'b') '\x08' rfl], rfl, fun _ => rfl⟩
  · next hquote hslash _ _ _ _ _ =>
    have hvalid : Nat.isValidChar p.val := hp ▸ c.valid
    unfold Nat.isValidChar at hvalid
    dsimp only
    split
    · next hprinted =>
      rw [Bool.and_eq_true, decide_eq_true_eq, decide_eq_true_eq] at hprinted
      exact ⟨[.plain p hprinted.1 ⟨hquote, hslash⟩], rfl, fun _ => rfl⟩
    · split
      · next hsmall =>
        refine ⟨[.unit _ _ _ _ p.val (hexValue?_hexDigits hsmall)], rfl, fun qs => ?_⟩
        have hhigh : isHighUnit p.val = false := by
          rw [isHighUnit, Bool.and_eq_false_iff, decide_eq_false_iff_not, decide_eq_false_iff_not]
          omega
        exact (decode_unit _ hhigh qs).trans (by rw [ofNat_val])
      · have hn : 0xD800 + (p.val - 0x10000) / 0x400 < 0x10000 := by omega
        have hm : 0xDC00 + (p.val - 0x10000) % 0x400 < 0x10000 := by omega
        refine ⟨[.unit _ _ _ _ _ (hexValue?_hexDigits hn),
          .unit _ _ _ _ _ (hexValue?_hexDigits hm)], rfl, fun qs => ?_⟩
        have hhigh : isHighUnit (0xD800 + (p.val - 0x10000) / 0x400) := by
          rw [isHighUnit, Bool.and_eq_true, decide_eq_true_eq, decide_eq_true_eq]
          omega
        have hlow : isLowUnit (0xDC00 + (p.val - 0x10000) % 0x400) := by
          rw [isLowUnit, Bool.and_eq_true, decide_eq_true_eq, decide_eq_true_eq]
          omega
        have hval : 0x10000 + (0xD800 + (p.val - 0x10000) / 0x400 - 0xD800) * 0x400 +
            (0xDC00 + (p.val - 0x10000) % 0x400 - 0xDC00) = p.val := by omega
        refine (decode_pair _ _ hhigh hlow qs).trans ?_
        rw [hval, ofNat_val]

/-- A quoted text of characters is a string literal that reads as the text. -/
theorem exists_pieces_of_isEncodable {t : Text} (h : t.IsEncodable) :
    ∃ ps, quote t = .scalar '"' :: (piecesText ps ++ [.scalar '"']) ∧ decode ps = t := by
  have hbody : ∃ ps, t.flatMap escapePoint = piecesText ps ∧ decode ps = t := by
    induction t with
    | nil => exact ⟨[], rfl, rfl⟩
    | cons p t ih =>
      rw [Text.isEncodable_cons] at h
      cases p with
      | surrogate k => cases h.1
      | scalar c =>
        obtain ⟨ps, htext, hdecode⟩ := exists_pieces_scalar c
        obtain ⟨qs, hrest, hvalue⟩ := ih h.2
        refine ⟨ps ++ qs, ?_, ?_⟩
        · rw [List.flatMap_cons, htext, hrest, piecesText, piecesText, piecesText,
            List.flatMap_append]
        · rw [hdecode, hvalue]
  obtain ⟨ps, htext, hdecode⟩ := hbody
  refine ⟨ps, ?_, hdecode⟩
  rw [quote, htext]
  rfl

end Pieces

/-- Values of words and texts of characters, without numbers. -/
inductive IsTextual : Json → Prop
  | null : IsTextual .null
  | bool (b : Bool) : IsTextual (.bool b)
  | string {t : Text} (h : t.IsEncodable) : IsTextual (.string t)
  | array {vs : List Json} (h : ∀ v ∈ vs, IsTextual v) : IsTextual (.array vs)
  | object {ms : List (Text × Json)} (keys : ∀ m ∈ ms, m.1.IsEncodable)
      (values : ∀ m ∈ ms, IsTextual m.2) : IsTextual (.object ms)

namespace IsTextual

@[simp] theorem bool_iff {b : Bool} : IsTextual (.bool b) ↔ True := iff_true_intro (.bool b)

@[simp] theorem string_iff {t : Text} : IsTextual (.string t) ↔ t.IsEncodable :=
  ⟨fun | .string h => h, .string⟩

@[simp] theorem array_iff {vs : List Json} : IsTextual (.array vs) ↔ ∀ v ∈ vs, IsTextual v :=
  ⟨fun | .array h => h, .array⟩

@[simp] theorem object_iff {ms : List (Text × Json)} :
    IsTextual (.object ms) ↔ ∀ m ∈ ms, m.1.IsEncodable ∧ IsTextual m.2 :=
  ⟨fun | .object keys values => fun m hm => ⟨keys m hm, values m hm⟩,
    fun h => .object (fun m hm => (h m hm).1) fun m hm => (h m hm).2⟩

end IsTextual

section Rows

theorem isSpace_blank : isSpace (.scalar ' ') = true := rfl

/-- The white space that begins a line at a level. -/
def lineGap (level : Nat) : Gap :=
  .space (.scalar '\n') isSpace_feed ::
    List.replicate (2 * level) (.space (.scalar ' ') isSpace_blank)

theorem textOf_lineGap (level : Nat) :
    textOf (Gap.chunks (lineGap level)) = Layout.indented.newLine level := by
  have hblanks (k : Nat) :
      textOf (Gap.chunks (List.replicate k (.space (.scalar ' ') isSpace_blank))) =
        List.replicate k (.scalar ' ') := by
    induction k with
    | zero => rfl
    | succ k ih =>
      rw [List.replicate_succ, List.replicate_succ, ← ih]
      rfl
  exact congrArg (.scalar '\n' :: ·) (hblanks (2 * level))

/-- A chunk of plain JSON that is read whatever its length. -/
def Chunk.IsRead (c : Chunk) : Prop := c.isPlain ∧ c.Fits

instance (c : Chunk) : Decidable c.IsRead := inferInstanceAs (Decidable (_ ∧ _))

theorem isRead_lineGap (level : Nat) : ∀ c ∈ Gap.chunks (lineGap level), c.IsRead := by
  intro c hc
  obtain ⟨i, hi, hc⟩ := List.mem_flatMap.1 hc
  rcases List.mem_cons.1 hi with rfl | hi
  · obtain rfl := List.mem_singleton.1 hc
    exact ⟨rfl, trivial⟩
  · obtain rfl := List.eq_of_mem_replicate hi
    obtain rfl := List.mem_singleton.1 hc
    exact ⟨rfl, trivial⟩

/-- There is a plain rendering of a value with this text. -/
def HasRendering (t : Text) (v : Json) : Prop :=
  ∃ r : Rendering, textOf r.chunks = t ∧ r.value = v ∧ ∀ c ∈ r.chunks, c.IsRead

/-- There is a plain rendering of an entry with this text. -/
def HasEntry (s : Shape) (t : Text) (entry : Text × Json) : Prop :=
  ∃ (label : Label s) (r : Rendering), textOf (label.chunks ++ r.chunks) = t ∧
    (label.name, r.value) = entry ∧ ∀ c ∈ label.chunks ++ r.chunks, c.IsRead

theorem HasRendering.hasEntry {t : Text} {v : Json} (h : HasRendering t v) :
    HasEntry .array t ([], v) := by
  obtain ⟨r, htext, hvalue, hread⟩ := h
  exact ⟨.item, r, htext, congrArg (([] : Text), ·) hvalue, hread⟩

theorem HasRendering.hasEntry_key {t key : Text} {v : Json} (h : HasRendering t v)
    (hkey : key.IsEncodable) : HasEntry .object (quote key ++ (": " ++ t)) (key, v) := by
  obtain ⟨r, htext, hvalue, hread⟩ := h
  obtain ⟨ps, hquote, hdecode⟩ := exists_pieces_of_isEncodable hkey
  refine ⟨.key ps [] [.space (.scalar ' ') isSpace_blank], r, ?_, Prod.ext hdecode hvalue, ?_⟩
  · rw [textOf_append, htext, hquote]
    exact List.append_assoc (.scalar '"' :: (piecesText ps ++ [.scalar '"']))
      [.scalar ':', .scalar ' '] t
  · have hlabel :
        ∀ c ∈ [Chunk.string ps, .colon, .space (.scalar ' ') isSpace_blank], c.IsRead := by
      simp only [List.forall_mem_cons]
      exact ⟨⟨rfl, trivial⟩, ⟨rfl, trivial⟩, ⟨rfl, trivial⟩, List.forall_mem_nil _⟩
    exact List.forall_mem_append.2 ⟨hlabel, hread⟩

variable {α : Type} {s : Shape} {text : α → Text} {entry : α → Text × Json}

/-- What stands between the brackets, and the closing bracket, if each entry is on a line of its
own with commas between them. -/
def rowText (s : Shape) (level : Nat) (text : α → Text) (x : α) (xs : List α) : Text :=
  text x ++ ((xs.flatMap fun y => ("," : Text) ++ Layout.indented.newLine (level + 1) ++ text y) ++
    (Layout.indented.newLine level ++ [.scalar s.closeChar]))

theorem rowText_cons (s : Shape) (level : Nat) (text : α → Text) (x y : α) (ys : List α) :
    rowText s level text x (y :: ys) = text x ++ (.scalar ',' ::
      (Layout.indented.newLine (level + 1) ++ rowText s level text y ys)) := by
  rw [rowText, rowText, List.flatMap_cons]
  simp only [List.append_assoc]
  rfl

theorem exists_row (level : Nat) {x : α} {xs : List α}
    (h : ∀ y ∈ x :: xs, HasEntry s (text y) (entry y)) :
    ∃ row : Row s, textOf row.chunks = rowText s level text x xs ∧
      row.entries = (x :: xs).map entry ∧ ∀ c ∈ row.chunks, c.IsRead := by
  induction xs generalizing x with
  | nil =>
    obtain ⟨label, r, htext, hentry, hread⟩ := h x List.mem_cons_self
    refine ⟨.last label r (lineGap level) none, ?_, congrArg ([·]) hentry, ?_⟩
    · rw [Row.chunks, ← List.append_assoc, textOf_append, htext, textOf_append, textOf_lineGap]
      rfl
    · rw [Row.chunks, ← List.append_assoc]
      refine List.forall_mem_append.2 ⟨hread, List.forall_mem_append.2 ⟨isRead_lineGap level, ?_⟩⟩
      exact List.forall_mem_singleton.2 ⟨rfl, trivial⟩
  | cons y xs ih =>
    rw [List.forall_mem_cons] at h
    obtain ⟨label, r, htext, hentry, hread⟩ := h.1
    obtain ⟨row, hrow, hentries, hrest⟩ := ih h.2
    refine ⟨.more label r [] (lineGap (level + 1)) row, ?_, ?_, ?_⟩
    · rw [Row.chunks, ← List.append_assoc, textOf_append, htext, textOf_append, textOf_cons,
        textOf_append, textOf_lineGap, hrow, rowText_cons]
      rfl
    · rw [Row.entries, hentries]
      exact congrArg (· :: _) hentry
    · rw [Row.chunks, ← List.append_assoc]
      refine List.forall_mem_append.2 ⟨hread, List.forall_mem_cons.2 ⟨⟨rfl, trivial⟩, ?_⟩⟩
      exact List.forall_mem_append.2 ⟨isRead_lineGap (level + 1), hrest⟩

/-- An array or an object has a rendering if its entries have. -/
theorem hasRendering_full (level : Nat) {x : α} {xs : List α}
    (h : ∀ y ∈ x :: xs, HasEntry s (text y) (entry y)) :
    HasRendering (.scalar s.openChar :: (Layout.indented.newLine (level + 1) ++
      rowText s level text x xs)) (s.value ((x :: xs).map entry)) := by
  obtain ⟨row, htext, hentries, hread⟩ := exists_row level h
  refine ⟨.full s (lineGap (level + 1)) row, ?_, ?_, ?_⟩
  · rw [Rendering.chunks, textOf_cons, textOf_append, textOf_lineGap, htext]
    rfl
  · rw [← hentries]
    cases s <;> rfl
  · rw [Rendering.chunks, List.forall_mem_cons, List.forall_mem_append]
    exact ⟨⟨rfl, trivial⟩, isRead_lineGap (level + 1), hread⟩

end Rows

theorem renderItems_eq (l : Layout) (level : Nat) (vs : List Json) : renderItems l level vs =
    vs.flatMap fun v => l.item ++ l.newLine level ++ renderAt l level v := by
  induction vs with
  | nil => rw [renderItems, List.flatMap_nil]
  | cons v vs ih => rw [renderItems, ih, List.flatMap_cons]

theorem renderMembers_eq (l : Layout) (level : Nat) (ms : List (Text × Json)) :
    renderMembers l level ms = ms.flatMap fun m =>
      l.item ++ l.newLine level ++ (quote m.1 ++ (l.key ++ renderAt l level m.2)) := by
  induction ms with
  | nil => rw [renderMembers, List.flatMap_nil]
  | cons m ms ih =>
    rw [renderMembers, ih, List.flatMap_cons]
    simp only [List.append_assoc]

/-- What is printed of a value of words and texts is a rendering of the value. -/
theorem hasRendering_renderAt {v : Json} (h : IsTextual v) (level : Nat) :
    HasRendering (renderAt .indented level v) v := by
  induction h generalizing level with
  | null => exact ⟨.word .null, rfl, rfl, by decide⟩
  | bool b =>
    cases b with
    | true => exact ⟨.word .true, rfl, rfl, by decide⟩
    | false => exact ⟨.word .false, rfl, rfl, by decide⟩
  | string ht =>
    obtain ⟨ps, hquote, hdecode⟩ := exists_pieces_of_isEncodable ht
    refine ⟨.string ps, ?_, congrArg Json.string hdecode,
      List.forall_mem_singleton.2 ⟨rfl, trivial⟩⟩
    rw [renderAt, hquote]
    exact List.append_nil _
  | @array vs _ ih =>
    cases vs with
    | nil => exact ⟨.empty .array [], rfl, rfl, by decide⟩
    | cons v vs =>
      have hfull := hasRendering_full level fun w hw => (ih w hw (level + 1)).hasEntry
      have hvalue : Shape.array.value ((v :: vs).map fun w => ([], w)) = .array (v :: vs) := by
        rw [Shape.value, List.map_map]
        exact congrArg Json.array (List.map_id _)
      have htext : renderAt .indented level (.array (v :: vs)) =
          .scalar '[' :: (Layout.indented.newLine (level + 1) ++
            rowText .array level (renderAt .indented (level + 1)) v vs) := by
        rw [renderAt, renderItems_eq, rowText]
        simp only [List.append_assoc]
        rfl
      rwa [htext, ← hvalue]
  | @object ms keys _ ih =>
    cases ms with
    | nil => exact ⟨.empty .object [], rfl, rfl, by decide⟩
    | cons m ms =>
      have hentry : ∀ w ∈ m :: ms, HasEntry .object
          (quote w.1 ++ (": " ++ renderAt .indented (level + 1) w.2)) (id w) :=
        fun w hw => (ih w hw (level + 1)).hasEntry_key (keys w hw)
      have hfull := hasRendering_full level hentry
      have htext : renderAt .indented level (.object (m :: ms)) =
          .scalar '\x7b' :: (Layout.indented.newLine (level + 1) ++
            rowText .object level
              (fun w => quote w.1 ++ (": " ++ renderAt .indented (level + 1) w.2)) m ms) := by
        rw [renderAt, renderMembers_eq, rowText]
        simp only [List.append_assoc]
        rfl
      rw [List.map_id] at hfull
      rwa [htext]

/-- What is printed of a value of words and texts of characters is read as this value. -/
theorem parse_render_indented {v : Json} (h : IsTextual v) :
    parse (render .indented v ++ "\n") = .ok v := by
  obtain ⟨r, htext, hvalue, hread⟩ := hasRendering_renderAt h 0
  let d : Document := ⟨[], r, [.space (.scalar '\n') isSpace_feed], none⟩
  have hchunks : d.chunks = r.chunks ++ [.space (.scalar '\n') isSpace_feed] := rfl
  have hdocument : d.text = render .indented v ++ "\n" := by
    rw [Document.text, hchunks, textOf_append, htext]
    rfl
  have hparse := d.read (hchunks ▸ List.forall_mem_append.2 ⟨hread, by decide⟩)
  rwa [hdocument, hvalue] at hparse

end CustomElements.Json
