import CustomElements.Proofs.Json.PlainReading

/-!
# What is left of a rendering

Without its comments and trailing commas a rendering is a rendering of the same value, in plain
JSON. The two passes give its text, so that the reader reads that value.
-/

namespace CustomElements.Json

theorem isSpace_feed : isSpace (.scalar '\n') = true := rfl

/-- The gap without comments; the line feed that ends a line comment stays. -/
def GapItem.plain : GapItem → Gap
  | space p blank => [.space p blank]
  | line _ _ => [.space (.scalar '\n') isSpace_feed]
  | block _ _ => []

def Gap.plain (g : Gap) : Gap := g.flatMap GapItem.plain

def Label.plain {s : Shape} : Label s → Label s
  | item => item
  | key pieces before after => key pieces (Gap.plain before) (Gap.plain after)

mutual

def Rendering.plain : Rendering → Rendering
  | .word w => .word w
  | .number n => .number n
  | .string pieces => .string pieces
  | .empty s gap => .empty s (Gap.plain gap)
  | .full s gap row => .full s (Gap.plain gap) row.plain

def Row.plain {s : Shape} : Row s → Row s
  | .last label value gap trailing =>
    .last label.plain value.plain (Gap.plain gap ++ Gap.plain (trailing.getD [])) none
  | .more label value gap after rest =>
    .more label.plain value.plain (Gap.plain gap) (Gap.plain after) rest.plain

end

def Document.plain (d : Document) : Document :=
  ⟨Gap.plain d.before, d.root.plain, Gap.plain d.after, none⟩

@[simp] theorem Gap.chunks_append (g h : Gap) :
    Gap.chunks (g ++ h) = Gap.chunks g ++ Gap.chunks h := List.flatMap_append

theorem Gap.chunks_plain (g : Gap) :
    Gap.chunks (Gap.plain g) = (Gap.chunks g).filter Chunk.isPlain := by
  induction g with
  | nil => rfl
  | cons i g ih =>
    rw [Gap.plain, Gap.chunks, Gap.chunks, List.flatMap_cons, List.flatMap_cons,
      List.flatMap_append, List.filter_append, ← Gap.plain, ← Gap.chunks, ← Gap.chunks, ih]
    cases i <;> rfl

theorem Label.chunks_plain {s : Shape} (label : Label s) :
    label.plain.chunks = label.chunks.filter Chunk.isPlain := by
  cases label with
  | item => rfl
  | key pieces before after =>
    rw [Label.plain, Label.chunks, Label.chunks, List.filter_cons_of_pos rfl, List.filter_append,
      List.filter_cons_of_pos rfl, Gap.chunks_plain, Gap.chunks_plain]

theorem trailingChunks_plain {s : Shape} (trailing : Option Gap) :
    Gap.chunks (Gap.plain (trailing.getD [])) ++ [Chunk.closing s] =
      (trailingChunks trailing ++ [Chunk.closing s]).filter Chunk.isPlain := by
  cases trailing with
  | none => rfl
  | some gap =>
    rw [trailingChunks, List.cons_append, List.filter_cons_of_neg (by decide), List.filter_append,
      Option.getD_some, Gap.chunks_plain]
    rfl

mutual

theorem Rendering.chunks_plain (r : Rendering) :
    r.plain.chunks = r.chunks.filter Chunk.isPlain := by
  match r with
  | .word w | .number n | .string pieces => rfl
  | .empty s gap =>
    rw [Rendering.plain, Rendering.chunks, Rendering.chunks, List.filter_cons_of_pos rfl,
      List.filter_append, Gap.chunks_plain]
    rfl
  | .full s gap row =>
    rw [Rendering.plain, Rendering.chunks, Rendering.chunks, List.filter_cons_of_pos rfl,
      List.filter_append, Gap.chunks_plain, row.chunks_plain]

theorem Row.chunks_plain {s : Shape} (row : Row s) :
    row.plain.chunks = row.chunks.filter Chunk.isPlain := by
  match row with
  | .last label value gap trailing =>
    have hbehind := trailingChunks_plain (s := s) trailing
    rw [Row.plain, Row.chunks, Row.chunks, List.filter_append, List.filter_append,
      List.filter_append, label.chunks_plain, value.chunks_plain, Gap.chunks_append,
      Gap.chunks_plain, List.append_assoc, ← hbehind]
    rfl
  | .more label value gap after rest =>
    rw [Row.plain, Row.chunks, Row.chunks, List.filter_append, List.filter_append,
      List.filter_append, List.filter_cons_of_pos rfl, List.filter_append, label.chunks_plain,
      value.chunks_plain, Gap.chunks_plain, Gap.chunks_plain, rest.chunks_plain]

end

theorem Label.name_plain {s : Shape} (label : Label s) : label.plain.name = label.name := by
  cases label <;> rfl

mutual

/-- Comments and trailing commas have no part in the value. -/
theorem Rendering.value_plain (r : Rendering) : r.plain.value = r.value := by
  match r with
  | .word w | .number n | .string pieces => rfl
  | .empty s gap => cases s <;> rfl
  | .full .array gap row =>
    rw [Rendering.plain, Rendering.value, Rendering.value, row.entries_plain]
  | .full .object gap row =>
    rw [Rendering.plain, Rendering.value, Rendering.value, row.entries_plain]

theorem Row.entries_plain {s : Shape} (row : Row s) : row.plain.entries = row.entries := by
  match row with
  | .last label value gap trailing =>
    rw [Row.plain, Row.entries, Row.entries, label.name_plain, value.value_plain]
  | .more label value gap after rest =>
    rw [Row.plain, Row.entries, Row.entries, label.name_plain, value.value_plain,
      rest.entries_plain]

end

theorem Document.chunks_plain (d : Document) :
    d.plain.chunks = d.chunks.filter Chunk.isPlain := by
  have hlast : (lastChunks d.last).filter Chunk.isPlain = lastChunks none := by
    cases d.last <;> rfl
  rw [Document.plain, Document.chunks, Document.chunks, List.filter_append, List.filter_append,
    List.filter_append, Gap.chunks_plain, Gap.chunks_plain, d.root.chunks_plain, hlast]

/-- Taking out comments and trailing commas undoes what a rendering has more than plain JSON. What
is left is the text of the other chunks as they are, string literals among them; these chunks make
a rendering of the same value, the reader gives this value, and a text that has nothing to take out
stays as it is. The reader takes no integers with too many digits. -/
theorem plain_rendering (d : Document) :
    plain d.text = textOf (d.chunks.filter Chunk.isPlain) ∧
      (∃ d' : Document, d'.chunks = d.chunks.filter Chunk.isPlain ∧
        d'.root.value = d.root.value) ∧
      ((∀ c ∈ d.chunks, c.Fits) → parse (plain d.text) = .ok d.root.value) ∧
      ((∀ c ∈ d.chunks, c.isPlain) → plain d.text = d.text) := by
  have hplain := plain_textOf d.wellPlaced
  refine ⟨hplain, ⟨d.plain, d.chunks_plain, d.root.value_plain⟩, fun hfits => ?_, fun h => ?_⟩
  · have hchunks : ∀ c ∈ d.plain.chunks, c.isPlain ∧ c.Fits := by
      intro c hc
      rw [d.chunks_plain, List.mem_filter] at hc
      exact ⟨hc.2, hfits c hc.1⟩
    have hread := d.plain.read hchunks
    rw [Document.text, d.chunks_plain, ← hplain] at hread
    exact hread.trans (congrArg Except.ok d.root.value_plain)
  · rw [Document.text, hplain, List.filter_eq_self.2 h]

/-- An object with a comment that holds a quote, an escaped quote before a slash, and two trailing
commas with comments behind them. -/
def nested : Document where
  before := [.line " \"settings\"" (by decide)]
  root := .full .object [] (.last
    (.key [.plain (.scalar 'a') (by decide) (by decide)] [] [.space (.scalar ' ') rfl])
    (.full .array [] (.more .item (.word .null) [] []
      (.last .item (.string [.short (.scalar '"') '"' rfl,
        .plain (.scalar '/') (by decide) (by decide), .plain (.scalar '/') (by decide) (by decide)])
        [] (some [.block " ] " (by decide)]))))
    [.space (.scalar '\n') isSpace_feed] (some [.line " last" (by decide)]))
  after := []
  last := none

theorem plain_rendering_nested :
    nested.text = "// \"settings\"\n\x7b\"a\": [null,\"\\\"//\",/* ] */]\n,// last\n\x7d" ∧
      plain nested.text = "\n\x7b\"a\": [null,\"\\\"//\"]\n\n\x7d" ∧
      parse (plain nested.text) = .ok (.object [("a", .array [.null, .string "\"//"])]) := by
  have hfits : ∀ c ∈ nested.chunks, c.Fits := by
    decide +kernel
  have h := plain_rendering nested
  refine ⟨by rfl, h.1.trans (by rfl), (h.2.2.1 hfits).trans (by rfl)⟩

end CustomElements.Json
