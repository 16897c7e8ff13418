import Mathlib.Data.List.Flatten
import CustomElements.Proofs.Files.NormalPath
import CustomElements.Proofs.Text.Splitting
import CustomElements.Proofs.Text.Trimming

/-!
# The text of a path

The text of a path reads as the path if its names are names that a text can hold, as those of every
path that was read from a text are. If the text of a place in a file tree ends with blanks, it reads
as another path without them: its names are shorter.
-/

namespace CustomElements

/-- A name that the text of a path can hold. -/
structure IsPathName (name : Text) : Prop where
  nonempty : name ≠ []
  noSlash : .scalar '/' ∉ name
  noDot : name ≠ (".": Text)

/-- A name that an entry of a directory can have. -/
structure IsFileName (name : Text) : Prop where
  nonempty : name ≠ []
  noSlash : .scalar '/' ∉ name
  noDot : name ≠ (".": Text)
  noDots : name ≠ ("..": Text)
  accepted : Workspace.checkName name = .ok ()

theorem IsFileName.isPathName {name : Text} (h : IsFileName name) : IsPathName name :=
  ⟨h.nonempty, h.noSlash, h.noDot⟩

/-- A path whose names a text can hold. -/
def Path.IsWritten (p : Path) : Prop := ∀ n ∈ p.parts, IsPathName n

/-- An absolute path down to an entry of a directory. -/
structure Path.IsPlace (p : Path) : Prop where
  fromRoot : p.anchor = .root
  names : ∀ n ∈ p.parts, IsFileName n

namespace Path

/-- What is seen from a path has all the names of that path and its own ones behind them. -/
theorem relativeTo?_eq_some {p base below : Path} : p.relativeTo? base = some below ↔
    p.anchor = base.anchor ∧ ∃ names, p.parts = base.parts ++ names ∧ below = ⟨.here, names⟩ := by
  unfold relativeTo?
  split
  · next h =>
    rw [Bool.and_eq_true, decide_eq_true_eq, List.isPrefixOf_iff_prefix] at h
    obtain ⟨hanchor, names, hnames⟩ := h
    rw [← hnames, List.drop_left, Option.some.injEq]
    constructor
    · rintro rfl
      exact ⟨hanchor, names, rfl, rfl⟩
    · rintro ⟨-, more, hmore, rfl⟩
      rw [List.append_cancel_left hmore]
  · next h =>
    refine iff_of_false nofun ?_
    rintro ⟨hanchor, names, hnames, -⟩
    refine h ?_
    rw [Bool.and_eq_true, decide_eq_true_eq, List.isPrefixOf_iff_prefix]
    exact ⟨hanchor, names, hnames.symm⟩

section Written

variable {names : List Text}

theorem isPathName_of_mem_partsOf {t n : Text} (h : n ∈ partsOf t) : IsPathName n := by
  obtain ⟨hpiece, hkept⟩ := List.mem_filter.1 h
  rw [Bool.and_eq_true, Bool.not_eq_true', List.isEmpty_eq_false_iff, decide_eq_true_eq] at hkept
  exact ⟨hkept.1, Text.not_mem_of_mem_splitOn hpiece, hkept.2⟩

theorem isWritten_ofText (t : Text) : (ofText t).IsWritten :=
  fun _ hn => isPathName_of_mem_partsOf hn

theorem IsPlace.isNormal {p : Path} (h : p.IsPlace) : p.IsNormal :=
  ⟨h.fromRoot, fun hm => (h.names _ hm).noDots rfl⟩

theorem IsPlace.isWritten {p : Path} (h : p.IsPlace) : p.IsWritten :=
  fun n hn => (h.names n hn).isPathName

theorem partsOf_append (t u : Text) :
    partsOf (t ++ .scalar '/' :: u) = partsOf t ++ partsOf u := by
  rw [partsOf, Text.splitOn_append_sep, List.filter_append]
  rfl

/-- Names with slashes between them are read as these names. -/
theorem partsOf_join (h : ∀ n ∈ names, IsPathName n) : partsOf (Text.join "/" names) = names := by
  by_cases hne : names = []
  · rw [hne]
    rfl
  · have hsplit : (Text.join "/" names).splitOn '/' = names :=
      Text.splitOn_join hne fun n hn => (h n hn).noSlash
    have hkept : ∀ n ∈ names, (!n.isEmpty && decide (n ≠ (".": Text))) = true := by
      intro n hn
      simp [(h n hn).nonempty, (h n hn).noDot]
    rw [partsOf, hsplit, List.filter_eq_self.2 hkept]

/-- Only the anchor puts slashes at the front of a path text. -/
theorem takeWhile_slash_join (h : ∀ n ∈ names, IsPathName n) :
    (Text.join "/" names).takeWhile (fun c => decide (c = .scalar '/')) = [] := by
  cases names with
  | nil => rfl
  | cons n names =>
    have hn := h n List.mem_cons_self
    obtain ⟨c, r, rfl⟩ := List.exists_cons_of_ne_nil hn.nonempty
    have hc : c ≠ .scalar '/' := fun heq => hn.noSlash (heq ▸ List.mem_cons_self)
    rw [Text.join_cons_eq, List.cons_append]
    exact List.takeWhile_cons_of_neg (by simpa using hc)

/-- The text of a path reads as the path. -/
theorem ofText_text {p : Path} (h : p.IsWritten) : ofText p.text = p := by
  obtain ⟨anchor, names⟩ := p
  have hparts := partsOf_join h
  have hslashes := takeWhile_slash_join h
  cases anchor with
  | here =>
    by_cases hne : names = []
    · rw [hne]
      rfl
    · have htext : (Path.mk .here names).text = Text.join "/" names := by
        simp [text, hne, anchorText]
      rw [htext, ofText, hslashes, hparts]
      rfl
  | root =>
    have hroot : partsOf (.scalar '/' :: Text.join "/" names) = names := by
      rw [← List.nil_append (_ :: _), partsOf_append, hparts]
      rfl
    have htext : (Path.mk .root names).text = .scalar '/' :: Text.join "/" names := rfl
    rw [htext, ofText, List.takeWhile_cons_of_pos (by decide), hslashes, hroot]
    rfl
  | doubleRoot =>
    have hroot : partsOf (.scalar '/' :: .scalar '/' :: Text.join "/" names) = names := by
      rw [← List.nil_append (_ :: _), partsOf_append, ← List.nil_append (_ :: _), partsOf_append,
        hparts]
      rfl
    have htext : (Path.mk .doubleRoot names).text =
        .scalar '/' :: .scalar '/' :: Text.join "/" names := rfl
    rw [htext, ofText, List.takeWhile_cons_of_pos (by decide),
      List.takeWhile_cons_of_pos (by decide), hslashes, hroot]
    rfl

/-- What is seen from a path leads back when it is joined to it. -/
theorem join_ofText_textFrom {p base : Path} (h : p.IsWritten) (hbelow : p.isBelow base) :
    base.join (.ofText (p.textFrom base)) = p := by
  obtain ⟨below, hsome⟩ := Option.isSome_iff_exists.1 hbelow
  obtain ⟨hanchor, names, hparts, rfl⟩ := relativeTo?_eq_some.1 hsome
  have hwritten : (Path.mk .here names).IsWritten :=
    fun n hn => h n (hparts ▸ List.mem_append_right _ hn)
  rw [textFrom, hsome, Option.getD_some, ofText_text hwritten]
  exact congrArg₂ Path.mk hanchor.symm hparts.symm

theorem textFrom_of_not_isBelow {p base : Path} (h : ¬p.isBelow base) : p.textFrom base = p.text := by
  rw [isBelow, Option.isSome_iff_ne_none, not_not] at h
  rw [textFrom, h]
  rfl

end Written

theorem text_of_fromRoot {p : Path} (h : p.anchor = .root) :
    p.text = .scalar '/' :: Text.join "/" p.parts := by
  simp [text, h, anchorText, Text.ofString, Text.ofChars]

theorem splitOn_text {p : Path} (h : p.IsPlace) (hne : p.parts ≠ []) :
    p.text.splitOn '/' = [] :: p.parts := by
  have hnames := Text.splitOn_join hne fun n hn => (h.names n hn).noSlash
  rw [text_of_fromRoot h.fromRoot, Text.splitOn, if_pos rfl]
  exact congrArg _ hnames

/-- The characters of the names are those of the text without slashes. -/
theorem flatten_parts {p : Path} (h : p.IsPlace) :
    p.parts.flatten = p.text.filter fun c => decide (c ≠ .scalar '/') := by
  rw [← Text.flatten_splitOn]
  by_cases hne : p.parts = []
  · rw [text_of_fromRoot h.fromRoot, hne]
    rfl
  · rw [splitOn_text h hne, List.flatten_cons, List.nil_append]

/-- The names of a text hold no more characters than the text has besides slashes. -/
theorem length_partsOf_le (t : Text) :
    (partsOf t).flatten.length ≤ (t.filter fun c => decide (c ≠ .scalar '/')).length := by
  rw [← Text.flatten_splitOn]
  exact (List.filter_sublist.flatten).length_le

theorem ofText_isAbsolute (t : Text) : (ofText (.scalar '/' :: t)).isAbsolute := by
  have hslash : ((CodePoint.scalar '/' :: t).takeWhile fun c => decide (c = .scalar '/')).length =
      (t.takeWhile fun c => decide (c = .scalar '/')).length + 1 := by
    rw [List.takeWhile_cons_of_pos (by decide), List.length_cons]
  rw [isAbsolute, ofText, hslash, decide_eq_true_eq]
  dsimp only
  split
  · next heq => omega
  · decide
  · decide

theorem ofText_stripRight_isAbsolute {p : Path} (h : p.anchor = .root) :
    (ofText p.text.stripRight).isAbsolute := by
  have hfront := Text.stripRight_append (by decide : (CodePoint.scalar '/').isBlank = false) []
    (Text.join "/" p.parts)
  rw [List.nil_append, List.nil_append] at hfront
  rw [text_of_fromRoot h, hfront]
  exact ofText_isAbsolute _

theorem length_normalParts_le (parts : List Text) :
    (normalParts parts).flatten.length ≤ parts.flatten.length := by
  suffices hf : ∀ before : List Text, (parts.foldl pushPart before).flatten.length ≤
      before.flatten.length + parts.flatten.length by
    exact (hf []).trans (Nat.zero_add _).le
  induction parts with
  | nil => simp
  | cons p ps ih =>
    intro before
    have hpush : (pushPart before p).flatten.length ≤ before.flatten.length + p.length := by
      unfold pushPart
      split
      · have hle := ((List.dropLast_sublist before).flatten).length_le
        omega
      · simp
    have hrest := ih (pushPart before p)
    rw [List.foldl_cons, List.flatten_cons, List.length_append]
    omega

/-- A text without the blanks at its end leads elsewhere. -/
theorem normal_stripRight_ne {p : Path} (h : p.IsPlace) (hblank : p.text.stripRight ≠ p.text)
    (current : Path) : normal current (ofText p.text.stripRight) ≠ p := by
  obtain ⟨blanks, htext, hblanks⟩ := Text.exists_stripRight p.text
  have hne : blanks ≠ [] := by
    rintro rfl
    rw [List.append_nil] at htext
    exact hblank htext.symm
  have hkept : (blanks.filter fun c => decide (c ≠ .scalar '/')) = blanks := by
    refine List.filter_eq_self.2 fun c hc => decide_eq_true ?_
    rintro rfl
    exact absurd (hblanks _ hc) (by decide)
  have hlength : (p.text.filter fun c => decide (c ≠ .scalar '/')).length =
      (p.text.stripRight.filter fun c => decide (c ≠ .scalar '/')).length + blanks.length := by
    have hsplit := congrArg (fun t : Text =>
      (t.filter fun c => decide (c ≠ .scalar '/')).length) htext
    simpa only [List.filter_append, hkept, List.length_append] using hsplit
  have habsolute := ofText_stripRight_isAbsolute h.fromRoot
  intro heq
  have hparts : normalParts (ofText p.text.stripRight).parts = p.parts := by
    have hnormal : normal current (ofText p.text.stripRight) =
        ⟨.root, normalParts (ofText p.text.stripRight).parts⟩ := by
      rw [normal, join, if_pos habsolute]
    exact congrArg parts (hnormal.symm.trans heq)
  have hle := (length_normalParts_le (ofText p.text.stripRight).parts).trans
    (length_partsOf_le p.text.stripRight)
  have hpos := List.length_pos_iff.2 hne
  rw [hparts, flatten_parts h, hlength] at hle
  omega

end Path

end CustomElements
