import CustomElements.Text.Basic

/-!
# Splitting texts

A text that is put together from pieces with separators between them is split into these pieces,
as long as no piece holds the separator. Every text is its pieces with separators between them.
-/

namespace CustomElements.Text

variable {sep : CodePoint} {t r : Text}

theorem splitOn_of_not_mem (h : sep ∉ t) : splitOn sep t = [t] := by
  induction t with
  | nil => rfl
  | cons c t ih =>
    rw [List.mem_cons, not_or] at h
    rw [splitOn, if_neg (Ne.symm h.1), ih h.2]

theorem splitOn_ne_nil (sep : CodePoint) (t : Text) : splitOn sep t ≠ [] := by
  cases t with
  | nil => exact List.cons_ne_nil _ _
  | cons c t =>
    rw [splitOn]
    split
    · exact List.cons_ne_nil _ _
    · split
      · exact List.cons_ne_nil _ _
      · exact List.cons_ne_nil _ _

/-- What is split at a separator is split on both sides of it. -/
theorem splitOn_append_sep (sep : CodePoint) (t r : Text) :
    splitOn sep (t ++ sep :: r) = splitOn sep t ++ splitOn sep r := by
  induction t with
  | nil => rw [List.nil_append, splitOn.eq_2, if_pos rfl, splitOn, List.singleton_append]
  | cons c t ih =>
    rw [List.cons_append, splitOn, splitOn]
    split
    · rw [ih, List.cons_append]
    · obtain ⟨piece, pieces, hp⟩ := List.exists_cons_of_ne_nil (splitOn_ne_nil sep t)
      rw [ih, hp, List.cons_append, List.cons_append]

/-- The first piece ends at the first separator. -/
theorem splitOn_append (h : sep ∉ t) (r : Text) :
    splitOn sep (t ++ sep :: r) = t :: splitOn sep r := by
  rw [splitOn_append_sep, splitOn_of_not_mem h, List.singleton_append]

/-- The lines of a text of whole lines; behind the last line end is an empty one. -/
theorem splitOn_lines {lines : List Text} (h : ∀ l ∈ lines, sep ∉ l) :
    splitOn sep (lines.flatMap fun l => l ++ [sep]) = lines ++ [[]] := by
  induction lines with
  | nil => rfl
  | cons l lines ih =>
    rw [List.forall_mem_cons] at h
    rw [List.flatMap_cons, List.append_assoc, List.singleton_append, splitOn_append h.1, ih h.2,
      List.cons_append]

/-- Names with separators between them are told apart again. -/
theorem splitOn_join {names : List Text} (hne : names ≠ []) (h : ∀ n ∈ names, sep ∉ n) :
    splitOn sep (join [sep] names) = names := by
  induction names with
  | nil => exact absurd rfl hne
  | cons n names ih =>
    rw [List.forall_mem_cons] at h
    cases names with
    | nil => exact splitOn_of_not_mem h.1
    | cons m names =>
      rw [join, List.append_assoc, List.singleton_append, splitOn_append h.1,
        ih (List.cons_ne_nil m names) h.2]
      exact List.cons_ne_nil m names

theorem join_cons_of_ne_nil {t : Text} {names : List Text} (hne : names ≠ []) (sep : Text) :
    join sep (t :: names) = t ++ sep ++ join sep names := by
  obtain ⟨n, ns, rfl⟩ := List.exists_cons_of_ne_nil hne
  rw [join]
  exact List.cons_ne_nil n ns

/-- Behind the first piece there is a separator before each piece. -/
theorem join_cons_eq (sep t : Text) (names : List Text) :
    join sep (t :: names) = t ++ names.flatMap fun n => sep ++ n := by
  induction names generalizing t with
  | nil => exact (List.append_nil t).symm
  | cons n names ih =>
    rw [join_cons_of_ne_nil (List.cons_ne_nil n names), ih, List.flatMap_cons]
    simp only [List.append_assoc]

/-- Every piece of a row is in the row. -/
theorem subset_join {sep piece : Text} {pieces : List Text} (h : piece ∈ pieces) :
    piece ⊆ join sep pieces := by
  induction pieces with
  | nil => cases h
  | cons t pieces ih =>
    by_cases hne : pieces = []
    · subst hne
      rw [List.mem_singleton.1 h]
      exact List.Subset.refl _
    · rw [join_cons_of_ne_nil hne]
      rcases List.mem_cons.1 h with rfl | h
      · exact List.subset_append_of_subset_left _ (List.subset_append_left _ _)
      · exact List.subset_append_of_subset_right _ (ih h)

theorem join_append {names more : List Text} (hn : names ≠ []) (hm : more ≠ []) (sep : Text) :
    join sep (names ++ more) = join sep names ++ sep ++ join sep more := by
  induction names with
  | nil => exact absurd rfl hn
  | cons n names ih =>
    by_cases hnames : names = []
    · rw [hnames, List.singleton_append, join_cons_of_ne_nil hm]
      rfl
    · rw [List.cons_append, join_cons_of_ne_nil (List.append_ne_nil_of_left_ne_nil hnames more),
        join_cons_of_ne_nil hnames, ih hnames]
      simp only [List.append_assoc]

/-- The pieces with separators between them are the text. -/
theorem join_splitOn (sep : CodePoint) (t : Text) : join [sep] (splitOn sep t) = t := by
  induction t with
  | nil => rfl
  | cons c t ih =>
    have hne := splitOn_ne_nil sep t
    rw [splitOn]
    split
    · next hc => rw [join_cons_of_ne_nil hne, ih, hc, List.nil_append, List.singleton_append]
    · obtain ⟨piece, pieces, hp⟩ := List.exists_cons_of_ne_nil hne
      rw [hp] at ih ⊢
      cases pieces with
      | nil => exact congrArg (c :: ·) ih
      | cons q pieces =>
        rw [join_cons_of_ne_nil (List.cons_ne_nil q pieces)] at ih ⊢
        exact congrArg (c :: ·) ih

/-- Names that are split themselves give all of their pieces. -/
theorem splitOn_join_eq_flatMap {names : List Text} (hne : names ≠ []) :
    splitOn sep (join [sep] names) = names.flatMap (splitOn sep) := by
  induction names with
  | nil => exact absurd rfl hne
  | cons n names ih =>
    by_cases hnames : names = []
    · rw [hnames, List.flatMap_singleton]
      rfl
    · rw [join_cons_of_ne_nil hnames, List.append_assoc, List.singleton_append, splitOn_append_sep,
        ih hnames, List.flatMap_cons]

/-- The pieces hold all characters but the separators. -/
theorem flatten_splitOn (sep : CodePoint) (t : Text) :
    (splitOn sep t).flatten = t.filter fun c => decide (c ≠ sep) := by
  induction t with
  | nil => rfl
  | cons c t ih =>
    by_cases hc : c = sep
    · rw [splitOn, if_pos hc, List.filter_cons_of_neg (by simpa using hc), List.flatten_cons, ih,
        List.nil_append]
    · obtain ⟨piece, pieces, hp⟩ := List.exists_cons_of_ne_nil (splitOn_ne_nil sep t)
      rw [hp, List.flatten_cons] at ih
      rw [splitOn, if_neg hc, hp, List.filter_cons_of_pos (by simpa using hc), List.flatten_cons,
        List.cons_append, ih]

/-- No piece holds the separator. -/
theorem not_mem_of_mem_splitOn {piece : Text} (h : piece ∈ splitOn sep t) : sep ∉ piece := by
  intro hm
  have hflat : sep ∈ (splitOn sep t).flatten := List.mem_flatten.2 ⟨piece, h, hm⟩
  rw [flatten_splitOn] at hflat
  simpa using (List.mem_filter.1 hflat).2

theorem length_splitOn (sep : CodePoint) (t : Text) :
    (splitOn sep t).length = t.count sep + 1 := by
  induction t with
  | nil => rfl
  | cons c t ih =>
    by_cases hc : c = sep
    · rw [splitOn, if_pos hc, hc, List.count_cons_self, List.length_cons, ih]
    · obtain ⟨piece, pieces, hp⟩ := List.exists_cons_of_ne_nil (splitOn_ne_nil sep t)
      rw [hp, List.length_cons] at ih
      rw [splitOn, if_neg hc, hp, List.count_cons_of_ne hc, List.length_cons, ih]

end CustomElements.Text
