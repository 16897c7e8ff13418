import CustomElements.Proofs.Files.Search
import CustomElements.Proofs.FirstMatch

/-!
# The contents of the files in a tree

What a file tree holds is told by the contents that are at its names. Writing a file changes them at
the one place that its path leads to, and making directories changes them nowhere.
-/

namespace CustomElements.FileTree

/-- The contents of the file at a row of names, if there is a file. -/
def contentAt (t : FileTree) (names : List Text) : Option Bytes := (t.get? names).bind content?

variable {t t' new : FileTree} {place names : List Text}

theorem lookup_setEntry (name other : Text) (e : FileTree) (es : List (Text × FileTree)) :
    (setEntry name e es).lookup other = if other = name then some e else es.lookup other := by
  induction es with
  | nil => rw [setEntry, lookup_cons]
  | cons x es ih =>
    obtain ⟨first, d⟩ := x
    rw [setEntry]
    by_cases hfirst : first = name
    · subst hfirst
      rw [if_pos rfl, lookup_cons, lookup_cons]
      split <;> rfl
    · rw [if_neg hfirst, lookup_cons, lookup_cons, ih]
      by_cases h : other = name
      · rw [if_neg fun heq : other = first => hfirst (heq.symm.trans h), if_pos h, if_pos h]
      · rw [if_neg h, if_neg h]

theorem get?_dir_cons (es : List (Text × FileTree)) (name : Text) (names : List Text) :
    (dir es).get? (name :: names) = (es.lookup name).bind fun e => e.get? names := by
  rw [get?, entries]
  cases es.lookup name <;> rfl

theorem contentAt_dir_cons (es : List (Text × FileTree)) (name : Text) (names : List Text) :
    (dir es).contentAt (name :: names) = (es.lookup name).bind fun e => e.contentAt names := by
  rw [contentAt, get?, entries]
  cases es.lookup name <;> rfl

/-- A tree without anything below it: a file or an empty directory. -/
def IsLeaf (t : FileTree) : Prop := t.entries = []

theorem IsLeaf.contentAt_cons (h : t.IsLeaf) (name : Text) (names : List Text) :
    t.contentAt (name :: names) = none := by
  rw [contentAt, get?, h]
  rfl

/-- Where an entry has the same contents elsewhere, the directory has. -/
theorem contentAt_setEntry_ne {name : Text} {e : FileTree} {es : List (Text × FileTree)}
    (h : ∀ names', name :: names' ≠ name :: place →
      e.contentAt names' = (dir es).contentAt (name :: names'))
    (hne : names ≠ name :: place) :
    (dir (setEntry name e es)).contentAt names = (dir es).contentAt names := by
  cases names with
  | nil => rfl
  | cons first names =>
    by_cases hfirst : first = name
    · subst hfirst
      rw [contentAt_dir_cons, lookup_setEntry, if_pos rfl]
      exact h names hne
    · rw [contentAt_dir_cons, contentAt_dir_cons, lookup_setEntry, if_neg hfirst]

/-- Where an entry changes at one place below it, the directory changes there only. -/
theorem contentAt_setEntry_below {name : Text} {d e : FileTree} {es : List (Text × FileTree)}
    (hl : es.lookup name = some d) (h : ∀ names ≠ place, e.contentAt names = d.contentAt names)
    (hne : names ≠ name :: place) :
    (dir (setEntry name e es)).contentAt names = (dir es).contentAt names := by
  refine contentAt_setEntry_ne (fun names' hne' => ?_) hne
  rw [contentAt_dir_cons, hl, Option.bind_some]
  exact h names' fun heq => hne' (congrArg _ heq)

/-- Nothing has a content below an entry that is a leaf, or below none. -/
theorem contentAt_below_leaf {name : Text} {es : List (Text × FileTree)}
    (hold : ∀ e, (dir es).get? [name] = some e → e.IsLeaf) (hne : names ≠ []) :
    (dir es).contentAt (name :: names) = none := by
  obtain ⟨second, names, rfl⟩ := List.exists_cons_of_ne_nil hne
  rw [contentAt_dir_cons]
  cases hl : es.lookup name with
  | none => rfl
  | some e => exact (hold e (by rw [get?_dir_cons, hl]; rfl)).contentAt_cons second names

/-- Where a leaf takes the place of a leaf or of nothing, the contents elsewhere stay. -/
theorem contentAt_put_ne (hnew : new.IsLeaf) (hold : ∀ e, t.get? place = some e → e.IsLeaf)
    (hne : names ≠ place) : (t.put new place).contentAt names = t.contentAt names := by
  induction place generalizing t names with
  | nil =>
    obtain ⟨name, names, rfl⟩ := List.exists_cons_of_ne_nil hne
    rw [put, hnew.contentAt_cons, (hold t rfl).contentAt_cons]
  | cons name place ih =>
    cases t with
    | file c => rfl
    | dir es =>
      unfold put
      dsimp only
      split
      · refine contentAt_setEntry_ne (fun names' hne' => ?_) hne
        have hbelow : names' ≠ [] := fun h => hne' (congrArg _ h)
        obtain ⟨second, rest, heq⟩ := List.exists_cons_of_ne_nil hbelow
        rw [contentAt_below_leaf hold hbelow, heq, hnew.contentAt_cons]
      · next e hl =>
        refine contentAt_setEntry_below hl (fun names' hne' => ih (fun d hd => hold d ?_) hne') hne
        rwa [get?_dir_cons, hl]
      · rfl

/-- In a directory, a leaf is where it was put. -/
theorem get?_put {name : Text} {es : List (Text × FileTree)} (h : t.get? place = some (dir es)) :
    (t.put new (place ++ [name])).get? (place ++ [name]) = some new := by
  induction place generalizing t with
  | nil =>
    obtain rfl := Option.some.inj h
    rw [List.nil_append, put, get?, entries, lookup_setEntry, if_pos rfl]
    rfl
  | cons first place ih =>
    obtain ⟨es', e, rfl, hl, he⟩ := get?_cons_eq_some.1 h
    have hput : (dir es').put new (first :: (place ++ [name])) =
        dir (setEntry first (e.put new (place ++ [name])) es') := by
      cases hp : place ++ [name] with
      | nil => exact absurd hp (by simp)
      | cons second rest => simp only [put, hl]
    rw [List.cons_append, hput, get?, entries, lookup_setEntry, if_pos rfl]
    exact ih he

theorem isLeaf_file (c : Bytes) : (file c).IsLeaf := rfl

theorem isLeaf_emptyDir : (dir []).IsLeaf := rfl

/-- The place that a path leads to is the path without two dots. -/
theorem locate_eq {parts : List Text} (h : t.locate parts = .ok place) :
    place = Path.normalParts parts := by
  unfold locate at h
  split at h
  · next hl =>
    obtain rfl := List.getLast?_eq_none_iff.1 hl
    exact (Except.ok.inj h).symm
  · next name hl =>
    obtain ⟨init, rfl⟩ := List.getLast?_eq_some_iff.1 hl
    split at h
    · exact walk_eq_foldl h
    · next hdots =>
      rw [List.dropLast_concat] at h
      obtain ⟨parent, hparent, h⟩ := exceptBind_eq_ok.1 h
      split at h
      · rw [← Except.ok.inj h, walk_eq_foldl hparent, Path.normalParts, List.foldl_append]
        exact (if_neg hdots).symm
      · cases h
      · cases h

/-- Following names ends at something that is there. -/
theorem get?_of_walk {current : List Text} (hc : (t.get? current).isSome)
    (h : t.walk current names = .ok place) : (t.get? place).isSome := by
  induction names generalizing current with
  | nil => exact Except.ok.inj h ▸ hc
  | cons name names ih =>
    obtain ⟨es, hg, ⟨-, h⟩ | ⟨-, ⟨e, hl⟩, h⟩⟩ := walk_cons_eq_ok.1 h
    · refine ih ?_ h
      rcases current.eq_nil_or_concat' with rfl | ⟨above, last, rfl⟩
      · rfl
      · obtain ⟨_, _, habove, -, -⟩ := dir_of_get? hg
        rw [List.dropLast_concat, habove]
        rfl
    · refine ih ?_ h
      rw [get?_append, hg, Option.bind_some, get?, entries, hl]
      rfl

/-- The place that a path leads to is in a directory, unless it is the root. -/
theorem exists_dir_of_locate {parts : List Text} (h : t.locate parts = .ok place) :
    place = [] ∨ ∃ above name es, place = above ++ [name] ∧ t.get? above = some (dir es) := by
  unfold locate at h
  split at h
  · exact .inl (Except.ok.inj h).symm
  · next name hl =>
    split at h
    · obtain ⟨e, he⟩ := Option.isSome_iff_exists.1 (get?_of_walk rfl h)
      rcases place.eq_nil_or_concat' with rfl | ⟨above, last, rfl⟩
      · exact .inl rfl
      · obtain ⟨es, _, habove, -, -⟩ := dir_of_get? he
        exact .inr ⟨above, last, es, rfl, habove⟩
    · obtain ⟨parent, -, h⟩ := exceptBind_eq_ok.1 h
      split at h
      · next es hdir => exact .inr ⟨parent, name, es, (Except.ok.inj h).symm, hdir⟩
      · cases h
      · cases h

/-- Writing a file changes the contents at its place only. -/
theorem contentAt_write {parts : List Text} {content : Bytes}
    (h : t.write parts content = .ok t') :
    t'.contentAt (Path.normalParts parts) = some content ∧
      ∀ names, names ≠ Path.normalParts parts → t'.contentAt names = t.contentAt names := by
  obtain ⟨place, hplace, h⟩ := exceptBind_eq_ok.1 h
  have hdir := exists_dir_of_locate hplace
  rw [← locate_eq hplace]
  have hput : (∀ es, t.get? place ≠ some (dir es)) ∧ t' = t.put (file content) place := by
    split at h
    · cases h
    · next hnone => exact ⟨hnone, (Except.ok.inj h).symm⟩
  obtain ⟨hnone, rfl⟩ := hput
  refine ⟨?_, fun names hne => contentAt_put_ne (isLeaf_file content) (fun e he => ?_) hne⟩
  · rcases hdir with rfl | ⟨above, name, es, rfl, habove⟩
    · rw [put]
      rfl
    · rw [contentAt, get?_put habove]
      rfl
  · cases e with
    | file c => rfl
    | dir es => exact absurd he (hnone es)

/-- Making a directory changes no contents. -/
theorem contentAt_makeDir {parts : List Text} (h : t.makeDir parts = .ok t')
    (names : List Text) : t'.contentAt names = t.contentAt names := by
  obtain ⟨place, hplace, h⟩ := exceptBind_eq_ok.1 h
  have hdir := exists_dir_of_locate hplace
  split at h
  · cases h
  · next hnone =>
    obtain rfl := Except.ok.inj h
    by_cases hne : names = place
    · subst hne
      rcases hdir with rfl | ⟨above, name, es, rfl, habove⟩
      · cases hnone
      · rw [contentAt, contentAt, get?_put habove, hnone]
        rfl
    · exact contentAt_put_ne isLeaf_emptyDir (fun e he => by rw [hnone] at he; cases he) hne

theorem makeDirs_settle (t : FileTree) (parts : List Text) (f : Fault) :
    (makeDirs.settle t parts f).1 = t := by
  unfold makeDirs.settle
  split <;> rfl

/-- Neither does making all directories of a path. -/
theorem contentAt_makeDirs (t : FileTree) (parts names : List Text) :
    (t.makeDirs parts).1.contentAt names = t.contentAt names := by
  induction parts generalizing t with
  | nil => rw [makeDirs]
  | cons name above ih =>
    rw [makeDirs]
    split
    · next hmade => exact contentAt_makeDir hmade names
    · have hrest := ih t
      split
      · next hmade => rwa [hmade] at hrest
      · next hmade =>
        rw [hmade] at hrest
        split
        · next hagain => exact (contentAt_makeDir hagain names).trans hrest
        · rwa [makeDirs_settle]
    · rw [makeDirs_settle]

end CustomElements.FileTree
