import CustomElements.Proofs.Files.Contents

/-!
# Outlines of file trees

The outline of a file tree tells which files and directories there are, and nothing of what the
files hold. Following, writing, making and renaming are the same for a tree and for its outline, so
trees of one outline can be told apart only by reading.
-/

namespace CustomElements.FileTree

mutual

/-- The tree with all its files emptied. -/
def outline : FileTree → FileTree
  | file _ => file ByteArray.empty
  | dir es => dir (outlineIn es)

/-- The entries with all their files emptied. -/
def outlineIn : List (Text × FileTree) → List (Text × FileTree)
  | [] => []
  | (name, e) :: es => (name, outline e) :: outlineIn es

end

variable {t t' : FileTree}

@[simp] theorem outline_file (content : Bytes) : (file content).outline = file ByteArray.empty := by
  rw [outline]

@[simp] theorem outline_dir (es : List (Text × FileTree)) :
    (dir es).outline = dir (outlineIn es) := by
  rw [outline]

theorem outlineIn_eq_map (es : List (Text × FileTree)) :
    outlineIn es = es.map fun e => (e.1, e.2.outline) := by
  induction es with
  | nil => rw [outlineIn, List.map_nil]
  | cons e es ih => rw [outlineIn, List.map_cons, ih]

@[simp] theorem isDir_outline (t : FileTree) : t.outline.isDir = t.isDir := by
  cases t with
  | file content => rw [outline_file, isDir, isDir]
  | dir es => rw [outline_dir, isDir, isDir]

theorem entries_outline (t : FileTree) : t.outline.entries = outlineIn t.entries := by
  cases t with
  | file content => rw [outline_file, entries, entries, outlineIn]
  | dir es => rw [outline_dir, entries, entries]

theorem lookup_outlineIn (name : Text) (es : List (Text × FileTree)) :
    (outlineIn es).lookup name = (es.lookup name).map outline := by
  induction es with
  | nil => rw [outlineIn]; rfl
  | cons x es ih =>
    obtain ⟨first, e⟩ := x
    rw [outlineIn, lookup_cons, lookup_cons, ih]
    split <;> rfl

theorem get?_outline (t : FileTree) (names : List Text) :
    t.outline.get? names = (t.get? names).map outline := by
  induction names generalizing t with
  | nil => rfl
  | cons name names ih =>
    rw [get?, get?, entries_outline, lookup_outlineIn]
    cases t.entries.lookup name with
    | none => rfl
    | some e => exact ih e

theorem outlineIn_setEntry (name : Text) (e : FileTree) (es : List (Text × FileTree)) :
    outlineIn (setEntry name e es) = setEntry name e.outline (outlineIn es) := by
  induction es with
  | nil => rw [setEntry, outlineIn, outlineIn, setEntry, outlineIn]
  | cons x es ih =>
    obtain ⟨first, d⟩ := x
    rw [setEntry, outlineIn, setEntry]
    split
    · rw [outlineIn]
    · rw [outlineIn, ih]

theorem outline_put (t new : FileTree) (names : List Text) :
    (t.put new names).outline = t.outline.put new.outline names := by
  induction names generalizing t with
  | nil => rw [put, put]
  | cons name names ih =>
    cases t with
    | file content => rw [put, outline_file, put]
    | dir es =>
      rw [outline_dir]
      cases names with
      | nil => rw [put, put, outline_dir, outlineIn_setEntry]
      | cons second names =>
        unfold put
        dsimp only
        rw [lookup_outlineIn]
        cases es.lookup name with
        | none => exact outline_dir es
        | some e =>
          dsimp only [Option.map_some]
          rw [outline_dir, outlineIn_setEntry, ih]

theorem outline_remove (t : FileTree) (names : List Text) :
    (t.remove names).outline = t.outline.remove names := by
  induction names generalizing t with
  | nil => rw [remove, remove]
  | cons name names ih =>
    cases t with
    | file content => rw [remove, outline_file, remove]
    | dir es =>
      rw [outline_dir]
      cases names with
      | nil =>
        rw [remove, remove, outline_dir, outlineIn_eq_map, outlineIn_eq_map, List.filter_map]
        rfl
      | cons second names =>
        unfold remove
        dsimp only
        rw [lookup_outlineIn]
        cases es.lookup name with
        | none => exact outline_dir es
        | some e =>
          dsimp only [Option.map_some]
          rw [outline_dir, outlineIn_setEntry, ih]

theorem walk_outline (t : FileTree) (current names : List Text) :
    t.outline.walk current names = t.walk current names := by
  induction names generalizing current with
  | nil => rw [walk, walk]
  | cons name names ih =>
    rw [walk, walk, get?_outline]
    rcases t.get? current with _ | (content | es)
    · rfl
    · rw [Option.map_some, outline_file]
    · rw [Option.map_some, outline_dir]
      dsimp only
      rw [ih, lookup_outlineIn]
      split
      · rfl
      · cases es.lookup name with
        | none => rfl
        | some e => exact ih _

theorem locate_outline (t : FileTree) (parts : List Text) :
    t.outline.locate parts = t.locate parts := by
  unfold locate
  split
  · rfl
  · next name _ =>
    rw [walk_outline, walk_outline]
    split
    · rfl
    · cases t.walk [] parts.dropLast with
      | error f => rfl
      | ok parent =>
        dsimp only [bind, Except.bind]
        rw [get?_outline]
        rcases t.get? parent with _ | (content | es)
        · rfl
        · rw [Option.map_some, outline_file]
        · rw [Option.map_some, outline_dir]

theorem stat_outline (t : FileTree) (parts : List Text) :
    t.outline.stat parts = (t.stat parts).map outline := by
  rw [stat, stat, walk_outline]
  cases t.walk [] parts with
  | error f => rfl
  | ok place =>
    dsimp only [bind, Except.bind]
    rw [get?_outline]
    cases t.get? place <;> rfl

/-- Writing replaces what a file holds, so all contents lead to the same outline. -/
theorem outline_write (t : FileTree) (parts : List Text) (content : Bytes) :
    (t.write parts content).map outline = t.outline.write parts ByteArray.empty := by
  rw [write, write, locate_outline]
  cases t.locate parts with
  | error f => rfl
  | ok place =>
    dsimp only [bind, Except.bind]
    rw [get?_outline, ← outline_file content, ← outline_put]
    rcases t.get? place with _ | (held | es)
    · rfl
    · rw [Option.map_some, outline_file]
      rfl
    · rw [Option.map_some, outline_dir]
      rfl

theorem outline_makeDir (t : FileTree) (parts : List Text) :
    (t.makeDir parts).map outline = t.outline.makeDir parts := by
  have hempty : (dir []).outline = dir [] := by rw [outline_dir, outlineIn]
  rw [makeDir, makeDir, locate_outline]
  cases t.locate parts with
  | error f => rfl
  | ok place =>
    dsimp only [bind, Except.bind]
    rw [get?_outline]
    cases t.get? place with
    | none =>
      rw [Option.map_none]
      dsimp only [Except.map]
      rw [outline_put, hempty]
    | some e => rfl

theorem outline_settle (t : FileTree) (parts : List Text) (f : Fault) :
    makeDirs.settle t.outline parts f =
      ((makeDirs.settle t parts f).1.outline, (makeDirs.settle t parts f).2) := by
  unfold makeDirs.settle
  rw [stat_outline]
  rcases t.stat parts with _ | (content | es)
  · rfl
  · dsimp only [Except.map]
    rw [outline_file]
  · dsimp only [Except.map]
    rw [outline_dir]

theorem outline_makeDirs (t : FileTree) (parts : List Text) :
    t.outline.makeDirs parts = ((t.makeDirs parts).1.outline, (t.makeDirs parts).2) := by
  induction parts generalizing t with
  | nil => rw [makeDirs, makeDirs]
  | cons name above ih =>
    rw [makeDirs, makeDirs, ← outline_makeDir]
    rcases t.makeDir (name :: above).reverse with (f | t')
    · dsimp only [Except.map]
      cases f with
      | noSuchFile =>
        dsimp only
        rw [ih]
        rcases t.makeDirs above with ⟨t', _ | f⟩
        · dsimp only
          rw [← outline_makeDir]
          cases t'.makeDir (name :: above).reverse with
          | error f => exact outline_settle t' _ f
          | ok t'' => rfl
        · rfl
      | _ => exact outline_settle t _ _
    · rfl

theorem outline_rename (t : FileTree) (source target : List Text) :
    (t.rename source target).map outline = t.outline.rename source target := by
  rw [rename, rename, locate_outline, locate_outline]
  cases t.locate source with
  | error f => rfl
  | ok origin =>
    dsimp only [bind, Except.bind]
    rw [get?_outline]
    cases t.get? origin with
    | none => rfl
    | some e =>
      dsimp only [Option.map_some]
      cases t.locate target with
      | error f => rfl
      | ok place =>
        dsimp only
        have hmoved : (if origin = place then t else (t.remove origin).put e place).outline =
            if origin = place then t.outline
            else (t.outline.remove origin).put e.outline place := by
          rw [apply_ite outline, outline_put, outline_remove]
        rw [get?_outline, ← hmoved]
        rcases e with (content | es)
        · rcases t.get? place with _ | (held | ds)
          · rw [outline_file]; rfl
          · rw [Option.map_some, outline_file, outline_file]; rfl
          · rw [Option.map_some, outline_file, outline_dir]; rfl
        · rw [outline_dir]
          rfl

/-- Trees of one outline that hold the same at a place are read the same there. -/
theorem read_eq_of_outline {parts : List Text} (houtline : t'.outline = t.outline)
    (hheld : t'.contentAt (Path.normalParts parts) = t.contentAt (Path.normalParts parts)) :
    t'.read parts = t.read parts := by
  have hwalk : t'.walk [] parts = t.walk [] parts := by
    rw [← walk_outline t', houtline, walk_outline]
  unfold read stat
  rw [hwalk]
  cases hplace : t.walk [] parts with
  | error f => rfl
  | ok place =>
    obtain rfl : place = Path.normalParts parts := walk_eq_foldl hplace
    have hget := get?_outline t' (Path.normalParts parts)
    rw [houtline, get?_outline] at hget
    rw [contentAt, contentAt] at hheld
    dsimp only [bind, Except.bind]
    generalize t'.get? (Path.normalParts parts) = found' at hheld hget
    generalize t.get? (Path.normalParts parts) = found at hheld hget
    rcases found with _ | (content | es)
    · obtain rfl := Option.map_eq_none_iff.1 hget.symm
      rfl
    · rcases found' with _ | (content' | es')
      · cases hget
      · obtain rfl : content' = content := Option.some.inj hheld
        rfl
      · simp at hget
    · rcases found' with _ | (content' | es')
      · cases hget
      · simp at hget
      · rfl

end CustomElements.FileTree
