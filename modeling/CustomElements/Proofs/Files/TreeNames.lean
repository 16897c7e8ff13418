import CustomElements.Proofs.Files.NormalPath

/-!
# The names in a file tree

What a path leads to in a file tree has names of that tree. A file that is written where one is
already brings no name that was not there before, and so does a log record.
-/

namespace CustomElements

namespace FileTree

mutual

/-- The names of all entries of a tree, at any depth. -/
def names : FileTree → List Text
  | file _ => []
  | dir es => namesIn es

/-- The names of entries and of all entries below them. -/
def namesIn : List (Text × FileTree) → List Text
  | [] => []
  | (name, e) :: es => name :: (names e ++ namesIn es)

end

theorem mem_namesIn {es : List (Text × FileTree)} {name : Text} {e : FileTree}
    (h : es.lookup name = some e) : name ∈ namesIn es ∧ e.names ⊆ namesIn es := by
  induction es with
  | nil => cases h
  | cons x es ih =>
    obtain ⟨first, e'⟩ := x
    rw [List.lookup_cons] at h
    rw [namesIn]
    split at h
    · next heq =>
      obtain rfl : name = first := by simpa using heq
      obtain rfl := Option.some.inj h
      exact ⟨List.mem_cons_self, List.subset_cons_of_subset _ (List.subset_append_left _ _)⟩
    · obtain ⟨hname, hbelow⟩ := ih h
      exact ⟨List.mem_cons_of_mem _ (List.mem_append_right _ hname),
        List.subset_cons_of_subset _ (List.subset_append_of_subset_right _ hbelow)⟩

theorem names_entries (t : FileTree) : namesIn t.entries = t.names := by
  cases t with
  | file c => rw [entries, names, namesIn]
  | dir es => rw [entries, names]

theorem names_get? {t e : FileTree} {place : List Text} (h : t.get? place = some e) :
    e.names ⊆ t.names := by
  induction place generalizing t with
  | nil =>
    obtain rfl : t = e := Option.some.inj h
    exact fun _ => id
  | cons name place ih =>
    obtain ⟨es, d, rfl, hl, hd⟩ := get?_cons_eq_some.1 h
    rw [names]
    exact List.Subset.trans (ih hd) (mem_namesIn hl).2

/-- What can be found by its names has names of the tree. -/
theorem subset_names_of_get? {t e : FileTree} {place : List Text} (h : t.get? place = some e) :
    place ⊆ t.names := by
  induction place generalizing t with
  | nil => exact List.nil_subset _
  | cons name place ih =>
    obtain ⟨es, d, rfl, hl, hd⟩ := get?_cons_eq_some.1 h
    obtain ⟨hname, hbelow⟩ := mem_namesIn hl
    rw [names]
    exact List.cons_subset.2 ⟨hname, List.Subset.trans (ih hd) hbelow⟩

/-- Following names leads along names of the tree. -/
theorem walk_subset {t : FileTree} {current parts place : List Text} (hc : current ⊆ t.names)
    (h : t.walk current parts = .ok place) : place ⊆ t.names := by
  induction parts generalizing current with
  | nil =>
    obtain rfl : current = place := Except.ok.inj h
    exact hc
  | cons name parts ih =>
    obtain ⟨es, hg, ⟨-, h⟩ | ⟨-, ⟨e, hl⟩, h⟩⟩ := walk_cons_eq_ok.1 h
    · exact ih (List.Subset.trans (List.dropLast_subset current) hc) h
    · have hname := names_get? hg (mem_namesIn hl).1
      refine ih ?_ h
      exact List.append_subset.2 ⟨hc, List.cons_subset.2 ⟨hname, List.nil_subset _⟩⟩

theorem walk_append {t : FileTree} {current parts more : List Text} :
    t.walk current (parts ++ more) = t.walk current parts >>= fun c => t.walk c more := by
  induction parts generalizing current with
  | nil => rfl
  | cons name parts ih =>
    rw [List.cons_append, walk, walk]
    split
    · rfl
    · rfl
    · split
      · exact ih
      · split
        · exact ih
        · rfl

/-- An entry that is there is found where it is. -/
theorem locate_of_walk {t : FileTree} {parts place : List Text}
    (h : t.walk [] parts = .ok place) : t.locate parts = .ok place := by
  unfold locate
  cases hl : parts.getLast? with
  | none =>
    obtain rfl := List.getLast?_eq_none_iff.1 hl
    exact h
  | some name =>
    dsimp only
    split
    · exact h
    · next hdots =>
      obtain ⟨init, rfl⟩ := List.getLast?_eq_some_iff.1 hl
      rw [walk_append, exceptBind_eq_ok] at h
      obtain ⟨parent, hparent, hlast⟩ := h
      rw [List.dropLast_concat, hparent]
      obtain ⟨es, hg, ⟨hname, -⟩ | ⟨-, -, hlast⟩⟩ := walk_cons_eq_ok.1 hlast
      · exact absurd hname hdots
      · simpa only [bind, Except.bind, hg, walk] using hlast

theorem namesIn_setEntry (name : Text) (e : FileTree) (es : List (Text × FileTree)) :
    namesIn (setEntry name e es) ⊆ name :: (e.names ++ namesIn es) := by
  induction es with
  | nil => exact fun _ => id
  | cons x es ih =>
    obtain ⟨first, e'⟩ := x
    intro n hn
    rw [setEntry] at hn
    rw [namesIn, List.mem_cons, List.mem_append, List.mem_cons, List.mem_append]
    split at hn
    · rw [namesIn, List.mem_cons, List.mem_append] at hn
      grind
    · rw [namesIn, List.mem_cons, List.mem_append] at hn
      have hrest := @ih n
      rw [List.mem_cons, List.mem_append] at hrest
      grind

/-- Only the names on the way and those of the new tree are added. -/
theorem names_put (t new : FileTree) (place : List Text) :
    (t.put new place).names ⊆ place ++ (new.names ++ t.names) := by
  induction place generalizing t with
  | nil =>
    rw [put, List.nil_append]
    exact List.subset_append_left _ _
  | cons name place ih =>
    cases t with
    | file c =>
      rw [put, names]
      exact List.nil_subset _
    | dir es =>
      unfold put
      dsimp only
      split
      · intro n hn
        rw [names] at hn
        have hset := namesIn_setEntry name new es hn
        rw [names]
        simpa using hset
      · next place _ _ e _ hl =>
        intro n hn
        rw [names] at hn
        have hset := namesIn_setEntry name (e.put new place) es hn
        have hbelow := @(mem_namesIn hl).2 n
        have hput := @ih e n
        rw [List.mem_append, List.mem_append] at hput
        rw [List.mem_cons, List.mem_append] at hset
        rw [names, List.mem_append, List.mem_cons, List.mem_append]
        grind
      · exact List.subset_append_of_subset_right _ (List.subset_append_right _ _)

/-- A file that can be read is written without a new name. -/
theorem names_write_of_read {t t' : FileTree} {parts : List Text} {content new : Bytes}
    (hr : t.read parts = .ok content) (hw : t.write parts new = .ok t') : t'.names ⊆ t.names := by
  obtain ⟨e, hstat, _⟩ := exceptBind_eq_ok.1 hr
  obtain ⟨place, hwalk, _⟩ := exceptBind_eq_ok.1 hstat
  have hplace := walk_subset (List.nil_subset _) hwalk
  rw [write, locate_of_walk hwalk] at hw
  have ht : t' = t.put (.file new) place := by
    simp only [bind, Except.bind] at hw
    split at hw
    · cases hw
    · exact (Except.ok.inj hw).symm
  rw [ht]
  refine List.Subset.trans (names_put t _ place) (List.append_subset.2 ⟨hplace, ?_⟩)
  rw [names, List.nil_append]
  exact fun _ => id

end FileTree

namespace Workspace

variable {w : Workspace}

/-- The line of a log record is added to what the log file holds, or it is lost. -/
theorem loggedFiles_cases (w : Workspace) (r : LogRecord) :
    w.loggedFiles r = w.files ∨ ∃ p parts before line, w.logFile = some p ∧
      w.place p = .ok parts ∧ w.files.read parts = .ok before ∧
      w.files.write parts (before ++ line) = .ok (w.loggedFiles r) := by
  unfold loggedFiles
  split
  · next p line hp hline =>
    cases hc : (do
        w.files.write (← w.place p) ((← w.read p) ++ line) : Except Fault FileTree) with
    | error f => exact .inl rfl
    | ok t =>
      obtain ⟨parts, hparts, hc⟩ := exceptBind_eq_ok.1 hc
      obtain ⟨before, hread, hwrite⟩ := exceptBind_eq_ok.1 hc
      rw [read, hparts] at hread
      exact .inr ⟨p, parts, before, line, hp, hparts, hread, hwrite⟩
  · exact .inl rfl

theorem names_loggedFiles (r : LogRecord) : (w.loggedFiles r).names ⊆ w.files.names := by
  rcases w.loggedFiles_cases r with hsame | ⟨p, parts, before, line, -, -, hread, hwrite⟩
  · exact hsame ▸ List.Subset.refl _
  · exact FileTree.names_write_of_read hread hwrite

/-- Log records bring no new names. -/
theorem names_note (r : LogRecord) : (w.note r).files.names ⊆ w.files.names := names_loggedFiles r

/-- A file that is there at a normal path has a path of names of the tree. -/
theorem parts_subset_of_isFile {p : Path} (hp : p.IsNormal) (h : w.isFile p) :
    p.parts ⊆ w.files.names := by
  cases he : w.entryAt? p with
  | none =>
    rw [isFile, he] at h
    cases h
  | some e =>
    unfold entryAt? at he
    split at he
    · next parts hparts =>
      obtain rfl := place_of_fromRoot hp.fromRoot hparts
      cases hstat : w.files.stat p.parts with
      | error f =>
        rw [hstat] at he
        cases he
      | ok e' =>
        obtain ⟨place, hwalk, _⟩ := exceptBind_eq_ok.1 hstat
        obtain rfl : place = p.parts := FileTree.walk_eq hp.noDots hwalk
        exact FileTree.walk_subset (List.nil_subset _) hwalk
    · cases he

end Workspace

end CustomElements
