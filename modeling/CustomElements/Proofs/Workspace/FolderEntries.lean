import CustomElements.Proofs.Files.Directories
import CustomElements.Proofs.Files.ProperTree
import CustomElements.Proofs.Workspace.Storing

/-!
# The entries of a folder

The way to a folder leads through directories only. So a folder can be reached in any tree that has
its directories at the same places, and which files it has is told by the contents below its place.

A file that is renamed has its contents at its new place, where another file may have been, and is
no longer at its old one. All other files stay as they are.
-/

namespace CustomElements.FileTree

variable {t t' e : FileTree} {es : List (Text × FileTree)} {name other : Text}
variable {place origin names above : List Text} {content : Bytes}

theorem lookup_filter_ne (name other : Text) (es : List (Text × FileTree)) :
    (es.filter fun e => decide (e.1 ≠ name)).lookup other =
      if other = name then none else es.lookup other := by
  induction es with
  | nil => exact (ite_self none).symm
  | cons x es ih =>
    obtain ⟨first, d⟩ := x
    by_cases hfirst : first = name
    · rw [List.filter_cons_of_neg (by simpa using hfirst), ih, lookup_cons]
      split
      · rfl
      · next hne => rw [if_neg fun heq => hne (heq.trans hfirst)]
    · rw [List.filter_cons_of_pos (by simpa using hfirst), lookup_cons, lookup_cons, ih]
      split
      · next heq => rw [if_neg fun h => hfirst (heq.symm.trans h)]
      · rfl

/-- Where a leaf is taken away, the contents elsewhere stay. -/
theorem contentAt_remove_ne (hold : ∀ e, t.get? origin = some e → e.IsLeaf)
    (hne : names ≠ origin) : (t.remove origin).contentAt names = t.contentAt names := by
  induction origin generalizing t names with
  | nil => rfl
  | cons name origin ih =>
    cases t with
    | file c => rfl
    | dir es =>
      unfold remove
      dsimp only
      split
      · cases names with
        | nil => rfl
        | cons first names =>
          rw [contentAt_dir_cons, lookup_filter_ne]
          split
          · next heq =>
            subst heq
            exact (contentAt_below_leaf hold fun h => hne (congrArg _ h)).symm
          · exact (contentAt_dir_cons es first names).symm
      · next e hl =>
        refine contentAt_setEntry_below hl (fun names' hne' => ih (fun d hd => hold d ?_) hne') hne
        rwa [get?_dir_cons, hl]
      · rfl

/-- Taking a file away leaves the directories. -/
theorem hasDir_remove (h : t.get? origin = some (file content)) (names : List Text) :
    (t.remove origin).hasDir names = t.hasDir names := by
  induction origin generalizing t names with
  | nil => rfl
  | cons name origin ih =>
    cases t with
    | file c => cases h
    | dir es =>
      rw [get?_dir_cons] at h
      obtain ⟨e, hl, he⟩ := Option.bind_eq_some_iff.1 h
      unfold remove
      dsimp only
      split
      · obtain rfl := Option.some.inj he
        cases names with
        | nil => rfl
        | cons first names =>
          rw [hasDir_dir_cons, hasDir_dir_cons, lookup_filter_ne]
          split
          · next hfirst =>
            rw [hfirst, hl, Option.any_some, hasDir_file]
            rfl
          · rfl
      · next d hd =>
        obtain rfl := Option.some.inj (hd.symm.trans hl)
        exact hasDir_setEntry fun names' => by rw [hl, ih he, Option.any_some]
      · rfl

/-- There is nothing where an entry was taken away. -/
theorem get?_remove_self (h : t.get? origin = some e) (hne : origin ≠ []) :
    (t.remove origin).get? origin = none := by
  induction origin generalizing t with
  | nil => exact absurd rfl hne
  | cons name origin ih =>
    obtain ⟨es, d, rfl, hl, hd⟩ := get?_cons_eq_some.1 h
    cases origin with
    | nil => rw [remove, get?, entries, lookup_filter_ne, if_pos rfl]
    | cons second rest =>
      have hremove : (dir es).remove (name :: second :: rest) =
          dir (setEntry name (d.remove (second :: rest)) es) := by
        simp only [remove, hl]
      rw [hremove, get?, entries, lookup_setEntry, if_pos rfl]
      exact ih hd (List.cons_ne_nil _ _)

/-- What moving a file makes of a tree: its contents are at the new place, where another file may
have been, and nothing is at the old one. -/
structure Moved (t : FileTree) (origin place : List Text) (content : Bytes) (t' : FileTree) :
    Prop where
  held : t'.contentAt place = some content
  gone : origin ≠ place → t'.get? origin = none
  others : ∀ names, names ≠ origin → names ≠ place → t'.contentAt names = t.contentAt names
  directories : ∀ names, t'.hasDir names = t.hasDir names

theorem Moved.contentAt_origin (h : t.Moved origin place content t') (hne : origin ≠ place) :
    t'.contentAt origin = none := by
  rw [contentAt, h.gone hne]
  rfl

/-- A file that is taken away and put where there is no directory, but one above, has moved. -/
theorem moved_of_put (hfile : t.get? origin = some (file content)) (hne : origin ≠ place)
    (hplain : t.hasDir place = false)
    (hdir : place = [] ∨ ∃ above name es, place = above ++ [name] ∧ t.get? above = some (dir es)) :
    t.Moved origin place content ((t.remove origin).put (file content) place) := by
  have hplain' : (t.remove origin).hasDir place = false := by rw [hasDir_remove hfile, hplain]
  have hold : ∀ e, (t.remove origin).get? place = some e → e.IsLeaf := by
    intro e he
    rw [hasDir, he] at hplain'
    cases e with
    | file c => rfl
    | dir es => cases hplain'
  have hbefore : ∀ e, t.get? origin = some e → e.IsLeaf := by
    intro e he
    obtain rfl := Option.some.inj (hfile.symm.trans he)
    rfl
  have hdirectories (names : List Text) :
      ((t.remove origin).put (file content) place).hasDir names = t.hasDir names := by
    rw [hasDir_put hplain', hasDir_remove hfile]
  refine ⟨?_, fun _ => get?_eq_none ?_ ?_, fun names horigin hplace => ?_, hdirectories⟩
  · rcases hdir with rfl | ⟨above, name, es, rfl, habove⟩
    · cases t with
      | file c => exact absurd (get?_file hfile).1 hne
      | dir es => cases hplain
    · have hstill : (t.remove origin).hasDir above := by
        rw [hasDir_remove hfile]
        exact hasDir_iff.2 ⟨es, habove⟩
      obtain ⟨es', hes'⟩ := hasDir_iff.1 hstill
      rw [contentAt, get?_put hes']
      rfl
  · have hroot : origin ≠ [] := by
      rintro rfl
      obtain rfl := Option.some.inj hfile
      rcases hdir with rfl | ⟨above, name, es, rfl, habove⟩
      · exact hne rfl
      · cases (get?_file habove).2
    rw [contentAt_put_ne (isLeaf_file content) hold hne, contentAt, get?_remove_self hfile hroot]
    rfl
  · rw [hdirectories, hasDir_of_file hfile]
  · rw [contentAt_put_ne (isLeaf_file content) hold hplace, contentAt_remove_ne hbefore horigin]

/-- Renaming a file moves it. -/
theorem moved_of_rename {source target : List Text} (h : t.rename source target = .ok t')
    (hsource : t.contentAt (Path.normalParts source) = some content) :
    t.Moved (Path.normalParts source) (Path.normalParts target) content t' := by
  obtain ⟨origin, horigin, h⟩ := exceptBind_eq_ok.1 h
  obtain rfl := locate_eq horigin
  have hfile := get?_of_contentAt hsource
  rw [hfile] at h
  obtain ⟨place, hplace, h⟩ := exceptBind_eq_ok.1 h
  obtain rfl := locate_eq hplace
  generalize Path.normalParts source = origin at *
  have hdir := exists_dir_of_locate hplace
  generalize Path.normalParts target = place at *
  split at h
  · cases h
  · next hnone =>
    obtain rfl := Except.ok.inj h
    by_cases hsame : origin = place
    · rw [if_pos hsame]
      exact ⟨hsame ▸ hsource, fun hne => absurd hsame hne, fun _ _ _ => rfl, fun _ => rfl⟩
    · have hplain : t.hasDir place = false := by
        rw [Bool.eq_false_iff]
        intro hany
        obtain ⟨es, hes⟩ := hasDir_iff.1 hany
        exact hnone content es rfl hes
      rw [if_neg hsame]
      exact moved_of_put hfile hsame hplain hdir

end CustomElements.FileTree

namespace CustomElements

namespace Workspace

variable {v w : Workspace} {p d : Path} {name : Text} {content : Bytes}

/-- Log records leave the directories. -/
theorem hasDir_note (w : Workspace) (r : LogRecord) (names : List Text) :
    (w.note r).files.hasDir names = w.files.hasDir names := by
  change (w.loggedFiles r).hasDir names = w.files.hasDir names
  rcases w.loggedFiles_cases r with hsame | ⟨p, parts, before, line, -, -, -, hwrite⟩
  · rw [hsame]
  · exact FileTree.hasDir_write hwrite names

theorem isDir_iff : w.isDir d ↔ ∃ es, w.entryAt? d = some (.dir es) := by
  rw [isDir]
  rcases w.entryAt? d with _ | _ | es
  · simp
  · simp [FileTree.isDir]
  · simp [FileTree.isDir]

/-- Where the same directories are, the same paths lead to them. -/
theorem isDir_of_hasDir (hcurrent : v.current = w.current)
    (hsame : ∀ names, v.files.hasDir names = w.files.hasDir names) (h : w.isDir d) : v.isDir d := by
  obtain ⟨es, hes⟩ := isDir_iff.1 h
  obtain ⟨haccepted, place, hwalk, hg⟩ := entryAt?_eq_some.1 hes
  have hdir : w.files.hasDir place := FileTree.hasDir_iff.2 ⟨es, hg⟩
  obtain ⟨es', hes'⟩ := FileTree.hasDir_iff.1 ((hsame place).trans hdir)
  rw [← hcurrent] at haccepted hwalk
  exact isDir_iff.2 ⟨es', entryAt?_eq_some.2
    ⟨haccepted, place, FileTree.walk_of_hasDir hsame hwalk hdir, hes'⟩⟩

theorem contentOf_of_isFile (h : w.isFile p) : ∃ content, w.contentOf p = some content := by
  obtain ⟨e, he, hfile⟩ := (Option.any_eq_true _ _).1 h
  have hg := get?_of_entryAt? he
  cases e with
  | dir es => cases hfile
  | file c =>
    refine ⟨c, ?_⟩
    rw [contentOf, FileTree.contentAt, placeOf, hg]
    rfl

/-- A file of a folder is told by its contents. -/
theorem isFile_child_iff (hn : name ≠ "..") : w.isFile (d.child name) ↔
    checkName name = .ok () ∧ w.isDir d ∧ (w.contentOf (d.child name)).isSome := by
  constructor
  · intro h
    obtain ⟨e, he, -⟩ := (Option.any_eq_true _ _).1 h
    obtain ⟨haccepted, place, hwalk, -⟩ := entryAt?_eq_some.1 he
    rw [join_child_parts] at haccepted hwalk
    rw [FileTree.walk_append] at hwalk
    obtain ⟨folder, hfolder, hstep⟩ := exceptBind_eq_ok.1 hwalk
    obtain ⟨haccepted, hname⟩ := List.forall_mem_append.1 haccepted
    refine ⟨hname name (List.mem_singleton_self name), ?_,
      Option.isSome_iff_exists.2 (contentOf_of_isFile h)⟩
    obtain ⟨es, hes, -⟩ := FileTree.walk_cons_eq_ok.1 hstep
    exact isDir_iff.2 ⟨es, entryAt?_eq_some.2 ⟨haccepted, folder, hfolder, hes⟩⟩
  · rintro ⟨hname, hdir, hcontent⟩
    obtain ⟨es, hes⟩ := isDir_iff.1 hdir
    obtain ⟨haccepted, folder, hfolder, hg⟩ := entryAt?_eq_some.1 hes
    obtain ⟨c, hc⟩ := Option.isSome_iff_exists.1 hcontent
    have hfile := FileTree.get?_of_contentAt hc
    have hplace : w.placeOf (d.child name) = folder ++ [name] := by
      rw [placeOf_child hn, placeOf, FileTree.walk_eq_foldl hfolder]
      rfl
    rw [hplace] at hfile
    obtain ⟨es', e, hes', hlookup, -⟩ := FileTree.dir_of_get? hfile
    obtain rfl := FileTree.dir.inj (Option.some.inj (hg.symm.trans hes'))
    refine (Option.any_eq_true _ _).2 ⟨.file c, entryAt?_eq_some.2 ⟨?_, _, ?_, hfile⟩, rfl⟩
    · rw [join_child_parts, List.forall_mem_append]
      exact ⟨haccepted, List.forall_mem_singleton.2 hname⟩
    · rw [join_child_parts, FileTree.walk_append, hfolder]
      exact FileTree.walk_cons_eq_ok.2 ⟨_, hg, .inr ⟨hn, ⟨e, hlookup⟩, rfl⟩⟩

/-- Where the same directories are, a folder has a file of a name if it has the same contents. -/
theorem isFile_child_congr (hn : name ≠ "..") (hcurrent : v.current = w.current)
    (hsame : ∀ names, v.files.hasDir names = w.files.hasDir names)
    (hcontent : v.contentOf (d.child name) = w.contentOf (d.child name)) :
    v.isFile (d.child name) ↔ w.isFile (d.child name) := by
  rw [isFile_child_iff hn, isFile_child_iff hn, hcontent]
  have hdir : v.isDir d ↔ w.isDir d :=
    ⟨isDir_of_hasDir hcurrent.symm fun names => (hsame names).symm, isDir_of_hasDir hcurrent hsame⟩
  rw [hdir]

/-- The files that a folder of a proper tree has entries for. -/
theorem mem_entries_file_iff (hn : name ≠ "..") (hw : w.files.IsProper) :
    (name, .file content) ∈ w.entries d ↔
      w.isDir d ∧ w.contentOf (d.child name) = some content := by
  constructor
  · intro hmem
    cases hd : w.entryAt? d with
    | none =>
      rw [entries, hd] at hmem
      cases hmem
    | some folder =>
      rw [entries, hd] at hmem
      cases folder with
      | file c => cases hmem
      | dir es =>
        refine ⟨isDir_iff.2 ⟨es, hd⟩, ?_⟩
        have hg := get?_of_entryAt? hd
        have hlookup := lookup_of_mem (hw.get? hg).distinct hmem
        rw [contentOf, placeOf_child hn, FileTree.contentAt, FileTree.get?_append, placeOf, hg,
          Option.bind_some, FileTree.get?, FileTree.entries, hlookup]
        rfl
  · rintro ⟨hdir, hc⟩
    obtain ⟨es, hes⟩ := isDir_iff.1 hdir
    have hfile := FileTree.get?_of_contentAt hc
    rw [placeOf_child hn] at hfile
    obtain ⟨es', e, hg, hlookup, he⟩ := FileTree.dir_of_get? hfile
    obtain rfl := Option.some.inj he
    obtain rfl := FileTree.dir.inj (Option.some.inj ((get?_of_entryAt? hes).symm.trans hg))
    rw [entries, hes]
    exact mem_of_lookup hlookup

end Workspace

end CustomElements
