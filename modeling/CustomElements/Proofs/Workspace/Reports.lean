import CustomElements.Proofs.Files.Directories
import CustomElements.Proofs.Files.Outline
import CustomElements.Proofs.Files.TreeNames
import CustomElements.Proofs.Workspace.Undisturbed

/-!
# Files under log records

A log record may be added to a file, and then that file holds something else than before. Which
files there are, and under which names, stays the same.
-/

namespace CustomElements

namespace FileTree

variable {t t' e : FileTree} {place : List Text}

/-- An entry that is given the tree that it has stays what it is. -/
theorem setEntry_self {name : Text} {es : List (Text × FileTree)} (h : es.lookup name = some e) :
    setEntry name e es = es := by
  induction es with
  | nil => cases h
  | cons x es ih =>
    obtain ⟨first, d⟩ := x
    rw [lookup_cons] at h
    rw [setEntry]
    split at h
    · next heq =>
      obtain rfl := Option.some.inj h
      rw [if_pos heq.symm, heq]
    · next hne => rw [if_neg (Ne.symm hne), ih h]

theorem put_self (h : t.get? place = some e) : t.put e place = t := by
  induction place generalizing t with
  | nil =>
    rw [put]
    exact (Option.some.inj h).symm
  | cons name place ih =>
    cases t with
    | file c => cases h
    | dir es =>
      rw [get?, entries] at h
      cases hl : es.lookup name with
      | none => simp [hl] at h
      | some d =>
        rw [hl] at h
        have hput := ih h
        cases place with
        | nil =>
          rw [put] at hput
          rw [put, hput, setEntry_self hl]
        | cons second place =>
          unfold put
          dsimp only
          rw [hl]
          dsimp only
          rw [hput, setEntry_self hl]

theorem read_eq_ok {parts : List Text} {content : Bytes} : t.read parts = .ok content ↔
    ∃ place, t.walk [] parts = .ok place ∧ t.get? place = some (file content) := by
  rw [read, stat]
  cases t.walk [] parts with
  | error f =>
    refine iff_of_false (fun h => by cases h) ?_
    rintro ⟨place, h, -⟩
    cases h
  | ok place =>
    simp only [Except.ok.injEq, exists_eq_left']
    dsimp only [bind, Except.bind]
    rcases t.get? place with _ | (held | es) <;> simp

/-- A file that can be read can be written. -/
theorem write_of_read {parts : List Text} {content : Bytes} (hr : t.read parts = .ok content)
    (new : Bytes) : ∃ place, t.get? place = some (file content) ∧
      t.write parts new = .ok (t.put (file new) place) := by
  obtain ⟨place, hwalk, hfile⟩ := read_eq_ok.1 hr
  refine ⟨place, hfile, ?_⟩
  rw [write, locate_of_walk hwalk]
  simp only [bind, Except.bind, hfile]

/-- A file that can be read is written without a change to the outline. -/
theorem outline_write_of_read {parts : List Text} {content new : Bytes}
    (hr : t.read parts = .ok content) (hw : t.write parts new = .ok t') :
    t'.outline = t.outline := by
  obtain ⟨place, hfile, hput⟩ := write_of_read hr new
  obtain rfl := Except.ok.inj (hput.symm.trans hw)
  have hsame : t.outline.get? place = some (file ByteArray.empty) := by
    rw [get?_outline, hfile, Option.map_some, outline_file]
  rw [outline_put, outline_file, put_self hsame]

/-- What a file holds is read if the file was there before. -/
theorem read_of_outline {parts : List Text} {content new : Bytes}
    (houtline : t'.outline = t.outline) (hr : t.read parts = .ok content)
    (hheld : t'.contentAt (Path.normalParts parts) = some new) : t'.read parts = .ok new := by
  obtain ⟨place, hwalk, -⟩ := read_eq_ok.1 hr
  obtain rfl : place = Path.normalParts parts := walk_eq_foldl hwalk
  rw [← walk_outline, ← houtline, walk_outline] at hwalk
  exact read_eq_ok.2 ⟨_, hwalk, get?_of_contentAt hheld⟩

mutual

/-- The files of a tree have the names of the files of its outline. -/
theorem map_fst_files_outline (t : FileTree) :
    t.outline.files.map Prod.fst = t.files.map Prod.fst := by
  cases t with
  | file c => rw [outline_file, files, files, List.map_singleton, List.map_singleton]
  | dir es => rw [outline_dir, files, files, map_fst_filesIn_outline es]

theorem map_fst_filesIn_outline (es : List (Text × FileTree)) :
    (filesIn (outlineIn es)).map Prod.fst = (filesIn es).map Prod.fst := by
  cases es with
  | nil => rw [outlineIn]
  | cons x es =>
    obtain ⟨name, d⟩ := x
    have hhere := congrArg (List.map (name :: ·)) (map_fst_files_outline d)
    rw [outlineIn, filesIn, filesIn, List.map_append, List.map_append, List.map_map, List.map_map,
      map_fst_filesIn_outline es]
    rw [List.map_map, List.map_map] at hhere
    exact congrArg (· ++ _) hhere

end

end FileTree

namespace Workspace

variable {w w' : Workspace}

/-- Where there is the same outline, a path leads to the same file or directory. -/
theorem entryAt?_of_outline {v : Workspace} (hcurrent : v.current = w.current)
    (houtline : v.files.outline = w.files.outline) (p : Path) :
    (v.entryAt? p).map FileTree.outline = (w.entryAt? p).map FileTree.outline := by
  have hplace : v.place p = w.place p := by rw [place, place, hcurrent]
  unfold entryAt?
  rw [hplace]
  cases w.place p with
  | error f => rfl
  | ok parts =>
    have hstat := FileTree.stat_outline v.files parts
    rw [houtline, FileTree.stat_outline] at hstat
    have hoption := congrArg Except.toOption hstat
    dsimp only
    generalize v.files.stat parts = s' at hoption
    generalize w.files.stat parts = s at hoption
    cases s <;> cases s' <;> exact hoption.symm

theorem isFile_of_outline {v : Workspace} (hcurrent : v.current = w.current)
    (houtline : v.files.outline = w.files.outline) (p : Path) : v.isFile p = w.isFile p := by
  have hentry := congrArg (Option.any fun t => !t.isDir) (entryAt?_of_outline hcurrent houtline p)
  simpa only [isFile, Option.any_map, Function.comp_def, FileTree.isDir_outline] using hentry

theorem isDir_of_outline {v : Workspace} (hcurrent : v.current = w.current)
    (houtline : v.files.outline = w.files.outline) (p : Path) : v.isDir p = w.isDir p := by
  have hentry := congrArg (Option.any FileTree.isDir) (entryAt?_of_outline hcurrent houtline p)
  simpa only [isDir, Option.any_map, Function.comp_def, FileTree.isDir_outline] using hentry

theorem outline_note (w : Workspace) (r : LogRecord) :
    (w.note r).files.outline = w.files.outline := by
  show (w.loggedFiles r).outline = w.files.outline
  rcases w.loggedFiles_cases r with hsame | ⟨p, parts, before, line, -, -, hread, hwrite⟩
  · rw [hsame]
  · exact FileTree.outline_write_of_read hread hwrite

/-- Looking and logging keep the outline of the files. -/
theorem Reported.outline_eq (h : Reported w w') : w'.files.outline = w.files.outline := by
  obtain ⟨rs, rfl⟩ := h
  induction rs generalizing w with
  | nil => rfl
  | cons r rs ih =>
    rw [report_cons, ih]
    exact w.outline_note r

theorem Reported.current_eq (h : Reported w w') : w'.current = w.current := by
  obtain ⟨rs, rfl⟩ := h
  rw [report_eq]

/-- Looking and logging make no file and no directory. -/
theorem Reported.isFile_eq (h : Reported w w') (p : Path) : w'.isFile p = w.isFile p :=
  isFile_of_outline h.current_eq h.outline_eq p

theorem Reported.isDir_eq (h : Reported w w') (p : Path) : w'.isDir p = w.isDir p :=
  isDir_of_outline h.current_eq h.outline_eq p

/-- Looking and logging keep the names of the files. -/
theorem Reported.map_fst_files (h : Reported w w') :
    w'.files.files.map Prod.fst = w.files.files.map Prod.fst := by
  rw [← FileTree.map_fst_files_outline, h.outline_eq, FileTree.map_fst_files_outline]

end Workspace

end CustomElements
