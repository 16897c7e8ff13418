import CustomElements.Build.Bundle
import CustomElements.Output.Store
import CustomElements.Proofs.Files.Outline
import CustomElements.Proofs.Text.Encodable
import CustomElements.Proofs.Workspace.Parallel
import CustomElements.Proofs.Workspace.Reports
import CustomElements.Proofs.Workspace.Storing

/-!
# Workspaces with the same outline

Two runs that write different texts to the same paths keep file trees of one outline: the same files
and directories are there, and only some of the files hold the same. As long as neither run reads a
file that may be different, both go the same way.
-/

namespace CustomElements

namespace Workspace

/-- Two workspaces without a log file whose file trees have one outline. The files at the names that
are `kept` hold the same; the log, the console and the loaded sources may be different. -/
structure Alike (kept : List Text → Prop) (w v : Workspace) : Prop where
  silent : w.logFile = none
  outline : v.files.outline = w.files.outline
  held : ∀ names, kept names → v.files.contentAt names = w.files.contentAt names
  others : v = { w with files := v.files, log := v.log, stderr := v.stderr, project := v.project }

/-- The files at no names. -/
def keptNowhere : List Text → Prop := fun _ => False

namespace Alike

variable {kept : List Text → Prop} {w v : Workspace} {p : Path}

/-- The right workspace written down in terms of the left one. -/
theorem cases (h : Alike kept w v) : ∃ files log stderr project,
    v = { w with files := files, log := log, stderr := stderr, project := project } :=
  ⟨v.files, v.log, v.stderr, v.project, h.others⟩

/-- Looking, logging and loading sources leads to no other files. -/
theorem of_undisturbed {u : Workspace} (hlog : u.logFile = none) (hw : Undisturbed u w)
    (hv : Undisturbed u v) : Alike kept w v := by
  obtain ⟨rs, project, rfl⟩ := hw
  obtain ⟨rs', project', rfl⟩ := hv
  rw [report_eq u rs, report_eq u rs', report_files hlog, report_files hlog]
  exact ⟨hlog, rfl, fun _ _ => rfl, rfl⟩

theorem forget (h : Alike kept w v) : Alike keptNowhere w v :=
  ⟨h.silent, h.outline, fun _ hnames => hnames.elim, h.others⟩

theorem place (h : Alike kept w v) (p : Path) : v.place p = w.place p := by
  obtain ⟨files, log, stderr, project, rfl⟩ := h.cases
  rfl

/-- Records go where the difference may be, even different ones. -/
theorem note (h : Alike kept w v) (r r' : LogRecord) : Alike kept (w.note r) (v.note r') := by
  have hw := (ApartFromLog.note h.silent r).2
  obtain ⟨files, log, stderr, project, rfl⟩ := h.cases
  have hv := (ApartFromLog.note (w := { w with
    files := files, log := log, stderr := stderr, project := project }) h.silent r').2
  rw [hw, hv]
  exact ⟨h.silent, h.outline, h.held, rfl⟩

/-- A change of the file trees that keeps their outlines the same. -/
theorem with_files (h : Alike kept w v) {t t' : FileTree} (houtline : t'.outline = t.outline)
    (hheld : ∀ names, kept names → t'.contentAt names = t.contentAt names) :
    Alike kept { w with files := t } { v with files := t' } := by
  obtain ⟨files, log, stderr, project, rfl⟩ := h.cases
  exact ⟨h.silent, houtline, hheld, rfl⟩

theorem current (h : Alike kept w v) : v.current = w.current := by
  obtain ⟨files, log, stderr, project, rfl⟩ := h.cases
  rfl

theorem entryAt? (h : Alike kept w v) (p : Path) :
    (v.entryAt? p).map FileTree.outline = (w.entryAt? p).map FileTree.outline :=
  entryAt?_of_outline h.current h.outline p

theorem isFile (h : Alike kept w v) (p : Path) : v.isFile p = w.isFile p :=
  isFile_of_outline h.current h.outline p

theorem entries (h : Alike kept w v) (d : Path) :
    FileTree.outlineIn (v.entries d) = FileTree.outlineIn (w.entries d) := by
  have hentries (u : Workspace) : FileTree.outlineIn (u.entries d) =
      (((u.entryAt? d).map FileTree.outline).map FileTree.entries).getD [] := by
    unfold Workspace.entries
    cases u.entryAt? d with
    | none => rw [Option.map_none, Option.getD_none, FileTree.outlineIn]; rfl
    | some e => exact (FileTree.entries_outline e).symm
  rw [hentries, hentries, h.entryAt?]

/-- Main bundles are told by their names and by being files. -/
theorem mainBundles (h : Alike kept w v) (d : Path) : v.mainBundles d = w.mainBundles d := by
  have hnames (es : List (Text × FileTree)) :
      ((FileTree.outlineIn es).filter fun e => !e.2.isDir && isMainBundle e.1).map Prod.fst =
        (es.filter fun e => !e.2.isDir && isMainBundle e.1).map Prod.fst := by
    rw [FileTree.outlineIn_eq_map, List.filter_map, List.map_map]
    simp only [Function.comp_def, FileTree.isDir_outline]
  unfold Workspace.mainBundles
  dsimp only
  rw [← hnames, h.entries, hnames]

/-- A file that is kept is read the same. -/
theorem read (h : Alike kept w v) (hkept : kept (w.placeOf p)) : v.read p = w.read p := by
  unfold Workspace.read
  rw [h.place]
  cases hplace : w.place p with
  | error f => rfl
  | ok parts =>
    obtain ⟨-, rfl⟩ := place_eq_ok.1 hplace
    exact FileTree.read_eq_of_outline h.outline (h.held _ hkept)

theorem readText (h : Alike kept w v) (hkept : kept (w.placeOf p)) :
    v.readText p = w.readText p := by
  rw [Workspace.readText, Workspace.readText, h.read hkept]

end Alike

end Workspace

namespace Action

open Workspace

variable {α : Type} {kept : List Text → Prop} {p : Path} {t t' : Text}

theorem record_alike (level : LogLevel) (logger message : Text) :
    Parallel (Alike kept) (Alike kept) Eq (record level logger message)
      (record level logger message) :=
  Parallel.modify fun _ _ h => h.note _ _

/-- A look that sees no more of the workspace than the directories it is in. -/
theorem look_alike {f : Workspace → Except Fault α}
    (h : ∀ (w : Workspace) files log stderr project,
      f { w with files := files, log := log, stderr := stderr, project := project } = f w) :
    Parallel (Alike kept) (Alike kept) Eq (look f) (look f) := by
  refine Parallel.look fun w v hw => ?_
  obtain ⟨files, log, stderr, project, rfl⟩ := hw.cases
  exact (h w files log stderr project).symm

/-- Changes that lead to the same outline and to the same contents where they are kept. -/
theorem change_alike {f g : Workspace → Except Fault FileTree}
    (houtline : ∀ w v, Alike kept w v → (g v).map FileTree.outline = (f w).map FileTree.outline)
    (hheld : ∀ w v files files', Alike kept w v → f w = .ok files → g v = .ok files' →
      ∀ names, kept names → files'.contentAt names = files.contentAt names) :
    Parallel (Alike kept) (Alike kept) Eq (change f) (change g) := by
  intro w v h
  have hsame := houtline w v h
  have hkept := fun files files' => hheld w v files files' h
  rw [outcome_change, outcome_change]
  generalize f w = r at hsame hkept
  generalize g v = s at hsame hkept
  cases r with
  | error e =>
    cases s with
    | error e' =>
      cases hsame
      exact ⟨.failure _, h⟩
    | ok files' => cases hsame
  | ok files =>
    cases s with
    | error e' => cases hsame
    | ok files' => exact ⟨.answer rfl, h.with_files (Except.ok.inj hsame) (hkept _ _ rfl rfl)⟩

theorem writeBytes_alike (hp : ∀ w : Workspace, ¬kept (w.placeOf p)) (content content' : Bytes) :
    Parallel (Alike kept) (Alike kept) Eq (writeBytes p content) (writeBytes p content') := by
  refine change_alike (fun w v h => ?_) fun w v files files' h hfiles hfiles' names hnames => ?_
  · rw [h.place]
    cases w.place p with
    | error f => rfl
    | ok parts =>
      change (v.files.write parts content').map _ = (w.files.write parts content).map _
      rw [FileTree.outline_write, FileTree.outline_write, h.outline]
  · obtain ⟨parts, hparts, hwrite⟩ := exceptBind_eq_ok.1 hfiles
    obtain ⟨parts', hparts', hwrite'⟩ := exceptBind_eq_ok.1 hfiles'
    rw [h.place] at hparts'
    obtain rfl := Except.ok.inj (hparts'.symm.trans hparts)
    obtain ⟨-, rfl⟩ := place_eq_ok.1 hparts
    have hne : names ≠ w.placeOf p := fun heq => hp w (heq ▸ hnames)
    rw [(FileTree.contentAt_write hwrite).2 names hne,
      (FileTree.contentAt_write hwrite').2 names hne, h.held names hnames]

theorem writeText_alike (hp : ∀ w : Workspace, ¬kept (w.placeOf p))
    (ht : t.IsEncodable ↔ t'.IsEncodable) :
    Parallel (Alike kept) (Alike kept) Eq (writeText p t) (writeText p t') := by
  rw [Text.isEncodable_iff_ofText?, Text.isEncodable_iff_ofText?] at ht
  unfold writeText
  cases hbytes : Bytes.ofText? t with
  | some bytes =>
    rw [hbytes] at ht
    obtain ⟨bytes', hbytes'⟩ := Option.isSome_iff_exists.1 (ht.1 rfl)
    rw [hbytes']
    exact writeBytes_alike hp bytes bytes'
  | none =>
    have hnone : Bytes.ofText? t' = none := by
      rw [← Option.not_isSome_iff_eq_none, ← ht, hbytes]
      exact Bool.false_ne_true
    rw [hnone]
    exact (writeBytes_alike hp _ _).andThen_eq fun _ => Parallel.throw _

theorem makeDirs_alike (p : Path) :
    Parallel (Alike kept) (Alike kept) Eq (makeDirs p) (makeDirs p) := by
  refine (look_alike fun _ _ _ _ _ => rfl).andThen_eq fun parts => ?_
  refine Parallel.get_bind fun w v h => ?_
  have hmade := FileTree.outline_makeDirs v.files parts.reverse
  rw [h.outline, FileTree.outline_makeDirs] at hmade
  obtain ⟨houtline, hfault⟩ := Prod.mk.inj hmade
  have hheld : ∀ names, kept names → (v.files.makeDirs parts.reverse).1.contentAt names =
      (w.files.makeDirs parts.reverse).1.contentAt names := by
    intro names hnames
    rw [FileTree.contentAt_makeDirs, FileTree.contentAt_makeDirs, h.held names hnames]
  dsimp only
  rw [← hfault]
  refine (Parallel.modify fun _ _ hs => hs.with_files houtline.symm hheld).andThen_eq fun _ => ?_
  split
  · exact Parallel.throw _
  · exact Parallel.pure rfl

/-- Artifacts are written side by side if both of their texts have an encoding or neither has. -/
theorem writeArtifact_alike (hp : ∀ w : Workspace, ¬kept (w.placeOf p))
    (ht : t.IsEncodable ↔ t'.IsEncodable) :
    Parallel (Alike kept) (Alike kept) Eq (writeArtifact p t) (writeArtifact p t') := by
  refine (makeDirs_alike _).andThen_eq fun _ => ?_
  refine (writeText_alike hp ht).andThen_eq fun _ => ?_
  refine .andThen_eq (Parallel.modify fun w v h => ?_) fun _ => ?_
  · obtain ⟨files, log, stderr, project, rfl⟩ := h.cases
    exact ⟨h.silent, h.outline, h.held, rfl⟩
  · refine Parallel.andThen (P := fun _ _ => True) ?_ fun _ _ _ => Parallel.pure rfl
    exact Parallel.mono (Parallel.modify fun w v h => h.note _ _) le_rfl fun _ _ _ => trivial

end Action

end CustomElements
