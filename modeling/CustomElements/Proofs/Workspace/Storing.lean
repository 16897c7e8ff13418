import CustomElements.Proofs.Files.Contents
import CustomElements.Proofs.Workspace.Undisturbed

/-!
# Storing artifacts

Writing artifacts one after the other gives each of them its file and changes no other one. The
store keeps their paths in the order of writing. Directories that are made on the way count as no
change. Every step may also add lines to the log file, so nothing is said of the file at its place.
-/

namespace CustomElements

namespace Workspace

variable {w v w' : Workspace} {as bs : List (Path × Text)}

/-- The names from the root that a path stands for. -/
def placeOf (w : Workspace) (p : Path) : List Text := (Path.normal w.current p).parts

/-- The contents of the file that a path names. -/
def contentOf (w : Workspace) (p : Path) : Option Bytes := w.files.contentAt (w.placeOf p)

/-- Whether log records are added to the file at these names. -/
def LogsTo (w : Workspace) (names : List Text) : Prop :=
  ∃ p, w.logFile = some p ∧ names = w.placeOf p

theorem placeOf_congr (hcurrent : v.current = w.current) (p : Path) : v.placeOf p = w.placeOf p := by
  rw [placeOf, placeOf, hcurrent]

theorem join_child_parts (base d : Path) (name : Text) :
    (base.join (d.child name)).parts = (base.join d).parts ++ [name] := by
  by_cases hd : d.isAbsolute
  · rw [Path.join, Path.join, if_pos hd, if_pos (show (d.child name).isAbsolute from hd)]
    rfl
  · rw [Path.join, Path.join, if_neg hd, if_neg (show ¬(d.child name).isAbsolute from hd)]
    exact (List.append_assoc base.parts d.parts [name]).symm

/-- An entry of a folder is at its name below the place of the folder. -/
theorem placeOf_child {name : Text} (hn : name ≠ "..") (w : Workspace) (d : Path) :
    w.placeOf (d.child name) = w.placeOf d ++ [name] := by
  rw [placeOf, Path.normal, Path.normalParts, join_child_parts, List.foldl_append]
  exact if_neg hn

theorem placeOf_child_inj {name other : Text} {d : Path} (hn : name ≠ "..") (ho : other ≠ "..") :
    w.placeOf (d.child name) = w.placeOf (d.child other) ↔ name = other := by
  rw [placeOf_child hn, placeOf_child ho]
  constructor
  · intro heq
    exact (List.cons.inj (List.append_cancel_left heq)).1
  · exact fun heq => heq ▸ rfl

theorem logsTo_iff_of_eq (hcurrent : v.current = w.current) (hlog : v.logFile = w.logFile)
    (names : List Text) : v.LogsTo names ↔ w.LogsTo names := by
  simp only [LogsTo, hlog, placeOf_congr hcurrent]

theorem contentAt_note {names : List Text} (hlog : ¬w.LogsTo names) (r : LogRecord) :
    (w.note r).files.contentAt names = w.files.contentAt names := by
  change (w.loggedFiles r).contentAt names = w.files.contentAt names
  rcases w.loggedFiles_cases r with hsame | ⟨p, parts, before, line, hp, hparts, -, hwrite⟩
  · rw [hsame]
  · obtain ⟨-, rfl⟩ := place_eq_ok.1 hparts
    exact (FileTree.contentAt_write hwrite).2 names fun hnames => hlog ⟨p, hp, hnames⟩

/-- Log records leave all files but the log file alone. -/
theorem contentAt_report {names : List Text} (hlog : ¬w.LogsTo names) (rs : List LogRecord) :
    (w.report rs).files.contentAt names = w.files.contentAt names := by
  induction rs generalizing w with
  | nil => rfl
  | cons r rs ih => exact (@ih (w.note r) hlog).trans (contentAt_note hlog r)

/-- What writing these artifacts makes of a workspace. -/
structure Stored (w : Workspace) (as : List (Path × Text)) (w' : Workspace) : Prop where
  written : w'.written = w.written ++ as.map Prod.fst
  holds : ∀ a ∈ as, ∃ content, Bytes.ofText? a.2 = some content ∧
    (¬w.LogsTo (w.placeOf a.1) → w'.files.contentAt (w.placeOf a.1) = some content)
  others : ∀ names, (∀ a ∈ as, names ≠ w.placeOf a.1) → ¬w.LogsTo names →
    w'.files.contentAt names = w.files.contentAt names
  current : w'.current = w.current
  logFile : w'.logFile = w.logFile

theorem Stored.placeOf (h : Stored w as v) (p : Path) : v.placeOf p = w.placeOf p :=
  placeOf_congr h.current p

theorem Stored.logsTo_iff (h : Stored w as v) (names : List Text) :
    v.LogsTo names ↔ w.LogsTo names := logsTo_iff_of_eq h.current h.logFile names

/-- Artifacts at different places are written one after the other. -/
theorem Stored.append (h : Stored w as v) (h' : Stored v bs w')
    (hne : ∀ a ∈ as, ∀ b ∈ bs, w.placeOf a.1 ≠ w.placeOf b.1) : Stored w (as ++ bs) w' := by
  refine ⟨?_, ?_, ?_, h'.current.trans h.current, h'.logFile.trans h.logFile⟩
  · rw [h'.written, h.written, List.map_append, List.append_assoc]
  · intro a ha
    rcases List.mem_append.1 ha with ha | ha
    · obtain ⟨content, hc, hheld⟩ := h.holds a ha
      refine ⟨content, hc, fun hlog => ?_⟩
      rw [h'.others _ (fun b hb => ?_) (mt (h.logsTo_iff _).1 hlog), hheld hlog]
      rw [h.placeOf]
      exact hne a ha b hb
    · obtain ⟨content, hc, hheld⟩ := h'.holds a ha
      rw [h.placeOf] at hheld
      exact ⟨content, hc, fun hlog => hheld (mt (h.logsTo_iff _).1 hlog)⟩
  · intro names hnames hlog
    rw [h'.others names (fun b hb => ?_) (mt (h.logsTo_iff _).1 hlog),
      h.others names (fun a ha => ?_) hlog]
    · exact hnames a (List.mem_append_left _ ha)
    · rw [h.placeOf]
      exact hnames b (List.mem_append_right _ hb)

/-- Looking, logging and loading sources stores nothing. -/
theorem Undisturbed.stored (h : Undisturbed w w') : Stored w [] w' := by
  obtain ⟨rs, p, rfl⟩ := h
  have hfiles : ∀ names, ¬w.LogsTo names →
      (w.report rs).files.contentAt names = w.files.contentAt names :=
    fun names hlog => contentAt_report hlog rs
  rw [report_eq]
  exact ⟨(List.append_nil _).symm, fun _ ha => (List.not_mem_nil ha).elim,
    fun names _ => hfiles names, rfl, rfl⟩

theorem Stored.disturbed (h : Stored w as v) (h' : Undisturbed v w') : Stored w as w' := by
  have happend := h.append h'.stored fun _ _ _ hb => nomatch hb
  rwa [List.append_nil] at happend

theorem Undisturbed.then_stored (h : Undisturbed w v) (h' : Stored v as w') : Stored w as w' :=
  h.stored.append h' fun _ ha => nomatch ha

end Workspace

namespace Action

open Workspace

variable {α : Type} {w w' : Workspace} {p q : Path} {text : Text}

/-- The file tree is changed, or there is a fault and nothing is. -/
theorem outcome_change (f : Workspace → Except Fault FileTree) (w : Workspace) :
    (change f).outcome w = match f w with
      | .ok files => (.ok ⟨⟩, { w with files := files })
      | .error e => (.error (.fault e), w) := by
  rw [change, outcome_bind, outcome_look]
  cases f w <;> rfl

theorem change_eq_ok {f : Workspace → Except Fault FileTree} :
    (change f).outcome w = (.ok ⟨⟩, w') ↔ ∃ t, f w = .ok t ∧ w' = { w with files := t } := by
  rw [change, outcome_bind_eq_ok]
  constructor
  · rintro ⟨t, v, hlook, hmod⟩
    obtain ⟨ht, rfl⟩ := outcome_look_eq_ok.1 hlook
    exact ⟨t, ht, (congrArg Prod.snd hmod).symm⟩
  · rintro ⟨t, ht, rfl⟩
    exact ⟨t, w, outcome_look_eq_ok.2 ⟨ht, rfl⟩, rfl⟩

/-- Making directories changes the contents of no file. -/
theorem makeDirs_eq_ok (h : (makeDirs p).outcome w = (.ok ⟨⟩, w')) :
    ∃ t : FileTree, (∀ names, t.contentAt names = w.files.contentAt names) ∧
      w' = { w with files := t } := by
  obtain ⟨parts, v, hlook, hmake⟩ := outcome_bind_eq_ok.1 h
  obtain ⟨-, rfl⟩ := outcome_look_eq_ok.1 hlook
  rw [outcome_get_bind] at hmake
  obtain ⟨_, v', hmod, hend⟩ := outcome_bind_eq_ok.1 hmake
  refine ⟨(v.files.makeDirs parts.reverse).1,
    fun names => FileTree.contentAt_makeDirs v.files parts.reverse names, ?_⟩
  have hv' := (congrArg Prod.snd hmod).symm
  split at hend
  · cases hend
  · exact (congrArg Prod.snd hend).symm.trans hv'

/-- A text that is written has an encoding, which the file holds. -/
theorem writeText_eq_ok (h : (writeText p text).outcome w = (.ok ⟨⟩, w')) :
    ∃ content t, Bytes.ofText? text = some content ∧
      t.contentAt (w.placeOf p) = some content ∧
      (∀ names, names ≠ w.placeOf p → t.contentAt names = w.files.contentAt names) ∧
      w' = { w with files := t } := by
  unfold writeText at h
  split at h
  · next content hc =>
    obtain ⟨t, ht, rfl⟩ := change_eq_ok.1 h
    obtain ⟨parts, hparts, hwrite⟩ := exceptBind_eq_ok.1 ht
    obtain ⟨-, rfl⟩ := place_eq_ok.1 hparts
    obtain ⟨hheld, hothers⟩ := FileTree.contentAt_write hwrite
    exact ⟨content, t, hc, hheld, hothers, rfl⟩
  · obtain ⟨_, _, -, h⟩ := outcome_bind_eq_ok.1 h
    cases h

/-- Writing an artifact stores it. -/
theorem writeArtifact_stored (h : (writeArtifact p text).outcome w = (.ok q, w')) :
    q = p ∧ Stored w [(p, text)] w' := by
  obtain ⟨_, v₁, hdirs, hrest⟩ := outcome_bind_eq_ok.1 h
  obtain ⟨t₁, hsame, rfl⟩ := makeDirs_eq_ok hdirs
  obtain ⟨_, v₂, hwrite, hrest⟩ := outcome_bind_eq_ok.1 hrest
  obtain ⟨content, t₂, hc, hheld, hothers, rfl⟩ := writeText_eq_ok hwrite
  obtain ⟨_, v₃, hmod, hrest⟩ := outcome_bind_eq_ok.1 hrest
  obtain ⟨_, v₄, hrecord, hend⟩ := outcome_bind_eq_ok.1 hrest
  cases hmod
  cases hrecord
  cases hend
  refine ⟨rfl, Stored.disturbed (v := { w with files := t₂, written := w.written ++ [p] })
    ⟨rfl, fun a ha => ?_, fun names hnames _ => ?_, rfl, rfl⟩ ⟨[_], w.project, rfl⟩⟩
  · obtain rfl := List.mem_singleton.1 ha
    exact ⟨content, hc, fun _ => hheld⟩
  · exact (hothers names (hnames _ (List.mem_singleton_self _))).trans (hsame names)

end Action

end CustomElements
