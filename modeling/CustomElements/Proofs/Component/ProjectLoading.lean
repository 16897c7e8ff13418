import CustomElements.Proofs.Component.DirectoryScan
import CustomElements.Proofs.ProjectFile.ReadingFaults
import CustomElements.Proofs.ProjectFile.UnsearchableRules

/-!
# How starting with a project file fails

Starting with a project file fails if the file cannot be loaded, if the root that is asked for
cannot be resolved, or if an include rule makes a search that refuses its pattern. The selected
sources themselves are no reason: they are there, and those that cannot be loaded are left out.
-/

namespace CustomElements

open CustomElements.Action

variable {w v : Workspace} {s : ProjectFile} {rule : FileRule} {p file : Path} {ps : List Path}
variable {root : Option Path} {e : Failure} {f : Fault}

/-! ### What is selected -/

namespace ProjectFile

theorem mem_listed {selected : List Path} :
    p ∈ listed w selected ps ↔ p ∈ selected ∨ p ∈ ps ∧ w.isFile p := by
  induction ps generalizing selected with
  | nil => simp [listed]
  | cons q ps ih =>
    rw [listed, ih, List.mem_cons]
    by_cases hq : !selected.contains q && w.isFile q
    · rw [if_pos hq, List.mem_append, List.mem_singleton]
      grind
    · rw [if_neg hq]
      grind

/-- What is included was selected before, or it is a source that a rule leads to. -/
theorem mem_included {selected : List Path} {rules : List FileRule}
    (h : p ∈ (s.included w selected rules).1) :
    p ∈ selected ∨ ∃ r ∈ rules, ∃ ps, r.expand w = .ok ps ∧ p ∈ ps := by
  induction rules generalizing selected with
  | nil => exact .inl h
  | cons r rules ih =>
    rw [included] at h
    cases hr : r.expand w with
    | error f =>
      rw [hr] at h
      exact .inl h
    | ok ps =>
      rw [hr] at h
      rcases ih h with h | ⟨r', hr', h⟩
      · rcases mem_added.1 h with h | ⟨h, -⟩
        · exact .inl h
        · exact .inr ⟨r, List.mem_cons_self, ps, hr, h⟩
      · exact .inr ⟨r', List.mem_cons_of_mem r hr', h⟩

/-- What is selected is there, and it is given by a resolved path. -/
theorem isResolved_of_mem_select (hs : s.ListsResolved) (hp : p ∈ (s.select w).1) :
    p.IsResolved := by
  have hthere : p.IsNormal ∧ w.isFile p := by
    rcases mem_included hp with h | ⟨r, -, ps, hr, h⟩
    · obtain ⟨hlisted, hfile⟩ := (mem_listed.1 h).resolve_left List.not_mem_nil
      exact ⟨hs p hlisted, hfile⟩
    · obtain ⟨q, rfl, -⟩ := FileRule.mem_expand hr h
      exact ⟨Path.normal_isNormal w.current q, (FileRule.source_of_mem_expand hr h).1⟩
  obtain ⟨hnormal, hfile⟩ := hthere
  have haccepted := (Workspace.resolve_eq_ok.1 (Workspace.resolve_of_isFile hfile)).1
  rw [Path.join_of_fromRoot hnormal.fromRoot] at haccepted
  exact ⟨hnormal, haccepted⟩

end ProjectFile

namespace Project

/-- Files with resolved paths can be offered, one after the other. -/
theorem offer_forIn (hps : ∀ p ∈ ps, p.IsResolved) (w : Workspace) :
    ∃ rs fs, (forIn ps PUnit.unit fun p _ => do
      let _ ← offer p
      pure (ForInStep.yield PUnit.unit)).outcome w = (.ok ⟨⟩, (w.report rs).withSources fs) := by
  induction ps generalizing w with
  | nil => exact ⟨[], [], congrArg (Prod.mk _) w.withSources_nil.symm⟩
  | cons p ps ih =>
    obtain ⟨hp, hps⟩ := List.forall_mem_cons.1 hps
    have hoffer := offer_sourceAt (hp.resolveFrom w w.project.root)
    obtain ⟨rs, fs, hrest⟩ := ih hps ((w.report (w.leftOut p)).withSources (w.newAt p))
    rw [Workspace.report_withSources, Workspace.withSources_append] at hrest
    refine ⟨w.leftOut p ++ rs, w.newAt p ++ fs, ?_⟩
    rw [List.forIn_cons, outcome_bind_ok (outcome_bind_ok hoffer _)]
    exact hrest

/-- How the loading of a selection ends: with its fault, or with a record of how much was loaded. -/
def endSelection (s : ProjectFile) : Option Fault → Action Unit
  | some f => Action.faulty f
  | none => do Action.record .debug "source" ("Loaded " ++
      Text.ofNat (← get).project.files.length ++ " source files from " ++ s.path.text)

/-- Starting with what a project file selects, once the project file has been loaded. -/
def startSelected (s : ProjectFile) (root : Path) : Action Unit := do
  start root
  let selection := s.select (← get)
  for p in selection.1 do
    let _ ← offer p
  endSelection s selection.2

theorem startFrom_eq (file : Path) (root : Option Path) :
    startFrom file root = (do
      let before := (← get).project
      let s ← ProjectFile.load file
      tryCatch (startSelected s (root.getD s.path.parent)) fun e => do
        modify fun w => { w with project := before }
        throw e) := rfl

/-- The workspace with an empty project in place of its own. -/
def startedAt (w : Workspace) (root : Path) : Workspace := { w with project := ⟨root, []⟩ }

theorem startedAt_report (w : Workspace) (rs : List LogRecord) (q : Path) :
    startedAt (w.report rs) q = (startedAt w q).report rs :=
  (Workspace.report_with_project w ⟨q, []⟩ rs).symm

theorem start_outcome (p : Path) (w : Workspace) : (start p).outcome w =
    match (do w.resolve (← w.expandHome p)) with
    | .error f => (.error (.fault f), w)
    | .ok q => (.ok ⟨⟩, startedAt w q) := by
  have hlook := outcome_look (fun w => do w.resolve (← w.expandHome p)) w
  cases hp : (do w.resolve (← w.expandHome p)) with
  | error f =>
    rw [hp] at hlook
    exact outcome_bind_error hlook _
  | ok q =>
    rw [hp] at hlook
    exact outcome_bind_ok hlook _

theorem endSelection_outcome (s : ProjectFile) (fault : Option Fault) (w : Workspace) :
    ∃ rs, (endSelection s fault).outcome w =
      (fault.elim (.ok ⟨⟩) fun f => .error (.fault f), w.report rs) := by
  cases fault with
  | some f => exact ⟨[], rfl⟩
  | none => exact ⟨[_], rfl⟩

/-- All selected sources are offered, and then the selection may turn out to be at fault. -/
theorem startSelected_outcome (hs : s.ListsResolved) {q : Path}
    (hp : (do w.resolve (← w.expandHome p)) = .ok q) :
    ∃ rs fs, (startSelected s p).outcome w =
      ((s.select (startedAt w q)).2.elim (.ok ⟨⟩) fun f => .error (.fault f),
        ((startedAt w q).report rs).withSources fs) := by
  have hstart := start_outcome p w
  rw [hp] at hstart
  have hpaths (p : Path) (h : p ∈ (s.select (startedAt w q)).1) : p.IsResolved :=
    ProjectFile.isResolved_of_mem_select hs h
  obtain ⟨rs, fs, hoffer⟩ := offer_forIn hpaths (startedAt w q)
  obtain ⟨rs', hend⟩ := endSelection_outcome s (s.select (startedAt w q)).2
    (((startedAt w q).report rs).withSources fs)
  rw [Workspace.report_withSources] at hend
  refine ⟨rs ++ rs', fs, ?_⟩
  rw [startSelected, outcome_bind_ok hstart, outcome_get_bind, outcome_bind_ok hoffer]
  exact hend

/-- Why starting with a project file fails. -/
inductive StartFails (w : Workspace) (file : Path) (root : Option Path) : Failure → Prop where
  | reading {reads : List Path} {e : Failure} {v : Workspace}
      (loads : ProjectFile.Loads w file reads (.error e, v)) : StartFails w file root e
  | root {reads : List Path} {s : ProjectFile} {v : Workspace} {p : Path} {f : Fault}
      (loads : ProjectFile.Loads w file reads (.ok s, v)) (given : root = some p)
      (lost : (do w.resolve (← w.expandHome p)) = .error f) : StartFails w file root (.fault f)
  | search {reads : List Path} {s : ProjectFile} {v : Workspace} {rule : FileRule} {f : Fault}
      (loads : ProjectFile.Loads w file reads (.ok s, v))
      (found : ∀ p, root = some p → ∃ q, (do w.resolve (← w.expandHome p)) = .ok q)
      (first : IsFirst (FileRule.IsRefused w) s.includes rule) (refused : rule.Unsearchable w f) :
      StartFails w file root (.fault f)

end Project

/-- What is read for a file has a resolved path and lists resolved paths. -/
theorem ProjectFile.Loads.resolved {reads : List Path}
    (h : ProjectFile.Loads w file reads (.ok s, v)) : s.path.IsResolved ∧ s.ListsResolved := by
  cases h with
  | loaded found inside =>
    obtain ⟨p, -, hresolve⟩ := exceptBind_eq_ok.1 found
    rw [inside.path_eq]
    exact ⟨Workspace.resolve_isResolved hresolve, inside.listsResolved trivial rfl s rfl⟩

namespace Project

/-- Looking and logging make no difference to what a selection meets. -/
theorem select_startedAt (h : w.Reported v) (q : Path) :
    (s.select (startedAt v q)).2 = some f ↔
      ∃ r, IsFirst (FileRule.IsRefused w) s.includes r ∧ r.Unsearchable w f := by
  have hdir : (startedAt v q).isDir = w.isDir := funext h.isDir_eq
  have hrefused : FileRule.IsRefused (startedAt v q) = FileRule.IsRefused w :=
    funext fun r => propext (exists_congr fun f => FileRule.unsearchable_congr hdir)
  simp only [ProjectFile.select_eq_some, hrefused, FileRule.unsearchable_congr hdir]

/-- Looking and logging make no difference to where a path leads. -/
theorem located_reported (h : w.Reported v) (p : Path) :
    (do v.resolve (← v.expandHome p)) = (do w.resolve (← w.expandHome p)) := by
  obtain ⟨rs, rfl⟩ := h
  rw [Workspace.report_eq]
  rfl

/-- A project without a root of its own has that of its project file. -/
theorem located_parent (hs : s.path.IsResolved) :
    (do w.resolve (← w.expandHome s.path.parent)) = .ok s.path.parent := by
  refine exceptBind_eq_ok.2 ⟨s.path.parent, ?_, hs.parent.resolve w⟩
  exact expandHome_of_isAbsolute hs.parent.isAbsolute

/-- A workspace that gets its own project back is what it was, but for its log. -/
theorem restored (h : w.Reported v) (q : Path) (rs : List LogRecord) (fs : List SourceFile) :
    { ((startedAt v q).report rs).withSources fs with project := w.project } = v.report rs := by
  rw [startedAt, Workspace.report_with_project, ← h.project_eq, Workspace.withSources]
  have hproject : (v.report rs).project = v.project := Workspace.Reported.project_eq ⟨rs, rfl⟩
  rw [← hproject]

theorem startFrom_of_unread (h : (ProjectFile.load file).outcome w = (.error e, v)) :
    (startFrom file root).outcome w = (.error e, v) := by
  rw [startFrom_eq, outcome_get_bind]
  exact outcome_bind_error h _

/-- If what was read cannot be started with, the project is what it was. -/
theorem startFrom_of_read (h : (ProjectFile.load file).outcome w = (.ok s, v)) :
    (startFrom file root).outcome w =
      match (startSelected s (root.getD s.path.parent)).outcome v with
      | (.ok x, u) => (.ok x, u)
      | (.error e, u) => (.error e, { u with project := w.project }) := by
  rw [startFrom_eq, outcome_get_bind, outcome_bind_ok h, outcome_tryCatch]
  rcases (startSelected s (root.getD s.path.parent)).outcome v with ⟨e | x, u⟩ <;> rfl

/-- What starting comes to if the project file can be read. -/
theorem startFrom_loaded {reads : List Path} (loads : ProjectFile.Loads w file reads (.ok s, v))
    (root : Option Path) :
    (∃ p f, root = some p ∧ (do w.resolve (← w.expandHome p)) = .error f ∧
      (startFrom file root).outcome w = (.error (.fault f), v)) ∨
    ∃ q rs fs, (do w.resolve (← w.expandHome (root.getD s.path.parent))) = .ok q ∧
      (startFrom file root).outcome w =
        match (s.select (startedAt v q)).2 with
        | some f => (.error (.fault f), v.report rs)
        | none => (.ok ⟨⟩, ((startedAt v q).report rs).withSources fs) := by
  obtain ⟨hpath, hlists⟩ := loads.resolved
  have hv : w.Reported v := loads.reported
  have hread : (startFrom file root).outcome w = _ := startFrom_of_read loads.outcome
  have hlocated := located_reported hv (root.getD s.path.parent)
  cases hq : (do w.resolve (← w.expandHome (root.getD s.path.parent))) with
  | error f =>
    have hstart := start_outcome (root.getD s.path.parent) v
    rw [hlocated.trans hq] at hstart
    rw [startSelected, outcome_bind_error hstart] at hread
    cases root with
    | none =>
      have hparent := located_parent (w := w) hpath
      exact absurd (hparent.symm.trans hq) nofun
    | some p =>
      have hsame : { v with project := w.project } = v := by rw [← hv.project_eq]
      exact .inl ⟨p, f, rfl, hq, hread.trans (congrArg (Prod.mk _) hsame)⟩
  | ok q =>
    obtain ⟨rs, fs, hselected⟩ := startSelected_outcome hlists (hlocated.trans hq)
    refine .inr ⟨q, rs, fs, rfl, ?_⟩
    rw [hread, hselected]
    cases (s.select (startedAt v q)).2 with
    | none => rfl
    | some f => exact congrArg (Prod.mk _) (restored hv q rs fs)

/-- Whatever is a reason for a failure makes starting fail. -/
theorem StartFails.outcome (h : StartFails w file root e) :
    ∃ v, w.Reported v ∧ (startFrom file root).outcome w = (.error e, v) := by
  cases h with
  | @reading reads e v loads => exact ⟨v, loads.reported, startFrom_of_unread loads.outcome⟩
  | @root reads s v p f loads given lost =>
    subst given
    rcases startFrom_loaded loads (some p) with ⟨p', f', given, lost', hend⟩ | ⟨q, rs, fs, found, -⟩
    · cases given
      cases lost.symm.trans lost'
      exact ⟨v, loads.reported, hend⟩
    · cases lost.symm.trans found
  | @search reads s v rule f loads found first refused =>
    rcases startFrom_loaded loads root with ⟨p, _, given, lost, -⟩ | ⟨q, rs, fs, -, hend⟩
    · obtain ⟨q, hq⟩ := found p given
      cases lost.symm.trans hq
    · have hv := loads.reported
      rw [(select_startedAt hv q).2 ⟨rule, first, refused⟩] at hend
      exact ⟨_, IsTrans.trans (r := Workspace.Reported) _ _ _ hv ⟨rs, rfl⟩, hend⟩

/-- Without such a reason there is a new project. -/
theorem startFrom_ends (w : Workspace) (file : Path) (root : Option Path) :
    (∃ e, StartFails w file root e) ∨ ∃ reads s u q rs fs, ProjectFile.Loads w file reads (.ok s, u) ∧
      (do w.resolve (← w.expandHome (root.getD s.path.parent))) = .ok q ∧
      (startFrom file root).outcome w = (.ok ⟨⟩, ((startedAt w q).report rs).withSources fs) := by
  obtain ⟨reads, ⟨e | s, v⟩, loads, -⟩ := ProjectFile.exists_loads w file
  · exact .inl ⟨e, .reading loads⟩
  rcases startFrom_loaded loads root with
    ⟨p, f, given, lost, -⟩ | ⟨q, rs, fs, found, hend⟩
  · exact .inl ⟨_, .root loads given lost⟩
  cases hfault : (s.select (startedAt v q)).2 with
  | some f =>
    obtain ⟨rule, first, refused⟩ := (select_startedAt loads.reported q).1 hfault
    have hroot (p : Path) (given : root = some p) :
        ∃ q, (do w.resolve (← w.expandHome p)) = .ok q := by
      subst given
      exact ⟨q, found⟩
    exact .inl ⟨_, .search loads hroot first refused⟩
  | none =>
    obtain ⟨rs', rfl⟩ : w.Reported v := loads.reported
    rw [hfault] at hend
    dsimp only at hend
    rw [startedAt_report, ← Workspace.report_append] at hend
    exact .inr ⟨reads, s, _, q, rs' ++ rs, fs, loads, found, hend⟩

/-- A failure has its reason, and all that it leaves are log records. -/
theorem startFrom_eq_error (h : (startFrom file root).outcome w = (.error e, v)) :
    StartFails w file root e ∧ w.Reported v := by
  rcases startFrom_ends w file root with ⟨e', hfails⟩ | ⟨_, _, _, _, _, _, -, -, hend⟩
  · obtain ⟨u, hu, hend⟩ := hfails.outcome
    cases hend.symm.trans h
    exact ⟨hfails, hu⟩
  · cases hend.symm.trans h

theorem startFrom_eq_ok (h : (startFrom file root).outcome w = (.ok ⟨⟩, v)) :
    ∃ reads s u q rs fs, ProjectFile.Loads w file reads (.ok s, u) ∧
      (do w.resolve (← w.expandHome (root.getD s.path.parent))) = .ok q ∧
        v = ((startedAt w q).report rs).withSources fs := by
  rcases startFrom_ends w file root with ⟨e, hfails⟩ | ⟨reads, s, u, q, rs, fs, loads, hq, hend⟩
  · obtain ⟨u, -, hend⟩ := hfails.outcome
    cases hend.symm.trans h
  · cases hend.symm.trans h
    exact ⟨reads, s, u, q, rs, fs, loads, hq, rfl⟩

/-- Starting with a project file fails exactly if the file cannot be read, if the root that is asked
for has no path, or if an include rule makes a search that refuses its pattern. Reading fails with a
mistake in a project file, or with a fault: that of a path which cannot be resolved, given to the
program or in a file, or that of an integer with too many digits. After a failure everything is as
it was before, but for the log. Otherwise the new project has the root that is asked for, or else
the directory of the project file. -/
theorem startFrom_fails_iff (w : Workspace) (file : Path) (root : Option Path) :
    (∀ e, ((startFrom file root).outcome w).1 = .error e ↔ StartFails w file root e) ∧
      (∀ reads m v, ProjectFile.Loads w file reads (.error (.mistake m), v) →
        m.IsOfProjectFile) ∧
      (∀ reads f v, ProjectFile.Loads w file reads (.error (.fault f), v) →
        (do w.resolve (← w.expandHome file)) = .error f ∨ ReadingFault w reads f) ∧
      (∀ e v, (startFrom file root).outcome w = (.error e, v) → w.Reported v) ∧
      (∀ v, (startFrom file root).outcome w = (.ok ⟨⟩, v) → ∃ reads s u q rs fs,
        ProjectFile.Loads w file reads (.ok s, u) ∧
          (do w.resolve (← w.expandHome (root.getD s.path.parent))) = .ok q ∧
            v = ((startedAt w q).report rs).withSources fs) := by
  refine ⟨fun e => ⟨fun he => ?_, fun he => ?_⟩, fun reads m v h => h.isOfProjectFile,
    fun reads f v h => h.fault, fun e v he => (startFrom_eq_error he).2,
    fun v hv => startFrom_eq_ok hv⟩
  · exact (startFrom_eq_error (Prod.ext he rfl)).1
  · obtain ⟨u, -, hend⟩ := he.outcome
    rw [hend]

/-- A project file whose pattern starts at the root. -/
def rootedText : List Char := "\x7b\"include\": [\"/ws/src/*.ts\"]\x7d".toList

def rooted : WrittenFile :=
  ⟨"/ws/tsconfig.json", .map [(.text "include", .list [.text "/ws/src/*.ts"])]⟩

def rootedWorkspace : Workspace := { Workspace.bare with
  files := .dir [("ws", .dir [("tsconfig.json", .file (Bytes.ofChars rootedText))])] }

theorem rooted_loads : ProjectFile.Loads rootedWorkspace "tsconfig.json" ["/ws/tsconfig.json"]
    (.ok (rooted.onTopOf rootedWorkspace none), rootedWorkspace) := by
  have here : rooted.Holds rootedWorkspace := by
    refine .of_read rootedText [("include", .array [.string "/ws/src/*.ts"])] rfl ?_ rfl
    cbv
  have hbase : Reads (.base rooted.directory (rooted.data.get "extends")) [rooted.path]
      rootedWorkspace [] (.ok none, rootedWorkspace) :=
    .noText rfl fun t h => by cases h
  exact .loaded rfl (.finished List.not_mem_nil here hbase)

/-- Its search is refused, although there is nothing wrong with the file otherwise. -/
theorem startFrom_fails_iff_rooted :
    ((startFrom "tsconfig.json" none).outcome rootedWorkspace).1 =
      .error (.fault .absolutePattern) := by
  have hrefused : FileRule.Unsearchable rootedWorkspace ⟨"/ws", "/ws/src/*.ts"⟩ .absolutePattern :=
    .absolute (by decide) (.inl (by decide))
  have hincludes : (rooted.onTopOf rootedWorkspace none).includes = [⟨"/ws", "/ws/src/*.ts"⟩] := rfl
  refine ((startFrom_fails_iff rootedWorkspace "tsconfig.json" none).1 _).2 ?_
  refine .search rooted_loads (fun p hp => nomatch hp) ?_ hrefused
  rw [hincludes]
  exact (isFirst_cons_of_pos ⟨_, hrefused⟩).2 rfl

end Project

end CustomElements
