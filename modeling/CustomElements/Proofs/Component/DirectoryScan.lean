import CustomElements.Proofs.Build.BundleFolder
import CustomElements.Proofs.Component.ClassResolution
import CustomElements.Proofs.Component.ScanOrder
import CustomElements.Proofs.Workspace.Reports

/-!
# Loading a directory

A scan of a directory gives the source files in it and below it, as they are loaded already or else
as they are on the disk. Each of them is there once, in the order of the scan. Files that cannot be
loaded are left out with a warning, and then the others are loaded as if there were no such files.
The files that were not loaded before are added behind the others in the same order, so a second
scan finds all of them loaded.

A warning goes to the log file too. This is no source of the directory here, since it would change
during the scan.
-/

namespace CustomElements

open CustomElements.Action

variable {w u v : Workspace} {f g : SourceFile} {fs : List SourceFile} {p q base d : Path}
variable {qs : List Path} {ns : List Text}

/-- The path with these names below a path. -/
def Path.under (base : Path) (ns : List Text) : Path := ⟨base.anchor, base.parts ++ ns⟩

namespace Path

theorem under_inj {ms : List Text} (h : base.under ms = base.under ns) : ms = ns :=
  List.append_cancel_left (Path.mk.inj h).2

theorem IsResolved.under (h : base.IsResolved) (hns : ∀ n ∈ ns, IsFileName n) :
    (base.under ns).IsResolved where
  isNormal := by
    refine ⟨h.isNormal.fromRoot, fun hdots => ?_⟩
    rcases List.mem_append.1 hdots with hdots | hdots
    · exact h.isNormal.noDots hdots
    · exact (hns _ hdots).noDots rfl
  accepted := List.forall_mem_append.2 ⟨h.accepted, fun n hn => (hns n hn).accepted⟩

/-- A directory of a resolved path is one itself. -/
theorem IsResolved.parent (h : p.IsResolved) : p.parent.IsResolved where
  isNormal := ⟨h.isNormal.fromRoot, mt (List.mem_of_mem_dropLast ·) h.isNormal.noDots⟩
  accepted n hn := h.accepted n (List.mem_of_mem_dropLast hn)

theorem IsResolved.isAbsolute (h : p.IsResolved) : p.isAbsolute := by
  rw [Path.isAbsolute, h.isNormal.fromRoot]
  rfl

/-- A resolved path is taken as it is. -/
theorem IsResolved.resolve (h : p.IsResolved) (w : Workspace) : w.resolve p = .ok p := by
  rw [Workspace.resolve_eq_ok, join_of_fromRoot h.isNormal.fromRoot, h.isNormal.normal_eq]
  exact ⟨h.accepted, rfl⟩

theorem IsResolved.resolveFrom (h : p.IsResolved) (w : Workspace) (base : Path) :
    w.resolveFrom base p = .ok p := by
  rw [Project.resolveFrom_of_isAbsolute h.isAbsolute, h.resolve]

end Path

namespace Workspace

/-- Records that do not go to a file make no difference to how it is loaded. -/
theorem source_report (hq : q.IsResolved) (hlog : ¬w.LogsTo q.parts) (rs : List LogRecord) :
    (w.report rs).source q = w.source q := by
  have hcurrent : (w.report rs).current = w.current := by rw [report_eq]
  have houtline : (w.report rs).files.outline = w.files.outline := Reported.outline_eq ⟨rs, rfl⟩
  have hheld : (w.report rs).files.contentAt (Path.normalParts q.parts) =
      w.files.contentAt (Path.normalParts q.parts) := by
    rw [Path.normalParts_eq hq.isNormal.noDots]
    exact contentAt_report hlog rs
  have hread : (w.report rs).read q = w.read q := by
    rw [read, read, place_of_isResolved hq, place_of_isResolved hq]
    exact FileTree.read_eq_of_outline houtline hheld
  rw [source, source, isFile_of_outline hcurrent houtline, hread]

theorem report_withSources (w : Workspace) (fs : List SourceFile) (rs rs' : List LogRecord) :
    ((w.report rs).withSources fs).report rs' = (w.report (rs ++ rs')).withSources fs := by
  have hproject (rs : List LogRecord) : (w.report rs).project = w.project :=
    Reported.project_eq ⟨rs, rfl⟩
  rw [withSources, withSources, report_with_project, hproject, hproject, report, report, report,
    List.foldl_append]

theorem withSources_append (w : Workspace) (fs gs : List SourceFile) :
    (w.withSources fs).withSources gs = w.withSources (fs ++ gs) := by
  rw [withSources, withSources, withSources, List.append_assoc]

/-- The warning about a file that cannot be loaded. -/
def leftOut (w : Workspace) (q : Path) : List LogRecord :=
  match w.sourceAt q with
  | .ok _ => []
  | .error m => [⟨.warning, loggerRoot ++ "source", m.message⟩]

/-- Where a path leads depends on the loaded files of that path only. -/
theorem sourceAt_report_withSources (hq : q.IsResolved) (hlog : ¬w.LogsTo q.parts)
    (hfs : ∀ f ∈ fs, f.path ≠ q) (rs : List LogRecord) :
    ((w.report rs).withSources fs).project.file? q = w.project.file? q ∧
      ((w.report rs).withSources fs).sourceAt q = w.sourceAt q := by
  have hfile : ((w.report rs).withSources fs).project.file? q = w.project.file? q := by
    have hnone : fs.find? (fun f => decide (f.path = q)) = none :=
      List.find?_eq_none.2 fun f hf => mt of_decide_eq_true (hfs f hf)
    rw [file?_withSources, hnone, Option.or_none, report_eq]
  have hsource : ((w.report rs).withSources fs).source q = w.source q := source_report hq hlog rs
  refine ⟨hfile, ?_⟩
  rw [sourceAt, sourceAt, hfile, hsource]

theorem newAt_eq (w : Workspace) (q : Path) : w.newAt q =
    if (w.project.file? q).isSome then [] else (w.sourceAt q).toOption.toList := by
  rw [newAt, sourceAt]
  cases w.project.file? q <;> rfl

theorem path_of_sourceAt (h : w.sourceAt q = .ok f) : f.path = q := by
  rw [sourceAt] at h
  split at h
  · next g hg =>
    obtain rfl := Except.ok.inj h
    exact (of_find?_key hg).2
  · exact path_of_source h

end Workspace

namespace Project

/-- A file that is offered is the one at its path, and it is loaded then; what cannot be loaded is
left out. -/
theorem offer_sourceAt (hpath : w.resolveFrom w.project.root p = .ok q) :
    (offer p).outcome w =
      (.ok (w.sourceAt q).toOption, (w.report (w.leftOut q)).withSources (w.newAt q)) := by
  have hsame (v : Workspace) : v.withSources [] = v := Workspace.withSources_nil v
  rw [offer_outcome, hpath]
  dsimp only
  rw [Workspace.leftOut, Workspace.sourceAt, Workspace.newAt]
  cases w.project.file? q with
  | some f => exact congrArg (Prod.mk _) (hsame w).symm
  | none =>
    cases w.source q with
    | error m => exact congrArg (Prod.mk _) (hsame _).symm
    | ok f => rfl

/-- Offering files at different paths, after some records and behind some files at other paths: each
answer is the one that its path has on its own, and so is what is loaded and logged for it. -/
theorem offer_mapM (hqs : ∀ q ∈ qs, q.IsResolved ∧ ¬w.LogsTo q.parts) (hdistinct : qs.Nodup)
    (rs : List LogRecord) (fs : List SourceFile) (hfs : ∀ f ∈ fs, f.path ∉ qs) :
    (qs.mapM offer).outcome ((w.report rs).withSources fs) =
      (.ok (qs.map fun q => (w.sourceAt q).toOption),
        (w.report (rs ++ qs.flatMap w.leftOut)).withSources (fs ++ qs.flatMap w.newAt)) := by
  induction qs generalizing rs fs with
  | nil =>
    rw [List.flatMap_nil, List.flatMap_nil, List.append_nil, List.append_nil]
    rfl
  | cons q qs ih =>
    obtain ⟨⟨hq, hlog⟩, hqs⟩ := List.forall_mem_cons.1 hqs
    obtain ⟨hnew, hdistinct⟩ := List.nodup_cons.1 hdistinct
    have hother : ∀ f ∈ fs, f.path ≠ q := fun f hf heq => hfs f hf (heq ▸ List.mem_cons_self)
    obtain ⟨hfile, hsource⟩ := Workspace.sourceAt_report_withSources hq hlog hother rs
    have hstep := offer_sourceAt (hq.resolveFrom ((w.report rs).withSources fs) _)
    have hbrought : ((w.report rs).withSources fs).newAt q = w.newAt q := by
      rw [Workspace.newAt_eq, Workspace.newAt_eq, hfile, hsource]
    have hwarned : ((w.report rs).withSources fs).leftOut q = w.leftOut q := by
      rw [Workspace.leftOut, Workspace.leftOut, hsource]
    have hafter : (((w.report rs).withSources fs).report (w.leftOut q)).withSources (w.newAt q) =
        (w.report (rs ++ w.leftOut q)).withSources (fs ++ w.newAt q) := by
      rw [Workspace.report_withSources, Workspace.withSources_append]
    rw [hsource, hbrought, hwarned, hafter] at hstep
    have hrest := ih hqs hdistinct (rs ++ w.leftOut q) (fs ++ w.newAt q) ?_
    · rw [List.mapM_cons, outcome_bind_ok hstep, outcome_bind_ok hrest, List.map_cons,
        List.flatMap_cons, List.flatMap_cons, ← List.append_assoc, ← List.append_assoc]
      rfl
    · refine List.forall_mem_append.2 ⟨fun f hf hm => hfs f hf (List.mem_cons_of_mem q hm), ?_⟩
      intro f hf hm
      exact hnew ((Workspace.mem_newAt.1 hf).2.2 ▸ hm)

/-- Once files have been offered, those that can be loaded are loaded. -/
theorem offered_again (hqs : ∀ q ∈ qs, q.IsResolved ∧ ¬w.LogsTo q.parts) (hq : q ∈ qs) :
    let u := (w.report (qs.flatMap w.leftOut)).withSources (qs.flatMap w.newAt)
    u.sourceAt q = w.sourceAt q ∧ u.newAt q = [] := by
  intro u
  have hsource : u.source q = w.source q :=
    Workspace.source_report (hqs q hq).1 (hqs q hq).2 _
  have hfile : u.project.file? q =
      (w.project.file? q).or ((qs.flatMap w.newAt).find? fun f => decide (f.path = q)) := by
    have hproject : (w.report (qs.flatMap w.leftOut)).project = w.project :=
      Workspace.Reported.project_eq ⟨_, rfl⟩
    rw [Workspace.file?_withSources, hproject]
  have hbrought (f : SourceFile) : f ∈ qs.flatMap w.newAt ∧ f.path = q ↔
      w.project.file? q = none ∧ w.source q = .ok f := by
    rw [List.mem_flatMap]
    constructor
    · rintro ⟨⟨q', -, hf⟩, hpath⟩
      obtain ⟨hnone, hf, rfl⟩ := Workspace.mem_newAt.1 hf
      exact hpath ▸ ⟨hnone, hf⟩
    · rintro ⟨hnone, hf⟩
      have hpath := Workspace.path_of_source hf
      exact ⟨⟨q, hq, Workspace.mem_newAt.2 ⟨hnone, hf, hpath⟩⟩, hpath⟩
  rw [Workspace.newAt, Workspace.sourceAt, Workspace.sourceAt, hsource, hfile]
  cases hold : w.project.file? q with
  | some g => exact ⟨rfl, rfl⟩
  | none =>
    rw [Option.none_or]
    cases hdisk : w.source q with
    | error m =>
      have hnone : (qs.flatMap w.newAt).find? (fun f => decide (f.path = q)) = none := by
        refine List.find?_eq_none.2 fun f hf hpath => ?_
        have hread := ((hbrought f).1 ⟨hf, of_decide_eq_true hpath⟩).2
        rw [hdisk] at hread
        cases hread
      rw [hnone]
      exact ⟨rfl, rfl⟩
    | ok f =>
      obtain ⟨hf, hpath⟩ := (hbrought f).2 ⟨hold, hdisk⟩
      have hfound := find?_key hf hpath fun g hg hgpath =>
        Except.ok.inj (((hbrought g).1 ⟨hg, hgpath⟩).2.symm.trans hdisk)
      rw [hfound]
      exact ⟨rfl, rfl⟩

/-- Offering the same files a second time gives the same answers and loads nothing. -/
theorem offer_mapM_again (hqs : ∀ q ∈ qs, q.IsResolved ∧ ¬w.LogsTo q.parts)
    (hdistinct : qs.Nodup) :
    let u := (w.report (qs.flatMap w.leftOut)).withSources (qs.flatMap w.newAt)
    (qs.mapM offer).outcome w = (.ok (qs.map fun q => (w.sourceAt q).toOption), u) ∧
      (qs.mapM offer).outcome u = (.ok (qs.map fun q => (w.sourceAt q).toOption),
        u.report (qs.flatMap w.leftOut)) := by
  intro u
  have hnil (v : Workspace) : (v.report []).withSources [] = v := Workspace.withSources_nil v
  have hfirst := offer_mapM hqs hdistinct [] [] (List.forall_mem_nil _)
  rw [hnil] at hfirst
  refine ⟨hfirst, ?_⟩
  have hlogs (names : List Text) : u.LogsTo names ↔ w.LogsTo names := by
    refine Workspace.logsTo_iff_of_eq ?_ ?_ names
    · change (w.report _).current = _
      rw [Workspace.report_eq]
    · change (w.report _).logFile = _
      rw [Workspace.report_eq]
  have hagain := offer_mapM (w := u) (fun q hq => ⟨(hqs q hq).1, mt (hlogs _).1 (hqs q hq).2⟩)
    hdistinct [] [] (List.forall_mem_nil _)
  have hsource (q : Path) (hq : q ∈ qs) : u.sourceAt q = w.sourceAt q := (offered_again hqs hq).1
  have hanswers : (qs.map fun q => (u.sourceAt q).toOption) =
      qs.map fun q => (w.sourceAt q).toOption :=
    List.map_congr_left fun q hq => by rw [hsource q hq]
  have hwarned : qs.flatMap u.leftOut = qs.flatMap w.leftOut :=
    List.flatMap_congr fun q hq => by rw [Workspace.leftOut, Workspace.leftOut, hsource q hq]
  have hnone : qs.flatMap u.newAt = [] :=
    List.flatMap_eq_nil_iff.2 fun q hq => (offered_again hqs hq).2
  rw [hnil, hanswers, hwarned, hnone] at hagain
  exact hagain.trans (congrArg (Prod.mk _) (Workspace.withSources_nil _))

end Project

/-- There is a file of this name below a directory that a scan of the directory comes to. -/
structure Workspace.IsScannedFile (w : Workspace) (base : Path) (dirs : List Text) (name : Text) :
    Prop where
  there : ∃ content, w.files.get? (base.parts ++ (dirs ++ [name])) = some (.file content)
  script : Text.endsWith name ".ts" ∨ Text.endsWith name ".tsx"
  noDeclarations : ¬Text.endsWith name ".d.ts"
  entered : ∀ d ∈ dirs, d ∉ (["node_modules", "dist", "build", "out", "coverage"] : List Text) ∧
    ¬Text.startsWith d "."

namespace Workspace

/-- The paths that a scan of a directory offers, in its order. -/
def scanned (w : Workspace) (base : Path) : List Path :=
  ((w.entryAt? base).elim [] FileTree.sources).map base.under

/-- A scan looks at the outline of the files only. -/
theorem scanned_of_outline (hcurrent : v.current = w.current)
    (houtline : v.files.outline = w.files.outline) (base : Path) :
    v.scanned base = w.scanned base := by
  have hsources (u : Workspace) : (u.entryAt? base).elim [] FileTree.sources =
      ((u.entryAt? base).map FileTree.outline).elim [] FileTree.sources := by
    cases u.entryAt? base with
    | none => rfl
    | some e => exact e.sources_outline.symm
  rw [scanned, scanned, hsources v, hsources w, entryAt?_of_outline hcurrent houtline]

theorem scanned_of_isResolved (hbase : base.IsResolved) : w.scanned base =
    ((w.files.get? base.parts).elim [] FileTree.sources).map base.under := by
  rw [scanned, entryAt?_of_isResolved hbase]

theorem isSourceName_iff {name : Text} : isSourceName name ↔
    (Text.endsWith name ".ts" ∨ Text.endsWith name ".tsx") ∧ ¬Text.endsWith name ".d.ts" := by
  simp only [isSourceName, Bool.and_eq_true, Bool.or_eq_true, Bool.not_eq_true',
    Bool.not_eq_true]

theorem isScanned_iff {name : Text} : isScanned name ↔
    name ∉ (["node_modules", "dist", "build", "out", "coverage"] : List Text) ∧
      ¬Text.startsWith name "." := by
  simp only [isScanned, unscannedDirectories, Bool.and_eq_true, Bool.not_eq_true',
    Bool.not_eq_true, List.contains_eq_mem, decide_eq_false_iff_not]

theorem mem_scanned (hw : w.files.IsProper) (hbase : base.IsResolved) : q ∈ w.scanned base ↔
    ∃ dirs name, w.IsScannedFile base dirs name ∧ q = base.under (dirs ++ [name]) := by
  have hfound (ns : List Text) : ns ∈ (w.files.get? base.parts).elim [] FileTree.sources ↔
      FileTree.Scans ns ∧ ∃ content, w.files.get? (base.parts ++ ns) = some (.file content) := by
    rw [FileTree.get?_append]
    cases hentry : w.files.get? base.parts with
    | none => exact iff_of_false List.not_mem_nil fun h => nomatch h.2
    | some e => exact FileTree.mem_sources (hw.get? hentry)
  rw [scanned_of_isResolved hbase, List.mem_map]
  constructor
  · rintro ⟨ns, hns, rfl⟩
    obtain ⟨⟨dirs, name, rfl, hname, hdirs⟩, hthere⟩ := (hfound ns).1 hns
    obtain ⟨hscript, hdeclarations⟩ := isSourceName_iff.1 hname
    exact ⟨dirs, name, ⟨hthere, hscript, hdeclarations, fun d hd => isScanned_iff.1 (hdirs d hd)⟩,
      rfl⟩
  · rintro ⟨dirs, name, h, rfl⟩
    refine ⟨_, (hfound _).2 ⟨⟨dirs, name, rfl, ?_, ?_⟩, h.there⟩, rfl⟩
    · exact isSourceName_iff.2 ⟨h.script, h.noDeclarations⟩
    · exact fun d hd => isScanned_iff.2 (h.entered d hd)

theorem pairwise_scanned (hw : w.files.IsProper) (hbase : base.IsResolved) :
    (w.scanned base).Pairwise fun p q => ∃ ms ns, p = base.under ms ∧ q = base.under ns ∧
      FileTree.ScannedBefore ms ns := by
  rw [scanned_of_isResolved hbase, List.pairwise_map]
  have hsources : ((w.files.get? base.parts).elim [] FileTree.sources).Pairwise
      FileTree.ScannedBefore := by
    cases hentry : w.files.get? base.parts with
    | none => exact .nil
    | some e => exact FileTree.pairwise_sources (hw.get? hentry)
  exact hsources.imp fun {ms ns} h => ⟨ms, ns, rfl, rfl, h⟩

theorem nodup_scanned (hw : w.files.IsProper) (hbase : base.IsResolved) :
    (w.scanned base).Nodup := by
  refine (pairwise_scanned hw hbase).imp ?_
  rintro _ _ ⟨ms, ns, rfl, rfl, h⟩ heq
  exact h.ne (Path.under_inj heq)

end Workspace

namespace Project

/-- A scan gives what it is offered and can be loaded. -/
theorem addDirectory_of_offers {found : List (Option SourceFile)}
    (hbase : w.resolveFrom w.project.root d = .ok base)
    (h : ((w.scanned base).mapM offer).outcome w = (.ok found, u)) :
    (addDirectory d).outcome w = (.ok (found.filterMap id), u) := by
  have hlocate : (locate d).outcome w = (.ok base, w) := outcome_look_eq_ok.2 ⟨hbase, rfl⟩
  rw [Workspace.scanned, List.mapM_map] at h
  rw [addDirectory, outcome_bind_ok hlocate, outcome_get_bind]
  exact outcome_bind_ok h _

theorem answer_eq_some : (w.sourceAt q).toOption = some f ↔ w.sourceAt q = .ok f := by
  cases w.sourceAt q with
  | error m => exact iff_of_false nofun nofun
  | ok g => rw [Except.toOption, Option.some.injEq, Except.ok.injEq]

/-- What is new among the answers is what was loaded for them. -/
theorem filter_answers (w : Workspace) (qs : List Path) :
    ((qs.filterMap fun q => (w.sourceAt q).toOption).filter
      fun f => (w.project.file? f.path).isNone) = qs.flatMap w.newAt := by
  rw [List.filterMap_eq_flatMap_toList, List.filter_flatMap]
  refine List.flatMap_congr fun q _ => ?_
  rw [Workspace.newAt_eq]
  cases hsource : w.sourceAt q with
  | error m => simp [Except.toOption]
  | ok f =>
    rw [← Workspace.path_of_sourceAt hsource]
    cases hfile : w.project.file? f.path <;> simp [Except.toOption, hfile]

/-- A scan that is made twice: the files that its paths lead to are there each time, and the second
time they are loaded. -/
theorem addDirectory_twice (hbase : w.resolveFrom w.project.root d = .ok base)
    (hqs : ∀ q ∈ w.scanned base, q.IsResolved ∧ ¬w.LogsTo q.parts)
    (hdistinct : (w.scanned base).Nodup) :
    let fs := (w.scanned base).filterMap fun q => (w.sourceAt q).toOption
    let rs := (w.scanned base).flatMap w.leftOut
    let u := (w.report rs).withSources (fs.filter fun f => (w.project.file? f.path).isNone)
    (addDirectory d).outcome w = (.ok fs, u) ∧ (addDirectory d).outcome u = (.ok fs, u.report rs) := by
  intro fs rs u
  have hu : u = (w.report rs).withSources ((w.scanned base).flatMap w.newAt) :=
    congrArg (w.report rs).withSources (filter_answers w _)
  have hfs : ((w.scanned base).map fun q => (w.sourceAt q).toOption).filterMap id = fs :=
    List.filterMap_map
  obtain ⟨hfirst, hagain⟩ := offer_mapM_again hqs hdistinct
  rw [← hu] at hfirst hagain
  have hcurrent : u.current = w.current := by
    change (w.report rs).current = _
    rw [Workspace.report_eq]
  have houtline : (w.report rs).files.outline = w.files.outline :=
    Workspace.Reported.outline_eq ⟨rs, rfl⟩
  have hscanned : u.scanned base = w.scanned base :=
    Workspace.scanned_of_outline hcurrent houtline base
  have hlocated : u.resolveFrom u.project.root d = .ok base := by
    rw [← hbase]
    change (w.report rs).resolveFrom (w.report rs).project.root d = _
    rw [Workspace.report_eq]
    rfl
  constructor
  · exact hfs ▸ addDirectory_of_offers hbase hfirst
  · exact hfs ▸ addDirectory_of_offers hlocated (hscanned.symm ▸ hagain)

/-- For every directory of a tree without two entries of one name in a directory, whatever is loaded
already. A scan of the directory gives a file if it is loaded already or can be loaded, if it is in
the directory or below it, if its name ends like that of a source and not like that of a declaration
file, and if no directory on the way has a name that is passed over; and it gives no other file. It
gives each of them once, in the order of the scan. Those that were not loaded before are added
behind the others in this order, and nothing else happens but log records. A second scan gives the
same files and loads none. -/
theorem addDirectory_finds (hw : w.files.IsProper) (hnames : ∀ n ∈ w.files.names, IsFileName n)
    (hbase : w.resolveFrom w.project.root d = .ok base)
    (hlog : ∀ dirs name, w.IsScannedFile base dirs name →
      ¬w.LogsTo (base.under (dirs ++ [name])).parts) :
    ∃ fs rs u, (addDirectory d).outcome w = (.ok fs, u) ∧
      (∀ f, f ∈ fs ↔ ∃ dirs name, w.IsScannedFile base dirs name ∧
        w.sourceAt (base.under (dirs ++ [name])) = .ok f) ∧
      (fs.map SourceFile.path).Nodup ∧
      (fs.Pairwise fun f g => ∃ ms ns, f.path = base.under ms ∧ g.path = base.under ns ∧
        FileTree.ScannedBefore ms ns) ∧
      u = (w.report rs).withSources (fs.filter fun f => (w.project.file? f.path).isNone) ∧
      (addDirectory d).outcome u = (.ok fs, u.report rs) := by
  have hresolved : base.IsResolved := Workspace.resolveFrom_isResolved hbase
  have hqs : ∀ q ∈ w.scanned base, q.IsResolved ∧ ¬w.LogsTo q.parts := by
    intro q hq
    obtain ⟨dirs, name, h, rfl⟩ := (Workspace.mem_scanned hw hresolved).1 hq
    obtain ⟨content, hthere⟩ := h.there
    have hsubset := FileTree.subset_names_of_get? hthere
    refine ⟨hresolved.under fun n hn => hnames n ?_, hlog dirs name h⟩
    exact hsubset (List.mem_append_right _ hn)
  obtain ⟨hfirst, hagain⟩ := addDirectory_twice hbase hqs (Workspace.nodup_scanned hw hresolved)
  have hordered : ((w.scanned base).filterMap fun q => (w.sourceAt q).toOption).Pairwise
      fun f g => ∃ ms ns, f.path = base.under ms ∧ g.path = base.under ns ∧
        FileTree.ScannedBefore ms ns := by
    refine List.pairwise_filterMap.2 ((Workspace.pairwise_scanned hw hresolved).imp ?_)
    rintro p q hpq f hf g hg
    rwa [Workspace.path_of_sourceAt (answer_eq_some.1 hf),
      Workspace.path_of_sourceAt (answer_eq_some.1 hg)]
  refine ⟨_, _, _, hfirst, fun f => ?_, ?_, hordered, rfl, hagain⟩
  · rw [List.mem_filterMap]
    constructor
    · rintro ⟨q, hq, hf⟩
      obtain ⟨dirs, name, h, rfl⟩ := (Workspace.mem_scanned hw hresolved).1 hq
      exact ⟨dirs, name, h, answer_eq_some.1 hf⟩
    · rintro ⟨dirs, name, h, hf⟩
      exact ⟨_, (Workspace.mem_scanned hw hresolved).2 ⟨dirs, name, h, rfl⟩,
        answer_eq_some.2 hf⟩
  · refine List.pairwise_map.2 (hordered.imp ?_)
    rintro f g ⟨ms, ns, hf, hg, h⟩ heq
    exact h.ne (Path.under_inj (hf.symm.trans (heq.trans hg)))

/-- A directory with a file that can be loaded, one that cannot, and one in a directory that is
passed over. -/
def scannedWorkspace : Workspace := { Workspace.bare with
  files := .dir [("ws", .dir [
    ("dist", .dir [("b.ts", .file (Bytes.ofChars (markedFile 'b')))]),
    ("c.ts", .file (Bytes.ofChars "@".toList)),
    ("a.ts", .file (Bytes.ofChars (markedFile 'a')))])] }

/-- The file that can be loaded is given each time, and it is loaded once. -/
theorem addDirectory_finds_scannedWorkspace : ∃ fs u v,
    (addDirectory ".").outcome scannedWorkspace = (.ok fs, u) ∧ plainFile ∈ fs ∧
      (∀ f ∈ fs, f.path ≠ ("/ws/dist/b.ts" : Path)) ∧ u.project.files = fs ∧
      (addDirectory ".").outcome u = (.ok fs, v) ∧ v.project = u.project := by
  have hproper : scannedWorkspace.files.IsProper := by
    refine .one "ws" (.dir (by decide) ?_)
    simp only [List.forall_mem_cons]
    exact ⟨.one "b.ts" (.file _), .file _, .file _, fun _ h => nomatch h⟩
  have hnames : ∀ n ∈ scannedWorkspace.files.names, IsFileName n := by
    have hlist : scannedWorkspace.files.names =
        [("ws" : Text), ("dist" : Text), ("b.ts" : Text), ("c.ts" : Text), ("a.ts" : Text)] := rfl
    rw [hlist]
    simp only [List.forall_mem_cons, List.not_mem_nil, false_implies, implies_true, and_true]
    exact ⟨⟨by decide, by decide, by decide, by decide, rfl⟩,
      ⟨by decide, by decide, by decide, by decide, rfl⟩,
      ⟨by decide, by decide, by decide, by decide, rfl⟩,
      ⟨by decide, by decide, by decide, by decide, rfl⟩,
      ⟨by decide, by decide, by decide, by decide, rfl⟩⟩
  have hbase : scannedWorkspace.resolveFrom scannedWorkspace.project.root "." = .ok "/ws" := rfl
  obtain ⟨fs, rs, u, hfirst, hfound, -, -, hafter, hagain⟩ :=
    addDirectory_finds hproper hnames hbase (fun _ _ _ ⟨_, hlog, _⟩ => nomatch hlog)
  have hplain : scannedWorkspace.source "/ws/a.ts" = .ok plainFile :=
    Workspace.source_of_parsed rfl rfl (parse?_markedFile (by decide))
  refine ⟨fs, u, _, hfirst, ?_, ?_, ?_, hagain, Workspace.Reported.project_eq ⟨rs, rfl⟩⟩
  · exact (hfound plainFile).2 ⟨[], "a.ts", ⟨⟨_, rfl⟩, by decide, by decide, nofun⟩, hplain⟩
  · intro f hf hpath
    obtain ⟨dirs, name, h, hsource⟩ := (hfound f).1 hf
    have hnames : [("ws" : Text)] ++ (dirs ++ [name]) = [("ws" : Text), "dist", "b.ts"] :=
      congrArg Path.parts ((Workspace.path_of_sourceAt hsource).symm.trans hpath)
    have hdirs : dirs ++ [name] = [("dist" : Text), "b.ts"] := (List.cons.inj hnames).2
    have hdist : dirs = [("dist" : Text)] := by
      have hlast := congrArg List.dropLast hdirs
      rwa [List.dropLast_concat] at hlast
    exact (h.entered "dist" (hdist ▸ List.mem_singleton_self _)).1 (by decide)
  · have hproject : (scannedWorkspace.report rs).project = scannedWorkspace.project :=
      Workspace.Reported.project_eq ⟨rs, rfl⟩
    rw [hafter, Workspace.withSources, hproject]
    exact List.filter_eq_self.2 fun _ _ => rfl

end Project

end CustomElements
