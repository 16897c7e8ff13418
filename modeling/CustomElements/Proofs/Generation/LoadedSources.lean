import CustomElements.Proofs.Generation.ReturnedBundle

/-!
# The sources that a run loads

A run has loaded all its sources before it writes anything. It does not look whether a path that it
writes to is that of a source: an artifact replaces whatever file is at its path, and so does a
bundle that gets its name. All other sources are left as they are.
-/

namespace CustomElements

open CustomElements.Action Workspace

/-- The sources that a run loads: those of the project when the components are made. -/
def loadedSources (c : Configuration) (w : Workspace) : List SourceFile :=
  ((prepare c).outcome w).2.project.files

namespace Workspace

/-- The files at the kept paths hold the same, unless log records are added to them. -/
structure SameAt (kept : Path → Prop) (w w' : Workspace) : Prop where
  current : w'.current = w.current
  logFile : w'.logFile = w.logFile
  contents : ∀ p, kept p → ¬w.LogsTo (w.placeOf p) → w'.contentOf p = w.contentOf p

variable {kept kept' : Path → Prop} {as : List (Path × Text)} {w v w' : Workspace} {p : Path}

theorem SameAt.refl (w : Workspace) : SameAt kept w w := ⟨rfl, rfl, fun _ _ _ => rfl⟩

theorem SameAt.trans (h : SameAt kept w v) (h' : SameAt kept v w') : SameAt kept w w' where
  current := h'.current.trans h.current
  logFile := h'.logFile.trans h.logFile
  contents p hp hlog :=
    (h'.contents p hp (logsTo_congr h.current h.logFile p hlog)).trans (h.contents p hp hlog)

theorem SameAt.mono (h : SameAt kept w w') (hkept : ∀ p, kept' p → kept p) : SameAt kept' w w' :=
  ⟨h.current, h.logFile, fun p hp => h.contents p (hkept p hp)⟩

theorem sameAt_note (w : Workspace) (r : LogRecord) : SameAt kept w (w.note r) :=
  ⟨rfl, rfl, fun _ _ hlog => contentAt_note hlog r⟩

/-- Artifacts change the files at their paths only. -/
theorem Stored.sameAt (h : Stored w as w') :
    SameAt (fun p => ∀ a ∈ as, w.placeOf p ≠ w.placeOf a.1) w w' := by
  refine ⟨h.current, h.logFile, fun p hp hlog => ?_⟩
  rw [contentOf, h.placeOf]
  exact h.others _ hp hlog

end Workspace

/-! ### Builders that write no sources -/

/-- What spares the files at these paths. The project stays the same too, and a tree of files stays
a proper one. -/
structure Workspace.Spares (paths : List Path) (w w' : Workspace) : Prop
    extends SameAt (· ∈ paths) w w' where
  project : w'.project = w.project
  proper : KeepsProper w w'

section Sparing

variable {paths : List Path}

instance : Std.Refl (Workspace.Spares paths) := ⟨fun w => ⟨.refl w, rfl, Std.Refl.refl w⟩⟩

instance : IsTrans Workspace (Workspace.Spares paths) :=
  ⟨fun _ _ _ h h' => ⟨h.toSameAt.trans h'.toSameAt, h'.project.trans h.project,
    trans_of KeepsProper h.proper h'.proper⟩⟩

/-- A builder that writes none of the files at these paths, whatever else it writes. -/
def Builder.Spares (builder : Builder) (paths : List Path) : Prop :=
  ∀ request, Within (Workspace.Spares paths) (fun _ => True) (builder request)

/-- Running a command spares what starting the command spares. -/
theorem buildByCommand_spares (command : List Text) {run : CommandRunner}
    (hr : ∀ c, Within (Workspace.Spares paths) (fun _ => True) (run c)) :
    (buildByCommand command run).Spares paths :=
  buildByCommand_within (fun _ => trivial)
    (fun _ _ _ => ⟨fun w => ⟨sameAt_note w _, rfl, w.keepsProper_note _⟩, fun _ _ _ => trivial⟩)
    (fun _ _ => ⟨⟨rfl, rfl, fun _ _ _ => rfl⟩, rfl, fun h => h⟩) command hr

end Sparing

/-! ### The project -/

section Loading

/-- The project is the same. -/
def Workspace.SameProject (w w' : Workspace) : Prop := w'.project = w.project

instance : Std.Refl SameProject := ⟨fun _ => rfl⟩

instance : IsTrans Workspace SameProject := ⟨fun _ _ _ h h' => h'.trans h⟩

/-- Once its components are made, a run loads no further sources. -/
theorem generate_project {builder : Builder} {c : Configuration} {r : GenerationResult}
    {w w' : Workspace} (hb : ∀ request, Within SameProject (fun _ => True) (builder request))
    (h : (generate builder c).outcome w = (.ok r, w')) :
    w'.project.files = loadedSources c w := by
  obtain ⟨p, u, hprepare, hemit⟩ := outcome_bind_eq_ok.1 h
  have hrecord (level : LogLevel) (logger message : Text) :
      Within SameProject (fun _ => True) (Action.record level logger message) :=
    ⟨fun _ => rfl, fun _ _ _ => trivial⟩
  have hleaves := (emit_within (fun _ => trivial) hrecord
    (writeArtifact_within (fun _ => trivial) hrecord (fun _ _ => rfl) fun _ _ => rfl)
    (fun _ _ => change_within (fun _ => trivial) (fun _ _ => rfl) _) hb c p).leaves u
  rw [hemit] at hleaves
  rw [loadedSources, hprepare]
  exact congrArg Project.files hleaves

end Loading

/-! ### Bundles that get their names -/

/-- The paths between which a main bundle and its source map are moved, if a bundle gets its name. -/
inductive MovesBundle (c : Configuration) (outDir : Path) : Option Path → List Path → Prop where
  | unnamed : MovesBundle c outDir none []
  | named {d : Path} {first name : Text} (folder : d ∈ [outDir.child browserFolder, outDir])
      (main : isMainBundle first) (asked : nonempty? c.build.outputFileName = some name) :
      MovesBundle c outDir (some (d.join (.ofText (bundleName name))))
        [d.child first, d.join (.ofText (bundleName name)), d.child (first ++ ".map"),
          d.join (.ofText (bundleName name ++ ".map"))]

section Moving

variable {c : Configuration} {outDir p : Path} {w w' : Workspace} {name : Text}
variable {bundle : Option Path} {build : BuildResult}

theorem renameBundle_sameAt (hout : outDir.IsResolved) (hw : w.files.IsProper)
    (hname : nonempty? c.build.outputFileName = some name)
    (h : (renameBundle outDir name).outcome w = (.ok bundle, w')) :
    ∃ moved, MovesBundle c outDir bundle moved ∧
      SameAt (fun p => w.placeOf p ∉ moved.map w.placeOf) w w' := by
  cases hfound : w.bundleToName outDir with
  | none =>
    obtain ⟨r, hr⟩ := renameBundle_of_none name hfound
    cases hr.symm.trans h
    exact ⟨[], .unnamed, sameAt_note w r⟩
  | some found =>
    obtain ⟨d, first⟩ := found
    obtain ⟨d', hd', hhead⟩ := List.exists_of_findSome?_eq_some hfound
    obtain ⟨b, hb, hpair⟩ := Option.map_eq_some_iff.1 hhead
    cases hpair
    have hd : d.IsResolved := by
      rcases List.mem_cons.1 hd' with rfl | hd'
      · exact hout.browserFolder
      · exact List.mem_singleton.1 hd' ▸ hout
    obtain ⟨content, hcontent⟩ := Option.isSome_iff_exists.1
      ((mem_mainBundles hd hw).1 (List.mem_of_head? hb))
    obtain ⟨hmain, hcontent⟩ := bundlesIn_eq_some.1 hcontent
    obtain ⟨rfl, t, t', r, rfl, hmoved, hmap⟩ := renameBundle_moved hfound hcontent h
    refine ⟨_, .named hd' hmain hname, rfl, rfl, fun p hp hlog => ?_⟩
    simp only [List.map_cons, List.map_nil, List.mem_cons, List.not_mem_nil, not_or, or_false]
      at hp
    obtain ⟨hfirst, htarget, hfirstMap, htargetMap⟩ := hp
    calc (({ w with files := t' } : Workspace).note r).contentOf p
        = t'.contentAt (w.placeOf p) := contentAt_note (w := { w with files := t' }) hlog r
      _ = t.contentAt (w.placeOf p) := hmap.others _ hfirstMap htargetMap
      _ = w.contentOf p := hmoved.others _ hfirst htarget

theorem NamesBundle.sameAt (h : NamesBundle c outDir build w bundle w') (hout : outDir.IsResolved)
    (hw : w.files.IsProper) : ∃ moved, MovesBundle c outDir bundle moved ∧
      SameAt (fun p => w.placeOf p ∉ moved.map w.placeOf) w w' := by
  have hnone (hn : bundle = none) (hs : Stored w [] w') : ∃ moved, MovesBundle c outDir bundle moved ∧
      SameAt (fun p => w.placeOf p ∉ moved.map w.placeOf) w w' :=
    ⟨[], hn ▸ .unnamed, hs.sameAt.mono fun _ _ _ ha => nomatch ha⟩
  cases hname : nonempty? c.build.outputFileName with
  | none => exact hnone (h.unnamed hname).1 (h.unnamed hname).2
  | some name =>
    cases hsuccess : build.success with
    | false => exact hnone (h.failed hsuccess).1 (h.failed hsuccess).2
    | true => exact renameBundle_sameAt hout hw hname (h.named hsuccess name hname)

end Moving

/-! ### Artifacts -/

section Replacing

variable {e : Emission} {kinds kinds' : List Text} {kind : Text} {w u v w' : Workspace} {p : Path}

theorem Emission.Stores.sameAt (h : e.Stores w kinds w') :
    SameAt (fun p => ∀ kind ∈ kinds, w.placeOf (e.path kind) ≠ w.placeOf p) w w' :=
  (Stored.sameAt h).mono fun _ hp => List.forall_mem_map.2 fun kind hk => (hp kind hk).symm

/-- A file at the path of an artifact holds the text of the artifact. -/
theorem Emission.Stores.contentOf_path (h : e.Stores w kinds w') (hk : kind ∈ kinds)
    (hp : w.placeOf (e.path kind) = w.placeOf p) (hlog : ¬w.LogsTo (w.placeOf p)) :
    w'.contentOf p = Bytes.ofText? (e.text w.current kind) := by
  obtain ⟨content, hc, hheld⟩ := h.holds _ (List.mem_map_of_mem hk)
  rw [Workspace.contentOf, Stored.placeOf h, ← hp, hc]
  exact hheld (hp ▸ hlog)

/-- When artifacts are written before and after steps that leave the file at a path alone, it holds
the same as before exactly if no artifact with another text is written to it. -/
theorem Emission.contentOf_eq_iff (hbefore : e.Stores w kinds u) (hbetween : SameAt (· = p) u v)
    (hafter : e.Stores v kinds' w')
    (hknown : ∀ kind ∈ kinds ++ kinds', kind ∈ artifactFileNames.map Prod.fst)
    (hn : (kinds ++ kinds').Nodup) (hlog : ¬w.LogsTo (w.placeOf p)) :
    w'.contentOf p = w.contentOf p ↔ ∀ kind ∈ kinds ++ kinds',
      w.placeOf (e.path kind) = w.placeOf p →
        Bytes.ofText? (e.text w.current kind) = w.contentOf p := by
  have hcurrent : v.current = w.current := hbetween.current.trans hbefore.current
  have hplace (q : Path) : v.placeOf q = w.placeOf q := by rw [placeOf, placeOf, hcurrent]
  have hlogBefore := logsTo_congr hbefore.current hbefore.logFile p hlog
  have hlogAfter := logsTo_congr hbetween.current hbetween.logFile p hlogBefore
  have hsame : v.contentOf p = u.contentOf p := hbetween.contents p rfl hlogBefore
  -- what is written before stays: later artifacts have other places
  have hheld : ∀ kind ∈ kinds ++ kinds', w.placeOf (e.path kind) = w.placeOf p →
      w'.contentOf p = Bytes.ofText? (e.text w.current kind) := by
    intro kind hk hp
    rcases List.mem_append.1 hk with hfirst | hlast
    · rw [← hbefore.contentOf_path hfirst hp hlog, ← hsame]
      refine hafter.sameAt.contents p (fun kind' hk' => ?_) hlogAfter
      rw [hplace, hplace, ← hp]
      refine (placeOf_path_ne w (hknown kind hk) (hknown kind' (List.mem_append_right _ hk'))
        fun heq => ?_).symm
      exact (List.nodup_append.1 hn).2.2 kind hfirst kind' hk' heq
    · rw [← hcurrent]
      exact hafter.contentOf_path hlast (by rw [hplace, hplace, hp]) hlogAfter
  refine ⟨fun h kind hk hp => (hheld kind hk hp).symm.trans h, fun h => ?_⟩
  by_cases hsome : ∃ kind ∈ kinds ++ kinds', w.placeOf (e.path kind) = w.placeOf p
  · obtain ⟨kind, hk, hp⟩ := hsome
    exact (hheld kind hk hp).trans (h kind hk hp)
  · push Not at hsome
    have hlast := hafter.sameAt.contents p (fun kind hk => ?_) hlogAfter
    · rw [hlast, hsame]
      exact hbefore.sameAt.contents p (fun kind hk => hsome kind (List.mem_append_left _ hk)) hlog
    · rw [hplace, hplace]
      exact hsome kind (List.mem_append_right _ hk)

end Replacing

/-! ### Whole runs -/

section Run

variable {builder : Builder} {c : Configuration} {r : GenerationResult} {w w' : Workspace}

/--
For every run that has an answer, with a builder that writes none of the loaded sources: the sources
that are loaded in the end are those that the components were made from. A source that is not at one
of the paths between which the bundle and its source map are moved, and that is not the log file,
holds the same as before if and only if no artifact with another text is written to its path.
-/
theorem generate_keeps_source_iff (hw : w.files.IsProper)
    (hb : builder.Spares ((loadedSources c w).map SourceFile.path))
    (h : (generate builder c).outcome w = (.ok r, w')) :
    w'.project.files = loadedSources c w ∧
    ∃ outDir entryDir moved, let e : Emission := ⟨c, r.components, outDir, entryDir⟩
      w.resolveFrom c.root (c.outDir.getD "dist") = .ok outDir ∧
      r.artifacts = e.artifacts (artifactKinds c) ∧
      MovesBundle c outDir r.bundle moved ∧
      ∀ f ∈ loadedSources c w, w.placeOf f.path ∉ moved.map w.placeOf →
        ¬w.LogsTo (w.placeOf f.path) →
        (w'.contentOf f.path = w.contentOf f.path ↔
          ∀ kind ∈ artifactKinds c, w.placeOf (e.path kind) = w.placeOf f.path →
            Bytes.ofText? (e.text w.current kind) = w.contentOf f.path) := by
  have hproject := generate_project
    (fun request => ⟨fun v => ((hb request).leaves v).project, fun _ _ _ => trivial⟩) h
  obtain ⟨p, _, _, _, hp, -⟩ := generate_begins h
  obtain ⟨hsupported, -⟩ := hp.outputs_eq
  have hknown (kind : Text) : kind ∈ artifactKinds c → kind ∈ artifactFileNames.map Prod.fst :=
    known_of_mem_artifactKinds hsupported
  have hn := nodup_artifactKinds hsupported
  refine ⟨hproject, ?_⟩
  by_cases hbrowser : browserOutput ∈ c.outputs
  · obtain ⟨outDir, entryDir, kinds, kinds', call, hout, hkinds, hartifacts, hdivides⟩ :=
      generate_with_bundle h hbrowser
    have hspares := (hb call.request).leaves call.asked
    rw [hdivides.answers] at hspares
    obtain ⟨moved, hmoves, hnamed⟩ := hdivides.bundle.sameAt (resolveFrom_isResolved hout)
      (hspares.proper (hdivides.asked_proper hw))
    refine ⟨outDir, entryDir, moved, hout, hartifacts, hmoves, fun f hf hmoved hlog => ?_⟩
    have hplace : call.answered.placeOf = w.placeOf := funext fun q => by
      rw [placeOf, placeOf, hspares.current, hdivides.before.current]
    have hbetween : SameAt (· = f.path) call.asked call.named := by
      refine (hspares.toSameAt.mono fun p hp => ?_).trans (hnamed.mono fun p hp => ?_)
      · exact hp ▸ List.mem_map_of_mem hf
      · rwa [hp, hplace]
    rw [List.append_cons] at hkinds
    rw [hkinds] at hknown hn ⊢
    exact Emission.contentOf_eq_iff hdivides.before hbetween hdivides.after hknown hn hlog
  · obtain ⟨outDir, hout, hrun⟩ := generate_without_bundle h hbrowser
    obtain ⟨hr, hstored, -⟩ := hrun outDir
    refine ⟨outDir, outDir, [], hout, congrArg GenerationResult.artifacts hr, ?_,
      fun f _ _ hlog => ?_⟩
    · rw [hr]
      exact .unnamed
    · rw [← List.append_nil (artifactKinds c)] at hknown hn ⊢
      exact Emission.contentOf_eq_iff hstored (.refl w')
        (Std.Refl.refl w' : Undisturbed w' w').stored hknown hn hlog

/-- A workspace whose project file selects two sources, one of them named like an artifact. -/
def sourceWorkspace : Workspace :=
  { Workspace.bare with
    files := .dir [("ws", .dir [
      ("tsconfig.json", .file (.ofChars
        "\x7b\"files\":[\"custom-elements.d.ts\",\"b.ts\"]\x7d".toList)),
      ("custom-elements.d.ts", .file (.ofChars "A".toList)),
      ("b.ts", .file (.ofChars "B".toList))])] }

theorem sourceWorkspace_isProper : sourceWorkspace.files.IsProper := by
  refine .one "ws" (.dir (by decide) ?_)
  simp only [List.forall_mem_cons]
  exact ⟨.file _, .file _, .file _, fun _ h => nomatch h⟩

/-- A request that puts the artifacts beside the sources. -/
def sourceRequest : Configuration where
  root := "/ws"
  elements := some (.list [])
  outDir := some "."

theorem failingBuilder_spares (paths : List Path) : failingBuilder.Spares paths :=
  fun _ => Within.pure _

theorem sourceRequest_answers :
    ((generate failingBuilder sourceRequest).outcome sourceWorkspace).1.toOption.isSome := by
  decide +kernel

theorem loadedSources_sourceRequest :
    (loadedSources sourceRequest sourceWorkspace).map SourceFile.path =
      [⟨.root, ["ws", "custom-elements.d.ts"]⟩, ⟨.root, ["ws", "b.ts"]⟩] := by
  decide +kernel

/-- The source beside the artifacts is kept. -/
theorem generate_keeps_source_beside : ∃ r w',
    (generate failingBuilder sourceRequest).outcome sourceWorkspace = (.ok r, w') ∧
    ∃ f ∈ w'.project.files, f.path = ⟨.root, ["ws", "b.ts"]⟩ ∧
      w'.contentOf f.path = sourceWorkspace.contentOf f.path := by
  obtain ⟨f, hf, hpath⟩ := List.mem_map.1
    (loadedSources_sourceRequest ▸ List.mem_cons_of_mem _ List.mem_cons_self)
  obtain ⟨r, w', h⟩ := exists_outcome_of_isSome sourceRequest_answers
  obtain ⟨hproject, outDir, entryDir, moved, -, -, hmoves, hkeeps⟩ :=
    generate_keeps_source_iff sourceWorkspace_isProper (failingBuilder_spares _) h
  have hnone : moved = [] := by
    generalize r.bundle = bundle at hmoves
    cases hmoves with
    | unnamed => rfl
    | named _ _ asked => cases asked
  subst hnone
  refine ⟨r, w', h, f, hproject ▸ hf, hpath, (hkeeps f hf List.not_mem_nil ?_).2 ?_⟩
  · rintro ⟨p, hp, -⟩
    cases hp
  · intro kind hk hplace
    have hnames : ∀ kind ∈ artifactKinds sourceRequest,
        artifactFileName kind ≠ ".." ∧ artifactFileName kind ≠ "b.ts" := by decide
    have hlast := congrArg List.getLast? hplace
    rw [Emission.path, getLast?_placeOf _ _ (hnames kind hk).1, hpath] at hlast
    exact absurd (Option.some.inj hlast) (hnames kind hk).2

/-- The source that is named like an artifact is replaced by it. -/
theorem generate_replaces_source : ∃ r w',
    (generate failingBuilder sourceRequest).outcome sourceWorkspace = (.ok r, w') ∧
    failingBuilder.Spares ((loadedSources sourceRequest sourceWorkspace).map SourceFile.path) ∧
    ∃ f ∈ w'.project.files, w'.contentOf f.path ≠ sourceWorkspace.contentOf f.path := by
  have hreplaced : ((generate failingBuilder sourceRequest).outcome sourceWorkspace).2.contentOf
      ⟨.root, ["ws", "custom-elements.d.ts"]⟩ ≠
        sourceWorkspace.contentOf ⟨.root, ["ws", "custom-elements.d.ts"]⟩ := by
    decide +kernel
  obtain ⟨r, w', h⟩ := exists_outcome_of_isSome sourceRequest_answers
  have hproject := generate_project (fun _ => Within.pure _) h
  obtain ⟨f, hf, hpath⟩ := List.mem_map.1 (loadedSources_sourceRequest ▸ List.mem_cons_self)
  rw [h, ← hpath] at hreplaced
  exact ⟨r, w', h, failingBuilder_spares _, f, hproject ▸ hf, hreplaced⟩

end Run

end CustomElements
