import CustomElements.Proofs.Component.Agreement
import CustomElements.Proofs.Generation.Components
import CustomElements.Proofs.Generation.SideBySide

/-!
# Found and listed elements

A run without an element list finds its elements among the loaded sources. The run that lists just
these elements in its configuration starts from the same sources, so both runs are the same but for
what the search has logged.
-/

namespace CustomElements

open CustomElements.Action Workspace

section Log

variable {c : Configuration} {builder : Builder}

theorem makeDirs_ignoresLog (p : Path) : IgnoresLog (makeDirs p) := by
  refine (IgnoresLog.look fun _ _ _ => rfl).bind fun parts => ?_
  refine IgnoresLog.get_bind (fun w => ?_) fun _ _ _ => rfl
  refine .bind (IgnoresLog.modify ?_ ?_) fun _ => ?_
  · exact fun _ => rfl
  · exact fun _ _ _ => rfl
  split
  · exact IgnoresLog.throw _
  · exact IgnoresLog.pure _

theorem writeText_ignoresLog (p : Path) (content : Text) : IgnoresLog (writeText p content) := by
  unfold writeText
  split
  · exact IgnoresLog.change fun _ _ _ => rfl
  · exact (IgnoresLog.change fun _ _ _ => rfl).bind fun _ => IgnoresLog.throw _

theorem writeArtifact_ignoresLog (p : Path) (content : Text) :
    IgnoresLog (writeArtifact p content) := by
  refine (makeDirs_ignoresLog _).bind fun _ => ?_
  refine (writeText_ignoresLog _ _).bind fun _ => ?_
  refine .bind (IgnoresLog.modify ?_ ?_) fun _ => ?_
  · exact fun _ => rfl
  · exact fun _ _ _ => rfl
  exact (IgnoresLog.record _ _ _).bind fun _ => IgnoresLog.pure _

theorem sourceRoot_ignoresLog (root : Path) (project : Text) :
    IgnoresLog (sourceRoot root project) := by
  have hunread : IgnoresLog (do
      Action.record .warning "build.target" ("Could not read "
        ++ (root.child workspaceFileName).text ++ " (" ++ causeText
        ++ "); assuming sourceRoot '" ++ defaultSourceRoot ++ "'")
      return defaultSourceRoot) := (IgnoresLog.record _ _ _).bind fun _ => IgnoresLog.pure _
  refine IgnoresLog.get_bind (fun w => ?_) fun _ _ _ => rfl
  split
  · exact IgnoresLog.pure _
  · exact IgnoresLog.throw _
  · exact IgnoresLog.throw _
  · exact IgnoresLog.throw _
  · exact hunread
  · split
    · exact IgnoresLog.pure _
    · exact hunread
    · exact IgnoresLog.throw _

theorem entryDirectory_ignoresLog (target : BuildTarget) (outDir : Path) :
    IgnoresLog (entryDirectory c target outDir) := by
  unfold entryDirectory
  split
  · exact IgnoresLog.look fun _ _ _ => rfl
  · refine IgnoresLog.get_bind (fun w => ?_) fun _ _ _ => rfl
    split
    · exact (sourceRoot_ignoresLog _ _).bind fun _ => IgnoresLog.pure _
    · exact IgnoresLog.pure _

theorem renameBundle_ignoresLog (outDir : Path) (name : Text) :
    IgnoresLog (renameBundle outDir name) := by
  refine IgnoresLog.get_bind (fun w => ?_) fun _ _ _ => rfl
  dsimp only
  split
  · exact (IgnoresLog.record _ _ _).bind fun _ => IgnoresLog.pure _
  · refine (IgnoresLog.change fun _ _ _ => rfl).bind fun _ => ?_
    refine IgnoresLog.get_bind (fun w' => ?_) fun _ _ _ => rfl
    have htold (destination : Path) : IgnoresLog (do
        Action.record .info "build" ("Renamed main bundle to " ++ bundleName name
          ++ ". Load with <script type=\"module\" src=\"" ++ bundleName name ++ "\">.")
        return some destination) := (IgnoresLog.record _ _ _).bind fun _ => IgnoresLog.pure _
    split
    · exact (IgnoresLog.change fun _ _ _ => rfl).bind fun _ => htold _
    · exact htold _

/-- A builder that takes no notice of the log. -/
def Builder.IgnoresLog (builder : Builder) : Prop := ∀ request, Action.IgnoresLog (builder request)

/-- Running a command takes notice of the log only if the command does. -/
theorem buildByCommand_ignoresLog (command : List Text) {run : CommandRunner}
    (hr : ∀ c, Action.IgnoresLog (run c)) : (buildByCommand command run).IgnoresLog := by
  intro request
  refine (IgnoresLog.ofFaults _).bind fun arguments => ?_
  refine (IgnoresLog.record _ _ _).bind fun _ => ?_
  refine .bind (IgnoresLog.modify ?_ ?_) fun _ => ?_
  · exact fun _ => rfl
  · exact fun _ _ _ => rfl
  refine (hr _).bind fun answer => ?_
  split
  · exact IgnoresLog.pure _
  · split
    · exact IgnoresLog.pure _
    · exact IgnoresLog.pure _

theorem writesAlike_apartFromLog : WritesAlike ApartFromLog Eq where
  current := by
    intro w v h
    obtain ⟨-, log, stderr, rfl⟩ := h.cases
    rfl
  record := IgnoresLog.record
  artifact := fun d name t _ _ ht => ht ▸ writeArtifact_ignoresLog (d.child name) t

theorem emitsAlike_apartFromLog (hb : builder.IgnoresLog) :
    EmitsAlike ApartFromLog ApartFromLog Eq builder c where
  le := le_rfl
  before := writesAlike_apartFromLog
  after := writesAlike_apartFromLog
  resolve := fun _ => IgnoresLog.look fun _ _ _ => rfl
  directory := entryDirectory_ignoresLog
  build := hb
  rename := renameBundle_ignoresLog

theorem require_ignoresLog (p : Path) : IgnoresLog (Project.require p) := by
  refine (IgnoresLog.look fun _ _ _ => rfl).bind fun path => ?_
  refine Parallel.get_bind fun w v h => ?_
  obtain ⟨hlog, log, stderr, rfl⟩ := h.cases
  have hsource : ({ w with log := log, stderr := stderr } : Workspace).source path =
      w.source path := rfl
  dsimp only
  rw [hsource]
  cases w.project.file? path with
  | some f => exact Parallel.pure rfl
  | none =>
    cases w.source path with
    | error m => exact Parallel.throw _
    | ok f => exact (Parallel.set ⟨hlog, rfl⟩).andThen_eq fun _ => Parallel.pure rfl

theorem resolve_ignoresLog (ref : ComponentRef) : IgnoresLog (Project.resolve ref) := by
  unfold Project.resolve
  split
  · refine (require_ignoresLog _).bind fun f => ?_
    split
    · exact IgnoresLog.pure _
    · exact IgnoresLog.throw _
  · refine IgnoresLog.get_bind (fun w => ?_) fun _ _ _ => rfl
    dsimp only
    split
    · exact IgnoresLog.pure _
    · exact IgnoresLog.throw _
    · exact IgnoresLog.throw _

theorem componentOf_ignoresLog (e : ElementEntry) : IgnoresLog (componentOf e) := by
  refine (IgnoresLog.ofMistakes _).bind fun ref => ?_
  refine (resolve_ignoresLog ref).bind fun found => ?_
  refine (IgnoresLog.ofEscapes _).bind fun members => ?_
  exact (IgnoresLog.record _ _ _).bind fun _ => IgnoresLog.pure _

end Log

section Entries

/-- The mapping that lists an element. -/
def ElementEntry.listed (e : ElementEntry) : Value :=
  .map [(.text "tag", .text e.tag), (.text "component", .text e.component)]

/-- The configuration that lists these elements and is the same otherwise. -/
def Configuration.listing (c : Configuration) (entries : List ElementEntry) : Configuration :=
  { c with elements := some (.list (entries.map ElementEntry.listed)) }

theorem presents_listed (es : List ElementEntry) :
    Presents (.list (es.map ElementEntry.listed)) (es.map ElementEntry.pair) := by
  have h := Presents.of_items (fun p => .mapping [(.text "tag", p.1), (.text "component", p.2)])
    (es.map ElementEntry.pair)
  rwa [List.map_map] at h

theorem elementEntries_listed {es : List ElementEntry}
    (htag : ∀ e ∈ es, Text.isBlank e.tag = false)
    (hcomponent : ∀ e ∈ es, Text.isBlank e.component = false)
    (hn : (es.map ElementEntry.tag).Nodup) :
    elementEntries (.list (es.map ElementEntry.listed)) = .ok es := by
  have hfilled : ∀ e ∈ es, e.IsFilled := fun e he => ⟨htag e he, hcomponent e he⟩
  exact (presents_listed es).elementEntries_eq.trans (ReadsAs.entriesFrom_eq ⟨rfl, hfilled, hn⟩)

/-- The reference of a found element holds a number sign, so it is not blank. -/
theorem isBlank_component_of_element? {k : LocatedClass} {rule : DiscoveryRule} {e : ElementEntry}
    (h : k.element? rule = .ok (some e)) : Text.isBlank e.component = false := by
  obtain ⟨-, name, -, hcomponent⟩ := k.component_of_element? h
  rw [hcomponent, Text.isBlank, List.all_append, List.all_cons]
  have hsign : CodePoint.isBlank (.scalar '#') = false := by decide
  rw [hsign, Bool.false_and, Bool.and_false]

end Entries

section Run

variable {builder : Builder} {c : Configuration} {entries : List ElementEntry}
variable {w loaded found : Workspace}

/-- What a run does once it has its entries. -/
def runFrom (builder : Builder) (c : Configuration) (outputs : List Text)
    (target : Option BuildTarget) (entries : List ElementEntry) : Action GenerationResult := do
  Action.record .info "orchestrator" ("Analyzing " ++ Text.ofNat entries.length ++ " component(s)")
  let components ← entries.mapM componentOf
  emit builder c ⟨outputs, target, components⟩

/-- A run first checks its configuration and loads its sources. -/
theorem generate_eq (builder : Builder) (c : Configuration) :
    generate builder c = (do
      let outputs ← Action.ofMistakes (requestedOutputs [] c.outputs)
      let target ← Action.ofMistakes ((nonempty? c.build.target).mapM BuildTarget.parse)
      Action.ofMistakes (checkTarget outputs target)
      let listed ← Action.ofMistakes (c.elements.mapM elementEntries)
      loadSources c
      let entries ← runElements c listed
      runFrom builder c outputs target entries) := by
  simp only [generate, prepare, runFrom, bind_assoc, pure_bind]

/-- From its entries on, a run takes no notice of the log. -/
theorem runFrom_ignoresLog (hb : builder.IgnoresLog) {outputs : List Text} (hn : outputs.Nodup)
    (target : Option BuildTarget) (entries : List ElementEntry) :
    IgnoresLog (runFrom builder c outputs target entries) := by
  refine (IgnoresLog.record _ _ _).bind fun _ => ?_
  refine (IgnoresLog.listMapM componentOf_ignoresLog entries).bind fun cs => ?_
  have htexts : TextsAlike Eq c cs cs := ⟨rfl, rfl, fun _ _ => rfl⟩
  refine (emit_parallel (emitsAlike_apartFromLog hb) htexts hn target).mono le_rfl ?_
  rintro r _ ⟨rfl, rfl⟩
  rfl

/-- Workspaces that are both this one. -/
def Both (w u v : Workspace) : Prop := u = w ∧ v = w

theorem both_le_apartFromLog (hlog : w.logFile = none) : Both w ≤ ApartFromLog := by
  rintro _ _ ⟨rfl, rfl⟩
  exact .refl hlog

/-- Looking for elements only logs, so a run that need not look ends up beside one that looks. -/
theorem runElements_parallel (hlog : loaded.logFile = none)
    (h : (Project.discover c.discovery).outcome loaded = (.ok entries, found)) :
    Parallel (Both loaded) ApartFromLog Eq (runElements c none)
      (runElements (c.listing entries) (some entries)) := by
  rintro u v ⟨hu, hv⟩
  obtain ⟨-, rs, rfl⟩ := Project.discover_eq_ok h
  have hfound : ApartFromLog (loaded.report rs) loaded := (ApartFromLog.report hlog rs).symm
  rw [hu, hv]
  unfold runElements
  rw [outcome_bind_ok h]
  dsimp only
  split
  · exact ⟨.answer rfl, (ApartFromLog.note hfound.1 _).symm.trans hfound⟩
  · exact ⟨.answer rfl, hfound⟩

theorem loadSources_logFile (h : (loadSources c).outcome w = (.ok ⟨⟩, loaded)) :
    loaded.logFile = w.logFile := by
  have hlooks : OnlyLooks (loadSources c) :=
    (loadProjectFile_onlyLooks c).bind fun _ => loadSourceDirectory_onlyLooks c
  obtain ⟨rs, p, hleft⟩ := hlooks.leaves w
  rw [h] at hleft
  change loaded = _ at hleft
  rw [hleft, report_eq]

/--
A run without an element list and the run that lists the elements which the first one finds. Both
give the same result or fail in the same way, and leave the same workspace but for the log: the same
files with the same contents, the same artifacts in the store, the same builds and commands.
-/
theorem generate_listing (hb : builder.IgnoresLog) (hlog : w.logFile = none)
    (hnone : c.elements = none) (hload : (loadSources c).outcome w = (.ok ⟨⟩, loaded))
    (hfound : (Project.discover c.discovery).outcome loaded = (.ok entries, found))
    (htags : ∀ e ∈ entries, Text.isBlank e.tag = false) :
    ∃ answer left left', (generate builder c).outcome w = (answer, left) ∧
      (generate builder (c.listing entries)).outcome w = (answer, left') ∧
      left' = { left with log := left'.log, stderr := left'.stderr } := by
  have helements := (Project.discover_eq_ok hfound).1
  obtain ⟨es, hes, hmarked⟩ := elementsFrom_ok helements
  have hread : elementEntries (.list (entries.map ElementEntry.listed)) = .ok entries := by
    refine elementEntries_listed htags (fun e he => ?_)
      (elementsFrom_nodup helements List.nodup_nil)
    obtain rfl : entries = es := hes
    have hblank : List.Forall₂ (fun e k => Text.isBlank e.component = false ∧
        LocatedClass.element? k c.discovery = .ok (some e)) entries _ :=
      hmarked.flip.imp fun e k hk => ⟨isBlank_component_of_element? hk, hk⟩
    exact ((List.forall₂_and_left _ _).1 hblank).1 e he
  have hloaded : loaded.logFile = none := (loadSources_logFile hload).trans hlog
  have hsame : Parallel (Both w) (Both loaded) Eq (loadSources c)
      (loadSources (c.listing entries)) := by
    rintro u v ⟨hu, hv⟩
    have hlisting : (loadSources (c.listing entries)).outcome w = (.ok ⟨⟩, loaded) := hload
    rw [hu, hv, hload, hlisting]
    exact ⟨.answer rfl, rfl, rfl⟩
  have hrun : Parallel (Both w) ApartFromLog Eq (generate builder c)
      (generate builder (c.listing entries)) := by
    have hstart := both_le_apartFromLog hlog
    rw [generate_eq, generate_eq]
    refine (Parallel.ofMistakes _).bind hstart fun outputs _ houtputs => ?_
    obtain ⟨rfl, hrequested⟩ := houtputs
    refine (Parallel.ofMistakes _).bind hstart fun target _ htarget => ?_
    obtain ⟨rfl, -⟩ := htarget
    refine (Parallel.ofMistakes _).bind hstart fun _ _ _ => ?_
    -- the list that one of the runs reads is a list of the entries that the other one finds
    have helements' : (c.listing entries).elements.mapM elementEntries = .ok (some entries) := by
      rw [Configuration.listing, Option.mapM_some, hread]
      rfl
    rw [hnone, helements']
    refine hsame.bind (both_le_apartFromLog hloaded) fun _ _ _ => ?_
    refine (runElements_parallel hloaded hfound).bind le_rfl fun es _ hes => ?_
    subst hes
    have hnodup : outputs.Nodup := by
      rw [(requestedOutputs_eq_ok.1 hrequested).2]
      simpa using nodup_eraseDups c.outputs
    exact runFrom_ignoresLog hb hnodup target es
  obtain ⟨hend, -, hleft⟩ := hrun w w ⟨rfl, rfl⟩
  exact ⟨((generate builder c).outcome w).1, ((generate builder c).outcome w).2,
    ((generate builder (c.listing entries)).outcome w).2, Prod.ext rfl rfl,
    Prod.ext hend.eq.symm rfl, hleft⟩

/-- A bundle of the marked classes of a directory. -/
def markedRequest : Configuration where
  root := "/ws"
  rootDir := some "/ws"
  outputs := ["module", "browser"]
  build := { target := some "app:build" }
  discovery := { marker := "M" }

/-- A directory with one marked class. -/
def markedDirectory : Workspace :=
  { Workspace.bare with
    files := .dir [("ws", .dir [("a.ts", .file (Bytes.ofChars (markedFile 'a')))])] }

theorem generate_listing_marked :
    ∃ r left left', (generate failingBuilder markedRequest).outcome markedDirectory =
        (.ok r, left) ∧
      (generate failingBuilder (markedRequest.listing [⟨"a", "/ws/a.ts#A"⟩])).outcome
        markedDirectory = (.ok r, left') ∧
      r.components.map Component.tag = [("a" : Text)] ∧ left'.files = left.files ∧
      left'.written = left.written ∧ left'.builds = left.builds := by
  have hb : failingBuilder.IgnoresLog := fun _ => IgnoresLog.pure _
  have hentries : ((loadSources markedRequest >>= fun _ =>
      Project.discover markedRequest.discovery).outcome markedDirectory).1.toOption =
        some [⟨"a", "/ws/a.ts#A"⟩] := by decide +kernel
  have htags : ((generate failingBuilder markedRequest).outcome markedDirectory).1.toOption.map
      (fun r => r.components.map Component.tag) = some [("a" : Text)] := by decide +kernel
  obtain ⟨found, hfound⟩ := exists_outcome_of_toOption hentries
  obtain ⟨_, loaded, hload, hdiscover⟩ := outcome_bind_eq_ok.1 hfound
  obtain ⟨answer, left, left', hleft, hleft', heq⟩ := generate_listing hb rfl rfl hload hdiscover
    (by decide)
  obtain ⟨r, hr, hcomponents⟩ := Option.map_eq_some_iff.1 htags
  obtain ⟨w', hanswer⟩ := exists_outcome_of_toOption hr
  obtain ⟨rfl, rfl⟩ := Prod.mk.inj (hleft.symm.trans hanswer)
  refine ⟨r, left, left', hleft, hleft', hcomponents, ?_, ?_, ?_⟩
  · rw [heq]
  · rw [heq]
  · rw [heq]

end Run

end CustomElements
