import CustomElements.Proofs.Workspace.Loading

/-!
# The two phases of a run

A run first finds out all it needs and then writes. The first phase only looks,
and all mistakes are made in it: what the second phase meets are faults of its
surroundings, unless the builder itself reports a mistake. So a run that ends with
a mistake has left no trace but its log: the files are those from before, nothing counts as
written, and the builder was not asked for anything.
-/

namespace CustomElements

open CustomElements.Action

/-- The failures that are no mistakes. -/
def Failure.IsFault (e : Failure) : Prop := ∃ f, e = .fault f

/-- A builder that may change anything and meet any fault, but makes no mistake. -/
def Builder.NeverMistaken (builder : Builder) : Prop :=
  ∀ request w m w', (builder request).outcome w ≠ (.error (.mistake m), w')

section Preparation

theorem outcome_ofMistakes_eq_ok {α : Type} {r : Except Mistake α} {x : α} {w w' : Workspace} :
    (ofMistakes r).outcome w = (.ok x, w') ↔ r = .ok x ∧ w' = w := by
  cases r <;> simp [ofMistakes, eq_comm]

theorem outcome_ofMistakes_eq_error {α : Type} {r : Except Mistake α} {e : Failure}
    {w w' : Workspace} :
    (ofMistakes r).outcome w = (.error e, w') ↔ (∃ m, r = .error m ∧ m.failure = e) ∧ w' = w := by
  cases r <;> simp [ofMistakes, eq_comm]

theorem loadProjectFile_onlyLooks (c : Configuration) : OnlyLooks (loadProjectFile c) := by
  refine (Within.optionMapM (fun p => OnlyLooks.look _) _).bind fun named => ?_
  refine Within.get.bind fun w => ?_
  dsimp only
  split
  · exact (OnlyLooks.record _ _ _).bind fun _ => Project.startFrom_onlyLooks _ _
  · exact Project.start_onlyLooks _

theorem loadSourceDirectory_onlyLooks (c : Configuration) : OnlyLooks (loadSourceDirectory c) := by
  unfold loadSourceDirectory
  split
  · refine (OnlyLooks.look _).bind fun d => ?_
    exact (Project.addDirectory_onlyLooks d).bind fun _ => Within.pure _
  · exact Within.pure _

theorem runElements_onlyLooks (c : Configuration) (listed : Option (List ElementEntry)) :
    OnlyLooks (runElements c listed) := by
  cases listed with
  | some es => exact Within.pure es
  | none =>
    refine (Project.discover_onlyReports _).onlyLooks.bind fun found => ?_
    split
    · exact (OnlyLooks.record _ _ _).bind fun _ => Within.pure _
    · exact Within.pure _

theorem componentOf_onlyLooks (e : ElementEntry) : OnlyLooks (componentOf e) := by
  refine (OnlyLooks.ofMistakes _).bind fun ref => ?_
  refine (Project.resolve_onlyLooks ref).bind fun found => ?_
  refine (OnlyLooks.ofEscapes _).bind fun members => ?_
  exact (OnlyLooks.record _ _ _).bind fun _ => Within.pure _

/-- Whatever a configuration asks for, preparing a run only looks. -/
theorem prepare_onlyLooks (c : Configuration) : OnlyLooks (prepare c) := by
  refine (OnlyLooks.ofMistakes _).bind fun outputs => ?_
  refine (OnlyLooks.ofMistakes _).bind fun target => ?_
  refine (OnlyLooks.ofMistakes _).bind fun _ => ?_
  refine (OnlyLooks.ofMistakes _).bind fun listed => ?_
  refine ((loadProjectFile_onlyLooks c).bind fun _ => loadSourceDirectory_onlyLooks c).bind
    fun _ => ?_
  refine (runElements_onlyLooks c listed).bind fun entries => ?_
  refine (OnlyLooks.record _ _ _).bind fun _ => ?_
  exact (Within.listMapM componentOf_onlyLooks entries).bind fun _ => Within.pure _

/-- What a run has found out when it is prepared. The components are made from the entries one after
the other, once all sources are loaded. -/
structure Prepared (c : Configuration) (w : Workspace) (p : Preparation) (w' : Workspace) :
    Prop where
  outputs : requestedOutputs [] c.outputs = .ok p.outputs
  target : (nonempty? c.build.target).mapM BuildTarget.parse = .ok p.target
  hasTarget : checkTarget p.outputs p.target = .ok ()
  components : ∃ listed entries loaded found analyzed,
    c.elements.mapM elementEntries = .ok listed ∧
    (loadSources c).outcome w = (.ok ⟨⟩, loaded) ∧
    (runElements c listed).outcome loaded = (.ok entries, found) ∧
    Workspace.Reported found analyzed ∧
    (entries.mapM componentOf).outcome analyzed = (.ok p.components, w')

theorem prepared_of_ok {c : Configuration} {w w' : Workspace} {p : Preparation}
    (h : (prepare c).outcome w = (.ok p, w')) : Prepared c w p w' := by
  obtain ⟨outputs, _, hfirst, h₁⟩ := outcome_bind_eq_ok.1 h
  obtain ⟨houtputs, rfl⟩ := outcome_ofMistakes_eq_ok.1 hfirst
  obtain ⟨target, _, hsecond, h₂⟩ := outcome_bind_eq_ok.1 h₁
  obtain ⟨htarget, rfl⟩ := outcome_ofMistakes_eq_ok.1 hsecond
  obtain ⟨_, _, hthird, h₃⟩ := outcome_bind_eq_ok.1 h₂
  obtain ⟨hcheck, rfl⟩ := outcome_ofMistakes_eq_ok.1 hthird
  obtain ⟨listed, _, hfourth, h₄⟩ := outcome_bind_eq_ok.1 h₃
  obtain ⟨hlisted, rfl⟩ := outcome_ofMistakes_eq_ok.1 hfourth
  obtain ⟨_, loaded, hload, h₅⟩ := outcome_bind_eq_ok.1 h₄
  obtain ⟨entries, found, hfound, h₆⟩ := outcome_bind_eq_ok.1 h₅
  obtain ⟨_, analyzed, hrecord, h₇⟩ := outcome_bind_eq_ok.1 h₆
  obtain ⟨cs, _, hcs, hend⟩ := outcome_bind_eq_ok.1 h₇
  have hreported : Workspace.Reported found analyzed := by
    cases hrecord
    exact ⟨[_], rfl⟩
  cases hend
  exact ⟨houtputs, htarget, hcheck, listed, entries, loaded, found, analyzed, hlisted, hload,
    hfound, hreported, hcs⟩

end Preparation

section Bound

variable {R : Workspace → Workspace → Prop} {P : Failure → Prop}
variable [Std.Refl R] [IsTrans Workspace R]

/-- Finding a source root is bounded by what faults and records are bounded by. -/
theorem sourceRoot_within (hP : ∀ f, P (.fault f))
    (hrecord : ∀ level logger message, Within R P (Action.record level logger message))
    (root : Path) (project : Text) : Within R P (sourceRoot root project) := by
  have hunread : Within R P (do
      Action.record .warning "build.target" ("Could not read "
        ++ (root.child workspaceFileName).text ++ " (" ++ causeText
        ++ "); assuming sourceRoot '" ++ defaultSourceRoot ++ "'")
      return defaultSourceRoot) := (hrecord _ _ _).bind fun _ => Within.pure _
  refine Within.get.bind fun w => ?_
  split
  · exact Within.pure _
  · exact Within.faulty (hP _)
  · exact Within.faulty (hP _)
  · exact Within.faulty (hP _)
  · exact hunread
  · split
    · exact Within.pure _
    · exact hunread
    · exact Within.faulty (hP _)

theorem entryDirectory_within (hP : ∀ f, P (.fault f))
    (hrecord : ∀ level logger message, Within R P (Action.record level logger message))
    (c : Configuration) (target : BuildTarget) (outDir : Path) :
    Within R P (entryDirectory c target outDir) := by
  unfold entryDirectory
  split
  · exact Within.look hP _
  · refine Within.get.bind fun w => ?_
    split
    · exact (sourceRoot_within hP hrecord _ _).bind fun _ => Within.pure _
    · exact Within.pure _

/-- A change of the file tree is bounded by what other file trees are bounded by. -/
theorem change_within (hP : ∀ f, P (.fault f)) (hfiles : ∀ w t, R w { w with files := t })
    (f : Workspace → Except Fault FileTree) : Within R P (Action.change f) :=
  (Within.look hP f).bind fun t => ⟨fun w => hfiles w t, fun _ _ h => nomatch h⟩

/-- Writing an artifact is bounded by what records, file trees and the store are bounded by. -/
theorem writeArtifact_within (hP : ∀ f, P (.fault f))
    (hrecord : ∀ level logger message, Within R P (Action.record level logger message))
    (hfiles : ∀ w t, R w { w with files := t }) (hwritten : ∀ w ps, R w { w with written := ps })
    (p : Path) (content : Text) : Within R P (writeArtifact p content) := by
  have hdirs : Within R P (makeDirs p.parent) := by
    refine (Within.look hP _).bind fun parts => ?_
    refine Within.get.bind fun w => ?_
    refine Within.bind ⟨fun v => hfiles v _, fun _ _ h => nomatch h⟩ fun _ => ?_
    split
    · exact Within.faulty (hP _)
    · exact Within.pure _
  have htext : Within R P (writeText p content) := by
    unfold writeText
    split
    · exact change_within hP hfiles _
    · exact (change_within hP hfiles _).bind fun _ => Within.faulty (hP _)
  refine hdirs.bind fun _ => htext.bind fun _ => ?_
  refine Within.bind ⟨fun w => hwritten w _, fun _ _ h => nomatch h⟩ fun _ => ?_
  exact (hrecord _ _ _).bind fun _ => Within.pure _

/-- Running a command is bounded by what starting it is bounded by. -/
theorem buildByCommand_within (hP : ∀ f, P (.fault f))
    (hrecord : ∀ level logger message, Within R P (Action.record level logger message))
    (hcommands : ∀ w cs, R w { w with commands := cs }) (command : List Text)
    {run : CommandRunner} (hr : ∀ c, Within R P (run c)) (request : BuildRequest) :
    Within R P (buildByCommand command run request) := by
  refine (Within.ofFaults hP _).bind fun arguments => ?_
  refine (hrecord _ _ _).bind fun _ => ?_
  refine Within.bind ⟨fun w => hcommands w _, fun _ _ h => nomatch h⟩ fun _ => ?_
  refine (hr _).bind fun answer => ?_
  split
  · exact Within.pure _
  · dsimp only
    split
    · exact Within.pure _
    · exact Within.pure _

/-- Naming a bundle is bounded by what records and renamed files are bounded by. -/
theorem renameBundle_within
    (hrecord : ∀ level logger message, Within R P (Action.record level logger message))
    (hrename : ∀ source target, Within R P (Action.rename source target)) (outDir : Path)
    (name : Text) :
    Within R P (renameBundle outDir name) := by
  refine Within.get.bind fun w => ?_
  dsimp only
  split
  · exact (hrecord _ _ _).bind fun _ => Within.pure _
  · refine (hrename _ _).bind fun _ => ?_
    refine Within.get.bind fun w' => ?_
    have htold (destination : Path) : Within R P (do
        Action.record .info "build" ("Renamed main bundle to " ++ bundleName name
          ++ ". Load with <script type=\"module\" src=\"" ++ bundleName name ++ "\">.")
        return some destination) := (hrecord _ _ _).bind fun _ => Within.pure _
    split
    · exact (hrename _ _).bind fun _ => htold _
    · exact htold _

variable {builder : Builder} (hP : ∀ f, P (.fault f))
variable (hrecord : ∀ level logger message, Within R P (Action.record level logger message))
variable (hartifact : ∀ p content, Within R P (writeArtifact p content))
variable (hrename : ∀ source target, Within R P (Action.rename source target))
variable (hbuilder : ∀ request, Within R P (builder request))

include hrecord hrename hbuilder in
theorem runBuild_within (c : Configuration) (target : BuildTarget) (entry outDir : Path) :
    Within R P (runBuild builder c target entry outDir) := by
  refine (hrecord _ _ _).bind fun _ => ?_
  refine (hbuilder _).bind fun build => ?_
  split
  · exact (hrecord _ _ _).bind fun _ => Within.pure _
  · split
    · exact (renameBundle_within hrecord hrename _ _).bind fun _ => Within.pure _
    · exact (hrecord _ _ _).bind fun _ => Within.pure _

include hP hrecord hartifact hrename hbuilder

theorem writeOutput_within (c : Configuration) (target : Option BuildTarget) (outDir : Path)
    (result : GenerationResult) (kind : Text) :
    Within R P (writeOutput builder c target outDir result kind) := by
  have hregistration (mode : RegistrationMode) (path : Path) (cs : List Component) :
      Within R P (writeRegistration c mode path cs) := Within.get.bind fun _ => hartifact _ _
  unfold writeOutput
  split
  · exact (hregistration _ _ _).bind fun _ => Within.pure _
  · split
    · split
      · exact Within.pure _
      · refine (entryDirectory_within hP hrecord _ _ _).bind fun directory => ?_
        refine (hregistration _ _ _).bind fun entry => ?_
        refine (runBuild_within hrecord hrename hbuilder _ _ _ _).bind fun _ => ?_
        exact Within.pure _
    · exact Within.pure _

/-- Writing the outputs is bounded by what the artifacts, the records, the build and the names that
its files get are bounded by. -/
theorem emit_within (c : Configuration) (p : Preparation) : Within R P (emit builder c p) := by
  refine (Within.look hP _).bind fun outDir => ?_
  refine (hartifact _ _).bind fun manifestPath => ?_
  refine (hartifact _ _).bind fun typesPath => ?_
  have houtput := writeOutput_within hP hrecord hartifact hrename hbuilder c p.target outDir
  refine (Within.foldlM houtput _ _).bind fun result => ?_
  exact (hrecord _ _ _).bind fun _ => Within.pure _

end Bound

section Emission

/-- Actions that meet faults only, whatever they change. -/
abbrev Action.OnlyFaults {α : Type} (a : Action α) : Prop :=
  Within (fun _ _ => True) Failure.IsFault a

instance : Std.Refl fun _ _ : Workspace => True := ⟨fun _ => trivial⟩

instance : IsTrans Workspace fun _ _ => True := ⟨fun _ _ _ _ _ => trivial⟩

theorem Failure.isFault_fault (f : Fault) : (Failure.fault f).IsFault := ⟨f, rfl⟩

theorem OnlyFaults.record (level : LogLevel) (logger message : Text) :
    OnlyFaults (Action.record level logger message) := ⟨fun _ => trivial, fun _ _ h => nomatch h⟩

/-- Once outputs are written, no mistake can come up any more. -/
theorem emit_onlyFaults {builder : Builder} (hb : builder.NeverMistaken) (c : Configuration)
    (p : Preparation) : OnlyFaults (emit builder c p) := by
  refine emit_within Failure.isFault_fault OnlyFaults.record
    (writeArtifact_within Failure.isFault_fault OnlyFaults.record (fun _ _ => trivial)
      fun _ _ => trivial)
    (fun _ _ => change_within Failure.isFault_fault (fun _ _ => trivial) _)
    (fun request => ⟨fun _ => trivial, fun w e h => ?_⟩) c p
  cases e with
  | fault f => exact ⟨f, rfl⟩
  | mistake m => exact (hb request w m _ (Prod.ext h rfl)).elim

end Emission

/-! ### Runs that end with a mistake -/

/-- Running a command makes no mistake, if starting it makes none. -/
theorem buildByCommand_neverMistaken (command : List Text) {run : CommandRunner}
    (hr : ∀ c w m w', (run c).outcome w ≠ (.error (.mistake m), w')) :
    (buildByCommand command run).NeverMistaken := by
  have hrun (c : Command) : OnlyFaults (run c) := by
    refine ⟨fun _ => trivial, fun w e h => ?_⟩
    cases e with
    | fault f => exact ⟨f, rfl⟩
    | mistake m => exact (hr c w m _ (Prod.ext h rfl)).elim
  intro request w m w' h
  have hbuild : OnlyFaults (buildByCommand command run request) :=
    buildByCommand_within Failure.isFault_fault OnlyFaults.record (fun _ _ => trivial) command hrun
      request
  obtain ⟨f, hf⟩ := hbuild.fails w (.mistake m) (by rw [h])
  cases hf

/-- A mistake ends a run in its first phase, which no builder takes part in. -/
theorem prepare_of_generate_mistake {builder : Builder} (hb : builder.NeverMistaken)
    {c : Configuration} {w w' : Workspace} {m : Mistake}
    (h : (generate builder c).outcome w = (.error (.mistake m), w')) :
    (prepare c).outcome w = (.error (.mistake m), w') := by
  unfold generate at h
  rw [outcome_bind] at h
  rcases hp : (prepare c).outcome w with ⟨r, v⟩
  rw [hp] at h
  cases r with
  | error e => simpa only [Prod.mk.injEq, Except.error.injEq] using h
  | ok p =>
    change (emit builder c p).outcome v = _ at h
    obtain ⟨f, hf⟩ := (emit_onlyFaults hb c p).fails v (.mistake m) (by rw [h])
    cases hf

/--
Whatever mistake a run ends with, it has only looked: its log has grown, and nothing
else has changed that lasts. The file tree is what it was, but for lines in a log file if there
is one; no artifact was written, no build or command started. The run is the
same with any other builder, so none was asked for anything.
-/
theorem generate_mistake_leaves_no_trace {builder : Builder} (hb : builder.NeverMistaken)
    {c : Configuration} {w w' : Workspace} {m : Mistake}
    (h : (generate builder c).outcome w = (.error (.mistake m), w')) :
    (∃ rs p, w' = { w.report rs with project := p }) ∧
    (w.logFile = none → w'.files = w.files) ∧
    w'.written = w.written ∧ w'.builds = w.builds ∧ w'.commands = w.commands ∧
    ∀ other : Builder, (generate other c).outcome w = (.error (.mistake m), w') := by
  have hp := prepare_of_generate_mistake hb h
  obtain ⟨rs, p, hw⟩ := (prepare_onlyLooks c).leaves w
  rw [hp] at hw
  change w' = _ at hw
  have hr := Workspace.report_eq w rs
  refine ⟨⟨rs, p, hw⟩, ?_, ?_, ?_, ?_, fun other => outcome_bind_error hp (emit other c)⟩
  · intro hl
    rw [hw]
    exact Workspace.report_files hl rs
  · rw [hw, hr]
  · rw [hw, hr]
  · rw [hw, hr]

/-- The browser bundle of an element is asked for, but no source has its class. -/
def unknownClassRequest : Configuration where
  root := "/ws"
  elements := some (.map [(.text "x-a", .text "Missing")])
  outputs := ["manifest", "browser"]
  build := { target := some "app:build" }

theorem unknown_class_leaves_no_trace :
    ∃ w', (generate (fun _ => pure { success := true }) unknownClassRequest).outcome Workspace.bare
        = (.error (.mistake (.classUnknown "Missing")), w') ∧
      w'.files = Workspace.bare.files ∧ w'.written = [] ∧ w'.builds = [] := by
  have hb : Builder.NeverMistaken fun _ => pure { success := true } := by
    intro request w m w' h
    simp at h
  have h : ((generate (fun _ => pure { success := true }) unknownClassRequest).outcome
      Workspace.bare).1 = .error (.mistake (.classUnknown "Missing")) := rfl
  obtain ⟨_, hfiles, hwritten, hbuilds, _⟩ :=
    generate_mistake_leaves_no_trace hb (Prod.ext h rfl)
  exact ⟨_, Prod.ext h rfl, hfiles rfl, hwritten, hbuilds⟩

end CustomElements
