import CustomElements.Proofs.Generation.Artifacts
import CustomElements.Proofs.Generation.Phases

/-!
# The course of a run

A run that has an answer writes the manifest and the types first, and then an artifact for each
further kind of output, in the order in which the kinds are first asked for. The builder is called
only for a bundle, once, when the entry module is written. What it answers decides whether there is
a bundle to be named, and nothing else: the artifacts of the kinds that follow are written anyway.
-/

namespace CustomElements

open CustomElements.Action Workspace

section Keeping

/-- The store keeps the same paths. -/
def Workspace.SameWritten (w w' : Workspace) : Prop := w'.written = w.written

instance : Std.Refl SameWritten := ⟨fun _ => rfl⟩

instance : IsTrans Workspace SameWritten := ⟨fun _ _ _ h h' => h'.trans h⟩

/-- A builder does not write artifacts of the run, whatever files it changes. -/
def Builder.KeepsWritten (builder : Builder) : Prop :=
  ∀ request, Within SameWritten (fun _ => True) (builder request)

theorem Workspace.Undisturbed.sameWritten {w w' : Workspace} (h : Undisturbed w w') :
    SameWritten w w' := by
  obtain ⟨rs, p, rfl⟩ := h
  rw [report_eq]
  rfl

theorem Workspace.Undisturbed.resolveFrom {w w' : Workspace} (h : Undisturbed w w')
    (base p : Path) : w'.resolveFrom base p = w.resolveFrom base p := by
  obtain ⟨rs, p, rfl⟩ := h
  rw [report_eq]
  rfl

theorem record_sameWritten (level : LogLevel) (logger message : Text) :
    Within SameWritten (fun _ => True) (Action.record level logger message) :=
  ⟨fun w => ((OnlyReports.record level logger message).onlyLooks.leaves w).sameWritten,
    fun _ _ _ => trivial⟩

/-- Running a command keeps what starting the command keeps. -/
theorem buildByCommand_keepsWritten (command : List Text) {run : CommandRunner}
    (hr : ∀ c, Within SameWritten (fun _ => True) (run c)) :
    (buildByCommand command run).KeepsWritten :=
  buildByCommand_within (fun _ => trivial) record_sameWritten (fun _ _ => rfl) command hr

end Keeping

section Build

/-- The build that a run asks for. -/
def buildRequest (c : Configuration) (target : BuildTarget) (entry outDir : Path) :
    BuildRequest where
  target := target
  entry := entry
  outputPath := outDir
  options := buildOptions c
  directory := c.root

/-- What a run does with the answer of a builder. -/
def finishBuild (c : Configuration) (target : BuildTarget) (outDir : Path) (build : BuildResult) :
    Action (BuildResult × Option Path) := do
  if !build.success then
    Action.record .error "orchestrator"
      ("Build target " ++ target.text ++ " failed: " ++ build.errorText)
    return (build, none)
  match nonempty? c.build.outputFileName with
  | some name => return (build, ← renameBundle outDir name)
  | none =>
    Action.record .info "orchestrator"
      ("Browser bundle emitted by Angular (main-*.js). "
        ++ "Load with <script type=\"module\" src=\"main-*.js\">.")
    return (build, none)

/-- A result with the entry module, the build and the bundle. -/
def GenerationResult.addBundle (r : GenerationResult) (entry : Path)
    (built : BuildResult × Option Path) : GenerationResult :=
  { r.add [(browserOutput, entry)] with build := some built.1, bundle := built.2 }

/-- For a bundle the builder is called when the entry module is written. -/
theorem writeOutput_browser (builder : Builder) (c : Configuration) (target : BuildTarget)
    (outDir : Path) (r : GenerationResult) :
    writeOutput builder c (some target) outDir r browserOutput = (do
      let directory ← entryDirectory c target outDir
      let entry ←
        writeRegistration c .browser (directory.child browserEntryFileName) r.components
      Action.record .info "orchestrator"
        ("Delegating browser bundle to build target " ++ target.text)
      let build ← builder (buildRequest c target entry outDir)
      let built ← finishBuild c target outDir build
      return r.addBundle entry built) := by
  have hkind : browserOutput ≠ moduleOutput := by decide
  rw [writeOutput, if_neg hkind, if_pos rfl]
  simp only [runBuild, bind_assoc]
  rfl

/-- What becomes of the bundle of a build: it gets the name that the configuration asks for. There
is none if the build failed or no name is asked for, and then no file changes. -/
structure NamesBundle (c : Configuration) (outDir : Path) (build : BuildResult) (w : Workspace)
    (bundle : Option Path) (w' : Workspace) : Prop where
  failed : build.success = false → bundle = none ∧ Stored w [] w'
  unnamed : nonempty? c.build.outputFileName = none → bundle = none ∧ Stored w [] w'
  named : build.success = true → ∀ name, nonempty? c.build.outputFileName = some name →
    (renameBundle outDir name).outcome w = (.ok bundle, w')

theorem finishBuild_eq_ok {c : Configuration} {target : BuildTarget} {outDir : Path}
    {build : BuildResult} {built : BuildResult × Option Path} {w w' : Workspace}
    (h : (finishBuild c target outDir build).outcome w = (.ok built, w')) :
    built.1 = build ∧ NamesBundle c outDir build w built.2 w' := by
  have hrecord : ∀ level logger message, Stored w []
      ((Action.record level logger message).outcome w).2 := fun level logger message =>
    ((OnlyLooks.record level logger message).leaves w).stored
  unfold finishBuild at h
  split at h
  · next hfailed =>
    have hsuccess : build.success = false := by simpa using hfailed
    cases h
    exact ⟨rfl, fun _ => ⟨rfl, hrecord _ _ _⟩, fun _ => ⟨rfl, hrecord _ _ _⟩,
      fun hs => by rw [hsuccess] at hs; cases hs⟩
  · next hbuilt =>
    have hsuccess : build.success = true := by simpa using hbuilt
    split at h
    · next name hname =>
      obtain ⟨bundle, v, hrename, hend⟩ := outcome_bind_eq_ok.1 h
      cases hend
      refine ⟨rfl, fun hs => ?_, fun hn => ?_, fun _ name' hn => ?_⟩
      · rw [hsuccess] at hs
        cases hs
      · rw [hname] at hn
        cases hn
      · obtain rfl := Option.some.inj (hname.symm.trans hn)
        exact hrename
    · next hname =>
      cases h
      exact ⟨rfl, fun _ => ⟨rfl, hrecord _ _ _⟩, fun _ => ⟨rfl, hrecord _ _ _⟩,
        fun _ name hn => by rw [hname] at hn; cases hn⟩

theorem NamesBundle.sameWritten {c : Configuration} {outDir : Path} {build : BuildResult}
    {bundle : Option Path} {w w' : Workspace} (h : NamesBundle c outDir build w bundle w') :
    SameWritten w w' := by
  have hstored : Stored w [] w' → SameWritten w w' := fun hs => by
    rw [SameWritten, hs.written, List.map_nil, List.append_nil]
  cases hname : nonempty? c.build.outputFileName with
  | none => exact hstored (h.unnamed hname).2
  | some name =>
    cases hsuccess : build.success with
    | false => exact hstored (h.failed hsuccess).2
    | true =>
      have hkept := renameBundle_within record_sameWritten
        (fun _ _ => change_within (fun _ => trivial) (fun _ _ => rfl) _) outDir name
      have hleaves := hkept.leaves w
      rwa [h.named hsuccess name hname] at hleaves

/-- What the output of a bundle does up to the call of the builder and from then on. -/
theorem writeOutput_browser_eq_ok {builder : Builder} {c : Configuration} {target : BuildTarget}
    {outDir : Path} {cs : List Component} {r t : GenerationResult} {w w' : Workspace}
    (hcs : r.components = cs)
    (h : (writeOutput builder c (some target) outDir r browserOutput).outcome w = (.ok t, w')) :
    ∃ entryDir u asked answer answered bundle, let e : Emission := ⟨c, cs, outDir, entryDir⟩
      (entryDirectory c target outDir).outcome w = (.ok entryDir, u) ∧
      e.Stores w [browserOutput] asked ∧
      (builder (buildRequest c target (e.path browserOutput) outDir)).outcome asked =
        (.ok answer, answered) ∧
      NamesBundle c outDir answer answered bundle w' ∧
      t = r.addBundle (e.path browserOutput) (answer, bundle) ∧
      ∀ other, (writeOutput other c (some target) outDir r browserOutput).outcome w =
        (other (buildRequest c target (e.path browserOutput) outDir) >>= fun build => do
          let built ← finishBuild c target outDir build
          return r.addBundle (e.path browserOutput) built).outcome asked := by
  rw [writeOutput_browser] at h
  obtain ⟨entryDir, u, hdirectory, h₁⟩ := outcome_bind_eq_ok.1 h
  obtain ⟨entry, v, hentry, h₂⟩ := outcome_bind_eq_ok.1 h₁
  obtain ⟨_, asked, hrecord, h₃⟩ := outcome_bind_eq_ok.1 h₂
  obtain ⟨answer, answered, hanswer, h₄⟩ := outcome_bind_eq_ok.1 h₃
  obtain ⟨built, v', hfinish, hend⟩ := outcome_bind_eq_ok.1 h₄
  obtain ⟨rfl, hwritten⟩ := writeRegistration_stored hentry
  rw [hcs] at hwritten
  have hstored : Emission.Stores ⟨c, cs, outDir, entryDir⟩ u [browserOutput] v := hwritten
  obtain ⟨rfl, hbundle⟩ := finishBuild_eq_ok hfinish
  have hlooked : Undisturbed w u := by
    have hleaves := (entryDirectory_within (R := Undisturbed) (P := fun _ => True)
      (fun _ => trivial) OnlyLooks.record c target outDir).leaves w
    rwa [hdirectory] at hleaves
  have hrecorded : Undisturbed v asked := by
    have hleaves := (OnlyLooks.record .info "orchestrator"
        ("Delegating browser bundle to build target " ++ target.text)).leaves v
    rwa [hrecord] at hleaves
  cases hend
  refine ⟨entryDir, u, asked, built.1, answered, built.2, hdirectory,
    (hstored.of_undisturbed hlooked).disturbed hrecorded, hanswer, hbundle, rfl, fun other => ?_⟩
  rw [writeOutput_browser, outcome_bind_ok hdirectory, outcome_bind_ok hentry,
    outcome_bind_ok hrecord]
  rfl

/-- The call of the builder in a run. -/
structure BuildCall where
  request : BuildRequest
  answer : BuildResult
  /-- The workspace that the builder is called in. -/
  asked : Workspace
  /-- The workspace that it leaves. -/
  answered : Workspace
  /-- The workspace in which the bundle has its name. -/
  named : Workspace
  /-- What the run makes of an answer. -/
  rest : BuildResult → Action GenerationResult

/-- A run calls its builder once, when the artifacts of `kinds` and the entry module are written,
and writes the artifacts of `kinds'` afterwards, whatever the answer is. -/
structure BuildCall.Divides (call : BuildCall) (run : Builder → Action GenerationResult)
    (builder : Builder) (e : Emission) (w : Workspace) (kinds kinds' : List Text)
    (r : GenerationResult) (w' : Workspace) : Prop where
  /-- With any other builder the run gets to the same call, and calls no builder after it. -/
  once : ∀ other, (run other).outcome w = (other call.request >>= call.rest).outcome call.asked
  request : ∃ target u v,
    (nonempty? e.configuration.build.target).mapM BuildTarget.parse = .ok (some target) ∧
    call.request = buildRequest e.configuration target (e.path browserOutput) e.outDir ∧
    e.Stores w kinds u ∧
    (entryDirectory e.configuration target e.outDir).outcome u = (.ok e.entryDir, v)
  before : e.Stores w (kinds ++ [browserOutput]) call.asked
  answers : (builder call.request).outcome call.asked = (.ok call.answer, call.answered)
  build : r.build = some call.answer
  bundle : NamesBundle e.configuration e.outDir call.answer call.answered r.bundle call.named
  after : e.Stores call.named kinds' w'

/-- Artifacts that are stored before and a log record afterwards leave the call as it is. -/
theorem BuildCall.Divides.within {call : BuildCall} {run : Builder → Action GenerationResult}
    {builder : Builder} {e : Emission} {w v v' w' : Workspace} {kinds kinds' : List Text}
    {r : GenerationResult} (h : call.Divides run builder e v [] kinds' r v')
    (hstored : e.Stores w kinds v) (hended : Undisturbed v' w')
    (hknown : ∀ kind ∈ kinds ++ [browserOutput], kind ∈ artifactFileNames.map Prod.fst)
    (hn : (kinds ++ [browserOutput]).Nodup) {whole : Builder → Action GenerationResult}
    {rest : GenerationResult → Action GenerationResult}
    (hwhole : ∀ other, (whole other).outcome w = (run other >>= rest).outcome v) :
    BuildCall.Divides { call with rest := fun build => call.rest build >>= rest } whole builder e w
      kinds kinds' r w' := by
  obtain ⟨target, u, u', htarget, hrequest, hnone, hdirectory⟩ := h.request
  have hearly : e.Stores w (kinds ++ []) u := by
    refine hstored.append hnone ?_ ?_ <;> rw [List.append_nil]
    · exact fun kind hk => hknown kind (List.mem_append_left _ hk)
    · exact (List.nodup_append.1 hn).1
  rw [List.append_nil] at hearly
  refine ⟨fun other => ?_, ⟨target, u, u', htarget, hrequest, hearly, hdirectory⟩,
    hstored.append h.before hknown hn, h.answers, h.build, h.bundle, h.after.disturbed hended⟩
  rw [hwhole other, outcome_bind_congr (h.once other), bind_assoc]

/-- The loop over outputs that begin with a bundle calls the builder for it and for no other. -/
theorem foldlM_writeOutput_divides {builder : Builder} {c : Configuration}
    {target : BuildTarget} {outDir : Path} {ks : List Text} {s r : GenerationResult}
    {w w' : Workspace}
    (htarget : (nonempty? c.build.target).mapM BuildTarget.parse = .ok (some target))
    (hk : ∀ kind ∈ ks, kind ∈ supportedOutputs) (hb : browserOutput ∉ ks) (hn : ks.Nodup)
    (h : ((browserOutput :: ks).foldlM (writeOutput builder c (some target) outDir) s).outcome w =
      (.ok r, w')) :
    ∃ entryDir call, let e : Emission := ⟨c, s.components, outDir, entryDir⟩
      r.components = s.components ∧
      r.artifacts = s.artifacts ++ e.artifacts (browserOutput :: furtherKinds ks) ∧
      BuildCall.Divides call (fun other =>
          (browserOutput :: ks).foldlM (writeOutput other c (some target) outDir) s)
        builder e w [] (furtherKinds ks) r w' := by
  rw [List.foldlM_cons] at h
  obtain ⟨t, named, hbrowser, hlast⟩ := outcome_bind_eq_ok.1 h
  obtain ⟨entryDir, u, asked, answer, answered, bundle, hdirectory, hentry, hanswer, hbundle,
    ht, honce⟩ := writeOutput_browser_eq_ok rfl hbrowser
  have hcs : t.components = s.components := ht ▸ rfl
  obtain ⟨rfl, hstored⟩ := foldlM_writeOutput_stored (e := ⟨c, s.components, outDir, entryDir⟩)
    hk hb hn hcs hlast
  subst ht
  -- after its answer a run has no use for the builder, so `builder` may stand for any other there
  let entry := Emission.path ⟨c, s.components, outDir, entryDir⟩ browserOutput
  refine ⟨entryDir, ⟨_, answer, asked, answered, named, fun build => (do
      let built ← finishBuild c target outDir build
      ks.foldlM (writeOutput builder c (some target) outDir) (s.addBundle entry built))⟩,
    rfl, ?_, fun other => ?_,
    ⟨target, w, u, htarget, rfl, (Std.Refl.refl w : Undisturbed w w).stored, hdirectory⟩,
    hentry, hanswer, rfl, hbundle, hstored⟩
  · simp [Emission.artifacts, GenerationResult.add, GenerationResult.addBundle]
  · have hswap : ∀ t, ks.foldlM (writeOutput other c (some target) outDir) t =
        ks.foldlM (writeOutput builder c (some target) outDir) t := fun t =>
      foldlM_writeOutput_of_not_mem hb
    rw [List.foldlM_cons, outcome_bind_congr (honce other), bind_assoc]
    simp only [hswap, bind_assoc, pure_bind]
    rfl

end Build

section Run

variable {builder other : Builder} {c : Configuration} {r : GenerationResult}
variable {w w' : Workspace}

/-- The result when the manifest and the types are written. -/
def basicResult (cs : List Component) (outDir : Path) : GenerationResult where
  components := cs
  artifacts := [(manifestOutput, outDir.child manifestFileName),
    (typesOutput, outDir.child typesFileName)]

/-- The end of a run, which only logs. -/
def concludeRun (outDir : Path) (result : GenerationResult) : Action GenerationResult := do
  Action.record .info "orchestrator"
    ("Wrote " ++ Text.ofNat result.artifacts.length ++ " artifact(s) to " ++ outDir.text)
  return result

/-- Until the loop over the outputs, a run has no use for a builder. -/
theorem generate_begins (h : (generate builder c).outcome w = (.ok r, w')) :
    ∃ (p : Preparation) (u : Workspace) (outDir : Path) (v : Workspace), Prepared c w p u ∧
      w.resolveFrom c.root (c.outDir.getD "dist") = .ok outDir ∧
      (∀ entryDir, Emission.Stores ⟨c, p.components, outDir, entryDir⟩ w
        [manifestOutput, typesOutput] v) ∧
      ∀ other, (generate other c).outcome w =
        (p.outputs.foldlM (writeOutput other c p.target outDir) (basicResult p.components outDir)
          >>= concludeRun outDir).outcome v := by
  obtain ⟨p, u, hprepare, hemit⟩ := outcome_bind_eq_ok.1 h
  have hlooked : Undisturbed w u := by
    have hleaves := (prepare_onlyLooks c).leaves w
    rwa [hprepare] at hleaves
  obtain ⟨outDir, u₀, hout, h₁⟩ := outcome_bind_eq_ok.1 hemit
  obtain ⟨mpath, u₁, hmanifest, h₂⟩ := outcome_bind_eq_ok.1 h₁
  obtain ⟨tpath, u₂, htypes, h₃⟩ := outcome_bind_eq_ok.1 h₂
  obtain ⟨hresolve, rfl⟩ := outcome_look_eq_ok.1 hout
  obtain ⟨rfl, hstored₁⟩ := writeArtifact_stored hmanifest
  obtain ⟨rfl, hstored₂⟩ := writeArtifact_stored htypes
  refine ⟨p, u₀, outDir, u₂, prepared_of_ok hprepare,
    (hlooked.resolveFrom _ _).symm.trans hresolve, fun entryDir => ?_, fun other => ?_⟩
  · have hfirst : Emission.Stores ⟨c, p.components, outDir, entryDir⟩ w [manifestOutput] u₁ :=
      .of_undisturbed hlooked hstored₁
    have hsecond : Emission.Stores ⟨c, p.components, outDir, entryDir⟩ u₁ [typesOutput] u₂ :=
      hstored₂
    exact hfirst.append hsecond (by decide) (by decide)
  · rw [generate, outcome_bind_ok hprepare, emit, outcome_bind_ok hout,
      outcome_bind_ok hmanifest, outcome_bind_ok htypes]
    rfl

/-- The first outputs that are asked for, when a run gets past them. -/
theorem Prepared.outputs_eq {p : Preparation} (h : Prepared c w p w') :
    (∀ kind ∈ c.outputs, kind ∈ supportedOutputs) ∧ p.outputs = c.outputs.eraseDups := by
  obtain ⟨hsupported, houtputs⟩ := requestedOutputs_eq_ok.1 h.outputs
  refine ⟨hsupported, houtputs.trans ?_⟩
  simp

/-- The end of a run stores nothing. -/
theorem concludeRun_eq_ok {outDir : Path} {result : GenerationResult}
    (h : (concludeRun outDir result).outcome w = (.ok r, w')) :
    r = result ∧ Undisturbed w w' := by
  cases h
  exact ⟨rfl, [_], w.project, rfl⟩

/-- A run without a bundle never calls a builder. -/
theorem generate_without_bundle (h : (generate builder c).outcome w = (.ok r, w'))
    (hb : browserOutput ∉ c.outputs) :
    ∃ outDir, w.resolveFrom c.root (c.outDir.getD "dist") = .ok outDir ∧
      ∀ entryDir, let e : Emission := ⟨c, r.components, outDir, entryDir⟩
        r = { components := r.components, artifacts := e.artifacts (artifactKinds c) } ∧
        e.Stores w (artifactKinds c) w' ∧
        ∀ other, (generate other c).outcome w = (.ok r, w') := by
  obtain ⟨p, u, outDir, v, hp, hout, hbasic, hother⟩ := generate_begins h
  obtain ⟨hsupported, houtputs⟩ := hp.outputs_eq
  refine ⟨outDir, hout, fun entryDir => ?_⟩
  rw [hother builder, houtputs] at h
  obtain ⟨s, u', hloop, hend⟩ := outcome_bind_eq_ok.1 h
  obtain ⟨rfl, hended⟩ := concludeRun_eq_ok hend
  have hmem : ∀ kind ∈ c.outputs.eraseDups, kind ∈ supportedOutputs := fun kind hk =>
    hsupported kind (List.mem_eraseDups.1 hk)
  have hnot : browserOutput ∉ c.outputs.eraseDups := mt List.mem_eraseDups.1 hb
  obtain ⟨rfl, hstored⟩ := foldlM_writeOutput_stored (e := ⟨c, p.components, outDir, entryDir⟩)
    hmem hnot (nodup_eraseDups _) rfl hloop
  refine ⟨rfl, ((hbasic entryDir).append hstored (fun k => known_of_mem_artifactKinds hsupported)
    (nodup_artifactKinds hsupported)).disturbed hended, fun other => ?_⟩
  rw [hother other, houtputs, foldlM_writeOutput_of_not_mem hnot]
  exact h

/-- Only a run with a target gets to a bundle. -/
theorem Prepared.exists_target {p : Preparation} (h : Prepared c w p w')
    (hb : browserOutput ∈ p.outputs) : ∃ target, p.target = some target := by
  have hcheck := h.hasTarget
  unfold checkTarget at hcheck
  split at hcheck
  · cases hcheck
  · next hcond =>
    rw [List.contains_iff_mem.2 hb, Bool.true_and, Option.isNone_iff_eq_none] at hcond
    exact Option.ne_none_iff_exists'.1 hcond

/-- The store lists the entry module between the artifacts before and after it. -/
theorem BuildCall.Divides.written {call : BuildCall} {run : Builder → Action GenerationResult}
    {e : Emission} {kinds kinds' : List Text} (hb : builder.KeepsWritten)
    (h : call.Divides run builder e w kinds kinds' r w') :
    w'.written = w.written ++ (e.artifacts (kinds ++ browserOutput :: kinds')).map Prod.snd := by
  have hbuilt : call.answered.written = call.asked.written := by
    have hleaves := (hb call.request).leaves call.asked
    rwa [h.answers] at hleaves
  have hnamed : call.named.written = call.answered.written := h.bundle.sameWritten
  rw [h.after.written, hnamed, hbuilt, h.before.written]
  simp [Emission.artifacts]

/-- A run with a bundle calls its builder once, between the artifacts before and after it. -/
theorem generate_with_bundle (h : (generate builder c).outcome w = (.ok r, w'))
    (hb : browserOutput ∈ c.outputs) :
    ∃ outDir entryDir kinds kinds' call, let e : Emission := ⟨c, r.components, outDir, entryDir⟩
      w.resolveFrom c.root (c.outDir.getD "dist") = .ok outDir ∧
      artifactKinds c = kinds ++ browserOutput :: kinds' ∧
      r.artifacts = e.artifacts (artifactKinds c) ∧
      BuildCall.Divides call (generate · c) builder e w kinds kinds' r w' := by
  obtain ⟨p, u, outDir, v, hp, hout, hbasic, hother⟩ := generate_begins h
  obtain ⟨hsupported, houtputs⟩ := hp.outputs_eq
  obtain ⟨ks, ks', hsplit, hks, hks', ⟨hnot, hnodup⟩, hnot', hnodup'⟩ :=
    exists_outputs_split hsupported hb
  obtain ⟨hkinds, hknown, hdistinct⟩ := artifactKinds_split hsupported hsplit
  rw [hsplit] at houtputs
  obtain ⟨target, htarget⟩ :=
    hp.exists_target (houtputs ▸ List.mem_append_right _ List.mem_cons_self)
  rw [hother builder, houtputs, htarget] at h
  obtain ⟨s, v', hloop, hend⟩ := outcome_bind_eq_ok.1 h
  obtain ⟨rfl, hended⟩ := concludeRun_eq_ok hend
  rw [List.foldlM_append] at hloop
  obtain ⟨t, v₁, hearly, hlate⟩ := outcome_bind_eq_ok.1 hloop
  -- no artifact before the bundle has to do with the directory of the entry, which is not known yet
  have hstored : ∀ entryDir, let e : Emission := ⟨c, p.components, outDir, entryDir⟩
      t = (basicResult p.components outDir).add (e.artifacts (furtherKinds ks)) ∧
        e.Stores v (furtherKinds ks) v₁ := fun _ =>
    foldlM_writeOutput_stored hks hnot hnodup rfl hearly
  have ht : t.components = p.components := (hstored outDir).1 ▸ rfl
  obtain ⟨entryDir, call, hcs, hartifacts, hdivides⟩ := foldlM_writeOutput_divides
    (hp.target.trans (congrArg _ htarget)) hks' hnot' hnodup' hlate
  rw [ht] at hcs hartifacts hdivides
  have hbefore := (hbasic entryDir).append (hstored entryDir).2
    (fun k hk => hknown k (List.mem_append_left _ hk)) (List.nodup_append.1 hdistinct).1
  refine ⟨outDir, entryDir, _, _,
    { call with rest := fun build => call.rest build >>= concludeRun outDir }, hout, hkinds, ?_, ?_⟩
  · have hbasics : (basicResult p.components outDir).artifacts =
        Emission.artifacts ⟨c, p.components, outDir, entryDir⟩ [manifestOutput, typesOutput] := rfl
    rw [hartifacts, hkinds, hcs, (hstored entryDir).1, GenerationResult.add]
    simp only [hbasics, Emission.artifacts, List.map_append]
  · rw [hcs]
    refine hdivides.within hbefore hended hknown hdistinct fun other => ?_
    rw [hother other, houtputs, htarget, List.foldlM_append, foldlM_writeOutput_of_not_mem hnot,
      bind_assoc, outcome_bind_ok hearly]

/-- The course of every run that has an answer. The store lists the artifacts in the order of their
kinds, whatever the build came to, and they are all at different paths. -/
theorem generate_course (hb : builder.KeepsWritten)
    (h : (generate builder c).outcome w = (.ok r, w')) :
    ∃ outDir entryDir, let e : Emission := ⟨c, r.components, outDir, entryDir⟩
      w.resolveFrom c.root (c.outDir.getD "dist") = .ok outDir ∧
      r.artifacts = e.artifacts (artifactKinds c) ∧
      w'.written = w.written ++ r.artifacts.map Prod.snd ∧
      (r.artifacts.map Prod.snd).Nodup ∧
      (browserOutput ∉ c.outputs → r.build = none ∧ r.bundle = none ∧
        e.Stores w (artifactKinds c) w' ∧ ∀ other, (generate other c).outcome w = (.ok r, w')) ∧
      (browserOutput ∈ c.outputs → ∃ kinds kinds' call,
        artifactKinds c = kinds ++ browserOutput :: kinds' ∧
        BuildCall.Divides call (generate · c) builder e w kinds kinds' r w') := by
  obtain ⟨p, _, _, _, hp, -⟩ := generate_begins h
  obtain ⟨hsupported, -⟩ := hp.outputs_eq
  have hpaths : ∀ e : Emission, (e.artifacts (artifactKinds c)).map Prod.snd =
      (artifactKinds c).map e.path := fun e => by
    rw [Emission.artifacts, List.map_map]
    rfl
  have hnodup : ∀ e : Emission, ((artifactKinds c).map e.path).Nodup := fun e =>
    e.nodup_paths (fun k => known_of_mem_artifactKinds hsupported) (nodup_artifactKinds hsupported)
  by_cases hbrowser : browserOutput ∈ c.outputs
  · obtain ⟨outDir, entryDir, kinds, kinds', call, hout, hkinds, hartifacts, hdivides⟩ :=
      generate_with_bundle h hbrowser
    refine ⟨outDir, entryDir, hout, hartifacts, ?_, ?_, fun hnot => absurd hbrowser hnot,
      fun _ => ⟨kinds, kinds', call, hkinds, hdivides⟩⟩
    · rw [hartifacts, hkinds]
      exact hdivides.written hb
    · rw [hartifacts, hpaths]
      exact hnodup _
  · obtain ⟨outDir, hout, hrun⟩ := generate_without_bundle h hbrowser
    obtain ⟨hr, hstored, hother⟩ := hrun outDir
    have hartifacts := congrArg GenerationResult.artifacts hr
    refine ⟨outDir, outDir, hout, hartifacts, ?_, ?_, fun _ =>
      ⟨congrArg GenerationResult.build hr, congrArg GenerationResult.bundle hr, hstored, hother⟩,
      fun hmem => absurd hmem hbrowser⟩
    · rw [hartifacts]
      exact hstored.written
    · rw [hartifacts, hpaths]
      exact hnodup _

/-- A bundle is asked for twice, and a module after it. -/
def repeatedRequest : Configuration where
  root := "/ws"
  elements := some (.list [])
  outputs := ["browser", "module", "browser"]
  build := { target := some "app:build" }

/-- A builder that does nothing and fails. -/
def failingBuilder : Builder := fun _ => pure { success := false }

theorem generate_course_failed_build :
    ∃ r w', (generate failingBuilder repeatedRequest).outcome .bare = (.ok r, w') ∧
      r.artifacts.map Prod.fst = ["manifest", "types", "browser", "module"] ∧
      w'.written = r.artifacts.map Prod.snd ∧
      r.build = some { success := false } ∧ r.bundle = none := by
  have hb : failingBuilder.KeepsWritten := fun _ => Within.pure _
  have hanswers : ((generate failingBuilder repeatedRequest).outcome .bare).1.toOption.isSome := by
    decide +kernel
  obtain ⟨r, w', h⟩ := exists_outcome_of_isSome hanswers
  obtain ⟨outDir, entryDir, -, hartifacts, hwritten, -, -, hbundle⟩ := generate_course hb h
  obtain ⟨kinds, kinds', call, -, hdivides⟩ := hbundle (by decide)
  have hanswer : { success := false } = call.answer :=
    Except.ok.inj (congrArg Prod.fst hdivides.answers)
  have hkinds : artifactKinds repeatedRequest = ["manifest", "types", "browser", "module"] := by
    decide
  refine ⟨r, w', h, ?_, hwritten, hdivides.build.trans (congrArg some hanswer.symm),
    (hdivides.bundle.failed (hanswer ▸ rfl)).1⟩
  rw [hartifacts, hkinds]
  rfl

end Run

end CustomElements
