import CustomElements.Proofs.Build.BundleFolder
import CustomElements.Proofs.Files.ProperTree
import CustomElements.Proofs.Generation.Course

/-!
# The bundle that a run returns

A run that names its bundle returns the main bundle that comes first by its name in the browser
folder. That is the one that was just built only if no other one that was left there comes before
it; nothing removes the others, and the next run finds them again. No step of a run gives one
directory two entries of one name, however the step ends. Only a builder could, so a run is as
proper as the builder that it calls.
-/

namespace CustomElements

open CustomElements.Action Workspace

/-! ### The tree of files stays proper -/

/-- Where the tree of files was proper, it still is. -/
def Workspace.KeepsProper (w w' : Workspace) : Prop := w.files.IsProper → w'.files.IsProper

instance : Std.Refl KeepsProper := ⟨fun _ h => h⟩

instance : IsTrans Workspace KeepsProper := ⟨fun _ _ _ h h' hw => h' (h hw)⟩

theorem Workspace.keepsProper_note (w : Workspace) (r : LogRecord) : KeepsProper w (w.note r) := by
  intro hw
  show (w.loggedFiles r).IsProper
  rcases w.loggedFiles_cases r with hsame | ⟨p, parts, before, line, -, -, -, hwrite⟩
  · exact hsame ▸ hw
  · exact hw.write hwrite

theorem Workspace.Undisturbed.keepsProper {w w' : Workspace} (h : Undisturbed w w') :
    KeepsProper w w' := by
  obtain ⟨rs, p, rfl⟩ := h
  show KeepsProper w (w.report rs)
  induction rs generalizing w with
  | nil => exact Std.Refl.refl w
  | cons r rs ih => exact trans_of KeepsProper (w.keepsProper_note r) ih

namespace Action

/-- The actions that keep the tree of files proper, and may fail in any way. -/
abbrev StaysProper {α : Type} (a : Action α) : Prop := Within KeepsProper (fun _ => True) a

namespace StaysProper

theorem of_onlyLooks {α : Type} {a : Action α} (h : OnlyLooks a) : StaysProper a :=
  ⟨fun w => (h.leaves w).keepsProper, fun _ _ _ => trivial⟩

theorem modify {f : Workspace → Workspace} (h : ∀ w, KeepsProper w (f w)) :
    StaysProper (modify f) := ⟨h, fun _ _ _ => trivial⟩

theorem change {f : Workspace → Except Fault FileTree}
    (h : ∀ w t, f w = .ok t → w.files.IsProper → t.IsProper) : StaysProper (Action.change f) := by
  refine Within.of_outcome fun w => ⟨?_, fun _ _ => trivial⟩
  rw [Action.change, outcome_bind, outcome_look]
  cases ht : f w with
  | error e => exact Std.Refl.refl w
  | ok t => exact h w t ht

theorem rename (source target : Path) : StaysProper (Action.rename source target) := by
  refine change fun w t ht hw => ?_
  obtain ⟨origin, -, ht⟩ := exceptBind_eq_ok.1 ht
  obtain ⟨place, -, ht⟩ := exceptBind_eq_ok.1 ht
  exact hw.rename ht

theorem writeBytes (p : Path) (content : Bytes) : StaysProper (Action.writeBytes p content) := by
  refine change fun w t ht hw => ?_
  obtain ⟨parts, -, ht⟩ := exceptBind_eq_ok.1 ht
  exact hw.write ht

theorem writeText (p : Path) (content : Text) : StaysProper (Action.writeText p content) := by
  unfold Action.writeText
  split
  · exact writeBytes p _
  · exact (writeBytes p _).bind fun _ => Within.faulty trivial

theorem makeDirs (p : Path) : StaysProper (Action.makeDirs p) := by
  refine (Within.look (fun _ => trivial) _).bind fun parts => ?_
  refine Within.get_bind fun w => ⟨?_, fun _ _ => trivial⟩
  rw [outcome_bind_ok (outcome_modify _ w)]
  have hmade : KeepsProper w { w with files := (w.files.makeDirs parts.reverse).1 } :=
    fun hw => hw.makeDirs parts.reverse
  split
  · exact hmade
  · exact hmade

theorem writeArtifact (p : Path) (content : Text) : StaysProper (writeArtifact p content) := by
  refine (makeDirs _).bind fun _ => ?_
  refine (writeText p content).bind fun _ => ?_
  refine Within.bind (modify (f := fun w => { w with written := w.written ++ [p] })
    fun _ h => h) fun _ => ?_
  exact (of_onlyLooks (OnlyLooks.record _ _ _)).bind fun _ => Within.pure _

end StaysProper

end Action

theorem generate_staysProper {builder : Builder} (hb : ∀ request, StaysProper (builder request))
    (c : Configuration) : StaysProper (generate builder c) := by
  refine (StaysProper.of_onlyLooks (prepare_onlyLooks c)).bind fun p => ?_
  exact emit_within (fun _ => trivial) (fun _ _ _ => StaysProper.of_onlyLooks (OnlyLooks.record _ _ _))
    StaysProper.writeArtifact StaysProper.rename hb c p

/-! ### What a build makes of the browser folder -/

/-- What a build that writes one main bundle makes of the files in a folder. Of the others it leaves
those with a spared name as they were. -/
structure BundleWritten (folder : Path) (spared : Text → Prop) (built : Text) (content : Bytes)
    (w w' : Workspace) : Prop where
  current : w'.current = w.current
  logFile : w'.logFile = w.logFile
  proper : KeepsProper w w'
  holds : w'.bundlesIn folder built = some content
  spares : ∀ name, spared name → name ≠ built → w'.bundlesIn folder name = w.bundlesIn folder name

/-- A builder that, when it answers, was successful and wrote one main bundle to the browser folder
of its output. It spares at least what may be the bundle of another build. -/
structure Builder.WritesBundle (builder : Builder) (spared : Text → Prop) (built : Text)
    (content : Bytes) : Prop where
  isName : IsBuildName built
  sparesBuilds : ∀ name, IsBuildName name → spared name
  writes : ∀ request w answer w', request.outputPath.IsResolved →
    (builder request).outcome w = (.ok answer, w') →
    answer.success ∧
      BundleWritten (request.outputPath.child browserFolder) spared built content w w'

section Run

variable {builder : Builder} {c : Configuration} {r : GenerationResult} {call : BuildCall}
variable {e : Emission} {kinds kinds' : List Text} {w v w' : Workspace} {d outDir : Path}
variable {name built : Text} {content : Bytes} {spared : Text → Prop}

/-- A run leaves a proper tree to its builder. -/
theorem BuildCall.Divides.asked_proper
    (h : call.Divides (generate · c) builder e w kinds kinds' r w') (hw : w.files.IsProper) :
    call.asked.files.IsProper := by
  have hstops : StaysProper (generate (fun _ => throw (.fault .noSuchFile)) c) :=
    generate_staysProper (fun _ => Within.throw trivial) c
  have hleaves := hstops.leaves w
  rw [h.once] at hleaves
  exact hleaves hw

/-- From a proper tree that the builder leaves, the run goes on to a proper tree. -/
theorem BuildCall.Divides.proper
    (h : call.Divides (generate · c) builder e w kinds kinds' r w')
    (hr : (generate builder c).outcome w = (.ok r, w')) (hw : w.files.IsProper)
    (hbuilt : call.answered.files.IsProper) : w'.files.IsProper := by
  -- the same run, with the answer and the files of the builder given beforehand
  let given : Builder := fun _ => do
    set call.answered
    pure call.answer
  have hgiven : StaysProper (generate given c) := by
    refine generate_staysProper (fun _ => ?_) c
    exact Within.bind ⟨fun _ _ => hbuilt, fun _ _ _ => trivial⟩ fun _ => Within.pure _
  have hsame : (generate given c).outcome w = (.ok r, w') := by
    rw [h.once given, ← hr, h.once builder]
    exact outcome_bind_congr h.answers.symm _
  have hleaves := hgiven.leaves w
  rw [hsame] at hleaves
  exact hleaves hw

/-- Artifacts leave a file with another name than theirs alone. -/
theorem Emission.Stores.contentOf (h : e.Stores w kinds v) (hn : name ≠ "..")
    (hother : ∀ kind ∈ kinds, artifactFileName kind ≠ name)
    (hknown : ∀ kind ∈ kinds, kind ∈ artifactFileNames.map Prod.fst)
    (hlog : ¬w.LogsTo (w.placeOf (d.child name))) :
    v.contentOf (d.child name) = w.contentOf (d.child name) := by
  have hdots : ∀ k ∈ artifactFileNames.map Prod.fst, artifactFileName k ≠ ".." := by decide
  rw [Workspace.contentOf, Stored.placeOf h]
  refine h.others _ (List.forall_mem_map.2 fun kind hk hplace => ?_) hlog
  have hlast := congrArg List.getLast? hplace
  rw [getLast?_placeOf w _ hn, Emission.path, getLast?_placeOf w _ (hdots kind (hknown kind hk))]
    at hlast
  exact hother kind hk (Option.some.inj hlast).symm

theorem Path.IsResolved.browserFolder (h : outDir.IsResolved) :
    (outDir.child browserFolder).IsResolved := by
  refine ⟨⟨h.isNormal.fromRoot, fun hm => ?_⟩, fun name hname => ?_⟩
  · rcases List.mem_append.1 hm with hm | hm
    · exact h.isNormal.noDots hm
    · exact absurd (List.mem_singleton.1 hm) (by decide)
  · rcases List.mem_append.1 hname with hname | hname
    · exact h.accepted name hname
    · rw [List.mem_singleton.1 hname]
      decide

theorem Workspace.logsTo_congr (hc : v.current = w.current) (hl : v.logFile = w.logFile)
    (p : Path) (h : ¬w.LogsTo (w.placeOf p)) : ¬v.LogsTo (v.placeOf p) := by
  rw [placeOf_congr hc, logsTo_iff_of_eq hc hl]
  exact h

/-- No artifact is named like a main bundle, or like a bundle that got its name. -/
theorem artifactFileName_ne (kind : Text) (hk : kind ∈ artifactFileNames.map Prod.fst) :
    (isMainBundle name → artifactFileName kind ≠ name) ∧ artifactFileName kind ≠ bundleName name := by
  have hmain : ∀ k ∈ artifactFileNames.map Prod.fst, isMainBundle (artifactFileName k) = false := by
    decide
  have hscript : ∀ k ∈ artifactFileNames.map Prod.fst, (∀ p ∈ artifactFileName k, p.IsPlain) ∧
      3 ≤ (artifactFileName k).length ∧ Text.endsWith (artifactFileName k) ".js" = false := by
    decide
  obtain ⟨hplain, hlen, hend⟩ := hscript kind hk
  refine ⟨?_, fun heq => bundleName_ne_append hplain hlen hend name [] heq.symm⟩
  rintro h rfl
  exact Bool.false_ne_true ((hmain kind hk).symm.trans h)

/-- Artifacts leave the main bundles of a folder alone. -/
theorem Emission.Stores.bundlesIn (h : e.Stores w kinds v)
    (hknown : ∀ kind ∈ kinds, kind ∈ artifactFileNames.map Prod.fst)
    (hlog : ∀ n, ¬w.LogsTo (w.placeOf (d.child n))) : v.bundlesIn d = w.bundlesIn d := by
  funext n
  rw [Workspace.bundlesIn, Workspace.bundlesIn]
  split
  · next hn =>
    exact h.contentOf (ne_dots_of_isMainBundle hn)
      (fun k hk => (artifactFileName_ne k (hknown k hk)).1 hn) hknown (hlog n)
  · rfl

/-- The bundle of a run is the first main bundle of the browser folder when the build is done. -/
theorem generate_bundle (hb : builder.WritesBundle spared built content)
    (hbrowser : browserOutput ∈ c.outputs) (hname : nonempty? c.build.outputFileName = some name)
    (hslash : .scalar '/' ∉ name) (hout : w.resolveFrom c.root (c.outDir.getD "dist") = .ok outDir)
    (hlog : ∀ n, ¬w.LogsTo (w.placeOf ((outDir.child browserFolder).child n)))
    (hw : w.files.IsProper) (hr : (generate builder c).outcome w = (.ok r, w')) :
    let folder := outDir.child browserFolder
    ∃ found first held, found built = some content ∧
      (∀ n, spared n → n ≠ built → found n = w.bundlesIn folder n) ∧
      IsFirstBundle found first held ∧
      r.bundle = some (folder.child (bundleName name)) ∧
      w'.contentOf (folder.child (bundleName name)) = some held ∧
      w'.bundlesIn folder = renamedBundles found first (bundleName name) ∧
      w'.files.IsProper := by
  intro folder
  obtain ⟨outDir', entryDir, kinds, kinds', call, hout', hkinds, -, hdivides⟩ :=
    generate_with_bundle hr hbrowser
  obtain rfl := Except.ok.inj (hout.symm.trans hout')
  obtain ⟨_, _, _, _, hprepared, -⟩ := generate_begins hr
  have hknown (kind : Text) (hk : kind ∈ kinds ++ browserOutput :: kinds') :
      kind ∈ artifactFileNames.map Prod.fst :=
    known_of_mem_artifactKinds hprepared.outputs_eq.1 (hkinds ▸ hk)
  have hdir := resolveFrom_isResolved hout
  have hfolder : folder.IsResolved := hdir.browserFolder
  obtain ⟨target, _, _, -, hrequest, -⟩ := hdivides.request
  have hpath : call.request.outputPath = outDir := congrArg BuildRequest.outputPath hrequest
  obtain ⟨hsuccess, hwritten⟩ := hb.writes _ _ _ _ (hpath ▸ hdir) hdivides.answers
  rw [hpath] at hwritten
  have hasked := hdivides.asked_proper hw
  have hanswered := hwritten.proper hasked
  have hlogAsked (n : Text) := logsTo_congr hdivides.before.current hdivides.before.logFile _ (hlog n)
  have hlogBuilt (n : Text) := logsTo_congr hwritten.current hwritten.logFile _ (hlogAsked n)
  have hrename := hdivides.bundle.named hsuccess name hname
  obtain ⟨first, held, hfirst, hbundle, hheld, hnamed, hcurrent, hlogFile⟩ :=
    renameBundle_eq_ok hfolder hanswered hslash ⟨built, Option.isSome_of_eq_some hwritten.holds⟩
      hlogBuilt hrename
  have hlogNamed (n : Text) := logsTo_congr hcurrent hlogFile _ (hlogBuilt n)
  have hbefore : call.asked.bundlesIn folder = w.bundlesIn folder := by
    refine hdivides.before.bundlesIn (fun k hk => hknown k ?_) hlog
    rw [List.append_cons]
    exact List.mem_append_left _ hk
  have hlater (k : Text) (hk : k ∈ kinds') :=
    hknown k (List.mem_append_right _ (List.mem_cons_of_mem _ hk))
  have hafter : w'.bundlesIn folder = call.named.bundlesIn folder :=
    hdivides.after.bundlesIn hlater hlogNamed
  refine ⟨call.answered.bundlesIn folder, first, held, hwritten.holds, fun n hn hne => ?_, hfirst,
    hbundle, ?_, hafter.trans hnamed, hdivides.proper hr hw hanswered⟩
  · rw [hwritten.spares n hn hne, hbefore]
  · rw [hdivides.after.contentOf (ne_dots_of_plain (bundleName_plain name))
      (fun k hk => (artifactFileName_ne k (hlater k hk)).2) hlater (hlogNamed _)]
    exact hheld

end Run

end CustomElements
