import Mathlib.Data.List.Chain
import CustomElements.Proofs.Generation.ReturnedBundle

/-!
# Bundles over many runs

Builds are told to leave the output directory as it is, so every run finds the main bundles that the
runs before it left. Over any row of runs each of them returns the first main bundle by name; these
are the built ones as long as nothing that comes before them is ever left in the folder.
-/

namespace CustomElements

open CustomElements.Action Workspace

/-- A run that builds a bundle: what it is asked for, and how it goes. -/
structure BundleRun where
  builder : Builder
  configuration : Configuration
  /-- The name that the configuration asks for. -/
  name : Text
  /-- The name that the build gives to the bundle. -/
  built : Text
  content : Bytes
  /-- The names of the main bundles that the build leaves alone. -/
  spared : Text → Prop
  before : Workspace
  result : GenerationResult
  after : Workspace

namespace BundleRun

/-- The run has an answer, with a bundle from a folder that no log record goes to. -/
structure Builds (run : BundleRun) (folder : Path) : Prop where
  writes : run.builder.WritesBundle run.spared run.built run.content
  browser : browserOutput ∈ run.configuration.outputs
  named : nonempty? run.configuration.build.outputFileName = some run.name
  noSlash : .scalar '/' ∉ run.name
  output : ∃ outDir, folder = outDir.child browserFolder ∧ run.before.resolveFrom
    run.configuration.root (run.configuration.outDir.getD "dist") = .ok outDir
  apart : ∀ n, ¬run.before.LogsTo (run.before.placeOf (folder.child n))
  answers : (generate run.builder run.configuration).outcome run.before = (.ok run.result, run.after)

/-- The path of the bundle under the name that is asked for. -/
def path (run : BundleRun) (folder : Path) : Path := folder.child (bundleName run.name)

/-- The run finds these main bundles when the build is done, and returns the first of them. -/
structure Returns (run : BundleRun) (folder : Path) (found : Text → Option Bytes) (first : Text)
    (content : Bytes) : Prop where
  holds : found run.built = some run.content
  keeps : ∀ n, run.spared n → n ≠ run.built → found n = run.before.bundlesIn folder n
  isFirst : IsFirstBundle found first content
  bundle : run.result.bundle = some (run.path folder)
  contentOf : run.after.contentOf (run.path folder) = some content
  bundles : run.after.bundlesIn folder = renamedBundles found first (bundleName run.name)

variable {run : BundleRun} {runs : List BundleRun} {folder : Path}

theorem Builds.returns (h : run.Builds folder) (hw : run.before.files.IsProper) :
    (∃ found first content, run.Returns folder found first content) ∧
      run.after.files.IsProper := by
  obtain ⟨outDir, rfl, hout⟩ := h.output
  obtain ⟨found, first, held, hholds, hkeeps, hfirst, hbundle, hheld, hafter, hproper⟩ :=
    generate_bundle h.writes h.browser h.named h.noSlash hout h.apart hw h.answers
  exact ⟨⟨found, first, held, hholds, hkeeps, hfirst, hbundle, hheld, hafter⟩, hproper⟩

theorem Builds.isNormal (h : run.Builds folder) : folder.IsNormal := by
  obtain ⟨outDir, rfl, hout⟩ := h.output
  exact (resolveFrom_isResolved hout).browserFolder.isNormal

/-- Each run starts from the files that the run before it left; all else may have changed. -/
def Chained (runs : List BundleRun) : Prop :=
  runs.IsChain fun run next => next.before.files = run.after.files

/-- What the files tell at the start and what each run keeps is told before each run. -/
theorem Chained.invariant {I : Workspace → Prop} (h : Chained runs)
    (hfiles : ∀ v w : Workspace, w.files = v.files → I v → I w)
    (hstep : ∀ run ∈ runs, I run.before → I run.after)
    (hstart : ∀ run ∈ runs.head?, I run.before) : ∀ run ∈ runs, I run.before := by
  induction runs with
  | nil => exact fun _ hm => nomatch hm
  | cons run rest ih =>
    have hfirst : I run.before := hstart run rfl
    have hrest := ih (List.IsChain.tail h) (fun r hr => hstep r (List.mem_cons_of_mem _ hr))
    refine List.forall_mem_cons.2 ⟨hfirst, hrest fun next hnext => ?_⟩
    obtain ⟨rest', rfl⟩ := List.head?_eq_some_iff.1 hnext
    have hsame := (List.isChain_cons_cons.1 h).1
    exact hfiles run.after next.before hsame (hstep run List.mem_cons_self hfirst)

/-- A run whose bundle comes before all others in the folder returns it. -/
theorem Returns.eq_built {found : Text → Option Bytes} {first : Text} {held : Bytes}
    (h : run.Returns folder found first held)
    (hle : ∀ n, (found n).isSome → Text.le run.built n) :
    first = run.built ∧ held = run.content := by
  have hholds := h.holds
  have hfirst := h.isFirst.1
  have hforth := h.isFirst.2 run.built (Option.isSome_of_eq_some hholds)
  have hback := hle first (Option.isSome_of_eq_some hfirst)
  obtain rfl := Text.le_antisymm hforth hback
  exact ⟨rfl, Option.some.inj (hfirst.symm.trans hholds)⟩

/-- The main bundles of a folder are told by the files. -/
theorem bundlesIn_of_files (hd : folder.IsNormal) {v w : Workspace} (h : w.files = v.files) :
    w.bundlesIn folder = v.bundlesIn folder := by
  funext n
  rw [bundlesIn, bundlesIn]
  split
  · next hn =>
    have hdots := ne_dots_of_isMainBundle hn
    rw [contentOf, contentOf, placeOf_child hdots, placeOf_child hdots, placeOf_of_isNormal hd,
      placeOf_of_isNormal hd, h]
  · rfl

/-- The names of the main bundles in a folder all have a certain property. -/
def AllBundles (late : Text → Prop) (folder : Path) (w : Workspace) : Prop :=
  ∀ n, (w.bundlesIn folder n).isSome → late n

/-- The bundles that a run leaves are those it found and the one that it named. -/
theorem Returns.allBundles {late : Text → Prop} {found : Text → Option Bytes} {first : Text}
    {held : Bytes} (h : run.Returns folder found first held) (hspared : ∀ n, run.spared n)
    (hlate : ∀ n, late n → Text.le run.built n)
    (htarget : isMainBundle (bundleName run.name) → late (bundleName run.name))
    (hbefore : AllBundles late folder run.before) :
    (∀ n, (found n).isSome → Text.le run.built n) ∧ AllBundles late folder run.after := by
  have hfound (n : Text) (hne : n ≠ run.built) (hn : (found n).isSome) : late n :=
    hbefore n (h.keeps n (hspared n) hne ▸ hn)
  have hle (n : Text) (hn : (found n).isSome) : Text.le run.built n := by
    by_cases hne : n = run.built
    · exact hne ▸ (Text.le_total n n).elim id id
    · exact hlate n (hfound n hne hn)
  refine ⟨hle, fun n hn => ?_⟩
  obtain ⟨rfl, -⟩ := h.eq_built hle
  rw [h.bundles, renamedBundles] at hn
  split at hn
  · next heq =>
    rw [heq]
    refine htarget ?_
    by_contra hnot
    rw [if_neg hnot] at hn
    cases hn
  · split at hn
    · cases hn
    · next hne => exact hfound n hne hn

/--
The bundles of any row of runs on one folder, whatever it holds at the start. Every run returns the
main bundle that comes first by name among those in the folder when the build is done: the built one,
and what the build spares. All runs return what was built if no build adds or changes further main
bundles, and if neither a bundle that is there at the start nor a name that is asked for comes before
a bundle that is built.
-/
theorem returned_bundles (hruns : ∀ run ∈ runs, run.Builds folder) (hchain : Chained runs)
    (hproper : ∀ run ∈ runs.head?, run.before.files.IsProper) :
    (∀ run ∈ runs, ∃ found first content, run.Returns folder found first content) ∧
    ((∀ run ∈ runs, ∀ n, run.spared n) →
      (∀ run ∈ runs, ∀ start ∈ runs.head?, ∀ n, (start.before.bundlesIn folder n).isSome →
        Text.le run.built n) →
      (∀ run ∈ runs, ∀ other ∈ runs, isMainBundle (bundleName other.name) →
        Text.le run.built (bundleName other.name)) →
      ∀ run ∈ runs, run.result.bundle = some (run.path folder) ∧
        run.after.contentOf (run.path folder) = some run.content) := by
  have hproperAll : ∀ run ∈ runs, run.before.files.IsProper :=
    hchain.invariant (I := fun w => w.files.IsProper) (fun v w h hv => h.symm ▸ hv)
      (fun run hrun hw => ((hruns run hrun).returns hw).2) hproper
  have hreturns : ∀ run ∈ runs, ∃ found first content, run.Returns folder found first content :=
    fun run hrun => ((hruns run hrun).returns (hproperAll run hrun)).1
  refine ⟨hreturns, fun hspared hstart htarget run hrun => ?_⟩
  have hfolder := (hruns run hrun).isNormal
  let late : Text → Prop := fun n => ∀ run ∈ runs, Text.le run.built n
  have hlate : ∀ run ∈ runs, AllBundles late folder run.before := by
    refine hchain.invariant (fun v w h hv n hn => ?_) (fun run hrun hbefore => ?_) ?_
    · rw [bundlesIn_of_files hfolder h] at hn
      exact hv n hn
    · obtain ⟨found, first, held, hr⟩ := hreturns run hrun
      exact (hr.allBundles (hspared run hrun) (fun n hn => hn run hrun)
        (fun h other hother => htarget other hother run hrun h) hbefore).2
    · exact fun start hs n hn run hrun => hstart run hrun start hs n hn
  obtain ⟨found, first, held, hr⟩ := hreturns run hrun
  have hle := (hr.allBundles (hspared run hrun) (fun n hn => hn run hrun)
    (fun h other hother => htarget other hother run hrun h) (hlate run hrun)).1
  obtain ⟨-, rfl⟩ := hr.eq_built hle
  exact ⟨hr.bundle, hr.contentOf⟩

/-- A builder that writes a main bundle and nothing else. -/
def bundleBuilder (built : Text) (content : Bytes) : Builder := fun request => do
  let folder := request.outputPath.child browserFolder
  Action.makeDirs folder
  Action.writeBytes (folder.child built) content
  return { success := true }

theorem bundleBuilder_writesBundle {built : Text} (h : IsBuildName built) (content : Bytes) :
    (bundleBuilder built content).WritesBundle (fun _ => True) built content := by
  refine ⟨h, fun _ _ => trivial, fun request w answer w' hout hbuild => ?_⟩
  have hproper : StaysProper (bundleBuilder built content request) :=
    (StaysProper.makeDirs _).bind fun _ => (StaysProper.writeBytes _ _).bind fun _ => Within.pure _
  have hkeeps := hproper.leaves w
  rw [hbuild] at hkeeps
  obtain ⟨_, v, hdirs, hrest⟩ := outcome_bind_eq_ok.1 hbuild
  obtain ⟨t, hsame, rfl⟩ := makeDirs_eq_ok hdirs
  obtain ⟨_, v', hwrite, hend⟩ := outcome_bind_eq_ok.1 hrest
  obtain ⟨t', ht', rfl⟩ := change_eq_ok.1 hwrite
  obtain ⟨parts, hparts, hwrite⟩ := exceptBind_eq_ok.1 ht'
  obtain ⟨-, rfl⟩ := place_eq_ok.1 hparts
  obtain ⟨hheld, hothers⟩ := FileTree.contentAt_write hwrite
  have hfolder := hout.browserFolder.isNormal
  have hmain := h.isMainBundle
  cases hend
  refine ⟨rfl, rfl, rfl, hkeeps, bundlesIn_eq_some.2 ⟨hmain, hheld⟩, fun n _ hne => ?_⟩
  rw [bundlesIn, bundlesIn]
  split
  · next hn =>
    refine (hothers _ ?_).trans (hsame _)
    exact mt (placeOf_child_inj (ne_dots_of_isMainBundle hn)
      (ne_dots_of_isMainBundle hmain)).1 hne
  · rfl

/-- A configuration that asks for a bundle with the name `app`. -/
def bundleRequest : Configuration where
  root := "/ws"
  elements := some (.list [])
  outputs := ["browser"]
  build := { target := some "app:build", outputFileName := some "app" }

/-- A workspace in which there is a bundle of that name. -/
def rebuiltWorkspace : Workspace :=
  { Workspace.bare with files := .dir [("ws", .dir [("dist", .dir [("browser",
      .dir [("app.js", .file ⟨#[0]⟩)])])])] }

/-- A run that asks for that bundle. -/
def rebuild (built : Text) (content : Bytes) (files : FileTree) (result : GenerationResult)
    (after : Workspace) : BundleRun where
  builder := bundleBuilder built content
  configuration := bundleRequest
  name := "app"
  built := built
  content := content
  spared := fun _ => True
  before := { rebuiltWorkspace with files := files }
  result := result
  after := after

/-- The folder of the bundle. -/
def rebuiltFolder : Path := ⟨.root, ["ws", "dist", "browser"]⟩

theorem rebuild_builds {built : Text} {content : Bytes} {files : FileTree}
    {result : GenerationResult} {after : Workspace} (hname : IsBuildName built)
    (h : (generate (bundleBuilder built content) bundleRequest).outcome
      { rebuiltWorkspace with files := files } = (.ok result, after)) :
    (rebuild built content files result after).Builds rebuiltFolder where
  writes := bundleBuilder_writesBundle hname content
  browser := List.mem_cons_self
  named := rfl
  noSlash := of_decide_eq_false rfl
  output := ⟨⟨.root, ["ws", "dist"]⟩, rfl, rfl⟩
  apart := fun _ hlog => nomatch hlog.choose_spec.1
  answers := h

theorem rebuiltWorkspace_isProper : rebuiltWorkspace.files.IsProper :=
  .one "ws" (.one "dist" (.one "browser" (.one "app.js" (.file _))))

/-- The second of two runs replaces the bundle of the first. -/
theorem returned_bundles_rebuilt : ∃ first second : BundleRun,
    (first.content = ⟨#[1]⟩ ∧ second.content = ⟨#[2]⟩) ∧
    (∀ run ∈ [first, second], run.Builds rebuiltFolder) ∧ Chained [first, second] ∧
    (∀ run ∈ [first, second].head?, run.before.files.IsProper) ∧
    ∀ run ∈ [first, second], run.result.bundle = some (run.path rebuiltFolder) ∧
      run.after.contentOf (run.path rebuiltFolder) = some run.content := by
  have hanswers :
      ((generate (bundleBuilder "main-fff.js" ⟨#[1]⟩) bundleRequest).outcome
        rebuiltWorkspace).1.toOption.isSome ∧
      ((generate (bundleBuilder "main-bbb.js" ⟨#[2]⟩) bundleRequest).outcome
        { rebuiltWorkspace with files := ((generate (bundleBuilder "main-fff.js" ⟨#[1]⟩)
          bundleRequest).outcome rebuiltWorkspace).2.files }).1.toOption.isSome := by
    decide +kernel
  obtain ⟨hfirst, hsecond⟩ := hanswers
  obtain ⟨r, w, hr⟩ := exists_outcome_of_isSome hfirst
  rw [hr] at hsecond
  obtain ⟨r', w', hr'⟩ := exists_outcome_of_isSome hsecond
  let first := rebuild "main-fff.js" ⟨#[1]⟩ rebuiltWorkspace.files r w
  let second := rebuild "main-bbb.js" ⟨#[2]⟩ w.files r' w'
  have hbuilds : first.Builds rebuiltFolder := rebuild_builds (.inr ⟨"fff", rfl⟩) hr
  have hbuilds' : second.Builds rebuiltFolder := rebuild_builds (.inr ⟨"bbb", rfl⟩) hr'
  have hruns : ∀ run ∈ [first, second], run.Builds rebuiltFolder :=
    List.forall_mem_cons.2 ⟨hbuilds, List.forall_mem_singleton.2 hbuilds'⟩
  have hchain : Chained [first, second] := .cons_cons rfl (.singleton second)
  have hproper : ∀ run ∈ [first, second].head?, run.before.files.IsProper := by
    intro run hrun
    obtain rfl := Option.some.inj hrun
    exact rebuiltWorkspace_isProper
  refine ⟨first, second, ⟨rfl, rfl⟩, hruns, hchain, hproper,
    (returned_bundles hruns hchain hproper).2 ?_ ?_ ?_⟩
  · exact List.forall_mem_cons.2 ⟨fun _ => trivial, List.forall_mem_singleton.2 fun _ => trivial⟩
  · intro run _ start hstart n hn
    obtain rfl := Option.some.inj hstart
    obtain ⟨outDir, houtput, hout⟩ := hbuilds.output
    have hfolder : rebuiltFolder.IsResolved := houtput ▸ (resolveFrom_isResolved hout).browserFolder
    have hnone : rebuiltWorkspace.mainBundles rebuiltFolder = [] := by decide +kernel
    have hmem : n ∈ rebuiltWorkspace.mainBundles rebuiltFolder :=
      (mem_mainBundles hfolder rebuiltWorkspace_isProper).2 hn
    rw [hnone] at hmem
    cases hmem
  · have hname : isMainBundle (bundleName "app") = false := by
      unfold bundleName
      split <;> decide
    have hnames : ∀ run ∈ [first, second], isMainBundle (bundleName run.name) = false :=
      List.forall_mem_cons.2 ⟨hname, List.forall_mem_singleton.2 hname⟩
    intro _ _ other hother hmain
    rw [hnames other hother] at hmain
    cases hmain

end BundleRun

end CustomElements
