import CustomElements.Proofs.Build.BundleFolder

/-!
# Moving the main bundle

A bundle that gets its name is moved to that name in the folder it is in, and so is its source map,
if there is one. Each of them replaces the file that had the new name before. Nothing else changes
in the tree of files, whether some of these names are the same or not.

Builds call the main bundle `main.js` or `main-` with a hash. But any file of the folder whose name
has these two ends is taken for it, whatever is between them. So the file that is moved has a name
that builds give exactly if such a file comes before all others with these ends.
-/

namespace CustomElements

open CustomElements.Action Workspace

/-! ### The move -/

/-- The folder whose main bundle gets its name: that for browsers, if there is one in it. -/
def Workspace.bundleFolder (w : Workspace) (outDir : Path) : Path :=
  if w.mainBundles (outDir.child browserFolder) = [] then outDir else outDir.child browserFolder

/-- A main bundle of a folder was moved to another name, and its source map with it. -/
structure BundleMoved (w : Workspace) (d : Path) (first target : Text) (t : FileTree) : Prop where
  bundle : ∃ content, w.contentOf (d.child first) = some content ∧
    t.contentAt (w.placeOf (d.child target)) = some content
  bundleGone : first ≠ target → t.get? (w.placeOf (d.child first)) = none
  sourceMap : w.isFile (d.child (first ++ ".map")) →
    ∃ content, w.contentOf (d.child (first ++ ".map")) = some content ∧
      t.contentAt (w.placeOf (d.child (target ++ ".map"))) = some content
  sourceMapGone : w.isFile (d.child (first ++ ".map")) → first ≠ target →
    t.get? (w.placeOf (d.child (first ++ ".map"))) = none
  others : ∀ names, names ≠ w.placeOf (d.child first) → names ≠ w.placeOf (d.child target) →
    (w.isFile (d.child (first ++ ".map")) → names ≠ w.placeOf (d.child (first ++ ".map")) ∧
      names ≠ w.placeOf (d.child (target ++ ".map"))) →
    t.contentAt names = w.files.contentAt names
  directories : ∀ names, t.hasDir names = w.files.hasDir names

section Moving

variable {w w' : Workspace} {outDir d : Path} {first name : Text} {bundle : Option Path}
variable {content : Bytes} {t t' : FileTree}

theorem placeOf_child_ne {other : Text} (hn : name ≠ "..") (ho : other ≠ "..")
    (hne : name ≠ other) : w.placeOf (d.child name) ≠ w.placeOf (d.child other) :=
  mt (placeOf_child_inj hn ho).1 hne

theorem map_inj {other : Text} : name ++ ".map" = other ++ ".map" ↔ name = other :=
  List.append_left_inj _

/-- The two moves together. -/
theorem bundleMoved (hmain : isMainBundle first)
    (hcontent : w.contentOf (d.child first) = some content)
    (hmoved : w.files.Moved (w.placeOf (d.child first)) (w.placeOf (d.child (bundleName name)))
      content t)
    (hmap : MovesFile { w with files := t } (d.child (first ++ ".map"))
      (d.child (bundleName name ++ ".map")) t') : BundleMoved w d first (bundleName name) t' := by
  have hdots := ne_dots_of_isMainBundle hmain
  have hplain := ne_dots_of_plain (bundleName_plain name)
  have hmapDots (other : Text) : other ++ ".map" ≠ ".." := ne_dots_of_plain (map_plain other)
  -- the first move does not touch the source map, nor does the second one touch the bundle
  have hfirst (other : Text) := placeOf_child_ne (w := w) (d := d) hdots (hmapDots other)
    (ne_map_of_isMainBundle hmain other)
  have htarget (other : Text) := placeOf_child_ne (w := w) (d := d) hplain (hmapDots other)
    (bundleName_ne_map name other)
  have hmapSame : t.contentAt (w.placeOf (d.child (first ++ ".map"))) =
      w.contentOf (d.child (first ++ ".map")) :=
    hmoved.others _ (hfirst first).symm (htarget first).symm
  have hisFile : ({ w with files := t } : Workspace).isFile (d.child (first ++ ".map")) ↔
      w.isFile (d.child (first ++ ".map")) :=
    isFile_child_congr (hmapDots first) rfl hmoved.directories hmapSame
  cases hmap with
  | none hnone =>
    have hnoMap : ¬w.isFile (d.child (first ++ ".map")) := mt hisFile.2 hnone
    exact {
      bundle := ⟨content, hcontent, hmoved.held⟩
      bundleGone := fun hne => hmoved.gone (placeOf_child_ne hdots hplain hne)
      sourceMap := fun h => absurd h hnoMap
      sourceMapGone := fun h => absurd h hnoMap
      others := fun names hone htwo _ => hmoved.others names hone htwo
      directories := hmoved.directories }
  | @file held _ hfile hheld hmapMoved =>
    have hother (names : List Text) (hone : names ≠ w.placeOf (d.child (first ++ ".map")))
        (htwo : names ≠ w.placeOf (d.child (bundleName name ++ ".map"))) :
        t'.contentAt names = t.contentAt names := hmapMoved.others names hone htwo
    have hdirectories (names : List Text) : t'.hasDir names = w.files.hasDir names :=
      (hmapMoved.directories names).trans (hmoved.directories names)
    exact {
      bundle := ⟨content, hcontent, (hother _ (htarget _) (htarget _)).trans hmoved.held⟩
      bundleGone := fun hne => FileTree.get?_eq_none_of_same (hother _ (hfirst _) (hfirst _))
        (hmapMoved.directories _) (hmoved.gone (placeOf_child_ne hdots hplain hne))
      sourceMap := fun _ => ⟨held, hmapSame.symm.trans hheld, hmapMoved.held⟩
      sourceMapGone := fun _ hne =>
        hmapMoved.gone (placeOf_child_ne (hmapDots _) (hmapDots _) (mt map_inj.1 hne))
      others := fun names hone htwo hmaps =>
        (hother names (hmaps (hisFile.1 hfile)).1 (hmaps (hisFile.1 hfile)).2).trans
          (hmoved.others names hone htwo)
      directories := hdirectories }

theorem bundleToName_eq (w : Workspace) (outDir : Path) : w.bundleToName outDir =
    (w.mainBundles (w.bundleFolder outDir)).head?.map fun b => (w.bundleFolder outDir, b) := by
  rw [bundleToName, bundleFolder, List.findSome?_cons, List.findSome?_singleton]
  cases hbundles : w.mainBundles (outDir.child browserFolder) with
  | nil => rfl
  | cons first rest =>
    rw [if_neg (List.cons_ne_nil _ _), hbundles]
    rfl

theorem bundleToName_eq_none (h : w.bundleToName outDir = none) :
    ∀ d ∈ [outDir.child browserFolder, outDir], w.mainBundles d = [] := by
  intro d hd
  exact List.head?_eq_none_iff.1 (Option.map_eq_none_iff.1 (List.findSome?_eq_none_iff.1 h d hd))

/--
Every answer about the main bundle, for any name without a slash. With a path, the first bundle of
its folder and its source map are moved to the new names, and no other file is touched, wherever the
old and the new names meet. Without one there is no main bundle, and nothing is touched. The file
that log records are added to is the only exception.
-/
theorem renameBundle_moves (hw : w.files.IsProper) (hslash : .scalar '/' ∉ name)
    (h : (renameBundle outDir name).outcome w = (.ok bundle, w')) :
    ∃ (t : FileTree) (r : LogRecord), w' = ({ w with files := t } : Workspace).note r ∧
      (∀ names, ¬w.LogsTo names → w'.files.contentAt names = t.contentAt names) ∧
      (∀ names, w'.files.hasDir names = t.hasDir names) ∧
      (bundle = none →
        t = w.files ∧ ∀ d ∈ [outDir.child browserFolder, outDir], w.mainBundles d = []) ∧
      ∀ p, bundle = some p → p = (w.bundleFolder outDir).child (bundleName name) ∧
        ∃ first ∈ w.mainBundles (w.bundleFolder outDir),
          (∀ other ∈ w.mainBundles (w.bundleFolder outDir), Text.le first other) ∧
          BundleMoved w (w.bundleFolder outDir) first (bundleName name) t := by
  cases hfound : w.bundleToName outDir with
  | none =>
    obtain ⟨r, hr⟩ := renameBundle_of_none name hfound
    cases hr.symm.trans h
    exact ⟨w.files, r, rfl, fun names hlog => contentAt_note hlog r, w.hasDir_note r,
      fun _ => ⟨rfl, bundleToName_eq_none hfound⟩, fun _ hp => nomatch hp⟩
  | some found =>
    have hchosen := hfound
    rw [bundleToName_eq, Option.map_eq_some_iff] at hchosen
    obtain ⟨first, hhead, rfl⟩ := hchosen
    obtain ⟨hmem, hle⟩ := le_of_head?_mainBundles hhead
    obtain ⟨content, hc⟩ := Option.isSome_iff_exists.1 ((mem_mainBundles_iff hw).1 hmem).2
    obtain ⟨hmain, hcontent⟩ := bundlesIn_eq_some.1 hc
    obtain ⟨rfl, t, t', r, rfl, hmoved, hmap⟩ := renameBundle_moved hfound hcontent h
    rw [join_bundleName hslash] at hmoved
    rw [join_bundleName_map hslash] at hmap
    refine ⟨t', r, rfl, fun names hlog => contentAt_note (w := { w with files := t' }) hlog r,
      ({ w with files := t' } : Workspace).hasDir_note r, (fun hp => nomatch hp), fun p hp => ?_⟩
    obtain rfl := Option.some.inj hp
    exact ⟨join_bundleName hslash _, first, hmem, hle, bundleMoved hmain hcontent hmoved hmap⟩

/-- A workspace with a main bundle and its source map, and a bundle of an earlier build. -/
def bundledWorkspace : Workspace :=
  { Workspace.bare with files := .dir [("ws", .dir [("dist", .dir [("elements.js", .file ⟨#[0]⟩),
      ("main.js", .file ⟨#[1]⟩), ("main.js.map", .file ⟨#[2]⟩)])])] }

/-- The bundle replaces the earlier one, and its source map comes with it. -/
theorem renameBundle_moves_both : bundledWorkspace.files.IsProper ∧
    .scalar '/' ∉ ("elements" : Text) ∧ ∃ bundle w',
      (renameBundle "/ws/dist" "elements").outcome bundledWorkspace = (.ok bundle, w') ∧
      bundle = some "/ws/dist/elements.js" ∧
      w'.files.contentAt ["ws", "dist", "elements.js"] = some ⟨#[1]⟩ ∧
      w'.files.contentAt ["ws", "dist", "elements.js.map"] = some ⟨#[2]⟩ := by
  have hproper : bundledWorkspace.files.IsProper := by
    refine .one "ws" (.one "dist" (.dir (by decide) ?_))
    simp only [List.forall_mem_cons]
    exact ⟨.file _, .file _, .file _, fun _ h => nomatch h⟩
  have hslash : .scalar '/' ∉ ("elements" : Text) := by decide
  have hsome : ((renameBundle "/ws/dist" "elements").outcome
      bundledWorkspace).1.toOption.isSome := by decide +kernel
  obtain ⟨bundle, w', h⟩ := exists_outcome_of_isSome hsome
  obtain ⟨t, r, rfl, hsame, -, hnone, hbundle⟩ := renameBundle_moves hproper hslash h
  have hfolder : bundledWorkspace.bundleFolder "/ws/dist" = "/ws/dist" := by decide +kernel
  have hbundles : bundledWorkspace.mainBundles "/ws/dist" = [("main.js" : Text)] := by
    decide +kernel
  cases bundle with
  | none =>
    have hempty := (hnone rfl).2 "/ws/dist" (List.mem_cons_of_mem _ (List.mem_singleton_self _))
    rw [hbundles] at hempty
    cases hempty
  | some p =>
    obtain ⟨rfl, first, hfirst, -, hmoved⟩ := hbundle p rfl
    rw [hfolder] at hfirst hmoved
    rw [hbundles, List.mem_singleton] at hfirst
    subst hfirst
    have hlog (names : List Text) : ¬bundledWorkspace.LogsTo names := fun hl =>
      nomatch hl.choose_spec.1
    have hplace : bundledWorkspace.placeOf (Path.child "/ws/dist" (bundleName "elements")) =
        (["ws", "dist", "elements.js"] : List Text) := by decide +kernel
    have hmapPlace : bundledWorkspace.placeOf
        (Path.child "/ws/dist" (bundleName "elements" ++ ".map")) =
          (["ws", "dist", "elements.js.map"] : List Text) := by decide +kernel
    have hcontent : bundledWorkspace.contentOf (Path.child "/ws/dist" "main.js") = some ⟨#[1]⟩ := by
      decide +kernel
    have hmapContent : bundledWorkspace.contentOf (Path.child "/ws/dist" ("main.js" ++ ".map")) =
        some ⟨#[2]⟩ := by decide +kernel
    obtain ⟨content, hc, hheld⟩ := hmoved.bundle
    obtain ⟨map, hmap, hmapHeld⟩ := hmoved.sourceMap (by decide +kernel)
    rw [hplace, ← hc, hcontent] at hheld
    rw [hmapPlace, ← hmap, hmapContent] at hmapHeld
    refine ⟨hproper, hslash, _, _, h, by decide +kernel, ?_, ?_⟩
    · exact (hsame _ (hlog _)).trans hheld
    · exact (hsame _ (hlog _)).trans hmapHeld

end Moving

/-! ### The file that is moved -/

variable {w w' : Workspace} {outDir : Path} {name first : Text} {bundles : List Text}

/-- The first of some bundles has a name that builds give if such a one is before all others. -/
theorem isBuildName_iff_of_first (hmem : first ∈ bundles)
    (hle : ∀ other ∈ bundles, Text.le first other) :
    IsBuildName first ↔ ∃ n ∈ bundles, IsBuildName n ∧
      ∀ other ∈ bundles, ¬IsBuildName other → Text.le n other := by
  constructor
  · exact fun h => ⟨first, hmem, h, fun other hother _ => hle other hother⟩
  · rintro ⟨n, hn, hbuild, hbefore⟩
    by_contra hnot
    obtain rfl := Text.le_antisymm (hle n hn) (hbefore first hmem hnot)
    exact hnot hbuild

/-- Without a main bundle to be moved, there is no file with both ends in either folder. -/
theorem bundleToName_eq_none_iff : w.bundleToName outDir = none ↔
    ∀ d ∈ [outDir.child browserFolder, outDir], ∀ (part : Text) (content : Bytes),
      ("main" ++ part ++ ".js", FileTree.file content) ∉ w.entries d := by
  constructor
  · intro h d hd part content hentry
    have hmem := mem_mainBundles_iff_entry.2 ⟨isMainBundle_iff.2 ⟨part, rfl⟩, content, hentry⟩
    rw [bundleToName_eq_none h d hd] at hmem
    cases hmem
  · intro h
    refine List.findSome?_eq_none_iff.2 fun d hd => Option.map_eq_none_iff.2 ?_
    refine List.head?_eq_none_iff.2 (List.eq_nil_iff_forall_not_mem.2 fun n hn => ?_)
    obtain ⟨hbundle, content, hentry⟩ := mem_mainBundles_iff_entry.1 hn
    obtain ⟨part, rfl⟩ := isMainBundle_iff.1 hbundle
    exact h d hd part content hentry

/--
The file that is moved, for every content of both folders and any name, however it ends. There is an
answer without a bundle, and no file is changed, exactly if neither folder has a file whose name
begins with `main` and ends in `.js`. Else such a file is the only one that is moved, apart from the
source map; and its name is one that builds give if and only if the folder has a file with such a
name that comes before all those with both ends that have another name.
-/
theorem taken_bundle_isBuildName_iff {answer : Except Failure (Option Path)}
    (hw : w.files.IsProper) (h : (renameBundle outDir name).outcome w = (answer, w')) :
    (answer = .ok none ↔ ∀ d ∈ [outDir.child browserFolder, outDir], ∀ (part : Text)
      (content : Bytes), ("main" ++ part ++ ".js", FileTree.file content) ∉ w.entries d) ∧
    (answer = .ok none → ∃ r, w' = w.note r) ∧
    (answer ≠ .ok none → ∃ (part : Text) (content : Bytes),
      let d := w.bundleFolder outDir
      let first := "main" ++ part ++ ".js"
      let target := bundleName name
      (first, .file content) ∈ w.entries d ∧
      ((∃ f, answer = .error f) ∧ w' = w ∨
        ∃ t, w.files.Moved (w.placeOf (d.child first)) (w.placeOf (d.join (.ofText target)))
          content t ∧
          ∀ names, ¬w.LogsTo names → names ≠ w.placeOf (d.child (first ++ ".map")) →
            names ≠ w.placeOf (d.join (.ofText (target ++ ".map"))) →
            w'.files.contentAt names = t.contentAt names) ∧
      (IsBuildName first ↔ ∃ n ∈ w.mainBundles d, IsBuildName n ∧
        ∀ other ∈ w.mainBundles d, ¬IsBuildName other → Text.le n other)) := by
  cases hfound : w.bundleToName outDir with
  | none =>
    obtain ⟨r, hr⟩ := renameBundle_of_none name hfound
    cases hr.symm.trans h
    exact ⟨iff_of_true rfl (bundleToName_eq_none_iff.1 hfound), fun _ => ⟨r, rfl⟩,
      fun hne => absurd rfl hne⟩
  | some found =>
    have hnot := mt bundleToName_eq_none_iff.2 (hfound ▸ Option.some_ne_none found)
    have hchosen := hfound
    rw [bundleToName_eq, Option.map_eq_some_iff] at hchosen
    obtain ⟨first, hhead, rfl⟩ := hchosen
    obtain ⟨hmem, hle⟩ := le_of_head?_mainBundles hhead
    obtain ⟨hmain, content, hentry⟩ := mem_mainBundles_iff_entry.1 hmem
    obtain ⟨-, hcontent⟩ := (mem_entries_file_iff (ne_dots_of_isMainBundle hmain) hw).1 hentry
    obtain ⟨part, rfl⟩ := isMainBundle_iff.1 hmain
    have hbuild := isBuildName_iff_of_first hmem hle
    rcases renameBundle_of_some name hfound hcontent with
      ⟨f, hf⟩ | ⟨t, hmoved, ⟨f, hf⟩ | ⟨t', r, hmap, hend⟩⟩
    · cases hf.symm.trans h
      exact ⟨iff_of_false nofun hnot, nofun,
        fun _ => ⟨part, content, hentry, .inl ⟨⟨f, rfl⟩, rfl⟩, hbuild⟩⟩
    · cases hf.symm.trans h
      exact ⟨iff_of_false nofun hnot, nofun,
        fun _ => ⟨part, content, hentry, .inr ⟨t, hmoved, fun _ _ _ _ => rfl⟩, hbuild⟩⟩
    · cases hend.symm.trans h
      refine ⟨iff_of_false nofun hnot, nofun,
        fun _ => ⟨part, content, hentry, .inr ⟨t, hmoved, fun names hlog hone htwo => ?_⟩, hbuild⟩⟩
      have hnote := contentAt_note (w := { w with files := t' }) hlog r
      exact hnote.trans (hmap.others names hone htwo)

/-- A workspace with no bundle of a build, but with another script. -/
def maintainedWorkspace : Workspace :=
  { Workspace.bare with files := .dir [("ws", .dir [("dist", .dir [
      ("maintenance.js", .file ⟨#[1]⟩), ("polyfills.js", .file ⟨#[2]⟩)])])] }

/-- The other script is taken for the bundle and moved. -/
theorem taken_bundle_isBuildName_iff_maintenance : maintainedWorkspace.files.IsProper ∧
    ∃ answer w', (renameBundle "/ws/dist" "elements").outcome maintainedWorkspace = (answer, w') ∧
      answer ≠ .ok none ∧ ¬IsBuildName "maintenance.js" ∧
      w'.files.contentAt ["ws", "dist", "elements.js"] = some ⟨#[1]⟩ := by
  have hproper : maintainedWorkspace.files.IsProper := by
    refine .one "ws" (.one "dist" (.dir (by decide) ?_))
    simp only [List.forall_mem_cons]
    exact ⟨.file _, .file _, fun _ h => nomatch h⟩
  have hfolder : maintainedWorkspace.bundleFolder "/ws/dist" = "/ws/dist" := by decide +kernel
  have hbundles : maintainedWorkspace.mainBundles "/ws/dist" = [("maintenance.js" : Text)] := by
    decide +kernel
  obtain ⟨bundle, w', h⟩ := exists_outcome_of_isSome
    (a := renameBundle "/ws/dist" "elements") (w := maintainedWorkspace) (by decide +kernel)
  obtain ⟨hnone, -, htaken⟩ := taken_bundle_isBuildName_iff hproper h
  have hsome : Except.ok bundle ≠ (.ok none : Except Failure (Option Path)) := by
    intro heq
    have hentry : (("main" ++ "tenance" ++ ".js" : Text), FileTree.file ⟨#[1]⟩) ∈
        maintainedWorkspace.entries "/ws/dist" := List.mem_cons_self
    exact hnone.1 heq "/ws/dist" (List.mem_cons_of_mem _ List.mem_cons_self) "tenance" _ hentry
  obtain ⟨part, content, hentry, hmoved, hbuild⟩ := htaken hsome
  have hfirst : "main" ++ part ++ ".js" = ("maintenance.js" : Text) := by
    have hmem := mem_mainBundles_iff_entry.2 ⟨isMainBundle_iff.2 ⟨part, rfl⟩, content, hentry⟩
    rwa [hfolder, hbundles, List.mem_singleton] at hmem
  rw [hfolder, hfirst] at hentry hmoved hbuild
  rw [hbundles] at hbuild
  have hcontent := ((mem_entries_file_iff (by decide) hproper).1 hentry).2
  refine ⟨hproper, _, w', h, hsome, ?_, ?_⟩
  · rintro (hplain | ⟨hash, hhash⟩)
    · exact absurd hplain (by decide)
    · have hletter : some (CodePoint.scalar 't') = some (.scalar '-') :=
        congrArg (fun n : Text => n[4]?) hhash
      exact absurd hletter (by decide)
  · obtain ⟨⟨f, hf⟩, -⟩ | ⟨t, hmoved, hsame⟩ := hmoved
    · cases hf
    · have hlog (names : List Text) : ¬maintainedWorkspace.LogsTo names := fun hl =>
        nomatch hl.choose_spec.1
      have hheld : maintainedWorkspace.contentOf (Path.child "/ws/dist" "maintenance.js") =
          some ⟨#[1]⟩ := by decide +kernel
      have htarget : maintainedWorkspace.placeOf
          (Path.join "/ws/dist" (.ofText (bundleName "elements"))) =
            (["ws", "dist", "elements.js"] : List Text) := by decide +kernel
      have hkept := hsame ["ws", "dist", "elements.js"] (hlog _) (by decide +kernel)
        (by decide +kernel)
      rw [hkept, ← htarget, hmoved.held, ← hcontent, hheld]

end CustomElements
