import CustomElements.Build.Bundle
import CustomElements.Proofs.ProjectFile.SearchedParts
import CustomElements.Proofs.Text.CodePoints
import CustomElements.Proofs.Text.LowerCase
import CustomElements.Proofs.Workspace.FolderEntries

/-!
# Main bundles in a folder

A bundle that gets another name keeps the ending of a script, in small letters or capitals. So its
name is that of a file, and never that of a source map.

Among all files of a folder that are named like a main bundle, the one that comes first by its name
is the one that gets another name, whichever build wrote it. The others stay where they are.
-/

namespace CustomElements

open CustomElements.Action

/-! ### The names of bundles -/

/-- A name that builds give to the main bundle: the plain one, or one with a hash. -/
def IsBuildName (name : Text) : Prop :=
  name = "main.js" ∨ ∃ hash : Text, name = "main-" ++ hash ++ ".js"

section Names

variable {name : Text}

/-- A main bundle may have any text between the two ends of its name. -/
theorem isMainBundle_iff : isMainBundle name ↔ ∃ part : Text, name = "main" ++ part ++ ".js" := by
  rw [CustomElements.isMainBundle, Bool.and_eq_true_iff, Text.startsWith, Text.endsWith,
    List.isPrefixOf_iff_prefix, List.isSuffixOf_iff_suffix]
  constructor
  · rintro ⟨⟨tail, rfl⟩, front, hfront⟩
    rcases List.append_eq_append_iff.1 hfront with ⟨part, hmain, hjs⟩ | ⟨part, rfl, rfl⟩
    · -- what both ends share begins with a dot, and there is none in the first end
      cases part with
      | nil => exact ⟨[], hjs ▸ rfl⟩
      | cons c part =>
        have hc : c ∈ ("main" : Text) :=
          hmain ▸ List.mem_append_right front (List.mem_cons_self (l := part))
        have hdot : c = .scalar '.' := (List.cons.inj hjs).1.symm
        exact absurd (hdot ▸ hc) (by decide)
    · exact ⟨part, (List.append_assoc _ part _).symm⟩
  · rintro ⟨part, rfl⟩
    exact ⟨⟨part ++ ".js", (List.append_assoc _ part _).symm⟩, List.suffix_append _ _⟩

theorem IsBuildName.isMainBundle (h : IsBuildName name) : isMainBundle name := by
  rcases h with rfl | ⟨hash, rfl⟩
  · decide
  · exact isMainBundle_iff.2 ⟨"-" ++ hash, rfl⟩

theorem getLast?_of_isMainBundle (h : isMainBundle name) : name.getLast? = some (.scalar 's') := by
  obtain ⟨-, hend⟩ := Bool.and_eq_true_iff.1 h
  obtain ⟨front, rfl⟩ := List.isSuffixOf_iff_suffix.1 hend
  exact List.getLast?_append_of_ne_nil front (List.cons_ne_nil _ _)

theorem isMainBundle_map (name : Text) : isMainBundle (name ++ ".map") = false := by
  rw [Bool.eq_false_iff]
  intro h
  have hlast := getLast?_of_isMainBundle h
  rw [List.getLast?_append_of_ne_nil name (by decide)] at hlast
  revert hlast
  decide

theorem ne_map_of_isMainBundle (h : isMainBundle name) (other : Text) : name ≠ other ++ ".map" := by
  rintro rfl
  rw [isMainBundle_map] at h
  cases h

theorem ne_dots_of_isMainBundle (h : isMainBundle name) : name ≠ ".." := by
  rintro rfl
  cases h

/-- In lower case, the name that a bundle gets ends like a script. -/
theorem endsWith_lower_bundleName (name : Text) : Text.endsWith (bundleName name).lower ".js" := by
  unfold bundleName
  split
  · next h => exact h
  · have hplain : ∀ p ∈ (".js" : Text), p.IsPlain := by decide
    obtain ⟨front, hfront⟩ := Text.lower_append hplain name
    rw [hfront, Text.endsWith, List.isSuffixOf_iff_suffix]
    exact List.suffix_append _ _

/-- So it has no other plain ending. -/
theorem bundleName_ne_append {tail : Text} (h : ∀ p ∈ tail, p.IsPlain) (hlen : 3 ≤ tail.length)
    (hend : Text.endsWith tail ".js" = false) (name other : Text) :
    bundleName name ≠ other ++ tail := by
  intro heq
  obtain ⟨front, hfront⟩ := Text.lower_append h other
  have hscript := endsWith_lower_bundleName name
  rw [heq, hfront, Text.endsWith, List.isSuffixOf_iff_suffix] at hscript
  have htail := List.suffix_of_suffix_length_le hscript (List.suffix_append front tail) hlen
  rw [← List.isSuffixOf_iff_suffix] at htail
  exact Bool.false_ne_true (hend.symm.trans htail)

/-- No bundle gets the name of a source map. -/
theorem bundleName_ne_map (name other : Text) : bundleName name ≠ other ++ ".map" :=
  bundleName_ne_append (by decide) (by decide) (by decide) name other

/-- Neither does it get a name that stands for a directory. -/
theorem bundleName_plain (name : Text) : bundleName name ∉ [([] : Text), ".", ".."] := by
  have hplain : ∀ t ∈ [([] : Text), ".", ".."], ∀ p ∈ t, p.IsPlain := by decide
  have hnone : ∀ t ∈ [([] : Text), ".", ".."], Text.endsWith t ".js" = false := by decide
  intro hm
  have hlower := Text.lowerAfter_of_isPlain (hplain _ hm) []
  have hscript := endsWith_lower_bundleName name
  rw [Text.lower, hlower, hnone _ hm] at hscript
  cases hscript

theorem noSlash_bundleName (h : .scalar '/' ∉ name) : .scalar '/' ∉ bundleName name := by
  unfold bundleName
  split
  · exact h
  · rw [List.mem_append, not_or]
    exact ⟨h, by decide⟩

/-- The path of a name that is that of a file. -/
theorem Path.ofText_name (hslash : .scalar '/' ∉ name) (hplain : name ∉ [([] : Text), ".", ".."]) :
    Path.ofText name = ⟨.here, [name]⟩ := by
  have hsplit := Text.splitOn_of_not_mem hslash
  rw [ofText_of_isPlain, hsplit]
  rw [hsplit]
  exact List.forall_mem_singleton.2 hplain

theorem map_plain (name : Text) : name ++ ".map" ∉ [([] : Text), ".", ".."] := by
  intro hm
  have hlast : (name ++ (".map" : Text)).getLast? = some (.scalar 'p') :=
    List.getLast?_append_of_ne_nil name (List.cons_ne_nil _ _)
  have hnone : ∀ t ∈ [([] : Text), ".", ".."], t.getLast? ≠ some (.scalar 'p') := by decide
  exact hnone _ hm hlast

end Names

/-! ### The bundles of a folder -/

/-- An absolute path without two dots, all of whose names a file can have. -/
structure Path.IsResolved (p : Path) : Prop where
  isNormal : p.IsNormal
  accepted : ∀ name ∈ p.parts, Workspace.checkName name = .ok ()

namespace Workspace

variable {w w' : Workspace} {p d base : Path} {name : Text} {content : Bytes}

theorem resolve_isResolved (h : w.resolve p = .ok d) : d.IsResolved := by
  refine ⟨resolve_isNormal h, fun name hname => ?_⟩
  obtain ⟨haccepted, rfl⟩ := resolve_eq_ok.1 h
  exact haccepted name (Path.normalParts_subset _ hname)

theorem resolveFrom_isResolved (h : w.resolveFrom base p = .ok d) : d.IsResolved := by
  obtain ⟨q, -, hresolve⟩ := exceptBind_eq_ok.1 h
  exact resolve_isResolved hresolve

theorem place_of_isResolved (h : p.IsResolved) (w : Workspace) : w.place p = .ok p.parts := by
  rw [place_eq_ok, Path.join_of_fromRoot h.isNormal.fromRoot]
  exact ⟨h.accepted, rfl⟩

theorem entryAt?_of_isResolved (h : p.IsResolved) (w : Workspace) :
    w.entryAt? p = w.files.get? p.parts := by
  rw [entryAt?, place_of_isResolved h]
  exact FileTree.stat_eq_get? h.isNormal.noDots

theorem placeOf_of_isNormal (h : p.IsNormal) (w : Workspace) : w.placeOf p = p.parts := by
  rw [placeOf, h.normal_eq]

/-- The main bundles of a folder, with their contents. -/
def bundlesIn (w : Workspace) (folder : Path) (name : Text) : Option Bytes :=
  if isMainBundle name then w.contentOf (folder.child name) else none

theorem bundlesIn_eq_some : w.bundlesIn d name = some content ↔
    isMainBundle name ∧ w.contentOf (d.child name) = some content := by
  rw [bundlesIn]
  split <;> simp_all

theorem mem_mainBundles_iff_entry :
    name ∈ w.mainBundles d ↔ isMainBundle name ∧ ∃ c, (name, .file c) ∈ w.entries d := by
  rw [mainBundles, List.mem_mergeSort, List.mem_map]
  constructor
  · rintro ⟨⟨n, e⟩, hmem, rfl⟩
    obtain ⟨hentry, hcond⟩ := List.mem_filter.1 hmem
    obtain ⟨hfile, hbundle⟩ := Bool.and_eq_true_iff.1 hcond
    cases e with
    | dir es => cases hfile
    | file c => exact ⟨hbundle, c, hentry⟩
  · rintro ⟨hbundle, c, hentry⟩
    exact ⟨(name, .file c), List.mem_filter.2 ⟨hentry, Bool.and_eq_true_iff.2 ⟨rfl, hbundle⟩⟩, rfl⟩

/-- The entries of a folder in a proper tree that are main bundles. -/
theorem mem_mainBundles_iff (hw : w.files.IsProper) :
    name ∈ w.mainBundles d ↔ w.isDir d ∧ (w.bundlesIn d name).isSome := by
  rw [mem_mainBundles_iff_entry, Option.isSome_iff_exists]
  constructor
  · rintro ⟨hbundle, c, hentry⟩
    obtain ⟨hdir, hc⟩ := (mem_entries_file_iff (ne_dots_of_isMainBundle hbundle) hw).1 hentry
    exact ⟨hdir, c, bundlesIn_eq_some.2 ⟨hbundle, hc⟩⟩
  · rintro ⟨hdir, c, hc⟩
    obtain ⟨hbundle, hc⟩ := bundlesIn_eq_some.1 hc
    exact ⟨hbundle, c, (mem_entries_file_iff (ne_dots_of_isMainBundle hbundle) hw).2 ⟨hdir, hc⟩⟩

/-- A folder without two dots in its path can be reached when there is a file in it. -/
theorem mem_mainBundles (hd : d.IsResolved) (hw : w.files.IsProper) :
    name ∈ w.mainBundles d ↔ (w.bundlesIn d name).isSome := by
  rw [mem_mainBundles_iff hw, and_iff_right_iff_imp]
  intro hname
  obtain ⟨c, hc⟩ := Option.isSome_iff_exists.1 hname
  obtain ⟨hbundle, hc⟩ := bundlesIn_eq_some.1 hc
  have hfile := FileTree.get?_of_contentAt hc
  rw [placeOf_child (ne_dots_of_isMainBundle hbundle), placeOf_of_isNormal hd.isNormal] at hfile
  obtain ⟨es, -, hg, -, -⟩ := FileTree.dir_of_get? hfile
  exact isDir_iff.2 ⟨es, (entryAt?_of_isResolved hd w).trans hg⟩

end Workspace

/-- The main bundle whose name comes first. -/
def IsFirstBundle (bundles : Text → Option Bytes) (first : Text) (content : Bytes) : Prop :=
  bundles first = some content ∧ ∀ name, (bundles name).isSome → Text.le first name

/-- The main bundles when one of them has another name, under which there may have been another. -/
def renamedBundles (bundles : Text → Option Bytes) (first target : Text) (name : Text) :
    Option Bytes :=
  if name = target then (if isMainBundle target then bundles first else none)
  else if name = first then none
  else bundles name

section Renaming

variable {w w' : Workspace} {p q d : Path} {content : Bytes}

open Workspace

/-- The first main bundle of a folder comes before all others. -/
theorem le_of_head?_mainBundles {first : Text} (h : (w.mainBundles d).head? = some first) :
    first ∈ w.mainBundles d ∧ ∀ other ∈ w.mainBundles d, Text.le first other := by
  rw [mainBundles] at h ⊢
  obtain ⟨hin, hle⟩ := Text.le_of_head?_mergeSort h
  exact ⟨List.mem_mergeSort.2 hin, fun other hother => hle other (List.mem_mergeSort.1 hother)⟩

theorem exists_first (hd : d.IsResolved) (hw : w.files.IsProper)
    (h : ∃ name, (w.bundlesIn d name).isSome) :
    ∃ first content, (w.mainBundles d).head? = some first ∧
      IsFirstBundle (w.bundlesIn d) first content := by
  obtain ⟨name, hname⟩ := h
  have hmem := (mem_mainBundles hd hw).2 hname
  obtain ⟨first, hfirst⟩ := Option.isSome_iff_exists.1
    (List.isSome_head?.2 (List.ne_nil_of_mem hmem))
  obtain ⟨hbundle, hle⟩ := le_of_head?_mainBundles hfirst
  obtain ⟨content, hc⟩ := Option.isSome_iff_exists.1 ((mem_mainBundles hd hw).1 hbundle)
  exact ⟨first, content, hfirst, hc,
    fun other hother => hle other ((mem_mainBundles hd hw).2 hother)⟩

/-- A file that is renamed is moved, or there is a fault and it is not. -/
theorem rename_outcome (hp : w.contentOf p = some content) :
    (∃ f, (Action.rename p q).outcome w = (.error f, w)) ∨
      ∃ t, w.files.Moved (w.placeOf p) (w.placeOf q) content t ∧
        (Action.rename p q).outcome w = (.ok ⟨⟩, { w with files := t }) := by
  rw [Action.rename, outcome_change]
  split
  · next t ht =>
    obtain ⟨origin, horigin, ht⟩ := exceptBind_eq_ok.1 ht
    obtain ⟨place, hplace, hrename⟩ := exceptBind_eq_ok.1 ht
    obtain ⟨-, rfl⟩ := place_eq_ok.1 horigin
    obtain ⟨-, rfl⟩ := place_eq_ok.1 hplace
    exact .inr ⟨t, FileTree.moved_of_rename hrename hp, rfl⟩
  · exact .inl ⟨_, rfl⟩

/-- What moving a file makes of the tree if it is there; nothing changes if it is not. -/
inductive MovesFile (w : Workspace) (p q : Path) : FileTree → Prop where
  | file {content : Bytes} {t : FileTree} (isFile : w.isFile p)
      (held : w.contentOf p = some content)
      (moved : w.files.Moved (w.placeOf p) (w.placeOf q) content t) : MovesFile w p q t
  | none (noFile : ¬w.isFile p) : MovesFile w p q w.files

/-- All other files stay as they are. -/
theorem MovesFile.others {t : FileTree} (h : MovesFile w p q t) :
    ∀ names, names ≠ w.placeOf p → names ≠ w.placeOf q →
      t.contentAt names = w.files.contentAt names := by
  cases h with
  | file _ _ moved => exact moved.others
  | none => exact fun _ _ _ => rfl

/-- A file that is renamed if it is there, before the rest is done. -/
theorem rename_if_file {α : Type} (w : Workspace) (p q : Path) (rest : Action α) :
    (∃ f, (if w.isFile p then Action.rename p q >>= fun _ => rest else rest).outcome w =
      (.error f, w)) ∨
    ∃ t, MovesFile w p q t ∧
      (if w.isFile p then Action.rename p q >>= fun _ => rest else rest).outcome w =
        rest.outcome { w with files := t } := by
  by_cases hfile : w.isFile p
  · obtain ⟨c, hc⟩ := contentOf_of_isFile hfile
    rw [if_pos hfile]
    rcases rename_outcome (q := q) hc with ⟨f, hf⟩ | ⟨t, hmoved, ht⟩
    · exact .inl ⟨f, outcome_bind_error hf _⟩
    · exact .inr ⟨t, .file hfile hc hmoved, outcome_bind_ok ht _⟩
  · rw [if_neg hfile]
    exact .inr ⟨w.files, .none hfile, rfl⟩

/-- Which main bundles there are when one of them was moved. -/
theorem bundlesIn_of_moved {first target : Text} (hfirst : w.bundlesIn d first = some content)
    (hheld : w'.contentOf (d.child target) = some content)
    (hgone : first ≠ target → w'.contentOf (d.child first) = none)
    (hothers : ∀ n, isMainBundle n → n ≠ first → n ≠ target →
      w'.contentOf (d.child n) = w.contentOf (d.child n)) :
    w'.bundlesIn d = renamedBundles (w.bundlesIn d) first target := by
  funext n
  by_cases hn : isMainBundle n
  · rw [bundlesIn, if_pos hn, renamedBundles]
    by_cases heq : n = target
    · subst heq
      rw [if_pos rfl, if_pos hn, hheld, hfirst]
    · rw [if_neg heq]
      by_cases hone : n = first
      · subst hone
        rw [if_pos rfl]
        exact hgone heq
      · rw [if_neg hone, bundlesIn, if_pos hn]
        exact hothers n hn hone heq
  · have hnone (v : Workspace) : v.bundlesIn d n = none := if_neg hn
    rw [hnone, renamedBundles]
    split
    · next heq => rw [if_neg (heq ▸ hn)]
    · rw [hnone, ite_self]

/-- The path in a folder that the text of a file name leads to. -/
theorem join_ofText {name : Text} (hslash : .scalar '/' ∉ name)
    (hplain : name ∉ [([] : Text), ".", ".."]) (d : Path) :
    d.join (.ofText name) = d.child name := by
  rw [Path.ofText_name hslash hplain]
  rfl

theorem join_bundleName {name : Text} (hslash : .scalar '/' ∉ name) (d : Path) :
    d.join (.ofText (bundleName name)) = d.child (bundleName name) :=
  join_ofText (noSlash_bundleName hslash) (bundleName_plain name) d

theorem join_bundleName_map {name : Text} (hslash : .scalar '/' ∉ name) (d : Path) :
    d.join (.ofText (bundleName name ++ ".map")) = d.child (bundleName name ++ ".map") := by
  refine join_ofText ?_ (map_plain (bundleName name)) d
  rw [List.mem_append, not_or]
  exact ⟨noSlash_bundleName hslash, by decide⟩

theorem ne_dots_of_plain {name : Text} (h : name ∉ [([] : Text), ".", ".."]) : name ≠ ".." := by
  rintro rfl
  exact h (by decide)

/-- The folder whose first main bundle gets another name, and that bundle. -/
def Workspace.bundleToName (w : Workspace) (outDir : Path) : Option (Path × Text) :=
  [outDir.child browserFolder, outDir].findSome? fun d => (w.mainBundles d).head?.map fun b => (d, b)

/-- Without a main bundle, no file changes. -/
theorem renameBundle_of_none {outDir : Path} (name : Text)
    (hnone : w.bundleToName outDir = none) :
    ∃ r, (renameBundle outDir name).outcome w = (.ok none, w.note r) := by
  rw [bundleToName] at hnone
  rw [renameBundle, outcome_get_bind]
  simp only [hnone]
  exact ⟨_, rfl⟩

/-- A main bundle is moved to its new path in its folder, and then its source map, if there is one.
Neither move is undone when there is a fault. -/
theorem renameBundle_of_some {outDir : Path} {first : Text} (name : Text)
    (hsome : w.bundleToName outDir = some (d, first))
    (hcontent : w.contentOf (d.child first) = some content) :
    let target := d.join (.ofText (bundleName name))
    (∃ f, (renameBundle outDir name).outcome w = (.error f, w)) ∨
    ∃ t, w.files.Moved (w.placeOf (d.child first)) (w.placeOf target) content t ∧
      ((∃ f, (renameBundle outDir name).outcome w = (.error f, { w with files := t })) ∨
      ∃ t' r, MovesFile { w with files := t } (d.child (first ++ ".map"))
          (d.join (.ofText (bundleName name ++ ".map"))) t' ∧
        (renameBundle outDir name).outcome w =
          (.ok (some target), ({ w with files := t' } : Workspace).note r)) := by
  intro target
  rw [bundleToName] at hsome
  rw [renameBundle, outcome_get_bind]
  simp only [hsome]
  rcases rename_outcome (q := target) hcontent with ⟨f, hf⟩ | ⟨t, hmoved, ht⟩
  · exact .inl ⟨f, outcome_bind_error hf _⟩
  · refine .inr ⟨t, hmoved, ?_⟩
    rw [outcome_bind_ok ht, outcome_get_bind]
    rcases rename_if_file { w with files := t } (d.child (first ++ ".map"))
      (d.join (.ofText (bundleName name ++ ".map"))) _ with ⟨f, hf⟩ | ⟨t', hmap, ht'⟩
    · exact .inl ⟨f, hf⟩
    · exact .inr ⟨t', _, hmap, ht'⟩

/-- An answer about a main bundle comes after both moves. -/
theorem renameBundle_moved {outDir : Path} {name first : Text} {bundle : Option Path}
    (hsome : w.bundleToName outDir = some (d, first))
    (hcontent : w.contentOf (d.child first) = some content)
    (h : (renameBundle outDir name).outcome w = (.ok bundle, w')) :
    let target := d.join (.ofText (bundleName name))
    bundle = some target ∧ ∃ (t t' : FileTree) (r : LogRecord),
      w' = ({ w with files := t' } : Workspace).note r ∧
      w.files.Moved (w.placeOf (d.child first)) (w.placeOf target) content t ∧
      MovesFile { w with files := t } (d.child (first ++ ".map"))
        (d.join (.ofText (bundleName name ++ ".map"))) t' := by
  intro target
  rcases renameBundle_of_some name hsome hcontent with
    ⟨f, hf⟩ | ⟨t, hmoved, ⟨f, hf⟩ | ⟨t', r, hmap, hend⟩⟩
  · cases hf.symm.trans h
  · cases hf.symm.trans h
  · cases hend.symm.trans h
    exact ⟨rfl, t, t', r, rfl, hmoved, hmap⟩

/-- Giving the first main bundle of the browser folder another name, and its source map too. -/
theorem renameBundle_eq_ok {outDir : Path} {name : Text} {bundle : Option Path}
    (hd : (outDir.child browserFolder).IsResolved) (hw : w.files.IsProper)
    (hslash : .scalar '/' ∉ name)
    (hfound : ∃ n, (w.bundlesIn (outDir.child browserFolder) n).isSome)
    (hlog : ∀ n, ¬w.LogsTo (w.placeOf ((outDir.child browserFolder).child n)))
    (h : (renameBundle outDir name).outcome w = (.ok bundle, w')) :
    let folder := outDir.child browserFolder
    ∃ first content, IsFirstBundle (w.bundlesIn folder) first content ∧
      bundle = some (folder.child (bundleName name)) ∧
      w'.contentOf (folder.child (bundleName name)) = some content ∧
      w'.bundlesIn folder = renamedBundles (w.bundlesIn folder) first (bundleName name) ∧
      w'.current = w.current ∧ w'.logFile = w.logFile := by
  intro folder
  obtain ⟨first, content, hhead, hfirst⟩ := exists_first hd hw hfound
  obtain ⟨hmain, hcontent⟩ := bundlesIn_eq_some.1 hfirst.1
  have hchosen : w.bundleToName outDir = some (folder, first) := by
    rw [bundleToName, List.findSome?_cons, hhead]
    rfl
  obtain ⟨hbundle, t, t', r, rfl, hmoved, hmap⟩ := renameBundle_moved hchosen hcontent h
  rw [join_bundleName hslash] at hbundle hmoved
  rw [join_bundleName_map hslash] at hmap
  have hplain := ne_dots_of_plain (bundleName_plain name)
  have hdots := ne_dots_of_isMainBundle hmain
  -- only names of source maps are concerned by what happens to the source map
  have hafter (n : Text) (hn : n ≠ "..") (hne : ∀ other : Text, n ≠ other ++ ".map") :
      (({ w with files := t' } : Workspace).note r).contentOf (folder.child n) =
        t.contentAt (w.placeOf (folder.child n)) :=
    (contentAt_note (w := { w with files := t' }) (hlog n) r).trans <| hmap.others _
      (mt (placeOf_child_inj hn (ne_dots_of_plain (map_plain first))).1 (hne first))
      (mt (placeOf_child_inj hn (ne_dots_of_plain (map_plain (bundleName name)))).1
        (hne (bundleName name)))
  have hheld := (hafter _ hplain (bundleName_ne_map name)).trans hmoved.held
  refine ⟨first, content, hfirst, hbundle, hheld,
    bundlesIn_of_moved hfirst.1 hheld (fun hne => ?_) fun n hn hone heq => ?_, rfl, rfl⟩
  · rw [hafter first hdots (ne_map_of_isMainBundle hmain)]
    exact hmoved.contentAt_origin (mt (placeOf_child_inj hdots hplain).1 hne)
  · have hn' := ne_dots_of_isMainBundle hn
    rw [hafter n hn' (ne_map_of_isMainBundle hn)]
    exact hmoved.others _ (mt (placeOf_child_inj hn' hdots).1 hone)
      (mt (placeOf_child_inj hn' hplain).1 heq)

end Renaming

end CustomElements
