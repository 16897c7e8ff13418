import CustomElements.Component.Sources
import CustomElements.Proofs.Files.Directories
import CustomElements.Proofs.Files.Outline
import CustomElements.Proofs.Files.ProperTree
import CustomElements.Proofs.FirstMatch
import CustomElements.Proofs.Text.CodePoints

/-!
# What a scan of a directory finds

A scan of a directory tree finds each source file of it once, unless a directory on the way to the
file is passed over. The files of a directory come by name, before those of the directories in it,
which come by name too. What the files hold makes no difference.
-/

namespace CustomElements.FileTree

/-- The order of a scan, on the names of files from the directory that is scanned. -/
inductive ScannedBefore : List Text → List Text → Prop where
  | files {m n : Text} (h : Text.le m n) (hne : m ≠ n) : ScannedBefore [m] [n]
  | above {m n : Text} {ns : List Text} (hns : ns ≠ []) : ScannedBefore [m] (n :: ns)
  | directories {m n : Text} {ms ns : List Text} (hms : ms ≠ []) (hns : ns ≠ [])
      (h : Text.le m n) (hne : m ≠ n) : ScannedBefore (m :: ms) (n :: ns)
  | inside {n : Text} {ms ns : List Text} (h : ScannedBefore ms ns) :
      ScannedBefore (n :: ms) (n :: ns)

variable {t e : FileTree} {es : List (Text × FileTree)} {found : List Found}
variable {ns ms : List Text} {name n m : Text} {content : Bytes}

theorem ScannedBefore.ne (h : ScannedBefore ms ns) : ms ≠ ns := by
  induction h with
  | files _ hne => exact fun h => hne (List.cons.inj h).1
  | above hns => exact fun h => hns (List.cons.inj h).2.symm
  | directories _ _ _ hne => exact fun h => hne (List.cons.inj h).1
  | inside _ ih => exact fun h => ih (List.cons.inj h).2

/-- The names of a file that a scan finds: it is named like a source, and no directory on the way is
passed over. -/
def Scans (ns : List Text) : Prop :=
  ∃ dirs name, ns = dirs ++ [name] ∧ isSourceName name ∧ ∀ d ∈ dirs, isScanned d

theorem not_scans_nil : ¬Scans [] := by
  rintro ⟨dirs, name, h, -⟩
  exact List.cons_ne_nil name [] (List.append_eq_nil_iff.1 h.symm).2

theorem scans_singleton : Scans [name] ↔ isSourceName name := by
  constructor
  · rintro ⟨dirs, n, h, hname, -⟩
    rcases dirs with _ | ⟨d, dirs⟩
    · exact (List.cons.inj h).1 ▸ hname
    · exact absurd (List.append_eq_nil_iff.1 (List.cons.inj h).2.symm).2 (List.cons_ne_nil n [])
  · exact fun h => ⟨[], name, rfl, h, List.forall_mem_nil _⟩

theorem scans_cons (hns : ns ≠ []) : Scans (name :: ns) ↔ isScanned name ∧ Scans ns := by
  constructor
  · rintro ⟨dirs, n, h, hname, hdirs⟩
    rcases dirs with _ | ⟨d, dirs⟩
    · exact absurd (List.cons.inj h).2 hns
    · obtain ⟨rfl, rfl⟩ := List.cons.inj h
      rw [List.forall_mem_cons] at hdirs
      exact ⟨hdirs.1, dirs, n, rfl, hname, hdirs.2⟩
  · rintro ⟨hscanned, dirs, n, rfl, hname, hdirs⟩
    exact ⟨name :: dirs, n, rfl, hname, List.forall_mem_cons.2 ⟨hscanned, hdirs⟩⟩

/-- What a scan finds under one entry. -/
def foundAt (name : Text) (e : FileTree) : Found where
  name := name
  isDir := e.isDir
  files :=
    if e.isDir then if isScanned name then e.sources.map (name :: ·) else []
    else if isSourceName name then [[name]] else []

theorem sourcesIn_eq_map (es : List (Text × FileTree)) :
    sourcesIn es = es.map fun x => foundAt x.1 x.2 := by
  induction es with
  | nil => rw [sourcesIn, List.map_nil]
  | cons x es ih => rw [sourcesIn, ih, List.map_cons, foundAt]

theorem mem_foundAt_file : ns ∈ (foundAt name (file content)).files ↔
    ns = [name] ∧ isSourceName name := by
  rw [foundAt]
  dsimp only [isDir]
  simp only [Bool.false_eq_true, if_false]
  split
  · next h => rw [List.mem_singleton, and_iff_left h]
  · next h => exact iff_of_false List.not_mem_nil fun hns => h hns.2

theorem mem_foundAt_dir : ns ∈ (foundAt name (dir es)).files ↔
    isScanned name ∧ ∃ ms ∈ (dir es).sources, ns = name :: ms := by
  rw [foundAt]
  dsimp only [isDir]
  simp only [if_true]
  split
  · next h =>
    rw [List.mem_map, and_iff_right h]
    simp only [eq_comm]
  · next h => exact iff_of_false List.not_mem_nil fun hns => h hns.1

/-- Sorting and parting leaves out nothing. -/
theorem mem_inScanOrder : ns ∈ inScanOrder found ↔ ∃ f ∈ found, ns ∈ f.files := by
  unfold inScanOrder
  simp only [List.mem_append, List.mem_flatMap, List.mem_filter, List.mem_mergeSort]
  constructor
  · rintro (⟨f, hf, hns⟩ | ⟨f, hf, hns⟩)
    · exact ⟨f, hf.1, hns⟩
    · exact ⟨f, hf.1, hns⟩
  · rintro ⟨f, hf, hns⟩
    cases hdir : f.isDir with
    | false => exact .inl ⟨f, ⟨hf, by rw [hdir]; rfl⟩, hns⟩
    | true => exact .inr ⟨f, ⟨hf, hdir⟩, hns⟩

theorem mem_sources_dir : ns ∈ (dir es).sources ↔ ∃ x ∈ es, ns ∈ (foundAt x.1 x.2).files := by
  rw [sources, mem_inScanOrder, sourcesIn_eq_map]
  simp only [List.mem_map, exists_exists_and_eq_and]

/-- A scan of a proper tree finds the source files of the tree that it comes to. -/
theorem mem_sources (h : t.IsProper) :
    ns ∈ t.sources ↔ Scans ns ∧ ∃ content, t.get? ns = some (file content) := by
  induction ns generalizing t with
  | nil =>
    refine iff_of_false (fun hns => ?_) fun hns => not_scans_nil hns.1
    cases t with
    | file c => rw [sources] at hns; cases hns
    | dir es =>
      obtain ⟨⟨name, e⟩, -, hmem⟩ := mem_sources_dir.1 hns
      cases e with
      | file c => cases (mem_foundAt_file.1 hmem).1
      | dir ds => obtain ⟨-, ms, -, hms⟩ := mem_foundAt_dir.1 hmem; cases hms
  | cons name ns ih =>
    cases t with
    | file c =>
      rw [sources]
      exact iff_of_false List.not_mem_nil fun ⟨_, _, hget⟩ => nomatch hget
    | dir es =>
      rw [mem_sources_dir, get?_dir_cons]
      constructor
      · rintro ⟨⟨n, e⟩, hx, hns⟩
        have hlookup := lookup_of_mem h.distinct hx
        cases e with
        | file c =>
          obtain ⟨heq, hsource⟩ := mem_foundAt_file.1 hns
          obtain ⟨rfl, rfl⟩ := List.cons.inj heq
          rw [hlookup]
          exact ⟨scans_singleton.2 hsource, c, rfl⟩
        | dir ds =>
          obtain ⟨hscanned, ms, hms, heq⟩ := mem_foundAt_dir.1 hns
          obtain ⟨rfl, rfl⟩ := List.cons.inj heq
          obtain ⟨hscans, hget⟩ := (ih (h.inside _ hx)).1 hms
          rw [hlookup]
          have hne : ns ≠ [] := fun hnil => not_scans_nil (hnil ▸ hscans)
          exact ⟨(scans_cons hne).2 ⟨hscanned, hscans⟩, hget⟩
      · rintro ⟨hscans, content, hget⟩
        obtain ⟨e, hlookup, hget⟩ := Option.bind_eq_some_iff.1 hget
        have hx := mem_of_lookup hlookup
        refine ⟨(name, e), hx, ?_⟩
        cases e with
        | file c =>
          obtain ⟨rfl, -⟩ := get?_file hget
          exact mem_foundAt_file.2 ⟨rfl, scans_singleton.1 hscans⟩
        | dir ds =>
          have hne : ns ≠ [] := by
            rintro rfl
            cases hget
          obtain ⟨hscanned, hbelow⟩ := (scans_cons hne).1 hscans
          exact mem_foundAt_dir.2 ⟨hscanned, ns, (ih (h.inside _ hx)).2 ⟨hbelow, content, hget⟩, rfl⟩

/-- The finds under one entry: the entry itself if it is a file, files below it if it is a
directory. -/
structure Found.IsOrdered (f : Found) : Prop where
  own : f.isDir = false → ∀ ns ∈ f.files, ns = [f.name]
  below : f.isDir → ∀ ns ∈ f.files, ∃ ms, ms ≠ [] ∧ ns = f.name :: ms
  ordered : f.files.Pairwise ScannedBefore

theorem isOrdered_foundAt (hnil : [] ∉ e.sources) (h : e.sources.Pairwise ScannedBefore) :
    (foundAt name e).IsOrdered := by
  constructor
  case own =>
    intro hdir ns hns
    cases e with
    | file c => exact (mem_foundAt_file.1 hns).1
    | dir es => cases hdir
  case below =>
    intro hdir ns hns
    cases e with
    | file c => cases hdir
    | dir es =>
      obtain ⟨-, ms, hms, rfl⟩ := mem_foundAt_dir.1 hns
      exact ⟨ms, fun hempty => hnil (hempty ▸ hms), rfl⟩
  case ordered =>
    rw [foundAt]
    dsimp only
    split
    · split
      · exact List.pairwise_map.2 (h.imp fun hbefore => .inside hbefore)
      · exact .nil
    · split
      · exact List.pairwise_singleton _ _
      · exact .nil

/-- The finds under entries with different names are in the order of the scan. -/
theorem pairwise_inScanOrder (hnames : found.Pairwise fun f g => f.name ≠ g.name)
    (h : ∀ f ∈ found, f.IsOrdered) : (inScanOrder found).Pairwise ScannedBefore := by
  have hsorted : (found.mergeSort fun f g => Text.le f.name g.name).Pairwise
      fun f g => Text.le f.name g.name ∧ f.name ≠ g.name := by
    have htrans (f g k : Found) (hfg : Text.le f.name g.name) (hgk : Text.le g.name k.name) :
        Text.le f.name k.name := Text.le_trans hfg hgk
    have htotal (f g : Found) : (Text.le f.name g.name || Text.le g.name f.name) = true := by
      rw [Bool.or_eq_true]
      exact Text.le_total f.name g.name
    refine (List.pairwise_mergeSort htrans htotal found).and ?_
    exact ((List.mergeSort_perm _ _).pairwise_iff fun h => h.symm).2 hnames
  have hfound (keep : Found → Bool) {f : Found}
      (hf : f ∈ (found.mergeSort fun f g => Text.le f.name g.name).filter keep) :
      f.IsOrdered ∧ keep f := by
    rw [List.mem_filter, List.mem_mergeSort] at hf
    exact ⟨h f hf.1, hf.2⟩
  have hparts (keep : Found → Bool)
      (hkeep : ∀ f g : Found, keep f → keep g → f.IsOrdered → g.IsOrdered →
        Text.le f.name g.name → f.name ≠ g.name →
          ∀ ms ∈ f.files, ∀ ns ∈ g.files, ScannedBefore ms ns) :
      (((found.mergeSort fun f g => Text.le f.name g.name).filter keep).flatMap
        Found.files).Pairwise ScannedBefore := by
    refine List.pairwise_flatMap.2 ⟨fun f hf => (hfound keep hf).1.ordered, ?_⟩
    refine (hsorted.filter keep).imp_of_mem fun {f g} hf hg hfg => ?_
    obtain ⟨hf, hkf⟩ := hfound keep hf
    obtain ⟨hg, hkg⟩ := hfound keep hg
    exact hkeep f g hkf hkg hf hg hfg.1 hfg.2
  refine List.pairwise_append.2 ⟨hparts _ ?_, hparts _ ?_, ?_⟩
  · intro f g hkf hkg hf hg hle hne ms hms ns hns
    rw [hf.own (Bool.not_eq_true' _ ▸ hkf) ms hms, hg.own (Bool.not_eq_true' _ ▸ hkg) ns hns]
    exact .files hle hne
  · intro f g hkf hkg hf hg hle hne ms hms ns hns
    obtain ⟨ms, hmsne, rfl⟩ := hf.below hkf ms hms
    obtain ⟨ns, hnsne, rfl⟩ := hg.below hkg ns hns
    exact .directories hmsne hnsne hle hne
  · intro ms hms ns hns
    obtain ⟨f, hf, hms⟩ := List.mem_flatMap.1 hms
    obtain ⟨g, hg, hns⟩ := List.mem_flatMap.1 hns
    obtain ⟨hf, hkf⟩ := hfound _ hf
    obtain ⟨hg, hkg⟩ := hfound _ hg
    obtain ⟨ns, hne, rfl⟩ := hg.below hkg ns hns
    rw [hf.own (Bool.not_eq_true' _ ▸ hkf) ms hms]
    exact .above hne

/-- A scan of a proper tree finds the files in its order, so it finds none of them twice. -/
theorem pairwise_sources (h : t.IsProper) : t.sources.Pairwise ScannedBefore := by
  induction h with
  | file c => rw [sources]; exact .nil
  | @dir es distinct inside ih =>
    rw [sources, sourcesIn_eq_map]
    refine pairwise_inScanOrder ?_ ?_
    · exact List.pairwise_map.2 (List.pairwise_map.1 distinct)
    · rw [List.forall_mem_map]
      intro x hx
      refine isOrdered_foundAt (fun hnil => ?_) (ih x hx)
      exact not_scans_nil ((mem_sources (inside x hx)).1 hnil).1

mutual

/-- A scan does not look into the files. -/
theorem sources_outline (t : FileTree) : t.outline.sources = t.sources := by
  cases t with
  | file c => rw [outline_file, sources, sources]
  | dir es => rw [outline_dir, sources, sources, sourcesIn_outline es]

theorem sourcesIn_outline (es : List (Text × FileTree)) :
    sourcesIn (outlineIn es) = sourcesIn es := by
  cases es with
  | nil => rw [outlineIn]
  | cons x es =>
    obtain ⟨name, e⟩ := x
    rw [outlineIn, sourcesIn, sourcesIn, sources_outline e, isDir_outline, sourcesIn_outline es]

end

end CustomElements.FileTree
