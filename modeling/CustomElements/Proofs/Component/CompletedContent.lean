import CustomElements.Proofs.Component.CompletedFile
import CustomElements.Proofs.Workspace.FolderEntries

/-!
# What a completed file holds

What a file holds after a completion depends on what it held before, and on nothing else
(`completedContent`). A completion can be asked for again and again: it is settled after the first
time if what was written is read as a text that lacks nothing (`Settles`).
-/

namespace CustomElements

open TypeScript (Node Dialect parse?)
open Action Workspace

/-! ### Characters -/

/-- The characters of a source text with all runs. A text that does not follow the grammar stays as
it is. -/
def completedChars (dialect : Dialect) (source : List Char) : List Char :=
  match parse? dialect source with
  | some tree => ((insertAll (metadataRuns tree) (.ofChars source)).chars?).getD source
  | none => source

/-- The metadata of each class of a source text can be read. -/
def CanComplete (dialect : Dialect) (source : List Char) : Prop :=
  ∀ tree, parse? dialect source = some tree →
    ∀ c ∈ describedClasses tree, c.metadata.node.Readable

/-- In each literal of a source text the search for a comma finds the one of the literal, and the
completed text is read as what it is. -/
def Settles (dialect : Dialect) (source : List Char) : Prop :=
  ∀ tree, parse? dialect source = some tree →
    (∀ c ∈ incompleteClasses tree, c.metadata.node.FindsOwnComma) ∧
      parse? dialect (completedTree tree).text = some (completedTree tree)

section Characters

variable {dialect : Dialect} {source : List Char} {tree : Node}

theorem completedChars_of_unparsed (h : parse? dialect source = none) :
    completedChars dialect source = source := by
  rw [completedChars, h]

theorem ofChars_completedChars (h : parse? dialect source = some tree) :
    Text.ofChars (completedChars dialect source) =
      insertAll (metadataRuns tree) (.ofChars source) := by
  have hsorted := (metadataRuns_sorted h).imp fun hlt => Nat.le_of_lt hlt
  have hencoded := ofText?_insertAll hsorted (fun r hr => metadataRuns_inside h hr)
    fun r hr => metadataRuns_chars hr
  obtain ⟨cs, hcs, -⟩ := Option.map_eq_some_iff.1 hencoded
  rw [completedChars, h]
  dsimp only
  rw [hcs, Option.getD_some, Text.eq_ofChars_of_chars? hcs]

theorem completion_of_canComplete (hcan : CanComplete dialect source) (w : Workspace) :
    completion dialect source w = .ok (.ofChars (completedChars dialect source)) := by
  cases h : parse? dialect source with
  | none =>
    rw [completion, completeMetadata, h, completedChars_of_unparsed h]
    rfl
  | some tree =>
    obtain ⟨t, ht⟩ := (completion_ok_iff h w).2 (hcan tree h)
    rw [ht, ofChars_completedChars h, completion_eq h ht]

/-- A text is its own completion exactly if nothing is missing in it. -/
theorem completedChars_eq_self_iff (hcan : CanComplete dialect source) :
    completedChars dialect source = source ↔
      ∀ tree, parse? dialect source = some tree → LacksNothing tree := by
  cases h : parse? dialect source with
  | none => exact iff_of_true (completedChars_of_unparsed h) nofun
  | some tree =>
    have hsource := completion_eq_source_iff h (completion_of_canComplete hcan Workspace.bare)
    rw [Text.ofChars_injective.eq_iff] at hsource
    rw [hsource]
    constructor
    · rintro hempty _ ⟨⟩
      exact lacksNothing_iff.2 ⟨hcan tree h, hempty⟩
    · exact fun hnone => (lacksNothing_iff.1 (hnone tree rfl)).2

theorem canComplete_of_lacksNothing
    (hnone : ∀ tree, parse? dialect source = some tree → LacksNothing tree) :
    CanComplete dialect source :=
  fun tree h => (lacksNothing_iff.1 (hnone tree h)).1

theorem no_return_completedChars (h : '\r' ∉ source) : '\r' ∉ completedChars dialect source := by
  cases hparse : parse? dialect source with
  | none => rwa [completedChars_of_unparsed hparse]
  | some tree =>
    intro hr
    have hmem : CodePoint.scalar '\r' ∈ Text.ofChars (completedChars dialect source) :=
      List.mem_map_of_mem hr
    rw [ofChars_completedChars hparse] at hmem
    exact no_return_insertAll h hmem

/-- A text that settles lacks nothing once it has been completed. -/
theorem Settles.lacksNothing (hs : Settles dialect source) (hcan : CanComplete dialect source)
    {tree' : Node} (h : parse? dialect (completedChars dialect source) = some tree') :
    LacksNothing tree' := by
  cases hparse : parse? dialect source with
  | none =>
    rw [completedChars_of_unparsed hparse, hparse] at h
    cases h
  | some tree =>
    obtain ⟨hown, hagain⟩ := hs tree hparse
    have hpreserves :=
      preserves_of_completion hparse (completion_of_canComplete hcan Workspace.bare)
    have htext : (completedTree tree).text = completedChars dialect source :=
      Text.ofChars_injective ((completedTree_text hparse hown).trans hpreserves.atOnce.symm)
    rw [htext, h] at hagain
    obtain rfl := Option.some.inj hagain
    exact completedTree_lacks_nothing hparse (hcan tree hparse) hown

/-- A text that settles is completed once. -/
theorem Settles.completedChars_idem (hs : Settles dialect source)
    (hcan : CanComplete dialect source) :
    completedChars dialect (completedChars dialect source) = completedChars dialect source := by
  have hnone : ∀ tree', parse? dialect (completedChars dialect source) = some tree' →
      LacksNothing tree' := fun _ => hs.lacksNothing hcan
  exact (completedChars_eq_self_iff (canComplete_of_lacksNothing hnone)).2 hnone

end Characters

theorem canComplete_smallFile : CanComplete .plain smallFile := fun _ htree =>
  (completion_ok_iff htree Workspace.bare).1 completion_smallFile

theorem settles_smallFile : Settles .plain smallFile := by
  intro tree htree
  obtain rfl := Option.some.inj (parse?_smallFile.symm.trans htree)
  exact ⟨findsOwnComma_smallTree, by decide +kernel⟩

/-! ### Bytes -/

/-- The characters that a file is read as, its line ends unified. -/
def Bytes.source? (content : Bytes) : Option (List Char) := content.chars?.map unifyLineEnds

/-- What a file holds after it has been completed. A file in which nothing is missing, and one that
is no text, holds what it held. -/
def completedContent (dialect : Dialect) (content : Bytes) : Bytes :=
  match content.source? with
  | some source =>
    if completedChars dialect source = source then content
    else Bytes.ofChars (completedChars dialect source)
  | none => content

section Bytes

variable {dialect : Dialect} {content : Bytes} {source : List Char}

theorem no_return_of_source? (h : content.source? = some source) : '\r' ∉ source := by
  obtain ⟨cs, -, rfl⟩ := Option.map_eq_some_iff.1 h
  exact not_mem_unifyLineEnds cs

theorem source?_ofChars {cs : List Char} (h : '\r' ∉ cs) :
    (Bytes.ofChars cs).source? = some cs := by
  rw [Bytes.source?, Bytes.chars?_ofChars, Option.map_some, unifyLineEnds_eq_self_iff.2 h]

/-- A completed file is read as the completed text. -/
theorem source?_completedContent (h : content.source? = some source) :
    (completedContent dialect content).source? = some (completedChars dialect source) := by
  rw [completedContent, h]
  dsimp only
  split
  · next hsame => rw [h, hsame]
  · exact source?_ofChars (no_return_completedChars (no_return_of_source? h))

theorem completedContent_eq_self_iff (h : content.source? = some source) :
    completedContent dialect content = content ↔ completedChars dialect source = source := by
  constructor
  · intro hsame
    have hread : (completedContent dialect content).source? = some (completedChars dialect source) :=
      source?_completedContent h
    rw [hsame, h] at hread
    exact (Option.some.inj hread).symm
  · intro hsame
    rw [completedContent, h]
    exact if_pos hsame

theorem completedContent_of_new (h : content.source? = some source)
    (hnew : completedChars dialect source ≠ source) :
    completedContent dialect content = Bytes.ofChars (completedChars dialect source) := by
  rw [completedContent, h]
  exact if_neg hnew

/-- A file whose text settles is completed once. -/
theorem Settles.completedContent_idem (h : content.source? = some source)
    (hs : Settles dialect source) (hcan : CanComplete dialect source) :
    completedContent dialect (completedContent dialect content) =
      completedContent dialect content :=
  (completedContent_eq_self_iff (source?_completedContent h)).2 (hs.completedChars_idem hcan)

end Bytes

/-! ### Files -/

namespace FileTree

/-- Whether a file can be read, and why not, shows in the outline. -/
theorem outline_read (t : FileTree) (parts : List Text) :
    t.outline.read parts = (t.read parts).map fun _ => ByteArray.empty := by
  rw [read, read, stat_outline]
  rcases t.stat parts with f | (content | es)
  · rfl
  · dsimp only [Except.map, bind, Except.bind]
    rw [outline_file]
  · dsimp only [Except.map, bind, Except.bind]
    rw [outline_dir]

/-- Two dots lead to a directory. -/
theorem read_dots_ne_ok (t : FileTree) (before : List Text) (content : Bytes) :
    t.read (before ++ [("..": Text)]) ≠ .ok content := by
  intro h
  obtain ⟨place, hwalk, hget⟩ := read_eq_ok.1 h
  rw [walk_append, exceptBind_eq_ok] at hwalk
  obtain ⟨current, -, hstep⟩ := hwalk
  obtain ⟨es, hes, ⟨-, hstep⟩ | ⟨hdots, -⟩⟩ := walk_cons_eq_ok.1 hstep
  · obtain rfl := Except.ok.inj hstep
    rcases current.eq_nil_or_concat' with rfl | ⟨above, last, rfl⟩
    · rw [List.dropLast_nil, hes] at hget
      cases hget
    · obtain ⟨_, _, habove, -⟩ := dir_of_get? hes
      rw [List.dropLast_concat, habove] at hget
      cases hget
  · exact absurd rfl hdots

end FileTree

/-- What files hold, by the names from the root. -/
abbrev Holdings := List Text → Option Bytes

namespace Workspace

/-- What files hold once the file of a path has been completed. -/
def holdWith (w : Workspace) (held : Holdings) (p : Path) : Holdings := fun names =>
  if names = w.placeOf p then (held names).map (completedContent p.dialect) else held names

/-- A workspace with the same files and directories as another one, in which the files hold what is
given, but for the log file. -/
structure Rewritten (w : Workspace) (held : Holdings) (v : Workspace) : Prop where
  outline : v.files.outline = w.files.outline
  held : ∀ names, ¬w.LogsTo names → v.files.contentAt names = held names
  current : v.current = w.current
  logFile : v.logFile = w.logFile

variable {w v u : Workspace} {held held' : Holdings} {p : Path} {content : Bytes}
  {source : List Char} {f : Fault}

/-- A text is read exactly if the file can be read and is a text. -/
theorem readText_eq_ok : w.readText p = .ok source ↔
    ∃ content, w.read p = .ok content ∧ content.source? = some source := by
  rw [readText, exceptBind_eq_ok]
  refine exists_congr fun content => and_congr_right fun _ => ?_
  rw [Bytes.source?]
  cases content.chars? with
  | none => exact iff_of_false nofun nofun
  | some cs =>
    rw [Option.map_some, Option.some.injEq]
    exact ⟨Except.ok.inj, congrArg Except.ok⟩

namespace Rewritten

theorem refl (w : Workspace) : Rewritten w w.files.contentAt w := ⟨rfl, fun _ _ => rfl, rfl, rfl⟩

theorem placeOf (h : Rewritten w held v) (p : Path) : v.placeOf p = w.placeOf p :=
  placeOf_congr h.current p

theorem logsTo (h : Rewritten w held v) (names : List Text) : v.LogsTo names ↔ w.LogsTo names :=
  logsTo_iff_of_eq h.current h.logFile names

theorem trans (h : Rewritten w held v) (h' : Rewritten v held' u) : Rewritten w held' u :=
  ⟨h'.outline.trans h.outline, fun names hnames => h'.held names (mt (h.logsTo names).1 hnames),
    h'.current.trans h.current, h'.logFile.trans h.logFile⟩

/-- A path leads to a file that can be read, or to nothing else than before. -/
theorem read_map (h : Rewritten w held v) (p : Path) :
    (v.read p).map (fun _ => ByteArray.empty) = (w.read p).map fun _ => ByteArray.empty := by
  have hplace : v.place p = w.place p := by rw [place, place, h.current]
  rw [read, read, hplace]
  cases w.place p with
  | error f => rfl
  | ok parts =>
    change (v.files.read parts).map _ = (w.files.read parts).map _
    rw [← FileTree.outline_read, ← FileTree.outline_read, h.outline]

/-- A file that could be read is read as what it holds by now. -/
theorem read_eq_ok (h : Rewritten w held v) (hlog : ¬w.LogsTo (w.placeOf p))
    (hread : w.read p = .ok content) :
    ∃ content', v.read p = .ok content' ∧ held (w.placeOf p) = some content' := by
  have hmap := h.read_map p
  rw [hread] at hmap
  cases hv : v.read p with
  | error f =>
    rw [hv] at hmap
    cases hmap
  | ok content' =>
    have hcontent := contentAt_of_read hv
    rw [h.placeOf, h.held _ hlog] at hcontent
    exact ⟨content', rfl, hcontent⟩

theorem read_eq_error (h : Rewritten w held v) : v.read p = .error f ↔ w.read p = .error f := by
  have hmap := h.read_map p
  generalize v.read p = r at hmap ⊢
  generalize w.read p = r' at hmap ⊢
  cases r <;> cases r' <;> cases hmap
  · rfl
  · exact iff_of_false nofun nofun

end Rewritten

end Workspace

section Files

variable {w : Workspace} {p q : Path} {content content' : Bytes} {source : List Char} {f : Fault}

/-- A file is found under the last name of its path. -/
theorem lastName_of_read (hhere : w.isDir ⟨.here, []⟩) (h : w.read p = .ok content) :
    ∃ name, p.parts.getLast? = some name ∧ (w.placeOf p).getLast? = some name := by
  have hheld := contentAt_of_read h
  obtain ⟨es, hes⟩ := isDir_iff.1 hhere
  have hdir := get?_of_entryAt? hes
  obtain ⟨anchor, names⟩ := p
  rcases names.eq_nil_or_concat' with rfl | ⟨before, name, rfl⟩
  · by_cases hanchor : anchor = .here
    · subst hanchor
      rw [FileTree.contentAt, placeOf, hdir] at hheld
      cases hheld
    · have hroot : w.placeOf ⟨anchor, []⟩ = [] := by
        rw [placeOf, Path.normal, Path.join, if_pos (by simpa [Path.isAbsolute] using hanchor)]
        rfl
      rw [hroot] at hheld
      have hfile : w.files = .file content := Option.some.inj (FileTree.get?_of_contentAt hheld)
      rw [hfile] at hdir
      cases (FileTree.get?_file hdir).2
  · have hdots : name ≠ ".." := by
      rintro rfl
      obtain ⟨parts, hplace, hfile⟩ := exceptBind_eq_ok.1 h
      rw [(place_eq_ok.1 hplace).2] at hfile
      have hparts := join_child_parts w.current ⟨anchor, before⟩ ".."
      exact FileTree.read_dots_ne_ok _ _ content (hparts ▸ hfile)
    have hplace := placeOf_child hdots w ⟨anchor, before⟩
    exact ⟨name, List.getLast?_concat, (congrArg List.getLast? hplace).trans List.getLast?_concat⟩

/-- Paths to one file are of one dialect. -/
theorem dialect_of_placeOf (hhere : w.isDir ⟨.here, []⟩) (hp : w.read p = .ok content)
    (hq : w.read q = .ok content') (hplace : w.placeOf q = w.placeOf p) :
    q.dialect = p.dialect := by
  obtain ⟨name, hname, hlast⟩ := lastName_of_read hhere hp
  obtain ⟨name', hname', hlast'⟩ := lastName_of_read hhere hq
  rw [hplace, hlast] at hlast'
  obtain rfl := Option.some.inj hlast'
  have hsame : q.name = p.name := by rw [Path.name, Path.name, hname, hname']
  rw [Path.dialect, Path.dialect, Path.suffix, Path.suffix, hsame]

/-- A file in which nothing is missing is left alone, and so is one that does not follow the
grammar. -/
theorem completeFile_of_settled (hsource : w.readText p = .ok source)
    (hnone : ∀ tree, parse? p.dialect source = some tree → LacksNothing tree) :
    (completeFile p).outcome w = (.ok false, w) := by
  cases h : parse? p.dialect source with
  | some tree => exact completeFile_of_lacksNothing hsource h (hnone tree h)
  | none =>
    rw [completeFile, outcome_get_bind, hsource]
    dsimp only
    rw [completeMetadata, h]
    dsimp only
    rw [outcome_bind_ok (outcome_pure _ w), if_pos rfl]
    rfl

/-- A file whose metadata can be read is completed. The answer tells whether that changed it. -/
theorem completeFile_of_canComplete (hread : w.read p = .ok content)
    (hsource : content.source? = some source) (hlog : ¬w.LogsTo (w.placeOf p))
    (hcan : CanComplete p.dialect source) :
    ∃ v, (completeFile p).outcome w =
        (.ok (!decide (completedChars p.dialect source = source)), v) ∧
      Rewritten w (w.holdWith w.files.contentAt p) v ∧
      v = { w with files := v.files, log := v.log, stderr := v.stderr } := by
  have hheld := contentAt_of_read hread
  have htext : w.readText p = .ok source := readText_eq_ok.2 ⟨content, hread, hsource⟩
  by_cases hnew : completedChars p.dialect source = source
  · have hsame := (completedContent_eq_self_iff hsource).2 hnew
    refine ⟨w, ?_, ⟨rfl, fun names _ => ?_, rfl, rfl⟩, rfl⟩
    · rw [decide_eq_true hnew]
      exact completeFile_of_settled htext ((completedChars_eq_self_iff hcan).1 hnew)
    · rw [holdWith]
      split
      · next heq => rw [heq, hheld, Option.map_some, hsame]
      · rfl
  · obtain ⟨tree, htree⟩ := Option.ne_none_iff_exists'.1 (mt completedChars_of_unparsed hnew)
    have hcompleted := completeMetadata_outcome htree w
    rw [completion_of_canComplete hcan] at hcompleted
    obtain ⟨v, houtcome, hv, houtline, hwritten, hothers⟩ :=
      completeFile_of_new hread htext hlog hcompleted hnew
    refine ⟨v, ?_, ⟨houtline, fun names hnames => ?_, by rw [hv], by rw [hv]⟩, hv⟩
    · rw [houtcome, decide_eq_false hnew]
      rfl
    · rw [holdWith]
      split
      · next heq => rw [heq, hwritten, hheld, Option.map_some, completedContent_of_new hsource hnew]
      · next hne => exact hothers names hne hnames

/-- A file with metadata that cannot be read is left alone. -/
theorem completeFile_of_cannotComplete (hsource : w.readText p = .ok source)
    (hcan : ¬CanComplete p.dialect source) :
    ∃ f rs, (completeFile p).outcome w = (.error (.fault f), w.report rs) := by
  obtain ⟨tree, hcan⟩ := not_forall.1 hcan
  obtain ⟨htree, hunreadable⟩ := Classical.not_imp.1 hcan
  exact completeFile_of_unreadable hsource htree hunreadable

/-- The failure that a file which cannot be read is: a mistake, unless no file can have its path. -/
def unreadFailure (p : Path) : Fault → Failure
  | .unencodable => .fault .unencodable
  | .badValue => .fault .badValue
  | _ => .mistake (.sourceUnreadable p)

/-- A file that cannot be read is left alone. -/
theorem completeFile_of_unread (h : w.readText p = .error f) :
    (completeFile p).outcome w = (.error (unreadFailure p f), w) := by
  rw [completeFile, outcome_get_bind, h]
  cases f <;> rfl

end Files

end CustomElements
