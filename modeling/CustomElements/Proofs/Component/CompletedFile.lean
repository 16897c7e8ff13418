import CustomElements.Proofs.Component.CompletedText
import CustomElements.Proofs.Workspace.Reports
import CustomElements.Proofs.Workspace.Storing

/-!
# Completing a file

A file is read with its line ends unified, and what is written into it is the completed text. So a
file that lacks no metadata list is left as it is, and a file that lacks some keeps all its text
exactly if it holds no carriage return: the runs can be removed again, but the line ends are lost.
A call that fails has written nothing.
-/

namespace CustomElements

open TypeScript (Node Dialect parse?)
open Action Workspace

/-! ### Line ends -/

theorem not_mem_unifyLineEnds (cs : List Char) : '\r' ∉ unifyLineEnds cs := by
  fun_induction unifyLineEnds cs with
  | case1 r ih => simpa using ih
  | case2 r _ ih => simpa using ih
  | case3 c r _ hc ih => exact fun h => (List.mem_cons.1 h).elim (fun heq => hc heq.symm) ih
  | case4 => exact List.not_mem_nil

/-- Nothing but carriage returns is changed. -/
theorem unifyLineEnds_eq_self_iff {cs : List Char} : unifyLineEnds cs = cs ↔ '\r' ∉ cs := by
  refine ⟨fun h => h ▸ not_mem_unifyLineEnds cs, fun h => ?_⟩
  fun_induction unifyLineEnds cs with
  | case1 r ih => exact absurd List.mem_cons_self h
  | case2 r _ ih => exact absurd List.mem_cons_self h
  | case3 c r _ _ ih => rw [ih fun hr => h (List.mem_cons_of_mem c hr)]
  | case4 => rfl

/-! ### Runs -/

namespace Text

theorem ofChars_injective : Function.Injective ofChars := fun cs ds h => by
  have hchars := congrArg chars? h
  rwa [chars?_ofChars, chars?_ofChars, Option.some.injEq] at hchars

/-- A row of pieces holds what its pieces and its separators hold. -/
theorem mem_join {sep : Text} {pieces : List Text} {p : CodePoint} (h : p ∈ join sep pieces) :
    p ∈ sep ∨ ∃ t ∈ pieces, p ∈ t := by
  cases pieces with
  | nil => cases h
  | cons t pieces =>
    rw [join_cons, List.mem_append, List.mem_flatMap] at h
    rcases h with h | ⟨u, hu, h⟩
    · exact .inr ⟨t, List.mem_cons_self, h⟩
    · exact (List.mem_append.1 h).imp_right fun hp => ⟨u, List.mem_cons_of_mem t hu, hp⟩

end Text

/-- A text with insertions holds what the text and the insertions hold. -/
theorem mem_insertAll {is : List Insertion} {s : Text} {p : CodePoint} (h : p ∈ insertAll is s) :
    p ∈ s ∨ ∃ i ∈ is, p ∈ i.text := by
  induction is with
  | nil => exact .inl h
  | cons i is ih =>
    have hrest (hp : p ∈ insertAll is s) : p ∈ s ∨ ∃ j ∈ i :: is, p ∈ j.text :=
      (ih hp).imp_right fun ⟨j, hj, hpj⟩ => ⟨j, List.mem_cons_of_mem i hj, hpj⟩
    rw [insertAll_cons, List.mem_append, List.mem_append] at h
    rcases h with (h | h) | h
    · exact hrest (List.mem_of_mem_take h)
    · exact .inr ⟨i, List.mem_cons_self, h⟩
    · exact hrest (List.mem_of_mem_drop h)

/-- Insertions make a text longer. -/
theorem length_lt_insertAll {i : Insertion} {is : List Insertion} {s : Text}
    (hi : i.offset ≤ s.length) (hne : i.text ≠ []) : s.length < (insertAll (i :: is) s).length := by
  have hle := length_le_insertAll is s
  have hpos := List.length_pos_iff.2 hne
  rw [insertAll_cons, List.length_append, List.length_append, List.length_take, List.length_drop]
  omega

section Runs

variable {source : List Char} {o last : PlacedNode} {missing : List Text}

theorem metadataInsertion_ne_nil : (metadataInsertion source o missing).text ≠ [] := by
  unfold metadataInsertion
  dsimp only
  split
  · split <;> exact List.cons_ne_nil _ _
  · split
    · exact List.append_ne_nil_of_right_ne_nil _ (List.cons_ne_nil _ _)
    · exact List.cons_ne_nil _ _

theorem no_return_entryGap : .scalar '\r' ∉ entryGap source o last := by
  unfold entryGap
  split
  · intro h
    rcases List.mem_append.1 h with h | h
    · exact absurd h (by decide)
    · exact absurd (List.eq_of_mem_replicate h) (by decide)
  · decide

theorem no_return_emptyLists {gap : Text} (hgap : .scalar '\r' ∉ gap)
    (hm : ∀ name ∈ missing, name ∈ metadataLists) :
    .scalar '\r' ∉ emptyLists gap missing := by
  have hlists : ∀ name ∈ metadataLists, .scalar '\r' ∉ emptyList name := by decide
  intro h
  rcases Text.mem_join h with h | ⟨t, ht, h⟩
  · exact (List.mem_append.1 h).elim (absurd · (by decide)) hgap
  · obtain ⟨name, hname, rfl⟩ := List.mem_map.1 ht
    exact hlists name (hm name hname) h

theorem no_return_metadataInsertion (hm : ∀ name ∈ missing, name ∈ metadataLists) :
    .scalar '\r' ∉ (metadataInsertion source o missing).text := by
  have hspace : .scalar '\r' ∉ emptyLists " " missing := no_return_emptyLists (by decide) hm
  have hlists (last : PlacedNode) : .scalar '\r' ∉ emptyLists (entryGap source o last) missing :=
    no_return_emptyLists no_return_entryGap hm
  unfold metadataInsertion
  dsimp only
  split
  · split
    · exact List.not_mem_append (List.not_mem_append (by decide) hspace) (by decide)
    · exact List.not_mem_append (List.not_mem_append (by decide) hspace) (by decide)
  · next last _ =>
    split
    · exact List.not_mem_append (List.not_mem_append no_return_entryGap (hlists last)) (by decide)
    · exact List.not_mem_append (List.not_mem_append (by decide) no_return_entryGap) (hlists last)

end Runs

section Trees

variable {dialect : Dialect} {source : List Char} {tree : Node} {w : Workspace} {t : Text}

theorem no_return_of_mem_metadataRuns {r : Insertion} (hr : r ∈ metadataRuns tree) :
    .scalar '\r' ∉ r.text := by
  obtain ⟨c, -, rfl⟩ := List.mem_map.1 hr
  exact no_return_metadataInsertion fun _ hname => (missing_sublist c).subset hname

theorem no_return_insertAll (h : '\r' ∉ source) :
    .scalar '\r' ∉ insertAll (metadataRuns tree) (.ofChars source) := by
  intro hmem
  rcases mem_insertAll hmem with hmem | ⟨r, hr, hmem⟩
  · obtain ⟨c, hc, heq⟩ := List.mem_map.1 hmem
    cases heq
    exact h hc
  · exact no_return_of_mem_metadataRuns hr hmem

/-- A completion is another text exactly if a class lacks lists. -/
theorem completion_eq_source_iff (h : parse? dialect source = some tree)
    (ht : completion dialect source w = .ok t) :
    t = .ofChars source ↔ incompleteClasses tree = [] := by
  rw [completion_eq h ht]
  constructor
  · intro heq
    by_contra hne
    obtain ⟨c, cs, hcs⟩ := List.exists_cons_of_ne_nil hne
    have hruns : metadataRuns tree = c.run tree.text :: cs.map (DescribedClass.run tree.text) := by
      rw [metadataRuns, hcs, List.map_cons]
    have hinside : (c.run tree.text).offset ≤ (Text.ofChars source).length := by
      rw [Text.ofChars_length]
      exact metadataRuns_inside h (hruns ▸ List.mem_cons_self)
    rw [hruns] at heq
    have hlt : (Text.ofChars source).length < (insertAll (c.run tree.text ::
        cs.map (DescribedClass.run tree.text)) (.ofChars source)).length :=
      length_lt_insertAll hinside metadataInsertion_ne_nil
    rw [heq] at hlt
    exact lt_irrefl _ hlt
  · intro hnone
    rw [metadataRuns, hnone]
    rfl

/-- The metadata of each class can be read, and no list is missing in it. -/
def LacksNothing (tree : Node) : Prop :=
  ∀ c ∈ describedClasses tree, missingLists c.metadata.node = .ok []

theorem lacksNothing_iff : LacksNothing tree ↔
    (∀ c ∈ describedClasses tree, c.metadata.node.Readable) ∧ incompleteClasses tree = [] := by
  rw [incompleteClasses, List.filter_eq_nil_iff, ← forall₂_and]
  refine forall₂_congr fun c hc => ?_
  rw [← missingLists_ok_iff (metadata_isObject hc)]
  constructor
  · intro h
    exact ⟨⟨[], h⟩, by rw [DescribedClass.missing_of_ok h]; decide⟩
  · rintro ⟨⟨missing, h⟩, hempty⟩
    rw [DescribedClass.missing_of_ok h] at hempty
    have hmissing : missing = [] := by simpa using hempty
    rw [h, hmissing]

/-- In a text that can be completed, each gap is in a class that lacks lists. -/
theorem length_metadataGaps (hreadable : ∀ c ∈ describedClasses tree, c.metadata.node.Readable) :
    (metadataGaps source (describedClasses tree)).1.length = (incompleteClasses tree).length := by
  have hruns := @metadataGaps_insertions source _ fun c hc =>
    (missingLists_ok_iff (metadata_isObject hc)).2 (hreadable c hc)
  have hsame := congrArg List.length hruns
  rwa [List.length_map, List.length_map] at hsame

end Trees

/-! ### Files -/

section Places

variable {w v : Workspace} {p : Path} {content new : Bytes} {text : Text}

/-- A file that can be read is at the place that its path stands for. -/
theorem Workspace.contentAt_of_read (h : w.read p = .ok content) :
    w.files.contentAt (w.placeOf p) = some content := by
  obtain ⟨parts, hparts, hfile⟩ := exceptBind_eq_ok.1 h
  obtain ⟨-, rfl⟩ := place_eq_ok.1 hparts
  obtain ⟨place, hwalk, hget⟩ := FileTree.read_eq_ok.1 hfile
  obtain rfl := FileTree.walk_eq_foldl hwalk
  exact Option.bind_eq_some_iff.2 ⟨_, hget, rfl⟩

/-- A file that could be read is read again as what it holds by then. -/
theorem Workspace.read_of_outline (h : w.read p = .ok content) (hcurrent : v.current = w.current)
    (houtline : v.files.outline = w.files.outline)
    (hheld : v.files.contentAt (w.placeOf p) = some new) : v.read p = .ok new := by
  obtain ⟨parts, hparts, hfile⟩ := exceptBind_eq_ok.1 h
  have hsame : v.place p = .ok parts := by
    rw [← hparts, Workspace.place, Workspace.place, hcurrent]
  obtain ⟨-, rfl⟩ := place_eq_ok.1 hparts
  exact exceptBind_eq_ok.2 ⟨_, hsame, FileTree.read_of_outline houtline hfile hheld⟩

/-- A text with an encoding is written over a file that can be read. -/
theorem Action.writeText_of_read (h : w.read p = .ok content) (ht : Bytes.ofText? text = some new) :
    ∃ t, (writeText p text).outcome w = (.ok ⟨⟩, { w with files := t }) ∧
      t.outline = w.files.outline ∧ t.contentAt (w.placeOf p) = some new ∧
      ∀ names, names ≠ w.placeOf p → t.contentAt names = w.files.contentAt names := by
  obtain ⟨parts, hparts, hfile⟩ := exceptBind_eq_ok.1 h
  obtain ⟨place, -, hwrite⟩ := FileTree.write_of_read hfile new
  obtain ⟨hheld, hothers⟩ := FileTree.contentAt_write hwrite
  rw [(place_eq_ok.1 hparts).2] at hheld hothers
  refine ⟨_, ?_, FileTree.outline_write_of_read hfile hwrite, hheld, hothers⟩
  rw [writeText, ht]
  exact change_eq_ok.2 ⟨_, exceptBind_eq_ok.2 ⟨parts, hparts, hwrite⟩, rfl⟩

end Places

section Files

variable {w w' : Workspace} {p : Path} {cs ds : List Char} {tree : Node}

/-- A file that lacks nothing is left alone, and nothing is logged. -/
theorem completeFile_of_lacksNothing {source : List Char} (hread : w.readText p = .ok source)
    (h : parse? p.dialect source = some tree) (hnone : LacksNothing tree) :
    (completeFile p).outcome w = (.ok false, w) := by
  obtain ⟨hreadable, hempty⟩ := lacksNothing_iff.1 hnone
  have hlength : (metadataGaps source (describedClasses tree)).1.length = 0 := by
    rw [length_metadataGaps hreadable, hempty, List.length_nil]
  have houtcome := completeMetadata_outcome h w
  rw [completion_of_complete h hnone, List.eq_nil_of_length_eq_zero hlength] at houtcome
  rw [completeFile, outcome_get_bind, hread]
  dsimp only
  rw [outcome_bind_ok houtcome, if_pos rfl]
  rfl

/-- A completion that has no answer ends with a fault. -/
theorem fault_of_completion {source : List Char} {dialect : Dialect} {e : Failure}
    (h : parse? dialect source = some tree) (he : completion dialect source w = .error e) :
    ∃ f, e = .fault f := by
  rw [completion_of_gaps h] at he
  generalize metadataGaps source (describedClasses tree) = r at he
  obtain ⟨gaps, _ | (_ | _)⟩ := r
  · cases he
  · exact ⟨_, (Except.error.inj he).symm⟩
  · exact ⟨_, (Except.error.inj he).symm⟩

/-- A text with metadata that cannot be read is not completed. -/
theorem completeFile_of_unreadable {source : List Char} (hread : w.readText p = .ok source)
    (h : parse? p.dialect source = some tree)
    (hreadable : ¬∀ c ∈ describedClasses tree, c.metadata.node.Readable) :
    ∃ f rs, (completeFile p).outcome w = (.error (.fault f), w.report rs) := by
  have houtcome := completeMetadata_outcome h w
  cases hc : completion p.dialect source w with
  | ok t => exact absurd ((completion_ok_iff h w).1 ⟨t, hc⟩) hreadable
  | error e =>
    obtain ⟨f, rfl⟩ := fault_of_completion h hc
    rw [hc] at houtcome
    refine ⟨f, (metadataGaps source (describedClasses tree)).1.map MetadataGap.record, ?_⟩
    rw [completeFile, outcome_get_bind, hread]
    dsimp only
    rw [outcome_bind_error houtcome]

/-- A call that has written lists into a file of these characters: the new characters are those of
the old text, its line ends unified, with one run for each class that lacks lists. Without the runs
the old text is back if it holds no carriage return; the new text holds none. No other file is
touched, but for the log file. -/
structure WritesLists (w : Workspace) (p : Path) (cs : List Char) (tree : Node) (ds : List Char)
    (w' : Workspace) : Prop where
  held : w'.read p = .ok (Bytes.ofChars ds)
  preserves : Preserves (unifyLineEnds cs) tree (.ofChars ds)
  restored : removeAll (metadataRuns tree) (.ofChars ds) = .ofChars cs ↔ '\r' ∉ cs
  noReturn : '\r' ∉ ds
  others : ∀ names, names ≠ w.placeOf p → ¬w.LogsTo names →
    w'.files.contentAt names = w.files.contentAt names
  current : w'.current = w.current
  logFile : w'.logFile = w.logFile

/-- A text that was written and holds a completion is the old one with runs. -/
theorem removed_eq_iff (h : Preserves (unifyLineEnds cs) tree (.ofChars ds)) :
    (removeAll (metadataRuns tree) (.ofChars ds) = .ofChars cs ↔ '\r' ∉ cs) ∧ '\r' ∉ ds := by
  constructor
  · rw [h.removed, ← unifyLineEnds_eq_self_iff]
    exact ⟨fun heq => Text.ofChars_injective heq, congrArg Text.ofChars⟩
  · intro hr
    have hmem : CodePoint.scalar '\r' ∈ Text.ofChars ds := List.mem_map_of_mem hr
    rw [h.lastFirst] at hmem
    exact no_return_insertAll (not_mem_unifyLineEnds cs) hmem

/-- A completed text that is not what the file was read as is written over the file. -/
theorem completeFile_of_new {content : Bytes} {source : List Char} {rs : List LogRecord}
    (hread : w.read p = .ok content) (hsource : w.readText p = .ok source)
    (hlog : ¬w.LogsTo (w.placeOf p))
    (hcompleted : (completeMetadata p.dialect source).outcome w = (.ok (.ofChars ds), w.report rs))
    (hnew : ds ≠ source) :
    ∃ v, (completeFile p).outcome w = (.ok true, v) ∧
      v = { w with files := v.files, log := v.log, stderr := v.stderr } ∧
      v.files.outline = w.files.outline ∧
      v.files.contentAt (w.placeOf p) = some (Bytes.ofChars ds) ∧
      ∀ names, names ≠ w.placeOf p → ¬w.LogsTo names →
        v.files.contentAt names = w.files.contentAt names := by
  have hcurrent : (w.report rs).current = w.current := by rw [report_eq]
  have hlogFile : (w.report rs).logFile = w.logFile := by rw [report_eq]
  have houtline : (w.report rs).files.outline = w.files.outline := Reported.outline_eq ⟨rs, rfl⟩
  have hfile : (w.report rs).read p = .ok content := by
    refine read_of_outline hread hcurrent houtline ?_
    rw [contentAt_report hlog, contentAt_of_read hread]
  have hencoded : Bytes.ofText? (.ofChars ds) = some (Bytes.ofChars ds) := by
    rw [Bytes.ofText?, Text.chars?_ofChars, Option.map_some]
  obtain ⟨files, hwrite, hkept, hheld, hothers⟩ := Action.writeText_of_read hfile hencoded
  rw [placeOf_congr hcurrent] at hheld hothers
  have hlogs (names : List Text) : ({ w.report rs with files := files } : Workspace).LogsTo names ↔
      w.LogsTo names := logsTo_iff_of_eq hcurrent hlogFile names
  refine ⟨({ w.report rs with files := files } : Workspace).note
    ⟨.info, loggerRoot ++ "normalizer", "Added JIT defaults to " ++ p.text⟩, ?_, ?_, ?_, ?_, ?_⟩
  · rw [completeFile, outcome_get_bind, hsource]
    dsimp only
    rw [outcome_bind_ok hcompleted, if_neg fun h => hnew (Text.ofChars_injective h),
      outcome_bind_ok hwrite]
    rfl
  · rw [report_eq]
    rfl
  · rw [outline_note, hkept, houtline]
  · rw [contentAt_note (mt (hlogs _).1 hlog), hheld]
  · intro names hne hnames
    rw [contentAt_note (mt (hlogs _).1 hnames), hothers names hne, contentAt_report hnames]

/-- A completed text is written over the file that it was read from. -/
theorem completeFile_of_incomplete (hread : w.read p = .ok (Bytes.ofChars cs))
    (h : parse? p.dialect (unifyLineEnds cs) = some tree) (hlog : ¬w.LogsTo (w.placeOf p))
    (hreadable : ∀ c ∈ describedClasses tree, c.metadata.node.Readable)
    (hsome : incompleteClasses tree ≠ []) :
    ∃ ds w', (completeFile p).outcome w = (.ok true, w') ∧ WritesLists w p cs tree ds w' := by
  obtain ⟨t, ht⟩ := (completion_ok_iff h w).2 hreadable
  have hpreserves := preserves_of_completion h ht
  obtain ⟨ds, hds, -⟩ := Option.map_eq_some_iff.1 hpreserves.bytes
  obtain rfl := Text.eq_ofChars_of_chars? hds
  have hnew : ds ≠ unifyLineEnds cs := fun heq =>
    hsome ((completion_eq_source_iff h ht).1 (congrArg Text.ofChars heq))
  have hcompleted := completeMetadata_outcome h w
  rw [ht] at hcompleted
  obtain ⟨v, houtcome, hv, houtline, hheld, hothers⟩ :=
    completeFile_of_new hread (readText_of_read hread) hlog hcompleted hnew
  have hcurrent : v.current = w.current := by rw [hv]
  obtain ⟨hrestored, hreturn⟩ := removed_eq_iff hpreserves
  exact ⟨ds, v, houtcome, read_of_outline hread hcurrent houtline hheld, hpreserves, hrestored,
    hreturn, hothers, hcurrent, by rw [hv]⟩

/-- Whatever a completed file is read as, a further call leaves it alone exactly if nothing is
missing in that. -/
theorem WritesLists.again_iff (hw : WritesLists w p cs tree ds w') (hlog : ¬w.LogsTo (w.placeOf p))
    {tree' : Node} (h : parse? p.dialect ds = some tree') :
    (completeFile p).outcome w' = (.ok false, w') ↔ LacksNothing tree' := by
  have hsame := unifyLineEnds_eq_self_iff.2 hw.noReturn
  have hread := readText_of_read hw.held
  rw [hsame] at hread
  refine ⟨fun hagain => ?_, completeFile_of_lacksNothing hread h⟩
  by_cases hreadable : ∀ c ∈ describedClasses tree', c.metadata.node.Readable
  · refine lacksNothing_iff.2 ⟨hreadable, ?_⟩
    by_contra hsome
    have hlog' : ¬w'.LogsTo (w'.placeOf p) := by
      rw [placeOf_congr hw.current, logsTo_iff_of_eq hw.current hw.logFile]
      exact hlog
    have h' : parse? p.dialect (unifyLineEnds ds) = some tree' := by rw [hsame, h]
    obtain ⟨_, _, htrue, -⟩ := completeFile_of_incomplete hw.held h' hlog' hreadable hsome
    cases hagain.symm.trans htrue
  · obtain ⟨e, rs, herror⟩ := completeFile_of_unreadable hread h hreadable
    cases hagain.symm.trans herror

/-- A call fails, leaves the file alone, or writes all lists into it. -/
theorem completeFile_cases (hread : w.read p = .ok (Bytes.ofChars cs))
    (h : parse? p.dialect (unifyLineEnds cs) = some tree) (hlog : ¬w.LogsTo (w.placeOf p)) :
    ((¬∀ c ∈ describedClasses tree, c.metadata.node.Readable) ∧
      ∃ e rs, (completeFile p).outcome w = (.error e, w.report rs)) ∨
    (LacksNothing tree ∧ (completeFile p).outcome w = (.ok false, w)) ∨
    ((∀ c ∈ describedClasses tree, c.metadata.node.Readable) ∧ incompleteClasses tree ≠ [] ∧
      ∃ ds w', (completeFile p).outcome w = (.ok true, w') ∧ WritesLists w p cs tree ds w') := by
  have hsource := readText_of_read hread
  by_cases hreadable : ∀ c ∈ describedClasses tree, c.metadata.node.Readable
  · by_cases hempty : incompleteClasses tree = []
    · have hnone := lacksNothing_iff.2 ⟨hreadable, hempty⟩
      exact .inr (.inl ⟨hnone, completeFile_of_lacksNothing hsource h hnone⟩)
    · exact .inr (.inr ⟨hreadable, hempty,
        completeFile_of_incomplete hread h hlog hreadable hempty⟩)
  · obtain ⟨f, rs, herror⟩ := completeFile_of_unreadable hsource h hreadable
    exact .inl ⟨hreadable, .fault f, rs, herror⟩

/--
For every file of characters whose text, as it is read, follows the grammar: a call has an
answer if and only if the metadata of each class can be read, and it is negative exactly if nothing
is missing. Then nothing at all has happened. If the call fails, no file has changed, but for the
log file. If the answer is positive, the file holds the text that was read with one run for each
class that lacks lists. Without these it is the old file again if and only if that holds no carriage
return. A further call leaves the file alone exactly if it is read as a text that lacks nothing; the
completed tree is such a text, and the one that was written if the search for a comma finds
the one of the literal.
-/
theorem completeFile_keeps (hread : w.read p = .ok (Bytes.ofChars cs))
    (h : parse? p.dialect (unifyLineEnds cs) = some tree) (hlog : ¬w.LogsTo (w.placeOf p)) :
    ((∃ b w', (completeFile p).outcome w = (.ok b, w')) ↔
      ∀ c ∈ describedClasses tree, c.metadata.node.Readable) ∧
    (∀ w', (completeFile p).outcome w = (.ok false, w') ↔ LacksNothing tree ∧ w' = w) ∧
    (∀ e w', (completeFile p).outcome w = (.error e, w') →
      w'.read p = .ok (Bytes.ofChars cs) ∧
      ∀ names, ¬w.LogsTo names → w'.files.contentAt names = w.files.contentAt names) ∧
    ∀ w', (completeFile p).outcome w = (.ok true, w') → ∃ ds, WritesLists w p cs tree ds w' ∧
      (∀ tree', parse? p.dialect ds = some tree' →
        ((completeFile p).outcome w' = (.ok false, w') ↔ LacksNothing tree')) ∧
      ((∀ c ∈ incompleteClasses tree, c.metadata.node.FindsOwnComma) →
        (completedTree tree).text = ds ∧ LacksNothing (completedTree tree)) := by
  have hreadable_of (hnone : LacksNothing tree) := (lacksNothing_iff.1 hnone).1
  rcases completeFile_cases hread h hlog with
    ⟨hun, e, rs, herror⟩ | ⟨hnone, hfalse⟩ | ⟨hreadable, hsome, ds, v, htrue, hwrites⟩
  · rw [herror]
    refine ⟨iff_of_false nofun hun, fun w' => iff_of_false nofun fun hn => hun (hreadable_of hn.1),
      fun e' w' heq => ?_, fun w' heq => by cases heq⟩
    cases heq
    have hcurrent : (w.report rs).current = w.current := by rw [report_eq]
    refine ⟨read_of_outline hread hcurrent (Reported.outline_eq ⟨rs, rfl⟩) ?_,
      fun names hnames => contentAt_report hnames rs⟩
    rw [contentAt_report hlog, contentAt_of_read hread]
  · rw [hfalse]
    refine ⟨iff_of_true ⟨false, w, rfl⟩ (hreadable_of hnone), fun w' => ?_,
      fun e w' heq => (by cases heq), fun w' heq => by cases heq⟩
    simp [hnone, eq_comm]
  · rw [htrue]
    refine ⟨iff_of_true ⟨true, v, rfl⟩ hreadable, fun w' => ?_, fun e w' heq => (by cases heq),
      fun w' heq => ?_⟩
    · exact iff_of_false nofun fun hn => hsome (lacksNothing_iff.1 hn.1).2
    · cases heq
      refine ⟨ds, hwrites, fun tree' htree' => hwrites.again_iff hlog htree', fun hown => ⟨?_, ?_⟩⟩
      · have htext := completedTree_text h hown
        rw [← hwrites.preserves.atOnce, Node.sourceText] at htext
        exact Text.ofChars_injective htext
      · exact completedTree_lacks_nothing h hreadable hown

end Files

def smallFileWorkspace : Workspace := { Workspace.bare with
  files := .dir [("ws", .dir [("a.ts", .file (Bytes.ofChars smallFile))])] }

/-- The first call writes into the small file, and the second one leaves it alone. -/
theorem completeFile_keeps_smallFile : ∃ ds w',
    (completeFile "/ws/a.ts").outcome smallFileWorkspace = (.ok true, w') ∧
    WritesLists smallFileWorkspace "/ws/a.ts" smallFile smallTree ds w' ∧
    (completeFile "/ws/a.ts").outcome w' = (.ok false, w') := by
  have hsame : unifyLineEnds smallFile = smallFile := by decide +kernel
  have hread : smallFileWorkspace.read "/ws/a.ts" = .ok (Bytes.ofChars smallFile) := rfl
  have hparse : parse? (Path.dialect "/ws/a.ts") (unifyLineEnds smallFile) = some smallTree := by
    rw [hsame]
    exact parse?_smallFile
  have hlog : ¬smallFileWorkspace.LogsTo (smallFileWorkspace.placeOf "/ws/a.ts") := nofun
  have hagain : parse? .plain (completedTree smallTree).text = some (completedTree smallTree) := by
    decide +kernel
  obtain ⟨hok, hfalse, -, htrue⟩ := completeFile_keeps hread hparse hlog
  have hlacks : incompleteClasses smallTree ≠ [] := by decide +kernel
  have hreadable := (completion_ok_iff parse?_smallFile Workspace.bare).1 completion_smallFile
  obtain ⟨b, w', houtcome⟩ := hok.2 hreadable
  cases b with
  | false => exact absurd (lacksNothing_iff.1 ((hfalse w').1 houtcome).1).2 hlacks
  | true =>
    obtain ⟨ds, hwrites, hsecond, hcompleted⟩ := htrue w' houtcome
    obtain ⟨rfl, hnone⟩ := hcompleted findsOwnComma_smallTree
    exact ⟨_, w', houtcome, hwrites, (hsecond _ hagain).2 hnone⟩

end CustomElements
