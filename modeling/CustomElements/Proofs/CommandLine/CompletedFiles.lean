import CustomElements.CommandLine.Run
import CustomElements.Proofs.Component.CompletedContent
import CustomElements.Proofs.Generation.SourceRoots

/-!
# Completing files from the command line

Files are completed one after the other, and a line is printed for each of them. The first one that
is not completed ends the run: those before it hold what a completion makes of them, and nothing
else has happened (`completing_files`).
-/

namespace CustomElements

open TypeScript (Node parse?)
open Action Workspace

/-! ### Files that are completed in a row -/

namespace Workspace

variable {w v : Workspace} {held : Holdings} {before after ps : List Path} {p : Path}
  {names : List Text} {content : Bytes} {source : List Char} {f : Fault}

/-- What files hold once those of some paths have been completed, one after the other. -/
def heldAfter (w : Workspace) (ps : List Path) : Holdings := ps.foldl w.holdWith w.files.contentAt

theorem heldAfter_concat (w : Workspace) (ps : List Path) (p : Path) :
    w.heldAfter (ps ++ [p]) = w.holdWith (w.heldAfter ps) p := by
  rw [heldAfter, List.foldl_append]
  rfl

/-- Files that no path leads to hold what they held. -/
theorem heldAfter_of_ne (h : ∀ p ∈ ps, names ≠ w.placeOf p) :
    w.heldAfter ps names = w.files.contentAt names := by
  induction ps using List.reverseRecOn with
  | nil => rfl
  | append_singleton ps p ih =>
    rw [List.forall_mem_append, List.forall_mem_singleton] at h
    rw [heldAfter_concat, holdWith, if_neg h.2, ih h.1]

/-- A file stays a text, and what is no text stays none. -/
theorem source?_heldAfter (ps : List Path) (names : List Text) :
    (w.heldAfter ps names).bind Bytes.source? = none ↔
      (w.files.contentAt names).bind Bytes.source? = none := by
  induction ps using List.reverseRecOn with
  | nil => rfl
  | append_singleton ps p ih =>
    rw [← ih, heldAfter_concat, holdWith]
    split
    · cases hheld : w.heldAfter ps names with
      | none => rfl
      | some content =>
        rw [Option.map_some, Option.bind_some, Option.bind_some]
        cases hsource : content.source? with
        | none => rw [completedContent, hsource, hsource]
        | some source => simp [source?_completedContent hsource]
    · rfl

/-- What the file of a path is read as once those of other paths have been completed. -/
def sourceAfter (w : Workspace) (before : List Path) (p : Path) : Option (List Char) :=
  (w.heldAfter before (w.placeOf p)).bind Bytes.source?

/-- The file of a path can be read, and its metadata can be read by the time it is completed. -/
def Completes (w : Workspace) (before : List Path) (p : Path) : Prop :=
  (∃ source, w.readText p = .ok source) ∧
    ∀ source, w.sourceAfter before p = some source → CanComplete p.dialect source

/-- The files of all these paths are completed, one after the other. -/
def CompletesAll (w : Workspace) (ps : List Path) : Prop :=
  ∀ before p, before ++ [p] <+: ps → w.Completes before p

theorem completesAll_nil (w : Workspace) : w.CompletesAll [] := fun _ _ h =>
  absurd (List.prefix_nil.1 h) (List.append_ne_nil_of_right_ne_nil _ (List.cons_ne_nil _ _))

theorem completesAll_concat :
    w.CompletesAll (ps ++ [p]) ↔ w.CompletesAll ps ∧ w.Completes ps p := by
  constructor
  · exact fun h => ⟨fun before q hq => h before q (hq.trans (List.prefix_append _ _)),
      h ps p List.prefix_rfl⟩
  · rintro ⟨hall, hp⟩ before q hq
    rcases List.prefix_concat_iff.1 hq with heq | hq
    · obtain ⟨rfl, hqp⟩ := List.append_inj' heq rfl
      obtain rfl := List.singleton_inj.1 hqp
      exact hp
    · exact hall before q hq

theorem CompletesAll.of_mem (hall : w.CompletesAll (before ++ p :: after)) :
    w.Completes before p := hall before p ⟨after, by rw [List.append_assoc, List.singleton_append]⟩

/-- Either all files are completed, or there is a first one that is not. -/
theorem completesAll_or (w : Workspace) (ps : List Path) : w.CompletesAll ps ∨
    ∃ before p after, ps = before ++ p :: after ∧ w.CompletesAll before ∧ ¬w.Completes before p := by
  induction ps using List.reverseRecOn with
  | nil => exact .inl (completesAll_nil w)
  | append_singleton ps q ih =>
    rcases ih with hall | ⟨before, p, after, rfl, hbefore, hp⟩
    · by_cases hq : w.Completes ps q
      · exact .inl (completesAll_concat.2 ⟨hall, hq⟩)
      · exact .inr ⟨ps, q, [], rfl, hall, hq⟩
    · exact .inr ⟨before, p, after ++ [q], by simp, hbefore, hp⟩

/-- The line that is printed for a path. -/
def statusLine (w : Workspace) (changed : Bool) (p : Path) : Text :=
  (if changed then "normalized: " else "unchanged: ") ++
    (Path.normal w.current p).textFrom w.current ++ "\n"

/-- Completing the file of a path leaves what it is read as. -/
def KeepsText (w : Workspace) (held : Holdings) (p : Path) : Prop :=
  (w.holdWith held p (w.placeOf p)).bind Bytes.source? = (held (w.placeOf p)).bind Bytes.source?

instance (w : Workspace) (held : Holdings) (p : Path) : Decidable (w.KeepsText held p) :=
  inferInstanceAs (Decidable (_ = _))

/-- A file whose text is kept holds what it held. -/
theorem KeepsText.holdWith_eq (h : w.KeepsText held p) : w.holdWith held p = held := by
  funext names
  rw [KeepsText, holdWith, if_pos rfl] at h
  rw [holdWith]
  split
  · next hnames =>
    rw [hnames]
    cases hheld : held (w.placeOf p) with
    | none => rfl
    | some content =>
      rw [hheld, Option.map_some, Option.bind_some, Option.bind_some] at h
      rw [Option.map_some]
      cases hsource : content.source? with
      | none => rw [completedContent, hsource]
      | some source =>
        rw [source?_completedContent hsource, hsource] at h
        rw [(completedContent_eq_self_iff hsource).2 (Option.some.inj h)]
  · rfl

/-- The lines that are printed for some paths. -/
def statusLines (w : Workspace) : Holdings → List Path → List Text
  | _, [] => []
  | held, p :: ps =>
    w.statusLine (!decide (w.KeepsText held p)) p :: w.statusLines (w.holdWith held p) ps

theorem statusLines_append (held : Holdings) (ps qs : List Path) :
    w.statusLines held (ps ++ qs) =
      w.statusLines held ps ++ w.statusLines (ps.foldl w.holdWith held) qs := by
  induction ps generalizing held with
  | nil => rfl
  | cons p ps ih => rw [List.cons_append, statusLines, statusLines, ih, List.cons_append]; rfl

theorem length_statusLines (held : Holdings) (ps : List Path) :
    (w.statusLines held ps).length = ps.length := by
  induction ps generalizing held with
  | nil => rfl
  | cons p ps ih => rw [statusLines, List.length_cons, List.length_cons, ih]

/-- What completing the files of some paths makes of a workspace. Besides the files, only the log and
the output are others. -/
structure Completed (w : Workspace) (ps : List Path) (w' : Workspace) : Prop where
  files : Rewritten w (w.heldAfter ps) w'
  printed : w'.stdout = w.stdout ++ (w.statusLines w.files.contentAt ps).flatten
  others : w' =
    { w with files := w'.files, log := w'.log, stdout := w'.stdout, stderr := w'.stderr }

theorem Completed.nil (w : Workspace) : Completed w [] w :=
  ⟨.refl w, (List.append_nil _).symm, rfl⟩

namespace Rewritten

/-- A file that was a text is read as what it holds by now. -/
theorem source_of_readText (h : Rewritten w (w.heldAfter ps) v) (hlog : ¬w.LogsTo (w.placeOf p))
    (hread : w.readText p = .ok source) : ∃ content source', v.read p = .ok content ∧
      w.heldAfter ps (w.placeOf p) = some content ∧ content.source? = some source' := by
  obtain ⟨content, hcontent, hsource⟩ := readText_eq_ok.1 hread
  obtain ⟨content', hcontent', hheld⟩ := h.read_eq_ok hlog hcontent
  have hsome : content'.source? ≠ none := by
    intro hnone
    have hbind : (w.heldAfter ps (w.placeOf p)).bind Bytes.source? = none := by
      rw [hheld, Option.bind_some, hnone]
    rw [source?_heldAfter, contentAt_of_read hcontent, Option.bind_some, hsource] at hbind
    cases hbind
  obtain ⟨source', hsource'⟩ := Option.ne_none_iff_exists'.1 hsome
  exact ⟨content', source', hcontent', hheld, hsource'⟩

/-- A file that could not be read cannot be read for the same reason. -/
theorem readText_eq_error (h : Rewritten w (w.heldAfter ps) v) (hlog : ¬w.LogsTo (w.placeOf p))
    (hread : w.readText p = .error f) : v.readText p = .error f := by
  rcases Workspace.readText_eq_error.1 hread with hfile | ⟨rfl, content, hfile, hnone⟩
  · exact Workspace.readText_eq_error.2 (.inl (h.read_eq_error.2 hfile))
  · obtain ⟨content', hcontent', hheld⟩ := h.read_eq_ok hlog hfile
    refine Workspace.readText_eq_error.2 (.inr ⟨rfl, content', hcontent', ?_⟩)
    have hbind : (w.heldAfter ps (w.placeOf p)).bind Bytes.source? = none := by
      rw [source?_heldAfter, contentAt_of_read hfile, Option.bind_some, Bytes.source?, hnone]
      rfl
    rw [hheld, Option.bind_some, Bytes.source?, Option.map_eq_none_iff] at hbind
    exact hbind

theorem holdWith (h : Rewritten w held v) (p : Path) (hlog : ¬w.LogsTo names) :
    v.holdWith v.files.contentAt p names = w.holdWith held p names := by
  rw [Workspace.holdWith, Workspace.holdWith, h.placeOf, h.held names hlog]

end Rewritten

end Workspace

section Steps

variable {w v : Workspace} {before ps : List Path} {p : Path} {f : Fault}

namespace Action

/-- A mistake becomes an answer, and a fault stays one. -/
theorem outcome_mistakes {α : Type} (a : Action α) (w : Workspace) : (mistakes a).outcome w =
    match a.outcome w with
    | (.ok x, w') => (.ok (.ok x), w')
    | (.error (.mistake m), w') => (.ok (.error m), w')
    | (.error (.fault f), w') => (.error (.fault f), w') := by
  rw [mistakes, outcome_tryCatch, map_eq_pure_bind, outcome_bind]
  rcases a.outcome w with ⟨(m | f) | x, w'⟩ <;> rfl

end Action

/-- A file that has been completed is reported, and the next one comes. -/
theorem completeFiles_reports {u : Workspace} {changed : Bool} {parts : List Text}
    (hplace : v.place p = .ok parts) (hcurrent : u.current = v.current)
    (houtcome : (completeFile p).outcome v = (.ok changed, u)) (ps : List Path) :
    (completeFiles (p :: ps)).outcome v =
      (completeFiles ps).outcome { u with stdout := u.stdout ++ u.statusLine changed p } := by
  have hmistakes : (mistakes (completeFile p)).outcome v = (.ok (.ok changed), u) := by
    rw [outcome_mistakes, houtcome]
  have hresolve : u.resolve p = .ok (Path.normal u.current p) := by
    refine resolve_eq_ok.2 ⟨?_, rfl⟩
    rw [hcurrent]
    exact (place_eq_ok.1 hplace).1
  have hlook : (look fun w => w.resolve p).outcome u = (.ok (Path.normal u.current p), u) := by
    rw [outcome_look, hresolve]
    rfl
  rw [completeFiles, outcome_bind_ok hmistakes]
  dsimp only
  rw [outcome_bind_ok hlook, statusLine, ← List.append_assoc]
  rfl

/-- One file more is completed, with one line more. -/
theorem completeFiles_cons (hv : Completed w before v) (hlog : ¬w.LogsTo (w.placeOf p))
    (hp : w.Completes before p) (ps : List Path) :
    ∃ v', (completeFiles (p :: ps)).outcome v = (completeFiles ps).outcome v' ∧
      Completed w (before ++ [p]) v' := by
  obtain ⟨⟨source, hread⟩, hcan⟩ := hp
  obtain ⟨content, source', hcontent, hheld, hsource⟩ := hv.files.source_of_readText hlog hread
  obtain ⟨parts, hplace, -⟩ := exceptBind_eq_ok.1 hcontent
  have hlog' : ¬v.LogsTo (v.placeOf p) := by
    rwa [hv.files.placeOf, hv.files.logsTo]
  have hcan' : CanComplete p.dialect source' :=
    hcan source' (by rw [sourceAfter, hheld, Option.bind_some, hsource])
  obtain ⟨u, houtcome, hu, hothers⟩ := completeFile_of_canComplete hcontent hsource hlog' hcan'
  have hnow := hv.files.trans hu
  refine ⟨_, completeFiles_reports hplace hu.current houtcome ps, ⟨?_, ?_, ?_⟩⟩
  · refine ⟨hnow.outline, fun names hnames => ?_, hnow.current, hnow.logFile⟩
    rw [heldAfter_concat, ← hv.files.holdWith p hnames]
    exact hnow.held names hnames
  · have hline : w.statusLines (w.heldAfter before) [p] =
        [u.statusLine (!decide (completedChars p.dialect source' = source')) p] := by
      have hkeeps : w.KeepsText (w.heldAfter before) p ↔
          completedChars p.dialect source' = source' := by
        rw [KeepsText, Workspace.holdWith, if_pos rfl, hheld, Option.map_some, Option.bind_some,
          Option.bind_some, source?_completedContent hsource, hsource, Option.some.injEq]
      rw [statusLines, statusLines, decide_eq_decide.2 hkeeps, statusLine, statusLine, hnow.current]
    have hstdout : u.stdout = v.stdout := by rw [hothers]
    rw [statusLines_append, List.flatten_append, ← List.append_assoc, ← hv.printed, ← hstdout]
    show _ = _ ++ (w.statusLines (w.heldAfter before) [p]).flatten
    rw [hline, List.flatten_singleton]
  · rw [hothers, hv.others]

/-- Files that are completed are passed one after the other. -/
theorem completeFiles_append (hall : w.CompletesAll ps) (hlog : ∀ p ∈ ps, ¬w.LogsTo (w.placeOf p))
    (rest : List Path) :
    ∃ v, (completeFiles (ps ++ rest)).outcome w = (completeFiles rest).outcome v ∧
      Completed w ps v := by
  induction ps using List.reverseRecOn generalizing rest with
  | nil => exact ⟨w, rfl, .nil w⟩
  | append_singleton ps p ih =>
    rw [List.forall_mem_append, List.forall_mem_singleton] at hlog
    obtain ⟨hbefore, hp⟩ := completesAll_concat.1 hall
    obtain ⟨v, hv, hcompleted⟩ := ih hbefore hlog.1 (p :: rest)
    obtain ⟨v', hv', hcompleted'⟩ := completeFiles_cons hcompleted hlog.2 hp rest
    refine ⟨v', ?_, hcompleted'⟩
    rw [List.append_assoc, List.singleton_append, hv, hv']

/-- How a run ends at a path whose file is not completed. A file that cannot be read is a mistake.
A path that no file can have, and metadata that cannot be read, are faults. -/
inductive StopsAt (w : Workspace) (before : List Path) (p : Path) (v : Workspace) :
    Except Failure Nat × Workspace → Prop
  | unread {f : Fault} {parts : List Text} (lost : w.readText p = .error f)
      (possible : w.place p = .ok parts) :
      StopsAt w before p v (.ok 1, { v with
        stderr := v.stderr ++ ("elementgen failed: " ++ (Mistake.sourceUnreadable p).message ++ "\n") })
  | impossible {f : Fault} (lost : w.place p = .error f) :
      StopsAt w before p v (.error (.fault f), v)
  | metadata {first source : List Char} {f : Fault} {rs : List LogRecord}
      (found : w.readText p = .ok first) (text : w.sourceAfter before p = some source)
      (unreadable : ¬CanComplete p.dialect source) :
      StopsAt w before p v (.error (.fault f), v.report rs)

theorem completeFiles_of_mistake {u : Workspace} {m : Mistake}
    (houtcome : (completeFile p).outcome v = (.error (.mistake m), u)) (ps : List Path) :
    (completeFiles (p :: ps)).outcome v =
      (.ok 1, { u with stderr := u.stderr ++ ("elementgen failed: " ++ m.message ++ "\n") }) := by
  have hmistakes : (mistakes (completeFile p)).outcome v = (.ok (.error m), u) := by
    rw [outcome_mistakes, houtcome]
  rw [completeFiles, outcome_bind_ok hmistakes]
  rfl

theorem completeFiles_of_fault {u : Workspace}
    (houtcome : (completeFile p).outcome v = (.error (.fault f), u)) (ps : List Path) :
    (completeFiles (p :: ps)).outcome v = (.error (.fault f), u) := by
  have hmistakes : (mistakes (completeFile p)).outcome v = (.error (.fault f), u) := by
    rw [outcome_mistakes, houtcome]
  rw [completeFiles, outcome_bind_error hmistakes]

/-- What keeps a file with a possible path from being read is a mistake. -/
theorem unreadFailure_of_place {parts : List Text} (hplace : w.place p = .ok parts)
    (hread : w.readText p = .error f) : unreadFailure p f = .mistake (.sourceUnreadable p) := by
  rcases Workspace.readText_eq_error.1 hread with hfile | ⟨rfl, -⟩
  · rcases read_eq_error hfile with hlost | ⟨-, htree⟩
    · rw [hplace] at hlost
      cases hlost
    · cases f <;> first | rfl | cases htree
  · rfl

theorem unreadFailure_of_impossible (hplace : w.place p = .error f) :
    unreadFailure p f = .fault f := by
  rcases place_eq_error hplace with rfl | rfl <;> rfl

/-- A run stops at a path whose file is not completed. -/
theorem completeFiles_stops (hv : Completed w before v) (hlog : ¬w.LogsTo (w.placeOf p))
    (hp : ¬w.Completes before p) (after : List Path) :
    StopsAt w before p v ((completeFiles (p :: after)).outcome v) := by
  cases hread : w.readText p with
  | error f =>
    have houtcome := completeFile_of_unread (hv.files.readText_eq_error hlog hread)
    cases hplace : w.place p with
    | error f' =>
      have hlost : w.readText p = .error f' :=
        Workspace.readText_eq_error.2 (.inl (exceptBind_eq_error.2 (.inl hplace)))
      obtain rfl := Except.error.inj (hread.symm.trans hlost)
      rw [unreadFailure_of_impossible hplace] at houtcome
      rw [completeFiles_of_fault houtcome]
      exact .impossible hplace
    | ok parts =>
      rw [unreadFailure_of_place hplace hread] at houtcome
      rw [completeFiles_of_mistake houtcome]
      exact .unread hread hplace
  | ok source =>
    obtain ⟨content, source', hcontent, hheld, htext⟩ := hv.files.source_of_readText hlog hread
    have hafter : w.sourceAfter before p = some source' := by
      rw [sourceAfter, hheld, Option.bind_some, htext]
    have hcan : ¬CanComplete p.dialect source' := fun hcan =>
      hp ⟨⟨source, hread⟩, fun _ hsame => Option.some.inj (hafter.symm.trans hsame) ▸ hcan⟩
    obtain ⟨f, rs, houtcome⟩ := completeFile_of_cannotComplete
      (readText_eq_ok.2 ⟨content, hcontent, htext⟩) hcan
    rw [completeFiles_of_fault houtcome]
    exact .metadata hread hafter hcan

end Steps

/-! ### Files that are completed again -/

/-- What a run answers and leaves that finds nothing to complete. -/
def allUnchanged (w : Workspace) (ps : List Path) : Except Failure Nat × Workspace :=
  (.ok 0, { w with stdout := w.stdout ++ (ps.map (w.statusLine false)).flatten })

/-- If the file of a path is read as a text that follows the grammar, nothing is missing in it. -/
def Workspace.LacksNothingAt (w : Workspace) (p : Path) : Prop :=
  ∀ source tree, w.readText p = .ok source → parse? p.dialect source = some tree →
    LacksNothing tree

section Again

variable {w v : Workspace} {held : Holdings} {before ps : List Path} {p q : Path}
  {content : Bytes} {source : List Char}

theorem completeFiles_of_lacksNothing (hread : ∀ p ∈ ps, ∃ source, w.readText p = .ok source)
    (hnone : ∀ p ∈ ps, w.LacksNothingAt p) : (completeFiles ps).outcome w = allUnchanged w ps := by
  induction ps generalizing w with
  | nil =>
    rw [allUnchanged, List.map_nil, List.flatten_nil, List.append_nil]
    rfl
  | cons p ps ih =>
    rw [List.forall_mem_cons] at hread hnone
    obtain ⟨⟨source, hsource⟩, hrest⟩ := hread
    obtain ⟨content, hcontent, -⟩ := readText_eq_ok.1 hsource
    obtain ⟨parts, hplace, -⟩ := exceptBind_eq_ok.1 hcontent
    have houtcome := completeFile_of_settled hsource fun tree => hnone.1 source tree hsource
    have hlast := @ih { w with stdout := w.stdout ++ w.statusLine false p } hrest hnone.2
    rw [completeFiles_reports hplace rfl houtcome, hlast, allUnchanged, allUnchanged,
      List.map_cons, List.flatten_cons, ← List.append_assoc]
    rfl

/-- If no line says that a file was changed, no file was. -/
theorem kept_of_statusLines
    (h : (w.statusLines held ps).flatten = (ps.map (w.statusLine false)).flatten) :
    ∀ p ∈ ps, w.holdWith held p = held := by
  induction ps with
  | nil => exact List.forall_mem_nil _
  | cons p ps ih =>
    rw [statusLines, List.map_cons, List.flatten_cons, List.flatten_cons] at h
    by_cases hsame : w.KeepsText held p
    · have hkept := hsame.holdWith_eq
      rw [hkept, decide_eq_true hsame] at h
      exact List.forall_mem_cons.2 ⟨hkept, ih (List.append_cancel_left h)⟩
    · rw [decide_eq_false hsame] at h
      -- one line starts with another letter
      cases congrArg List.head? h

theorem heldAfter_of_kept (h : ∀ p ∈ ps, w.holdWith w.files.contentAt p = w.files.contentAt) :
    w.heldAfter ps = w.files.contentAt := by
  induction ps using List.reverseRecOn with
  | nil => rfl
  | append_singleton ps p ih =>
    rw [List.forall_mem_append, List.forall_mem_singleton] at h
    rw [heldAfter_concat, ih h.1, h.2]

/-- Files that can be read are all reported as unchanged exactly if nothing is missing in them. -/
theorem completeFiles_unchanged_iff (hread : ∀ p ∈ ps, ∃ source, w.readText p = .ok source)
    (hlog : ∀ p ∈ ps, ¬w.LogsTo (w.placeOf p)) :
    (completeFiles ps).outcome w = allUnchanged w ps ↔ ∀ p ∈ ps, w.LacksNothingAt p := by
  refine ⟨fun h => ?_, completeFiles_of_lacksNothing hread⟩
  rcases w.completesAll_or ps with hall | ⟨before, p, after, rfl, hbefore, hp⟩
  · obtain ⟨v, hv, hcompleted⟩ := completeFiles_append hall hlog []
    rw [List.append_nil, h] at hv
    have hstdout : v.stdout = w.stdout ++ (ps.map (w.statusLine false)).flatten :=
      (congrArg (fun r => r.2.stdout) hv).symm
    have hlines := hcompleted.printed.symm.trans hstdout
    have hkept := kept_of_statusLines (List.append_cancel_left hlines)
    intro p hp source tree hsource htree
    obtain ⟨content, hcontent, htext⟩ := readText_eq_ok.1 hsource
    have hheld := contentAt_of_read hcontent
    obtain ⟨before, after, rfl⟩ := List.append_of_mem hp
    have hbefore := heldAfter_of_kept fun q hq => hkept q (List.mem_append_left _ hq)
    have hcan : CanComplete p.dialect source := by
      refine hall.of_mem.2 source ?_
      rw [sourceAfter, hbefore, hheld, Option.bind_some, htext]
    have hsame : completedContent p.dialect content = content := by
      have hplace := congrFun (hkept p hp) (w.placeOf p)
      rw [holdWith, if_pos rfl, hheld] at hplace
      exact Option.some.inj hplace
    exact (completedChars_eq_self_iff hcan).1 ((completedContent_eq_self_iff htext).1 hsame) tree htree
  · obtain ⟨hlogBefore, hlogAfter⟩ := List.forall_mem_append.1 hlog
    obtain ⟨v, hv, hcompleted⟩ := completeFiles_append hbefore hlogBefore (p :: after)
    have hstops := completeFiles_stops hcompleted (hlogAfter p List.mem_cons_self) hp after
    rw [← hv, h] at hstops
    cases hstops

/-- However often a file is completed whose text settles, it holds what it held or the completion of
that. -/
theorem heldAfter_of_settles (hheld : w.files.contentAt (w.placeOf p) = some content)
    (hsource : content.source? = some source) (hs : Settles p.dialect source)
    (hcan : CanComplete p.dialect source)
    (hdialect : ∀ q ∈ ps, w.placeOf q = w.placeOf p → q.dialect = p.dialect) :
    (w.heldAfter ps (w.placeOf p) = some content ∧ ∀ q ∈ ps, w.placeOf q ≠ w.placeOf p) ∨
      w.heldAfter ps (w.placeOf p) = some (completedContent p.dialect content) := by
  induction ps using List.reverseRecOn with
  | nil => exact .inl ⟨hheld, List.forall_mem_nil _⟩
  | append_singleton ps q ih =>
    rw [List.forall_mem_append, List.forall_mem_singleton] at hdialect
    rw [heldAfter_concat, holdWith]
    by_cases hq : w.placeOf p = w.placeOf q
    · rw [if_pos hq, hdialect.2 hq.symm]
      rcases ih hdialect.1 with ⟨hfirst, -⟩ | hagain
      · exact .inr (by rw [hfirst, Option.map_some])
      · exact .inr (by rw [hagain, Option.map_some, hs.completedContent_idem hsource hcan])
    · rw [if_neg hq]
      rcases ih hdialect.1 with ⟨hkept, hne⟩ | hdone
      · exact .inl ⟨hkept, List.forall_mem_append.2 ⟨hne, List.forall_mem_singleton.2 (Ne.symm hq)⟩⟩
      · exact .inr hdone

theorem dialect_of_readable (hhere : w.isDir ⟨.here, []⟩)
    (hread : ∀ q ∈ ps, ∃ source, w.readText q = .ok source ∧ CanComplete q.dialect source)
    (hcontent : w.read p = .ok content) :
    ∀ q ∈ ps, w.placeOf q = w.placeOf p → q.dialect = p.dialect := by
  intro q hq hplace
  obtain ⟨source', hread', -⟩ := hread q hq
  obtain ⟨content', hcontent', -⟩ := readText_eq_ok.1 hread'
  exact dialect_of_placeOf hhere hcontent hcontent' hplace

/-- If the texts settle, files are completed one after the other exactly if each can be completed
from the start. -/
theorem completesAll_iff_of_settles (hhere : w.isDir ⟨.here, []⟩)
    (hs : ∀ p ∈ ps, ∀ source, w.readText p = .ok source → Settles p.dialect source) :
    w.CompletesAll ps ↔
      ∀ p ∈ ps, ∃ source, w.readText p = .ok source ∧ CanComplete p.dialect source := by
  induction ps using List.reverseRecOn with
  | nil => exact iff_of_true (completesAll_nil w) (List.forall_mem_nil _)
  | append_singleton ps p ih =>
    rw [List.forall_mem_append, List.forall_mem_singleton] at hs
    rw [completesAll_concat, ih hs.1, List.forall_mem_append, List.forall_mem_singleton]
    refine and_congr_right fun hall => ?_
    constructor
    · rintro ⟨⟨source, hread⟩, hcan⟩
      obtain ⟨content, hcontent, hsource⟩ := readText_eq_ok.1 hread
      have hheld := contentAt_of_read hcontent
      refine ⟨source, hread, ?_⟩
      by_cases hearlier : ∃ q ∈ ps, w.placeOf q = w.placeOf p
      · obtain ⟨q, hq, hplace⟩ := hearlier
        obtain ⟨source', hread', hcan'⟩ := hall q hq
        obtain ⟨content', hcontent', hsource'⟩ := readText_eq_ok.1 hread'
        have hheld' := contentAt_of_read hcontent'
        rw [hplace, hheld] at hheld'
        obtain rfl := Option.some.inj hheld'
        obtain rfl := Option.some.inj (hsource.symm.trans hsource')
        exact dialect_of_placeOf hhere hcontent hcontent' hplace ▸ hcan'
      · push Not at hearlier
        refine hcan source ?_
        rw [sourceAfter, heldAfter_of_ne fun q hq => (hearlier q hq).symm, hheld, Option.bind_some,
          hsource]
    · rintro ⟨source, hread, hcan⟩
      refine ⟨⟨source, hread⟩, fun source' hafter => ?_⟩
      obtain ⟨content, hcontent, hsource⟩ := readText_eq_ok.1 hread
      have hsettles := hs.2 source hread
      rw [sourceAfter] at hafter
      rcases heldAfter_of_settles (contentAt_of_read hcontent) hsource hsettles hcan
        (dialect_of_readable hhere hall hcontent) with ⟨hkept, -⟩ | hdone
      · rw [hkept, Option.bind_some, hsource] at hafter
        obtain rfl := Option.some.inj hafter
        exact hcan
      · rw [hdone, Option.bind_some, source?_completedContent hsource] at hafter
        obtain rfl := Option.some.inj hafter
        exact canComplete_of_lacksNothing fun tree => hsettles.lacksNothing hcan

/-- If the texts settle, nothing is missing once all files have been completed. -/
theorem lacksNothingAt_of_settles (hhere : w.isDir ⟨.here, []⟩)
    (hs : ∀ p ∈ ps, ∀ source, w.readText p = .ok source → Settles p.dialect source)
    (hlog : ∀ p ∈ ps, ¬w.LogsTo (w.placeOf p)) (hall : w.CompletesAll ps)
    (h : Rewritten w (w.heldAfter ps) v) : ∀ p ∈ ps, v.LacksNothingAt p := by
  intro p hp source' tree hread' htree
  have hcompleted := (completesAll_iff_of_settles hhere hs).1 hall
  obtain ⟨source, hread, hcan⟩ := hcompleted p hp
  obtain ⟨content, hcontent, hsource⟩ := readText_eq_ok.1 hread
  have hdialect := dialect_of_readable hhere hcompleted hcontent
  have hsettles := hs p hp source hread
  rcases heldAfter_of_settles (contentAt_of_read hcontent) hsource hsettles hcan hdialect with
    ⟨-, hnever⟩ | hdone
  · exact absurd rfl (hnever p hp)
  · obtain ⟨content', source'', hnow, hheld, htext⟩ := h.source_of_readText (hlog p hp) hread
    obtain rfl := Option.some.inj (hdone.symm.trans hheld)
    obtain rfl := Except.ok.inj (hread'.symm.trans (readText_eq_ok.2 ⟨_, hnow, htext⟩))
    rw [source?_completedContent hsource] at htext
    obtain rfl := Option.some.inj htext
    exact hsettles.lacksNothing hcan htree

end Again

/-! ### The command -/

/-- What starts with no hyphen is no option. -/
theorem argumentKind_of_plain {t : Text} (h : t.head? ≠ some (.scalar '-')) :
    argumentKind t = .ok .plain := by
  unfold argumentKind
  split
  · rfl
  · rfl
  · exact absurd rfl h
  · rfl

theorem argumentKinds_normalize {ts : List Text} (h : ∀ t ∈ ts, t.head? ≠ some (.scalar '-')) :
    argumentKinds (ts.flatMap fun t => ["--normalize", t]) =
      .ok (ts.flatMap fun t => [("--normalize", .option .normalize true none), (t, .plain)]) := by
  induction ts with
  | nil => rfl
  | cons t ts ih =>
    rw [List.forall_mem_cons] at h
    have hoption : argumentKind "--normalize" = .ok (.option .normalize true none) := rfl
    have hseparator : t ≠ "--" := by
      rintro rfl
      exact h.1 rfl
    rw [List.flatMap_cons, List.flatMap_cons, List.cons_append, List.cons_append, List.nil_append,
      argumentKinds, if_neg (by decide), hoption, argumentKinds, if_neg hseparator,
      argumentKind_of_plain h.1, ih h.2]
    rfl

theorem read_normalize (o : Options) (ts : List Text) :
    o.read false (ts.flatMap fun t => [("--normalize", .option .normalize true none), (t, .plain)]) =
      .ok { o with normalize := o.normalize ++ ts.map Path.ofText } := by
  induction ts generalizing o with
  | nil => rw [List.flatMap_nil, Options.read, List.map_nil, List.append_nil]; rfl
  | cons t ts ih =>
    have hrow : shortRow .normalize true none [] (("--normalize" : Text).length + 1) =
        .ok (.awaiting [] .normalize) := rfl
    have hset : o.setAll [(.normalize, some t)] =
        .ok { o with normalize := o.normalize ++ [Path.ofText t] } := rfl
    rw [List.flatMap_cons, List.cons_append, List.cons_append, List.nil_append, Options.read, hrow]
    show (do Options.read (← o.setAll [(.normalize, some t)]) false _) = _
    rw [hset]
    refine (ih _).trans ?_
    rw [List.map_cons, List.append_assoc]
    rfl

/-- Texts that start with no hyphen are taken as the sources to complete, in their order. -/
theorem parse_normalize {ts : List Text} (h : ∀ t ∈ ts, t.head? ≠ some (.scalar '-')) :
    Options.parse (ts.flatMap fun t => ["--normalize", t]) =
      .ok { normalize := ts.map Path.ofText } := by
  rw [Options.parse, argumentKinds_normalize h]
  exact read_normalize {} ts

section Command

variable {run : CommandRunner} {arguments : List Text} {o : Options} {w start : Workspace}

/-- A command line with sources to complete asks for nothing else. -/
theorem runCommandLine_of_normalize (hparse : Options.parse arguments = .ok o)
    (hsome : o.normalize ≠ [])
    (hstart : (startLog o.verbose o.logFile).outcome w = (.ok ⟨⟩, start)) :
    (runCommandLine run arguments).outcome w = (completeFiles o.normalize).outcome start := by
  have hnonempty : (!o.normalize.isEmpty) = true := by simpa using hsome
  rw [runCommandLine, hparse]
  dsimp only
  rw [runOptions, outcome_bind_ok hstart, if_pos hnonempty]

/--
For every command line with sources to complete, once the log has been started: if all files are
completed, the exit status is 0, and nothing has changed but these files, the log and the output. If
a file is not completed, those before it are, and the run ends there. In both cases there is
one line for each completed file, and all other files hold what they held. If the command is
repeated where the first one has completed all files, it reports each of them as unchanged exactly
if nothing is missing in what they are read as. This is so if the texts that are there at the start
settle. Then a file is completed exactly if it can be read, with its metadata, at the start.
-/
theorem completing_files (hparse : Options.parse arguments = .ok o) (hsome : o.normalize ≠ [])
    (hstart : (startLog o.verbose o.logFile).outcome w = (.ok ⟨⟩, start))
    (hlog : ∀ p ∈ o.normalize, ¬start.LogsTo (start.placeOf p)) :
    (start.CompletesAll o.normalize →
      ∃ v, (runCommandLine run arguments).outcome w = (.ok 0, v) ∧
        Completed start o.normalize v) ∧
    (∀ before p after, o.normalize = before ++ p :: after →
      start.CompletesAll before → ¬start.Completes before p →
      ∃ v, StopsAt start before p v ((runCommandLine run arguments).outcome w) ∧
        Completed start before v) ∧
    (∀ ps v, Completed start ps v →
      (start.statusLines start.files.contentAt ps).length = ps.length ∧
      ∀ names, (∀ p ∈ ps, names ≠ start.placeOf p) → ¬start.LogsTo names →
        v.files.contentAt names = start.files.contentAt names) ∧
    (start.CompletesAll o.normalize → ∀ u again,
      (startLog o.verbose o.logFile).outcome u = (.ok ⟨⟩, again) →
      Rewritten start (start.heldAfter o.normalize) again →
      ((runCommandLine run arguments).outcome u = allUnchanged again o.normalize ↔
        ∀ p ∈ o.normalize, again.LacksNothingAt p)) ∧
    (start.isDir ⟨.here, []⟩ →
      (∀ p ∈ o.normalize, ∀ source, start.readText p = .ok source → Settles p.dialect source) →
      (∀ ps, ps <+: o.normalize → (start.CompletesAll ps ↔
        ∀ p ∈ ps, ∃ source, start.readText p = .ok source ∧ CanComplete p.dialect source)) ∧
      (start.CompletesAll o.normalize → ∀ again,
        Rewritten start (start.heldAfter o.normalize) again →
        ∀ p ∈ o.normalize, again.LacksNothingAt p)) := by
  refine ⟨fun hall => ?_, fun before p after heq hbefore hp => ?_, fun ps v hv => ⟨?_, ?_⟩,
    fun hall u again hagain hfiles => ?_, fun hhere hs => ⟨fun ps hps => ?_, fun hall again => ?_⟩⟩
  · obtain ⟨v, hv, hcompleted⟩ := completeFiles_append hall hlog []
    rw [List.append_nil] at hv
    exact ⟨v, (runCommandLine_of_normalize hparse hsome hstart).trans hv, hcompleted⟩
  · rw [runCommandLine_of_normalize hparse hsome hstart, heq]
    rw [heq] at hlog
    obtain ⟨hlogBefore, hlogAfter⟩ := List.forall_mem_append.1 hlog
    obtain ⟨v, hv, hcompleted⟩ := completeFiles_append hbefore hlogBefore (p :: after)
    rw [hv]
    exact ⟨v, completeFiles_stops hcompleted (hlogAfter p List.mem_cons_self) hp after, hcompleted⟩
  · exact length_statusLines _ ps
  · intro names hne hnames
    rw [hv.files.held names hnames, heldAfter_of_ne hne]
  · rw [runCommandLine_of_normalize hparse hsome hagain]
    refine completeFiles_unchanged_iff (fun p hp => ?_) fun p hp => ?_
    · obtain ⟨before, after, heq⟩ := List.append_of_mem hp
      rw [heq] at hall
      obtain ⟨source, hread⟩ := hall.of_mem.1
      obtain ⟨content, source', hcontent, -, hsource⟩ := hfiles.source_of_readText (hlog p hp) hread
      exact ⟨source', readText_eq_ok.2 ⟨content, hcontent, hsource⟩⟩
    · rw [hfiles.placeOf, hfiles.logsTo]
      exact hlog p hp
  · exact completesAll_iff_of_settles hhere fun p hp => hs p (hps.subset hp)
  · exact lacksNothingAt_of_settles hhere hs hlog hall

end Command

/-- Starts no command. -/
def startsNothing : CommandRunner := fun _ => return .error []

/-- The small file is completed once. Another file is not there. -/
theorem completing_files_smallFile :
    (∃ v, (runCommandLine startsNothing ["--normalize", "a.ts"]).outcome smallFileWorkspace =
        (.ok 0, v) ∧
      (runCommandLine startsNothing ["--normalize", "a.ts"]).outcome v = allUnchanged v ["a.ts"]) ∧
    ∃ start v, Completed start ["a.ts"] v ∧
      (runCommandLine startsNothing ["--normalize", "a.ts", "--normalize", "b.ts"]).outcome
        smallFileWorkspace = (.ok 1, { v with stderr := v.stderr ++
          "elementgen failed: Component source file could not be read: b.ts: <cause>\n" }) := by
  let start : Workspace := { smallFileWorkspace with consoleLevel := some .info }
  have hstart : (startLog false none).outcome smallFileWorkspace = (.ok ⟨⟩, start) := rfl
  have hone : Options.parse ["--normalize", "a.ts"] = .ok { normalize := ["a.ts"] } :=
    @parse_normalize ["a.ts"] (by decide)
  have htwo : Options.parse ["--normalize", "a.ts", "--normalize", "b.ts"] =
      .ok { normalize := ["a.ts", "b.ts"] } := @parse_normalize ["a.ts", "b.ts"] (by decide)
  have hlog (names : List Text) : ¬start.LogsTo names := nofun
  have hread : start.readText "a.ts" = .ok smallFile := by
    have hsame : unifyLineEnds smallFile = smallFile := by decide +kernel
    have hfile : start.read "a.ts" = .ok (Bytes.ofChars smallFile) := rfl
    rw [readText_of_read hfile, hsame]
  obtain ⟨hdone, -, -, hagain, hsettled⟩ := @completing_files startsNothing _ _ _ _ hone
    (List.cons_ne_nil _ _) hstart fun p _ => hlog _
  obtain ⟨hall, hlacks⟩ := hsettled rfl (List.forall_mem_singleton.2 fun source hsource =>
    Except.ok.inj (hread.symm.trans hsource) ▸ settles_smallFile)
  have hfirst : start.CompletesAll ["a.ts"] :=
    (hall _ List.prefix_rfl).2 (List.forall_mem_singleton.2 ⟨smallFile, hread, canComplete_smallFile⟩)
  refine ⟨?_, ?_⟩
  · obtain ⟨v, hv, hcompleted⟩ := hdone hfirst
    have hrestart : (startLog false none).outcome v = (.ok ⟨⟩, v) := by
      have hsame : { v with consoleLevel := some .info } = v := by rw [hcompleted.others]
      exact congrArg (fun u => (Except.ok PUnit.unit, u)) hsame
    exact ⟨v, hv, (hagain hfirst v v hrestart hcompleted.files).2 (hlacks hfirst v hcompleted.files)⟩
  · obtain ⟨-, hstops, -⟩ := @completing_files startsNothing _ _ _ _ htwo
      (List.cons_ne_nil _ _) hstart fun p _ => hlog _
    have hmissing : start.readText "b.ts" = .error .noSuchFile := rfl
    have hnot : ¬start.Completes ["a.ts"] "b.ts" := by
      rintro ⟨⟨source, hsource⟩, -⟩
      rw [hmissing] at hsource
      cases hsource
    obtain ⟨v, hv, hcompleted⟩ := hstops ["a.ts"] "b.ts" [] rfl hfirst hnot
    refine ⟨start, v, hcompleted, ?_⟩
    generalize (runCommandLine _ _).outcome _ = r at hv ⊢
    cases hv with
    | unread => rfl
    | impossible lost => cases lost
    | metadata found => cases hmissing.symm.trans found

end CustomElements
