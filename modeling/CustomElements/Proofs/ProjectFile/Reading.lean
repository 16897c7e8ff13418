import CustomElements.Proofs.ProjectFile.Chain
import CustomElements.Proofs.Workspace.Undisturbed

/-!
# Reading along a chain

Reading a project file follows its chain to the end and puts the settings together on the way back.
No file is visited twice and the fuel lasts, so only a path without a meaning can stop it. The
workspace stays as it was, but for log records.
-/

namespace CustomElements

namespace ReadAction

variable {α β : Type} {w : Workspace} {seen : List Path}

/-- The answer of a step of reading with the files visited by then, and the workspace it leaves. -/
def outcome (x : ReadAction α) (seen : List Path) (w : Workspace) :
    Except Failure (α × List Path) × Workspace :=
  Action.outcome (x.run seen) w

@[simp] theorem outcome_pure (x : α) :
    (pure x : ReadAction α).outcome seen w = (.ok (x, seen), w) := rfl

theorem outcome_bind_ok {x : ReadAction α} {y : α} {seen' : List Path} {w' : Workspace}
    (h : x.outcome seen w = (.ok (y, seen'), w')) (k : α → ReadAction β) :
    (x >>= k).outcome seen w = (k y).outcome seen' w' := by
  unfold outcome
  rw [StateT.run_bind]
  exact Action.outcome_bind_ok h _

theorem outcome_bind_error {x : ReadAction α} {e : Failure} {w' : Workspace}
    (h : x.outcome seen w = (.error e, w')) (k : α → ReadAction β) :
    (x >>= k).outcome seen w = (.error e, w') := by
  unfold outcome
  rw [StateT.run_bind]
  exact Action.outcome_bind_error h _

/-- A sequence has an answer if its steps have. -/
theorem outcome_bind_eq_ok {x : ReadAction α} {k : α → ReadAction β} {z : β} {seen' : List Path}
    {w' : Workspace} : (x >>= k).outcome seen w = (.ok (z, seen'), w') ↔
      ∃ y visited v, x.outcome seen w = (.ok (y, visited), v) ∧
        (k y).outcome visited v = (.ok (z, seen'), w') := by
  unfold outcome
  rw [StateT.run_bind, Action.outcome_bind_eq_ok]
  constructor
  · rintro ⟨⟨y, visited⟩, v, hx, hk⟩
    exact ⟨y, visited, v, hx, hk⟩
  · rintro ⟨y, visited, v, hx, hk⟩
    exact ⟨(y, visited), v, hx, hk⟩

theorem outcome_lift_ok {a : Action α} {y : α} {w' : Workspace} (h : a.outcome w = (.ok y, w')) :
    (liftM a : ReadAction α).outcome seen w = (.ok (y, seen), w') :=
  Action.outcome_bind_ok h _

theorem outcome_lift_error {a : Action α} {e : Failure} {w' : Workspace}
    (h : a.outcome w = (.error e, w')) :
    (liftM a : ReadAction α).outcome seen w = (.error e, w') :=
  Action.outcome_bind_error h _

end ReadAction

namespace Workspace

variable (w : Workspace) (rs : List LogRecord)

theorem resolve_report (p : Path) : (w.report rs).resolve p = w.resolve p := by
  have hcurrent : (w.report rs).current = w.current := by rw [report_eq]
  unfold resolve
  rw [hcurrent]

theorem report_append (rs' : List LogRecord) :
    w.report (rs ++ rs') = (w.report rs).report rs' :=
  List.foldl_append

end Workspace

theorem settingsOf_report (file : Path) (base : Option ProjectFile) (data : Value) (w : Workspace)
    (rs : List LogRecord) :
    settingsOf file base data (w.report rs) = settingsOf file base data w := by
  unfold settingsOf
  simp only [Workspace.resolve_report]

/-- Values that name no file are passed over, with a record at most. -/
theorem baseOf_outcome_of_namesNoFile (load : Path → ReadAction ProjectFile) (directory : Path)
    {v : Value} (h : v.NamesNoFile) (seen : List Path) (w : Workspace) :
    ∃ rs, (baseOf load directory v).outcome seen w = (.ok (none, seen), w.report rs) := by
  induction h generalizing w with
  | @text t h =>
    rw [baseOf]
    split
    · exact ⟨[], rfl⟩
    · rw [if_neg (by simp [h])]
      exact ⟨[_], rfl⟩
  | @list vs h ih =>
    clear h
    rw [baseOf]
    induction vs generalizing w with
    | nil => exact ⟨[], by rw [baseOfList]; rfl⟩
    | cons v vs ihs =>
      rw [List.forall_mem_cons] at ih
      obtain ⟨rs, hv⟩ := ih.1 w
      obtain ⟨rs', hvs⟩ := ihs ih.2 (w.report rs)
      refine ⟨rs ++ rs', ?_⟩
      rw [baseOfList, ReadAction.outcome_bind_ok hv, Workspace.report_append]
      exact hvs
  | @other v hl ht =>
    cases v with
    | list vs => cases hl
    | text t => exact absurd rfl (ht t)
    | _ => exact ⟨[], by simp only [baseOf]; rfl⟩

theorem not_isEmpty_of_relative {t : Text} (h : Text.startsWith t "." = true) :
    ¬t.isEmpty = true := by
  cases t with
  | nil => cases h
  | cons _ _ => simp

/-- A relative base is read where it is found. -/
theorem baseOf_outcome_of_relative (load : Path → ReadAction ProjectFile) {directory p : Path}
    {t : Text} {w : Workspace} (relative : Text.startsWith t "." = true)
    (found : baseFile w directory t = .ok p) (seen : List Path) :
    (baseOf load directory (.text t)).outcome seen w =
      ReadAction.outcome (do return some (← load p)) seen w := by
  have hlook : (Action.look fun w => baseFile w directory t).outcome w = (.ok p, w) := by
    rw [Action.outcome_look, found]
    rfl
  rw [baseOf, if_neg (not_isEmpty_of_relative relative), if_pos relative]
  exact ReadAction.outcome_bind_ok (ReadAction.outcome_lift_ok hlook) _

theorem loadFrom_outcome_of_mem {file : Path} {seen : List Path} (h : file ∈ seen) (fuel : Nat)
    (w : Workspace) : (loadFrom (fuel + 1) file).outcome seen w =
      (.error (.mistake (.projectCircular file)), w) := by
  have hget : (get : ReadAction (List Path)).outcome seen w = (.ok (seen, seen), w) := rfl
  rw [loadFrom, ReadAction.outcome_bind_ok hget, if_pos (List.contains_iff_mem.2 h)]
  rfl

theorem loadFrom_outcome_of_notMem {file : Path} {seen : List Path} (h : file ∉ seen) (fuel : Nat)
    (w : Workspace) : (loadFrom (fuel + 1) file).outcome seen w =
      ReadAction.outcome (do
        let data ← (readSettings file : Action Value)
        let base ← baseOf (loadFrom fuel) file.parent (data.get "extends")
        (Action.look (settingsOf file base data) : Action ProjectFile)) (seen ++ [file]) w := by
  have hget : (get : ReadAction (List Path)).outcome seen w = (.ok (seen, seen), w) := rfl
  have hset : (set (seen ++ [file]) : ReadAction PUnit).outcome seen w =
      (.ok (⟨⟩, seen ++ [file]), w) := rfl
  rw [loadFrom, ReadAction.outcome_bind_ok hget, if_neg (mt List.contains_iff_mem.1 h)]
  exact ReadAction.outcome_bind_ok hset _

/-- Reading a project file is reading from its path on, with nothing visited before. -/
theorem ProjectFile.load_outcome {w : Workspace} {p file : Path}
    (hp : (do w.resolve (← w.expandHome p)) = .ok file) :
    (ProjectFile.load p).outcome w =
      (((loadFrom (w.files.files.length + 2) file).outcome [] w).1.map Prod.fst,
        ((loadFrom (w.files.files.length + 2) file).outcome [] w).2) := by
  have hfile : (Action.look fun w => do w.resolve (← w.expandHome p)).outcome w =
      (.ok file, w) := by
    rw [Action.outcome_look, hp]
    rfl
  rw [ProjectFile.load, Action.outcome_get_bind, Action.outcome_bind_ok hfile]
  rcases hload : (loadFrom (w.files.files.length + 2) file).outcome [] w with ⟨e | ⟨s, seen⟩, v⟩
  · exact Action.outcome_bind_error hload _
  · exact Action.outcome_bind_ok hload _

/-- A path without a meaning ends the reading before it starts. -/
theorem ProjectFile.load_outcome_of_error {w : Workspace} {p : Path} {e : Fault}
    (hp : (do w.resolve (← w.expandHome p)) = .error e) :
    (ProjectFile.load p).outcome w = (.error (.fault e), w) := by
  have hfile : (Action.look fun w => do w.resolve (← w.expandHome p)).outcome w =
      (.error (.fault e), w) := by
    rw [Action.outcome_look, hp]
    rfl
  rw [ProjectFile.load, Action.outcome_get_bind]
  exact Action.outcome_bind_error hfile _

namespace WrittenFile

/-- The settings of a chain of files, put together from its end. -/
def settingsAlong (w : Workspace) : WrittenFile → List WrittenFile → Except Fault ProjectFile
  | f, [] => settingsOf f.path none f.data w
  | f, g :: bases => do settingsOf f.path (some (← settingsAlong w g bases)) f.data w

variable {w : Workspace} {f : WrittenFile} {bases : List WrittenFile}

/-- A file that was not visited is read, then its base, and then its settings are put together. -/
theorem Holds.loadFrom_outcome (here : f.Holds w) {fuel : Nat} {seen : List Path}
    (hf : f.path ∉ seen) :
    (loadFrom (fuel + 1) f.path).outcome seen w =
      ReadAction.outcome (do
        let base ← baseOf (loadFrom fuel) f.directory (f.data.get "extends")
        (Action.look (settingsOf f.path base f.data) : Action ProjectFile))
        (seen ++ [f.path]) w := by
  rw [loadFrom_outcome_of_notMem hf]
  exact ReadAction.outcome_bind_ok (ReadAction.outcome_lift_ok here) _

theorem settings_outcome {base : Option ProjectFile} {seen : List Path} {rs : List LogRecord} :
    ReadAction.outcome (Action.look (settingsOf f.path base f.data) : Action ProjectFile) seen
        (w.report rs) =
      (((settingsOf f.path base f.data w).mapError Failure.fault).map (·, seen), w.report rs) := by
  have hlook := Action.outcome_look (settingsOf f.path base f.data) (w.report rs)
  rw [settingsOf_report] at hlook
  cases hs : settingsOf f.path base f.data w with
  | ok s =>
    rw [hs] at hlook
    exact ReadAction.outcome_lift_ok hlook
  | error e =>
    rw [hs] at hlook
    exact ReadAction.outcome_lift_error hlook

/-- Reading a chain comes to its end and back, whatever files were visited before. -/
theorem Extends.loadFrom_outcome (h : f.Extends w bases) {fuel : Nat}
    (hfuel : bases.length < fuel) {seen : List Path} (hseen : ∀ g ∈ f :: bases, g.path ∉ seen) :
    ∃ rs seen', (loadFrom fuel f.path).outcome seen w =
      (((settingsAlong w f bases).mapError Failure.fault).map (·, seen'), w.report rs) := by
  induction h generalizing fuel seen with
  | @alone f here last =>
    obtain ⟨fuel, rfl⟩ := Nat.exists_eq_add_one.2 hfuel
    obtain ⟨rs, hbase⟩ := baseOf_outcome_of_namesNoFile (loadFrom fuel) f.directory last
      (seen ++ [f.path]) w
    refine ⟨rs, seen ++ [f.path], ?_⟩
    rw [here.loadFrom_outcome (hseen f List.mem_cons_self), ReadAction.outcome_bind_ok hbase]
    exact settings_outcome
  | @base f g bases t here named relative found rest ih =>
    obtain ⟨fuel, rfl⟩ := Nat.exists_eq_add_one.2 (Nat.zero_lt_of_lt hfuel)
    have hchain : f.Extends w (g :: bases) := .base here named relative found rest
    -- the rest of the chain does not come back to this file
    have hapart : ∀ g' ∈ g :: bases, g'.path ∉ seen ++ [f.path] := by
      intro g' hg' hm
      rcases List.mem_append.1 hm with hm | hm
      · exact hseen g' (List.mem_cons_of_mem _ hg') hm
      · have hnd := hchain.nodup_paths
        rw [List.map_cons, List.nodup_cons] at hnd
        exact hnd.1 (List.mem_map.2 ⟨g', hg', List.mem_singleton.1 hm⟩)
    have hlength : bases.length < fuel := by
      rw [List.length_cons] at hfuel
      omega
    obtain ⟨rs, seen', hload⟩ := ih hlength hapart
    have hbase := baseOf_outcome_of_relative (loadFrom fuel) relative found (seen ++ [f.path])
    refine ⟨rs, seen', ?_⟩
    rw [here.loadFrom_outcome (hseen f List.mem_cons_self), named, settingsAlong]
    cases hs : settingsAlong w g bases with
    | error e =>
      rw [hs] at hload
      rw [ReadAction.outcome_bind_error hload] at hbase
      exact ReadAction.outcome_bind_error hbase _
    | ok s =>
      rw [hs] at hload
      rw [ReadAction.outcome_bind_ok hload, ReadAction.outcome_pure] at hbase
      rw [ReadAction.outcome_bind_ok hbase]
      exact settings_outcome

/-- Reading a project file gives the settings along its chain and leaves nothing but records. -/
theorem Extends.load_outcome {p : Path} (h : f.Extends w bases)
    (hp : (do w.resolve (← w.expandHome p)) = .ok f.path) :
    ∃ rs, (ProjectFile.load p).outcome w =
      ((settingsAlong w f bases).mapError Failure.fault, w.report rs) := by
  obtain ⟨named, _, hresolve⟩ := exceptBind_eq_ok.1 hp
  have hlength := h.length_lt (Workspace.resolve_isNormal hresolve)
  have hfuel : bases.length < w.files.files.length + 2 := by omega
  have hapart : ∀ g ∈ f :: bases, g.path ∉ ([] : List Path) := fun _ _ => List.not_mem_nil
  obtain ⟨rs, seen, hload⟩ := h.loadFrom_outcome hfuel hapart
  refine ⟨rs, ?_⟩
  rw [ProjectFile.load_outcome hp, hload]
  cases settingsAlong w f bases <;> rfl

end WrittenFile

end CustomElements
