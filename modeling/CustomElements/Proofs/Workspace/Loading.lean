import CustomElements.Proofs.Workspace.Undisturbed

/-!
# Loading sources only looks

Project files, source files, directories and class references are read without a
trace in the file tree, whether what is read is well-formed or not.
-/

namespace CustomElements

open CustomElements.Action

namespace ReadAction

variable {α β : Type}

/-- A step of reading project files that only looks and logs, whatever was read before it. -/
def OnlyReports (x : ReadAction α) : Prop := ∀ seen, Action.OnlyReports (x.run seen)

theorem OnlyReports.pure (x : α) : OnlyReports (Pure.pure x) := fun _ => Within.pure _

theorem OnlyReports.bind {x : ReadAction α} {f : α → ReadAction β} (hx : OnlyReports x)
    (hf : ∀ y, OnlyReports (f y)) : OnlyReports (x >>= f) := by
  intro seen
  rw [StateT.run_bind]
  exact (hx seen).bind fun y => hf y.1 y.2

theorem OnlyReports.lift {a : Action α} (ha : Action.OnlyReports a) :
    OnlyReports (liftM a : ReadAction α) := by
  intro seen
  change Action.OnlyReports (StateT.run (StateT.lift a) seen)
  rw [StateT.run_lift]
  exact ha.bind fun x => Within.pure _

end ReadAction

open ReadAction (OnlyReports)

theorem readSettings_within {R : Workspace → Workspace → Prop} [Std.Refl R] [IsTrans Workspace R]
    (file : Path) : Within R (fun _ => True) (readSettings file) := by
  refine Within.get.bind fun w => ?_
  split
  · exact Within.fail trivial
  · dsimp only
    split
    · exact Within.fail trivial
    · exact Within.faulty trivial
    · exact Within.pure _
    · exact Within.fail trivial

theorem readSettings_onlyReports (file : Path) : Action.OnlyReports (readSettings file) :=
  readSettings_within file

mutual

/-- Bases are read by `load` alone, however their values are nested. -/
theorem baseOf_onlyReports {load : Path → ReadAction ProjectFile} (hl : ∀ p, OnlyReports (load p))
    (directory : Path) (v : Value) : OnlyReports (baseOf load directory v) := by
  cases v with
  | list vs =>
    rw [baseOf]
    exact baseOfList_onlyReports hl directory none vs
  | text t =>
    rw [baseOf]
    split
    · exact OnlyReports.pure _
    · split
      · refine (OnlyReports.lift (Action.OnlyReports.look _)).bind fun p => ?_
        exact (hl p).bind fun s => OnlyReports.pure _
      · refine (OnlyReports.lift (Action.OnlyReports.record _ _ _)).bind fun _ => ?_
        exact OnlyReports.pure _
  | _ =>
    simp only [baseOf]
    exact OnlyReports.pure none

theorem baseOfList_onlyReports {load : Path → ReadAction ProjectFile}
    (hl : ∀ p, OnlyReports (load p)) (directory : Path) (merged : Option ProjectFile)
    (vs : List Value) : OnlyReports (baseOfList load directory merged vs) := by
  cases vs with
  | nil =>
    rw [baseOfList]
    exact OnlyReports.pure _
  | cons v vs =>
    rw [baseOfList]
    refine (baseOf_onlyReports hl directory v).bind fun base => ?_
    split
    · exact baseOfList_onlyReports hl directory _ vs
    · exact baseOfList_onlyReports hl directory _ vs
    · exact baseOfList_onlyReports hl directory _ vs

end

theorem loadFrom_onlyReports (fuel : Nat) (file : Path) :
    OnlyReports (loadFrom fuel file) := by
  induction fuel generalizing file with
  | zero => exact OnlyReports.lift (Within.fail trivial)
  | succ fuel ih =>
    rw [loadFrom]
    refine OnlyReports.bind (fun seen => Within.pure _) fun seen => ?_
    split
    · exact OnlyReports.lift (Within.fail trivial)
    · refine OnlyReports.bind (fun seen => Within.pure _) fun _ => ?_
      refine (OnlyReports.lift (readSettings_onlyReports file)).bind fun data => ?_
      refine (baseOf_onlyReports ih _ _).bind fun base => ?_
      exact OnlyReports.lift (Action.OnlyReports.look _)

theorem ProjectFile.load_onlyReports (p : Path) : Action.OnlyReports (ProjectFile.load p) := by
  refine Within.get.bind fun w => ?_
  refine (Action.OnlyReports.look _).bind fun file => ?_
  exact (loadFrom_onlyReports _ file []).bind fun r => Within.pure _

/-- The workspace with one more loaded file. -/
def Workspace.withSource (w : Workspace) (f : SourceFile) : Workspace :=
  { w with project := { w.project with files := w.project.files ++ [f] } }

namespace Project

theorem locate_onlyReports (p : Path) : Action.OnlyReports (locate p) := Action.OnlyReports.look _

section Bound

variable {R : Workspace → Workspace → Prop} [Std.Refl R] [IsTrans Workspace R]

/-- Loading a directory is bounded by what loading its files is bounded by. -/
theorem addDirectory_within (hlocate : ∀ p, Within R (fun _ => True) (locate p))
    (hoffer : ∀ p, Within R (fun _ => True) (offer p)) (p : Path) :
    Within R (fun _ => True) (addDirectory p) := by
  refine (hlocate p).bind fun base => ?_
  refine Within.get.bind fun w => ?_
  refine (Within.listMapM (fun ns => hoffer _) _).bind fun found => ?_
  exact Within.pure _

theorem resolve_within (hrequire : ∀ p, Within R (fun _ => True) (require p))
    (ref : ComponentRef) : Within R (fun _ => True) (resolve ref) := by
  unfold resolve
  split
  · refine (hrequire _).bind fun f => ?_
    split
    · exact Within.pure _
    · exact Within.fail trivial
  · refine Within.get.bind fun w => ?_
    dsimp only
    split
    · exact Within.pure _
    · exact Within.fail trivial
    · exact Within.fail trivial

end Bound

theorem start_onlyLooks (root : Path) : Action.OnlyLooks (start root) :=
  (Action.OnlyLooks.look _).bind fun path => Action.OnlyLooks.reload fun _ => ⟨path, []⟩

/-- A file that is asked for is taken as it is loaded, or loaded. -/
theorem require_outcome (p : Path) (w : Workspace) :
    (require p).outcome w = match w.resolveFrom w.project.root p with
      | .error f => (.error (.fault f), w)
      | .ok q => match w.project.file? q with
        | some f => (.ok f, w)
        | none => match w.source q with
          | .error m => (.error (.mistake m), w)
          | .ok f => (.ok f, w.withSource f) := by
  rw [require, outcome_bind, locate, outcome_look]
  cases w.resolveFrom w.project.root p with
  | error f => rfl
  | ok q =>
    dsimp only [Except.mapError]
    rw [outcome_get_bind]
    cases w.project.file? q with
    | some f => rfl
    | none => cases w.source q <;> rfl

/-- A file that is found is loaded as one that is asked for; what cannot be loaded is logged. -/
theorem offer_outcome (p : Path) (w : Workspace) :
    (offer p).outcome w = match w.resolveFrom w.project.root p with
      | .error f => (.error (.fault f), w)
      | .ok q => match w.project.file? q with
        | some f => (.ok (some f), w)
        | none => match w.source q with
          | .error m => (.ok none, w.note ⟨.warning, loggerRoot ++ "source", m.message⟩)
          | .ok f => (.ok (some f), w.withSource f) := by
  rw [offer, outcome_bind, locate, outcome_look]
  cases w.resolveFrom w.project.root p with
  | error f => rfl
  | ok q =>
    dsimp only [Except.mapError]
    rw [outcome_get_bind]
    cases w.project.file? q with
    | some f => rfl
    | none => cases w.source q <;> rfl

/-- What a load from a path leaves: log records, or one more file, which was not loaded before. -/
inductive LeftByLoad (w : Workspace) (p : Path) : Workspace → Prop where
  | reported {v : Workspace} (same : w.Reported v) : LeftByLoad w p v
  | loaded {q : Path} {f : SourceFile} (place : w.resolveFrom w.project.root p = .ok q)
      (new : w.project.file? q = none) (source : w.source q = .ok f) :
      LeftByLoad w p (w.withSource f)

theorem require_leaves (p : Path) (w : Workspace) : LeftByLoad w p ((require p).outcome w).2 := by
  rw [require_outcome]
  split
  · exact .reported (Std.Refl.refl w)
  · next hq =>
    split
    · exact .reported (Std.Refl.refl w)
    · next hnew =>
      split
      · exact .reported (Std.Refl.refl w)
      · next hf => exact .loaded hq hnew hf

theorem offer_leaves (p : Path) (w : Workspace) : LeftByLoad w p ((offer p).outcome w).2 := by
  rw [offer_outcome]
  split
  · exact .reported (Std.Refl.refl w)
  · next hq =>
    split
    · exact .reported (Std.Refl.refl w)
    · next hnew =>
      split
      · exact .reported ⟨[_], rfl⟩
      · next hf => exact .loaded hq hnew hf

theorem LeftByLoad.undisturbed {w v : Workspace} {p : Path} (h : LeftByLoad w p v) :
    w.Undisturbed v := by
  cases h with
  | reported same => exact same.undisturbed
  | loaded => exact ⟨[], _, rfl⟩

theorem require_onlyLooks (p : Path) : Action.OnlyLooks (require p) :=
  ⟨fun w => (require_leaves p w).undisturbed, fun _ _ _ => trivial⟩

theorem offer_onlyLooks (p : Path) : Action.OnlyLooks (offer p) :=
  ⟨fun w => (offer_leaves p w).undisturbed, fun _ _ _ => trivial⟩

theorem addDirectory_onlyLooks (p : Path) : Action.OnlyLooks (addDirectory p) :=
  addDirectory_within (fun q => (locate_onlyReports q).onlyLooks) offer_onlyLooks p

/-- A failed start puts the sources back that were loaded before. -/
theorem startFrom_onlyLooks (file : Path) (root : Option Path) :
    Action.OnlyLooks (startFrom file root) := by
  refine Within.get.bind fun w => ?_
  refine (ProjectFile.load_onlyReports file).onlyLooks.bind fun selection => ?_
  refine Within.tryCatch ?_ fun e => ?_
  · refine (start_onlyLooks _).bind fun _ => ?_
    refine Within.get.bind fun w' => ?_
    refine (Within.forIn (fun p _ => ?_) _ _).bind fun _ => ?_
    · exact (offer_onlyLooks p).bind fun _ => Within.pure _
    · split
      · exact Within.faulty trivial
      · exact Within.get.bind fun _ => Action.OnlyLooks.record _ _ _
  · exact (Action.OnlyLooks.reload _).bind fun _ => Within.throw trivial

theorem resolve_onlyLooks (ref : ComponentRef) : Action.OnlyLooks (resolve ref) :=
  resolve_within require_onlyLooks ref

theorem discover_onlyReports (rule : DiscoveryRule) : Action.OnlyReports (discover rule) := by
  refine Within.get.bind fun w => ?_
  refine (Within.forIn (fun e _ => ?_) _ _).bind fun _ => ?_
  · exact (Action.OnlyReports.record _ _ _).bind fun _ => Within.pure _
  · split
    · exact Within.throw trivial
    · exact Within.pure _

end Project

end CustomElements
