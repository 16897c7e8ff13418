import CustomElements.Generation
import CustomElements.Proofs.Workspace.Outcome

/-!
# Actions that only look

`Undisturbed` is the most that looking, logging and loading sources may do to a
workspace: records are added to the log, which may show on the console and in the
log file, and the loaded sources may be others. Without a log file the file tree
stays what it was. Everything that happens before outputs are written stays
within this bound, however it ends.
-/

namespace CustomElements

namespace Workspace

/-- The workspace after log records in a row. -/
def report (w : Workspace) (rs : List LogRecord) : Workspace := rs.foldl note w

theorem report_cons (w : Workspace) (r : LogRecord) (rs : List LogRecord) :
    w.report (r :: rs) = (w.note r).report rs := rfl

/-- Records change the file tree, the console and the log, and nothing else. -/
theorem report_eq (w : Workspace) (rs : List LogRecord) :
    w.report rs = { w with
      files := (w.report rs).files, stderr := (w.report rs).stderr, log := w.log ++ rs } := by
  induction rs generalizing w with
  | nil => simp [report]
  | cons r rs ih =>
    rw [report_cons, ih (w.note r)]
    simp [note]

/-- Only a log file lets records change the file tree. -/
theorem report_files {w : Workspace} (h : w.logFile = none) (rs : List LogRecord) :
    (w.report rs).files = w.files := by
  induction rs generalizing w with
  | nil => rfl
  | cons r rs ih =>
    have hn : (w.note r).files = w.files := by simp [note, loggedFiles, h]
    rw [report_cons]
    exact (ih (w := w.note r) h).trans hn

/-- Which sources are loaded does not show in the log. -/
theorem report_with_project (w : Workspace) (p : Project) (rs : List LogRecord) :
    ({ w with project := p } : Workspace).report rs = { w.report rs with project := p } := by
  induction rs generalizing w with
  | nil => rfl
  | cons r rs ih => exact ih (w.note r)

/-- What looking and logging may make of a workspace. -/
def Reported (w w' : Workspace) : Prop := ∃ rs, w' = w.report rs

instance : Std.Refl Reported := ⟨fun _ => ⟨[], rfl⟩⟩

instance : IsTrans Workspace Reported where
  trans := by
    rintro w _ _ ⟨rs, rfl⟩ ⟨rs', rfl⟩
    exact ⟨rs ++ rs', List.foldl_append.symm⟩

theorem Reported.project_eq {w w' : Workspace} (h : Reported w w') : w'.project = w.project := by
  obtain ⟨rs, rfl⟩ := h
  rw [report_eq]

/-- What looking, logging and loading sources may make of a workspace. -/
def Undisturbed (w w' : Workspace) : Prop := ∃ rs p, w' = { w.report rs with project := p }

instance : Std.Refl Undisturbed := ⟨fun w => ⟨[], w.project, rfl⟩⟩

instance : IsTrans Workspace Undisturbed where
  trans := by
    rintro w _ _ ⟨rs, p, rfl⟩ ⟨rs', p', rfl⟩
    refine ⟨rs ++ rs', p', ?_⟩
    rw [report_with_project, report, report, report, List.foldl_append]

theorem Reported.undisturbed {w w' : Workspace} (h : Reported w w') : Undisturbed w w' := by
  obtain ⟨rs, rfl⟩ := h
  exact ⟨rs, w.project, by rw [report_eq]⟩

end Workspace

namespace Action

/-- The actions that only look and log, and may fail in any way. -/
abbrev OnlyReports {α : Type} (a : Action α) : Prop :=
  Within Workspace.Reported (fun _ => True) a

/-- The actions that only look, log and load sources, and may fail in any way. -/
abbrev OnlyLooks {α : Type} (a : Action α) : Prop :=
  Within Workspace.Undisturbed (fun _ => True) a

@[simp] theorem outcome_record (level : LogLevel) (logger message : Text) (w : Workspace) :
    (record level logger message).outcome w =
      (.ok ⟨⟩, w.note ⟨level, loggerRoot ++ logger, message⟩) := rfl

/-- A loop that logs one record for each element of a list. -/
theorem outcome_forIn_note {α : Type} {f : α → PUnit → Action (ForInStep PUnit)}
    {r : α → LogRecord} (h : ∀ x w, (f x ⟨⟩).outcome w = (.ok (.yield ⟨⟩), w.note (r x)))
    (xs : List α) (w : Workspace) :
    (forIn xs PUnit.unit f).outcome w = (.ok ⟨⟩, w.report (xs.map r)) := by
  induction xs generalizing w with
  | nil => rfl
  | cons x xs ih =>
    rw [List.forIn_cons, outcome_bind_ok (h x w)]
    exact ih _

namespace OnlyReports

variable {α : Type}

theorem record (level : LogLevel) (logger message : Text) :
    OnlyReports (Action.record level logger message) :=
  ⟨fun _ => ⟨[⟨level, loggerRoot ++ logger, message⟩], rfl⟩, fun _ _ _ => trivial⟩

theorem look (f : Workspace → Except Fault α) : OnlyReports (Action.look f) :=
  Within.look (fun _ => trivial) f

theorem onlyLooks {a : Action α} (h : OnlyReports a) : OnlyLooks a :=
  ⟨fun w => (h.leaves w).undisturbed, fun _ _ _ => trivial⟩

end OnlyReports

namespace OnlyLooks

variable {α : Type}

theorem record (level : LogLevel) (logger message : Text) :
    OnlyLooks (Action.record level logger message) :=
  ⟨fun w => ⟨[⟨level, loggerRoot ++ logger, message⟩], w.project, rfl⟩, fun _ _ _ => trivial⟩

theorem look (f : Workspace → Except Fault α) : OnlyLooks (Action.look f) :=
  Within.look (fun _ => trivial) f

theorem ofMistakes (r : Except Mistake α) : OnlyLooks (Action.ofMistakes r) := by
  cases r with
  | ok x => exact Within.pure x
  | error m => exact Within.throw trivial

theorem ofEscapes (r : Except TypeScript.EscapeError α) : OnlyLooks (Action.ofEscapes r) :=
  Within.ofEscapes (fun _ => trivial) r

/-- Replacing the loaded sources. -/
theorem reload (f : Workspace → Project) :
    OnlyLooks (modify fun w => { w with project := f w }) :=
  ⟨fun w => ⟨[], f w, rfl⟩, fun _ _ _ => trivial⟩

end OnlyLooks

end Action

end CustomElements
