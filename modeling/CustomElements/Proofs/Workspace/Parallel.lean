import Mathlib.Order.Basic
import CustomElements.Proofs.Workspace.Undisturbed

/-!
# Runs side by side

Two actions start in workspaces that a relation `R` holds of. They run in parallel if both end in
the same way: with answers that `Q` relates or with the same failure, and in workspaces that `R'`
relates. The rules below build such a pair of runs from the pairs of their steps, so what two runs
have in common follows from what each kind of step does to `R`.

`ApartFromLog` is the least such relation that the log may be forgotten under.
-/

namespace CustomElements

namespace Action

variable {α β γ δ σ τ : Type}

/-- Ends that are alike: answers that `Q` relates, or one failure. -/
inductive SameEnd (Q : α → β → Prop) : Except Failure α → Except Failure β → Prop
  | answer {x : α} {y : β} (h : Q x y) : SameEnd Q (.ok x) (.ok y)
  | failure (e : Failure) : SameEnd Q (.error e) (.error e)

theorem SameEnd.eq {r s : Except Failure α} (h : SameEnd Eq r s) : r = s := by
  cases h with
  | answer h => exact congrArg _ h
  | failure e => rfl

theorem SameEnd.mono {P Q : α → β → Prop} {r : Except Failure α} {s : Except Failure β}
    (h : SameEnd P r s) (hPQ : P ≤ Q) : SameEnd Q r s := by
  cases h with
  | answer hx => exact .answer (hPQ _ _ hx)
  | failure e => exact .failure e

/-- From workspaces that `R` relates, two actions come to ends that are alike and to workspaces that
`R'` relates. -/
def Parallel (R R' : Workspace → Workspace → Prop) (Q : α → β → Prop) (a : Action α)
    (b : Action β) : Prop :=
  ∀ w v, R w v →
    SameEnd Q (a.outcome w).1 (b.outcome v).1 ∧ R' (a.outcome w).2 (b.outcome v).2

namespace Parallel

variable {R R₁ R₂ : Workspace → Workspace → Prop} {P : α → β → Prop} {Q : γ → δ → Prop}

theorem mono {a : Action α} {b : Action β} {P' : α → β → Prop} (h : Parallel R R₁ P a b)
    (hR : R₁ ≤ R₂) (hP : P ≤ P') : Parallel R R₂ P' a b := by
  intro w v hw
  obtain ⟨hend, hleft⟩ := h w v hw
  exact ⟨hend.mono hP, hR _ _ hleft⟩

theorem pure {x : α} {y : β} (h : P x y) : Parallel R R P (Pure.pure x) (Pure.pure y) :=
  fun _ _ hw => ⟨.answer h, hw⟩

theorem throw (e : Failure) :
    Parallel R R P (MonadExcept.throw e : Action α) (MonadExcept.throw e : Action β) :=
  fun _ _ hw => ⟨.failure e, hw⟩

theorem modify {f g : Workspace → Workspace} (h : ∀ w v, R w v → R₁ (f w) (g v)) :
    Parallel R R₁ Eq (modify f : Action PUnit) (modify g : Action PUnit) :=
  fun w v hw => ⟨.answer rfl, h w v hw⟩

theorem set {w' v' : Workspace} (h : R₁ w' v') :
    Parallel R R₁ Eq (set w' : Action PUnit) (set v' : Action PUnit) :=
  fun _ _ _ => ⟨.answer rfl, h⟩

/-- The steps after an answer go on from where the first steps stopped; after a failure there are
none, so `R₂` must hold there already. -/
theorem bind {a : Action α} {b : Action β} {f : α → Action γ} {g : β → Action δ}
    (hab : Parallel R R₁ P a b) (hR : R₁ ≤ R₂)
    (hfg : ∀ x y, P x y → Parallel R₁ R₂ Q (f x) (g y)) :
    Parallel R R₂ Q (a >>= f) (b >>= g) := by
  intro w v hw
  obtain ⟨hend, hleft⟩ := hab w v hw
  rw [outcome_bind, outcome_bind]
  revert hend hleft
  generalize a.outcome w = r
  generalize b.outcome v = s
  obtain ⟨r, w'⟩ := r
  obtain ⟨s, v'⟩ := s
  intro hend hleft
  cases hend with
  | answer hx => exact hfg _ _ hx w' v' hleft
  | failure e => exact ⟨.failure e, hR _ _ hleft⟩

/-- Steps one after the other that keep the same relation. -/
theorem andThen {a : Action α} {b : Action β} {f : α → Action γ} {g : β → Action δ}
    (hab : Parallel R R P a b) (hfg : ∀ x y, P x y → Parallel R R Q (f x) (g y)) :
    Parallel R R Q (a >>= f) (b >>= g) :=
  hab.bind le_rfl hfg

/-- Where the first steps answer the same, the next ones need only run in parallel from there. -/
theorem andThen_eq {a b : Action α} {f : α → Action γ} {g : α → Action δ}
    (hab : Parallel R R Eq a b) (hfg : ∀ x, Parallel R R Q (f x) (g x)) :
    Parallel R R Q (a >>= f) (b >>= g) :=
  hab.andThen fun x _ hx => hx ▸ hfg x

/-- What was seen of related workspaces may differ as the workspaces do. -/
theorem get_bind {f : Workspace → Action γ} {g : Workspace → Action δ}
    (h : ∀ w v, R w v → Parallel R R₁ Q (f w) (g v)) : Parallel R R₁ Q (get >>= f) (get >>= g) := by
  intro w v hw
  rw [outcome_get_bind, outcome_get_bind]
  exact h w v hw w v hw

theorem ofFaults (r : Except Fault α) : Parallel R R Eq (Action.ofFaults r) (Action.ofFaults r) := by
  cases r with
  | ok x => exact pure rfl
  | error f => exact throw _

/-- Both runs go on from the same result, if there is one. -/
theorem ofMistakes (r : Except Mistake α) :
    Parallel R R (fun x y => x = y ∧ r = .ok x) (Action.ofMistakes r) (Action.ofMistakes r) := by
  cases r with
  | ok x => exact pure ⟨rfl, rfl⟩
  | error m => exact throw _

theorem ofEscapes (r : Except TypeScript.EscapeError α) :
    Parallel R R Eq (Action.ofEscapes r) (Action.ofEscapes r) := by
  rcases r with (_ | _) | x
  · exact throw _
  · exact throw _
  · exact pure rfl

/-- Looks that see the same answer the same. -/
theorem look {f g : Workspace → Except Fault α} (h : ∀ w v, R w v → f w = g v) :
    Parallel R R Eq (Action.look f) (Action.look g) := by
  refine get_bind fun w v hw => ?_
  rw [h w v hw]
  exact ofFaults (g v)

end Parallel

end Action

namespace Workspace

/-- Two workspaces without a log file that only the log and the console may tell apart. -/
def ApartFromLog (w v : Workspace) : Prop :=
  w.logFile = none ∧ v = { w with log := v.log, stderr := v.stderr }

namespace ApartFromLog

variable {w v : Workspace}

theorem refl (h : w.logFile = none) : ApartFromLog w w := ⟨h, rfl⟩

/-- The right workspace written down in terms of the left one. -/
theorem cases (h : ApartFromLog w v) :
    w.logFile = none ∧ ∃ log stderr, v = { w with log := log, stderr := stderr } :=
  ⟨h.1, v.log, v.stderr, h.2⟩

theorem symm (h : ApartFromLog w v) : ApartFromLog v w := by
  obtain ⟨hlog, log, stderr, rfl⟩ := h.cases
  exact ⟨hlog, rfl⟩

theorem trans {u : Workspace} (h : ApartFromLog w v) (h' : ApartFromLog v u) :
    ApartFromLog w u := by
  obtain ⟨hlog, log, stderr, rfl⟩ := h.cases
  obtain ⟨-, log', stderr', rfl⟩ := h'.cases
  exact ⟨hlog, rfl⟩

/-- Without a log file a record goes to the log and to the console only. -/
theorem note (h : w.logFile = none) (r : LogRecord) : ApartFromLog w (w.note r) := by
  have hfiles : w.loggedFiles r = w.files := by rw [loggedFiles, h]
  refine ⟨h, ?_⟩
  rw [Workspace.note, hfiles]

theorem report (h : w.logFile = none) (rs : List LogRecord) : ApartFromLog w (w.report rs) := by
  refine ⟨h, ?_⟩
  rw [report_eq w rs, report_files h]

end ApartFromLog

end Workspace

namespace Action

variable {α : Type}

/-- An action that takes no notice of the log and the console: from workspaces that differ only
there it answers the same and leaves such workspaces. -/
def IgnoresLog (a : Action α) : Prop :=
  Parallel Workspace.ApartFromLog Workspace.ApartFromLog Eq a a

namespace IgnoresLog

variable {β : Type}

theorem pure (x : α) : IgnoresLog (Pure.pure x) := Parallel.pure rfl

theorem throw (e : Failure) : IgnoresLog (MonadExcept.throw e : Action α) := Parallel.throw e

theorem bind {a : Action α} {f : α → Action β} (ha : IgnoresLog a) (hf : ∀ x, IgnoresLog (f x)) :
    IgnoresLog (a >>= f) := Parallel.andThen_eq ha hf

theorem ofFaults (r : Except Fault α) : IgnoresLog (Action.ofFaults r) := Parallel.ofFaults r

theorem ofMistakes (r : Except Mistake α) : IgnoresLog (Action.ofMistakes r) :=
  (Parallel.ofMistakes r).mono le_rfl fun _ _ h => h.1

theorem ofEscapes (r : Except TypeScript.EscapeError α) : IgnoresLog (Action.ofEscapes r) :=
  Parallel.ofEscapes r

/-- Records go where the difference may be. -/
theorem record (level : LogLevel) (logger message : Text) :
    IgnoresLog (Action.record level logger message) := by
  refine Parallel.modify fun w v h => ?_
  have hnote := fun r => Workspace.ApartFromLog.note h.1 r
  exact (hnote _).symm.trans (h.trans (.note h.symm.1 _))

/-- A look that sees neither the log nor the console. -/
theorem look {f : Workspace → Except Fault α}
    (h : ∀ (w : Workspace) log stderr, f { w with log := log, stderr := stderr } = f w) :
    IgnoresLog (Action.look f) := by
  refine Parallel.look fun w v hw => ?_
  obtain ⟨-, log, stderr, rfl⟩ := hw.cases
  exact (h w log stderr).symm

theorem get_bind {f : Workspace → Action β} (hf : ∀ w, IgnoresLog (f w))
    (h : ∀ (w : Workspace) log stderr, f { w with log := log, stderr := stderr } = f w) :
    IgnoresLog (get >>= f) := by
  refine Parallel.get_bind fun w v hw => ?_
  obtain ⟨-, log, stderr, rfl⟩ := hw.cases
  have hsame : f { w with log := log, stderr := stderr } = f w := h w log stderr
  rw [hsame]
  exact hf w

/-- A change of what both workspaces have in common. -/
theorem modify {f : Workspace → Workspace} (hlog : ∀ w, (f w).logFile = w.logFile)
    (h : ∀ (w : Workspace) log stderr, f { w with log := log, stderr := stderr } =
      { f w with log := log, stderr := stderr }) : IgnoresLog (modify f) := by
  refine Parallel.modify fun w v hw => ?_
  obtain ⟨hnone, log, stderr, rfl⟩ := hw.cases
  rw [h w log stderr]
  exact ⟨(hlog w).trans hnone, rfl⟩

theorem change {f : Workspace → Except Fault FileTree}
    (h : ∀ (w : Workspace) log stderr, f { w with log := log, stderr := stderr } = f w) :
    IgnoresLog (Action.change f) :=
  (look h).bind fun _ => modify (fun _ => rfl) fun _ _ _ => rfl

theorem listMapM {f : α → Action β} (hf : ∀ x, IgnoresLog (f x)) (xs : List α) :
    IgnoresLog (xs.mapM f) := by
  induction xs with
  | nil => exact pure []
  | cons x xs ih =>
    rw [List.mapM_cons]
    exact (hf x).bind fun y => ih.bind fun ys => pure (y :: ys)

end IgnoresLog

end Action

end CustomElements
