import Mathlib.Order.Defs.Unbundled
import CustomElements.Proofs.Answers
import CustomElements.Workspace

/-!
# Outcomes of actions

An action maps a workspace to an answer and a workspace. The lemmas below run the
primitive actions. `Within` bounds all runs of an action at once, by what they may
change and by how they may fail; it is closed under sequence, loops and handlers,
so a bound of a whole run follows from the bounds of its steps.
-/

namespace CustomElements

/-- A workspace with an empty current directory and no log file. -/
def Workspace.bare : Workspace where
  files := .dir [("ws", .dir [])]
  current := "/ws"
  home := "/home"
  project := ⟨"/ws", []⟩

/-- A file that was written as characters is read as they are, up to its line ends. -/
theorem Workspace.readText_of_read {w : Workspace} {p : Path} {content : List Char}
    (h : w.read p = .ok (Bytes.ofChars content)) : w.readText p = .ok (unifyLineEnds content) := by
  refine exceptBind_eq_ok.2 ⟨_, h, ?_⟩
  rw [Bytes.chars?_ofChars]
  rfl

namespace Action

variable {α β σ : Type}

/-- The answer of an action and the workspace it leaves. -/
def outcome (a : Action α) (w : Workspace) : Except Failure α × Workspace := Id.run (a.run.run w)

@[simp] theorem outcome_pure (x : α) (w : Workspace) :
    (pure x : Action α).outcome w = (.ok x, w) := rfl

@[simp] theorem outcome_throw (e : Failure) (w : Workspace) :
    (throw e : Action α).outcome w = (.error e, w) := rfl

@[simp] theorem outcome_fail (m : Mistake) (w : Workspace) :
    (fail m : Action α).outcome w = (.error (.mistake m), w) := rfl

@[simp] theorem outcome_faulty (f : Fault) (w : Workspace) :
    (faulty f : Action α).outcome w = (.error (.fault f), w) := rfl

@[simp] theorem outcome_get (w : Workspace) :
    (get : Action Workspace).outcome w = (.ok w, w) := rfl

@[simp] theorem outcome_set (v w : Workspace) :
    (set v : Action PUnit).outcome w = (.ok ⟨⟩, v) := rfl

@[simp] theorem outcome_modify (f : Workspace → Workspace) (w : Workspace) :
    (modify f : Action PUnit).outcome w = (.ok ⟨⟩, f w) := rfl

/-- A sequence goes on only from an answer. -/
theorem outcome_bind (a : Action α) (f : α → Action β) (w : Workspace) :
    (a >>= f).outcome w = match a.outcome w with
      | (.ok x, w') => (f x).outcome w'
      | (.error e, w') => (.error e, w') := by
  unfold outcome
  rw [ExceptT.run_bind]
  simp only [StateT.run_bind, Id.run_bind]
  rcases Id.run (a.run.run w) with ⟨r, w'⟩
  cases r <;> rfl

theorem outcome_bind_ok {a : Action α} {x : α} {w w' : Workspace}
    (h : a.outcome w = (.ok x, w')) (f : α → Action β) :
    (a >>= f).outcome w = (f x).outcome w' := by
  rw [outcome_bind, h]

theorem outcome_bind_error {a : Action α} {e : Failure} {w w' : Workspace}
    (h : a.outcome w = (.error e, w')) (f : α → Action β) :
    (a >>= f).outcome w = (.error e, w') := by
  rw [outcome_bind, h]

/-- A sequence does not tell its first step from another one with the same outcome. -/
theorem outcome_bind_congr {a b : Action α} {w v : Workspace} (h : a.outcome w = b.outcome v)
    (f : α → Action β) : (a >>= f).outcome w = (b >>= f).outcome v := by
  rw [outcome_bind, outcome_bind, h]

/-- A sequence has an answer if its steps have. -/
theorem outcome_bind_eq_ok {a : Action α} {f : α → Action β} {y : β} {w w' : Workspace} :
    (a >>= f).outcome w = (.ok y, w') ↔
      ∃ x v, a.outcome w = (.ok x, v) ∧ (f x).outcome v = (.ok y, w') := by
  rw [outcome_bind]
  rcases a.outcome w with ⟨e | x, v⟩
  · simp
  · constructor
    · exact fun h => ⟨x, v, rfl, h⟩
    · rintro ⟨_, _, hstep, h⟩
      cases hstep
      exact h

@[simp] theorem outcome_get_bind (f : Workspace → Action β) (w : Workspace) :
    (get >>= f).outcome w = (f w).outcome w := outcome_bind_ok (outcome_get w) f

/-- A handler runs where the failed action stopped; nothing is undone. -/
theorem outcome_tryCatch (a : Action α) (handler : Failure → Action α) (w : Workspace) :
    (tryCatch a handler).outcome w = match a.outcome w with
      | (.ok x, w') => (.ok x, w')
      | (.error e, w') => (handler e).outcome w' := by
  unfold outcome
  rw [ExceptT.run_tryCatch]
  simp only [StateT.run_bind, Id.run_bind]
  rcases Id.run (a.run.run w) with ⟨r, w'⟩
  cases r <;> rfl

@[simp] theorem outcome_ofFaults (r : Except Fault α) (w : Workspace) :
    (ofFaults r).outcome w = (r.mapError Failure.fault, w) := by
  cases r <;> rfl

@[simp] theorem outcome_look (f : Workspace → Except Fault α) (w : Workspace) :
    (look f).outcome w = ((f w).mapError Failure.fault, w) := by
  unfold look
  rw [outcome_get_bind, outcome_ofFaults]

theorem outcome_look_eq_ok {f : Workspace → Except Fault α} {x : α} {w w' : Workspace} :
    (look f).outcome w = (.ok x, w') ↔ f w = .ok x ∧ w' = w := by
  rw [outcome_look, Prod.mk.injEq]
  cases f w <;> simp [Except.mapError, eq_comm]

/-- Steps for the elements of a list have an answer for each of them, in the order of the list. -/
theorem outcome_listMapM_eq_ok {f : α → Action β} {xs : List α} {ys : List β} {w w' : Workspace}
    (h : (xs.mapM f).outcome w = (.ok ys, w')) :
    List.Forall₂ (fun x y => ∃ v v', (f x).outcome v = (.ok y, v')) xs ys := by
  induction xs generalizing ys w with
  | nil =>
    rw [List.mapM_nil] at h
    cases h
    exact .nil
  | cons x xs ih =>
    rw [List.mapM_cons] at h
    obtain ⟨y, v, hy, hrest⟩ := outcome_bind_eq_ok.1 h
    obtain ⟨zs, v', hzs, hend⟩ := outcome_bind_eq_ok.1 hrest
    cases hend
    exact .cons ⟨w, v, hy⟩ (ih hzs)

/-- A run with an answer, from the fact that it has one. -/
theorem exists_outcome_of_isSome {a : Action α} {w : Workspace}
    (h : (a.outcome w).1.toOption.isSome) : ∃ x w', a.outcome w = (.ok x, w') := by
  generalize a.outcome w = r at h
  obtain ⟨_ | x, w'⟩ := r
  · cases h
  · exact ⟨x, w', rfl⟩

/-- A run with a certain answer, from the fact that it has this one. -/
theorem exists_outcome_of_toOption {a : Action α} {x : α} {w : Workspace}
    (h : (a.outcome w).1.toOption = some x) : ∃ w', a.outcome w = (.ok x, w') := by
  generalize a.outcome w = r at h
  obtain ⟨_ | y, w'⟩ := r
  · cases h
  · cases h
    exact ⟨w', rfl⟩

/-- What an action may do from any workspace: it leaves one that `R` allows after
the one it started from, and it fails only as `P` allows. -/
structure Within (R : Workspace → Workspace → Prop) (P : Failure → Prop) (a : Action α) : Prop where
  leaves : ∀ w, R w (a.outcome w).2
  fails : ∀ w e, (a.outcome w).1 = .error e → P e

namespace Within

variable {R : Workspace → Workspace → Prop} {P : Failure → Prop}

/-- The bound of one run, from what it answers and leaves. -/
theorem of_outcome {a : Action α}
    (h : ∀ w, R w (a.outcome w).2 ∧ ∀ e, (a.outcome w).1 = .error e → P e) : Within R P a :=
  ⟨fun w => (h w).1, fun w => (h w).2⟩

/-- After a look at the workspace only the runs from what was seen count. -/
theorem get_bind {f : Workspace → Action β}
    (h : ∀ w, R w ((f w).outcome w).2 ∧ ∀ e, ((f w).outcome w).1 = .error e → P e) :
    Within R P (get >>= f) := by
  apply of_outcome
  intro w
  rw [outcome_get_bind]
  exact h w

section Reflexive

variable [Std.Refl R]

theorem pure (x : α) : Within R P (Pure.pure x) :=
  ⟨fun w => Std.Refl.refl w, fun w e h => by simp at h⟩

theorem throw {e : Failure} (h : P e) : Within R P (MonadExcept.throw e : Action α) := by
  refine ⟨fun w => Std.Refl.refl w, fun w e' h' => ?_⟩
  simp only [outcome_throw, Except.error.injEq] at h'
  exact h' ▸ h

theorem get : Within R P (MonadState.get : Action Workspace) :=
  ⟨fun w => Std.Refl.refl w, fun w e h => by simp at h⟩

theorem fail {m : Mistake} (h : P (.mistake m)) : Within R P (Action.fail m : Action α) := throw h

theorem faulty {f : Fault} (h : P (.fault f)) : Within R P (Action.faulty f : Action α) := throw h

variable (hP : ∀ f, P (.fault f))

include hP

theorem ofFaults (r : Except Fault α) : Within R P (Action.ofFaults r) := by
  cases r with
  | ok x => exact pure x
  | error f => exact faulty (hP f)

theorem ofEscapes (r : Except TypeScript.EscapeError α) : Within R P (Action.ofEscapes r) := by
  rcases r with (_ | _) | x
  · exact faulty (hP _)
  · exact faulty (hP _)
  · exact pure x

theorem look (f : Workspace → Except Fault α) : Within R P (Action.look f) :=
  get_bind fun w => ⟨(ofFaults hP (f w)).leaves w, (ofFaults (R := R) hP (f w)).fails w⟩

end Reflexive

section Transitive

variable [IsTrans Workspace R]

theorem bind {a : Action α} {f : α → Action β} (ha : Within R P a) (hf : ∀ x, Within R P (f x)) :
    Within R P (a >>= f) := by
  apply of_outcome
  intro w
  have hl := ha.leaves w
  have he := ha.fails w
  rw [outcome_bind]
  rcases h : a.outcome w with ⟨r, w'⟩
  rw [h] at hl he
  cases r with
  | ok x => exact ⟨trans_of R hl ((hf x).leaves w'), (hf x).fails w'⟩
  | error e => exact ⟨hl, fun e' h' => he e' (by simpa using h')⟩

theorem tryCatch {a : Action α} {handler : Failure → Action α} (ha : Within R (fun _ => True) a)
    (hh : ∀ e, Within R P (handler e)) : Within R P (MonadExcept.tryCatch a handler) := by
  apply of_outcome
  intro w
  have hl := ha.leaves w
  rw [outcome_tryCatch]
  rcases h : a.outcome w with ⟨r, w'⟩
  rw [h] at hl
  cases r with
  | ok x => exact ⟨hl, fun e h' => by simp at h'⟩
  | error e => exact ⟨trans_of R hl ((hh e).leaves w'), (hh e).fails w'⟩

variable [Std.Refl R]

theorem map {a : Action α} (ha : Within R P a) (f : α → β) : Within R P (f <$> a) := by
  rw [map_eq_pure_bind]
  exact ha.bind fun x => pure (f x)

theorem listMapM {f : α → Action β} (hf : ∀ x, Within R P (f x)) (xs : List α) :
    Within R P (xs.mapM f) := by
  induction xs with
  | nil => exact pure []
  | cons x xs ih =>
    rw [List.mapM_cons]
    exact (hf x).bind fun y => ih.bind fun ys => pure (y :: ys)

theorem optionMapM {f : α → Action β} (hf : ∀ x, Within R P (f x)) (x : Option α) :
    Within R P (x.mapM f) := by
  cases x with
  | none => exact pure none
  | some x => exact (hf x).map some

theorem foldlM {f : σ → α → Action σ} (hf : ∀ s x, Within R P (f s x)) (xs : List α) (s : σ) :
    Within R P (xs.foldlM f s) := by
  induction xs generalizing s with
  | nil => exact pure s
  | cons x xs ih =>
    rw [List.foldlM_cons]
    exact (hf s x).bind fun t => ih t

theorem forIn {f : α → σ → Action (ForInStep σ)} (hf : ∀ x s, Within R P (f x s)) (xs : List α)
    (s : σ) : Within R P (ForIn.forIn xs s f) := by
  induction xs generalizing s with
  | nil => exact pure s
  | cons x xs ih =>
    rw [List.forIn_cons]
    refine (hf x s).bind fun step => ?_
    cases step with
    | done t => exact pure t
    | yield t => exact ih t

end Transitive

end Within

end Action

end CustomElements
