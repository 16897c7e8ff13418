import Mathlib.Data.List.Forall2
import CustomElements.Files.Fault

/-!
# Computations that may fail

A sequence has an answer if each of its steps has one. The lemmas open such a sequence step by step.
-/

namespace CustomElements

variable {ε α β : Type}

theorem exists_eq_ok_iff_isSome {x : Except ε α} : (∃ a, x = .ok a) ↔ x.toOption.isSome := by
  cases x with
  | ok a => exact iff_of_true ⟨a, rfl⟩ rfl
  | error e => exact iff_of_false nofun nofun

theorem exceptBind_eq_ok {x : Except ε α} {f : α → Except ε β} {b : β} :
    (x >>= f) = .ok b ↔ ∃ a, x = .ok a ∧ f a = .ok b := by
  cases x <;> simp [bind, Except.bind]

theorem exceptBind_eq_error {x : Except ε α} {f : α → Except ε β} {e : ε} :
    (x >>= f) = .error e ↔ x = .error e ∨ ∃ a, x = .ok a ∧ f a = .error e := by
  cases x <;> simp [bind, Except.bind]

/-- What comes after an answer needs to be the same for that answer only. -/
theorem exceptBind_congr {x : Except ε α} {f g : α → Except ε β}
    (h : ∀ a, x = .ok a → f a = g a) : (x >>= f) = (x >>= g) := by
  cases x with
  | ok a => exact h a rfl
  | error e => rfl

theorem exceptMap_eq_ok {x : Except ε α} {f : α → β} {b : β} :
    (f <$> x) = .ok b ↔ ∃ a, x = .ok a ∧ f a = b := by
  cases x <;> simp [Functor.map, Except.map]

theorem exceptForM_eq_ok {xs : List α} {f : α → Except ε Unit} :
    xs.forM f = .ok () ↔ ∀ x ∈ xs, f x = .ok () := by
  induction xs with
  | nil => simp [List.forM, pure, Except.pure]
  | cons x xs ih =>
    show (f x >>= fun _ => xs.forM f) = _ ↔ _
    rw [exceptBind_eq_ok, List.forall_mem_cons, ← ih]
    exact ⟨fun ⟨_, hx, hs⟩ => ⟨hx, hs⟩, fun ⟨hx, hs⟩ => ⟨_, hx, hs⟩⟩

/-- A loop without answers fails with the first of its steps that fails. -/
theorem exceptForM_eq_error {xs : List α} {f : α → Except ε Unit} {e : ε} :
    xs.forM f = .error e ↔ ∃ before x after, xs = before ++ x :: after ∧
      (∀ y ∈ before, f y = .ok ()) ∧ f x = .error e := by
  constructor
  · intro h
    induction xs with
    | nil => cases h
    | cons x xs ih =>
      rcases exceptBind_eq_error.1 h with hx | ⟨u, hx, h⟩
      · exact ⟨[], x, xs, rfl, List.forall_mem_nil _, hx⟩
      · obtain ⟨before, y, after, rfl, hbefore, hy⟩ := ih h
        exact ⟨x :: before, y, after, rfl, List.forall_mem_cons.2 ⟨hx, hbefore⟩, hy⟩
  · rintro ⟨before, x, after, rfl, hbefore, hx⟩
    induction before with
    | nil => exact exceptBind_eq_error.2 (.inl hx)
    | cons y before ih =>
      rw [List.forall_mem_cons] at hbefore
      exact exceptBind_eq_error.2 (.inr ⟨(), hbefore.1, ih hbefore.2⟩)

/-- Loops whose steps do the same do the same. -/
theorem exceptMapM_congr {xs : List α} {f g : α → Except ε β} (h : ∀ x ∈ xs, f x = g x) :
    xs.mapM f = xs.mapM g := by
  induction xs with
  | nil => rfl
  | cons x xs ih =>
    rw [List.forall_mem_cons] at h
    rw [List.mapM_cons, List.mapM_cons, h.1, ih h.2]

theorem exceptMapM_cons_eq_ok {x : α} {xs : List α} {f : α → Except ε β} {ys : List β} :
    (x :: xs).mapM f = .ok ys ↔ ∃ y zs, f x = .ok y ∧ xs.mapM f = .ok zs ∧ ys = y :: zs := by
  rw [List.mapM_cons, exceptBind_eq_ok]
  constructor
  · rintro ⟨y, hy, h⟩
    obtain ⟨zs, hzs, h⟩ := exceptBind_eq_ok.1 h
    exact ⟨y, zs, hy, hzs, (Except.ok.inj h).symm⟩
  · rintro ⟨y, zs, hy, hzs, rfl⟩
    exact ⟨y, hy, exceptBind_eq_ok.2 ⟨zs, hzs, rfl⟩⟩

/-- A loop has an answer for each element of its list. -/
theorem exceptMapM_eq_ok {xs : List α} {f : α → Except ε β} {ys : List β} :
    xs.mapM f = .ok ys ↔ List.Forall₂ (fun x y => f x = .ok y) xs ys := by
  induction xs generalizing ys with
  | nil =>
    rw [List.mapM_nil, List.forall₂_nil_left_iff]
    exact ⟨fun h => (Except.ok.inj h).symm, fun h => h ▸ rfl⟩
  | cons x xs ih =>
    rw [exceptMapM_cons_eq_ok, List.forall₂_cons_left_iff]
    simp only [ih]

/-- A loop has an answer if each of its steps has one. -/
theorem exceptMapM_ok_iff {xs : List α} {f : α → Except ε β} :
    (∃ ys, xs.mapM f = .ok ys) ↔ ∀ x ∈ xs, ∃ y, f x = .ok y := by
  simp only [exceptMapM_eq_ok]
  induction xs with
  | nil => exact iff_of_true ⟨[], .nil⟩ (List.forall_mem_nil _)
  | cons x xs ih =>
    rw [List.forall_mem_cons, ← ih]
    constructor
    · rintro ⟨_, h⟩
      obtain ⟨y, ys, hy, hys, -⟩ := List.forall₂_cons_left_iff.1 h
      exact ⟨⟨y, hy⟩, ys, hys⟩
    · rintro ⟨⟨y, hy⟩, ys, hys⟩
      exact ⟨y :: ys, .cons hy hys⟩

/-- Two loops over a list have the same answers exactly if they have them for each element. -/
theorem exceptMapM_eq_iff {xs : List α} {f g : α → Except ε β} {P : α → Prop} {ys zs : List β}
    (hy : xs.mapM f = .ok ys) (hz : xs.mapM g = .ok zs)
    (h : ∀ x ∈ xs, ∀ y z, f x = .ok y → g x = .ok z → (y = z ↔ P x)) :
    ys = zs ↔ ∀ x ∈ xs, P x := by
  rw [exceptMapM_eq_ok] at hy hz
  induction hy generalizing zs with
  | nil =>
    obtain rfl := List.forall₂_nil_left_iff.1 hz
    exact iff_of_true rfl (List.forall_mem_nil _)
  | @cons x y xs ys hx _ ih =>
    obtain ⟨z, zs, hxz, hrest, rfl⟩ := List.forall₂_cons_left_iff.1 hz
    rw [List.forall_mem_cons] at h ⊢
    rw [List.cons.injEq, h.1 y z hx hxz, ih hrest h.2]

/-- What is gathered from the answers of a loop may be gathered after it. -/
theorem exceptFoldlM_eq {γ : Type} (f : α → Except ε β) (g : γ → β → γ) (xs : List α) (c : γ) :
    xs.foldlM (fun c x => do return g c (← f x)) c = (do return (← xs.mapM f).foldl g c) := by
  induction xs generalizing c with
  | nil => rfl
  | cons x xs ih =>
    rw [List.foldlM_cons, List.mapM_cons]
    cases f x with
    | error e => rfl
    | ok y =>
      change xs.foldlM _ (g c y) = (do
        let zs ← (do return y :: (← xs.mapM f))
        return zs.foldl g c)
      rw [ih]
      cases xs.mapM f <;> rfl

/-- A loop ends at its first element without an answer. -/
theorem exceptMapM_append_error {before : List α} {x : α} {f : α → Except ε β} {e : ε}
    (hbefore : ∀ y ∈ before, ∃ z, f y = .ok z) (hx : f x = .error e) (after : List α) :
    (before ++ x :: after).mapM f = .error e := by
  obtain ⟨zs, hzs⟩ := exceptMapM_ok_iff.2 hbefore
  rw [List.mapM_append, hzs, List.mapM_cons, hx]
  rfl

/-- Either a loop has an answer for each element, or there is a first one without. -/
theorem exceptMapM_cases (xs : List α) (f : α → Except ε β) :
    (∃ ys, xs.mapM f = .ok ys) ∨
    ∃ before x after e, xs = before ++ x :: after ∧ (∀ y ∈ before, ∃ z, f y = .ok z) ∧
      f x = .error e := by
  rw [exceptMapM_ok_iff]
  induction xs with
  | nil => exact .inl (List.forall_mem_nil _)
  | cons x xs ih =>
    cases hx : f x with
    | error e => exact .inr ⟨[], x, xs, e, rfl, List.forall_mem_nil _, hx⟩
    | ok y =>
      rcases ih with hall | ⟨before, z, after, e, rfl, hbefore, hz⟩
      · exact .inl (List.forall_mem_cons.2 ⟨⟨y, hx⟩, hall⟩)
      · exact .inr ⟨x :: before, z, after, e, rfl, List.forall_mem_cons.2 ⟨⟨y, hx⟩, hbefore⟩, hz⟩

/-- What a loop ends with is what one of its steps ends with. -/
theorem exists_mem_of_exceptMapM_eq_error {xs : List α} {f : α → Except ε β} {e : ε}
    (h : xs.mapM f = .error e) : ∃ x ∈ xs, f x = .error e := by
  rcases exceptMapM_cases xs f with ⟨ys, hys⟩ | ⟨before, x, after, e', rfl, hbefore, hx⟩
  · rw [hys] at h
    cases h
  · rw [exceptMapM_append_error hbefore hx] at h
    cases h
    exact ⟨x, List.mem_append_right _ List.mem_cons_self, hx⟩

/-- A loop whose steps fail in one way only fails in this way, if one of them does. -/
theorem exceptMapM_eq_error_of_only {xs : List α} {f : α → Except ε β} {e only : ε}
    (h : ∀ x e, f x = .error e → e = only) :
    xs.mapM f = .error e ↔ e = only ∧ ∃ x ∈ xs, f x = .error only := by
  constructor
  · intro hfail
    obtain ⟨x, hx, hstep⟩ := exists_mem_of_exceptMapM_eq_error hfail
    obtain rfl := h x e hstep
    exact ⟨rfl, x, hx, hstep⟩
  · rintro ⟨rfl, x, hx, hstep⟩
    rcases exceptMapM_cases xs f with ⟨ys, hys⟩ | ⟨before, y, after, e', rfl, hbefore, hy⟩
    · obtain ⟨z, hz⟩ := exceptMapM_ok_iff.1 ⟨ys, hys⟩ x hx
      rw [hstep] at hz
      cases hz
    · rw [exceptMapM_append_error hbefore hy, h y e' hy]

end CustomElements
