import CustomElements.Proofs.Answers

/-!
# Related answers

Two computations side by side: they fail in the same way, or their answers are related
(`AnswersAlike`). Sequences and loops of such computations are related again. Before that, what the
searches in related rows find.
-/

namespace CustomElements

section Rows

variable {α β : Type} {R : α → β → Prop} {xs : List α} {ys : List β}

theorem optionRel_cases {x : Option α} {y : Option β} (h : Option.Rel R x y) :
    (x = none ∧ y = none) ∨ ∃ a b, x = some a ∧ y = some b ∧ R a b := by
  cases h with
  | none => exact .inl ⟨rfl, rfl⟩
  | some hab => exact .inr ⟨_, _, rfl, rfl, hab⟩

theorem forall₂_head? (h : List.Forall₂ R xs ys) : Option.Rel R xs.head? ys.head? := by
  cases h with
  | nil => exact .none
  | cons first _ => exact .some first

theorem forall₂_getLast? (h : List.Forall₂ R xs ys) : Option.Rel R xs.getLast? ys.getLast? := by
  rw [← List.head?_reverse, ← List.head?_reverse]
  exact forall₂_head? (List.forall₂_reverse_iff.2 h)

theorem forall₂_tail (h : List.Forall₂ R xs ys) : List.Forall₂ R xs.tail ys.tail := by
  cases h with
  | nil => exact .nil
  | cons _ rest => exact rest

/-- Related elements are elements of their rows. -/
theorem forall₂_with_mem (h : List.Forall₂ R xs ys) :
    List.Forall₂ (fun x y => R x y ∧ x ∈ xs ∧ y ∈ ys) xs ys := by
  induction h with
  | nil => exact .nil
  | cons first _ ih =>
    refine .cons ⟨first, List.mem_cons_self, List.mem_cons_self⟩ (ih.imp fun x y hxy => ?_)
    exact ⟨hxy.1, List.mem_cons_of_mem _ hxy.2.1, List.mem_cons_of_mem _ hxy.2.2⟩

/-- Each element has one that it is related to in the other row. -/
theorem forall₂_exists_right (h : List.Forall₂ R xs ys) : ∀ x ∈ xs, ∃ y ∈ ys, R x y := by
  induction h with
  | nil => exact List.forall_mem_nil _
  | cons first _ ih =>
    refine List.forall_mem_cons.2 ⟨⟨_, List.mem_cons_self, first⟩, fun x hx => ?_⟩
    obtain ⟨y, hy, hxy⟩ := ih x hx
    exact ⟨y, List.mem_cons_of_mem _ hy, hxy⟩

theorem forall₂_exists_left (h : List.Forall₂ R xs ys) : ∀ y ∈ ys, ∃ x ∈ xs, R x y :=
  forall₂_exists_right h.flip

theorem forall₂_filterMap_id {os : List (Option α)} {os' : List (Option β)}
    (h : List.Forall₂ (Option.Rel R) os os') :
    List.Forall₂ R (os.filterMap id) (os'.filterMap id) :=
  List.rel_filterMap (fun _ _ h => h) h

end Rows

variable {ε α β : Type}

/-- The same failure, or answers that are related. -/
inductive AnswersAlike {γ : Type} (R : α → γ → Prop) : Except ε α → Except ε γ → Prop where
  | ok {a : α} {c : γ} (related : R a c) : AnswersAlike R (.ok a) (.ok c)
  | error (e : ε) : AnswersAlike R (.error e) (.error e)

namespace AnswersAlike

variable {γ δ : Type} {R : α → γ → Prop} {S : β → δ → Prop}

theorem eq {x y : Except ε α} (h : AnswersAlike Eq x y) : x = y := by
  cases h with
  | ok related => rw [related]
  | error e => rfl

theorem of_eq {x y : Except ε α} (h : x = y) : AnswersAlike Eq x y := by
  cases h
  cases x with
  | ok a => exact .ok rfl
  | error e => exact .error e

/-- The related answer is the answer. -/
theorem with_right {x : Except ε α} {y : Except ε γ} (h : AnswersAlike R x y) :
    AnswersAlike (fun a c => R a c ∧ y = .ok c) x y := by
  cases h with
  | ok related => exact .ok ⟨related, rfl⟩
  | error e => exact .error e

theorem mono {R' : α → γ → Prop} {x : Except ε α} {y : Except ε γ} (h : AnswersAlike R x y)
    (hr : ∀ a c, R a c → R' a c) : AnswersAlike R' x y := by
  cases h with
  | ok related => exact .ok (hr _ _ related)
  | error e => exact .error e

theorem bind {x : Except ε α} {y : Except ε γ} {f : α → Except ε β} {g : γ → Except ε δ}
    (h : AnswersAlike R x y) (hf : ∀ a c, R a c → AnswersAlike S (f a) (g c)) :
    AnswersAlike S (x >>= f) (y >>= g) := by
  cases h with
  | ok related => exact hf _ _ related
  | error e => exact .error e

theorem map {x : Except ε α} {y : Except ε γ} {f : α → β} {g : γ → δ}
    (h : AnswersAlike R x y) (hf : ∀ a c, R a c → S (f a) (g c)) :
    AnswersAlike S (f <$> x) (g <$> y) := by
  cases h with
  | ok related => exact .ok (hf _ _ related)
  | error e => exact .error e

/-- Loops over related elements have related answers if each of their steps has. -/
theorem mapM {xs : List α} {ys : List γ} {f : α → Except ε β} {g : γ → Except ε δ}
    (h : List.Forall₂ (fun x y => AnswersAlike S (f x) (g y)) xs ys) :
    AnswersAlike (List.Forall₂ S) (xs.mapM f) (ys.mapM g) := by
  induction h with
  | nil => exact .ok .nil
  | cons first _ ih =>
    rw [List.mapM_cons, List.mapM_cons]
    exact first.bind fun a c hac => ih.bind fun as cs hs => .ok (.cons hac hs)

end AnswersAlike

end CustomElements
