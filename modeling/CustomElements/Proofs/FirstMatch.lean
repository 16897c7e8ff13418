import Mathlib.Data.List.Basic
import Mathlib.Data.List.Nodup

/-!
# First elements

A search looks at the elements up to the first one that matches. What it finds is that one
(`IsFirst`), and only the elements up to it can make it fail (`UpToFirst`). The value that is found
under a key belongs to the first entry with that key, which is the only one where no key is
repeated. A list that is built element by element, without those that it holds already, ends up with
the first occurrences of all of them.
-/

namespace CustomElements

section Match

variable {α : Type} {P Q : α → Prop} {x y : α} {xs : List α}

/-- The first element that satisfies `P`. -/
def IsFirst (P : α → Prop) (xs : List α) (y : α) : Prop :=
  ∃ before after, xs = before ++ y :: after ∧ P y ∧ ∀ x ∈ before, ¬ P x

theorem not_isFirst_nil : ¬ IsFirst P [] y := by
  rintro ⟨before, after, hsplit, -⟩
  exact List.append_ne_nil_of_right_ne_nil before (List.cons_ne_nil y after) hsplit.symm

theorem IsFirst.mem (h : IsFirst P xs y) : y ∈ xs := by
  obtain ⟨before, after, rfl, -⟩ := h
  exact List.mem_append_right before List.mem_cons_self

theorem IsFirst.holds (h : IsFirst P xs y) : P y := by
  obtain ⟨-, -, -, hy, -⟩ := h
  exact hy

theorem isFirst_cons_of_pos (hx : P x) : IsFirst P (x :: xs) y ↔ y = x := by
  constructor
  · rintro ⟨before, after, hsplit, -, hbefore⟩
    cases before with
    | nil => exact (List.cons.inj hsplit).1.symm
    | cons b before =>
      obtain rfl := (List.cons.inj hsplit).1
      exact (hbefore x List.mem_cons_self hx).elim
  · rintro rfl
    exact ⟨[], xs, rfl, hx, List.forall_mem_nil _⟩

theorem isFirst_cons_of_neg (hx : ¬ P x) : IsFirst P (x :: xs) y ↔ IsFirst P xs y := by
  constructor
  · rintro ⟨before, after, hsplit, hy, hbefore⟩
    cases before with
    | nil => exact (hx ((List.cons.inj hsplit).1 ▸ hy)).elim
    | cons b before =>
      exact ⟨before, after, (List.cons.inj hsplit).2, hy, (List.forall_mem_cons.1 hbefore).2⟩
  · rintro ⟨before, after, rfl, hy, hbefore⟩
    exact ⟨x :: before, after, rfl, hy, List.forall_mem_cons.2 ⟨hx, hbefore⟩⟩

theorem find?_eq_some_iff_isFirst {p : α → Bool} :
    xs.find? p = some y ↔ IsFirst (fun x => p x) xs y := by
  rw [List.find?_eq_some_iff_append, IsFirst]
  simp only [Bool.not_eq_true', Bool.not_eq_true]
  exact ⟨fun ⟨hy, before, after, hsplit, hbefore⟩ => ⟨before, after, hsplit, hy, hbefore⟩,
    fun ⟨before, after, hsplit, hy, hbefore⟩ => ⟨hy, before, after, hsplit, hbefore⟩⟩

/-- `Q` holds of the elements up to the first one that satisfies `P`. -/
def UpToFirst (P Q : α → Prop) (xs : List α) : Prop :=
  ∀ before x after, xs = before ++ x :: after → (∀ b ∈ before, ¬ P b) → Q x

theorem upToFirst_of_forall (h : ∀ x ∈ xs, Q x) : UpToFirst P Q xs := by
  rintro before x after rfl -
  exact h x (List.mem_append_right before List.mem_cons_self)

theorem upToFirst_nil : UpToFirst P Q [] := upToFirst_of_forall (List.forall_mem_nil _)

theorem upToFirst_cons : UpToFirst P Q (x :: xs) ↔ Q x ∧ (P x ∨ UpToFirst P Q xs) := by
  constructor
  · intro h
    refine ⟨h [] x xs rfl (List.forall_mem_nil _), ?_⟩
    by_cases hx : P x
    · exact .inl hx
    · refine .inr fun before y after hsplit hbefore => ?_
      exact h (x :: before) y after (hsplit ▸ rfl) (List.forall_mem_cons.2 ⟨hx, hbefore⟩)
  · rintro ⟨hx, hrest⟩ before y after hsplit hbefore
    cases before with
    | nil => exact (List.cons.inj hsplit).1 ▸ hx
    | cons b before =>
      obtain ⟨rfl, htail⟩ := List.cons.inj hsplit
      obtain ⟨hb, hbefore⟩ := List.forall_mem_cons.1 hbefore
      exact hrest.resolve_left hb before y after htail hbefore

theorem upToFirst_congr {R : α → Prop} (h : ∀ x ∈ xs, (Q x ↔ R x)) :
    UpToFirst P Q xs ↔ UpToFirst P R xs := by
  refine forall₃_congr fun before x after => ?_
  constructor
  · rintro hQ rfl hbefore
    exact (h x (by simp)).1 (hQ rfl hbefore)
  · rintro hR rfl hbefore
    exact (h x (by simp)).2 (hR rfl hbefore)

end Match

section Lookup

variable {α β : Type} [BEq α] [LawfulBEq α] {es : List (α × β)} {key : α} {value : β}

theorem lookup_cons [DecidableEq α] (first other : α) (d : β) (es : List (α × β)) :
    ((first, d) :: es).lookup other = if other = first then some d else es.lookup other := by
  rw [List.lookup_cons]
  by_cases h : other = first
  · rw [if_pos h, beq_iff_eq.2 h]
  · rw [if_neg h, beq_eq_false_iff_ne.2 h]

theorem lookup_eq_none_iff : es.lookup key = none ↔ key ∉ es.map Prod.fst := by
  rw [List.lookup_eq_none_iff, List.mem_map]
  constructor
  · rintro h ⟨e, he, rfl⟩
    exact absurd (h e he) (by simp)
  · intro h e he
    rw [bne_iff_ne]
    exact fun heq => h ⟨e, he, heq.symm⟩

theorem mem_of_lookup (h : es.lookup key = some value) : (key, value) ∈ es := by
  induction es with
  | nil => cases h
  | cons x es ih =>
    obtain ⟨first, d⟩ := x
    rw [List.lookup_cons] at h
    split at h
    · next heq =>
      obtain rfl := Option.some.inj h
      rw [eq_of_beq heq]
      exact List.mem_cons_self
    · exact List.mem_cons_of_mem _ (ih h)

/-- An entry is found under its key. -/
theorem lookup_of_mem (hn : (es.map Prod.fst).Nodup) (h : (key, value) ∈ es) :
    es.lookup key = some value := by
  induction es with
  | nil => cases h
  | cons x es ih =>
    obtain ⟨first, d⟩ := x
    rw [List.map_cons, List.nodup_cons] at hn
    rcases List.mem_cons.1 h with heq | h
    · obtain ⟨rfl, rfl⟩ := Prod.mk.inj heq
      exact List.lookup_cons_self
    · have hne : (key == first) = false := by
        rw [beq_eq_false_iff_ne]
        intro heq
        have hm : key ∈ es.map Prod.fst := List.mem_map_of_mem h
        exact hn.1 (heq ▸ hm)
      rw [List.lookup_cons, hne]
      exact ih hn.2 h

end Lookup

section Occurrences

theorem nodup_append_singleton {α : Type} {xs : List α} {x : α} (h : xs.Nodup) (hnew : x ∉ xs) :
    (xs ++ [x]).Nodup := by
  rw [← List.concat_eq_append]
  exact h.concat hnew

variable {α : Type} [BEq α] [LawfulBEq α]

/-- What is kept after one more element are the first occurrences from that element on. -/
theorem eraseDups_kept (chosen : List α) (x : α) (xs : List α) :
    (if chosen.contains x then chosen else chosen ++ [x]) ++
        (xs.filter fun y =>
          !(if chosen.contains x then chosen else chosen ++ [x]).contains y).eraseDups =
      chosen ++ ((x :: xs).filter fun y => !chosen.contains y).eraseDups := by
  by_cases hc : chosen.contains x
  · rw [if_pos hc, List.filter_cons_of_neg (by simpa using hc)]
  · rw [if_neg hc, List.filter_cons_of_pos (by simpa using hc), List.eraseDups_cons,
      List.filter_filter, List.append_assoc, List.singleton_append]
    have hfilter : (xs.filter fun y => !(chosen ++ [x]).contains y) =
        xs.filter fun y => !y == x && !chosen.contains y := by
      refine List.filter_congr fun y _ => ?_
      rw [Bool.eq_iff_iff]
      simp [and_comm]
    rw [hfilter]

theorem nodup_eraseDups (xs : List α) : xs.eraseDups.Nodup := by
  cases xs with
  | nil => exact List.nodup_nil
  | cons x xs =>
    rw [List.eraseDups_cons, List.nodup_cons, List.mem_eraseDups]
    exact ⟨by simp, nodup_eraseDups _⟩
termination_by xs.length
decreasing_by exact Nat.lt_succ_of_le (List.length_filter_le _ _)

/-- Which elements are left out does not change which occurrence of the others is the first. -/
theorem eraseDups_filter (keep : α → Bool) (xs : List α) :
    (xs.filter keep).eraseDups = xs.eraseDups.filter keep := by
  cases xs with
  | nil => rfl
  | cons x xs =>
    have hrest := eraseDups_filter keep (xs.filter fun y => !y == x)
    rw [List.eraseDups_cons]
    by_cases hx : keep x
    · rw [List.filter_cons_of_pos hx, List.filter_cons_of_pos hx, List.eraseDups_cons, ← hrest,
        List.filter_filter, List.filter_filter]
      simp only [Bool.and_comm]
    · rw [List.filter_cons_of_neg hx, List.filter_cons_of_neg hx, ← hrest, List.filter_filter]
      -- what is kept is not the element that is left out
      have hsame : xs.filter keep = xs.filter fun y => keep y && !y == x := by
        refine List.filter_congr fun y _ => ?_
        by_cases hy : y = x
        · rw [hy, Bool.eq_false_iff.2 hx, Bool.false_and]
        · rw [beq_false_of_ne hy, Bool.not_false, Bool.and_true]
      rw [hsame]
termination_by xs.length
decreasing_by exact Nat.lt_succ_of_le (List.length_filter_le _ _)

end Occurrences

end CustomElements
