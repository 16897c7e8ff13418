import Mathlib.Data.List.Infix
import Mathlib.Data.List.TakeWhile
import CustomElements.Files.Pattern

/-!
# What name patterns match

Two patterns one after the other match two texts one after the other. An asterisk matches any text,
slashes included, but the slashes that a pattern writes itself have to be in the text: a text with
fewer of them does not match.
-/

namespace CustomElements.Pattern

variable {is js : List PatternItem} {t u : Text}

theorem mem_suffixes {s : Text} : s ∈ suffixes t ↔ s <:+ t := by
  induction t with
  | nil => simp [suffixes]
  | cons c t ih => rw [suffixes, List.mem_cons, ih, List.suffix_cons_iff]

theorem matchesItems_anything :
    matchesItems (.anything :: is) t ↔ ∃ s, s <:+ t ∧ matchesItems is s := by
  rw [matchesItems, List.any_eq_true]
  exact exists_congr fun s => and_congr_left' mem_suffixes

/-- All items but an asterisk match a single character. -/
theorem matchesItems_cons {i : PatternItem} (hi : i ≠ .anything) :
    matchesItems (i :: is) t ↔ ∃ c r, t = c :: r ∧ i.accepts c ∧ matchesItems is r := by
  cases t <;> cases i <;> simp_all [matchesItems]

theorem matchesItems_append (hi : matchesItems is t) (hj : matchesItems js u) :
    matchesItems (is ++ js) (t ++ u) := by
  induction is generalizing t with
  | nil =>
    obtain rfl := List.isEmpty_iff.1 hi
    exact hj
  | cons i is ih =>
    rw [List.cons_append]
    by_cases ha : i = .anything
    · subst ha
      obtain ⟨s, ⟨before, rfl⟩, hs⟩ := matchesItems_anything.1 hi
      refine matchesItems_anything.2 ⟨s ++ u, ⟨before, ?_⟩, ih hs⟩
      rw [List.append_assoc]
    · obtain ⟨c, r, rfl, hc, hr⟩ := (matchesItems_cons ha).1 hi
      exact (matchesItems_cons ha).2 ⟨c, r ++ u, rfl, hc, ih hr⟩

/-- An asterisk at the end matches whatever is left. -/
theorem matchesItems_anything_only (t : Text) : matchesItems [.anything] t :=
  matchesItems_anything.2 ⟨[], List.nil_suffix, rfl⟩

theorem matchesItems_literals : matchesItems (t.map .literal) u ↔ u = t := by
  induction t generalizing u with
  | nil => simp [matchesItems]
  | cons c t ih =>
    rw [List.map_cons, matchesItems_cons (by simp)]
    constructor
    · rintro ⟨d, r, rfl, hd, hr⟩
      obtain rfl : d = c := by simpa [PatternItem.accepts] using hd
      rw [ih.1 hr]
    · rintro rfl
      exact ⟨c, t, rfl, by simp [PatternItem.accepts], ih.2 rfl⟩

/-- The characters at the start of a bracket that cannot close it. -/
def bracketLead : Text → Nat
  | .scalar '!' :: .scalar ']' :: _ => 2
  | .scalar '!' :: _ => 1
  | .scalar ']' :: _ => 1
  | _ => 0

/-- The length of the text up to the first closing bracket behind its lead. -/
def closingFrom? (lead : Nat) (t : Text) : Option Nat :=
  let k := ((t.drop lead).takeWhile fun c => decide (c ≠ .scalar ']')).length
  if lead + k < t.length then some (lead + k) else none

theorem bracketLength?_eq (t : Text) : bracketLength? t = closingFrom? (bracketLead t) t := rfl

theorem bracketLead_le (t : Text) : bracketLead t ≤ t.length := by
  unfold bracketLead
  split <;> simp

theorem bracketLead_cons (c : CodePoint) (t : Text) :
    bracketLead (c :: t) =
      if c = .scalar '!' then (if t.head? = some (.scalar ']') then 2 else 1)
      else if c = .scalar ']' then 1 else 0 := by
  unfold bracketLead
  split <;> simp_all [List.head?_eq_some_iff]

theorem bracketLead_append {c : CodePoint} {t u : Text} (hu : .scalar ']' ∉ u) :
    bracketLead (c :: t ++ u) = bracketLead (c :: t) := by
  have hhead : (t ++ u).head? = some (.scalar ']') ↔ t.head? = some (.scalar ']') := by
    cases t with
    | cons d t => rfl
    | nil => exact ⟨fun h => absurd (List.mem_of_mem_head? h) hu, fun h => by cases h⟩
  rw [List.cons_append, bracketLead_cons, bracketLead_cons]
  simp only [hhead]

theorem closingFrom?_eq_none {lead : Nat} (hl : lead ≤ t.length)
    (hc : .scalar ']' ∉ t.drop lead) : closingFrom? lead t = none := by
  have hall : ∀ c ∈ t.drop lead, decide (c ≠ .scalar ']') = true :=
    fun c hm => decide_eq_true fun h => hc (h ▸ hm)
  rw [closingFrom?, List.takeWhile_eq_self_iff.2 hall, List.length_drop]
  exact if_neg (by omega)

theorem closingFrom?_append {lead : Nat} (hl : lead ≤ t.length) (hu : .scalar ']' ∉ u) :
    closingFrom? lead (t ++ u) = closingFrom? lead t := by
  have hdrop : (t ++ u).drop lead = t.drop lead ++ u := List.drop_append_of_le_length hl
  by_cases hc : .scalar ']' ∈ t.drop lead
  · have hshort : ((t.drop lead).takeWhile fun c => decide (c ≠ .scalar ']')).length <
        (t.drop lead).length := by
      refine lt_of_le_of_ne (List.takeWhile_prefix _).length_le fun h => ?_
      have hall := List.takeWhile_eq_self_iff.1 ((List.takeWhile_prefix _).eq_of_length h) _ hc
      exact absurd rfl (of_decide_eq_true hall)
    rw [closingFrom?, closingFrom?, hdrop, List.takeWhile_append, if_neg hshort.ne,
      List.length_append]
    rw [List.length_drop] at hshort
    rw [if_pos (by omega), if_pos (by omega)]
  · have hcu : .scalar ']' ∉ (t ++ u).drop lead := by
      rw [hdrop, List.mem_append, not_or]
      exact ⟨hc, hu⟩
    rw [closingFrom?_eq_none hl hc,
      closingFrom?_eq_none (hl.trans (List.length_append ▸ Nat.le_add_right _ _)) hcu]

/-- A bracket that is open stays open before a text without closing brackets. -/
theorem bracketLength?_append (hu : .scalar ']' ∉ u) :
    bracketLength? (t ++ u) = bracketLength? t := by
  cases t with
  | nil =>
    exact closingFrom?_eq_none (bracketLead_le u) fun hm => hu (List.mem_of_mem_drop hm)
  | cons c t =>
    rw [bracketLength?_eq, bracketLength?_eq, bracketLead_append hu,
      closingFrom?_append (bracketLead_le _) hu]

theorem bracketLength?_lt {k : Nat} (h : bracketLength? t = some k) : k < t.length := by
  rw [bracketLength?_eq, closingFrom?] at h
  split at h
  · next hlt => exact Option.some.inj h ▸ hlt
  · cases h

theorem itemsFrom_append (hu : .scalar ']' ∉ u) {skip : Nat} (hs : skip ≤ t.length) :
    itemsFrom skip (t ++ u) = itemsFrom skip t ++ items u := by
  induction t generalizing skip with
  | nil =>
    obtain rfl : skip = 0 := Nat.le_zero.1 hs
    rfl
  | cons c t ih =>
    rw [List.cons_append]
    cases skip with
    | succ k => exact ih (Nat.le_of_succ_le_succ hs)
    | zero =>
      simp only [itemsFrom]
      split
      · rw [ih (Nat.zero_le _), List.cons_append]
      · rw [ih (Nat.zero_le _), List.cons_append]
      · rw [bracketLength?_append hu]
        split
        · next k hk =>
          have hlt := bracketLength?_lt hk
          rw [ih hlt, List.take_append_of_le_length hlt.le, List.cons_append]
        · rw [ih (Nat.zero_le _), List.cons_append]
      · rw [ih (Nat.zero_le _), List.cons_append]

/-- The items of a text without closing brackets behind another text. -/
theorem items_append (t : Text) (hu : .scalar ']' ∉ u) : items (t ++ u) = items t ++ items u :=
  itemsFrom_append hu (Nat.zero_le _)

/-- A text without wildcards matches itself only. -/
theorem items_of_not_hasWildcard (h : hasWildcard t = false) : items t = t.map .literal := by
  induction t with
  | nil => rfl
  | cons c t ih =>
    rw [hasWildcard, List.any_cons, Bool.or_eq_false_iff] at h
    have hc := of_decide_eq_false h.1
    have hrest : itemsFrom 0 t = t.map .literal := ih h.2
    rw [items, itemsFrom, List.map_cons, hrest] <;> grind

theorem accepts_of_not_hasWildcard (h : hasWildcard t = false) : accepts t u ↔ u = t := by
  rw [accepts, items_of_not_hasWildcard h, matchesItems_literals]

end CustomElements.Pattern
