import Mathlib.Data.List.TakeWhile
import CustomElements.Text.Blank

/-!
# Trimming texts

Trimming a text takes blanks away from both of its ends. What is left neither starts nor ends with
a blank, and it is the only such text that is the whole text with blanks around it. So the blanks
around a text do not change what it is trimmed to. A text that is as long as before is the same.
-/

namespace CustomElements.Text

/-- The text neither starts nor ends with a blank. -/
structure IsTrimmed (t : Text) : Prop where
  front : ∀ p ∈ t.head?, p.isBlank = false
  back : ∀ p ∈ t.getLast?, p.isBlank = false

/-- The first text is the second one with blanks around it. -/
def Pads (t core : Text) : Prop :=
  ∃ before after, t = before ++ core ++ after ∧ before.isBlank ∧ after.isBlank

variable {t u v : Text} {p : CodePoint}

theorem isBlank_append (t u : Text) : (t ++ u).isBlank = (t.isBlank && u.isBlank) := List.all_append

theorem not_mem_of_isBlank (h : t.isBlank) (hp : p.isBlank = false) : p ∉ t := fun hm =>
  Bool.eq_false_iff.1 hp (List.all_eq_true.1 h p hm)

/-! ### Blanks around a text -/

namespace Pads

theorem refl (t : Text) : t.Pads t := ⟨[], [], (List.append_nil t).symm, rfl, rfl⟩

theorem trans (h : t.Pads u) (hu : u.Pads v) : t.Pads v := by
  obtain ⟨b, a, rfl, hb, ha⟩ := h
  obtain ⟨b', a', rfl, hb', ha'⟩ := hu
  refine ⟨b ++ b', a' ++ a, by simp only [List.append_assoc], ?_, ?_⟩
  · rw [isBlank_append, hb, hb', Bool.and_self]
  · rw [isBlank_append, ha, ha', Bool.and_self]

theorem isBlank_eq (h : t.Pads u) : t.isBlank = u.isBlank := by
  obtain ⟨before, after, rfl, hb, ha⟩ := h
  rw [isBlank_append, isBlank_append, hb, ha, Bool.true_and, Bool.and_true]

theorem count_eq (h : t.Pads u) (hp : p.isBlank = false) : t.count p = u.count p := by
  obtain ⟨before, after, rfl, hb, ha⟩ := h
  rw [List.count_append, List.count_append, List.count_eq_zero.2 (not_mem_of_isBlank hb hp),
    List.count_eq_zero.2 (not_mem_of_isBlank ha hp), Nat.zero_add, Nat.add_zero]

theorem mem_iff (h : t.Pads u) (hp : p.isBlank = false) : p ∈ t ↔ p ∈ u := by
  rw [← List.count_pos_iff, h.count_eq hp, List.count_pos_iff]

end Pads

/-! ### One end -/

theorem stripLeft_suffix (t : Text) : t.stripLeft <:+ t := List.dropWhile_suffix _

theorem stripLeft_of_isBlank (h : t.isBlank) : t.stripLeft = [] :=
  List.dropWhile_eq_nil_iff.2 (List.all_eq_true.1 h)

theorem stripLeft_cons (h : p.isBlank = false) (t : Text) : stripLeft (p :: t) = p :: t :=
  List.dropWhile_cons_of_neg (by rw [h]; decide)

/-- Trimming the front stops at a character that is not blank. -/
theorem stripLeft_append (h : p.isBlank = false) (t r : Text) :
    stripLeft (t ++ p :: r) = stripLeft t ++ p :: r := by
  rw [stripLeft, List.dropWhile_append]
  split
  · next hempty =>
    have hnil : stripLeft t = [] := List.isEmpty_iff.1 hempty
    rw [hnil]
    exact stripLeft_cons h r
  · rfl

theorem pads_stripLeft (t : Text) : t.Pads t.stripLeft := by
  refine ⟨t.takeWhile CodePoint.isBlank, [], ?_, ?_, rfl⟩
  · rw [List.append_nil, stripLeft, List.takeWhile_append_dropWhile]
  · exact List.all_eq_true.2 fun p hp => List.mem_takeWhile_imp hp

theorem isBlank_of_mem_head?_stripLeft (h : p ∈ t.stripLeft.head?) : p.isBlank = false := by
  have hhead := List.head?_dropWhile_not CodePoint.isBlank t
  have hp : (t.dropWhile CodePoint.isBlank).head? = some p := h
  rw [hp] at hhead
  exact hhead

/-- What is taken off the end are blanks. -/
theorem exists_stripRight (t : Text) :
    ∃ blanks, t = t.stripRight ++ blanks ∧ ∀ p ∈ blanks, p.isBlank := by
  refine ⟨(t.reverse.takeWhile CodePoint.isBlank).reverse, ?_, fun p hp => ?_⟩
  · rw [stripRight, dropRightWhile, ← List.reverse_append, List.takeWhile_append_dropWhile,
      List.reverse_reverse]
  · exact List.mem_takeWhile_imp (List.mem_reverse.1 hp)

theorem stripRight_eq (t : Text) : t.stripRight = (stripLeft t.reverse).reverse := rfl

theorem stripRight_of_isBlank (h : t.isBlank) : t.stripRight = [] := by
  have hreverse : isBlank t.reverse := List.all_reverse.trans h
  rw [stripRight_eq, stripLeft_of_isBlank hreverse, List.reverse_nil]

theorem stripRight_isPrefix (t : Text) : t.stripRight <+: t := by
  obtain ⟨blanks, h, _⟩ := exists_stripRight t
  exact ⟨blanks, h.symm⟩

/-- Trimming the end stops at a character that is not blank. -/
theorem stripRight_append (h : p.isBlank = false) (t r : Text) :
    stripRight (t ++ p :: r) = t ++ p :: stripRight r := by
  have hsplit : (t ++ p :: r).reverse = r.reverse ++ p :: t.reverse := by simp
  rw [stripRight_eq, hsplit, stripLeft_append h, List.reverse_append, List.reverse_cons,
    List.reverse_reverse, ← stripRight_eq, List.append_assoc, List.singleton_append]

theorem pads_stripRight (t : Text) : t.Pads t.stripRight := by
  obtain ⟨blanks, htext, hblanks⟩ := exists_stripRight t
  exact ⟨[], blanks, htext, rfl, List.all_eq_true.2 hblanks⟩

/-! ### Both ends -/

theorem pads_strip (t : Text) : t.Pads t.strip :=
  (pads_stripLeft t).trans (pads_stripRight t.stripLeft)

theorem isTrimmed_strip (t : Text) : t.strip.IsTrimmed := by
  constructor
  · intro p hp
    obtain ⟨after, hafter⟩ := stripRight_isPrefix t.stripLeft
    have hfirst : t.stripLeft.head? = some p := by
      rw [← hafter, List.head?_append]
      exact Option.or_eq_some_iff.2 (.inl hp)
    exact isBlank_of_mem_head?_stripLeft hfirst
  · intro p hp
    rw [strip, stripRight_eq, List.getLast?_reverse] at hp
    exact isBlank_of_mem_head?_stripLeft hp

theorem strip_of_isBlank (h : t.isBlank) : t.strip = [] := by
  rw [strip, stripLeft_of_isBlank h]
  rfl

/-- The trimmed text is the only text without blanks at its ends that the text pads. -/
theorem strip_eq_iff : t.strip = u ↔ u.IsTrimmed ∧ t.Pads u := by
  constructor
  · rintro rfl
    exact ⟨isTrimmed_strip t, pads_strip t⟩
  · rintro ⟨hu, hpads⟩
    rcases List.eq_nil_or_concat u with hnil | ⟨front, last, hlast⟩
    · have hblank : t.isBlank := by
        rw [hpads.isBlank_eq, hnil]
        rfl
      rw [strip_of_isBlank hblank, hnil]
    · rw [List.concat_eq_append] at hlast
      have hne : u ≠ [] := by
        rw [hlast]
        exact List.concat_ne_nil last front
      obtain ⟨first, rest, hfirst⟩ := List.exists_cons_of_ne_nil hne
      obtain ⟨before, after, rfl, hb, ha⟩ := hpads
      have hfront : first.isBlank = false := hu.front first (by rw [hfirst]; rfl)
      have hback : last.isBlank = false := hu.back last (by rw [hlast]; simp)
      have hleft : stripLeft (before ++ u ++ after) = u ++ after := by
        rw [hfirst, List.append_assoc, List.cons_append, stripLeft_append hfront,
          stripLeft_of_isBlank hb, List.nil_append]
      rw [strip, hleft, hlast, List.append_assoc, List.singleton_append, stripRight_append hback,
        stripRight_of_isBlank ha]

theorem strip_eq_nil : t.strip = [] ↔ t.isBlank := by
  refine ⟨fun h => ?_, strip_of_isBlank⟩
  rw [(pads_strip t).isBlank_eq, h]
  rfl

theorem Pads.strip_eq (h : t.Pads u) : t.strip = u.strip :=
  strip_eq_iff.2 ⟨isTrimmed_strip u, h.trans (pads_strip u)⟩

theorem strip_append (h : p.isBlank = false) (t r : Text) :
    strip (t ++ p :: r) = t.stripLeft ++ p :: r.stripRight := by
  rw [strip, stripLeft_append h, stripRight_append h]

/-- A text that is trimmed already has no blanks at its end. -/
theorem stripRight_of_strip {t : Text} (h : t.strip = t) : t.stripRight = t := by
  have hlength := (stripRight_isPrefix t.stripLeft).length_le
  rw [← strip, h] at hlength
  have hleft := (stripLeft_suffix t).eq_of_length_le hlength
  rwa [strip, hleft] at h

/-- Trimming the end first and then both ends changes a text that trimming changes. -/
theorem strip_of_strip_stripRight {t : Text} (h : t.stripRight.strip = t) : t.strip = t := by
  rw [(pads_stripRight t).strip_eq, h]

end CustomElements.Text
