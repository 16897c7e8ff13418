import CustomElements.Proofs.Text.CodePoints
import CustomElements.Text.LowerCase

/-!
# Lower case

A code point that is no letter has no other form in lower case, and an ASCII capital has its small
letter. What letters beyond ASCII become is beyond ASCII too, apart from the Kelvin sign and the
capital letter I with a dot above.
-/

namespace CustomElements

namespace CodePoint

/-- A code point before the letters, or between the capitals and the letters beyond the first 128
code points, has no other form in lower case. -/
def IsPlain (p : CodePoint) : Prop := p.val < 0x41 ∨ 0x5A < p.val ∧ p.val < 0xC0

instance (p : CodePoint) : Decidable p.IsPlain := inferInstanceAs (Decidable (_ ∨ _))

/-- The number changes by the distance of a run that it is in, if there is one. -/
theorem lowerVal_cases (n : Nat) : lowerVal n = n ∨
    ∃ r ∈ caseRuns, r.first ≤ n ∧ n ≤ r.last ∧ lowerVal n = (n + r.distance).toNat := by
  unfold lowerVal
  split
  · next r hr =>
    have hin := Array.find?_some hr
    simp only [Bool.and_eq_true, decide_eq_true_eq] at hin
    exact .inr ⟨r, Array.mem_of_find?_eq_some hr, hin.1.1, hin.1.2, rfl⟩
  · exact .inl rfl

theorem lower_of_isPlain {p : CodePoint} (h : p.IsPlain) : p.lower = [p] := by
  have hruns : ∀ r ∈ caseRuns, 0x41 ≤ r.first ∧ (r.last ≤ 0x5A ∨ 0xC0 ≤ r.first) := by
    decide +kernel
  have hval : lowerVal p.val = p.val := by
    rcases lowerVal_cases p.val with hsame | ⟨r, hr, hfirst, hlast, -⟩
    · exact hsame
    · have hrun := hruns r hr
      rcases h with h | h <;> omega
  have hdot : (p.val == 0x130) = false := by
    rw [beq_eq_false_iff_ne]
    rcases h with h | h <;> omega
  rw [lower, hdot, hval, ofNat?_val]
  rfl

theorem lower_of_isUpper {c : Char} (h : c.isUpper) : lower (.scalar c) = [.scalar c.toLower] :=
  forall_alphanum (P := fun c => c.isUpper → lower (.scalar c) = [.scalar c.toLower])
    (by decide +kernel) (isUpper_isAlphanum h) h

/-- A letter beyond ASCII has its lower case form beyond ASCII, with two exceptions. -/
theorem lower_of_far {p : CodePoint} (h : 0xC0 ≤ p.val) : p.lower = [.scalar 'k'] ∨
    p.lower = [.scalar 'i', .scalar (Char.ofNat 0x307)] ∨ ∃ q, p.lower = [q] ∧ 0x80 ≤ q.val := by
  have hruns : ∀ r ∈ caseRuns, r.last < 0xC0 ∨ 0x80 ≤ r.first + r.distance ∨
      r.first = 0x212A ∧ r.last = 0x212A := by decide +kernel
  by_cases hdot : p.val = 0x130
  · rw [lower, beq_iff_eq.2 hdot]
    exact .inr (.inl rfl)
  · rw [lower, beq_eq_false_iff_ne.2 hdot]
    by_cases hkelvin : p.val = 0x212A
    · have hk : ofNat? (lowerVal 0x212A) = some (.scalar 'k') := by decide +kernel
      rw [hkelvin, hk]
      exact .inl rfl
    · have hval : 0x80 ≤ lowerVal p.val := by
        rcases lowerVal_cases p.val with hsame | ⟨r, hr, hfirst, hlast, heq⟩
        · omega
        · have hrun := hruns r hr
          omega
      refine .inr (.inr ?_)
      rw [if_neg Bool.false_ne_true]
      split
      · next q hq => exact ⟨q, rfl, val_of_ofNat? hq ▸ hval⟩
      · exact ⟨p, rfl, by omega⟩

end CodePoint

namespace Text

theorem lowerAfter_cons_near {p : CodePoint} (h : p.val < 0xC0) (before t : Text) :
    lowerAfter before (p :: t) = p.lower ++ lowerAfter (p :: before) t := by
  have hsigma : (p.val == 0x3A3) = false := by
    rw [beq_eq_false_iff_ne]
    omega
  rw [lowerAfter, hsigma]
  rfl

/-- In a text, a sigma may have another form, which is beyond ASCII too. -/
theorem lowerAfter_cons_far {p : CodePoint} (h : 0xC0 ≤ p.val) (before t : Text) :
    ∃ form : Text, lowerAfter before (p :: t) = form ++ lowerAfter (p :: before) t ∧
      (form = [.scalar 'k'] ∨ form = [.scalar 'i', .scalar (Char.ofNat 0x307)] ∨
        ∃ q, form = [q] ∧ 0x80 ≤ q.val) := by
  refine ⟨_, rfl, ?_⟩
  split
  · exact .inr (.inr ⟨_, rfl, by decide⟩)
  · exact CodePoint.lower_of_far h

theorem lowerAfter_of_isPlain {t : Text} (h : ∀ p ∈ t, p.IsPlain) (before : Text) :
    lowerAfter before t = t := by
  induction t generalizing before with
  | nil => rfl
  | cons p t ih =>
    obtain ⟨hp, ht⟩ := List.forall_mem_cons.1 h
    have hnear : p.val < 0xC0 := by
      rcases hp with hp | hp <;> omega
    rw [lowerAfter_cons_near hnear, ih ht, CodePoint.lower_of_isPlain hp]
    rfl

/-- In lower case, a text still has its plain end. -/
theorem lower_append {tail : Text} (h : ∀ p ∈ tail, p.IsPlain) (t : Text) :
    ∃ front, lower (t ++ tail) = front ++ tail := by
  suffices hall : ∀ before, ∃ front, lowerAfter before (t ++ tail) = front ++ tail from hall []
  induction t with
  | nil => exact fun before => ⟨[], lowerAfter_of_isPlain h before⟩
  | cons c t ih =>
    intro before
    obtain ⟨front, hfront⟩ := ih (c :: before)
    rw [List.cons_append, lowerAfter, hfront]
    exact ⟨_, (List.append_assoc _ front tail).symm⟩

end Text

end CustomElements
