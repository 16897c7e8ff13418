import CustomElements.Text.Basic

/-!
# Code points and their order

A code point is told by its number, and every number below the limit is that of one. The ASCII
letters and digits have numbers below 128. By these numbers texts are totally ordered, so the first
of a sorted row comes before all others.
-/

namespace CustomElements

theorem isAlphanum_lt {c : Char} (h : c.isAlphanum) : c.toNat < 128 := by
  have hle {a b : Char} (h : a ≤ b) : a.toNat ≤ b.toNat := h
  unfold Char.isAlphanum Char.isAlpha Char.isUpper Char.isLower Char.isDigit at h
  simp only [Bool.or_eq_true, Bool.and_eq_true, decide_eq_true_eq] at h
  rcases h with (⟨-, h⟩ | ⟨-, h⟩) | ⟨-, h⟩
  · exact Nat.lt_of_le_of_lt (hle (b := 'Z') h) (by decide)
  · exact Nat.lt_of_le_of_lt (hle (b := 'z') h) (by decide)
  · exact Nat.lt_of_le_of_lt (hle (b := '9') h) (by decide)

theorem isLower_isAlphanum {c : Char} (h : c.isLower) : c.isAlphanum := by
  show (c.isUpper || c.isLower || c.isDigit) = true
  rw [h, Bool.or_true]
  rfl

theorem isUpper_isAlphanum {c : Char} (h : c.isUpper) : c.isAlphanum := by
  show (c.isUpper || c.isLower || c.isDigit) = true
  rw [h]
  rfl

/-- What holds of the letters and digits among the first characters holds of all of them. -/
theorem forall_alphanum {P : Char → Prop}
    (h : ∀ n < 128, (Char.ofNat n).isAlphanum → P (Char.ofNat n)) {c : Char} (hc : c.isAlphanum) :
    P c := by
  have hn := h c.toNat (isAlphanum_lt hc)
  rw [Char.ofNat_toNat] at hn
  exact hn hc

namespace CodePoint

theorem val_injective {p q : CodePoint} (h : p.val = q.val) : p = q := by
  have hvalid (c : Char) : c.toNat < 0xD800 ∨ 0xDFFF < c.toNat ∧ c.toNat < 0x110000 := c.valid
  cases p with
  | scalar c =>
    cases q with
    | scalar d => exact congrArg scalar (Char.toNat_inj.1 h)
    | surrogate k =>
      have hk : c.toNat = 0xD800 + k.val := h
      have hc := hvalid c
      omega
  | surrogate k =>
    cases q with
    | scalar d =>
      have hk : 0xD800 + k.val = d.toNat := h
      have hd := hvalid d
      omega
    | surrogate k' =>
      have hk : 0xD800 + k.val = 0xD800 + k'.val := h
      exact congrArg surrogate (Fin.ext (by omega))

theorem val_lt (p : CodePoint) : p.val < 0x110000 := by
  cases p with
  | scalar c =>
    have hvalid : Nat.isValidChar c.toNat := c.valid
    unfold Nat.isValidChar at hvalid
    show c.toNat < _
    omega
  | surrogate k =>
    show 0xD800 + k.val < _
    omega

theorem exists_ofNat? {n : Nat} (h : n < 0x110000) :
    ∃ p, ofNat? n = some p ∧ p.val = n := by
  unfold ofNat?
  by_cases hv : n.isValidChar
  · exact ⟨_, dif_pos hv, rfl⟩
  · refine ⟨_, by rw [dif_neg hv, if_pos h], ?_⟩
    have hsurrogate : 0xD800 ≤ n ∧ n < 0xE000 := by
      unfold Nat.isValidChar at hv
      omega
    show 0xD800 + (n - 0xD800) % 0x800 = n
    omega

theorem val_of_ofNat? {n : Nat} {p : CodePoint} (h : ofNat? n = some p) : p.val = n := by
  by_cases hn : n < 0x110000
  · obtain ⟨q, hq, hval⟩ := exists_ofNat? hn
    rw [← Option.some.inj (hq.symm.trans h), hval]
  · have hvalid : ¬n.isValidChar := by
      unfold Nat.isValidChar
      omega
    rw [ofNat?, dif_neg hvalid, if_neg hn] at h
    cases h

theorem ofNat?_val (p : CodePoint) : ofNat? p.val = some p := by
  obtain ⟨q, hq, hval⟩ := exists_ofNat? p.val_lt
  rw [hq, val_injective hval]

end CodePoint

namespace Text

variable {s t u : Text}

theorem le_cons_iff {p q : CodePoint} :
    le (p :: s) (q :: t) ↔ p.val < q.val ∨ p.val = q.val ∧ le s t := by
  rw [le, Bool.or_eq_true, Bool.and_eq_true, decide_eq_true_eq, beq_iff_eq]

theorem le_total (s t : Text) : le s t ∨ le t s := by
  induction s generalizing t with
  | nil => exact .inl rfl
  | cons p s ih =>
    cases t with
    | nil => exact .inr rfl
    | cons q t =>
      rw [le_cons_iff, le_cons_iff]
      rcases Nat.lt_trichotomy p.val q.val with hlt | heq | hlt
      · exact .inl (.inl hlt)
      · exact (ih t).imp (fun h => .inr ⟨heq, h⟩) fun h => .inr ⟨heq.symm, h⟩
      · exact .inr (.inl hlt)

theorem le_trans (hst : le s t) (htu : le t u) : le s u := by
  induction s generalizing t u with
  | nil => rfl
  | cons p s ih =>
    cases t with
    | nil => cases hst
    | cons q t =>
      cases u with
      | nil => cases htu
      | cons r u =>
        rw [le_cons_iff] at hst htu ⊢
        rcases hst with hlt | ⟨heq, hst⟩
        · refine .inl ?_
          rcases htu with hlt' | ⟨heq', -⟩ <;> omega
        · rcases htu with hlt | ⟨heq', htu⟩
          · exact .inl (heq ▸ hlt)
          · exact .inr ⟨heq.trans heq', ih hst htu⟩

theorem le_antisymm (hst : le s t) (hts : le t s) : s = t := by
  induction s generalizing t with
  | nil =>
    cases t with
    | nil => rfl
    | cons q t => cases hts
  | cons p s ih =>
    cases t with
    | nil => cases hst
    | cons q t =>
      rw [le_cons_iff] at hst hts
      rcases hst with hlt | ⟨heq, hst⟩
      · rcases hts with hlt' | ⟨heq', -⟩ <;> omega
      · rcases hts with hlt | ⟨-, hts⟩
        · omega
        · rw [CodePoint.val_injective heq, ih hst hts]

/-- The first of sorted texts is one of them and comes before all of them. -/
theorem le_of_head?_mergeSort {ts : List Text} {first : Text}
    (h : (ts.mergeSort le).head? = some first) : first ∈ ts ∧ ∀ t ∈ ts, le first t := by
  obtain ⟨rest, hrest⟩ := List.head?_eq_some_iff.1 h
  have htrans (s t u : Text) (hst : le s t) (htu : le t u) : le s u := le_trans hst htu
  have htotal (s t : Text) : (le s t || le t s) = true := by
    rw [Bool.or_eq_true]
    exact le_total s t
  have hsorted := List.pairwise_mergeSort htrans htotal ts
  rw [hrest, List.pairwise_cons] at hsorted
  have hmem (t : Text) : t ∈ first :: rest ↔ t ∈ ts := hrest ▸ List.mem_mergeSort
  refine ⟨(hmem first).1 List.mem_cons_self, fun t ht => ?_⟩
  rcases List.mem_cons.1 ((hmem t).2 ht) with rfl | ht
  · exact (le_total t t).elim id id
  · exact hsorted.1 t ht

end Text

end CustomElements
