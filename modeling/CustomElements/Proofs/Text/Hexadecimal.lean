import Mathlib.Algebra.Group.Nat.Defs
import CustomElements.Proofs.Text.CodePoints
import CustomElements.Text.Digit
import CustomElements.Text.Numeral

/-!
# Hexadecimal numerals

A numeral may have blanks around it, a sign, a mark of its base, and underscores. A row of nothing
but hexadecimal digits has none of these, so it is read as the number of its digits.
-/

namespace CustomElements

theorem isHexDigit_lt {c : Char} (h : isHexDigit c) : c.toNat < 128 := by
  have hle {a b : Char} (h : a ≤ b) : a.toNat ≤ b.toNat := h
  unfold isHexDigit hexDigitValue? at h
  split at h
  · next hd =>
    rw [Char.isDigit, Bool.and_eq_true, decide_eq_true_eq, decide_eq_true_eq] at hd
    exact Nat.lt_of_le_of_lt (hle (b := '9') hd.2) (by decide)
  · split at h
    · next hd =>
      rw [Bool.and_eq_true, decide_eq_true_eq, decide_eq_true_eq] at hd
      exact Nat.lt_of_le_of_lt (hle hd.2) (by decide)
    · split at h
      · next hd =>
        rw [Bool.and_eq_true, decide_eq_true_eq, decide_eq_true_eq] at hd
        exact Nat.lt_of_le_of_lt (hle hd.2) (by decide)
      · cases h

/-- What holds of the hexadecimal digits among the first characters holds of all of them. -/
theorem forall_hexDigit {P : Char → Prop}
    (h : ∀ n < 128, isHexDigit (Char.ofNat n) → P (Char.ofNat n)) {c : Char} (hc : isHexDigit c) :
    P c := by
  have hn := h c.toNat (isHexDigit_lt hc)
  rw [Char.ofNat_toNat] at hn
  exact hn hc

theorem hexDigitValue?_lt {c : Char} {k : Nat} (h : hexDigitValue? c = some k) : k < 16 := by
  have hall : ∀ k ∈ hexDigitValue? c, k < 16 :=
    forall_hexDigit (P := fun c => ∀ k ∈ hexDigitValue? c, k < 16) (by decide +kernel)
      (by rw [isHexDigit, h]; rfl)
  exact hall k h

/-- A digit of a numeral in base 16 has the value of the hexadecimal digit. -/
theorem digit?_of_isHexDigit {c : Char} (h : isHexDigit c) :
    (CodePoint.scalar c).digit? 16 = hexDigitValue? c :=
  forall_hexDigit (P := fun c => (CodePoint.scalar c).digit? 16 = hexDigitValue? c)
    (by decide +kernel) h

theorem isMargin_of_isHexDigit {c : Char} (h : isHexDigit c) :
    Numeral.isMargin (.scalar c) = false :=
  forall_hexDigit (P := fun c => Numeral.isMargin (.scalar c) = false) (by decide +kernel) h

/-- A hexadecimal digit is neither a sign nor an underscore, nor does it mark a base. -/
theorem ne_of_isHexDigit {c : Char} (h : isHexDigit c) :
    c ≠ '-' ∧ c ≠ '+' ∧ c ≠ '_' ∧ 'x' ≠ c.toLower :=
  forall_hexDigit (P := fun c => c ≠ '-' ∧ c ≠ '+' ∧ c ≠ '_' ∧ 'x' ≠ c.toLower)
    (by decide +kernel) h

theorem ne_brace_of_isHexDigit {c : Char} (h : isHexDigit c) : c ≠ '{' := by
  rintro rfl
  revert h
  decide

/-- The number of further digits behind a number. -/
def hexValueFrom (m : Nat) (ds : List Char) : Option Nat :=
  ds.foldlM (fun n c => (hexDigitValue? c).map (n * 16 + ·)) m

theorem hexValueFrom_cons {d : Char} {k : Nat} (hk : hexDigitValue? d = some k) (m : Nat)
    (ds : List Char) : hexValueFrom m (d :: ds) = hexValueFrom (m * 16 + k) ds := by
  rw [hexValueFrom, List.foldlM_cons, hk]
  rfl

theorem isHexDigit_of_hexValueFrom {ds : List Char} {m n : Nat} (h : hexValueFrom m ds = some n) :
    ∀ d ∈ ds, isHexDigit d := by
  induction ds generalizing m with
  | nil => exact List.forall_mem_nil _
  | cons d ds ih =>
    rw [hexValueFrom, List.foldlM_cons, Option.bind_eq_bind, Option.bind_eq_some_iff] at h
    obtain ⟨k, hk, hrest⟩ := h
    obtain ⟨v, hv, -⟩ := Option.map_eq_some_iff.1 hk
    rw [List.forall_mem_cons]
    exact ⟨by rw [isHexDigit, hv]; rfl, ih hrest⟩

theorem isHexDigit_of_hexValue? {ds : List Char} {n : Nat} (h : hexValue? ds = some n) :
    ∀ d ∈ ds, isHexDigit d := isHexDigit_of_hexValueFrom h

theorem exists_hexValueFrom {ds : List Char} (h : ∀ d ∈ ds, isHexDigit d) (m : Nat) :
    ∃ n, hexValueFrom m ds = some n := by
  induction ds generalizing m with
  | nil => exact ⟨m, rfl⟩
  | cons d ds ih =>
    rw [List.forall_mem_cons] at h
    obtain ⟨k, hk⟩ := Option.isSome_iff_exists.1 h.1
    rw [hexValueFrom_cons hk]
    exact ih h.2 _

theorem exists_hexValue? {ds : List Char} (h : ∀ d ∈ ds, isHexDigit d) :
    ∃ n, hexValue? ds = some n := exists_hexValueFrom h 0

theorem hexValueFrom_lt {ds : List Char} {m n : Nat} (h : hexValueFrom m ds = some n) :
    n < (m + 1) * 16 ^ ds.length := by
  induction ds generalizing m with
  | nil =>
    obtain rfl := Option.some.inj h
    simp
  | cons d ds ih =>
    have hd := isHexDigit_of_hexValueFrom h d List.mem_cons_self
    obtain ⟨k, hk⟩ := Option.isSome_iff_exists.1 hd
    rw [hexValueFrom_cons hk] at h
    have hlt := hexDigitValue?_lt hk
    calc n < (m * 16 + k + 1) * 16 ^ ds.length := ih h
      _ ≤ (m + 1) * 16 * 16 ^ ds.length := Nat.mul_le_mul_right _ (by omega)
      _ = (m + 1) * 16 ^ (d :: ds).length := by
        rw [List.length_cons, Nat.pow_succ, Nat.mul_assoc, Nat.mul_comm 16]

/-- The number of a row of digits is bounded by how many there are. -/
theorem hexValue?_lt {ds : List Char} {n : Nat} (h : hexValue? ds = some n) :
    n < 16 ^ ds.length := by
  have hlt := hexValueFrom_lt h
  rwa [Nat.zero_add, Nat.one_mul] at hlt

namespace Numeral

/-- Further digits of a numeral are read as such. -/
theorem digitsFrom_ofChars {ds : List Char} (h : ∀ d ∈ ds, isHexDigit d) (m : Nat) :
    digitsFrom 16 m (.ofChars ds) = hexValueFrom m ds := by
  induction ds generalizing m with
  | nil => rfl
  | cons d ds ih =>
    rw [List.forall_mem_cons] at h
    obtain ⟨k, hk⟩ := Option.isSome_iff_exists.1 h.1
    have hne := (ne_of_isHexDigit h.1).2.2.1
    rw [hexValueFrom_cons hk, ← ih h.2, Text.ofChars, List.map_cons, digitsFrom.eq_3,
      digit?_of_isHexDigit h.1, hk]
    · rfl
    · intro p r hp
      exact absurd (CodePoint.scalar.inj hp) hne

/-- No blanks are taken off a row of digits. -/
theorem trim_ofChars {ds : List Char} (h : ∀ d ∈ ds, isHexDigit d) :
    trim (.ofChars ds) = .ofChars ds := by
  have hkeep {t : Text} (ht : ∀ p ∈ t, isMargin p = false) : t.dropWhile isMargin = t := by
    cases t with
    | nil => rfl
    | cons p t =>
      rw [List.forall_mem_cons] at ht
      rw [List.dropWhile_cons_of_neg]
      simp [ht.1]
  have hmargin : ∀ p ∈ Text.ofChars ds, isMargin p = false := by
    intro p hp
    obtain ⟨d, hd, rfl⟩ := List.mem_map.1 hp
    exact isMargin_of_isHexDigit (h d hd)
  rw [trim, hkeep hmargin, Text.dropRightWhile, hkeep, List.reverse_reverse]
  intro p hp
  exact hmargin p (List.mem_reverse.1 hp)

/-- A row of digits has neither a sign nor a mark of its base. -/
theorem integer?_ofChars {base : Nat} {mark : Option Char} {ds : List Char} (hne : ds ≠ [])
    (hhex : ∀ d ∈ ds, isHexDigit d) (hmark : ∀ d ∈ ds, mark ≠ some d.toLower) :
    integer? base mark (.ofChars ds) = (natural? base (.ofChars ds)).map fun n : Nat => (n : Int) := by
  obtain ⟨d, r, rfl⟩ := List.exists_cons_of_ne_nil hne
  have hsign := ne_of_isHexDigit (hhex d List.mem_cons_self)
  rw [integer?, trim_ofChars hhex]
  split
  next negative unsigned heq =>
    split at heq
    · next hs => exact absurd (CodePoint.scalar.inj (List.cons.inj hs).1) hsign.1
    · next hs => exact absurd (CodePoint.scalar.inj (List.cons.inj hs).1) hsign.2.1
    obtain ⟨rfl, rfl⟩ := Prod.mk.inj heq
    simp only [Bool.false_eq_true, if_false]
    split
    · next zero x q hs =>
      have hx : .scalar x ∈ Text.ofChars (d :: r) := by
        rw [hs]
        exact List.mem_cons_of_mem _ List.mem_cons_self
      obtain ⟨c, hc, heq⟩ := List.mem_map.1 hx
      obtain rfl := CodePoint.scalar.inj heq
      have hunmarked : (decide (zero.decimalDigit? = some 0) && decide (mark = some c.toLower)) =
          false := by
        rw [decide_eq_false (hmark c hc), Bool.and_false]
      rw [hunmarked, if_neg Bool.false_ne_true]
      cases natural? base (Text.ofChars (d :: r)) <;> rfl
    · cases natural? base (Text.ofChars (d :: r)) <;> rfl

/-- A row of hexadecimal digits is read as the number of its digits. -/
theorem hexadecimal?_ofChars {ds : List Char} {n : Nat} (hne : ds ≠ [])
    (h : hexValue? ds = some n) : hexadecimal? (.ofChars ds) = some (n : Int) := by
  have hhex := isHexDigit_of_hexValue? h
  have hmark : ∀ d ∈ ds, some 'x' ≠ some d.toLower := fun d hd heq =>
    (ne_of_isHexDigit (hhex d hd)).2.2.2 (Option.some.inj heq)
  rw [hexadecimal?, integer?_ofChars hne hhex hmark]
  obtain ⟨d, r, rfl⟩ := List.exists_cons_of_ne_nil hne
  have hfirst := hhex d List.mem_cons_self
  obtain ⟨k, hk⟩ := Option.isSome_iff_exists.1 hfirst
  have hnatural : natural? 16 (.ofChars (d :: r)) = some n := by
    rw [Text.ofChars, List.map_cons, natural?, digit?_of_isHexDigit hfirst, hk]
    dsimp only
    rw [← h, hexValue?, ← hexValueFrom, hexValueFrom_cons hk, Nat.zero_mul, Nat.zero_add]
    exact digitsFrom_ofChars (fun c hc => hhex c (List.mem_cons_of_mem d hc)) k
  rw [hnatural]
  rfl

/-- A row of decimal digits is read unless it is too long. -/
theorem exists_decimal? {ds : List Char} (hne : ds ≠ []) (h : ∀ d ∈ ds, d.isDigit)
    (hlength : ds.length ≤ digitLimit) : ∃ n, decimal? (.ofChars ds) = some n := by
  have hhex : ∀ d ∈ ds, isHexDigit d := by
    intro d hd
    rw [isHexDigit, hexDigitValue?, if_pos (h d hd)]
    rfl
  have hdigit {d : Char} (hd : d.isDigit) : ∃ k, (CodePoint.scalar d).digit? 10 = some k := by
    have hall : d.isDigit → ((CodePoint.scalar d).digit? 10).isSome := by
      refine forall_hexDigit (P := fun d => d.isDigit → ((CodePoint.scalar d).digit? 10).isSome)
        (by decide +kernel) ?_
      rw [isHexDigit, hexDigitValue?, if_pos hd]
      rfl
    exact Option.isSome_iff_exists.1 (hall hd)
  have hfrom (m : Nat) {es : List Char} (hes : ∀ d ∈ es, d.isDigit) :
      ∃ n, digitsFrom 10 m (.ofChars es) = some n := by
    induction es generalizing m with
    | nil => exact ⟨m, rfl⟩
    | cons d es ih =>
      rw [List.forall_mem_cons] at hes
      obtain ⟨k, hk⟩ := hdigit hes.1
      obtain ⟨n, hn⟩ := ih (m * 10 + k) hes.2
      refine ⟨n, ?_⟩
      rw [Text.ofChars, List.map_cons, digitsFrom.eq_3, hk]
      · exact hn
      · rintro p r hp
        obtain rfl := CodePoint.scalar.inj hp
        exact absurd hes.1 (by decide)
  have hlimit : ¬digitLimit <
      ((Text.ofChars ds).filter fun p => p.decimalDigit?.isSome).length := by
    rw [Nat.not_lt]
    refine Nat.le_trans (List.length_filter_le _ _) ?_
    rwa [Text.ofChars, List.length_map]
  rw [decimal?, if_neg hlimit,
    integer?_ofChars hne hhex fun d _ => (Option.some_ne_none d.toLower).symm]
  obtain ⟨d, r, rfl⟩ := List.exists_cons_of_ne_nil hne
  rw [List.forall_mem_cons] at h
  obtain ⟨k, hk⟩ := hdigit h.1
  obtain ⟨n, hn⟩ := hfrom k h.2
  refine ⟨n, ?_⟩
  rw [Text.ofChars, List.map_cons, natural?, hk]
  exact congrArg _ hn

end Numeral

end CustomElements
