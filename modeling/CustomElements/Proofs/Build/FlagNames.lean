import CustomElements.Build.Flags
import CustomElements.Proofs.Text.LowerCase

/-!
# Names of flags

The name of a flag is read up to the first equals sign. It is made of the key of an option, with
hyphens in place of capitals; so keys of different spelling meet in one flag. Main statement: which
keys give a flag a certain name, where that is made of small letters and hyphens.
-/

namespace CustomElements

/-- The text up to the first equals sign. -/
def readName (t : Text) : Text := t.takeWhile fun p => decide (p ≠ .scalar '=')

theorem readName_cons_of_ne {p : CodePoint} (h : p ≠ .scalar '=') (t : Text) :
    readName (p :: t) = p :: readName t := List.takeWhile_cons_of_pos (decide_eq_true h)

theorem readName_equals (t : Text) : readName (.scalar '=' :: t) = [] := rfl

/-- A hyphen or a small letter, but not the one that the Kelvin sign becomes too. -/
def IsFlagPoint (p : CodePoint) : Prop :=
  p = .scalar '-' ∨ ∃ c : Char, p = .scalar c ∧ c.isLower ∧ c ≠ 'k'

instance decidableIsFlagPoint (p : CodePoint) : Decidable (IsFlagPoint p) :=
  match p with
  | .scalar c => decidable_of_iff (c = '-' ∨ c.isLower ∧ c ≠ 'k') (by simp [IsFlagPoint])
  | .surrogate k => isFalse (by simp [IsFlagPoint])

/-- The capital of a letter. -/
def capital : CodePoint → CodePoint
  | .scalar c => .scalar c.toUpper
  | p => p

section Letters

variable {c : Char} {p q : CodePoint}

theorem toUpper_of_isLower (h : c.isLower) : c.toUpper.isUpper ∧ c.toUpper.toLower = c :=
  forall_alphanum (P := fun c => c.isLower → c.toUpper.isUpper ∧ c.toUpper.toLower = c)
    (by decide +kernel) (isLower_isAlphanum h) h

theorem toLower_of_isUpper (h : c.isUpper) :
    c.toLower.isLower ∧ c.toLower.toUpper = c ∧ c ≠ '=' ∧ c.toLower ≠ '=' :=
  forall_alphanum (P := fun c => c.isUpper →
    c.toLower.isLower ∧ c.toLower.toUpper = c ∧ c ≠ '=' ∧ c.toLower ≠ '=')
    (by decide +kernel) (isUpper_isAlphanum h) h

theorem not_isUpper_of_isLower (h : c.isLower) : c.isUpper = false :=
  forall_alphanum (P := fun c => c.isLower → c.isUpper = false) (by decide +kernel)
    (isLower_isAlphanum h) h

theorem IsFlagPoint.val_lt (h : IsFlagPoint p) : p.val < 0x80 := by
  rcases h with rfl | ⟨c, rfl, hc, -⟩
  · decide
  · exact isAlphanum_lt (isLower_isAlphanum hc)

theorem IsFlagPoint.not_isUpper (h : IsFlagPoint p) : p.satisfies Char.isUpper = false := by
  rcases h with rfl | ⟨c, rfl, hc, -⟩
  · decide
  · exact not_isUpper_of_isLower hc

/-- A capital is that of a small letter. -/
theorem scalar_eq_capital_iff (h : c.isUpper) :
    q.satisfies Char.isLower ∧ .scalar c = capital q ↔ q = .scalar c.toLower := by
  constructor
  · rintro ⟨hlower, heq⟩
    cases q with
    | surrogate k => cases hlower
    | scalar d => rw [CodePoint.scalar.inj heq, (toUpper_of_isLower hlower).2]
  · rintro rfl
    obtain ⟨hlower, hback, -⟩ := toLower_of_isUpper h
    exact ⟨hlower, congrArg CodePoint.scalar hback.symm⟩

theorem isUpper_capital (h : q.satisfies Char.isLower) : (capital q).satisfies Char.isUpper := by
  cases q with
  | surrogate k => cases h
  | scalar d => exact (toUpper_of_isLower h).1

end Letters

/-- The spellings of the rest of a key that give the rest of a flag name. -/
def restSpellings : Text → List Text
  | [] => [[]]
  | [p] => [[p]]
  | p :: q :: r =>
    (restSpellings (q :: r)).map (p :: ·) ++
      if p = .scalar '-' ∧ q.satisfies Char.isLower then (restSpellings r).map (capital q :: ·)
      else []

/-- The keys of options that give a flag name. The first letter may be a capital, and any further
one may be a capital in place of the letter with a hyphen before it. -/
def spellings : Text → List Text
  | [] => [[]]
  | p :: r => (restSpellings r).flatMap fun s => [p :: s, capital p :: s]

example : spellings "output-path" =
    [("output-path" : Text), "Output-path", "outputPath", "OutputPath"] := by decide

section Spellings

variable {n r s t before : Text} {p q : CodePoint}

theorem cons_mem_map_cons {l : List Text} : p :: s ∈ l.map (q :: ·) ↔ p = q ∧ s ∈ l := by
  rw [List.mem_map]
  constructor
  · rintro ⟨t, ht, heq⟩
    obtain ⟨rfl, rfl⟩ := List.cons.inj heq
    exact ⟨rfl, ht⟩
  · rintro ⟨rfl, hs⟩
    exact ⟨s, hs, rfl⟩

theorem nil_mem_restSpellings : [] ∈ restSpellings n ↔ n = [] := by
  match n with
  | [] => exact iff_of_true (List.mem_singleton_self _) rfl
  | [p] => simp [restSpellings]
  | p :: q :: r =>
    refine iff_of_false ?_ (List.cons_ne_nil _ _)
    rw [restSpellings]
    split <;> simp

/-- A first letter is spelled as it is, or as a capital after which a hyphen and it are left out. -/
theorem cons_mem_restSpellings : p :: s ∈ restSpellings n ↔
    (∃ r, n = p :: r ∧ s ∈ restSpellings r) ∨
      ∃ q r, n = .scalar '-' :: q :: r ∧ (q.satisfies Char.isLower ∧ p = capital q) ∧
        s ∈ restSpellings r := by
  match n with
  | [] => simp [restSpellings]
  | [first] =>
    rw [restSpellings, List.mem_singleton, List.cons.injEq, or_iff_left (by simp)]
    constructor
    · rintro ⟨rfl, rfl⟩
      exact ⟨[], rfl, List.mem_singleton_self _⟩
    · rintro ⟨r, hr, hs⟩
      obtain ⟨rfl, rfl⟩ := List.cons.inj hr
      exact ⟨rfl, List.mem_singleton.1 hs⟩
  | first :: second :: n =>
    rw [restSpellings, List.mem_append]
    refine or_congr ?_ ?_
    · rw [cons_mem_map_cons]
      constructor
      · rintro ⟨rfl, hs⟩
        exact ⟨second :: n, rfl, hs⟩
      · rintro ⟨r, heq, hs⟩
        obtain ⟨rfl, rfl⟩ := List.cons.inj heq
        exact ⟨rfl, hs⟩
    · split
      · next hif =>
        rw [cons_mem_map_cons]
        constructor
        · exact fun ⟨hp, hs⟩ => ⟨second, n, by rw [hif.1], ⟨hif.2, hp⟩, hs⟩
        · rintro ⟨q, r, heq, ⟨-, hp⟩, hs⟩
          obtain ⟨-, hrest⟩ := List.cons.inj heq
          obtain ⟨rfl, rfl⟩ := List.cons.inj hrest
          exact ⟨hp, hs⟩
      · next hif =>
        refine iff_of_false List.not_mem_nil ?_
        rintro ⟨q, r, heq, ⟨hlower, -⟩, -⟩
        obtain ⟨rfl, hrest⟩ := List.cons.inj heq
        obtain ⟨rfl, -⟩ := List.cons.inj hrest
        exact hif ⟨rfl, hlower⟩

end Spellings

/-! ### From keys to names -/

/-- The rest of a key with hyphens before its capitals. -/
def hyphenatedRest (t : Text) : Text :=
  t.flatMap fun p => if p.satisfies Char.isUpper then ([.scalar '-', p] : Text) else [p]

/-- What the rest of a key becomes in the name of a flag, behind these code points. -/
def restName (before t : Text) : Text := Text.lowerAfter before (hyphenatedRest t)

section Names

variable {n t before : Text} {p : CodePoint}

theorem exists_char_of_satisfies {f : Char → Bool} (h : p.satisfies f) :
    ∃ c, p = .scalar c ∧ f c := by
  cases p with
  | surrogate k => cases h
  | scalar c => exact ⟨c, rfl, h⟩

theorem isPlain_of_not_isUpper (h : p.val < 0xC0) (hupper : p.satisfies Char.isUpper = false) :
    p.IsPlain := by
  cases p with
  | surrogate k =>
    change 0xD800 + k.val < 0xC0 at h
    omega
  | scalar c =>
    have hrange : ¬(0x41 ≤ c.toNat ∧ c.toNat ≤ 0x5A) := by
      change c.isUpper = false at hupper
      unfold Char.isUpper at hupper
      simpa [UInt32.le_iff_toNat_le, ← Char.toNat_val] using hupper
    change c.toNat < 0x41 ∨ 0x5A < c.toNat ∧ c.toNat < 0xC0
    change c.toNat < 0xC0 at h
    omega

theorem restName_cons_of_isUpper {c : Char} (h : c.isUpper) (before t : Text) :
    restName before (.scalar c :: t) =
      .scalar '-' :: .scalar c.toLower :: restName (.scalar c :: .scalar '-' :: before) t := by
  have hnear : (CodePoint.scalar c).val < 0xC0 := by
    have hlt : c.toNat < 128 := isAlphanum_lt (isUpper_isAlphanum h)
    change c.toNat < 0xC0
    omega
  have hhyphen : (CodePoint.scalar '-').val < 0xC0 := by decide
  have hplain : (CodePoint.scalar '-').IsPlain := by decide
  rw [restName, hyphenatedRest, List.flatMap_cons,
    if_pos (show (CodePoint.scalar c).satisfies Char.isUpper from h)]
  change Text.lowerAfter before (.scalar '-' :: .scalar c :: hyphenatedRest t) = _
  rw [Text.lowerAfter_cons_near hhyphen, CodePoint.lower_of_isPlain hplain,
    Text.lowerAfter_cons_near hnear, CodePoint.lower_of_isUpper h]
  rfl

theorem hyphenatedRest_cons (h : p.satisfies Char.isUpper = false) (t : Text) :
    hyphenatedRest (p :: t) = p :: hyphenatedRest t := by
  rw [hyphenatedRest, List.flatMap_cons, h]
  rfl

theorem restName_cons_near (h : p.val < 0xC0) (hupper : p.satisfies Char.isUpper = false)
    (before t : Text) : restName before (p :: t) = p :: restName (p :: before) t := by
  rw [restName, hyphenatedRest_cons hupper, Text.lowerAfter_cons_near h,
    CodePoint.lower_of_isPlain (isPlain_of_not_isUpper h hupper)]
  rfl

theorem not_isUpper_of_far (h : 0xC0 ≤ p.val) : p.satisfies Char.isUpper = false := by
  cases p with
  | surrogate k => rfl
  | scalar c =>
    rw [Bool.eq_false_iff]
    intro hupper
    have hlt : c.toNat < 128 := isAlphanum_lt (isUpper_isAlphanum hupper)
    change 0xC0 ≤ c.toNat at h
    omega

theorem restName_cons_far (h : 0xC0 ≤ p.val) (before t : Text) :
    ∃ form : Text, restName before (p :: t) = form ++ restName (p :: before) t ∧
      (form = [.scalar 'k'] ∨ form = [.scalar 'i', .scalar (Char.ofNat 0x307)] ∨
        ∃ q, form = [q] ∧ 0x80 ≤ q.val) := by
  rw [restName, hyphenatedRest_cons (not_isUpper_of_far h)]
  exact Text.lowerAfter_cons_far h before (hyphenatedRest t)

/-- A name with the lower case form of a letter beyond ASCII has something else than flag points. -/
theorem not_isFlagPoint_of_far {form : Text} (rest : Text)
    (h : form = [.scalar 'k'] ∨ form = [.scalar 'i', .scalar (Char.ofNat 0x307)] ∨
      ∃ q, form = [q] ∧ 0x80 ≤ q.val) :
    ∃ q ∈ readName (form ++ rest), ¬IsFlagPoint q := by
  have hfar (q : CodePoint) (hq : 0x80 ≤ q.val) : q ≠ .scalar '=' ∧ ¬IsFlagPoint q := by
    refine ⟨?_, fun hpoint => absurd hpoint.val_lt (Nat.not_lt.2 hq)⟩
    rintro rfl
    exact absurd hq (by decide)
  rcases h with rfl | rfl | ⟨q, rfl, hq⟩
  · refine ⟨.scalar 'k', List.mem_cons_self, ?_⟩
    rintro (hhyphen | ⟨c, hc, -, hne⟩)
    · exact absurd hhyphen (by decide)
    · exact hne (CodePoint.scalar.inj hc).symm
  · have hdot := hfar (.scalar (Char.ofNat 0x307)) (by decide)
    refine ⟨_, ?_, hdot.2⟩
    rw [List.cons_append, readName_cons_of_ne (by decide), List.cons_append,
      readName_cons_of_ne hdot.1]
    exact List.mem_cons_of_mem _ List.mem_cons_self
  · refine ⟨q, ?_, (hfar q hq).2⟩
    rw [List.singleton_append, readName_cons_of_ne (hfar q hq).1]
    exact List.mem_cons_self

/-- No name that is made of flag points begins with the lower case form of such a letter. -/
theorem readName_ne_of_far (hn : ∀ q ∈ n, IsFlagPoint q) {form : Text} (rest : Text)
    (h : form = [.scalar 'k'] ∨ form = [.scalar 'i', .scalar (Char.ofNat 0x307)] ∨
      ∃ q, form = [q] ∧ 0x80 ≤ q.val) : readName (form ++ rest) ≠ n := by
  obtain ⟨q, hq, hnot⟩ := not_isFlagPoint_of_far rest h
  rintro rfl
  exact hnot (hn q hq)

theorem ne_equals_of_far (h : 0xC0 ≤ p.val) : p ≠ .scalar '=' := by
  rintro rfl
  exact absurd h (by decide)

section Rests

variable {c : Char} {name s : Text}

/-- A capital in the rest of a key becomes a hyphen and its small letter. -/
theorem hyphen_cons_eq_iff (hc : c.isUpper) (hn : ∀ q ∈ n, IsFlagPoint q)
    (ih : ∀ r, (∀ q ∈ r, IsFlagPoint q) → (name = r ↔ s ∈ restSpellings r)) :
    .scalar '-' :: .scalar c.toLower :: name = n ↔ .scalar c :: s ∈ restSpellings n := by
  rw [cons_mem_restSpellings]
  constructor
  · rintro rfl
    have hrest := (List.forall_mem_cons.1 (List.forall_mem_cons.1 hn).2).2
    exact .inr ⟨_, _, rfl, (scalar_eq_capital_iff hc).2 rfl, (ih name hrest).1 rfl⟩
  · rintro (⟨r, rfl, -⟩ | ⟨q, r, rfl, hq, hs⟩)
    · have hpoint := (List.forall_mem_cons.1 hn).1
      exact absurd (hpoint.not_isUpper.symm.trans hc) Bool.false_ne_true
    · obtain rfl := (scalar_eq_capital_iff hc).1 hq
      have hrest := (List.forall_mem_cons.1 (List.forall_mem_cons.1 hn).2).2
      rw [(ih r hrest).2 hs]

/-- Any other point of it stays as it is. -/
theorem cons_eq_iff_mem_restSpellings (hp : p.satisfies Char.isUpper = false)
    (hn : ∀ q ∈ n, IsFlagPoint q)
    (ih : ∀ r, (∀ q ∈ r, IsFlagPoint q) → (name = r ↔ s ∈ restSpellings r)) :
    p :: name = n ↔ p :: s ∈ restSpellings n := by
  -- no small letter has this code point as its capital
  have hnone : ¬∃ q r, n = .scalar '-' :: q :: r ∧ (q.satisfies Char.isLower ∧ p = capital q) ∧
      s ∈ restSpellings r := by
    rintro ⟨q, r, -, ⟨hlower, rfl⟩, -⟩
    exact Bool.false_ne_true (hp.symm.trans (isUpper_capital hlower))
  rw [cons_mem_restSpellings, or_iff_left hnone]
  constructor
  · rintro rfl
    exact ⟨name, rfl, (ih name (List.forall_mem_cons.1 hn).2).1 rfl⟩
  · rintro ⟨r, rfl, hs⟩
    rw [(ih r (List.forall_mem_cons.1 hn).2).2 hs]

/-- A spelling does not begin with a point beyond ASCII. -/
theorem cons_not_mem_restSpellings (hp : 0xC0 ≤ p.val) (hn : ∀ q ∈ n, IsFlagPoint q) :
    p :: s ∉ restSpellings n := by
  rw [cons_mem_restSpellings]
  rintro (⟨r, rfl, -⟩ | ⟨q, r, -, ⟨hlower, rfl⟩, -⟩)
  · have hlt := (List.forall_mem_cons.1 hn).1.val_lt
    omega
  · exact Bool.false_ne_true ((not_isUpper_of_far hp).symm.trans (isUpper_capital hlower))

end Rests

/-- Which rests of keys give the rest of a flag name. -/
theorem readName_restName_eq_iff (hn : ∀ q ∈ n, IsFlagPoint q) :
    readName (restName before t) = n ↔ readName t ∈ restSpellings n := by
  induction t generalizing n before with
  | nil => exact eq_comm.trans nil_mem_restSpellings.symm
  | cons p t ih =>
    by_cases hnear : p.val < 0xC0
    · cases hupper : p.satisfies Char.isUpper with
      | true =>
        obtain ⟨c, rfl, hc⟩ := exists_char_of_satisfies hupper
        obtain ⟨-, -, hequals, hequals'⟩ := toLower_of_isUpper hc
        rw [restName_cons_of_isUpper hc, readName_cons_of_ne (by decide),
          readName_cons_of_ne (mt CodePoint.scalar.inj hequals'),
          readName_cons_of_ne (mt CodePoint.scalar.inj hequals)]
        exact hyphen_cons_eq_iff hc hn fun r hr => ih hr
      | false =>
        rw [restName_cons_near hnear hupper]
        by_cases hequals : p = .scalar '='
        · rw [hequals, readName_equals, readName_equals, nil_mem_restSpellings, eq_comm]
        · rw [readName_cons_of_ne hequals, readName_cons_of_ne hequals]
          exact cons_eq_iff_mem_restSpellings hupper hn fun r hr => ih hr
    · have hfar := Nat.not_lt.1 hnear
      obtain ⟨form, hform, hcases⟩ := restName_cons_far hfar before t
      rw [hform, readName_cons_of_ne (ne_equals_of_far hfar)]
      exact iff_of_false (readName_ne_of_far hn _ hcases) (cons_not_mem_restSpellings hfar hn)

theorem cons_mem_spellings {s : Text} : p :: s ∈ spellings n ↔
    ∃ q r, n = q :: r ∧ (p = q ∨ p = capital q) ∧ s ∈ restSpellings r := by
  cases n with
  | nil => simp [spellings]
  | cons q r =>
    rw [spellings, List.mem_flatMap]
    constructor
    · rintro ⟨t, ht, hmem⟩
      simp only [List.mem_cons, List.not_mem_nil, or_false] at hmem
      rcases hmem with heq | heq
      · obtain ⟨rfl, rfl⟩ := List.cons.inj heq
        exact ⟨p, r, rfl, .inl rfl, ht⟩
      · obtain ⟨rfl, rfl⟩ := List.cons.inj heq
        exact ⟨q, r, rfl, .inr rfl, ht⟩
    · rintro ⟨_, _, heq, hp, hs⟩
      obtain ⟨rfl, rfl⟩ := List.cons.inj heq
      refine ⟨s, hs, ?_⟩
      rcases hp with rfl | rfl
      · exact List.mem_cons_self
      · exact List.mem_cons_of_mem _ (List.mem_singleton_self _)

theorem nil_mem_spellings : [] ∈ spellings n ↔ n = [] := by
  cases n with
  | nil => exact iff_of_true (List.mem_singleton_self _) rfl
  | cons q r =>
    refine iff_of_false ?_ (List.cons_ne_nil q r)
    rw [spellings, List.mem_flatMap]
    rintro ⟨s, -, hmem⟩
    simp at hmem

/-- A capital begins the keys of names that begin with its small letter. -/
theorem eq_or_eq_capital_iff_of_isUpper {c : Char} {q : CodePoint} (hc : c.isUpper)
    (hq : IsFlagPoint q) : .scalar c = q ∨ .scalar c = capital q ↔ q = .scalar c.toLower := by
  have hne : .scalar c ≠ q := by
    rintro rfl
    exact Bool.false_ne_true (hq.not_isUpper.symm.trans hc)
  rw [or_iff_right hne, ← scalar_eq_capital_iff hc, iff_and_self]
  intro heq
  rcases hq with rfl | ⟨d, rfl, hd, -⟩
  · exact absurd heq hne
  · exact hd

theorem eq_or_eq_capital_iff_of_not {q : CodePoint} (hp : p.satisfies Char.isUpper = false)
    (hq : IsFlagPoint q) : p = q ∨ p = capital q ↔ q = p := by
  rw [eq_comm (a := q)]
  refine or_iff_left_of_imp fun heq => ?_
  rcases hq with rfl | ⟨d, rfl, hd, -⟩
  · exact heq
  · subst heq
    have hupper := isUpper_capital (q := .scalar d) hd
    exact absurd (hp.symm.trans hupper) Bool.false_ne_true

/-- The first point of a key tells the first one of the name. -/
theorem cons_eq_iff_mem_spellings {first : CodePoint} {name s : Text}
    (hfirst : ∀ q, IsFlagPoint q → (p = q ∨ p = capital q ↔ q = first))
    (hn : ∀ q ∈ n, IsFlagPoint q)
    (hrest : ∀ r, (∀ q ∈ r, IsFlagPoint q) → (name = r ↔ s ∈ restSpellings r)) :
    first :: name = n ↔ p :: s ∈ spellings n := by
  rw [cons_mem_spellings]
  constructor
  · rintro rfl
    obtain ⟨hpoint, hpoints⟩ := List.forall_mem_cons.1 hn
    exact ⟨first, name, rfl, (hfirst first hpoint).2 rfl, (hrest name hpoints).1 rfl⟩
  · rintro ⟨q, r, rfl, hq, hs⟩
    obtain ⟨hpoint, hpoints⟩ := List.forall_mem_cons.1 hn
    rw [(hfirst q hpoint).1 hq, (hrest r hpoints).2 hs]

theorem cons_not_mem_spellings {s : Text} (hp : 0xC0 ≤ p.val) (hn : ∀ q ∈ n, IsFlagPoint q) :
    p :: s ∉ spellings n := by
  rw [cons_mem_spellings]
  rintro ⟨q, r, rfl, hq, -⟩
  have hpoint := (List.forall_mem_cons.1 hn).1
  have hlt := hpoint.val_lt
  rw [(eq_or_eq_capital_iff_of_not (not_isUpper_of_far hp) hpoint).1 hq] at hlt
  omega

/--
Which keys give the flag of a name that is made of small letters and hyphens, with no `k`: those
that are a spelling of the name up to the first equals sign.
-/
theorem readName_flagName_eq_iff {key : Text} (hn : ∀ q ∈ n, IsFlagPoint q) :
    readName (flagName key) = n ↔ readName key ∈ spellings n := by
  cases key with
  | nil => exact eq_comm.trans nil_mem_spellings.symm
  | cons p t =>
    have hname : flagName (p :: t) = Text.lowerAfter [] (p :: hyphenatedRest t) := rfl
    rw [hname]
    by_cases hnear : p.val < 0xC0
    · rw [Text.lowerAfter_cons_near hnear]
      cases hupper : p.satisfies Char.isUpper with
      | true =>
        obtain ⟨c, rfl, hc⟩ := exists_char_of_satisfies hupper
        obtain ⟨-, -, hequals, hequals'⟩ := toLower_of_isUpper hc
        rw [CodePoint.lower_of_isUpper hc, List.singleton_append,
          readName_cons_of_ne (mt CodePoint.scalar.inj hequals'),
          readName_cons_of_ne (mt CodePoint.scalar.inj hequals)]
        exact cons_eq_iff_mem_spellings (fun q => eq_or_eq_capital_iff_of_isUpper hc) hn
          fun r hr => readName_restName_eq_iff hr
      | false =>
        rw [CodePoint.lower_of_isPlain (isPlain_of_not_isUpper hnear hupper), List.singleton_append]
        by_cases hequals : p = .scalar '='
        · rw [hequals, readName_equals, readName_equals, nil_mem_spellings, eq_comm]
        · rw [readName_cons_of_ne hequals, readName_cons_of_ne hequals]
          exact cons_eq_iff_mem_spellings (fun q => eq_or_eq_capital_iff_of_not hupper) hn
            fun r hr => readName_restName_eq_iff hr
    · have hfar := Nat.not_lt.1 hnear
      obtain ⟨form, hform, hcases⟩ := Text.lowerAfter_cons_far hfar [] (hyphenatedRest t)
      rw [hform, readName_cons_of_ne (ne_equals_of_far hfar)]
      exact iff_of_false (readName_ne_of_far hn _ hcases) (cons_not_mem_spellings hfar hn)

end Names

end CustomElements
