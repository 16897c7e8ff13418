import CustomElements.Proofs.Answers
import CustomElements.Proofs.Json.Placement
import CustomElements.Proofs.Json.StringLiteral

/-!
# Long integers

The reader gives up an integer with too many digits. Whatever the text is, it does so only where
there are that many digits in a row.
-/

namespace CustomElements.Json

/-- A text with more digits in a row than an integer may have. -/
def HasLongInteger (t : Text) : Prop :=
  ∃ ds : List Char, Text.ofChars ds <:+: t ∧ (∀ d ∈ ds, d.isDigit) ∧ Numeral.digitLimit < ds.length

theorem HasLongInteger.isBlank {t : Text} (h : HasLongInteger t) : Text.isBlank t = false := by
  obtain ⟨ds, hds, hdigits, hlength⟩ := h
  obtain ⟨d, hd⟩ := List.exists_mem_of_length_pos (Nat.zero_lt_of_lt hlength)
  have hmem := hds.subset (List.mem_map_of_mem hd)
  exact List.all_eq_false.2 ⟨_, hmem, Bool.eq_false_iff.1 (isBlankChar_of_isDigit (hdigits d hd))⟩

/-- What the reader of a part of a text comes to: a rest of the text, and too many digits only if
there are so many in it. -/
structure ReadsOf {α : Type} (t : Text) (x : Except ReadError (α × Text)) : Prop where
  rest : ∀ a r, x = .ok (a, r) → r <:+ t
  overlong : x = .error .tooManyDigits → HasLongInteger t

section AnyText

variable {α β : Type} {t r : Text}

namespace ReadsOf

theorem ok {a : α} (h : r <:+ t) : ReadsOf t (.ok (a, r)) :=
  ⟨fun _ _ heq => by cases heq; exact h, nofun⟩

theorem malformed : ReadsOf t (.error .malformed : Except ReadError (α × Text)) := ⟨nofun, nofun⟩

theorem bind {x : Except ReadError (α × Text)} {g : α × Text → Except ReadError (β × Text)}
    (hx : ReadsOf t x) (hg : ∀ a r, r <:+ t → ReadsOf t (g (a, r))) : ReadsOf t (x >>= g) := by
  refine ⟨fun b q hq => ?_, fun hq => ?_⟩
  · obtain ⟨⟨a, r⟩, ha, hq⟩ := exceptBind_eq_ok.1 hq
    exact (hg a r (hx.rest a r ha)).rest b q hq
  · rcases exceptBind_eq_error.1 hq with hq | ⟨⟨a, r⟩, ha, hq⟩
    · exact hx.overlong hq
    · exact (hg a r (hx.rest a r ha)).overlong hq

theorem of_suffix {x : Except ReadError (α × Text)} (hx : ReadsOf r x) (h : r <:+ t) :
    ReadsOf t x := by
  refine ⟨fun a q hq => (hx.rest a q hq).trans h, fun hq => ?_⟩
  obtain ⟨ds, hds, hdigits, hlength⟩ := hx.overlong hq
  exact ⟨ds, hds.trans h.isInfix, hdigits, hlength⟩

end ReadsOf

theorem takeDigits_spec (t : Text) :
    t = Text.ofChars (takeDigits t).1 ++ (takeDigits t).2 ∧ ∀ d ∈ (takeDigits t).1, d.isDigit := by
  induction t using takeDigits.induct with
  | case1 c r hc ih =>
    rw [takeDigits, if_pos hc]
    exact ⟨congrArg _ ih.1, List.forall_mem_cons.2 ⟨hc, ih.2⟩⟩
  | case2 c r hc =>
    rw [takeDigits, if_neg hc]
    exact ⟨rfl, List.forall_mem_nil _⟩
  | case3 t ht =>
    rw [takeDigits.eq_2 _ ht]
    exact ⟨rfl, List.forall_mem_nil _⟩

theorem takeDigits_suffix (t : Text) : (takeDigits t).2 <:+ t :=
  ⟨_, (takeDigits_spec t).1.symm⟩

theorem takeFraction_suffix (t : Text) : (takeFraction t).2 <:+ t := by
  unfold takeFraction
  split
  · next r =>
    split
    · exact List.suffix_rfl
    · exact (takeDigits_suffix r).trans (List.suffix_cons _ _)
  · exact List.suffix_rfl

theorem signedRest_suffix (r : Text) : (match r with
    | .scalar '-' :: q => (true, q)
    | .scalar '+' :: q => (false, q)
    | q => (false, q)).2 <:+ r := by
  split
  · exact List.suffix_cons _ _
  · exact List.suffix_cons _ _
  · exact List.suffix_rfl

theorem takeExponent_suffix (t : Text) : (takeExponent t).2 <:+ t := by
  unfold takeExponent
  split
  · next e r =>
    split
    · dsimp only
      split
      · exact List.suffix_rfl
      · next ds rest _ heq =>
        have hrest : (ds, rest).2 <:+ r := heq ▸ (takeDigits_suffix _).trans (signedRest_suffix r)
        exact hrest.trans (List.suffix_cons _ _)
    · exact List.suffix_rfl
  · exact List.suffix_rfl

theorem readsOf_number (negative : Bool) (t : Text) : ReadsOf t (number negative t) := by
  obtain ⟨htext, hdigits⟩ := takeDigits_spec t
  have hsuffix := takeDigits_suffix t
  unfold number
  split
  · exact .malformed
  · next d ds rest htake =>
    rw [htake] at htext hdigits hsuffix
    have hwhole : ∃ whole r, (if d == '0' then ([d], t.drop 1) else (d :: ds, rest)) = (whole, r) ∧
        r <:+ t ∧ (Numeral.digitLimit < whole.length → HasLongInteger t) := by
      split
      · exact ⟨_, _, rfl, List.drop_suffix _ _, fun h => absurd h (by simp [Numeral.digitLimit])⟩
      · exact ⟨_, _, rfl, hsuffix, fun h =>
          ⟨d :: ds, htext ▸ (List.prefix_append _ _).isInfix, hdigits, h⟩⟩
    obtain ⟨whole, r, heq, hr, hlong⟩ := hwhole
    have hend : (takeExponent (takeFraction r).2).2 <:+ t :=
      ((takeExponent_suffix _).trans (takeFraction_suffix r)).trans hr
    simp only [heq]
    split
    · split
      · next hmany => exact ⟨nofun, fun _ => hlong hmany⟩
      · exact .ok hend
    · exact .ok hend

theorem readsOf_scalar (t : Text) : ReadsOf t (Json.scalar t) := by
  unfold Json.scalar
  dsimp only
  split
  · exact .ok (List.drop_suffix _ _)
  · split
    · exact (readsOf_number _ _).of_suffix (List.suffix_cons _ _)
    · exact readsOf_number _ _

theorem skipSpace_suffix (t : Text) : skipSpace t <:+ t := List.dropWhile_suffix _

/-- The readers of a value, of the values of an array and of the members of an object go
together. -/
theorem readsOf_value (fuel : Nat) : ∀ t,
    ReadsOf t (Json.value fuel t) ∧ ReadsOf t (elements fuel t) ∧ ReadsOf t (members fuel t) := by
  induction fuel with
  | zero => exact fun t => ⟨.malformed, .malformed, .malformed⟩
  | succ fuel ih =>
    intro t
    have hskip {c : CodePoint} {q r : Text} (hq : skipSpace r = c :: q) (h : r <:+ t) : q <:+ t :=
      ((List.suffix_cons c q).trans (hq ▸ skipSpace_suffix r)).trans h
    refine ⟨?_, ?_, ?_⟩
    · unfold Json.value
      split
      · next r =>
        split
        · next s rest hs => exact .ok ((stringRest_suffix hs).trans (List.suffix_cons _ _))
        · exact .malformed
      · next r =>
        have hr : r <:+ CodePoint.scalar '[' :: r := List.suffix_cons _ _
        split
        · next rest hrest => exact .ok (hskip hrest hr)
        · refine ReadsOf.bind (((ih _).2.1).of_suffix ((skipSpace_suffix r).trans hr)) ?_
          exact fun items rest hrest => .ok hrest
      · next r =>
        have hr : r <:+ CodePoint.scalar '{' :: r := List.suffix_cons _ _
        split
        · next rest hrest => exact .ok (hskip hrest hr)
        · refine ReadsOf.bind (((ih _).2.2).of_suffix ((skipSpace_suffix r).trans hr)) ?_
          exact fun ms rest hrest => .ok hrest
      · exact readsOf_scalar t
    · unfold elements
      refine ReadsOf.bind (ih t).1 fun v r hr => ?_
      dsimp only
      split
      · next rest hrest => exact .ok (hskip hrest hr)
      · next rest hrest =>
        have hq := (skipSpace_suffix _).trans (hskip hrest hr)
        exact ((ih _).2.1.of_suffix hq).bind fun vs rest hrest => .ok hrest
      · exact .malformed
    · unfold members
      split
      · next r =>
        split
        · exact .malformed
        · next key r' hkey =>
          have hr' := (stringRest_suffix hkey).trans (List.suffix_cons (CodePoint.scalar '"') r)
          split
          · next q hq =>
            have hvalue := (skipSpace_suffix _).trans (hskip hq hr')
            refine ((ih _).1.of_suffix hvalue).bind fun v p hp => ?_
            dsimp only
            split
            · next rest hrest => exact .ok (hskip hrest hp)
            · next rest hrest =>
              refine ReadsOf.bind
                (((ih _).2.2).of_suffix ((skipSpace_suffix _).trans (hskip hrest hp))) ?_
              exact fun ms rest hrest => .ok hrest
            · exact .malformed
          · exact .malformed
      · exact .malformed

/-- An integer has too many digits only if there are so many digits in a row in the text. -/
theorem hasLongInteger_of_parse (h : parse t = .error .tooManyDigits) : HasLongInteger t := by
  rcases exceptBind_eq_error.1 h with h | ⟨a, -, h⟩
  · exact ((readsOf_value _ _).1.of_suffix (skipSpace_suffix t)).overlong h
  · dsimp only at h
    split at h <;> cases h

end AnyText

end CustomElements.Json
