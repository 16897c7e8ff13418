import CustomElements.Proofs.Json.CommentScan
import CustomElements.Proofs.Text.Trimming

/-!
# Both scans see the same strings

The scan for trailing commas looks back at each quote inside of a string: after an odd number of
backslashes it does not end the string. The scan for comments goes forward and takes the
character after a backslash along. In a text without comments the two march in step, since the
number of backslashes before the character that is next in a string is even whenever the forward
scan stands there. So the commas that go are those outside of strings before a closing bracket.
-/

namespace CustomElements.Json

/-- The number of backslashes at the end of a text. -/
def backslashesAtEnd (t : Text) : Nat :=
  (t.reverse.takeWhile fun p => decide (p = .scalar '\\')).length

/-- Whether a quote behind a text does not count: backslashes in odd number stand right before. -/
def isEscapedAfter (before : Text) : Bool := backslashesAtEnd before % 2 == 1

/-- Whether each character of the rest of a text is in a string, for a scan that looks back from
each quote at the text before. -/
def quotedFrom (before : Text) (inString : Bool) : Text → List Bool
  | [] => []
  | p :: r =>
    inString :: quotedFrom (before ++ [p])
      (if p = .scalar '"' then !inString || isEscapedAfter before else inString) r

/-- Whether each character of a text is in a string, for a scan that looks back from each quote. -/
def quoted (t : Text) : List Bool := quotedFrom [] false t

/-- Whether the scan for comments is inside of a string. -/
def ScanPlace.isString : ScanPlace → Bool
  | inString => true
  | outside | inLine | inBlock => false

/-- A comma after which the next character that is not blank closes an array or an object. -/
def IsTrailingComma (t : Text) (i : Nat) : Prop :=
  t[i]? = some (.scalar ',') ∧ ∃ blanks p rest, t.drop (i + 1) = blanks ++ p :: rest ∧
    (∀ b ∈ blanks, b.isBlank) ∧ (p = .scalar '}' ∨ p = .scalar ']')

/-- A trailing comma outside of the strings that a scan has seen. -/
def IsDropped (inString : List Bool) (t : Text) (i : Nat) : Prop :=
  IsTrailingComma t i ∧ inString[i]? = some false

/-- A text is another one without the characters at some positions, in the same order. -/
def Without (dropped : Nat → Prop) (t out : Text) : Prop :=
  ∃ kept : List Nat, kept.Pairwise (· < ·) ∧ (∀ i, i ∈ kept ↔ i < t.length ∧ ¬dropped i) ∧
    out.map some = kept.map fun i => t[i]?

variable {p : CodePoint} {before r t out : Text} {s : ScanPlace} {dropped dropped' : Nat → Prop}

/-! ### Looking back -/

@[simp] theorem backslashesAtEnd_slash (before : Text) :
    backslashesAtEnd (before ++ [.scalar '\\']) = backslashesAtEnd before + 1 := by
  simp [backslashesAtEnd]

theorem backslashesAtEnd_of_ne (h : p ≠ .scalar '\\') (before : Text) :
    backslashesAtEnd (before ++ [p]) = 0 := by
  simp [backslashesAtEnd, h]

/-- A scan that looks back marches in step with the one that goes forward. -/
theorem quotedFrom_eq (hs : s.isKept) (hall : ∀ q ∈ placesFrom s t, q.isKept)
    (heven : s = .inString → backslashesAtEnd before % 2 = 0) :
    quotedFrom before s.isString t = (placesFrom s t).map ScanPlace.isString := by
  fun_induction placesFrom s t generalizing before with
  | case1 s => rfl
  | case2 r | case3 r => cases hall _ List.mem_cons_self
  | case4 r ih =>
    have hrest := @ih (before ++ [.scalar '"']) rfl (List.forall_mem_cons.1 hall).2
      fun _ => by rw [backslashesAtEnd_of_ne (by decide)]
    exact congrArg (false :: ·) hrest
  | case5 p r hline hblock hquote ih =>
    have hrest := @ih (before ++ [p]) rfl (List.forall_mem_cons.1 hall).2
      fun h => by cases h
    rw [quotedFrom, if_neg hquote]
    exact congrArg (false :: ·) hrest
  | case6 p r ih =>
    have hn := heven rfl
    have hodd : isEscapedAfter (before ++ [.scalar '\\']) = true := by
      rw [isEscapedAfter, backslashesAtEnd_slash, beq_iff_eq]
      omega
    have heven' : backslashesAtEnd (before ++ [.scalar '\\'] ++ [p]) % 2 = 0 := by
      by_cases hp : p = .scalar '\\'
      · rw [hp, backslashesAtEnd_slash, backslashesAtEnd_slash]
        omega
      · rw [backslashesAtEnd_of_ne hp]
    have htail := (List.forall_mem_cons.1 (List.forall_mem_cons.1 hall).2).2
    have hrest := ih rfl htail fun _ => heven'
    rw [quotedFrom, quotedFrom, hodd]
    simpa [ScanPlace.isString] using hrest
  | case7 r ih =>
    have heq : isEscapedAfter before = false := by
      rw [isEscapedAfter, heven rfl]
      rfl
    have hrest := @ih (before ++ [.scalar '"']) rfl (List.forall_mem_cons.1 hall).2
      fun h => by cases h
    rw [quotedFrom, if_pos rfl, heq]
    exact congrArg (true :: ·) hrest
  | case8 p r hslash hquote ih =>
    rw [quotedFrom, if_neg hquote]
    refine congrArg (true :: ·) ?_
    cases r with
    | nil => rfl
    | cons q r =>
      have hp : p ≠ .scalar '\\' := fun hp => hslash q r hp rfl
      exact ih rfl (List.forall_mem_cons.1 hall).2 fun _ => by rw [backslashesAtEnd_of_ne hp]
  | case9 | case10 | case11 | case12 => cases hs

/-! ### What goes -/

theorem closesNext_iff : closesNext r = true ↔ ∃ blanks p rest, r = blanks ++ p :: rest ∧
    (∀ b ∈ blanks, b.isBlank) ∧ (p = .scalar '}' ∨ p = .scalar ']') := by
  constructor
  · intro h
    unfold closesNext at h
    split at h
    · next c hc =>
      obtain ⟨rest, hrest⟩ := List.head?_eq_some_iff.1 hc
      refine ⟨r.takeWhile CodePoint.isBlank, .scalar c, rest, ?_, ?_, ?_⟩
      · rw [← hrest, Text.stripLeft, List.takeWhile_append_dropWhile]
      · exact fun b hb => List.mem_takeWhile_imp hb
      · simpa using h
    · cases h
  · rintro ⟨blanks, p, rest, rfl, hblanks, hp⟩
    have hstop : p.isBlank = false := by rcases hp with rfl | rfl <;> decide
    have hleft : Text.stripLeft (blanks ++ p :: rest) = p :: rest := by
      rw [Text.stripLeft, List.dropWhile_append_of_pos hblanks]
      exact Text.stripLeft_cons hstop rest
    rw [closesNext, hleft]
    rcases hp with rfl | rfl <;> rfl

namespace Without

theorem nil : Without dropped [] [] :=
  ⟨[], List.Pairwise.nil, fun i => by simp, rfl⟩

theorem congr (h : ∀ i, dropped i ↔ dropped' i) (hw : Without dropped t out) :
    Without dropped' t out := by
  obtain rfl : dropped = dropped' := funext fun i => propext (h i)
  exact hw

/-- The first character stays. -/
theorem keep (h : ¬dropped 0) (hw : Without (fun i => dropped (i + 1)) t out) :
    Without dropped (p :: t) (p :: out) := by
  obtain ⟨kept, hsorted, hmem, hout⟩ := hw
  refine ⟨0 :: kept.map (· + 1), ?_, fun i => ?_, ?_⟩
  · rw [List.pairwise_cons, List.pairwise_map]
    refine ⟨fun i hi => ?_, hsorted.imp fun hlt => Nat.succ_lt_succ hlt⟩
    obtain ⟨j, -, rfl⟩ := List.mem_map.1 hi
    exact Nat.succ_pos j
  · cases i with
    | zero => simp [h]
    | succ i => simp [hmem]
  · rw [List.map_cons, hout, List.map_cons, List.map_map]
    rfl

/-- The first character goes. -/
theorem drop (h : dropped 0) (hw : Without (fun i => dropped (i + 1)) t out) :
    Without dropped (p :: t) out := by
  obtain ⟨kept, hsorted, hmem, hout⟩ := hw
  refine ⟨kept.map (· + 1), ?_, fun i => ?_, ?_⟩
  · rw [List.pairwise_map]
    exact hsorted.imp fun hlt => Nat.succ_lt_succ hlt
  · cases i with
    | zero => simp [h]
    | succ i => simp [hmem]
  · rw [hout, List.map_map]
    rfl

end Without

theorem not_isDropped_of_ne {inString : List Bool} (h : p ≠ .scalar ',') :
    ¬IsDropped inString (p :: r) 0 := fun hd => h (Option.some.inj hd.1.1)

theorem not_isDropped_of_inString {inString : List Bool} :
    ¬IsDropped (true :: inString) t 0 := fun hd => by cases hd.2

/-- The rest of a text loses the trailing commas outside of strings, by a scan that looks back. -/
theorem stripTrailingCommas_from (before r : Text) :
    Without (IsDropped (quotedFrom before false r) r) r (stripTrailingCommas r) ∧
    Without (IsDropped (quotedFrom before true r) r) r (keepQuoted (backslashesAtEnd before) r) := by
  induction r generalizing before with
  | nil => exact ⟨.nil, .nil⟩
  | cons p r ih =>
    obtain ⟨houtside, hinside⟩ := ih (before ++ [p])
    rw [quotedFrom, quotedFrom]
    constructor
    · by_cases hquote : p = .scalar '"'
      · subst hquote
        rw [backslashesAtEnd_of_ne (by decide)] at hinside
        exact .keep (not_isDropped_of_ne (by decide)) hinside
      · rw [if_neg hquote]
        by_cases hcomma : p = .scalar ','
        · subst hcomma
          rw [stripTrailingCommas]
          split
          · next hnext => exact .drop ⟨⟨rfl, closesNext_iff.1 hnext⟩, rfl⟩ houtside
          · next hnext => exact .keep (fun hd => hnext (closesNext_iff.2 hd.1.2)) houtside
        · rw [stripTrailingCommas]
          · exact .keep (not_isDropped_of_ne hcomma) houtside
          · exact hquote
          · exact hcomma
    · by_cases hquote : p = .scalar '"'
      · subst hquote
        rw [backslashesAtEnd_of_ne (by decide)] at hinside
        rw [keepQuoted, if_pos rfl, ← isEscapedAfter]
        cases isEscapedAfter before with
        | true => exact .keep not_isDropped_of_inString hinside
        | false => exact .keep not_isDropped_of_inString houtside
      · rw [if_neg hquote]
        by_cases hslash : p = .scalar '\\'
        · subst hslash
          rw [backslashesAtEnd_slash] at hinside
          exact .keep not_isDropped_of_inString hinside
        · rw [backslashesAtEnd_of_ne hslash] at hinside
          rw [keepQuoted]
          · exact .keep not_isDropped_of_inString hinside
          · exact hquote
          · exact hslash

/-- In a text without comments a scan is outside of strings where it is not inside of one. -/
theorem getElem?_isString_iff (h : CommentFree t) (i : Nat) :
    ((places t).map ScanPlace.isString)[i]? = some false ↔ (places t)[i]? = some .outside := by
  rw [List.getElem?_map, Option.map_eq_some_iff]
  constructor
  · rintro ⟨q, hq, hfalse⟩
    have hkept := commentFree_iff.1 h q (List.mem_of_getElem? hq)
    cases q with
    | outside => exact hq
    | inString => cases hfalse
    | inLine | inBlock => cases hkept
  · exact fun hq => ⟨_, hq, rfl⟩

/--
For every text without a comment outside of strings, so for all that the scan for comments
leaves: a scan that looks back from each quote stands in strings exactly where the scan for comments
does. What goes with the trailing commas, as seen by looking back, are therefore the commas outside
of strings before a closing bracket, and everything else is kept in order.
-/
theorem trailingCommas_seen_alike (h : CommentFree t) :
    quoted t = (places t).map ScanPlace.isString ∧
    Without (IsDropped (quoted t) t) t (stripTrailingCommas t) ∧
    Without (fun i => IsTrailingComma t i ∧ (places t)[i]? = some .outside) t
      (stripTrailingCommas t) := by
  have hquoted : quoted t = (places t).map ScanPlace.isString :=
    quotedFrom_eq rfl (commentFree_iff.1 h) nofun
  have hback : Without (IsDropped (quoted t) t) t (stripTrailingCommas t) :=
    (stripTrailingCommas_from [] t).1
  refine ⟨hquoted, hback, hback.congr fun i => and_congr_right fun _ => ?_⟩
  rw [hquoted, getElem?_isString_iff h]

/-- A string that ends after two backslashes, a comment with a quote, and a string with an escaped
quote and a comma. -/
def slashedText : Text := "[\"\\\\\",/* \" */\"\\\",]\",]"

theorem trailingCommas_seen_alike_slashedText :
    stripTrailingCommas (stripComments slashedText) = "[\"\\\\\",\"\\\",]\"]" ∧
    quoted (stripComments slashedText) =
      (places (stripComments slashedText)).map ScanPlace.isString := by
  constructor
  · decide +kernel
  · exact (trailingCommas_seen_alike (commentFree_stripComments slashedText)).1

end CustomElements.Json
