import Mathlib.Data.List.Basic
import CustomElements.Json.Comments

/-!
# Where the scan for comments stands

The scan that takes out comments goes over a text once and knows at each character whether it is
inside of a string or of a comment (`places`). What it leaves is the text without the characters
inside of comments. A second scan stands at the same places over what is left: the two sides of a
comment never make an opening or the edge of a string together, since a slash that is kept is not
followed by anything that would have opened a comment. So what is left holds no comment, and a
second scan takes nothing out.
-/

namespace CustomElements.Json

/-- Where the scan for comments stands when it comes to a character. -/
inductive ScanPlace where
  | outside
  | inString
  | inLine
  | inBlock
deriving DecidableEq, Repr

namespace ScanPlace

/-- Whether the scan keeps the characters here. -/
def isKept : ScanPlace → Bool
  | outside | inString => true
  | inLine | inBlock => false

/-- Where a scan of what is left stands: a comment is gone. -/
def withoutComments : ScanPlace → ScanPlace
  | inString => inString
  | outside | inLine | inBlock => outside

end ScanPlace

/-- Where the scan stands at each character of a text, if it starts at `s`. A quote that opens a
string is outside of it, and the one that closes it inside. -/
def placesFrom : ScanPlace → Text → List ScanPlace
  | _, [] => []
  | .outside, .scalar '/' :: .scalar '/' :: r => .inLine :: .inLine :: placesFrom .inLine r
  | .outside, .scalar '/' :: .scalar '*' :: r => .inBlock :: .inBlock :: placesFrom .inBlock r
  | .outside, .scalar '"' :: r => .outside :: placesFrom .inString r
  | .outside, _ :: r => .outside :: placesFrom .outside r
  | .inString, .scalar '\\' :: _ :: r => .inString :: .inString :: placesFrom .inString r
  | .inString, .scalar '"' :: r => .inString :: placesFrom .outside r
  | .inString, _ :: r => .inString :: placesFrom .inString r
  | .inLine, .scalar '\n' :: r => .outside :: placesFrom .outside r
  | .inLine, _ :: r => .inLine :: placesFrom .inLine r
  | .inBlock, .scalar '*' :: .scalar '/' :: r => .inBlock :: .inBlock :: placesFrom .outside r
  | .inBlock, _ :: r => .inBlock :: placesFrom .inBlock r

/-- Where the scan of a text stands at each of its characters. -/
def places (t : Text) : List ScanPlace := placesFrom .outside t

/-- What the scan leaves of the rest of a text. -/
def stripFrom : ScanPlace → Text → Text
  | .outside => stripComments
  | .inString => keepString
  | .inLine => stripLine
  | .inBlock => stripBlock

/-- The characters of a text at the places that are kept. -/
def keptAt (t : Text) (ps : List ScanPlace) : Text :=
  ((t.zip ps).filter fun x => x.2.isKept).map Prod.fst

/-- Whether the characters of a comment's opening stand at a position. -/
def OpensComment (t : Text) (i : Nat) : Prop :=
  t[i]? = some (.scalar '/') ∧ (t[i + 1]? = some (.scalar '/') ∨ t[i + 1]? = some (.scalar '*'))

/-- No comment opens outside of a string. -/
def CommentFree (t : Text) : Prop :=
  ∀ i, OpensComment t i → (places t)[i]? = some .inString

/-! ### What is left -/

variable {p : CodePoint} {r t : Text} {s : ScanPlace} {i : Nat}

theorem length_placesFrom (s : ScanPlace) (t : Text) : (placesFrom s t).length = t.length := by
  fun_induction placesFrom s t with
  | case1 => rfl
  | case2 r ih | case3 r ih | case6 p r ih | case11 r ih =>
    exact congrArg (· + 2) ih
  | case4 r ih | case5 p r _ _ _ ih | case7 r ih | case8 p r _ _ ih | case9 r ih
  | case10 p r _ ih | case12 p r _ ih => exact congrArg (· + 1) ih

/-- A scan leaves the characters outside of comments. -/
theorem stripFrom_eq_keptAt (s : ScanPlace) (t : Text) :
    stripFrom s t = keptAt t (placesFrom s t) := by
  fun_induction placesFrom s t with
  | case1 s => cases s <;> rfl
  | case2 r ih | case3 r ih | case11 r ih => exact ih
  | case4 r ih | case7 r ih | case9 r ih => exact congrArg _ ih
  | case6 p r ih => exact congrArg (fun u => _ :: p :: u) ih
  | case5 p r hline hblock hquote ih =>
    refine Eq.trans ?_ (congrArg (p :: ·) ih)
    rw [stripFrom, stripComments]
    exacts [hline, hblock, hquote]
  | case8 p r hslash hquote ih =>
    refine Eq.trans ?_ (congrArg (p :: ·) ih)
    rw [stripFrom, keepString]
    exacts [hslash, hquote]
  | case10 p r hfeed ih =>
    refine Eq.trans ?_ ih
    rw [stripFrom, stripLine]
    exact hfeed
  | case12 p r hend ih =>
    refine Eq.trans ?_ ih
    rw [stripFrom, stripBlock]
    exact hend

/-- What is left of a text that does not begin with a slash begins as the text. -/
theorem stripComments_eq_cons {q : CodePoint} {u : Text} (hslash : ∀ v, r ≠ .scalar '/' :: v)
    (h : stripComments r = q :: u) : ∃ v, r = q :: v := by
  cases r with
  | nil => cases h
  | cons p r =>
    have hp : p ≠ .scalar '/' := fun hp => hslash r (congrArg (· :: r) hp)
    by_cases hquote : p = .scalar '"'
    · rw [hquote, stripComments] at h
      exact ⟨r, by rw [hquote, (List.cons.inj h).1]⟩
    · rw [stripComments] at h
      · exact ⟨r, by rw [(List.cons.inj h).1]⟩
      · exact fun _ hslash => absurd hslash hp
      · exact fun _ hslash => absurd hslash hp
      · exact hquote

/-- A scan of what is left stands at the places that were kept. -/
theorem placesFrom_stripFrom (s : ScanPlace) (t : Text) :
    placesFrom s.withoutComments (stripFrom s t) =
      (placesFrom s t).filter ScanPlace.isKept := by
  fun_induction placesFrom s t with
  | case1 s => cases s <;> rfl
  | case2 r ih | case3 r ih | case11 r ih => exact ih
  | case4 r ih | case7 r ih | case9 r ih => exact congrArg _ ih
  | case6 p r ih => exact congrArg (fun u => _ :: _ :: u) ih
  | case5 p r hline hblock hquote ih =>
    refine Eq.trans ?_ (congrArg (_ :: ·) ih)
    have hleft : stripComments (p :: r) = p :: stripComments r := by
      rw [stripComments]
      exacts [hline, hblock, hquote]
    -- a slash that is kept is not followed by what would have opened a comment
    have hnext {q : CodePoint} {u : Text} (hp : p = .scalar '/') (h : stripComments r = q :: u) :
        ∃ v, r = q :: v := stripComments_eq_cons (fun v hr => hline v hp hr) h
    rw [stripFrom, hleft, ScanPlace.withoutComments, placesFrom]
    · exact fun u hp h => (hnext hp h).elim fun v hr => hline v hp hr
    · exact fun u hp h => (hnext hp h).elim fun v hr => hblock v hp hr
    · exact hquote
  | case8 p r hslash hquote ih =>
    refine Eq.trans ?_ (congrArg (_ :: ·) ih)
    have hleft : keepString (p :: r) = p :: keepString r := by
      rw [keepString]
      exacts [hslash, hquote]
    rw [stripFrom, hleft, ScanPlace.withoutComments, placesFrom]
    · intro q u hp h
      -- a backslash that takes nothing with it is the last character
      cases r with
      | nil => cases h
      | cons q r => exact hslash q r hp rfl
    · exact hquote
  | case10 p r hfeed ih =>
    refine Eq.trans ?_ ih
    rw [stripFrom, stripLine]
    exact hfeed
  | case12 p r hend ih =>
    refine Eq.trans ?_ ih
    rw [stripFrom, stripBlock]
    exact hend

/-! ### Openings -/

/-- Where a comment would open, the scan is inside of a string or of a comment. -/
theorem placesFrom_of_opensComment (s : ScanPlace) (h : OpensComment t i) :
    (placesFrom s t)[i]? ≠ some .outside := by
  obtain ⟨hslash, hnext⟩ := h
  fun_induction placesFrom s t generalizing i with
  | case1 s => cases hslash
  | case2 r ih | case3 r ih | case6 p r ih | case11 r ih =>
    rcases i with _ | _ | i
    · exact nofun
    · exact nofun
    · exact ih hslash hnext
  | case4 r ih | case9 r ih =>
    cases i with
    | zero => cases hslash
    | succ i => exact ih hslash hnext
  | case5 p r hline hblock hquote ih =>
    cases i with
    | zero =>
      have hp : p = .scalar '/' := Option.some.inj hslash
      cases r with
      | nil => rcases hnext with hnext | hnext <;> cases hnext
      | cons q r =>
        rcases hnext with hnext | hnext
        · exact (hline r hp (congrArg (· :: r) (Option.some.inj hnext))).elim
        · exact (hblock r hp (congrArg (· :: r) (Option.some.inj hnext))).elim
    | succ i => exact ih hslash hnext
  | case7 r ih | case8 p r hescape hquote ih | case10 p r hfeed ih | case12 p r hend ih =>
    cases i with
    | zero => exact nofun
    | succ i => exact ih hslash hnext

/-- A scan that meets no opening outside of strings is never inside of a comment. -/
theorem isKept_of_opensComment (hs : s.isKept)
    (h : ∀ i, OpensComment t i → (placesFrom s t)[i]? = some .inString) :
    ∀ q ∈ placesFrom s t, q.isKept := by
  fun_induction placesFrom s t with
  | case1 s => exact List.forall_mem_nil _
  | case2 r ih => cases h 0 ⟨rfl, .inl rfl⟩
  | case3 r ih => cases h 0 ⟨rfl, .inr rfl⟩
  | case4 r ih | case5 p r _ _ _ ih | case7 r ih | case8 p r _ _ ih =>
    exact List.forall_mem_cons.2 ⟨rfl, ih rfl fun i hi => h (i + 1) hi⟩
  | case6 p r ih =>
    exact List.forall_mem_cons.2
      ⟨rfl, List.forall_mem_cons.2 ⟨rfl, ih rfl fun i hi => h (i + 2) hi⟩⟩
  | case9 | case10 | case11 | case12 => cases hs

theorem commentFree_iff : CommentFree t ↔ ∀ q ∈ places t, q.isKept := by
  refine ⟨isKept_of_opensComment rfl, fun h i hi => ?_⟩
  have hlt : i < (places t).length := by
    rw [places, length_placesFrom]
    exact (List.getElem?_eq_some_iff.1 hi.1).1
  obtain ⟨q, hq⟩ : ∃ q, (places t)[i]? = some q := ⟨_, List.getElem?_eq_getElem hlt⟩
  have hkept := h q (List.mem_of_getElem? hq)
  cases q with
  | outside => exact absurd hq (placesFrom_of_opensComment .outside hi)
  | inString => exact hq
  | inLine | inBlock => cases hkept

/-- What the scan leaves holds no comment. -/
theorem commentFree_stripComments (t : Text) : CommentFree (stripComments t) := by
  have hplaces : places (stripComments t) = _ := placesFrom_stripFrom .outside t
  rw [commentFree_iff, hplaces]
  exact fun q hq => (List.mem_filter.1 hq).2

/-- A text without comments is left as it is. -/
theorem stripComments_of_commentFree (h : CommentFree t) : stripComments t = t := by
  have hleft : stripComments t = keptAt t (places t) := stripFrom_eq_keptAt .outside t
  have hlength : (places t).length = t.length := length_placesFrom .outside t
  have hall : (t.zip (places t)).filter (fun x => x.2.isKept) = t.zip (places t) :=
    List.filter_eq_self.2 fun x hx => commentFree_iff.1 h x.2 (List.of_mem_zip hx).2
  rw [hleft, keptAt, hall, List.map_fst_zip (Nat.le_of_eq hlength.symm)]

/--
For every text, well-formed or not: what the scan for comments leaves are the characters outside of
comments. It holds no comment, as the scan itself tells: wherever two characters would open one, a
scan of what is left is inside of a string. This scan stands at the places of the first
one that were kept, and it takes nothing out.
-/
theorem stripComments_complete (t : Text) :
    stripComments t = keptAt t (places t) ∧
    CommentFree (stripComments t) ∧
    places (stripComments t) = (places t).filter ScanPlace.isKept ∧
    stripComments (stripComments t) = stripComments t :=
  ⟨stripFrom_eq_keptAt .outside t, commentFree_stripComments t, placesFrom_stripFrom .outside t,
    stripComments_of_commentFree (commentFree_stripComments t)⟩

end CustomElements.Json
