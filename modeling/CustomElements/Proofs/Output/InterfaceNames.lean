import Mathlib.Data.List.Nodup
import Mathlib.Data.List.Pairwise
import Mathlib.Logic.Basic
import CustomElements.Output.Declarations
import CustomElements.Proofs.Text.CodePoints
import CustomElements.Proofs.Text.Splitting

/-!
# Which declared names are distinct

The names of interfaces and handlers are made in Pascal case: what stands between words is left out,
and so is the case of the letters that begin them. What remains of a name is its letters and digits,
each with whether it is shown as a capital. Two names are declared alike exactly if the same remains
of both; so names that are distinct need not stay so, but those of the usual spelling do.
-/

namespace CustomElements

/-- A letter or digit without its case, and whether it is shown as a capital letter. -/
abbrev Mark := Char × Bool

/-- What remains of a text in Pascal case, where its first letter may begin a word. -/
def marksFrom : Bool → Text → List Mark
  | _, [] => []
  | starts, .scalar c :: r =>
    if c.isAlphanum then (c.toLower, c.isAlpha && (starts || c.isUpper)) :: marksFrom false r
    else marksFrom true r
  | _, .surrogate _ :: r => marksFrom true r

/-- What remains of a name in Pascal case: its letters and digits, where a letter is a capital if it
was one or begins a word. -/
def marks (t : Text) : List Mark := marksFrom true t

/-- How a letter or digit is shown. -/
def Mark.shown (m : Mark) : CodePoint := .scalar (if m.2 then m.1.toUpper else m.1)

/-- What is told by a letter or digit that is shown. -/
def markOf : CodePoint → Mark
  | .scalar c => (c.toLower, c.isUpper)
  | .surrogate _ => (default, false)

section Letters

/-- A letter or digit is shown as it is, or as a capital where a word begins. -/
theorem shown_mark {c : Char} (h : c.isAlphanum) (starts : Bool) :
    Mark.shown (c.toLower, c.isAlpha && (starts || c.isUpper)) =
      .scalar (if starts then c.toUpper else c) := by
  have hc := forall_alphanum (P := fun c => ∀ starts : Bool,
    (if c.isAlpha && (starts || c.isUpper) then c.toLower.toUpper else c.toLower) =
      if starts then c.toUpper else c) (by decide +kernel) h starts
  exact congrArg CodePoint.scalar hc

/-- What is shown tells what it was shown from. -/
theorem markOf_shown {c : Char} (h : c.isAlphanum) (starts : Bool) :
    markOf (Mark.shown (c.toLower, c.isAlpha && (starts || c.isUpper))) =
      (c.toLower, c.isAlpha && (starts || c.isUpper)) := by
  have hc := forall_alphanum (P := fun c => ∀ starts : Bool,
    (if starts then c.toUpper else c).toLower = c.toLower ∧
      (if starts then c.toUpper else c).isUpper = (c.isAlpha && (starts || c.isUpper)))
    (by decide +kernel) h starts
  rw [shown_mark h]
  exact Prod.ext hc.1 hc.2

end Letters

section PascalCase

theorem exists_char_of_isWordPoint {p : CodePoint} (hp : isWordPoint p) :
    ∃ c : Char, p = .scalar c ∧ c.isAlphanum := by
  cases p with
  | scalar c => exact ⟨c, rfl, hp⟩
  | surrogate k => cases hp

theorem wordsOf_cons_of_not {p : CodePoint} (hp : ¬isWordPoint p) (t : Text) :
    wordsOf (p :: t) = wordsOf t := by
  rw [wordsOf.eq_def]
  exact if_pos (by simpa using hp)

/-- A word ends before anything that is neither a letter nor a digit. -/
theorem wordsOf_cons_end {p : CodePoint} (hp : isWordPoint p) {t : Text}
    (h : ∀ q ∈ t.head?, ¬isWordPoint q) : wordsOf (p :: t) = [p] :: wordsOf t := by
  rw [wordsOf.eq_def]
  refine (if_neg (by simpa using hp)).trans ?_
  cases t with
  | nil => rfl
  | cons q t =>
    cases hws : wordsOf (q :: t) with
    | nil => rfl
    | cons w ws => exact if_neg (h q rfl)

/-- A word goes on as long as letters and digits follow. -/
theorem wordsOf_cons_cons {p q : CodePoint} (hp : isWordPoint p) (hq : isWordPoint q) {t w : Text}
    {ws : List Text} (h : wordsOf (q :: t) = (q :: w) :: ws) :
    wordsOf (p :: q :: t) = (p :: q :: w) :: ws := by
  rw [wordsOf.eq_def]
  refine (if_neg (by simpa using hp)).trans ?_
  rw [h]
  exact if_pos hq

theorem marksFrom_cons_of_not {p : CodePoint} (hp : ¬isWordPoint p) (starts : Bool) (t : Text) :
    marksFrom starts (p :: t) = marks t := by
  cases p with
  | scalar c => exact if_neg hp
  | surrogate k => rfl

theorem marksFrom_cons {c : Char} (hc : c.isAlphanum) (starts : Bool) (t : Text) :
    marksFrom starts (.scalar c :: t) =
      (c.toLower, c.isAlpha && (starts || c.isUpper)) :: marksFrom false t := if_pos hc

theorem map_shown_cons {c : Char} (hc : c.isAlphanum) (starts : Bool) (t : Text) :
    (marksFrom starts (.scalar c :: t)).map Mark.shown =
      .scalar (if starts then c.toUpper else c) :: (marksFrom false t).map Mark.shown := by
  rw [marksFrom_cons hc, List.map_cons, shown_mark hc]

/-- The marks are what is shown in Pascal case. The words cannot be followed one by one, since a
text may go on within a word; so beside the case of a text there is that of a word before it. -/
theorem pascalCase_and_wordsOf (t : Text) :
    pascalCase t = (marks t).map Mark.shown ∧
      ∀ p, isWordPoint p → ∃ w ws, wordsOf (p :: t) = (p :: w) :: ws ∧
        w ++ (ws.map capitalise).flatten = (marksFrom false t).map Mark.shown := by
  induction t with
  | nil => exact ⟨rfl, fun p hp => ⟨[], [], wordsOf_cons_end hp (by simp), rfl⟩⟩
  | cons q t ih =>
    obtain ⟨hwords, hgoes⟩ := ih
    by_cases hq : isWordPoint q
    · obtain ⟨w, ws, hws, heq⟩ := hgoes q hq
      obtain ⟨c, rfl, hc⟩ := exists_char_of_isWordPoint hq
      refine ⟨?_, fun p hp => ⟨.scalar c :: w, ws, wordsOf_cons_cons hp hq hws, ?_⟩⟩
      · rw [pascalCase, hws, marks, map_shown_cons hc, ← heq]
        rfl
      · rw [map_shown_cons hc, ← heq]
        rfl
    · refine ⟨?_, fun p hp => ⟨[], wordsOf t, ?_, ?_⟩⟩
      · rw [pascalCase, wordsOf_cons_of_not hq, marks, marksFrom_cons_of_not hq]
        exact hwords
      · rw [wordsOf_cons_end hp (by simpa using hq), wordsOf_cons_of_not hq]
      · rw [marksFrom_cons_of_not hq]
        exact hwords

theorem pascalCase_eq_marks (t : Text) : pascalCase t = (marks t).map Mark.shown :=
  (pascalCase_and_wordsOf t).1

theorem map_markOf_shown (starts : Bool) (t : Text) :
    ((marksFrom starts t).map Mark.shown).map markOf = marksFrom starts t := by
  induction t generalizing starts with
  | nil => rfl
  | cons p t ih =>
    by_cases hp : isWordPoint p
    · obtain ⟨c, rfl, hc⟩ := exists_char_of_isWordPoint hp
      rw [marksFrom_cons hc, List.map_cons, List.map_cons, markOf_shown hc, ih]
    · rw [marksFrom_cons_of_not hp]
      exact ih true

/-- Two names are the same in Pascal case exactly if they have the same letters and digits, and the
same of these are capitals or begin a word. -/
theorem pascalCase_eq_iff {a b : Text} : pascalCase a = pascalCase b ↔ marks a = marks b := by
  rw [pascalCase_eq_marks, pascalCase_eq_marks]
  constructor
  · intro h
    have hmarks := congrArg (List.map markOf) h
    rwa [marks, marks, map_markOf_shown, map_markOf_shown] at hmarks
  · exact congrArg _

/-- A name in Pascal case has letters and digits only. -/
theorem isWordPoint_of_mem_pascalCase {t : Text} : ∀ p ∈ pascalCase t, isWordPoint p := by
  have hmarks (starts : Bool) : ∀ p ∈ (marksFrom starts t).map Mark.shown, isWordPoint p := by
    induction t generalizing starts with
    | nil => exact List.forall_mem_nil _
    | cons q t ih =>
      by_cases hq : isWordPoint q
      · obtain ⟨c, rfl, hc⟩ := exists_char_of_isWordPoint hq
        rw [map_shown_cons hc, List.forall_mem_cons]
        refine ⟨?_, ih false⟩
        exact forall_alphanum (P := fun c => ∀ starts : Bool,
          (if starts then c.toUpper else c).isAlphanum) (by decide +kernel) hc starts
      · rw [marksFrom_cons_of_not hq]
        exact ih true
  rw [pascalCase_eq_marks]
  exact hmarks true

end PascalCase

section UsualNames

/-- A word of a tag in the usual spelling: a lower-case letter, then such letters and digits. -/
def isPlainWord : Text → Bool
  | .scalar c :: r => c.isLower && r.all (CodePoint.satisfies fun d => d.isLower || d.isDigit)
  | _ => false

/-- The tags in the usual spelling: plain words with one hyphen between neighbours. -/
def IsPlainTag (t : Text) : Prop := ∀ w ∈ Text.splitOn '-' t, isPlainWord w

instance (t : Text) : Decidable (IsPlainTag t) := inferInstanceAs (Decidable (∀ w ∈ _, _))

/-- A name in camel case: letters and digits only, and no capital letter at the front. -/
def isCamelName (t : Text) : Bool :=
  t.all isWordPoint && !t.head?.any (CodePoint.satisfies Char.isUpper)

/-- Writes a hyphen before each capital, and nothing else in capitals. -/
def withHyphens (ms : List Mark) : Text :=
  ms.flatMap fun m => if m.2 then ['-', .scalar m.1] else [.scalar m.1]

theorem withHyphens_append (a b : List Mark) :
    withHyphens (a ++ b) = withHyphens a ++ withHyphens b := List.flatMap_append

theorem marksFrom_append {w : Text} (hw : ∀ p ∈ w, isWordPoint p) (t : Text) :
    marksFrom false (w ++ t) = marksFrom false w ++ marksFrom false t := by
  induction w with
  | nil => rfl
  | cons p w ih =>
    rw [List.forall_mem_cons] at hw
    obtain ⟨c, rfl, hc⟩ := exists_char_of_isWordPoint hw.1
    rw [List.cons_append, marksFrom_cons hc, marksFrom_cons hc, ih hw.2, List.cons_append]

theorem isAlphanum_of_isLower_or {c : Char} (h : c.isLower || c.isDigit) : c.isAlphanum := by
  rw [Bool.or_eq_true] at h
  unfold Char.isAlphanum Char.isAlpha
  rcases h with h | h
  · rw [h, Bool.or_true, Bool.true_or]
  · rw [h, Bool.or_true]

/-- The lower-case letters and digits within a word remain as they are. -/
theorem withHyphens_rest {w : Text}
    (hw : w.all (CodePoint.satisfies fun d => d.isLower || d.isDigit)) :
    withHyphens (marksFrom false w) = w ∧ ∀ p ∈ w, isWordPoint p := by
  induction w with
  | nil => exact ⟨rfl, List.forall_mem_nil _⟩
  | cons p w ih =>
    rw [List.all_cons, Bool.and_eq_true] at hw
    cases p with
    | surrogate k => cases hw.1
    | scalar c =>
      have hc : c.isAlphanum := isAlphanum_of_isLower_or hw.1
      have hmark := forall_alphanum (P := fun c => c.isLower || c.isDigit →
        c.toLower = c ∧ (c.isAlpha && (false || c.isUpper)) = false) (by decide +kernel) hc hw.1
      obtain ⟨hrest, hpoints⟩ := ih hw.2
      refine ⟨?_, List.forall_mem_cons.2 ⟨hc, hpoints⟩⟩
      rw [marksFrom_cons hc, hmark.1, hmark.2]
      exact congrArg (.scalar c :: ·) hrest

/-- A plain word gets a hyphen before it. -/
theorem withHyphens_word {w : Text} (hw : isPlainWord w) (t : Text) :
    withHyphens (marks (w ++ t)) = .scalar '-' :: w ++ withHyphens (marksFrom false t) := by
  match w, hw with
  | .scalar c :: w, hw =>
    rw [isPlainWord, Bool.and_eq_true] at hw
    obtain ⟨hrest, hpoints⟩ := withHyphens_rest hw.2
    have hc : c.isAlphanum := isAlphanum_of_isLower_or (by rw [hw.1, Bool.true_or])
    have hmark := forall_alphanum (P := fun c => c.isLower →
      c.toLower = c ∧ (c.isAlpha && (true || c.isUpper)) = true) (by decide +kernel) hc hw.1
    have hmarks : marks (.scalar c :: w ++ t) =
        (c, true) :: (marksFrom false w ++ marksFrom false t) := by
      rw [marks, List.cons_append, marksFrom_cons hc, marksFrom_append hpoints, hmark.1, hmark.2]
    have hyphen (ms : List Mark) :
        withHyphens ((c, true) :: ms) = .scalar '-' :: .scalar c :: withHyphens ms := rfl
    rw [hmarks, hyphen, withHyphens_append, hrest]
    rfl

theorem withHyphens_join {ws : List Text} (hne : ws ≠ []) (h : ∀ w ∈ ws, isPlainWord w) :
    withHyphens (marks (Text.join ['-'] ws)) = .scalar '-' :: Text.join ['-'] ws := by
  induction ws with
  | nil => exact absurd rfl hne
  | cons w ws ih =>
    rw [List.forall_mem_cons] at h
    by_cases hws : ws = []
    · have hword := withHyphens_word h.1 []
      rw [List.append_nil] at hword
      rw [hws]
      exact hword.trans (List.append_nil _)
    · rw [Text.join_cons_of_ne_nil hws, List.append_assoc, withHyphens_word h.1,
        List.singleton_append, marksFrom_cons_of_not (by decide), ih hws h.2, List.cons_append]

/-- Plain tags stay distinct in Pascal case. -/
theorem marks_injective_of_plain {a b : Text} (ha : IsPlainTag a) (hb : IsPlainTag b)
    (h : marks a = marks b) : a = b := by
  have hread {t : Text} (ht : IsPlainTag t) : withHyphens (marks t) = .scalar '-' :: t := by
    have hjoin := withHyphens_join (Text.splitOn_ne_nil _ t) ht
    rwa [Text.join_splitOn] at hjoin
  have heq := congrArg withHyphens h
  rw [hread ha, hread hb] at heq
  exact (List.cons.inj heq).2

theorem map_shown_of_points {w : Text} (hw : ∀ p ∈ w, isWordPoint p) :
    (marksFrom false w).map Mark.shown = w := by
  induction w with
  | nil => rfl
  | cons p w ih =>
    rw [List.forall_mem_cons] at hw
    obtain ⟨c, rfl, hc⟩ := exists_char_of_isWordPoint hw.1
    rw [map_shown_cons hc, ih hw.2]
    rfl

/-- A name of letters and digits in Pascal case has its first letter changed, and nothing else. -/
theorem pascalCase_of_points {t : Text} (h : ∀ p ∈ t, isWordPoint p) :
    pascalCase t = capitalise t := by
  cases t with
  | nil => rfl
  | cons p t =>
    rw [List.forall_mem_cons] at h
    obtain ⟨c, rfl, hc⟩ := exists_char_of_isWordPoint h.1
    rw [pascalCase_eq_marks, marks, map_shown_cons hc, map_shown_of_points h.2]
    rfl

/-- The word without a capital at its front. -/
def uncapitalise : Text → Text
  | .scalar c :: r => .scalar c.toLower :: r
  | t => t

theorem uncapitalise_pascalCase {t : Text} (h : isCamelName t) :
    uncapitalise (pascalCase t) = t := by
  rw [isCamelName, Bool.and_eq_true, List.all_eq_true] at h
  obtain ⟨hpoints, hfirst⟩ := h
  rw [pascalCase_of_points hpoints]
  cases t with
  | nil => rfl
  | cons p t =>
    obtain ⟨c, rfl, hc⟩ := exists_char_of_isWordPoint (hpoints p List.mem_cons_self)
    have hlower := forall_alphanum (P := fun c => !c.isUpper → c.toUpper.toLower = c)
      (by decide +kernel) hc hfirst
    exact congrArg (fun c => CodePoint.scalar c :: t) hlower

/-- Names in camel case stay distinct in Pascal case. -/
theorem marks_injective_of_camel {a b : Text} (ha : isCamelName a) (hb : isCamelName b)
    (h : marks a = marks b) : a = b := by
  have heq := congrArg uncapitalise (pascalCase_eq_iff.2 h)
  rwa [uncapitalise_pascalCase ha, uncapitalise_pascalCase hb] at heq

end UsualNames

section Reading

/-- Reads the name that a line declares behind its beginning. -/
def declaredName? (beginning line : Text) : Option Text :=
  if beginning.isPrefixOf line then some ((line.drop beginning.length).takeWhile isWordPoint)
  else none

/-- The names of all interfaces in the lines of the declarations. -/
def interfaceNames (cs : List Component) : List Text :=
  (cs.flatMap declarationLines).filterMap (declaredName? "export interface ")

/-- The names of the handler properties in the lines of a component's outputs. -/
def handlerNames (c : Component) : List Text :=
  (c.outputs.map outputProperty).filterMap (declaredName? "  ")

/-- A name is read up to what cannot belong to it. -/
theorem declaredName?_append (beginning : Text) {name : Text} (hname : ∀ p ∈ name, isWordPoint p)
    {p : CodePoint} (hp : ¬isWordPoint p) (rest : Text) :
    declaredName? beginning (beginning ++ (name ++ p :: rest)) = some name := by
  rw [declaredName?, if_pos (List.isPrefixOf_iff_prefix.2 (List.prefix_append _ _)),
    List.drop_left, List.takeWhile_append_of_pos hname, List.takeWhile_cons_of_neg hp,
    List.append_nil]

/-- Nothing is declared in lines that begin otherwise. -/
theorem filterMap_declaredName?_eq_nil {first : CodePoint} {lines : List Text}
    (h : lines.all fun l => decide (l.head? ≠ some first)) (beginning : Text) :
    lines.filterMap (declaredName? (first :: beginning)) = [] := by
  rw [List.filterMap_eq_nil_iff]
  intro line hline
  refine if_neg fun hprefix => ?_
  obtain ⟨rest, rfl⟩ := List.isPrefixOf_iff_prefix.1 hprefix
  exact of_decide_eq_true (List.all_eq_true.1 h _ hline) rfl

/-- A component declares two interfaces, in its first two lines. -/
theorem filterMap_declarationLines (c : Component) :
    (declarationLines c).filterMap (declaredName? "export interface ") =
      [pascalCase c.tag ++ "Element", pascalCase c.tag ++ "Props"] := by
  have hinterface (suffix rest : Text) (hsuffix : ∀ p ∈ suffix, isWordPoint p)
      (hrest : ∃ r, rest = .scalar ' ' :: r) : declaredName? "export interface "
        ("export interface " ++ (pascalCase c.tag ++ (suffix ++ rest))) =
          some (pascalCase c.tag ++ suffix) := by
    obtain ⟨r, rfl⟩ := hrest
    rw [← List.append_assoc (pascalCase c.tag)]
    exact declaredName?_append _
      (List.forall_mem_append.2 ⟨isWordPoint_of_mem_pascalCase, hsuffix⟩) (by decide) r
  have hmembers (f : Member → Text) (hf : ∀ m, (f m).head? = some (.scalar ' '))
      (ms : List Member) : (ms.map f).filterMap (declaredName? "export interface ") = [] := by
    refine filterMap_declaredName?_eq_nil ?_ _
    rw [List.all_map]
    exact List.all_eq_true.2 fun m _ => decide_eq_true (by rw [hf m]; decide)
  simp only [declarationLines, List.filterMap_append, List.append_assoc,
    hmembers inputProperty fun _ => rfl, hmembers outputProperty fun _ => rfl, List.nil_append]
  rw [List.filterMap_cons_some
      (hinterface "Element" " extends HTMLElement \x7b\x7d" (by decide) ⟨_, rfl⟩),
    List.filterMap_cons_some (hinterface "Props" " \x7b" (by decide) ⟨_, rfl⟩)]
  exact congrArg ([_, _] ++ ·) (filterMap_declaredName?_eq_nil rfl _)

theorem interfaceNames_eq (cs : List Component) :
    interfaceNames cs =
      cs.flatMap fun c => [pascalCase c.tag ++ "Element", pascalCase c.tag ++ "Props"] := by
  rw [interfaceNames, List.filterMap_flatMap]
  exact congrArg (fun f => cs.flatMap f) (funext filterMap_declarationLines)

theorem handlerNames_eq (c : Component) :
    handlerNames c = c.outputs.map fun m => "on" ++ pascalCase m.effectiveName := by
  have hline (m : Member) : declaredName? "  " (outputProperty m) =
      some ("on" ++ pascalCase m.effectiveName) := by
    have hname : ∀ p ∈ ("on" : Text) ++ pascalCase m.effectiveName, isWordPoint p :=
      List.forall_mem_append.2 ⟨by decide, isWordPoint_of_mem_pascalCase⟩
    have hread := declaredName?_append "  " hname (p := '?') (by decide)
      (": (e: CustomEvent<" ++ m.type ++ ">) => void;")
    rw [outputProperty]
    simp only [List.append_assoc] at hread ⊢
    exact hread
  rw [handlerNames, List.filterMap_map]
  have hlines : declaredName? "  " ∘ outputProperty =
      some ∘ fun m => "on" ++ pascalCase m.effectiveName := funext hline
  rw [hlines, List.filterMap_eq_map]

end Reading

section Distinct

/-- What is told apart in the same way is distinct together. -/
theorem nodup_map_congr {α β γ : Type} {f : α → β} {g : α → γ} (h : ∀ a b, f a = f b ↔ g a = g b)
    (l : List α) : (l.map f).Nodup ↔ (l.map g).Nodup := by
  simp only [List.Nodup, List.pairwise_map, ne_eq, h]

/-- What tells elements apart that are distinct in one way is distinct too. -/
theorem nodup_map_of_determines {α β γ : Type} {f : α → β} {g : α → γ} {l : List α}
    (hf : (l.map f).Nodup) (h : ∀ a ∈ l, ∀ b ∈ l, g a = g b → f a = f b) : (l.map g).Nodup := by
  rw [List.Nodup, List.pairwise_map] at hf ⊢
  exact hf.imp_of_mem fun ha hb hne heq => hne (h _ ha _ hb heq)

/-- The endings keep the two kinds of interfaces apart. -/
theorem element_ne_props (a b : Text) : a ++ ("Element" : Text) ≠ b ++ ("Props" : Text) := by
  intro heq
  have hlast := congrArg List.getLast? heq
  rw [List.getLast?_append, List.getLast?_append] at hlast
  have hpoint : CodePoint.scalar 't' = .scalar 's' := Option.some.inj hlast
  exact absurd hpoint (by decide)

theorem nodup_interfaceNames_iff (cs : List Component) :
    (interfaceNames cs).Nodup ↔ (cs.map fun c => pascalCase c.tag).Nodup := by
  have hdisjoint (a b : Text) : List.Disjoint [a ++ ("Element" : Text), a ++ ("Props" : Text)]
      [b ++ ("Element" : Text), b ++ ("Props" : Text)] ↔ a ≠ b := by
    simp [element_ne_props, (element_ne_props _ _).symm, eq_comm]
  rw [interfaceNames_eq, List.nodup_flatMap, List.Nodup, List.pairwise_map]
  refine (and_iff_right fun c _ => ?_).trans ?_
  · exact List.pairwise_pair.2 (element_ne_props _ _)
  · exact List.Pairwise.iff fun c d : Component => hdisjoint (pascalCase c.tag) (pascalCase d.tag)

theorem nodup_handlerNames_iff (c : Component) :
    (handlerNames c).Nodup ↔ (c.outputs.map fun m => pascalCase m.effectiveName).Nodup := by
  rw [handlerNames_eq]
  exact nodup_map_congr (fun _ _ => List.append_right_inj _) _

/-- Which declared names are distinct. All interfaces have distinct names exactly if no two tags
have the same letters and digits with the same capitals and beginnings of words, and likewise for
the handler properties of a component and the names of its outputs. Distinct tags of plain words
with single hyphens between them stay distinct, and so do distinct names in camel case. -/
theorem declared_names_distinct_iff (cs : List Component) :
    ((interfaceNames cs).Nodup ↔ (cs.map fun c => marks c.tag).Nodup) ∧
    (∀ c ∈ cs, (handlerNames c).Nodup ↔ (c.outputs.map fun m => marks m.effectiveName).Nodup) ∧
    ((cs.map Component.tag).Nodup → (∀ c ∈ cs, IsPlainTag c.tag) → (interfaceNames cs).Nodup) ∧
    (∀ c ∈ cs, (c.outputs.map Member.effectiveName).Nodup →
      (∀ m ∈ c.outputs, isCamelName m.effectiveName) → (handlerNames c).Nodup) := by
  have hinterfaces := (nodup_interfaceNames_iff cs).trans
    (nodup_map_congr (fun _ _ => pascalCase_eq_iff) cs)
  have hhandlers (c : Component) := (nodup_handlerNames_iff c).trans
    (nodup_map_congr (fun _ _ => pascalCase_eq_iff) c.outputs)
  refine ⟨hinterfaces, fun c _ => hhandlers c, fun hdistinct hplain => ?_,
    fun c _ hdistinct hcamel => ?_⟩
  · rw [hinterfaces]
    exact nodup_map_of_determines hdistinct fun a ha b hb =>
      marks_injective_of_plain (hplain a ha) (hplain b hb)
  · rw [hhandlers]
    exact nodup_map_of_determines hdistinct fun a ha b hb =>
      marks_injective_of_camel (hcamel a ha) (hcamel b hb)

/-- A component with nothing but a tag and outputs. -/
def sender (tag : Text) (outputs : List Text) : Component where
  tag := tag
  className := "Card"
  file := "/ws/card.ts"
  members := outputs.map fun name => ⟨name, .output, false, "string", none⟩

/-- Names of the usual spelling. -/
theorem declared_names_distinct_iff_usual :
    let cs := [sender "x-card" ["open", "openChange"], sender "x-card-list" ["open"]]
    (interfaceNames cs).Nodup ∧ ∀ c ∈ cs, (handlerNames c).Nodup := by
  obtain ⟨-, -, hinterfaces, hhandlers⟩ := declared_names_distinct_iff
    [sender "x-card" ["open", "openChange"], sender "x-card-list" ["open"]]
  refine ⟨hinterfaces (by decide) (by decide), fun c hc => hhandlers c hc ?_ ?_⟩
  · revert c
    decide
  · revert c
    decide

/-- The tags that may name an element: a lower-case letter first, and a hyphen. -/
def isElementTag (t : Text) : Bool :=
  t.head?.any (CodePoint.satisfies Char.isLower) && decide (.scalar '-' ∈ t) &&
    t.all (CodePoint.satisfies fun c => c.isLower || c.isDigit || c = '-' || c = '.' || c = '_')

/-- Tags and names of outputs that are distinct but declared alike: a hyphen before a digit leaves
nothing behind, and one before a letter leaves no more than a capital letter would. -/
theorem distinct_names_declared_alike :
    ¬(∀ cs : List Component, (cs.map Component.tag).Nodup → (∀ c ∈ cs, isElementTag c.tag) →
      (interfaceNames cs).Nodup) ∧
    ¬(∀ c : Component, isElementTag c.tag → (c.outputs.map Member.effectiveName).Nodup →
      (handlerNames c).Nodup) := by
  constructor
  · intro h
    have hdistinct := h [sender "x-card2" [], sender "x-card-2" []] (by decide) (by decide)
    revert hdistinct
    decide
  · intro h
    have hdistinct := h (sender "x-card" ["open-change", "openChange"]) (by decide) (by decide)
    revert hdistinct
    decide

end Distinct

end CustomElements
