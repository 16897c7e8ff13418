import Mathlib.Algebra.BigOperators.Group.List.Basic
import Mathlib.Data.List.Forall2
import CustomElements.Proofs.Files.Search

/-!
# Name patterns with slashes

Exclude rules match a pattern with the whole text of a path. If no bracket reaches over a slash, the
pattern matches as its parts do, each of them a piece of the text between two slashes. These pieces
may hold slashes themselves, and two asterisks stand for a piece like any other part: there is at
least one name for each part.
-/

namespace CustomElements

namespace Pattern

variable {is js : List PatternItem} {t u : Text} {ts ms ns : List Text}

theorem matchesItems_append_iff : matchesItems (is ++ js) t ↔
    ∃ u v, t = u ++ v ∧ matchesItems is u ∧ matchesItems js v := by
  constructor
  · intro h
    induction is generalizing t with
    | nil => exact ⟨[], t, rfl, rfl, h⟩
    | cons i is ih =>
      rw [List.cons_append] at h
      by_cases ha : i = .anything
      · subst ha
        obtain ⟨s, ⟨before, rfl⟩, hs⟩ := matchesItems_anything.1 h
        obtain ⟨u, v, rfl, hu, hv⟩ := ih hs
        refine ⟨before ++ u, v, (List.append_assoc ..).symm, ?_, hv⟩
        exact matchesItems_anything.2 ⟨u, List.suffix_append before u, hu⟩
      · obtain ⟨c, r, rfl, hc, hr⟩ := (matchesItems_cons ha).1 h
        obtain ⟨u, v, rfl, hu, hv⟩ := ih hr
        exact ⟨c :: u, v, rfl, (matchesItems_cons ha).2 ⟨c, u, rfl, hc, hu⟩, hv⟩
  · rintro ⟨u, v, rfl, hu, hv⟩
    exact matchesItems_append hu hv

/-- The items of parts with slashes between them. -/
def itemsOf : List Text → List PatternItem
  | [] => []
  | [t] => items t
  | t :: ts => items t ++ .literal '/' :: itemsOf ts

/-- The pattern can be read part by part: no bracket reaches over a slash. -/
def ReadsByParts (t : Text) : Prop := items t = itemsOf (Text.splitOn '/' t)

instance (t : Text) : Decidable (ReadsByParts t) :=
  inferInstanceAs (Decidable (items t = itemsOf (Text.splitOn '/' t)))

theorem itemsOf_cons (hne : ts ≠ []) :
    itemsOf (t :: ts) = items t ++ .literal '/' :: itemsOf ts := by
  rw [itemsOf]
  exact hne

/-- Each part matches a piece of the text. -/
theorem matches_itemsOf (hne : ts ≠ []) : matchesItems (itemsOf ts) t ↔
    ∃ ms, t = Text.join "/" ms ∧ List.Forall₂ (fun p m => accepts p m) ts ms := by
  induction ts generalizing t with
  | nil => exact absurd rfl hne
  | cons p ts ih =>
    by_cases hts : ts = []
    · subst hts
      constructor
      · exact fun h => ⟨[t], rfl, .cons h .nil⟩
      · rintro ⟨ms, rfl, h⟩
        cases h with
        | cons hm hnil =>
          cases hnil
          exact hm
    · rw [itemsOf_cons hts, matchesItems_append_iff]
      constructor
      · rintro ⟨u, v, rfl, hu, hv⟩
        obtain ⟨c, r, rfl, hc, hr⟩ := (matchesItems_cons (by simp)).1 hv
        obtain rfl : c = .scalar '/' := by simpa [PatternItem.accepts] using hc
        obtain ⟨ms, rfl, hms⟩ := (ih hts).1 hr
        have hne' : ms ≠ [] := by
          rintro rfl
          exact hts (List.forall₂_nil_right_iff.1 hms)
        refine ⟨u :: ms, ?_, .cons hu hms⟩
        rw [Text.join_cons_of_ne_nil hne', List.append_assoc]
        rfl
      · rintro ⟨ms, rfl, h⟩
        obtain ⟨m, ms, rfl, hm, hms⟩ :
            ∃ m rest, ms = m :: rest ∧ accepts p m ∧ List.Forall₂ _ ts rest := by
          cases h with
          | cons hm hms => exact ⟨_, _, rfl, hm, hms⟩
        have hne' : ms ≠ [] := by
          rintro rfl
          exact hts (List.forall₂_nil_right_iff.1 hms)
        refine ⟨m, .scalar '/' :: Text.join "/" ms, ?_, hm, ?_⟩
        · rw [Text.join_cons_of_ne_nil hne', List.append_assoc]
          rfl
        · refine (matchesItems_cons (by simp)).2 ⟨.scalar '/', _, rfl, ?_, ?_⟩
          · simp [PatternItem.accepts]
          · exact (ih hts).2 ⟨ms, rfl, hms⟩

/-- A text that the parts match has a piece between slashes for each of them. -/
theorem length_le_of_matches (hne : ts ≠ []) (h : matchesItems (itemsOf ts) t) :
    ts.length ≤ (Text.splitOn '/' t).length := by
  obtain ⟨ms, rfl, hms⟩ := (matches_itemsOf hne).1 h
  have hms' : ms ≠ [] := by
    rintro rfl
    exact hne (List.forall₂_nil_right_iff.1 hms)
  have hsplit : (Text.join "/" ms).splitOn '/' = ms.flatMap (Text.splitOn '/') :=
    Text.splitOn_join_eq_flatMap hms'
  have hone : ∀ k ∈ ms.map fun m => (Text.splitOn '/' m).length, 1 ≤ k := by
    intro k hk
    obtain ⟨m, -, rfl⟩ := List.mem_map.1 hk
    exact List.length_pos_iff.2 (Text.splitOn_ne_nil '/' m)
  have hle := List.length_le_sum_of_one_le _ hone
  rwa [List.length_map, ← hms.length_eq, ← List.length_flatMap, ← hsplit] at hle

/-- A part without wildcards is a piece of each text that the parts match. -/
theorem mem_splitOn_of_matches (h : matchesItems (itemsOf ts) t) {p : Text} (hp : p ∈ ts)
    (hw : hasWildcard p = false) (hs : .scalar '/' ∉ p) : p ∈ Text.splitOn '/' t := by
  obtain ⟨ms, rfl, hms⟩ := (matches_itemsOf (List.ne_nil_of_mem hp)).1 h
  have hmem : p ∈ ms := by
    clear h
    induction hms with
    | nil => cases hp
    | cons hm _ ih =>
      rcases List.mem_cons.1 hp with rfl | hp
      · rw [(accepts_of_not_hasWildcard hw).1 hm]
        exact List.mem_cons_self
      · exact List.mem_cons_of_mem _ (ih hp)
  have hsplit : (Text.join "/" ms).splitOn '/' = ms.flatMap (Text.splitOn '/') :=
    Text.splitOn_join_eq_flatMap (List.ne_nil_of_mem hmem)
  rw [hsplit, List.mem_flatMap]
  exact ⟨p, hmem, by rw [Text.splitOn_of_not_mem hs]; exact List.mem_singleton_self p⟩

theorem itemsOf_concat (hne : ts ≠ []) (t : Text) :
    itemsOf (ts ++ [t]) = itemsOf ts ++ .literal '/' :: items t := by
  induction ts with
  | nil => exact absurd rfl hne
  | cons p ts ih =>
    rw [List.cons_append, itemsOf_cons (by simp)]
    by_cases hts : ts = []
    · subst hts
      rfl
    · rw [ih hts, itemsOf_cons hts, List.append_assoc, List.cons_append]

theorem ReadsByParts.accepts_iff (h : ReadsByParts t) :
    accepts t u ↔ matchesItems (itemsOf (Text.splitOn '/' t)) u := by
  rw [accepts, h]

/-- With an asterisk behind a slash, the pattern has one more part. -/
theorem ReadsByParts.accepts_below_iff (h : ReadsByParts t) :
    accepts (t ++ "/*") u ↔ matchesItems (itemsOf (Text.splitOn '/' t ++ [("*" : Text)])) u := by
  have hitems : items (t ++ "/*") = itemsOf (Text.splitOn '/' t ++ [("*" : Text)]) := by
    rw [items_append t (by decide), h, itemsOf_concat (Text.splitOn_ne_nil '/' t)]
    rfl
  rw [accepts, hitems]

/-- The parts of a pattern behind two asterisks and a slash. -/
theorem startsWith_anyDepth_iff : Text.startsWith t "**/" ↔
    ∃ ts, Text.splitOn '/' t = ("**" : Text) :: ts ∧ ts ≠ [] := by
  rw [Text.startsWith, List.isPrefixOf_iff_prefix]
  constructor
  · rintro ⟨r, rfl⟩
    exact ⟨Text.splitOn '/' r, Text.splitOn_append (t := "**") (by decide) r,
      Text.splitOn_ne_nil '/' r⟩
  · rintro ⟨ts, hts, hne⟩
    have hjoin := Text.join_splitOn '/' t
    rw [hts, Text.join_cons_of_ne_nil hne] at hjoin
    exact ⟨_, hjoin⟩

theorem ReadsByParts.drop (h : ReadsByParts t) (hs : Text.splitOn '/' t = ("**" : Text) :: ts)
    (hne : ts ≠ []) : ReadsByParts (t.drop 3) ∧ Text.splitOn '/' (t.drop 3) = ts := by
  obtain ⟨r, rfl⟩ := List.isPrefixOf_iff_prefix.1 (startsWith_anyDepth_iff.2 ⟨ts, hs, hne⟩)
  have hr : Text.splitOn '/' r = ts :=
    (List.cons.inj ((Text.splitOn_append (t := "**") (by decide) r).symm.trans hs)).2
  refine ⟨?_, hr⟩
  have hitems : [.anything, .anything, .literal '/'] ++ items r =
      [.anything, .anything, .literal '/'] ++ itemsOf ts := by
    rw [ReadsByParts, hs, itemsOf_cons hne] at h
    exact h
  rw [ReadsByParts]
  exact (List.append_cancel_left hitems).trans (congrArg itemsOf hr.symm)

end Pattern

/-- Each part matches a row of at least one name, written with slashes between the names. -/
inductive Spans : List Text → List Text → Prop where
  | none : Spans [] []
  | some {t : Text} {g ts ns : List Text} (hg : g ≠ [])
      (ht : Pattern.accepts t (Text.join "/" g)) (h : Spans ts ns) : Spans (t :: ts) (g ++ ns)

namespace Spans

variable {ts us ns ms : List Text} {t : Text}

theorem ne_nil (hne : ts ≠ []) (h : Spans ts ns) : ns ≠ [] := by
  cases h with
  | none => exact absurd rfl hne
  | some hg => exact List.append_ne_nil_of_left_ne_nil hg _

theorem append (h : Spans ts ns) (h' : Spans us ms) : Spans (ts ++ us) (ns ++ ms) := by
  induction h with
  | none => exact h'
  | some hg ht _ ih =>
    rw [List.append_assoc]
    exact .some hg ht ih

theorem single (hne : ns ≠ []) (h : Pattern.accepts t (Text.join "/" ns)) : Spans [t] ns := by
  have hone := Spans.some hne h .none
  rwa [List.append_nil] at hone

/-- Two asterisks or one match any row of names. -/
theorem asterisks (hne : ns ≠ []) (ht : t = ("**" : Text) ∨ t = ("*" : Text)) : Spans [t] ns := by
  refine single hne ?_
  rcases ht with rfl | rfl
  · have hempty : Pattern.matchesItems [.anything] [] = true := rfl
    exact Pattern.matchesItems_append hempty (Pattern.matchesItems_anything_only _)
  · exact Pattern.matchesItems_anything_only _

theorem of_standsFor (h : StandsFor ts ns) (hd : ("**" : Text) ∉ ts) : Spans ts ns := by
  induction h with
  | none => exact .none
  | anyDepth => exact absurd List.mem_cons_self hd
  | name _ hn _ ih =>
    rw [List.mem_cons, not_or] at hd
    exact .some (g := [_]) (List.cons_ne_nil _ _) hn (ih hd.2)

/-- The text of the names matches the parts. -/
theorem matches_join (h : Spans ts ns) (hne : ts ≠ []) :
    Pattern.matchesItems (Pattern.itemsOf ts) (Text.join "/" ns) := by
  rw [Pattern.matches_itemsOf hne]
  clear hne
  induction h with
  | none => exact ⟨[], rfl, .nil⟩
  | @some t g ts ns hg ht h ih =>
    obtain ⟨ms, hjoin, hms⟩ := ih
    refine ⟨Text.join "/" g :: ms, ?_, .cons ht hms⟩
    by_cases hts : ts = []
    · subst hts
      cases h
      cases hms
      rw [List.append_nil]
      rfl
    · have hne : ms ≠ [] := by
        rintro rfl
        exact hts (List.forall₂_nil_right_iff.1 hms)
      rw [Text.join_append hg (h.ne_nil hts), Text.join_cons_of_ne_nil hne, hjoin]

end Spans

end CustomElements
