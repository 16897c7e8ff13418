import CustomElements.Proofs.ProjectFile.Selecting

/-!
# The parts of an include pattern

The search of an include rule has the parts of its pattern, and more of them for what is below a
directory. Where two asterisks stand at the ends of the pattern only, a file that is found has a
name for each part but the first; wherever they stand, the names that the other parts stand for are
enough for a file to be found.
-/

namespace CustomElements

/-- The parts of the pattern of a rule. -/
def patternParts (P : Text) : List Text := Text.splitOn '/' (dropSlashes P)

/-- No part is empty or made of dots that stand for a directory. -/
def IsPlain (ts : List Text) : Prop := ∀ t ∈ ts, t ∉ [([] : Text), ".", ".."]

instance (ts : List Text) : Decidable (IsPlain ts) :=
  inferInstanceAs (Decidable (∀ t ∈ ts, t ∉ [([] : Text), ".", ".."]))

theorem IsFileName.plain {n : Text} (h : IsFileName n) : n ∉ [([] : Text), ".", ".."] := by
  simp [h.nonempty, h.noDot, h.noDots]

section Texts

variable {t u : Text} {ts ns : List Text}

theorem partsOf_of_isPlain (h : IsPlain (Text.splitOn '/' t)) :
    Path.partsOf t = Text.splitOn '/' t := by
  refine List.filter_eq_self.2 fun p hp => ?_
  have hplain := h p hp
  simp only [List.mem_cons, not_or] at hplain
  simp [hplain.1, hplain.2.1]

theorem ofText_of_isPlain (h : IsPlain (Text.splitOn '/' t)) :
    Path.ofText t = ⟨.here, Text.splitOn '/' t⟩ := by
  have hfront : t.takeWhile (fun c => decide (c = .scalar '/')) = [] := by
    cases t with
    | nil => rfl
    | cons c t =>
      refine List.takeWhile_cons_of_neg fun hc => ?_
      obtain rfl := of_decide_eq_true hc
      rw [Text.splitOn, if_pos rfl] at h
      exact h [] List.mem_cons_self List.mem_cons_self
  rw [Path.ofText, hfront, partsOf_of_isPlain h]
  rfl

/-- A text without slashes that ends a text ends its last part. -/
theorem endsWith_iff_last (hu : .scalar '/' ∉ u) : Text.endsWith t u ↔
    ∃ init l, Text.splitOn '/' t = init ++ [l] ∧ Text.endsWith l u := by
  have hjoin := Text.join_splitOn '/' t
  obtain ⟨init, l, hl⟩ := (Text.splitOn '/' t).eq_nil_or_concat'.resolve_left
    (Text.splitOn_ne_nil '/' t)
  have hends : Text.endsWith t u ↔ Text.endsWith l u := by
    simp only [Text.endsWith, List.isSuffixOf_iff_suffix]
    rw [hl] at hjoin
    by_cases hinit : init = []
    · subst hinit
      rw [← hjoin]
      rfl
    · rw [Text.join_append hinit (List.cons_ne_nil l []), List.append_assoc,
        List.singleton_append] at hjoin
      rw [← hjoin]
      constructor
      · intro h
        rcases List.suffix_or_suffix_of_suffix h (List.suffix_append _ _) with h | h
        · rcases List.suffix_cons_iff.1 h with h | h
          · exact absurd (h ▸ List.mem_cons_self) hu
          · exact h
        · exact absurd (h.subset List.mem_cons_self) hu
      · exact fun h => h.trans ((List.suffix_cons _ _).trans (List.suffix_append _ _))
  constructor
  · exact fun h => ⟨init, l, hl, hends.1 h⟩
  · rintro ⟨init', l', hl', h⟩
    obtain ⟨-, hlast⟩ := List.append_inj' (hl.symm.trans hl') rfl
    exact hends.2 ((List.singleton_inj.1 hlast) ▸ h)

theorem contains_of_endsWith (h : Text.endsWith t u) : Text.contains t u := by
  obtain ⟨front, rfl⟩ := List.isSuffixOf_iff_suffix.1 h
  clear h
  induction front with
  | nil =>
    cases u with
    | nil => rfl
    | cons c u => simp [Text.contains]
  | cons c front ih => simp [Text.contains, ih]

end Texts

section Searching

variable {r : FileRule} {parts : List Workspace.SearchPart}

/-- A part that can be read and ends with two asterisks has nothing else. -/
theorem eq_anyDepth_of_endsWith {ts : List Text}
    (h : ts.mapM Workspace.SearchPart.ofText = .ok parts) {t : Text} (ht : t ∈ ts)
    (hends : Text.endsWith t "**") : t = ("**" : Text) := by
  induction ts generalizing parts with
  | nil => cases ht
  | cons u us ih =>
    obtain ⟨part, rest, hpart, hrest, -⟩ := exceptMapM_cons_eq_ok.1 h
    rcases List.mem_cons.1 ht with rfl | ht
    · by_contra hne
      rw [Workspace.SearchPart.ofText, if_neg hne, if_pos (contains_of_endsWith hends)] at hpart
      cases hpart
    · exact ih hrest ht

/-- The parts of a search are those of the pattern, with parts for what is below a directory. -/
theorem partsOf_searched (hplain : IsPlain (Text.splitOn '/' r.includedText))
    (h : (Path.partsOf r.searched).mapM Workspace.SearchPart.ofText = .ok parts) :
    ∃ below, Path.partsOf r.searched = Text.splitOn '/' r.includedText ++ below ∧
      (Pattern.hasWildcard r.includedText = false ∧ below = [("**" : Text), ("*" : Text)] ∨
        Pattern.hasWildcard r.includedText ∧
          (below = [] ∧ (Text.splitOn '/' r.includedText).getLast? ≠ some ("**" : Text) ∨
            below = [("*" : Text)] ∧
              (Text.splitOn '/' r.includedText).getLast? = some ("**" : Text))) := by
  have hparts := partsOf_of_isPlain hplain
  by_cases hw : Pattern.hasWildcard r.includedText
  · by_cases hends : Text.endsWith r.includedText "**"
    · have hs := FileRule.searched_of_endsWith hw hends
      have hall : Path.partsOf r.searched =
          Text.splitOn '/' r.includedText ++ [("*" : Text)] := by
        rw [hs]
        exact (Path.partsOf_append _ "*").trans (congrArg (· ++ [("*" : Text)]) hparts)
      obtain ⟨init, l, hl, hlast⟩ := (endsWith_iff_last (by decide)).1 hends
      rw [hall] at h
      have heq := eq_anyDepth_of_endsWith h (t := l) (by simp [hl]) hlast
      exact ⟨_, hall, .inr ⟨hw, .inr ⟨rfl, by simp [hl, heq]⟩⟩⟩
    · have hs := FileRule.searched_of_not_endsWith hw hends
      refine ⟨[], by rw [hs, hparts, List.append_nil], .inr ⟨hw, .inl ⟨rfl, fun hlast => hends ?_⟩⟩⟩
      obtain ⟨init, hl⟩ := List.getLast?_eq_some_iff.1 hlast
      exact (endsWith_iff_last (by decide)).2 ⟨init, _, hl, by decide⟩
  · have hs := FileRule.searched_of_not_hasWildcard hw
    refine ⟨[("**" : Text), ("*" : Text)], ?_, .inl ⟨Bool.eq_false_iff.2 hw, rfl⟩⟩
    rw [hs]
    exact (Path.partsOf_append _ "**/*").trans (congrArg (· ++ [("**" : Text), ("*" : Text)]) hparts)

end Searching

section Names

variable {ts ns : List Text}

/-- Parts without wildcards stand for themselves. -/
theorem Spans.self (h : ∀ t ∈ ts, Pattern.hasWildcard t = false) : Spans ts ts := by
  induction ts with
  | nil => exact .none
  | cons t ts ih =>
    rw [List.forall_mem_cons] at h
    exact .some (g := [t]) (List.cons_ne_nil _ _)
      ((Pattern.accepts_of_not_hasWildcard h.1).2 rfl) (ih h.2)

/-- Only the first part may stand for no name, if it is two asterisks. -/
theorem spans_or_of_standsFor (h : StandsFor ts ns) (hd : ("**" : Text) ∉ ts.tail) :
    Spans ts ns ∨ ∃ us, ts = ("**" : Text) :: us ∧ Spans us ns := by
  cases h with
  | none => exact .inl .none
  | anyDepth ds h =>
    have hrest := Spans.of_standsFor h hd
    by_cases hds : ds = []
    · exact .inr ⟨_, rfl, by rwa [hds, List.nil_append]⟩
    · exact .inl ((Spans.asterisks hds (.inl rfl)).append hrest)
  | name _ hn h =>
    exact .inl (.some (g := [_]) (List.cons_ne_nil _ _) hn (Spans.of_standsFor h hd))

/-- Without two asterisks between other parts, each part stands for a name that is there. The first
part may be left out if it is two asterisks. -/
theorem spans_of_searched {below : List Text} (hd : ("**" : Text) ∉ ts.tail.dropLast)
    (hb : below = [] ∧ ts.getLast? ≠ some ("**" : Text) ∨
      below = [("*" : Text)] ∧ ts.getLast? = some ("**" : Text))
    (h : StandsFor (ts ++ below) ns) :
    Spans ts ns ∨ ∃ us, ts = ("**" : Text) :: us ∧ us ≠ [] ∧ Spans us ns := by
  rcases hb with ⟨rfl, hlast⟩ | ⟨rfl, hlast⟩
  · rw [List.append_nil] at h
    have htail : ("**" : Text) ∉ ts.tail := by
      intro hmem
      rcases ts with _ | ⟨t, ts⟩
      · cases hmem
      · obtain ⟨init, l, rfl⟩ := ts.eq_nil_or_concat'.resolve_left (List.ne_nil_of_mem hmem)
        rw [List.tail_cons, List.dropLast_concat] at hd
        rw [List.tail_cons, List.mem_append, List.mem_singleton] at hmem
        rcases hmem with hmem | rfl
        · exact hd hmem
        · exact hlast (List.getLast?_eq_some_iff.2 ⟨t :: init, rfl⟩)
    refine (spans_or_of_standsFor h htail).imp_right ?_
    rintro ⟨us, rfl, hs⟩
    refine ⟨us, rfl, ?_, hs⟩
    rintro rfl
    exact hlast rfl
  · -- the last two parts stand for all names below the first ones
    obtain ⟨init, rfl⟩ := List.getLast?_eq_some_iff.1 hlast
    obtain ⟨ms, rs, rfl, hm, hr⟩ := h.of_append
    obtain ⟨ms, ds, rfl, hm, -⟩ := hm.of_append
    obtain ⟨n, rfl, -⟩ := hr.of_singleton (by decide)
    have hbelow : Spans [("**" : Text)] (ds ++ [n]) :=
      Spans.asterisks (List.append_ne_nil_of_right_ne_nil ds (List.cons_ne_nil n [])) (.inl rfl)
    have htail : ("**" : Text) ∉ init.tail := by
      cases init with
      | nil => exact List.not_mem_nil
      | cons t init =>
        rwa [List.cons_append, List.tail_cons, List.dropLast_concat] at hd
    rw [List.append_assoc]
    rcases spans_or_of_standsFor hm htail with hs | ⟨us, rfl, hs⟩
    · exact .inl (hs.append hbelow)
    · exact .inr ⟨us ++ [("**" : Text)], rfl, by simp, hs.append hbelow⟩

/-- Left out as often as they stand in a pattern, two asterisks leave a name for each other part. -/
theorem StandsFor.collapse (h : StandsFor ts ns) : ∃ ms, StandsFor ts ms ∧ ms ⊆ ns ∧
    ms.length + ts.count ("**" : Text) = ts.length ∧
      (ts.getLast? ≠ some ("**" : Text) → ms.getLast? = ns.getLast?) := by
  induction h with
  | none => exact ⟨[], .none, List.nil_subset _, rfl, fun _ => rfl⟩
  | @anyDepth ds ts ns h ih =>
    obtain ⟨ms, hs, hsub, hlength, hlast⟩ := ih
    refine ⟨ms, .anyDepth [] hs, List.subset_append_of_subset_right ds hsub, ?_, fun hne => ?_⟩
    · rw [List.count_cons_self, List.length_cons]
      omega
    · cases ts with
      | nil => exact absurd rfl hne
      | cons t ts =>
        rw [List.getLast?_cons_cons] at hne
        rw [hlast hne, List.getLast?_append_of_ne_nil ds (h.ne_nil (List.cons_ne_nil t ts) hne)]
  | @name t n ts ns ht hn h ih =>
    obtain ⟨ms, hs, hsub, hlength, hlast⟩ := ih
    refine ⟨n :: ms, .name ht hn hs, List.cons_subset_cons n hsub, ?_, fun hne => ?_⟩
    · rw [List.count_cons_of_ne ht, List.length_cons, List.length_cons]
      omega
    · cases ts with
      | nil =>
        cases h
        cases hs
        rfl
      | cons u ts =>
        rw [List.getLast?_cons_cons] at hne
        rw [List.getLast?_cons, List.getLast?_cons, hlast hne]

end Names

end CustomElements
