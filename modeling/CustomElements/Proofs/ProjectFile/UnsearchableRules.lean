import CustomElements.Proofs.ProjectFile.SelectionOrder

/-!
# Rules that cannot be searched

A search refuses a pattern that is not relative, and one with a part that holds two asterisks and
more. An include rule makes a search unless it is blank, names a file or names nothing. So a rule is
at fault exactly if it makes a search that refuses its pattern, and the first such rule ends the
selection.
-/

namespace CustomElements

variable {w v : Workspace} {r : FileRule} {f : Fault} {t : Text} {start : Path}

/-- The pattern has a part that holds two asterisks and more. -/
def HoldsAnyDepth (t : Text) : Prop :=
  ∃ part ∈ Path.partsOf t, Text.contains part "**" ∧ part ≠ ("**" : Text)

namespace Workspace

theorem SearchPart.ofText_eq_error : SearchPart.ofText t = .error f ↔
    f = .badValue ∧ Text.contains t "**" ∧ t ≠ ("**" : Text) := by
  unfold SearchPart.ofText
  split
  · next ht => exact iff_of_false nofun fun h => h.2.2 ht
  · next ht =>
    split
    · next hc => simp [ht, hc, eq_comm]
    · next hc =>
      refine iff_of_false (fun h => ?_) fun h => hc h.2.1
      split at h <;> cases h

/-- What a search refuses. -/
theorem glob_eq_error {pattern : Text} : w.glob start pattern = .error f ↔
    f = .absolutePattern ∧ (Path.ofText pattern).isAbsolute ∨
      f = .badValue ∧ (Path.ofText pattern).isAbsolute = false ∧ HoldsAnyDepth pattern := by
  unfold glob
  dsimp only
  split
  · next ha => simp [ha, bind, Except.bind, throw, throwThe, MonadExceptOf.throw, eq_comm]
  · next ha =>
    have hparts : (Path.partsOf pattern).mapM SearchPart.ofText = .error f ↔
        f = .badValue ∧ HoldsAnyDepth pattern := by
      rw [exceptMapM_eq_error_of_only fun _ _ h => (SearchPart.ofText_eq_error.1 h).1]
      simp only [SearchPart.ofText_eq_error, true_and]
      rfl
    have ha' : (Path.ofText pattern).isAbsolute = false := Bool.eq_false_iff.2 ha
    rw [exceptBind_eq_error, ha', and_iff_right rfl, ← hparts]
    constructor
    · rintro (h | ⟨parts, -, h⟩)
      · exact .inr h
      · split at h <;> cases h
    · rintro (⟨-, h⟩ | h)
      · cases h
      · exact .inl h

end Workspace

namespace FileRule

/-- The search of a rule has the pattern of the rule, and may have more behind a slash. -/
theorem searched_cases (r : FileRule) : ∃ behind, r.searched = r.includedText ++ behind ∧
    (behind = [] ∨ behind = ("/*" : Text) ∨ behind = ("/**/*" : Text)) := by
  by_cases hw : Pattern.hasWildcard r.includedText
  · by_cases hends : Text.endsWith r.includedText "**"
    · exact ⟨_, searched_of_endsWith hw hends, .inr (.inl rfl)⟩
    · refine ⟨[], ?_, .inl rfl⟩
      rw [List.append_nil]
      exact searched_of_not_endsWith hw hends
  · exact ⟨_, searched_of_not_hasWildcard hw, .inr (.inr rfl)⟩

/-- What a search has more is no part with two asterisks and more. -/
theorem holdsAnyDepth_searched : HoldsAnyDepth r.searched ↔ HoldsAnyDepth r.includedText := by
  have hmore {t : Text} {below : List Text} (ht : Path.partsOf t = Path.partsOf r.includedText ++ below)
      (hfine : ∀ part ∈ below, part = ("*" : Text) ∨ part = ("**" : Text)) :
      HoldsAnyDepth t ↔ HoldsAnyDepth r.includedText := by
    simp only [HoldsAnyDepth, ht, List.mem_append, or_and_right, exists_or]
    refine or_iff_left ?_
    rintro ⟨part, hpart, hcontains, hne⟩
    rcases hfine part hpart with rfl | rfl
    · cases hcontains
    · exact hne rfl
  obtain ⟨behind, hs, rfl | rfl | rfl⟩ := r.searched_cases
  · rw [hs, List.append_nil]
  · rw [hs]
    exact hmore (Path.partsOf_append _ "*") fun part hpart => .inl (List.mem_singleton.1 hpart)
  · rw [hs]
    refine hmore (Path.partsOf_append _ "**/*") fun part hpart => ?_
    have hparts : Path.partsOf "**/*" = [("**" : Text), ("*" : Text)] := by decide
    rw [hparts] at hpart
    simpa [or_comm] using hpart

/-- A path is absolute if its text begins with a slash. -/
theorem ofText_isAbsolute_iff : (Path.ofText t).isAbsolute ↔ ∃ rest, t = .scalar '/' :: rest := by
  constructor
  · intro h
    rcases t with _ | ⟨c, rest⟩
    · cases h
    · by_cases hc : c = .scalar '/'
      · exact ⟨rest, hc ▸ rfl⟩
      · rw [Path.isAbsolute, Path.ofText, List.takeWhile_cons_of_neg (by simpa using hc)] at h
        cases h
  · rintro ⟨rest, rfl⟩
    exact Path.ofText_isAbsolute rest

/-- A search is relative if the pattern of its rule is. -/
theorem isAbsolute_searched (hne : r.includedText ≠ []) :
    (Path.ofText r.searched).isAbsolute = (Path.ofText r.includedText).isAbsolute := by
  obtain ⟨behind, hs, -⟩ := r.searched_cases
  obtain ⟨c, rest, ht⟩ := List.exists_cons_of_ne_nil hne
  rw [Bool.eq_iff_iff, ofText_isAbsolute_iff, ofText_isAbsolute_iff, hs, ht, List.cons_append]
  simp

/-- A pattern with two asterisks in it has a wildcard. -/
theorem hasWildcard_of_holdsAnyDepth (h : HoldsAnyDepth t) : Pattern.hasWildcard t := by
  obtain ⟨part, hpart, hcontains, -⟩ := h
  have hstar : .scalar '*' ∈ part := by
    clear hpart
    induction part with
    | nil => cases hcontains
    | cons c part ih =>
      rw [Text.contains, Bool.or_eq_true] at hcontains
      rcases hcontains with hprefix | hrest
      · exact (List.isPrefixOf_iff_prefix.1 hprefix).subset List.mem_cons_self
      · exact List.mem_cons_of_mem c (ih hrest)
  have hpiece : part ∈ Text.splitOn '/' t := (List.mem_filter.1 hpart).1
  have hmem : .scalar '*' ∈ t := by
    rw [← Text.join_splitOn '/' t]
    exact Text.subset_join hpiece hstar
  exact List.any_eq_true.2 ⟨_, hmem, by decide⟩

/-- Why the search that an include rule makes refuses the pattern of the rule. -/
inductive Unsearchable (w : Workspace) (r : FileRule) : Fault → Prop where
  | absolute (fromRoot : (Path.ofText r.includedText).isAbsolute)
      (searches : Pattern.hasWildcard r.includedText ∨ w.isDir (.ofText r.includedText)) :
      Unsearchable w r .absolutePattern
  | asterisks (relative : (Path.ofText r.includedText).isAbsolute = false)
      (held : HoldsAnyDepth r.includedText) : Unsearchable w r .badValue

/-- The rule makes a search that cannot be made. -/
def IsRefused (w : Workspace) (r : FileRule) : Prop := ∃ f, r.Unsearchable w f

/-- Only the directories of a workspace make a difference to what a search refuses. -/
theorem unsearchable_congr (h : v.isDir = w.isDir) :
    r.Unsearchable v f ↔ r.Unsearchable w f := by
  have hsame {u u' : Workspace} (hdir : u.isDir = u'.isDir) (hr : r.Unsearchable u f) :
      r.Unsearchable u' f := by
    cases hr with
    | absolute fromRoot searches => exact .absolute fromRoot (hdir ▸ searches)
    | asterisks relative held => exact .asterisks relative held
  exact ⟨hsame h, hsame h.symm⟩

/-- A rule that names neither a file nor a directory makes no search. -/
theorem expand_eq_error_iff_glob : r.expand w = .error f ↔ r.includedText ≠ [] ∧
    (Pattern.hasWildcard r.includedText ∨ w.isDir (r.base.join (.ofText r.includedText))) ∧
      w.glob r.base r.searched = .error f := by
  rw [expand_eq]
  split
  · next hempty => exact iff_of_false nofun fun h => h.1 (List.isEmpty_iff.1 hempty)
  · next hne =>
    rw [and_iff_right (mt List.isEmpty_iff.2 hne)]
    split
    · next hfile =>
      rw [Bool.and_eq_true, Bool.not_eq_true'] at hfile
      refine iff_of_false (fun h => ?_) ?_
      · rw [Workspace.resolve_of_isFile hfile.2] at h
        split at h <;> cases h
      · rintro ⟨hwild | hdir, -⟩
        · exact Bool.eq_false_iff.1 hfile.1 hwild
        · exact Workspace.not_isDir_of_isFile hfile.2 hdir
    · split
      · next hnone =>
        rw [Bool.and_eq_true, Bool.not_eq_true', Bool.not_eq_true'] at hnone
        refine iff_of_false nofun ?_
        rintro ⟨hwild | hdir, -⟩
        · exact Bool.eq_false_iff.1 hnone.1 hwild
        · exact Bool.eq_false_iff.1 hnone.2 hdir
      · next hsearches =>
        have hsearches' : Pattern.hasWildcard r.includedText ∨
            w.isDir (r.base.join (.ofText r.includedText)) := by
          cases hw : Pattern.hasWildcard r.includedText with
          | true => exact .inl rfl
          | false => simpa [hw] using hsearches
        rw [and_iff_right hsearches', exceptBind_eq_error]
        refine or_iff_left ?_
        -- what a search admits is there, so it can be resolved
        rintro ⟨found, -, h⟩
        obtain ⟨q, hq, h⟩ := exists_mem_of_exceptMapM_eq_error h
        have hfile := (admits_iff.1 (List.mem_filter.1 hq).2).1
        rw [Workspace.resolve_of_isFile hfile] at h
        cases h

/-- A rule is at fault if it makes a search that refuses its pattern. -/
theorem expand_eq_error : r.expand w = .error f ↔ r.Unsearchable w f := by
  rw [expand_eq_error_iff_glob]
  constructor
  · rintro ⟨hne, hsearches, hglob⟩
    rw [Workspace.glob_eq_error, isAbsolute_searched hne, holdsAnyDepth_searched] at hglob
    rcases hglob with ⟨rfl, habsolute⟩ | ⟨rfl, hrelative, hheld⟩
    · rw [Path.join, if_pos habsolute] at hsearches
      exact .absolute habsolute hsearches
    · exact .asterisks hrelative hheld
  · intro h
    have hne : r.includedText ≠ [] := by
      intro ht
      cases h with
      | absolute fromRoot => rw [ht] at fromRoot; cases fromRoot
      | asterisks _ held =>
        obtain ⟨part, hpart, -⟩ := held
        rw [ht] at hpart
        cases hpart
    refine ⟨hne, ?_⟩
    rw [Workspace.glob_eq_error, isAbsolute_searched hne, holdsAnyDepth_searched]
    cases h with
    | absolute fromRoot searches =>
      rw [Path.join, if_pos fromRoot]
      exact ⟨searches, .inl ⟨rfl, fromRoot⟩⟩
    | asterisks relative held =>
      exact ⟨.inl (hasWildcard_of_holdsAnyDepth held), .inr ⟨rfl, relative, held⟩⟩

end FileRule

namespace ProjectFile

variable {s : ProjectFile} {selected : List Path} {rs : List FileRule}

theorem included_eq_some : (s.included w selected rs).2 = some f ↔
    ∃ r, IsFirst (FileRule.IsRefused w) rs r ∧ r.Unsearchable w f := by
  induction rs generalizing selected with
  | nil => exact iff_of_false nofun fun ⟨r, hr, _⟩ => not_isFirst_nil hr
  | cons r rs ih =>
    rw [included]
    cases hr : r.expand w with
    | ok ps =>
      have hfine : ¬r.IsRefused w := by
        rintro ⟨f, hf⟩
        rw [FileRule.expand_eq_error.2 hf] at hr
        cases hr
      rw [ih]
      exact exists_congr fun r' => and_congr_left' (isFirst_cons_of_neg hfine).symm
    | error e =>
      have hbad := FileRule.expand_eq_error.1 hr
      have hfirst (r' : FileRule) : IsFirst (FileRule.IsRefused w) (r :: rs) r' ↔ r' = r :=
        isFirst_cons_of_pos ⟨e, hbad⟩
      simp only [hfirst, exists_eq_left]
      rw [← FileRule.expand_eq_error, hr, Except.error.injEq, Option.some.injEq]

/-- The first rule with a search that cannot be made ends the selection. -/
theorem select_eq_some : (s.select w).2 = some f ↔
    ∃ r, IsFirst (FileRule.IsRefused w) s.includes r ∧ r.Unsearchable w f :=
  included_eq_some

end ProjectFile

end CustomElements
