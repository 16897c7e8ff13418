import CustomElements.ProjectFile.Settings
import CustomElements.Proofs.Files.PatternParts
import CustomElements.Proofs.ProjectFile.Written

/-!
# What the rules of a project file select

An include rule selects the path it names, or the files that a search finds. The search starts from
the pattern of the rule, which gets parts for everything below if it names a directory.
-/

namespace CustomElements

namespace FileRule

variable {w : Workspace} {r : FileRule} {p : Path} {ps : List Path}

/-- The pattern of a rule as an include rule reads it. -/
def includedText (r : FileRule) : Text := dropSlashes r.pattern.strip

/-- The pattern of the search that an include rule makes. -/
def searched (r : FileRule) : Text :=
  let t := if Pattern.hasWildcard r.includedText then r.includedText
    else r.includedText ++ "/**/*"
  if Text.endsWith t "**" then t ++ "/*" else t

theorem searched_of_endsWith (hw : Pattern.hasWildcard r.includedText)
    (hends : Text.endsWith r.includedText "**") : r.searched = r.includedText ++ "/*" := by
  simp only [searched, if_pos hw, if_pos hends]

theorem searched_of_not_endsWith (hw : Pattern.hasWildcard r.includedText)
    (hends : ¬Text.endsWith r.includedText "**") : r.searched = r.includedText := by
  simp only [searched, if_pos hw, if_neg hends]

theorem searched_of_not_hasWildcard (hw : ¬Pattern.hasWildcard r.includedText) :
    r.searched = r.includedText ++ "/**/*" := by
  have hnot : Text.endsWith (r.includedText ++ "/**/*") "**" = false := by
    refine Bool.eq_false_iff.2 fun h => ?_
    obtain ⟨front, hfront⟩ := List.isSuffixOf_iff_suffix.1 h
    have hlast := congrArg List.reverse hfront
    simp [Text.ofString, Text.ofChars] at hlast
  simp only [searched, if_neg hw, hnot]
  rfl

/-- Whether an include rule selects a path that its search finds. -/
def admits (w : Workspace) (q : Path) : Bool :=
  w.isFile q && isSourceName q.name && !q.parts.contains ("node_modules" : Text)

theorem expand_eq : r.expand w =
    if r.includedText.isEmpty then .ok []
    else if !Pattern.hasWildcard r.includedText &&
        w.isFile (r.base.join (.ofText r.includedText)) then
      if isSourceName (r.base.join (.ofText r.includedText)).name then do
        return [← w.resolve (r.base.join (.ofText r.includedText))]
      else .ok []
    else if !Pattern.hasWildcard r.includedText &&
        !w.isDir (r.base.join (.ofText r.includedText)) then .ok []
    else w.glob r.base r.searched >>= fun found =>
      (found.filter (admits w)).mapM w.resolve := by
  rfl

theorem admits_iff {q : Path} : admits w q ↔
    w.isFile q ∧ isSourceName q.name ∧ ("node_modules" : Text) ∉ q.parts := by
  rw [admits, Bool.and_eq_true, Bool.and_eq_true, Bool.not_eq_true', and_assoc,
    ← Bool.not_eq_true, List.contains_iff_mem]

/-- What an include rule leads to: the source that it names, or a source that its search finds. -/
theorem mem_expand (h : r.expand w = .ok ps) (hp : p ∈ ps) :
    ∃ q, p = Path.normal w.current q ∧ (w.isFile q ∧ isSourceName q.name) ∧
      ((Pattern.hasWildcard r.includedText = false ∧ q = r.base.join (.ofText r.includedText)) ∨
        admits w q ∧ ∃ found, w.glob r.base r.searched = .ok found ∧ q ∈ found) := by
  rw [expand_eq] at h
  split at h
  · obtain rfl := Except.ok.inj h
    cases hp
  · split at h
    · next hfile =>
      rw [Bool.and_eq_true, Bool.not_eq_true'] at hfile
      split at h
      · next hname =>
        obtain ⟨q, hq, h⟩ := exceptBind_eq_ok.1 h
        obtain rfl := Except.ok.inj h
        rw [List.mem_singleton] at hp
        exact ⟨_, hp.trans (Workspace.resolve_eq_ok.1 hq).2, ⟨hfile.2, hname⟩, .inl ⟨hfile.1, rfl⟩⟩
      · obtain rfl := Except.ok.inj h
        cases hp
    · split at h
      · obtain rfl := Except.ok.inj h
        cases hp
      · obtain ⟨found, hfound, h⟩ := exceptBind_eq_ok.1 h
        obtain ⟨-, rfl⟩ := WrittenFile.mapM_resolve_eq_ok.1 h
        obtain ⟨q, hq, rfl⟩ := List.mem_map.1 hp
        obtain ⟨hq, hadmits⟩ := List.mem_filter.1 hq
        obtain ⟨hfile, hname, -⟩ := admits_iff.1 hadmits
        exact ⟨q, rfl, ⟨hfile, hname⟩, .inr ⟨hadmits, found, hfound, hq⟩⟩

/-- An include rule leads to sources that are there. -/
theorem source_of_mem_expand (h : r.expand w = .ok ps) (hp : p ∈ ps) :
    w.isFile p ∧ isSourceName p.name := by
  obtain ⟨q, rfl, ⟨hfile, hname⟩, -⟩ := mem_expand h hp
  have hempty : q.name ≠ [] := by
    intro hnil
    rw [hnil] at hname
    cases hname
  have hdots : q.name ≠ ".." := by
    intro hdots
    rw [hdots] at hname
    cases hname
  rw [Path.name_normal hempty hdots]
  exact ⟨Workspace.isFile_normal hfile, hname⟩

/-- A search has an answer for the rule, with all files that it admits. -/
theorem exists_expand {found : List Path} (hne : r.includedText ≠ [])
    (hw : Pattern.hasWildcard r.includedText) (h : w.glob r.base r.searched = .ok found) :
    ∃ ps, r.expand w = .ok ps ∧ ∀ q ∈ found, admits w q → Path.normal w.current q ∈ ps := by
  refine ⟨(found.filter (admits w)).map (Path.normal w.current), ?_, fun q hq ha =>
    List.mem_map_of_mem (List.mem_filter.2 ⟨hq, ha⟩)⟩
  rw [expand_eq, if_neg (by simpa using hne), if_neg (by simp [hw]), if_neg (by simp [hw]), h]
  refine WrittenFile.mapM_resolve_eq_ok.2 ⟨fun q hq => ?_, rfl⟩
  exact ⟨_, Workspace.resolve_of_isFile (admits_iff.1 (List.mem_filter.1 hq).2).1⟩

end FileRule

/-- A directory that a project file can be in: all names below the root are names of files. -/
structure Workspace.IsProjectDirectory (w : Workspace) (d : Path) : Prop where
  names : ∀ n ∈ w.files.names, IsFileName n
  normal : d.IsNormal
  dir : w.isDir d

/-- Project files with these include and exclude patterns and no other files select nothing. -/
def SelectsNothing (includes excludes : List Text) : Prop :=
  ∀ (w : Workspace) (f : WrittenFile) (s : ProjectFile), w.IsProjectDirectory f.directory →
    f.list "files" = none → f.list "include" = some (includes.map .text) →
    f.list "exclude" = some (excludes.map .text) →
    settingsOf f.path none f.data w = .ok s → (s.select w).1 = []

theorem mem_added {s : ProjectFile} {selected ps : List Path} {p : Path} :
    p ∈ s.added selected ps ↔ p ∈ selected ∨ p ∈ ps ∧ s.takesOut p = false := by
  induction ps generalizing selected with
  | nil => simp [ProjectFile.added]
  | cons q ps ih =>
    rw [ProjectFile.added, ih, List.mem_cons]
    by_cases hq : selected.contains q || s.takesOut q
    · rw [if_pos hq]
      rw [Bool.or_eq_true, List.contains_iff_mem] at hq
      grind
    · rw [if_neg hq, List.mem_append, List.mem_singleton]
      rw [Bool.or_eq_true, List.contains_iff_mem] at hq
      grind

/-- What a project file selects that lists no files and has one include pattern. -/
theorem mem_select {w : Workspace} {s : ProjectFile} {r : FileRule} (hf : s.files = [])
    (hi : s.includes = [r]) {p : Path} : p ∈ (s.select w).1 ↔
      ∃ ps, r.expand w = .ok ps ∧ p ∈ ps ∧ s.takesOut p = false := by
  rw [ProjectFile.select, hf, hi, ProjectFile.included, ProjectFile.listed]
  cases h : r.expand w with
  | error fault => simp
  | ok ps =>
    dsimp only
    rw [ProjectFile.included, mem_added]
    simp

theorem rules_of_texts {f : WrittenFile} {key : Text} {texts : List Text}
    (h : f.list key = some (texts.map .text)) :
    f.rules key = some (texts.map fun t => ⟨f.directory, t⟩) := by
  rw [WrittenFile.rules, h, Option.map_some, List.map_map]
  rfl

/-- A project file with these patterns and nothing else. -/
def patternFile (d : Path) (includes excludes : List Text) : WrittenFile :=
  ⟨d.child "tsconfig.json", .map [(.text "include", .list (includes.map .text)),
    (.text "exclude", .list (excludes.map .text))]⟩

theorem patternFile_directory {d : Path} {includes excludes : List Text} :
    (patternFile d includes excludes).directory = d := by
  rw [patternFile, WrittenFile.directory, Path.parent, Path.child, List.dropLast_concat]

theorem patternFile_isNameable {w : Workspace} {d : Path} {includes excludes : List Text} :
    (patternFile d includes excludes).IsNameable w :=
  ⟨fun _ h => (nomatch h), fun _ h => (nomatch h)⟩

theorem onTopOf_none_takesOut {w : Workspace} {f : WrittenFile} {excludes : List Text}
    (h : f.list "exclude" = some (excludes.map .text)) (p : Path) :
    (f.onTopOf w none).takesOut p ↔
      (∃ o, f.outPath = some o ∧ p.isBelow (Path.normal w.current o)) ∨
        ∃ e ∈ excludes, (FileRule.mk f.directory e).takesOut p := by
  rw [ProjectFile.takesOut, WrittenFile.onTopOf, rules_of_texts h]
  cases f.outPath <;> simp

theorem onTopOf_none_select {w : Workspace} {f : WrittenFile} {P : Text}
    (hfiles : f.list "files" = none) (hinclude : f.list "include" = some [.text P]) {p : Path} :
    p ∈ ((f.onTopOf w none).select w).1 ↔ ∃ ps, (FileRule.mk f.directory P).expand w = .ok ps ∧
      p ∈ ps ∧ (f.onTopOf w none).takesOut p = false := by
  refine mem_select ?_ ?_
  · rw [WrittenFile.onTopOf, WrittenFile.filePaths, hfiles]
    rfl
  · have hrules : f.rules "include" = some ([P].map fun t => ⟨f.directory, t⟩) :=
      rules_of_texts hinclude
    rw [WrittenFile.onTopOf, hrules]
    rfl

/-- A project file with one include pattern selects nothing if its exclude patterns take out
whatever the include pattern leads to. -/
theorem selectsNothing_iff {P : Text} {excludes : List Text} : SelectsNothing [P] excludes ↔
    ∀ (w : Workspace) (d : Path) (ps : List Path), w.IsProjectDirectory d →
      (FileRule.mk d P).expand w = .ok ps →
      ∀ p ∈ ps, ∃ e ∈ excludes, (FileRule.mk d e).takesOut p := by
  constructor
  · intro h w d ps hd hps p hp
    obtain ⟨f, hf⟩ : ∃ f, f = patternFile d [P] excludes := ⟨_, rfl⟩
    have hdir : f.directory = d := hf ▸ patternFile_directory
    have hnameable : f.IsNameable w := hf ▸ patternFile_isNameable
    have hfiles : f.list "files" = none := hf ▸ rfl
    have hinclude : f.list "include" = some [.text P] := hf ▸ rfl
    have hexclude : f.list "exclude" = some (excludes.map .text) := hf ▸ rfl
    have hout : f.outPath = none := hf ▸ rfl
    rw [← hdir] at hd hps ⊢
    have hsettings : settingsOf f.path none f.data w = .ok (f.onTopOf w none) :=
      f.settingsOf_eq_ok.2 ⟨hnameable, rfl⟩
    have hnone := h w f _ hd hfiles hinclude hexclude hsettings
    have htaken : (f.onTopOf w none).takesOut p = true := by
      by_contra hkept
      have hmem := (onTopOf_none_select hfiles hinclude).2 ⟨ps, hps, hp, Bool.eq_false_iff.2 hkept⟩
      rw [hnone] at hmem
      cases hmem
    rcases (onTopOf_none_takesOut hexclude p).1 htaken with ⟨o, ho, -⟩ | htaken
    · rw [hout] at ho
      cases ho
    · exact htaken
  · intro h w f s hd hfiles hinclude hexclude hs
    obtain ⟨-, rfl⟩ := f.settingsOf_eq_ok.1 hs
    refine List.eq_nil_iff_forall_not_mem.2 fun p hp => ?_
    obtain ⟨ps, hps, hp, hkept⟩ := (onTopOf_none_select hfiles hinclude).1 hp
    have htaken := (onTopOf_none_takesOut (w := w) hexclude p).2 (.inr (h w _ ps hd hps p hp))
    rw [hkept] at htaken
    cases htaken

end CustomElements
