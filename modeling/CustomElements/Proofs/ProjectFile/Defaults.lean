import CustomElements.Proofs.ProjectFile.Reading

/-!
# Default rules along a chain

What one file of a chain gives, the files before it override and those behind it do not reach. Where
no file gives rules, the last file of the chain falls back on standard ones: they start from the
directory of that file, and whether there are include rules among them is up to that file alone.
Rules that belong to the file that was read in the first place would start from its directory, and
any list of files would keep standard includes out. `KeepsIncludes` and `KeepsExcludes` say exactly
where the two agree.
-/

namespace CustomElements.WrittenFile

variable {w : Workspace} {f : WrittenFile} {bases : List WrittenFile}

/-- The file gives none of the four parts of a selection. -/
structure IsSilent (f : WrittenFile) : Prop where
  files : f.list "files" = none
  includes : f.list "include" = none
  excludes : f.list "exclude" = none
  outDir : f.outPath = none

/-- The settings of a file on top of those of its chain. -/
def overAll (w : Workspace) : WrittenFile → List WrittenFile → ProjectFile
  | f, [] => f.onTopOf w none
  | f, g :: bases => f.onTopOf w (some (overAll w g bases))

/-- The include rules that are in effect if the defaults belong to the file `f` itself: they stand
in if no file gives files or include rules. -/
def expectedIncludes (f : WrittenFile) (bases : List WrittenFile) : List FileRule :=
  ((f :: bases).findSome? (rules · "include")).getD
    (if ∀ g ∈ f :: bases, g.list "files" = none then [⟨f.directory, "**/*"⟩] else [])

/-- The exclude rules that are in effect if the defaults belong to the file `f` itself. -/
def expectedExcludes (f : WrittenFile) (bases : List WrittenFile) : List FileRule :=
  ((f :: bases).findSome? (rules · "exclude")).getD f.standardExcludes

/-- Include rules are given, or the last file keeps the standard ones out, or they are in effect and
start from the right directory. -/
def KeepsIncludes (f : WrittenFile) (bases : List WrittenFile) : Prop :=
  (∃ g ∈ f :: bases, g.list "include" ≠ none) ∨
  (bases.getLastD f).list "files" ≠ none ∨
  ((∀ g ∈ f :: bases, g.list "files" = none) ∧ (bases.getLastD f).directory = f.directory)

/-- Exclude rules are given, or the standard ones start from the right directory. -/
def KeepsExcludes (f : WrittenFile) (bases : List WrittenFile) : Prop :=
  (∃ g ∈ f :: bases, g.list "exclude" ≠ none) ∨ (bases.getLastD f).directory = f.directory

theorem settingsAlong_eq_ok {s : ProjectFile} :
    settingsAlong w f bases = .ok s ↔
      (∀ g ∈ f :: bases, g.IsNameable w) ∧ s = overAll w f bases := by
  induction bases generalizing f s with
  | nil => simp [settingsAlong, overAll, settingsOf_eq_ok]
  | cons g bases ih =>
    rw [settingsAlong, exceptBind_eq_ok, List.forall_mem_cons, overAll]
    constructor
    · rintro ⟨b, hb, hs⟩
      obtain ⟨hg, rfl⟩ := ih.1 hb
      obtain ⟨hf, rfl⟩ := f.settingsOf_eq_ok.1 hs
      exact ⟨⟨hf, hg⟩, rfl⟩
    · rintro ⟨⟨hf, hg⟩, rfl⟩
      exact ⟨_, ih.2 ⟨hg, rfl⟩, f.settingsOf_eq_ok.2 ⟨hf, rfl⟩⟩

theorem overAll_files : (overAll w f bases).files =
    (((f :: bases).findSome? filePaths).map fun ps => ps.map (Path.normal w.current)).getD [] := by
  induction bases generalizing f with
  | nil => cases h : f.filePaths <;> simp [overAll, onTopOf, h]
  | cons g bases ih =>
    rw [List.findSome?_cons, overAll]
    cases h : f.filePaths <;> simp [onTopOf, h, ih]

theorem overAll_outDir : (overAll w f bases).outDir =
    ((f :: bases).findSome? outPath).map (Path.normal w.current) := by
  induction bases generalizing f with
  | nil => cases h : f.outPath <;> simp [overAll, onTopOf, h]
  | cons g bases ih =>
    rw [List.findSome?_cons, overAll]
    cases h : f.outPath <;> simp [onTopOf, h, ih]

theorem overAll_includes : (overAll w f bases).includes =
    ((f :: bases).findSome? (rules · "include")).getD (bases.getLastD f).standardIncludes := by
  induction bases generalizing f with
  | nil => cases h : f.rules "include" <;> simp [overAll, onTopOf, h]
  | cons g bases ih =>
    rw [List.findSome?_cons, overAll, List.getLastD_cons]
    cases h : f.rules "include" <;> simp [onTopOf, h, ih]

theorem overAll_excludes : (overAll w f bases).excludes =
    ((f :: bases).findSome? (rules · "exclude")).getD (bases.getLastD f).standardExcludes := by
  induction bases generalizing f with
  | nil => cases h : f.rules "exclude" <;> simp [overAll, onTopOf, h]
  | cons g bases ih =>
    rw [List.findSome?_cons, overAll, List.getLastD_cons]
    cases h : f.rules "exclude" <;> simp [onTopOf, h, ih]

theorem findSome?_rules_isSome {chain : List WrittenFile} {key : Text} :
    (chain.findSome? (rules · key)).isSome ↔ ∃ g ∈ chain, g.list key ≠ none := by
  simp [rules, Option.isSome_iff_ne_none]

theorem getD_eq_getD_iff {α : Type} {o : Option α} {a b : α} :
    o.getD a = o.getD b ↔ o.isSome ∨ a = b := by
  cases o <;> simp

theorem getLastD_mem : bases.getLastD f ∈ f :: bases := by
  rw [List.getLastD_eq_getLast?]
  cases h : bases.getLast? with
  | none => exact List.mem_cons_self
  | some g => exact List.mem_cons_of_mem _ (List.mem_of_getLast? h)

theorem overAll_includes_eq_iff :
    (overAll w f bases).includes = f.expectedIncludes bases ↔ f.KeepsIncludes bases := by
  rw [overAll_includes, expectedIncludes, KeepsIncludes, getD_eq_getD_iff, findSome?_rules_isSome]
  refine or_congr_right ?_
  rw [standardIncludes]
  by_cases hall : ∀ g ∈ f :: bases, g.list "files" = none
  · have hlast : (bases.getLastD f).list "files" = none := hall _ getLastD_mem
    rw [if_pos hall, hlast, if_pos Option.isNone_none, and_iff_right hall]
    simp
  · rw [if_neg hall, or_iff_left fun h => hall h.1]
    cases (bases.getLastD f).list "files" <;> simp

theorem overAll_excludes_eq_iff :
    (overAll w f bases).excludes = f.expectedExcludes bases ↔ f.KeepsExcludes bases := by
  rw [overAll_excludes, expectedExcludes, KeepsExcludes, getD_eq_getD_iff, findSome?_rules_isSome]
  refine or_congr_right ?_
  simp [standardExcludes, defaultExcludes]

theorem overAll_path : (overAll w f bases).path = f.path := by
  cases bases <;> rfl

/-- If all bases are silent, a part of the selection is the one that the file itself gives. -/
theorem findSome?_of_silent {α : Type} {part : WrittenFile → Option α}
    (h : ∀ g ∈ bases, part g = none) : (f :: bases).findSome? part = part f := by
  rw [List.findSome?_cons, List.findSome?_eq_none_iff.2 h]
  cases part f <;> rfl

/-- If all bases are silent, only the defaults can tell whether there are any. -/
theorem overAll_eq_onTopOf_none_iff (hs : ∀ g ∈ bases, g.IsSilent) :
    overAll w f bases = f.onTopOf w none ↔ f.KeepsIncludes bases ∧ f.KeepsExcludes bases := by
  have hrules {key : Text} (h : ∀ g ∈ bases, g.list key = none) :
      ∀ g ∈ bases, g.rules key = none := fun g hg => by simp [rules, h g hg]
  have hpaths : ∀ g ∈ bases, g.filePaths = none := fun g hg => by
    simp [filePaths, (hs g hg).files]
  have hfiles : (overAll w f bases).files = (f.onTopOf w none).files := by
    rw [overAll_files, findSome?_of_silent hpaths]
    rfl
  have hout : (overAll w f bases).outDir = (f.onTopOf w none).outDir := by
    rw [overAll_outDir, findSome?_of_silent fun g hg => (hs g hg).outDir]
    exact (Option.or_none).symm
  have hincludes : f.expectedIncludes bases = (f.onTopOf w none).includes := by
    have hall : (∀ g ∈ f :: bases, g.list "files" = none) ↔ f.list "files" = none := by
      rw [List.forall_mem_cons]
      exact and_iff_left fun g hg => (hs g hg).files
    rw [expectedIncludes, findSome?_of_silent (hrules fun g hg => (hs g hg).includes)]
    simp only [onTopOf, standardIncludes, hall, Option.isNone_iff_eq_none]
    rfl
  have hexcludes : f.expectedExcludes bases = (f.onTopOf w none).excludes := by
    rw [expectedExcludes, findSome?_of_silent (hrules fun g hg => (hs g hg).excludes)]
    rfl
  rw [← overAll_includes_eq_iff (w := w), ← overAll_excludes_eq_iff (w := w), hincludes, hexcludes]
  constructor
  · intro h
    rw [h]
    exact ⟨rfl, rfl⟩
  · rintro ⟨hi, he⟩
    rw [ProjectFile.mk.injEq]
    exact ⟨overAll_path, hfiles, hi, he, hout⟩

/-- Reading a project file gives the settings of its chain, unless a file of the chain names a path
that no file can have; the workspace gets log records at most. What a file gives goes before what
the files behind it give, and defaults come from the last file. They are those of the file that is
read just as `KeepsIncludes` and `KeepsExcludes` say, and if all bases are silent, then that decides
whether the file could as well extend none. -/
theorem load_along_chain {p : Path} (h : f.Extends w bases)
    (hp : (do w.resolve (← w.expandHome p)) = .ok f.path) :
    (∃ rs, ((ProjectFile.load p).outcome w).2 = w.report rs) ∧
    ((∃ s, ((ProjectFile.load p).outcome w).1 = .ok s) ↔ ∀ g ∈ f :: bases, g.IsNameable w) ∧
    ∀ s, ((ProjectFile.load p).outcome w).1 = .ok s →
      s.files = (((f :: bases).findSome? filePaths).map
        fun ps => ps.map (Path.normal w.current)).getD [] ∧
      s.outDir = ((f :: bases).findSome? outPath).map (Path.normal w.current) ∧
      s.includes = ((f :: bases).findSome? (rules · "include")).getD
        (bases.getLastD f).standardIncludes ∧
      s.excludes = ((f :: bases).findSome? (rules · "exclude")).getD
        (bases.getLastD f).standardExcludes ∧
      (s.includes = f.expectedIncludes bases ↔ f.KeepsIncludes bases) ∧
      (s.excludes = f.expectedExcludes bases ↔ f.KeepsExcludes bases) ∧
      ((∀ g ∈ bases, g.IsSilent) →
        (settingsOf f.path none f.data w = .ok s ↔
          f.KeepsIncludes bases ∧ f.KeepsExcludes bases)) := by
  obtain ⟨rs, hload⟩ := h.load_outcome hp
  have hok {s : ProjectFile} : ((ProjectFile.load p).outcome w).1 = .ok s ↔
      (∀ g ∈ f :: bases, g.IsNameable w) ∧ s = overAll w f bases := by
    rw [hload, ← settingsAlong_eq_ok]
    cases settingsAlong w f bases <;> simp [Except.mapError]
  refine ⟨⟨rs, by rw [hload]⟩, ?_, fun s hs => ?_⟩
  · constructor
    · rintro ⟨s, hs⟩
      exact (hok.1 hs).1
    · intro hn
      exact ⟨_, hok.2 ⟨hn, rfl⟩⟩
  · obtain ⟨hn, rfl⟩ := hok.1 hs
    refine ⟨overAll_files, overAll_outDir, overAll_includes, overAll_excludes,
      overAll_includes_eq_iff, overAll_excludes_eq_iff, fun hsilent => ?_⟩
    rw [settingsOf_eq_ok, and_iff_right (hn f List.mem_cons_self)]
    exact overAll_eq_onTopOf_none_iff hsilent

/-- The text of a project file that extends one in another directory. -/
def pointerText : List Char := "\x7b\"extends\": \"./config/base.json\"\x7d".toList

def pointerWorkspace : Workspace := { Workspace.bare with
  files := .dir [("ws", .dir [
    ("tsconfig.json", .file (Bytes.ofChars pointerText)),
    ("config", .dir [("base.json", .file (Bytes.ofChars "\x7b\x7d".toList))])])] }

def pointer : WrittenFile :=
  ⟨"/ws/tsconfig.json", .map [(.text "extends", .text "./config/base.json")]⟩

def emptyBase : WrittenFile := ⟨"/ws/config/base.json", .map []⟩

theorem pointer_extends : pointer.Extends pointerWorkspace [emptyBase] := by
  have hpointer : pointer.Holds pointerWorkspace := by
    refine .of_read pointerText [("extends", .string "./config/base.json")] rfl ?_ rfl
    cbv
  have hbase : emptyBase.Holds pointerWorkspace := by
    refine .of_read "\x7b\x7d".toList [] rfl ?_ rfl
    cbv
  have hnone : emptyBase.data.get "extends" = .null := rfl
  refine .base hpointer (t := "./config/base.json") rfl rfl rfl (.alone hbase ?_)
  rw [hnone]
  exact .other rfl fun t h => by cases h

/-- An empty base in another directory moves the standard rules there. -/
theorem load_along_chain_pointer : ∃ s,
    ((ProjectFile.load "tsconfig.json").outcome pointerWorkspace).1 = .ok s ∧
      s.includes = [⟨"/ws/config", "**/*"⟩] ∧
      s.includes ≠ pointer.expectedIncludes [emptyBase] ∧
      settingsOf pointer.path none pointer.data pointerWorkspace ≠ .ok s := by
  have hmoved : ¬pointer.KeepsIncludes [emptyBase] := by
    unfold KeepsIncludes
    decide
  have hsilent : ∀ g ∈ [emptyBase], g.IsSilent := by
    intro g hg
    obtain rfl := List.mem_singleton.1 hg
    exact ⟨rfl, rfl, rfl, rfl⟩
  have hnameable : ∀ g ∈ [pointer, emptyBase], g.IsNameable pointerWorkspace := by
    intro g hg
    have hout : g.outPath = none ∧ g.filePaths = none := by
      rcases List.mem_cons.1 hg with rfl | hg
      · exact ⟨rfl, rfl⟩
      · obtain rfl := List.mem_singleton.1 hg
        exact ⟨rfl, rfl⟩
    refine ⟨fun p hp => ?_, fun ps hps => ?_⟩
    · rw [hout.1] at hp
      cases hp
    · rw [hout.2] at hps
      cases hps
  obtain ⟨_, hanswer, hread⟩ := load_along_chain (p := "tsconfig.json") pointer_extends rfl
  obtain ⟨s, hs⟩ := hanswer.2 hnameable
  obtain ⟨_, _, hincludes, _, hkeeps, _, hempty⟩ := hread s hs
  exact ⟨s, hs, hincludes, fun h => hmoved (hkeeps.1 h),
    fun h => hmoved ((hempty hsilent).1 h).1⟩

end CustomElements.WrittenFile
