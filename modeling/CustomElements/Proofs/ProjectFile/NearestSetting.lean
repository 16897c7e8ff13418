import CustomElements.Proofs.FirstMatch
import CustomElements.Proofs.ProjectFile.Reading
import CustomElements.Proofs.Workspace.Loading

/-!
# The nearest file decides

Of the parts of a selection, each is decided on its own: by the first file of a chain that gives it.
What the other parts are does not matter, nor what stands behind that file, nor what the last file
of the chain extends in its turn. Rules and paths belong to the directory of the file that gives
them, wherever the other files are.
-/

namespace CustomElements

namespace WrittenFile

/-- The first file of a chain that gives a part, and what it gives. -/
def GivesFirst {α : Type} (part : WrittenFile → Option α) (chain : List WrittenFile)
    (g : WrittenFile) (a : α) : Prop :=
  IsFirst (fun h => part h ≠ none) chain g ∧ part g = some a

/-- The file is there and extends the first of the others, which extends the next one, and so on.
The last one may extend whatever it likes. -/
inductive Linked (w : Workspace) : WrittenFile → List WrittenFile → Prop
  | last {f : WrittenFile} (here : f.Holds w) : Linked w f []
  | link {f g : WrittenFile} {bases : List WrittenFile} {t : Text} (here : f.Holds w)
      (named : f.data.get "extends" = .text t) (relative : Text.startsWith t "." = true)
      (found : baseFile w f.directory t = .ok g.path) (rest : Linked w g bases) :
      Linked w f (g :: bases)

section Parts

variable {α : Type} {part : WrittenFile → Option α} {f g : WrittenFile} {bases : List WrittenFile}
  {a : α}

theorem not_givesFirst_nil : ¬ GivesFirst part [] g a := fun h => not_isFirst_nil h.1

/-- The first file gives the part, or it is silent and a file behind it does. -/
theorem givesFirst_cons : GivesFirst part (f :: bases) g a ↔
    g = f ∧ part f = some a ∨ part f = none ∧ GivesFirst part bases g a := by
  by_cases hf : part f = none
  · rw [GivesFirst, isFirst_cons_of_neg (P := fun h => part h ≠ none) (not_not_intro hf)]
    simp [GivesFirst, hf]
  · rw [GivesFirst, isFirst_cons_of_pos (P := fun h => part h ≠ none) hf]
    constructor
    · rintro ⟨rfl, ha⟩
      exact .inl ⟨rfl, ha⟩
    · rintro (⟨rfl, ha⟩ | ⟨hnone, -⟩)
      · exact ⟨rfl, ha⟩
      · exact (hf hnone).elim

end Parts

end WrittenFile

open WrittenFile

/-- The settings have each part from the first file of the chain that gives it. -/
structure ProjectFile.TakesFirst (w : Workspace) (chain : List WrittenFile) (s : ProjectFile) :
    Prop where
  includes : ∀ g rs, GivesFirst (rules · "include") chain g rs → s.includes = rs
  excludes : ∀ g rs, GivesFirst (rules · "exclude") chain g rs → s.excludes = rs
  files : ∀ g ps, GivesFirst filePaths chain g ps → ps.mapM w.resolve = .ok s.files
  outDir : ∀ g p, GivesFirst outPath chain g p → ∃ o, w.resolve p = .ok o ∧ s.outDir = some o

namespace WrittenFile

variable {w w' : Workspace} {f g : WrittenFile} {bases : List WrittenFile} {s : ProjectFile}
  {fuel : Nat} {seen seen' : List Path}

/-- Settings on top of those of a chain: what the file does not give is left to the chain. -/
theorem onTopOf_takesFirst {base : Option ProjectFile} (hn : f.IsNameable w)
    (hbase : bases = [] ∨ ∃ b, base = some b ∧ b.TakesFirst w bases) :
    (f.onTopOf w base).TakesFirst w (f :: bases) := by
  -- a part that the file does not give is given by a base
  have hbehind {α : Type} {part : WrittenFile → Option α} {g : WrittenFile} {a : α}
      (h : GivesFirst part bases g a) : ∃ b, base = some b ∧ b.TakesFirst w bases := by
    rcases hbase with rfl | hbase
    · exact (not_givesFirst_nil h).elim
    · exact hbase
  constructor
  · intro g rs h
    rcases givesFirst_cons.1 h with ⟨rfl, hhere⟩ | ⟨hnone, h⟩
    · simp [onTopOf, hhere]
    · obtain ⟨b, rfl, hb⟩ := hbehind h
      simp [onTopOf, hnone, hb.includes g rs h]
  · intro g rs h
    rcases givesFirst_cons.1 h with ⟨rfl, hhere⟩ | ⟨hnone, h⟩
    · simp [onTopOf, hhere]
    · obtain ⟨b, rfl, hb⟩ := hbehind h
      simp [onTopOf, hnone, hb.excludes g rs h]
  · intro g ps h
    rcases givesFirst_cons.1 h with ⟨rfl, hhere⟩ | ⟨hnone, h⟩
    · refine mapM_resolve_eq_ok.2 ⟨hn.2 ps hhere, ?_⟩
      simp [onTopOf, hhere]
    · obtain ⟨b, rfl, hb⟩ := hbehind h
      simp [onTopOf, hnone, hb.files g ps h]
  · intro g p h
    rcases givesFirst_cons.1 h with ⟨rfl, hhere⟩ | ⟨hnone, h⟩
    · obtain ⟨o, ho⟩ := hn.1 p hhere
      refine ⟨o, ho, ?_⟩
      simp [onTopOf, hhere, (Workspace.resolve_eq_ok.1 ho).2]
    · obtain ⟨b, rfl, hb⟩ := hbehind h
      obtain ⟨o, ho, hout⟩ := hb.outDir g p h
      exact ⟨o, ho, by simp [onTopOf, hnone, hout]⟩

/-- Settings of a file that was read are those of the file on top of some base. -/
theorem Holds.loadFrom_eq_ok (here : f.Holds w)
    (h : (loadFrom fuel f.path).outcome seen w = (.ok (s, seen'), w')) :
    ∃ k base visited v,
      (baseOf (loadFrom k) f.directory (f.data.get "extends")).outcome (seen ++ [f.path]) w =
        (.ok (base, visited), v) ∧ f.IsNameable w ∧ s = f.onTopOf w base := by
  cases fuel with
  | zero => cases h
  | succ k =>
    by_cases hnew : f.path ∈ seen
    · rw [loadFrom_outcome_of_mem hnew] at h
      cases h
    · rw [here.loadFrom_outcome hnew] at h
      obtain ⟨base, visited, v, hbase, hsettings⟩ := ReadAction.outcome_bind_eq_ok.1 h
      obtain ⟨rs, hv⟩ := (baseOf_onlyReports (loadFrom_onlyReports k) f.directory
        (f.data.get "extends") (seen ++ [f.path])).leaves w
      obtain rfl : v = w.report rs := (congrArg Prod.snd hbase).symm.trans hv
      rw [settings_outcome] at hsettings
      have hok : settingsOf f.path base f.data w = .ok s := by
        cases hs : settingsOf f.path base f.data w with
        | error e =>
          rw [hs] at hsettings
          cases hsettings
        | ok s' =>
          rw [hs] at hsettings
          cases hsettings
          rfl
      exact ⟨k, base, visited, _, hbase, f.settingsOf_eq_ok.1 hok⟩

/-- Each file of a chain adds what it gives, from the end of the chain to its start. -/
theorem Linked.takesFirst (h : f.Linked w bases)
    (hload : (loadFrom fuel f.path).outcome seen w = (.ok (s, seen'), w')) :
    s.TakesFirst w (f :: bases) := by
  induction h generalizing fuel seen s seen' w' with
  | last here =>
    obtain ⟨k, base, visited, v, -, hn, rfl⟩ := here.loadFrom_eq_ok hload
    exact onTopOf_takesFirst hn (.inl rfl)
  | link here named relative found rest ih =>
    obtain ⟨k, base, visited, v, hbase, hn, rfl⟩ := here.loadFrom_eq_ok hload
    rw [named, baseOf_outcome_of_relative (loadFrom k) relative found] at hbase
    obtain ⟨b, visited', v', hb, hsome⟩ := ReadAction.outcome_bind_eq_ok.1 hbase
    cases hsome
    exact onTopOf_takesFirst hn (.inr ⟨b, rfl, ih hb⟩)

/-- Whenever reading the first file of a chain has an answer, each of include rules, exclude rules,
files and output directory is what the nearest file gives that gives it: rules start from the
directory of that file, and paths are resolved against it. The other parts and the files behind that
one have no say. -/
theorem load_takes_first {p : Path} (h : f.Linked w bases)
    (hp : (do w.resolve (← w.expandHome p)) = .ok f.path)
    (hload : ((ProjectFile.load p).outcome w).1 = .ok s) : s.TakesFirst w (f :: bases) := by
  rw [ProjectFile.load_outcome hp] at hload
  rcases hread : (loadFrom (w.files.files.length + 2) f.path).outcome [] w with ⟨e | ⟨s', seen⟩, v⟩
  · rw [hread] at hload
    cases hload
  · rw [hread] at hload
    obtain rfl : s' = s := Except.ok.inj hload
    exact h.takesFirst hread

/-- A project file that gives one part, and its base in another directory, which gives all. -/
def partText : List Char := "\x7b\"extends\":\"./c/b.json\",\"exclude\":[\"a\"]\x7d".toList

def fullText : List Char :=
  ("\x7b\"include\":[\"s\"],\"exclude\":[],\"files\":[\"m.ts\"]," ++
    "\"compilerOptions\":\x7b\"outDir\":\"o\"\x7d\x7d").toList

def layeredWorkspace : Workspace := { Workspace.bare with
  files := .dir [("ws", .dir [
    ("tsconfig.json", .file (Bytes.ofChars partText)),
    ("c", .dir [("b.json", .file (Bytes.ofChars fullText))])])] }

def partFile : WrittenFile :=
  ⟨"/ws/tsconfig.json",
    .map [(.text "extends", .text "./c/b.json"), (.text "exclude", .list [.text "a"])]⟩

def fullFile : WrittenFile :=
  ⟨"/ws/c/b.json", .map [(.text "include", .list [.text "s"]), (.text "exclude", .list []),
    (.text "files", .list [.text "m.ts"]),
    (.text "compilerOptions", .map [(.text "outDir", .text "o")])]⟩

theorem partFile_linked : partFile.Linked layeredWorkspace [fullFile] := by
  have hpart : partFile.Holds layeredWorkspace := by
    refine .of_read partText
      [("extends", .string "./c/b.json"), ("exclude", .array [.string "a"])] rfl ?_ rfl
    cbv
  have hfull : fullFile.Holds layeredWorkspace := by
    refine .of_read fullText [("include", .array [.string "s"]), ("exclude", .array []),
      ("files", .array [.string "m.ts"]),
      ("compilerOptions", .object [("outDir", .string "o")])] rfl ?_ rfl
    cbv
  exact .link hpart (t := "./c/b.json") rfl rfl rfl (.last hfull)

theorem load_layeredWorkspace :
    ((ProjectFile.load "tsconfig.json").outcome layeredWorkspace).1.toOption.isSome := by
  decide +kernel

/-- The excludes are those of the file itself, all else comes from the directory of its base. -/
theorem load_takes_first_layered : ∃ s,
    ((ProjectFile.load "tsconfig.json").outcome layeredWorkspace).1 = .ok s ∧
      s.includes = [⟨"/ws/c", "s"⟩] ∧ s.excludes = [⟨"/ws", "a"⟩] ∧
      s.files = ["/ws/c/m.ts"] ∧ s.outDir = some "/ws/c/o" := by
  obtain ⟨s, hs⟩ := exists_eq_ok_iff_isSome.2 load_layeredWorkspace
  have hfirst := load_takes_first partFile_linked rfl hs
  refine ⟨s, hs, ?_, ?_, ?_, ?_⟩
  · exact hfirst.includes fullFile _ ⟨⟨[partFile], [], rfl, by decide, by decide⟩, rfl⟩
  · exact hfirst.excludes partFile _ ⟨⟨[], [fullFile], rfl, by decide, by decide⟩, rfl⟩
  · have hfiles := hfirst.files fullFile _ ⟨⟨[partFile], [], rfl, by decide, by decide⟩, rfl⟩
    exact Except.ok.inj hfiles.symm
  · obtain ⟨o, ho, hout⟩ :=
      hfirst.outDir fullFile _ ⟨⟨[partFile], [], rfl, by decide, by decide⟩, rfl⟩
    rw [hout]
    exact congrArg some (Except.ok.inj ho.symm)

end WrittenFile

end CustomElements
