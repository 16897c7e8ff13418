import CustomElements.Proofs.Files.NormalPath
import CustomElements.ProjectFile.Extends

/-!
# What a project file says

A project file gives lists of files and of rules and an output directory, each of them or not. Its
settings are what it says, on top of the settings of its base; a file without a base falls back on
standard rules of its own. They have an answer if every path that the file names is one.
-/

namespace CustomElements

/-- A project file and what is written in it. -/
structure WrittenFile where
  path : Path
  data : Value

namespace WrittenFile

variable (f : WrittenFile)

def directory : Path := f.path.parent

/-- The items under a key, if there is a list. -/
def list (key : Text) : Option (List Value) := (f.data.get key).items?

/-- The rules under a key; they start from the directory of the file. -/
def rules (key : Text) : Option (List FileRule) :=
  (f.list key).map fun vs => vs.map fun v => ⟨f.directory, v.shown⟩

def filePaths : Option (List Path) :=
  (f.list "files").map fun vs => vs.map fun v => f.directory.join (.ofText v.shown)

def outPath : Option Path :=
  match (f.data.get "compilerOptions").get "outDir" with
  | .text t => some (f.directory.join (.ofText t))
  | _ => none

/-- All paths that the file names have names that a file can have. -/
def IsNameable (w : Workspace) : Prop :=
  (∀ p, f.outPath = some p → ∃ q, w.resolve p = .ok q) ∧
    ∀ ps, f.filePaths = some ps → ∀ p ∈ ps, ∃ q, w.resolve p = .ok q

/-- What is included if a file without a base gives no rules. -/
def standardIncludes : List FileRule :=
  if (f.list "files").isNone then [⟨f.directory, "**/*"⟩] else []

def standardExcludes : List FileRule := defaultExcludes.map fun t => ⟨f.directory, t⟩

/-- The settings of the file on top of those of its base. -/
def onTopOf (w : Workspace) (base : Option ProjectFile) : ProjectFile where
  path := f.path
  files := (f.filePaths.map fun ps => ps.map (Path.normal w.current)).getD
    ((base.map ProjectFile.files).getD [])
  includes := (f.rules "include").getD ((base.map ProjectFile.includes).getD f.standardIncludes)
  excludes := (f.rules "exclude").getD ((base.map ProjectFile.excludes).getD f.standardExcludes)
  outDir := (f.outPath.map (Path.normal w.current)).or (base.bind ProjectFile.outDir)

theorem mapM_resolve_eq_ok {w : Workspace} {ps qs : List Path} :
    ps.mapM w.resolve = .ok qs ↔
      (∀ p ∈ ps, ∃ q, w.resolve p = .ok q) ∧ qs = ps.map (Path.normal w.current) := by
  induction ps generalizing qs with
  | nil => simp [pure, Except.pure, eq_comm]
  | cons p ps ih =>
    rw [exceptMapM_cons_eq_ok, List.forall_mem_cons]
    constructor
    · rintro ⟨q, rest, hq, hrest, rfl⟩
      obtain ⟨hps, rfl⟩ := ih.1 hrest
      have hn := (Workspace.resolve_eq_ok.1 hq).2
      exact ⟨⟨⟨q, hq⟩, hps⟩, by rw [List.map_cons, ← hn]⟩
    · rintro ⟨⟨⟨q, hq⟩, hps⟩, rfl⟩
      have hn := (Workspace.resolve_eq_ok.1 hq).2
      exact ⟨q, _, hq, ih.2 ⟨hps, rfl⟩, by rw [List.map_cons, ← hn]⟩

/-- What `outDir` gives, on top of that of a base. -/
theorem outDir_eq_ok {w : Workspace} {inherited o : Option Path} :
    (match (f.data.get "compilerOptions").get "outDir" with
      | .text t => some <$> w.resolve (f.path.parent.join (.ofText t))
      | _ => pure inherited) = .ok o ↔
      (∀ p, f.outPath = some p → ∃ q, w.resolve p = .ok q) ∧
        o = (f.outPath.map (Path.normal w.current)).or inherited := by
  unfold outPath directory
  split
  · next t _ =>
    rw [exceptMap_eq_ok]
    constructor
    · rintro ⟨q, hq, rfl⟩
      refine ⟨fun p hp => ⟨q, Option.some.inj hp ▸ hq⟩, ?_⟩
      simp [(Workspace.resolve_eq_ok.1 hq).2]
    · rintro ⟨h, rfl⟩
      obtain ⟨q, hq⟩ := h _ rfl
      exact ⟨q, hq, by simp [(Workspace.resolve_eq_ok.1 hq).2]⟩
  · simp [pure, Except.pure, eq_comm]

/-- What `files` gives, in place of what a base gives. -/
theorem files_eq_ok {w : Workspace} {inherited ps : List Path} :
    (match (f.data.get "files").items? with
      | some vs => vs.mapM fun v : Value => w.resolve (f.path.parent.join (.ofText v.shown))
      | none => pure inherited) = .ok ps ↔
      (∀ qs, f.filePaths = some qs → ∀ p ∈ qs, ∃ q, w.resolve p = .ok q) ∧
        ps = (f.filePaths.map fun qs => qs.map (Path.normal w.current)).getD inherited := by
  unfold filePaths list directory
  cases (f.data.get "files").items? with
  | none => simp [pure, Except.pure, eq_comm]
  | some vs =>
    have hm := @mapM_resolve_eq_ok w
      (vs.map fun v : Value => f.path.parent.join (.ofText v.shown)) ps
    rw [List.mapM_map] at hm
    simpa [Function.comp_def] using hm

/-- The settings of a file are put together once its paths have been resolved. -/
theorem settingsOf_eq_bind {w : Workspace} {base : Option ProjectFile} :
    settingsOf f.path base f.data w =
      (match (f.data.get "compilerOptions").get "outDir" with
        | .text t => some <$> w.resolve (f.path.parent.join (.ofText t))
        | _ => pure (base.bind ProjectFile.outDir)) >>= fun outDir =>
      (match (f.data.get "files").items? with
        | some vs => vs.mapM fun v : Value => w.resolve (f.path.parent.join (.ofText v.shown))
        | none => pure ((base.map ProjectFile.files).getD [])) >>= fun files =>
      .ok { f.onTopOf w base with files := files, outDir := outDir } := by
  unfold settingsOf onTopOf rules standardIncludes standardExcludes list directory
  cases (f.data.get "compilerOptions").get "outDir" <;>
    cases (f.data.get "files").items? <;> cases base <;> rfl

/-- The settings of a file have an answer if all paths that it names can be resolved. -/
theorem settingsOf_eq_ok {w : Workspace} {base : Option ProjectFile} {s : ProjectFile} :
    settingsOf f.path base f.data w = .ok s ↔ f.IsNameable w ∧ s = f.onTopOf w base := by
  rw [settingsOf_eq_bind, exceptBind_eq_ok]
  constructor
  · rintro ⟨o, ho, h⟩
    obtain ⟨ps, hps, h⟩ := exceptBind_eq_ok.1 h
    obtain ⟨hout, rfl⟩ := f.outDir_eq_ok.1 ho
    obtain ⟨hfiles, rfl⟩ := f.files_eq_ok.1 hps
    exact ⟨⟨hout, hfiles⟩, (Except.ok.inj h).symm⟩
  · rintro ⟨⟨hout, hfiles⟩, rfl⟩
    exact ⟨_, f.outDir_eq_ok.2 ⟨hout, rfl⟩,
      exceptBind_eq_ok.2 ⟨_, f.files_eq_ok.2 ⟨hfiles, rfl⟩, rfl⟩⟩

/-- Otherwise they fail with what is wrong with one of these paths. -/
theorem settingsOf_error {w : Workspace} {base : Option ProjectFile} {e : Fault}
    (h : settingsOf f.path base f.data w = .error e) :
    (∃ p, f.outPath = some p ∧ w.resolve p = .error e) ∨
      ∃ ps, f.filePaths = some ps ∧ ∃ p ∈ ps, w.resolve p = .error e := by
  rw [settingsOf_eq_bind] at h
  rcases exceptBind_eq_error.1 h with h | ⟨o, -, h⟩
  · refine .inl ?_
    unfold outPath directory
    split at h
    · next t _ =>
      refine ⟨_, rfl, ?_⟩
      cases hp : w.resolve (f.path.parent.join (.ofText t)) with
      | error e' =>
        rw [hp] at h
        exact congrArg Except.error (Except.error.inj h)
      | ok q =>
        rw [hp] at h
        cases h
    · cases h
  · refine .inr ?_
    rcases exceptBind_eq_error.1 h with h | ⟨ps, -, h⟩
    · cases hvs : (f.data.get "files").items? with
      | none =>
        rw [hvs] at h
        cases h
      | some vs =>
        rw [hvs] at h
        obtain ⟨v, hv, h⟩ := exists_mem_of_exceptMapM_eq_error h
        refine ⟨vs.map fun v => f.directory.join (.ofText v.shown), ?_,
          f.directory.join (.ofText v.shown), List.mem_map.2 ⟨v, hv, rfl⟩, h⟩
        rw [filePaths, list, hvs, Option.map_some]
    · cases h

end WrittenFile

end CustomElements
