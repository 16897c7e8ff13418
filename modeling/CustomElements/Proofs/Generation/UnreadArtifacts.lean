import CustomElements.Proofs.Generation.SideBySide
import CustomElements.Proofs.Output.EncodableTexts
import CustomElements.Proofs.Workspace.Alike

/-!
# Artifacts that no one reads

A run reads no artifact that it has written. Two runs that write different artifacts to the same
paths therefore stay side by side, up to what a builder makes of the artifacts: the builder has to
go the same way in both, though the files that it writes may hold something else.
-/

namespace CustomElements

open CustomElements.Action Workspace

/-- The names of a file that no artifact has the name of. -/
def IsNoArtifact (names : List Text) : Prop :=
  ∀ name ∈ artifactFileNames.map Prod.snd, names.getLast? ≠ some name

/-- Workspaces that differ in artifacts only, as far as files go. -/
abbrev AlikeButArtifacts : Workspace → Workspace → Prop := Alike IsNoArtifact

/-- Workspaces with the same files, whatever they hold. -/
abbrev AlikeInOutline : Workspace → Workspace → Prop := Alike keptNowhere

/-- A builder that goes the same way whatever the artifacts hold: it has the same answer and leaves
files of the same names. -/
def Builder.IgnoresArtifacts (builder : Builder) : Prop :=
  ∀ request, Parallel AlikeButArtifacts AlikeInOutline Eq (builder request) (builder request)

/-- Running a command takes notice of artifacts only if the command does. -/
theorem buildByCommand_ignoresArtifacts (command : List Text) {run : CommandRunner}
    (hr : ∀ c, Parallel AlikeButArtifacts AlikeInOutline Eq (run c) (run c)) :
    (buildByCommand command run).IgnoresArtifacts := by
  have hle : AlikeButArtifacts ≤ AlikeInOutline := fun _ _ h => h.forget
  intro request
  refine (Parallel.ofFaults _).bind hle fun arguments _ harguments => ?_
  subst harguments
  refine (record_alike _ _ _).bind hle fun _ _ _ => ?_
  have hcount (command : Command) : ∀ w v, AlikeButArtifacts w v → AlikeButArtifacts
      { w with commands := w.commands ++ [command] }
      { v with commands := v.commands ++ [command] } := by
    intro w v h
    obtain ⟨files, log, stderr, project, rfl⟩ := h.cases
    exact ⟨h.silent, h.outline, h.held, rfl⟩
  refine (Parallel.modify (hcount _)).bind hle fun _ _ _ => ?_
  refine (hr _).bind le_rfl fun answer _ hanswer => ?_
  subst hanswer
  split
  · exact Parallel.pure rfl
  · split
    · exact Parallel.pure rfl
    · exact Parallel.pure rfl

section Steps

theorem sourceRoot_alike (root : Path) (project : Text) :
    Parallel AlikeButArtifacts AlikeButArtifacts Eq (sourceRoot root project)
      (sourceRoot root project) := by
  have hunread : Parallel AlikeButArtifacts AlikeButArtifacts Eq (do
      Action.record .warning "build.target" ("Could not read "
        ++ (root.child workspaceFileName).text ++ " (" ++ causeText
        ++ "); assuming sourceRoot '" ++ defaultSourceRoot ++ "'")
      return defaultSourceRoot) (do
      Action.record .warning "build.target" ("Could not read "
        ++ (root.child workspaceFileName).text ++ " (" ++ causeText
        ++ "); assuming sourceRoot '" ++ defaultSourceRoot ++ "'")
      return defaultSourceRoot) :=
    (record_alike _ _ _).andThen_eq fun _ => Parallel.pure rfl
  refine Parallel.get_bind fun w v h => ?_
  have hkept : IsNoArtifact (w.placeOf (root.child workspaceFileName)) := by
    intro name hname
    rw [getLast?_placeOf w root (by decide)]
    revert name
    decide
  rw [h.readText hkept]
  split
  · exact Parallel.pure rfl
  · exact Parallel.throw _
  · exact Parallel.throw _
  · exact Parallel.throw _
  · exact hunread
  · split
    · exact Parallel.pure rfl
    · exact hunread
    · exact Parallel.throw _

theorem entryDirectory_alike (c : Configuration) (target : BuildTarget) (outDir : Path) :
    Parallel AlikeButArtifacts AlikeButArtifacts Eq (entryDirectory c target outDir)
      (entryDirectory c target outDir) := by
  unfold entryDirectory
  split
  · exact look_alike fun _ _ _ _ _ => rfl
  · refine Parallel.get_bind fun w v h => ?_
    rw [h.isFile]
    split
    · exact (sourceRoot_alike _ _).andThen_eq fun _ => Parallel.pure rfl
    · exact Parallel.pure rfl

theorem rename_alike (source target : Path) :
    Parallel AlikeInOutline AlikeInOutline Eq (rename source target) (rename source target) := by
  refine change_alike (fun w v h => ?_) fun _ _ _ _ _ _ _ _ hnames => hnames.elim
  rw [h.place, h.place]
  cases w.place source with
  | error f => rfl
  | ok origin =>
    cases w.place target with
    | error f => rfl
    | ok place =>
      change (v.files.rename origin place).map _ = (w.files.rename origin place).map _
      rw [FileTree.outline_rename, FileTree.outline_rename, h.outline]

theorem renameBundle_alike (outDir : Path) (name : Text) :
    Parallel AlikeInOutline AlikeInOutline Eq (renameBundle outDir name)
      (renameBundle outDir name) := by
  refine Parallel.get_bind fun w v h => ?_
  simp only [h.mainBundles]
  split
  · exact (record_alike _ _ _).andThen_eq fun _ => Parallel.pure rfl
  · refine (rename_alike _ _).andThen_eq fun _ => ?_
    refine Parallel.get_bind fun w' v' h' => ?_
    rw [h'.isFile]
    split
    · refine (rename_alike _ _).andThen_eq fun _ => ?_
      exact (record_alike _ _ _).andThen_eq fun _ => Parallel.pure rfl
    · exact (record_alike _ _ _).andThen_eq fun _ => Parallel.pure rfl

end Steps

section Emissions

variable {kept : List Text → Prop} {builder : Builder} {c : Configuration}
variable {cs cs' : List Component}

/-- Texts that have an encoding both, or neither. -/
def BothEncodable (t t' : Text) : Prop := t.IsEncodable ↔ t'.IsEncodable

theorem writesAlike_of_outline (hkept : ∀ names, kept names → IsNoArtifact names) :
    WritesAlike (Alike kept) BothEncodable where
  current := by
    intro w v h
    obtain ⟨files, log, stderr, project, rfl⟩ := h.cases
    rfl
  record := record_alike
  artifact := by
    intro d name t t' hname ht
    refine writeArtifact_alike (fun w hk => ?_) ht
    have hdots : ∀ n ∈ artifactFileNames.map Prod.snd, n ≠ ".." := by decide
    exact hkept _ hk name hname (getLast?_placeOf w d (hdots name hname))

theorem emitsAlike_butArtifacts (hb : builder.IgnoresArtifacts) :
    EmitsAlike AlikeButArtifacts AlikeInOutline BothEncodable builder c where
  le := fun _ _ h => h.forget
  before := writesAlike_of_outline fun _ h => h
  after := writesAlike_of_outline fun _ h => h.elim
  resolve := fun _ => look_alike fun _ _ _ _ _ => rfl
  directory := entryDirectory_alike c
  build := hb
  rename := renameBundle_alike

/-- In another order, components have texts that can be written or not as before. -/
theorem textsAlike_of_perm (h : cs.Perm cs') : TextsAlike BothEncodable c cs cs' where
  manifest := iff_of_true (isEncodable_manifestText _ _) (isEncodable_manifestText _ _)
  types := by
    unfold BothEncodable
    rw [isEncodable_typeDeclarations, isEncodable_typeDeclarations]
    exact forall_congr' fun k => imp_congr_left h.mem_iff
  registration := fun _ _ =>
    iff_of_true (isEncodable_registrationModule _ _ _) (isEncodable_registrationModule _ _ _)

/-- Without a bundle among the outputs the builder has no part in an emission. -/
theorem emit_of_not_mem {other : Builder} {outputs : List Text} (hk : browserOutput ∉ outputs)
    (target : Option BuildTarget) :
    emit builder c ⟨outputs, target, cs⟩ = emit other c ⟨outputs, target, cs⟩ := by
  have hloop (outDir : Path) (result : GenerationResult) :
      outputs.foldlM (writeOutput builder c target outDir) result =
        outputs.foldlM (writeOutput other c target outDir) result :=
    foldlM_writeOutput_of_not_mem hk
  simp only [emit, hloop]

/-- Components in another order are emitted side by side. -/
theorem emit_perm {outputs : List Text} (hn : outputs.Nodup)
    (hb : browserOutput ∈ outputs → builder.IgnoresArtifacts) (h : cs.Perm cs')
    (target : Option BuildTarget) :
    Parallel AlikeButArtifacts AlikeInOutline (ResultsAlike cs cs')
      (emit builder c ⟨outputs, target, cs⟩) (emit builder c ⟨outputs, target, cs'⟩) := by
  by_cases hk : browserOutput ∈ outputs
  · exact emit_parallel (emitsAlike_butArtifacts (hb hk)) (textsAlike_of_perm h) hn target
  · let idle : Builder := fun _ => pure { success := true }
    have hidle : idle.IgnoresArtifacts := fun _ =>
      (Parallel.pure rfl).mono (fun _ _ h => h.forget) le_rfl
    have hswap (ks : List Component) : emit builder c ⟨outputs, target, ks⟩ =
        emit idle c ⟨outputs, target, ks⟩ := emit_of_not_mem hk target
    rw [hswap, hswap]
    exact emit_parallel (emitsAlike_butArtifacts hidle) (textsAlike_of_perm h) hn target

end Emissions

end CustomElements
