import CustomElements.Proofs.Generation.Artifacts
import CustomElements.Proofs.Workspace.Parallel

/-!
# Emissions side by side

Two runs of one configuration that have made components write their outputs side by side. They
may have different components as long as their texts are alike; one relation holds of the two
workspaces until the builder is called, and another one from then on.
-/

namespace CustomElements

open CustomElements.Action

variable {R S W : Workspace → Workspace → Prop} {T : Text → Text → Prop}
variable {builder : Builder} {c : Configuration} {cs cs' : List Component}

/-- Artifacts of one kind with texts that are alike keep the relation `S`, and so do records. -/
structure WritesAlike (S : Workspace → Workspace → Prop) (T : Text → Text → Prop) : Prop where
  current : ∀ w v, S w v → w.current = v.current
  record : ∀ level logger message,
    Parallel S S Eq (Action.record level logger message) (Action.record level logger message)
  artifact : ∀ (d : Path) (name t t' : Text), name ∈ artifactFileNames.map Prod.snd → T t t' →
    Parallel S S Eq (writeArtifact (d.child name) t) (writeArtifact (d.child name) t')

/-- What keeps two emissions side by side: `R` holds until the builder is called, then `W`. -/
structure EmitsAlike (R W : Workspace → Workspace → Prop) (T : Text → Text → Prop)
    (builder : Builder) (c : Configuration) : Prop where
  le : R ≤ W
  before : WritesAlike R T
  after : WritesAlike W T
  resolve : ∀ p, Parallel R R Eq (c.resolve p) (c.resolve p)
  directory : ∀ target outDir,
    Parallel R R Eq (entryDirectory c target outDir) (entryDirectory c target outDir)
  build : ∀ request, Parallel R W Eq (builder request) (builder request)
  rename : ∀ outDir name, Parallel W W Eq (renameBundle outDir name) (renameBundle outDir name)

/-- All texts of two lists of components are alike. -/
structure TextsAlike (T : Text → Text → Prop) (c : Configuration) (cs cs' : List Component) :
    Prop where
  manifest : T (manifestText (some c.root) cs) (manifestText (some c.root) cs')
  types : T (typeDeclarations cs) (typeDeclarations cs')
  registration : ∀ current settings,
    T (registrationModule current settings cs) (registrationModule current settings cs')

/-- Two results that only the components tell apart. -/
def ResultsAlike (cs cs' : List Component) (r r' : GenerationResult) : Prop :=
  r.components = cs ∧ r' = { r with components := cs' }

theorem writeRegistration_parallel (h : WritesAlike S T) (ht : TextsAlike T c cs cs')
    (mode : RegistrationMode) (d : Path) {name : Text}
    (hname : name ∈ artifactFileNames.map Prod.snd) :
    Parallel S S Eq (writeRegistration c mode (d.child name) cs)
      (writeRegistration c mode (d.child name) cs') := by
  refine Parallel.get_bind fun w v hw => ?_
  rw [h.current w v hw]
  exact h.artifact d name _ _ hname (ht.registration _ _)

theorem runBuild_parallel (h : EmitsAlike R W T builder c) (target : BuildTarget)
    (entry outDir : Path) :
    Parallel R W Eq (runBuild builder c target entry outDir)
      (runBuild builder c target entry outDir) := by
  refine (h.before.record _ _ _).bind h.le fun _ _ _ => ?_
  refine (h.build _).bind le_rfl fun build _ hbuild => ?_
  subst hbuild
  split
  · exact (h.after.record _ _ _).andThen_eq fun _ => Parallel.pure rfl
  · split
    · exact (h.rename _ _).andThen_eq fun _ => Parallel.pure rfl
    · exact (h.after.record _ _ _).andThen_eq fun _ => Parallel.pure rfl

/-- An output that is no bundle needs no builder, so it keeps the relation that holds. -/
theorem writeOutput_parallel {kind : Text} (hk : kind ≠ browserOutput) (h : WritesAlike S T)
    (ht : TextsAlike T c cs cs') (target : Option BuildTarget) (outDir : Path)
    {r r' : GenerationResult} (hr : ResultsAlike cs cs' r r') :
    Parallel S S (ResultsAlike cs cs') (writeOutput builder c target outDir r kind)
      (writeOutput builder c target outDir r' kind) := by
  obtain ⟨rfl, rfl⟩ := hr
  unfold writeOutput
  rw [if_neg hk, if_neg hk]
  split
  · refine (writeRegistration_parallel h ht _ _ (by decide)).andThen_eq fun path => ?_
    exact Parallel.pure ⟨rfl, rfl⟩
  · exact Parallel.pure ⟨rfl, rfl⟩

theorem writeOutput_browser_parallel (h : EmitsAlike R W T builder c)
    (ht : TextsAlike T c cs cs') (target : Option BuildTarget) (outDir : Path)
    {r r' : GenerationResult} (hr : ResultsAlike cs cs' r r') :
    Parallel R W (ResultsAlike cs cs') (writeOutput builder c target outDir r browserOutput)
      (writeOutput builder c target outDir r' browserOutput) := by
  have hkind : browserOutput ≠ moduleOutput := by decide
  obtain ⟨rfl, rfl⟩ := hr
  unfold writeOutput
  rw [if_neg hkind, if_neg hkind, if_pos rfl, if_pos rfl]
  cases target with
  | none => exact (Parallel.pure ⟨rfl, rfl⟩).mono h.le le_rfl
  | some target =>
    refine (h.directory _ _).bind h.le fun directory _ hdirectory => ?_
    subst hdirectory
    refine (writeRegistration_parallel h.before ht _ _ (by decide)).bind h.le
      fun entry _ hentry => ?_
    subst hentry
    refine (runBuild_parallel h _ _ _).bind le_rfl fun built _ hbuilt => ?_
    subst hbuilt
    exact Parallel.pure ⟨rfl, rfl⟩

/-- The loop over outputs without a bundle keeps the relation that holds. -/
theorem foldlM_writeOutput_parallel {kinds : List Text} (hk : browserOutput ∉ kinds)
    (h : WritesAlike S T) (ht : TextsAlike T c cs cs') (target : Option BuildTarget)
    (outDir : Path) {r r' : GenerationResult} (hr : ResultsAlike cs cs' r r') :
    Parallel S S (ResultsAlike cs cs') (kinds.foldlM (writeOutput builder c target outDir) r)
      (kinds.foldlM (writeOutput builder c target outDir) r') := by
  induction kinds generalizing r r' with
  | nil => exact Parallel.pure hr
  | cons kind kinds ih =>
    rw [List.mem_cons, not_or] at hk
    rw [List.foldlM_cons, List.foldlM_cons]
    refine (writeOutput_parallel (Ne.symm hk.1) h ht target outDir hr).andThen fun s s' hs => ?_
    exact ih hk.2 hs

/-- In a loop that has a bundle once, the relation changes at the bundle. -/
theorem foldlM_writeOutput_browser_parallel {kinds : List Text} (hn : kinds.Nodup)
    (h : EmitsAlike R W T builder c) (ht : TextsAlike T c cs cs') (target : Option BuildTarget)
    (outDir : Path) {r r' : GenerationResult} (hr : ResultsAlike cs cs' r r') :
    Parallel R W (ResultsAlike cs cs') (kinds.foldlM (writeOutput builder c target outDir) r)
      (kinds.foldlM (writeOutput builder c target outDir) r') := by
  induction kinds generalizing r r' with
  | nil => exact (Parallel.pure hr).mono h.le le_rfl
  | cons kind kinds ih =>
    rw [List.nodup_cons] at hn
    rw [List.foldlM_cons, List.foldlM_cons]
    by_cases hk : kind = browserOutput
    · subst hk
      refine (writeOutput_browser_parallel h ht target outDir hr).bind le_rfl fun s s' hs => ?_
      exact foldlM_writeOutput_parallel hn.1 h.after ht target outDir hs
    · refine (writeOutput_parallel hk h.before ht target outDir hr).bind h.le fun s s' hs => ?_
      exact ih hn.2 hs

/-- Two emissions for components with texts that are alike have results that only the components
tell apart, or fail in the same way. -/
theorem emit_parallel (h : EmitsAlike R W T builder c) (ht : TextsAlike T c cs cs')
    {outputs : List Text} (hn : outputs.Nodup) (target : Option BuildTarget) :
    Parallel R W (ResultsAlike cs cs') (emit builder c ⟨outputs, target, cs⟩)
      (emit builder c ⟨outputs, target, cs'⟩) := by
  refine (h.resolve _).bind h.le fun outDir _ hout => ?_
  subst hout
  refine (h.before.artifact _ _ _ _ (by decide) ht.manifest).bind h.le
    fun manifestPath _ hpath => ?_
  subst hpath
  refine (h.before.artifact _ _ _ _ (by decide) ht.types).bind h.le fun typesPath _ hpath => ?_
  subst hpath
  have hloop := foldlM_writeOutput_browser_parallel hn h ht target outDir (r := {
    components := cs
    artifacts := [(manifestOutput, manifestPath), ("types", typesPath)] }) ⟨rfl, rfl⟩
  refine hloop.bind le_rfl fun r r' hr => ?_
  obtain ⟨rfl, rfl⟩ := hr
  exact (h.after.record _ _ _).andThen_eq fun _ => Parallel.pure ⟨rfl, rfl⟩

end CustomElements
