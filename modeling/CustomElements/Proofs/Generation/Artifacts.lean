import Mathlib.Data.List.Nodup
import CustomElements.Generation
import CustomElements.Proofs.Answers
import CustomElements.Proofs.FirstMatch
import CustomElements.Proofs.Workspace.Storing

/-!
# The artifacts of a run

Every run writes the manifest and the types, and then one artifact for each other kind of output it
is asked for. Each kind has a file name of its own, so the artifacts of different kinds are at
different places, in whatever directories they are.
-/

namespace CustomElements

open CustomElements.Action Workspace

/-- The kind of the artifact with the types, which need not be asked for. -/
def typesOutput : Text := "types"

/-- The file names of all kinds of artifacts. -/
def artifactFileNames : List (Text × Text) :=
  [(manifestOutput, manifestFileName), (typesOutput, typesFileName),
    (moduleOutput, moduleFileName), (browserOutput, browserEntryFileName)]

/-- The file name of the artifact of a kind. -/
def artifactFileName (kind : Text) : Text := (artifactFileNames.lookup kind).getD []

/-- The kinds of artifacts that are written when outputs of these kinds are asked for, besides the
manifest and the types. -/
def furtherKinds (kinds : List Text) : List Text := kinds.filter fun kind => kind ≠ manifestOutput

/-- The kinds of the artifacts of a run, in the order in which they are written. -/
def artifactKinds (c : Configuration) : List Text :=
  manifestOutput :: typesOutput :: furtherKinds c.outputs.eraseDups

/-- What a registration module at this path is made for. -/
def Configuration.registration (c : Configuration) (mode : RegistrationMode) (path : Path) :
    RegistrationSettings where
  mode := mode
  directory := path.parent
  importExtension := c.importExtension
  inlineComponents := c.inlineComponents.getD (decide (mode = .browser))

/-- What the artifacts of a run are made from. -/
structure Emission where
  configuration : Configuration
  components : List Component
  outDir : Path
  /-- The directory of the entry module of a bundle. -/
  entryDir : Path

namespace Emission

/-- The path of the artifact of a kind. Only the entry module of a bundle has its own directory. -/
def path (e : Emission) (kind : Text) : Path :=
  (if kind = browserOutput then e.entryDir else e.outDir).child (artifactFileName kind)

/-- The text of the artifact of a kind, written with this current directory. -/
def text (e : Emission) (current : Path) (kind : Text) : Text :=
  if kind = manifestOutput then manifestText (some e.configuration.root) e.components
  else if kind = typesOutput then typeDeclarations e.components
  else
    let mode := if kind = browserOutput then RegistrationMode.browser else .module
    registrationModule current (e.configuration.registration mode (e.path kind)) e.components

/-- The artifacts of these kinds, as a run lists them. -/
def artifacts (e : Emission) (kinds : List Text) : List (Text × Path) :=
  kinds.map fun kind => (kind, e.path kind)

/-- Writing the artifacts of these kinds, in this order, makes the second workspace of the first. -/
def Stores (e : Emission) (w : Workspace) (kinds : List Text) (w' : Workspace) : Prop :=
  Stored w (kinds.map fun kind => (e.path kind, e.text w.current kind)) w'

end Emission

section Kinds

variable {chosen kinds outputs : List Text} {kind kind' : Text} {c : Configuration}

/-- Asking for outputs keeps the first of each kind, and each kind must be a supported one. -/
theorem requestedOutputs_eq_ok : requestedOutputs chosen kinds = .ok outputs ↔
    (∀ kind ∈ kinds, kind ∈ supportedOutputs) ∧
      outputs = chosen ++ (kinds.filter fun kind => !chosen.contains kind).eraseDups := by
  induction kinds generalizing chosen with
  | nil => simp [requestedOutputs, eq_comm]
  | cons kind kinds ih =>
    rw [requestedOutputs, List.forall_mem_cons]
    by_cases hs : kind ∈ supportedOutputs
    · rw [if_neg (by simpa using hs), ih, eraseDups_kept, and_iff_right hs]
    · rw [if_pos (by simpa using hs)]
      exact ⟨(nomatch ·), fun h => absurd h.1.1 hs⟩

theorem known_of_supported (hk : kind ∈ supportedOutputs) :
    kind ∈ artifactFileNames.map Prod.fst := by
  have hknown : ∀ kind ∈ supportedOutputs, kind ∈ artifactFileNames.map Prod.fst := by decide
  exact hknown kind hk

theorem known_of_mem_furtherKinds (hs : ∀ kind ∈ kinds, kind ∈ supportedOutputs)
    (hk : kind ∈ furtherKinds kinds) : kind ∈ artifactFileNames.map Prod.fst :=
  known_of_supported (hs kind (List.mem_of_mem_filter hk))

theorem known_of_mem_artifactKinds (hs : ∀ kind ∈ c.outputs, kind ∈ supportedOutputs)
    (hk : kind ∈ artifactKinds c) : kind ∈ artifactFileNames.map Prod.fst := by
  rcases List.mem_cons.1 hk with rfl | hk
  · decide
  · rcases List.mem_cons.1 hk with rfl | hk
    · decide
    · exact known_of_mem_furtherKinds (fun k hk => hs k (List.mem_eraseDups.1 hk)) hk

theorem nodup_artifactKinds (hs : ∀ kind ∈ c.outputs, kind ∈ supportedOutputs) :
    (artifactKinds c).Nodup := by
  have htypes : typesOutput ∉ supportedOutputs := by decide
  rw [artifactKinds, List.nodup_cons, List.nodup_cons]
  refine ⟨?_, ?_, (nodup_eraseDups c.outputs).filter _⟩
  · rw [List.mem_cons, not_or]
    exact ⟨by decide, by simp [furtherKinds]⟩
  · intro hm
    exact htypes (hs _ (List.mem_eraseDups.1 (List.mem_of_mem_filter hm)))

theorem furtherKinds_split (ks ks' : List Text) :
    furtherKinds (ks ++ browserOutput :: ks') =
      furtherKinds ks ++ browserOutput :: furtherKinds ks' := by
  have hkind : browserOutput ≠ manifestOutput := by decide
  rw [furtherKinds, List.filter_append, List.filter_cons_of_pos (by simpa using hkind)]
  rfl

/-- The outputs before a bundle and after it are no bundles. -/
theorem outputs_split {ks ks' : List Text} (hs : ∀ kind ∈ c.outputs, kind ∈ supportedOutputs)
    (hsplit : c.outputs.eraseDups = ks ++ browserOutput :: ks') :
    (∀ kind ∈ ks, kind ∈ supportedOutputs) ∧ (∀ kind ∈ ks', kind ∈ supportedOutputs) ∧
      (browserOutput ∉ ks ∧ ks.Nodup) ∧ browserOutput ∉ ks' ∧ ks'.Nodup := by
  have hmem : ∀ kind ∈ ks ++ browserOutput :: ks', kind ∈ supportedOutputs := fun kind hk =>
    hs kind (List.mem_eraseDups.1 (hsplit ▸ hk))
  have hnodup : (ks ++ browserOutput :: ks').Nodup := hsplit ▸ nodup_eraseDups c.outputs
  rw [List.forall_mem_append, List.forall_mem_cons] at hmem
  obtain ⟨hks, htail, hapart⟩ := List.nodup_append.1 hnodup
  have hnot : browserOutput ∉ ks := fun hm => hapart _ hm _ List.mem_cons_self rfl
  exact ⟨hmem.1, hmem.2.2, ⟨hnot, hks⟩, List.nodup_cons.1 htail⟩

/-- The outputs of a run with a bundle are those before it, the bundle and those after it. -/
theorem exists_outputs_split (hs : ∀ kind ∈ c.outputs, kind ∈ supportedOutputs)
    (hb : browserOutput ∈ c.outputs) :
    ∃ ks ks', c.outputs.eraseDups = ks ++ browserOutput :: ks' ∧
      (∀ kind ∈ ks, kind ∈ supportedOutputs) ∧ (∀ kind ∈ ks', kind ∈ supportedOutputs) ∧
      (browserOutput ∉ ks ∧ ks.Nodup) ∧ browserOutput ∉ ks' ∧ ks'.Nodup := by
  obtain ⟨ks, ks', hsplit⟩ := List.append_of_mem (List.mem_eraseDups.2 hb)
  exact ⟨ks, ks', hsplit, outputs_split hs hsplit⟩

/-- The kinds of the artifacts up to the bundle are known and different. -/
theorem artifactKinds_split {ks ks' : List Text}
    (hs : ∀ kind ∈ c.outputs, kind ∈ supportedOutputs)
    (hsplit : c.outputs.eraseDups = ks ++ browserOutput :: ks') :
    let kinds := [manifestOutput, typesOutput] ++ furtherKinds ks
    artifactKinds c = kinds ++ browserOutput :: furtherKinds ks' ∧
      (∀ kind ∈ kinds ++ [browserOutput], kind ∈ artifactFileNames.map Prod.fst) ∧
      (kinds ++ [browserOutput]).Nodup := by
  intro kinds
  have hkinds : artifactKinds c = kinds ++ browserOutput :: furtherKinds ks' := by
    rw [artifactKinds, hsplit, furtherKinds_split]
    rfl
  have hfirst : kinds ++ [browserOutput] <+: artifactKinds c := ⟨furtherKinds ks', by simp [hkinds]⟩
  exact ⟨hkinds, fun k hk => known_of_mem_artifactKinds hs (hfirst.subset hk),
    hfirst.sublist.nodup (nodup_artifactKinds hs)⟩

/-- Different kinds have different file names. -/
theorem artifactFileName_inj (hk : kind ∈ artifactFileNames.map Prod.fst)
    (hk' : kind' ∈ artifactFileNames.map Prod.fst)
    (h : artifactFileName kind = artifactFileName kind') : kind = kind' := by
  have hnames : ∀ k ∈ artifactFileNames.map Prod.fst, ∀ k' ∈ artifactFileNames.map Prod.fst,
      artifactFileName k = artifactFileName k' → k = k' := by decide
  exact hnames kind hk kind' hk' h

/-- The last name of the place of an entry is that of the entry. -/
theorem getLast?_placeOf (w : Workspace) (d : Path) {name : Text} (hn : name ≠ "..") :
    (w.placeOf (d.child name)).getLast? = some name := by
  rw [placeOf_child hn, List.getLast?_concat]

end Kinds

namespace Emission

variable {e : Emission} {kinds kinds' : List Text} {kind kind' : Text} {w v w' : Workspace}

/-- The artifacts of different kinds are at different places. -/
theorem placeOf_path_ne (w : Workspace) (hk : kind ∈ artifactFileNames.map Prod.fst)
    (hk' : kind' ∈ artifactFileNames.map Prod.fst) (h : kind ≠ kind') :
    w.placeOf (e.path kind) ≠ w.placeOf (e.path kind') := by
  have hdots : ∀ k ∈ artifactFileNames.map Prod.fst, artifactFileName k ≠ ".." := by decide
  intro hplace
  have hlast := congrArg List.getLast? hplace
  rw [path, path, getLast?_placeOf w _ (hdots kind hk),
    getLast?_placeOf w _ (hdots kind' hk')] at hlast
  exact h (artifactFileName_inj hk hk' (Option.some.inj hlast))

theorem nodup_paths (e : Emission) (hknown : ∀ kind ∈ kinds, kind ∈ artifactFileNames.map Prod.fst)
    (hn : kinds.Nodup) : (kinds.map e.path).Nodup := by
  refine List.Nodup.map_on (fun kind hk kind' hk' hpath => ?_) hn
  by_contra hne
  exact placeOf_path_ne .bare (hknown kind hk) (hknown kind' hk') hne
    (congrArg (placeOf .bare) hpath)

theorem Stores.append (h : e.Stores w kinds v) (h' : e.Stores v kinds' w')
    (hknown : ∀ kind ∈ kinds ++ kinds', kind ∈ artifactFileNames.map Prod.fst)
    (hn : (kinds ++ kinds').Nodup) : e.Stores w (kinds ++ kinds') w' := by
  rw [Stores, h.current] at h'
  rw [Stores, List.map_append]
  refine Stored.append h h' ?_
  simp only [List.forall_mem_map]
  intro kind hk kind' hk'
  exact placeOf_path_ne w (hknown kind (List.mem_append_left _ hk))
    (hknown kind' (List.mem_append_right _ hk')) fun heq =>
      (List.nodup_append.1 hn).2.2 kind hk kind' hk' heq

theorem Stores.written (h : e.Stores w kinds w') :
    w'.written = w.written ++ (e.artifacts kinds).map Prod.snd := by
  rw [Stored.written h, artifacts, List.map_map, List.map_map]
  rfl

/-- Looking around before the artifacts are written makes no difference. -/
theorem Stores.of_undisturbed (h : Undisturbed w v) (h' : e.Stores v kinds w') :
    e.Stores w kinds w' := by
  rw [Stores, h.stored.current] at h'
  exact h.then_stored h'

end Emission

/-- A result with further artifacts. -/
def GenerationResult.add (r : GenerationResult) (as : List (Text × Path)) : GenerationResult :=
  { r with artifacts := r.artifacts ++ as }

theorem GenerationResult.add_nil (r : GenerationResult) : r.add [] = r := by
  rw [add, List.append_nil]

theorem GenerationResult.add_add (r : GenerationResult) (as bs : List (Text × Path)) :
    (r.add as).add bs = r.add (as ++ bs) := by
  rw [add, add, add, List.append_assoc]

section Writing

variable {builder other : Builder} {c : Configuration} {target : Option BuildTarget}
variable {outDir : Path} {e : Emission} {result r : GenerationResult} {kind : Text}
variable {kinds : List Text} {w w' : Workspace}

theorem writeRegistration_stored {mode : RegistrationMode} {p q : Path} {cs : List Component}
    (h : (writeRegistration c mode p cs).outcome w = (.ok q, w')) :
    q = p ∧ Stored w [(p, registrationModule w.current (c.registration mode p) cs)] w' := by
  rw [writeRegistration, outcome_get_bind] at h
  exact writeArtifact_stored h

/-- Only the browser bundle needs a builder. -/
theorem writeOutput_of_ne (hk : kind ≠ browserOutput) :
    writeOutput builder c target outDir result kind =
      writeOutput other c target outDir result kind := by
  unfold writeOutput
  rw [if_neg hk, if_neg hk]

theorem foldlM_writeOutput_of_not_mem (hk : browserOutput ∉ kinds) :
    kinds.foldlM (writeOutput builder c target outDir) result =
      kinds.foldlM (writeOutput other c target outDir) result := by
  induction kinds generalizing result with
  | nil => rfl
  | cons kind kinds ih =>
    rw [List.mem_cons, not_or] at hk
    rw [List.foldlM_cons, List.foldlM_cons, writeOutput_of_ne (Ne.symm hk.1)]
    exact congrArg _ (funext fun result => ih hk.2)

/-- An output that is no bundle. -/
theorem writeOutput_stored (hk : kind ∈ supportedOutputs) (hb : kind ≠ browserOutput)
    (hcs : result.components = e.components)
    (h : (writeOutput builder e.configuration target e.outDir result kind).outcome w =
      (.ok r, w')) :
    r = result.add (e.artifacts (furtherKinds [kind])) ∧ e.Stores w (furtherKinds [kind]) w' := by
  have hkinds : kind = manifestOutput ∨ kind = moduleOutput := by
    rcases List.mem_cons.1 hk with hk | hk
    · exact .inl hk
    · rcases List.mem_cons.1 hk with hk | hk
      · exact .inr hk
      · exact absurd (List.mem_singleton.1 hk) hb
  rcases hkinds with rfl | rfl
  · cases h
    exact ⟨result.add_nil.symm, (Std.Refl.refl w : Undisturbed w w).stored⟩
  · obtain ⟨p, v, hwrite, hend⟩ := outcome_bind_eq_ok.1 h
    obtain ⟨rfl, hstored⟩ := writeRegistration_stored hwrite
    rw [hcs] at hstored
    cases hend
    exact ⟨rfl, hstored⟩

/-- The loop over outputs without a bundle adds their artifacts. -/
theorem foldlM_writeOutput_stored (hk : ∀ kind ∈ kinds, kind ∈ supportedOutputs)
    (hb : browserOutput ∉ kinds) (hn : kinds.Nodup) (hcs : result.components = e.components)
    (h : (kinds.foldlM (writeOutput builder e.configuration target e.outDir) result).outcome w =
      (.ok r, w')) :
    r = result.add (e.artifacts (furtherKinds kinds)) ∧ e.Stores w (furtherKinds kinds) w' := by
  induction kinds generalizing result w with
  | nil =>
    cases h
    exact ⟨r.add_nil.symm, (Std.Refl.refl w' : Undisturbed w' w').stored⟩
  | cons kind kinds ih =>
    have hsplit : furtherKinds (kind :: kinds) = furtherKinds [kind] ++ furtherKinds kinds :=
      List.filter_append [kind] kinds
    have hsupported := List.forall_mem_cons.1 hk
    rw [List.mem_cons, not_or] at hb
    rw [List.foldlM_cons] at h
    obtain ⟨s, v, hfirst, hrest⟩ := outcome_bind_eq_ok.1 h
    obtain ⟨rfl, hstored⟩ := writeOutput_stored hsupported.1 (Ne.symm hb.1) hcs hfirst
    have hcs' : (result.add (e.artifacts (furtherKinds [kind]))).components = e.components := hcs
    obtain ⟨rfl, hstored'⟩ := ih hsupported.2 hb.2 hn.of_cons hcs' hrest
    have hknown : ∀ k ∈ furtherKinds [kind] ++ furtherKinds kinds,
        k ∈ artifactFileNames.map Prod.fst := fun k hkind =>
      known_of_mem_furtherKinds hk (hsplit ▸ hkind)
    have hnodup : (furtherKinds [kind] ++ furtherKinds kinds).Nodup := hsplit ▸ hn.filter _
    rw [GenerationResult.add_add, hsplit, Emission.artifacts, Emission.artifacts,
      Emission.artifacts, List.map_append]
    exact ⟨rfl, hstored.append hstored' hknown hnodup⟩

end Writing

end CustomElements
