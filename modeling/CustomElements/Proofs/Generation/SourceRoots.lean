import CustomElements.Proofs.Generation.Course
import CustomElements.Proofs.Json.LongIntegers
import CustomElements.Proofs.Json.PlainReading
import CustomElements.Proofs.Output.StoreCalls
import CustomElements.Proofs.Workspace.Reports

/-!
# Source roots of builds

The workspace file of a build is looked up when the first artifacts of a run are written. Whatever
is in the way of the file and whatever it says, there is a source root, if only the usual one. But
bytes that are no text and an integer with too many digits end the lookup with a fault, and the run
with it.
-/

namespace CustomElements

open CustomElements.Action Workspace

/-! ### What a workspace file says -/

namespace Json

/-- What a row of keys leads to, each of them in an object. Of repeated keys the last one counts. -/
inductive Leads : Json → List Text → Json → Prop where
  | here {j : Json} : Leads j [] j
  | member {before after : List (Text × Json)} {key : Text} {v x : Json} {keys : List Text}
      (last : ∀ m ∈ after, m.1 ≠ key) (inside : Leads v keys x) :
      Leads (.object (before ++ (key, v) :: after)) (key :: keys) x

variable {j v x : Json} {key : Text} {keys : List Text}

theorem member?_eq_some : j.member? key = some v ↔ ∃ before after,
    j = .object (before ++ (key, v) :: after) ∧ ∀ m ∈ after, m.1 ≠ key := by
  cases j with
  | object ms =>
    rw [member?, Option.map_eq_some_iff]
    constructor
    · rintro ⟨⟨_, _⟩, hfind, rfl⟩
      obtain ⟨hkey, after, before, hms, hlast⟩ := List.find?_eq_some_iff_append.1 hfind
      obtain rfl := of_decide_eq_true hkey
      refine ⟨before.reverse, after.reverse, ?_, fun m hm heq => ?_⟩
      · rw [← List.reverse_reverse ms, hms, List.reverse_append, List.reverse_cons,
          List.append_assoc, List.singleton_append]
      · have hne := hlast m (List.mem_reverse.1 hm)
        simp [heq] at hne
    · rintro ⟨before, after, hj, hlast⟩
      obtain rfl := Json.object.inj hj
      refine ⟨(key, v), List.find?_eq_some_iff_append.2 ⟨by simp, after.reverse, before.reverse, ?_,
        fun m hm => ?_⟩, rfl⟩
      · rw [List.reverse_append, List.reverse_cons, List.append_assoc, List.singleton_append]
      · simpa using hlast m (List.mem_reverse.1 hm)
  | _ => exact iff_of_false nofun fun ⟨_, _, h, _⟩ => nomatch h

theorem leads_nil : Leads j [] x ↔ x = j :=
  ⟨fun h => by cases h; rfl, fun h => h ▸ .here⟩

theorem leads_cons : Leads j (key :: keys) x ↔ ∃ v, j.member? key = some v ∧ Leads v keys x := by
  constructor
  · intro h
    cases h with
    | member last inside => exact ⟨_, member?_eq_some.2 ⟨_, _, rfl, last⟩, inside⟩
  · rintro ⟨v, h, inside⟩
    obtain ⟨before, after, rfl, last⟩ := member?_eq_some.1 h
    exact .member last inside

end Json

/-- The source root that a workspace file gives a project: a text that is not empty. -/
def GivesSourceRoot (data : Json) (project t : Text) : Prop :=
  t ≠ [] ∧ data.Leads ["projects", project, "sourceRoot"] (.string t)

theorem sourceRootIn_eq {data : Json} {project t : Text} : sourceRootIn data project = t ↔
    GivesSourceRoot data project t ∨
      t = defaultSourceRoot ∧ ∀ t', ¬GivesSourceRoot data project t' := by
  have hgives (t : Text) : GivesSourceRoot data project t ↔ t ≠ [] ∧
      (((data.member? "projects").bind (Json.member? project)).bind
        (Json.member? "sourceRoot")) = some (.string t) := by
    simp only [GivesSourceRoot, Json.leads_cons, Json.leads_nil, Option.bind_eq_some_iff]
    grind
  unfold sourceRootIn
  simp only [hgives]
  cases ((data.member? "projects").bind (Json.member? project)).bind
    (Json.member? "sourceRoot") with
  | none => simp [eq_comm]
  | some v =>
    cases v with
    | string u => cases u <;> grind
    | _ => simp [eq_comm]

/-! ### The lookup -/

namespace Workspace

variable {w : Workspace} {file root : Path} {project t : Text} {f : Fault} {cs : List Char}

/-- What ends the lookup of a source root: a path that no file can have, or what a workspace file
holds. -/
inductive LookupFails (w : Workspace) (file : Path) : Fault → Prop where
  | path {f : Fault} (lost : w.place file = .error f) : LookupFails w file f
  | noText {content : Bytes} (held : w.read file = .ok content) (bytes : content.chars? = none) :
      LookupFails w file .undecodable
  | digits {cs : List Char} (held : w.readText file = .ok cs)
      (long : Json.parse (.ofChars cs) = .error .tooManyDigits) : LookupFails w file .badValue

/-- The workspace file is a text in JSON that gives the project this source root. -/
def LeadsToSources (w : Workspace) (file : Path) (project t : Text) : Prop :=
  ∃ cs data, w.readText file = .ok cs ∧ Json.parse (.ofChars cs) = .ok data ∧
    GivesSourceRoot data project t

/-- A text cannot be read if its bytes cannot be read or are no text. -/
theorem readText_eq_error : w.readText file = .error f ↔ w.read file = .error f ∨
    f = .undecodable ∧ ∃ content, w.read file = .ok content ∧ content.chars? = none := by
  rw [readText, exceptBind_eq_error]
  refine or_congr_right ?_
  constructor
  · rintro ⟨content, hread, h⟩
    split at h
    · cases h
    · next hnone =>
      cases h
      exact ⟨rfl, content, hread, hnone⟩
  · rintro ⟨rfl, content, hread, hnone⟩
    refine ⟨content, hread, ?_⟩
    rw [hnone]
    rfl

/-- A file whose path is one cannot be read if something in the file tree is in the way. -/
theorem read_eq_error (h : w.read file = .error f) : w.place file = .error f ∨
    (∃ parts, w.place file = .ok parts) ∧ f.isOfTree := by
  rcases exceptBind_eq_error.1 h with hplace | ⟨parts, hplace, h⟩
  · exact .inl hplace
  · exact .inr ⟨⟨parts, hplace⟩, FileTree.isOfTree_of_read h⟩

theorem place_eq_error (h : w.place file = .error f) : f = .unencodable ∨ f = .badValue := by
  unfold place at h
  dsimp only at h
  split at h
  · exact .inl (Except.error.inj h).symm
  · split at h
    · exact .inr (Except.error.inj h).symm
    · cases h

theorem leadsToSources_iff {data : Json} (held : w.readText file = .ok cs)
    (written : Json.parse (.ofChars cs) = .ok data) :
    LeadsToSources w file project t ↔ GivesSourceRoot data project t := by
  constructor
  · rintro ⟨cs', data', held', written', gives⟩
    obtain rfl := Except.ok.inj (held.symm.trans held')
    obtain rfl := Except.ok.inj (written.symm.trans written')
    exact gives
  · exact fun gives => ⟨cs, data, held, written, gives⟩

/-- The source root of a project as far as the workspace file goes. -/
def IsSourceRoot (w : Workspace) (file : Path) (project t : Text) : Prop :=
  LeadsToSources w file project t ∨
    t = defaultSourceRoot ∧ ∀ t', ¬LeadsToSources w file project t'

/-- A file that is no text in JSON leaves the usual source root. -/
theorem isSourceRoot_default (h : ∀ cs data, w.readText file = .ok cs →
    Json.parse (.ofChars cs) ≠ .ok data) : w.IsSourceRoot file project defaultSourceRoot :=
  .inr ⟨rfl, fun _ ⟨cs, data, held, written, _⟩ => h cs data held written⟩

/-- A file that is a text is at fault only for an integer in it. -/
theorem lookupFails_iff (held : w.readText file = .ok cs) :
    (∃ f, w.LookupFails file f) ↔ Json.parse (.ofChars cs) = .error .tooManyDigits := by
  constructor
  · rintro ⟨f, lost | ⟨read, bytes⟩ | ⟨held', long⟩⟩
    · have herror := readText_eq_error.2 (.inl (exceptBind_eq_error.2 (.inl lost)))
      cases held.symm.trans herror
    · have herror := readText_eq_error.2 (.inr ⟨rfl, _, read, bytes⟩)
      cases held.symm.trans herror
    · exact Except.ok.inj (held'.symm.trans held) ▸ long
  · exact fun long => ⟨_, .digits held long⟩

theorem LookupFails.outcome (h : w.LookupFails (root.child workspaceFileName) f) :
    (sourceRoot root project).outcome w = (.error (.fault f), w) := by
  rw [sourceRoot, outcome_get_bind]
  cases h with
  | path lost =>
    have hread : w.readText (root.child workspaceFileName) = .error f :=
      readText_eq_error.2 (.inl (exceptBind_eq_error.2 (.inl lost)))
    rw [hread]
    rcases place_eq_error lost with rfl | rfl <;> rfl
  | noText held bytes =>
    rw [readText_eq_error.2 (.inr ⟨rfl, _, held, bytes⟩)]
    rfl
  | digits held long =>
    rw [held]
    dsimp only
    rw [long]
    rfl

/-- Whatever else is in the way of a workspace file or in it, there is a source root. -/
theorem sourceRoot_found (h : ∀ f, ¬w.LookupFails (root.child workspaceFileName) f)
    (project : Text) : ∃ t v, w.IsSourceRoot (root.child workspaceFileName) project t ∧
      w.Reported v ∧ (sourceRoot root project).outcome w = (.ok t, v) := by
  rw [sourceRoot, outcome_get_bind]
  cases hread : w.readText (root.child workspaceFileName) with
  | error f =>
    have hnone : w.IsSourceRoot (root.child workspaceFileName) project defaultSourceRoot :=
      isSourceRoot_default fun cs data held => by rw [hread] at held; cases held
    have htree : f.isOfTree := by
      rcases readText_eq_error.1 hread with hread | ⟨rfl, content, held, bytes⟩
      · rcases read_eq_error hread with lost | ⟨-, htree⟩
        · exact absurd (.path lost) (h f)
        · exact htree
      · exact absurd (.noText held bytes) (h _)
    cases f with
    | noSuchFile => exact ⟨_, w, hnone, Std.Refl.refl w, rfl⟩
    | fileExists | isDirectory | notDirectory => exact ⟨_, _, hnone, ⟨[_], rfl⟩, rfl⟩
    | _ => cases htree
  | ok cs =>
    dsimp only
    cases hdata : Json.parse (.ofChars cs) with
    | ok data =>
      refine ⟨sourceRootIn data project, w, ?_, Std.Refl.refl w, rfl⟩
      simp only [IsSourceRoot, leadsToSources_iff hread hdata]
      exact sourceRootIn_eq.1 rfl
    | error e =>
      cases e with
      | malformed =>
        have hnone : w.IsSourceRoot (root.child workspaceFileName) project defaultSourceRoot := by
          refine isSourceRoot_default fun cs' data held written => ?_
          obtain rfl := Except.ok.inj (hread.symm.trans held)
          cases hdata.symm.trans written
        exact ⟨_, _, hnone, ⟨[_], rfl⟩, rfl⟩
      | tooManyDigits => exact absurd (.digits hread hdata) (h _)

theorem LeadsToSources.unique {t' : Text} (h : w.LeadsToSources file project t)
    (h' : w.LeadsToSources file project t') : t = t' := by
  obtain ⟨cs, data, held, written, gives⟩ := h
  have gives' := (leadsToSources_iff held written).1 h'
  exact (sourceRootIn_eq.2 (.inl gives)).symm.trans (sourceRootIn_eq.2 (.inl gives'))

theorem IsSourceRoot.unique {t' : Text} (h : w.IsSourceRoot file project t)
    (h' : w.IsSourceRoot file project t') : t = t' := by
  rcases h with h | ⟨rfl, hnone⟩
  · rcases h' with h' | ⟨rfl, hnone⟩
    · exact h.unique h'
    · exact absurd h (hnone t)
  · rcases h' with h' | ⟨rfl, -⟩
    · exact absurd h' (hnone t')
    · rfl

theorem sourceRoot_eq_error {e : Failure} : ((sourceRoot root project).outcome w).1 = .error e ↔
    ∃ f, e = .fault f ∧ w.LookupFails (root.child workspaceFileName) f := by
  constructor
  · intro he
    by_contra hnone
    have hfine (f : Fault) : ¬w.LookupFails (root.child workspaceFileName) f := by
      intro hf
      rw [hf.outcome] at he
      exact hnone ⟨f, (Except.error.inj he).symm, hf⟩
    obtain ⟨t, v, -, -, hend⟩ := sourceRoot_found hfine project
    rw [hend] at he
    cases he
  · rintro ⟨f, rfl, hf⟩
    rw [hf.outcome]

theorem sourceRoot_eq_ok : ((sourceRoot root project).outcome w).1 = .ok t ↔
    (∀ f, ¬w.LookupFails (root.child workspaceFileName) f) ∧
      w.IsSourceRoot (root.child workspaceFileName) project t := by
  constructor
  · intro ht
    have hfine (f : Fault) : ¬w.LookupFails (root.child workspaceFileName) f := by
      intro hf
      rw [hf.outcome] at ht
      cases ht
    obtain ⟨t', v, hroot, -, hend⟩ := sourceRoot_found hfine project
    rw [hend] at ht
    exact ⟨hfine, Except.ok.inj ht ▸ hroot⟩
  · rintro ⟨hfine, hroot⟩
    obtain ⟨t', v, hroot', -, hend⟩ := sourceRoot_found hfine project
    rw [hend, hroot.unique hroot']

end Workspace

/-! ### The run -/

section Run

variable {builder : Builder} {c : Configuration} {p : Preparation} {kinds kinds' : List Text}

/-- What a run writes before its bundle: the manifest, the types, and outputs of these kinds. -/
def writeBefore (builder : Builder) (c : Configuration) (p : Preparation) (outDir : Path)
    (kinds : List Text) : Action GenerationResult := do
  let manifestPath ← writeArtifact (outDir.child manifestFileName)
    (manifestText (some c.root) p.components)
  let typesPath ← writeArtifact (outDir.child typesFileName) (typeDeclarations p.components)
  kinds.foldlM (writeOutput builder c p.target outDir) {
    components := p.components
    artifacts := [(manifestOutput, manifestPath), (typesOutput, typesPath)] }

theorem emit_eq (h : p.outputs = kinds ++ kinds') : emit builder c p = (do
    let outDir ← c.resolvedOutDir
    let r ← writeBefore builder c p outDir kinds
    let r ← kinds'.foldlM (writeOutput builder c p.target outDir) r
    concludeRun outDir r) := by
  unfold emit writeBefore
  rw [h]
  simp only [List.foldlM_append, bind_assoc]
  rfl

/-- An artifact cannot be written in a directory that has no path. -/
theorem writeArtifact_of_lost {w : Workspace} {p : Path} {f : Fault}
    (h : w.place p.parent = .error f) (text : Text) :
    (writeArtifact p text).outcome w = (.error (.fault f), w) := by
  have hlook : (look fun w => w.place p.parent).outcome w = (.error (.fault f), w) := by
    rw [outcome_look, h]
    rfl
  exact outcome_bind_error (outcome_bind_error hlook _) _

/-- A run comes to its browser bundle in this workspace, with all that is written before, and it
makes the entry module among the sources of the build. -/
structure ComesToBundle (builder : Builder) (c : Configuration) (target : BuildTarget)
    (w₀ w : Workspace) (outDir : Path) : Prop where
  comes : ∃ p u kinds kinds' r, (prepare c).outcome w₀ = (.ok p, u) ∧ p.target = some target ∧
    p.outputs = kinds ++ browserOutput :: kinds' ∧
    u.resolveFrom c.root (c.outDir.getD "dist") = .ok outDir ∧
    (writeBefore builder c p outDir kinds).outcome u = (.ok r, w)
  noDirectory : c.build.entryDir = none
  there : w.isFile (c.root.child workspaceFileName)

namespace ComesToBundle

variable {target : BuildTarget} {w₀ w v : Workspace} {outDir : Path} {f : Fault} {t : Text}

/-- What is written when a run comes to its bundle: at least the manifest and the types. -/
theorem stores (h : ComesToBundle builder c target w₀ w outDir) : ∃ cs kinds,
    Emission.Stores ⟨c, cs, outDir, outDir⟩ w₀
      (manifestOutput :: typesOutput :: furtherKinds kinds) w := by
  obtain ⟨p, u, kinds, kinds', r, hprepare, -, hsplit, -, hbefore⟩ := h.comes
  have hlooked : Undisturbed w₀ u := by
    have hleaves := (prepare_onlyLooks c).leaves w₀
    rwa [hprepare] at hleaves
  obtain ⟨hsupported, houtputs⟩ := (prepared_of_ok hprepare).outputs_eq
  rw [houtputs] at hsplit
  obtain ⟨hkinds, -, ⟨hnot, hnodup⟩, -⟩ := outputs_split hsupported hsplit
  obtain ⟨-, hknown, hdistinct⟩ := artifactKinds_split hsupported hsplit
  obtain ⟨mpath, u₁, hmanifest, h₁⟩ := outcome_bind_eq_ok.1 hbefore
  obtain ⟨tpath, u₂, htypes, hloop⟩ := outcome_bind_eq_ok.1 h₁
  obtain ⟨rfl, hstored₁⟩ := writeArtifact_stored hmanifest
  obtain ⟨rfl, hstored₂⟩ := writeArtifact_stored htypes
  let e : Emission := ⟨c, p.components, outDir, outDir⟩
  have hfirst : e.Stores w₀ [manifestOutput] u₁ := .of_undisturbed hlooked hstored₁
  have hsecond : e.Stores u₁ [typesOutput] u₂ := hstored₂
  obtain ⟨-, hfurther⟩ := @foldlM_writeOutput_stored builder p.target e _ r kinds u₂ w hkinds hnot
    hnodup rfl hloop
  have hbasic := hfirst.append hsecond (by decide) (by decide)
  exact ⟨p.components, kinds, hbasic.append hfurther
    (fun kind hk => hknown kind (List.mem_append_left _ hk)) (List.nodup_append.1 hdistinct).1⟩

/-- From there on the run writes the bundle. -/
theorem outcome (h : ComesToBundle builder c target w₀ w outDir) :
    ∃ (r : GenerationResult) (rest : GenerationResult → Action GenerationResult),
      (generate builder c).outcome w₀ =
        (writeOutput builder c (some target) outDir r browserOutput >>= rest).outcome w := by
  obtain ⟨p, u, kinds, kinds', r, hprepare, htarget, houtputs, hout, hbefore⟩ := h.comes
  have hresolve : c.resolvedOutDir.outcome u = (.ok outDir, u) :=
    outcome_look_eq_ok.2 ⟨hout, rfl⟩
  refine ⟨r, fun r => kinds'.foldlM (writeOutput builder c (some target) outDir) r >>=
    concludeRun outDir, ?_⟩
  rw [generate, outcome_bind_ok hprepare, emit_eq houtputs, outcome_bind_ok hresolve,
    outcome_bind_ok hbefore, List.foldlM_cons, bind_assoc, htarget]

theorem entryDirectory_eq (h : ComesToBundle builder c target w₀ w outDir) :
    (entryDirectory c target outDir).outcome w = Action.outcome (do
      let source ← sourceRoot c.root target.project
      return (c.root.join (.ofText source)).child "generated") w := by
  rw [entryDirectory, h.noDirectory]
  dsimp only
  rw [outcome_get_bind, if_pos h.there]

/-- A lookup that fails ends the run. -/
theorem aborted (h : ComesToBundle builder c target w₀ w outDir)
    (fails : w.LookupFails (c.root.child workspaceFileName) f) :
    (generate builder c).outcome w₀ = (.error (.fault f), w) := by
  obtain ⟨r, rest, hrun⟩ := h.outcome
  have hdirectory : (entryDirectory c target outDir).outcome w = (.error (.fault f), w) := by
    rw [h.entryDirectory_eq]
    exact outcome_bind_error fails.outcome _
  rw [hrun, writeOutput_browser]
  exact outcome_bind_error (outcome_bind_error hdirectory _) _

/-- A source root that is no path ends the run as well. -/
theorem refused (h : ComesToBundle builder c target w₀ w outDir)
    (found : (sourceRoot c.root target.project).outcome w = (.ok t, v))
    (lost : v.place ((c.root.join (.ofText t)).child "generated") = .error f) :
    (generate builder c).outcome w₀ = (.error (.fault f), v) := by
  obtain ⟨r, rest, hrun⟩ := h.outcome
  have hdirectory : (entryDirectory c target outDir).outcome w =
      (.ok ((c.root.join (.ofText t)).child "generated"), v) := by
    rw [h.entryDirectory_eq]
    exact outcome_bind_ok found _
  have hentry : (writeRegistration c .browser
      (((c.root.join (.ofText t)).child "generated").child browserEntryFileName)
      r.components).outcome v = (.error (.fault f), v) := by
    rw [writeRegistration, outcome_get_bind]
    refine writeArtifact_of_lost ?_ _
    rw [Path.parent, Path.child, List.dropLast_concat]
    exact lost
  rw [hrun, writeOutput_browser]
  refine outcome_bind_error ?_ _
  rw [outcome_bind_ok hdirectory]
  exact outcome_bind_error hentry _

end ComesToBundle

/-- The lookup of a source root ends in exactly three ways. It fails if the path of the workspace
file is none, or the bytes of the file are no text, or an integer in it has too many digits; a text
in JSON is at fault exactly if it has such an integer. Otherwise it gives the text that the file
leads to, and the usual source root if there is none: without a file, with one that cannot be read,
and with one of any other form. Only the log changes. A run comes to the lookup with the manifest
and the types written, and so it ends there with the same failure, or else with that of a source
root that is no path. -/
theorem sourceRoot_lookup (w : Workspace) (root : Path) (project : Text) :
    let file := root.child workspaceFileName
    let lookup := (sourceRoot root project).outcome w
    (∀ e, lookup.1 = .error e ↔ ∃ f, e = .fault f ∧ w.LookupFails file f) ∧
      (∀ t, lookup.1 = .ok t ↔ (∀ f, ¬w.LookupFails file f) ∧ w.IsSourceRoot file project t) ∧
      w.Reported lookup.2 ∧
      (∀ cs, w.readText file = .ok cs → (∃ f, w.LookupFails file f) →
        Json.HasLongInteger (.ofChars cs)) ∧
      (∀ cs (d : Json.Document), w.readText file = .ok cs → d.text = .ofChars cs →
        (∀ c ∈ d.chunks, c.isPlain) →
          ((∃ f, w.LookupFails file f) ↔ ∃ c ∈ d.chunks, ¬c.Fits) ∧
          ((∀ c ∈ d.chunks, c.Fits) → ∀ t,
            w.LeadsToSources file project t ↔ GivesSourceRoot d.root.value project t)) ∧
      ∀ builder c target w₀ outDir, ComesToBundle builder c target w₀ w outDir →
        c.root = root → target.project = project →
          (∃ cs kinds, Emission.Stores ⟨c, cs, outDir, outDir⟩ w₀
            (manifestOutput :: typesOutput :: furtherKinds kinds) w) ∧
          (∀ f, w.LookupFails file f →
            (generate builder c).outcome w₀ = (.error (.fault f), w)) ∧
          ∀ t f, lookup.1 = .ok t → w.place ((root.join (.ofText t)).child "generated") = .error f →
            (generate builder c).outcome w₀ = (.error (.fault f), lookup.2) := by
  intro file lookup
  have hlooks : OnlyReports (sourceRoot root project) :=
    sourceRoot_within (fun _ => trivial) OnlyReports.record root project
  have hreported : w.Reported lookup.2 := hlooks.leaves w
  refine ⟨fun e => sourceRoot_eq_error, fun t => sourceRoot_eq_ok, hreported, ?_, ?_, ?_⟩
  · exact fun cs held fails => Json.hasLongInteger_of_parse ((lookupFails_iff held).1 fails)
  · intro cs d held htext hplain
    have hparse := d.parse_plain hplain
    rw [htext] at hparse
    rw [lookupFails_iff held]
    by_cases hfits : ∀ c ∈ d.chunks, c.Fits
    · rw [if_pos hfits] at hparse
      rw [hparse]
      exact ⟨iff_of_false nofun fun ⟨c, hc, hlong⟩ => hlong (hfits c hc),
        fun _ t => leadsToSources_iff held hparse⟩
    · rw [if_neg hfits] at hparse
      refine ⟨iff_of_true hparse ?_, fun hall => absurd hall hfits⟩
      simpa using hfits
  · rintro builder c target w₀ outDir h rfl rfl
    refine ⟨h.stores, fun f fails => h.aborted fails, fun t f found lost => ?_⟩
    refine h.refused (Prod.ext found rfl) ?_
    rw [Workspace.place, hreported.current_eq]
    exact lost

/-- A workspace file of one byte, which is no text. -/
def strayByteWorkspace : Workspace := { Workspace.bare with
  files := .dir [("ws", .dir [("angular.json", .file ⟨#[0xff]⟩)])] }

/-- A configuration that asks for a bundle. -/
def strayByteRequest : Configuration where
  root := "/ws"
  elements := some (.list [])
  outputs := ["browser"]
  build := { target := some "app:build" }

/-- What a run for that bundle does up to the bundle. -/
def strayByteStart : Action GenerationResult := do
  let p ← prepare strayByteRequest
  writeBefore (fun _ => throw (.fault .noSuchFile)) strayByteRequest p "/ws/dist" []

theorem strayByte_held : (strayByteStart.outcome strayByteWorkspace).1.toOption.isSome ∧
    (strayByteStart.outcome strayByteWorkspace).2.isFile "/ws/angular.json" ∧
    (strayByteStart.outcome strayByteWorkspace).2.read "/ws/angular.json" = .ok ⟨#[0xff]⟩ := by
  decide +kernel

/-- The byte ends the run, and the manifest and the types are written by then. -/
theorem sourceRoot_lookup_strayByte : ∃ w cs kinds,
    Emission.Stores ⟨strayByteRequest, cs, "/ws/dist", "/ws/dist"⟩ strayByteWorkspace
      (manifestOutput :: typesOutput :: furtherKinds kinds) w ∧
    (generate (fun _ => throw (.fault .noSuchFile)) strayByteRequest).outcome strayByteWorkspace =
      (.error (.fault .undecodable), w) := by
  obtain ⟨hstart, hthere, hheld⟩ := strayByte_held
  obtain ⟨r, w, hstarted⟩ := exists_outcome_of_isSome hstart
  rw [hstarted] at hthere hheld
  obtain ⟨p, u, hprepare, hbefore⟩ := outcome_bind_eq_ok.1 hstarted
  have hp := prepared_of_ok hprepare
  have htarget : p.target = some ⟨"app", "build", none⟩ := (Except.ok.inj hp.target).symm
  have hlooked : Undisturbed strayByteWorkspace u := by
    have hleaves := (prepare_onlyLooks strayByteRequest).leaves strayByteWorkspace
    rwa [hprepare] at hleaves
  have hcomes : ComesToBundle (fun _ => throw (.fault .noSuchFile)) strayByteRequest
      ⟨"app", "build", none⟩ strayByteWorkspace w "/ws/dist" :=
    ⟨⟨p, u, [], [], r, hprepare, htarget, hp.outputs_eq.2, hlooked.resolveFrom _ _, hbefore⟩, rfl,
      hthere⟩
  have hfails : w.LookupFails "/ws/angular.json" .undecodable := .noText hheld (by decide +kernel)
  obtain ⟨⟨cs, kinds, hstores⟩, haborted, -⟩ :=
    (sourceRoot_lookup w "/ws" "app").2.2.2.2.2 _ _ _ _ _ hcomes rfl rfl
  exact ⟨w, cs, kinds, hstores, haborted _ hfails⟩

end Run

end CustomElements
