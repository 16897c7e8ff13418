import CustomElements.Proofs.FirstMatch
import CustomElements.Proofs.Files.PathText
import CustomElements.Proofs.Files.TreeNames
import CustomElements.Proofs.Workspace.Loading

/-!
# What is known of loaded files

A loaded file has the path of an entry of the file tree and the tree that its contents were read
into, and no two loaded files have one path. Loading keeps it so, whatever is loaded and however it
ends, because the path of a file that is there is made of names of the file tree.
-/

namespace CustomElements

open CustomElements.Action

/-- A source file as it is loaded. -/
structure SourceFile.IsLoaded (f : SourceFile) : Prop where
  place : f.path.IsPlace
  parsed : ∃ source, TypeScript.parse? f.path.dialect source = some f.tree

structure Project.IsLoaded (project : Project) : Prop where
  loaded : ∀ f ∈ project.files, f.IsLoaded
  distinct : (project.files.map SourceFile.path).Nodup

/-- The file tree has names that files can have, and what is loaded was loaded from such a tree. -/
structure Workspace.IsSound (w : Workspace) : Prop where
  names : ∀ n ∈ w.files.names, IsFileName n
  project : w.project.IsLoaded

theorem Project.isLoaded_empty (root : Path) : (Project.mk root []).IsLoaded :=
  ⟨List.forall_mem_nil _, List.nodup_nil⟩

/-- A path that no loaded file has keeps the paths distinct. -/
theorem Project.nodup_concat {project : Project} {f : SourceFile}
    (h : (project.files.map SourceFile.path).Nodup) (hnew : project.file? f.path = none) :
    ((project.files ++ [f]).map SourceFile.path).Nodup := by
  have hfresh : f.path ∉ project.files.map SourceFile.path := by
    intro hm
    obtain ⟨g, hg, hpath⟩ := List.mem_map.1 hm
    have hother := List.find?_eq_none.1 hnew g hg
    exact hother (decide_eq_true hpath)
  rw [List.map_append, List.map_singleton]
  exact nodup_append_singleton h hfresh

/-- A new file goes behind those that are loaded. -/
theorem Project.IsLoaded.add {project : Project} (h : project.IsLoaded) {f : SourceFile}
    (hf : f.IsLoaded) (hnew : project.file? f.path = none) :
    (Project.mk project.root (project.files ++ [f])).IsLoaded :=
  ⟨List.forall_mem_append.2 ⟨h.loaded, List.forall_mem_singleton.2 hf⟩,
    nodup_concat h.distinct hnew⟩

namespace Workspace

variable {w w' : Workspace}

theorem Reported.isSound (h : Reported w w') (hw : w.IsSound) : w'.IsSound := by
  obtain ⟨rs, rfl⟩ := h
  have hnames : (w.report rs).files.names ⊆ w.files.names := by
    clear hw
    induction rs generalizing w with
    | nil => exact fun _ => id
    | cons r rs ih => exact List.Subset.trans (ih (w := w.note r)) (names_note r)
  have hproject : (w.report rs).project = w.project := Reported.project_eq ⟨rs, rfl⟩
  exact ⟨fun n hn => hw.names n (hnames hn), hproject ▸ hw.project⟩

theorem IsSound.with_project (hw : w.IsSound) {project : Project} (h : project.IsLoaded) :
    ({ w with project := project } : Workspace).IsSound := ⟨hw.names, h⟩

/-- A file can be loaded if its contents are characters that follow the grammar. -/
theorem source_eq_ok {p : Path} {f : SourceFile} : w.source p = .ok f ↔
    w.isFile p ∧ ∃ cs tree, (w.read p).toOption.bind Bytes.chars? = some cs ∧
      TypeScript.parse? p.dialect cs = some tree ∧ f = ⟨p, tree⟩ := by
  unfold source
  cases hfile : w.isFile p with
  | false => simp
  | true =>
    cases hcs : (w.read p).toOption.bind Bytes.chars? with
    | none => simp
    | some cs =>
      cases htree : TypeScript.parse? p.dialect cs with
      | none => simp [htree]
      | some tree => simp [htree, eq_comm]

/-- A loaded file has the path that was asked for. -/
theorem path_of_source {p : Path} {f : SourceFile} (h : w.source p = .ok f) : f.path = p := by
  obtain ⟨-, cs, tree, -, -, rfl⟩ := source_eq_ok.1 h
  rfl

/-- A file that can be loaded is at a place in the file tree. -/
theorem source_isLoaded (hw : w.IsSound) {p : Path} (hp : p.IsNormal) {f : SourceFile}
    (h : w.source p = .ok f) : f.path = p ∧ f.IsLoaded := by
  obtain ⟨hfile, cs, tree, -, htree, rfl⟩ := source_eq_ok.1 h
  have hparts := parts_subset_of_isFile hp hfile
  exact ⟨rfl, ⟨hp.fromRoot, fun n hn => hw.names n (hparts hn)⟩, cs, htree⟩

/-- A file at an absolute path is loaded if its contents follow the grammar. -/
theorem source_of_parsed {p : Path} {content : List Char} {tree : TypeScript.Node}
    (hfile : w.isFile p) (hread : w.read p = .ok (Bytes.ofChars content))
    (hparsed : TypeScript.parse? p.dialect content = some tree) : w.source p = .ok ⟨p, tree⟩ := by
  have hcontent : (w.read p).toOption.bind Bytes.chars? = some content := by
    rw [hread]
    exact Bytes.chars?_ofChars content
  exact source_eq_ok.2 ⟨hfile, content, tree, hcontent, hparsed, rfl⟩

/-- What stays sound. -/
def KeepsSound (w w' : Workspace) : Prop := w.IsSound → w'.IsSound

instance : Std.Refl KeepsSound := ⟨fun _ => id⟩

instance : IsTrans Workspace KeepsSound := ⟨fun _ _ _ h h' hw => h' (h hw)⟩

end Workspace

namespace Action

variable {α : Type}

/-- The actions that keep a workspace sound, however they end. -/
abbrev KeepsSound (a : Action α) : Prop := Within Workspace.KeepsSound (fun _ => True) a

theorem OnlyReports.keepsSound {a : Action α} (h : OnlyReports a) : KeepsSound a :=
  ⟨fun w => (h.leaves w).isSound, fun _ _ _ => trivial⟩

end Action

namespace Project

variable {w : Workspace} {p : Path}

theorem resolveFrom_isNormal {base q : Path} (h : w.resolveFrom base p = .ok q) : q.IsNormal := by
  obtain ⟨expanded, _, h⟩ := exceptBind_eq_ok.1 h
  exact Workspace.resolve_isNormal h

/-- Loading a file that is not loaded yet keeps the workspace sound. -/
theorem LeftByLoad.isSound {v : Workspace} (h : LeftByLoad w p v) (hw : w.IsSound) :
    v.IsSound := by
  cases h with
  | reported same => exact same.isSound hw
  | @loaded q f place new source =>
    obtain ⟨rfl, hf⟩ := Workspace.source_isLoaded hw (resolveFrom_isNormal place) source
    exact hw.with_project (hw.project.add hf new)

theorem start_keepsSound (root : Path) : KeepsSound (start root) :=
  (OnlyReports.look _).keepsSound.bind fun path =>
    ⟨fun _ hw => hw.with_project (isLoaded_empty path), fun _ _ _ => trivial⟩

theorem require_keepsSound (p : Path) : KeepsSound (require p) :=
  ⟨fun w hw => (require_leaves p w).isSound hw, fun _ _ _ => trivial⟩

theorem offer_keepsSound (p : Path) : KeepsSound (offer p) :=
  ⟨fun w hw => (offer_leaves p w).isSound hw, fun _ _ _ => trivial⟩

theorem addDirectory_keepsSound (p : Path) : KeepsSound (addDirectory p) :=
  addDirectory_within (fun q => (locate_onlyReports q).keepsSound) offer_keepsSound p

/-- What was loaded before was loaded as soundly as what replaces it. -/
theorem startFrom_keepsSound (file : Path) (root : Option Path) :
    KeepsSound (startFrom file root) := by
  refine Within.get_bind fun w => ⟨fun hw => ?_, fun _ _ => trivial⟩
  refine Within.leaves (R := Workspace.KeepsSound) (P := fun _ => True) ?_ w hw
  refine (ProjectFile.load_onlyReports file).keepsSound.bind fun selection => ?_
  refine Within.tryCatch ?_ fun e => ?_
  · refine (start_keepsSound _).bind fun _ => ?_
    refine Within.get.bind fun w' => ?_
    refine (Within.forIn (fun p _ => ?_) _ _).bind fun _ => ?_
    · exact (offer_keepsSound p).bind fun _ => Within.pure _
    · split
      · exact Within.faulty trivial
      · exact Within.get.bind fun _ => (OnlyReports.record _ _ _).keepsSound
  · have hbefore : KeepsSound (modify fun v => { v with project := w.project }) :=
      ⟨fun _ hv => hv.with_project hw.project, fun _ _ _ => trivial⟩
    exact hbefore.bind fun _ => Within.throw trivial

theorem resolve_keepsSound (ref : ComponentRef) : KeepsSound (resolve ref) :=
  resolve_within require_keepsSound ref

end Project

/-- What can be done with a project. -/
inductive LoadStep where
  | start (root : Path)
  | startFrom (file : Path) (root : Option Path)
  | require (p : Path)
  | offer (p : Path)
  | addDirectory (p : Path)
  | resolve (ref : ComponentRef)
  | discover (rule : DiscoveryRule)

/-- The workspace after a step, whether the step has an answer or not. -/
def LoadStep.after (w : Workspace) : LoadStep → Workspace
  | start root => ((Project.start root).outcome w).2
  | startFrom file root => ((Project.startFrom file root).outcome w).2
  | require p => ((Project.require p).outcome w).2
  | offer p => ((Project.offer p).outcome w).2
  | addDirectory p => ((Project.addDirectory p).outcome w).2
  | resolve ref => ((Project.resolve ref).outcome w).2
  | discover rule => ((Project.discover rule).outcome w).2

/-- A new file that can be loaded is added. -/
theorem LoadStep.after_require {w : Workspace} {p q : Path} {f : SourceFile}
    (hpath : w.resolveFrom w.project.root p = .ok q) (hnew : w.project.file? q = none)
    (hsource : w.source q = .ok f) : (require p).after w = w.withSource f := by
  rw [after, Project.require_outcome, hpath]
  dsimp only
  rw [hnew]
  dsimp only
  rw [hsource]

/-- A step keeps a workspace sound. -/
theorem LoadStep.after_isSound {w : Workspace} (hw : w.IsSound) (step : LoadStep) :
    (step.after w).IsSound := by
  cases step with
  | start root => exact (Project.start_keepsSound root).leaves w hw
  | startFrom file root => exact (Project.startFrom_keepsSound file root).leaves w hw
  | require p => exact (Project.require_keepsSound p).leaves w hw
  | offer p => exact (Project.offer_keepsSound p).leaves w hw
  | addDirectory p => exact (Project.addDirectory_keepsSound p).leaves w hw
  | resolve ref => exact (Project.resolve_keepsSound ref).leaves w hw
  | discover rule => exact (Project.discover_onlyReports rule).keepsSound.leaves w hw

/-- A workspace that steps lead to, from an empty project. Between the steps everything but the
project may change, as long as the file tree has names that files can have. -/
inductive Workspace.Reached : Workspace → Prop where
  | start {w : Workspace} (names : ∀ n ∈ w.files.names, IsFileName n)
      (files : w.project.files = []) : Reached w
  | step {w : Workspace} (before : Reached w) (step : LoadStep) : Reached (step.after w)
  | outside {w v : Workspace} (before : Reached w) (names : ∀ n ∈ v.files.names, IsFileName n)
      (project : v.project = w.project) : Reached v

theorem Workspace.Reached.isSound {w : Workspace} (h : w.Reached) : w.IsSound := by
  induction h with
  | start names files =>
    refine ⟨names, ?_, ?_⟩
    · rw [files]
      exact List.forall_mem_nil _
    · rw [files]
      exact List.nodup_nil
  | step _ step ih => exact step.after_isSound ih
  | outside _ names project ih => exact ⟨names, project ▸ ih.project⟩

end CustomElements
