import CustomElements.Proofs.Component.ProjectHistory
import CustomElements.Proofs.Generation.BroughtFiles

/-!
# Classes by their names

A name alone is looked up in all loaded files, and it means a class if there is one class of this
name and no second one. In which order the files were loaded does not matter. A path leads to one
file, which is taken as it is loaded or else as it is on the disk; the other files do not count, and
no other file is loaded. So a class that was found by a path is found by its name alone as long as
no other class of the name is loaded.
-/

namespace CustomElements

open CustomElements.Action

variable {w u v : Workspace} {f : SourceFile} {fs : List SourceFile} {p q : Path} {ps : List Path}
variable {name : Text} {ref : ComponentRef} {c : LocatedClass}

namespace Workspace

/-- The workspace with these loaded files in place of its own. -/
def withFiles (w : Workspace) (files : List SourceFile) : Workspace :=
  { w with project := { w.project with files := files } }

/-- The file at a resolved path: as it is loaded, or else as it is on the disk. -/
def sourceAt (w : Workspace) (q : Path) : Except Mistake SourceFile :=
  match w.project.file? q with
  | some f => .ok f
  | none => w.source q

/-- The file at a resolved path if it is not loaded yet but can be. -/
def newAt (w : Workspace) (q : Path) : List SourceFile :=
  if (w.project.file? q).isSome then [] else (w.source q).toOption.toList

theorem newAt_of_loaded (h : w.project.file? q = some f) : w.newAt q = [] := by
  rw [newAt, h]
  rfl

theorem newAt_of_unloaded (h : w.project.file? q = none) :
    w.newAt q = (w.source q).toOption.toList := by
  rw [newAt, h]
  rfl

/-- What is new at a path is the file there, and it was not loaded before. -/
theorem mem_newAt : f ∈ w.newAt q ↔
    w.project.file? q = none ∧ w.source q = .ok f ∧ f.path = q := by
  cases hfile : w.project.file? q with
  | some g => simp [newAt_of_loaded hfile]
  | none =>
    rw [newAt_of_unloaded hfile]
    cases hsource : w.source q with
    | error m => simp [Except.toOption]
    | ok g =>
      have hpath := path_of_source hsource
      simp only [Except.toOption, Option.toList_some, List.mem_singleton, Except.ok.injEq,
        true_and]
      constructor
      · rintro rfl
        exact ⟨rfl, hpath⟩
      · exact fun h => h.1.symm

/-- The file at a path is loaded afterwards, whether it was before or not. -/
theorem mem_files_of_sourceAt (h : w.sourceAt q = .ok f) : f ∈ w.project.files ++ w.newAt q := by
  rw [List.mem_append, mem_newAt]
  rw [sourceAt] at h
  split at h
  · next g hg =>
    obtain rfl := Except.ok.inj h
    exact .inl (of_find?_key hg).1
  · next hnone => exact .inr ⟨hnone, h, path_of_source h⟩

theorem length_newAt_le (w : Workspace) (q : Path) : (w.newAt q).length ≤ 1 := by
  unfold newAt
  split
  · exact Nat.zero_le 1
  · cases (w.source q).toOption <;> simp

end Workspace

namespace Project

/-- A file that is asked for is the one at its path, and it is loaded then. -/
theorem require_sourceAt (hpath : w.resolveFrom w.project.root p = .ok q) :
    (require p).outcome w = ((w.sourceAt q).mapError Failure.mistake,
      w.withFiles (w.project.files ++ w.newAt q)) := by
  have hsame : w.withFiles (w.project.files ++ []) = w := by
    rw [List.append_nil]
    rfl
  rw [require_outcome, hpath]
  dsimp only
  cases hfile : w.project.file? q with
  | some f => rw [Workspace.newAt_of_loaded hfile, Workspace.sourceAt, hfile, hsame]; rfl
  | none =>
    rw [Workspace.newAt_of_unloaded hfile, Workspace.sourceAt, hfile]
    cases hsource : w.source q with
    | error m => exact congrArg (Prod.mk _) hsame.symm
    | ok f => rfl

/-- The first class of this name of a file. -/
def classIn (name : Text) : Except Mistake SourceFile → Except Failure LocatedClass
  | .error m => .error (.mistake m)
  | .ok f =>
    match f.classes.find? fun d => decide (d.name = some name) with
    | some d => .ok ⟨f, d⟩
    | none => .error (.mistake (.classNotInFile name f.path))

/-- A class that is found in a file is one of its classes, and it has the name. -/
theorem classIn_eq_ok {r : Except Mistake SourceFile} (h : classIn name r = .ok c) :
    r = .ok c.file ∧ c.declaration ∈ c.file.classes ∧ c.declaration.name = some name := by
  cases r with
  | error m => cases h
  | ok f =>
    rw [classIn] at h
    split at h
    · next d hd =>
      obtain rfl := Except.ok.inj h
      exact ⟨rfl, of_find?_key hd⟩
    · cases h

/-- A path without a meaning ends the search before any file is looked at. -/
theorem resolve_path_error {t : Text} {e : Fault} (ht : nonempty? ref.file = some t)
    (hpath : w.resolveFrom w.project.root (.ofText t) = .error e) :
    (resolve ref).outcome w = (.error (.fault e), w) := by
  obtain ⟨className, file⟩ := ref
  obtain ⟨rfl, hne⟩ := nonempty?_eq_some.1 ht
  rw [resolve_outcome className hne, require_outcome, hpath]

/-- A reference with a path gives the first class of the name in the file at the path. -/
theorem resolve_path_outcome {t : Text} (ht : nonempty? ref.file = some t)
    (hpath : w.resolveFrom w.project.root (.ofText t) = .ok q) :
    (resolve ref).outcome w =
      (classIn ref.className (w.sourceAt q), w.withFiles (w.project.files ++ w.newAt q)) := by
  obtain ⟨className, file⟩ := ref
  obtain ⟨rfl, hne⟩ := nonempty?_eq_some.1 ht
  rw [resolve_outcome className hne, require_sourceAt hpath]
  cases w.sourceAt q with
  | error m => rfl
  | ok f =>
    dsimp only [Except.mapError, classIn]
    cases f.classes.find? fun d => decide (d.name = some className) <;> rfl

/-- A class that was found by a path is one of the loaded classes of its name. -/
theorem mem_named_of_resolve {t : Text} (ht : nonempty? ref.file = some t)
    (h : (resolve ref).outcome w = (.ok c, v)) : c ∈ v.project.named ref.className := by
  cases hq : w.resolveFrom w.project.root (.ofText t) with
  | error e =>
    rw [resolve_path_error ht hq] at h
    cases h
  | ok q =>
    rw [resolve_path_outcome ht hq] at h
    obtain ⟨hanswer, rfl⟩ := Prod.mk.inj h
    obtain ⟨hfile, hclass, hname⟩ := classIn_eq_ok hanswer
    refine List.mem_filter.2 ⟨mem_classes.2 ⟨?_, hclass⟩, decide_eq_true hname⟩
    exact Workspace.mem_files_of_sourceAt hfile

/-- A name that was found stays there, since loaded files are never dropped. -/
theorem named_subset_of_leads (h : w.Leads u) (name : Text) :
    w.project.named name ⊆ u.project.named name := by
  intro c hc
  obtain ⟨hclass, hname⟩ := List.mem_filter.1 hc
  obtain ⟨hfile, hdeclared⟩ := mem_classes.1 hclass
  exact List.mem_filter.2 ⟨mem_classes.2 ⟨h.grows.files.subset hfile, hdeclared⟩, hname⟩

/-- An empty path is none. -/
theorem resolve_bare_eq (h : nonempty? ref.file = none) :
    resolve ref = resolve ⟨ref.className, none⟩ := by
  have hnone : nonempty? (ComponentRef.mk ref.className none).file = none := rfl
  rw [resolve, resolve, h, hnone]

/-- A name means a class if this is the only class of the name. -/
theorem onlyNamed_eq_ok {cs : List LocatedClass} : onlyNamed name cs = .ok c ↔ cs = [c] := by
  rcases cs with _ | ⟨d, _ | ⟨d', cs⟩⟩
  · exact iff_of_false nofun nofun
  · rw [onlyNamed, Except.ok.injEq, List.cons.injEq, and_iff_left rfl]
  · exact iff_of_false nofun nofun

theorem resolve_bare_eq_ok (h : nonempty? ref.file = none) :
    (resolve ref).outcome w = (.ok c, v) ↔ w.project.named ref.className = [c] ∧ v = w := by
  rw [resolve_bare_eq h, resolve_bare_outcome, Prod.mk.injEq, onlyNamed_eq_ok, eq_comm (a := w)]

/-- The classes of a name are the same ones whatever the order of the files is. -/
theorem named_files_perm {files files' : List SourceFile} (root : Path)
    (h : files.Perm files') (name : Text) :
    ((Project.mk root files).named name).Perm ((Project.mk root files').named name) :=
  (h.flatMap_right _).filter _

end Project

/-! ### Files in any order -/

/-- These files were brought from the disk: none of them was loaded before, and no path is there
twice. -/
structure Workspace.FromDisk (w : Workspace) (fs : List SourceFile) : Prop where
  source : ∀ f ∈ fs, w.source f.path = .ok f
  unloaded : ∀ f ∈ fs, w.project.file? f.path = none
  distinct : (fs.map SourceFile.path).Nodup

namespace Workspace.FromDisk

theorem nil (w : Workspace) : w.FromDisk [] :=
  ⟨List.forall_mem_nil _, List.forall_mem_nil _, List.nodup_nil⟩

/-- Where files were brought, a path leads to the same file as before. -/
theorem sourceAt_eq (h : w.FromDisk fs) (q : Path) :
    (w.withSources fs).sourceAt q = w.sourceAt q := by
  rw [sourceAt, sourceAt, file?_withSources]
  cases w.project.file? q with
  | some f => rfl
  | none =>
    rw [Option.none_or]
    cases hfs : fs.find? fun f => decide (f.path = q) with
    | none => rfl
    | some f =>
      obtain ⟨hmem, rfl⟩ := of_find?_key hfs
      exact (h.source f hmem).symm

/-- What a path brings further is what it would have brought before, unless it was brought. -/
theorem mem_newAt_iff (h : w.FromDisk fs) (q : Path) (f : SourceFile) :
    f ∈ (w.withSources fs).newAt q ↔ f ∈ w.newAt q ∧ f ∉ fs := by
  have hsource : (w.withSources fs).source q = w.source q := rfl
  rw [mem_newAt, mem_newAt, file?_withSources, hsource, Option.or_eq_none_iff]
  constructor
  · rintro ⟨⟨hold, hnew⟩, hf, rfl⟩
    exact ⟨⟨hold, hf, rfl⟩, fun hm => List.find?_eq_none.1 hnew f hm (decide_eq_true rfl)⟩
  · rintro ⟨⟨hold, hf, rfl⟩, hm⟩
    refine ⟨⟨hold, List.find?_eq_none.2 fun g hg hpath => hm ?_⟩, hf, rfl⟩
    have hsame := h.source g hg
    rw [of_decide_eq_true hpath, hf] at hsame
    exact Except.ok.inj hsame ▸ hg

theorem append_newAt (h : w.FromDisk fs) (q : Path) :
    w.FromDisk (fs ++ (w.withSources fs).newAt q) := by
  have hnew (f : SourceFile) (hf : f ∈ (w.withSources fs).newAt q) :
      (w.project.file? f.path = none ∧ w.source f.path = .ok f) ∧ f ∉ fs ∧ f.path = q := by
    obtain ⟨hf, hm⟩ := (h.mem_newAt_iff q f).1 hf
    obtain ⟨hold, hsource, rfl⟩ := mem_newAt.1 hf
    exact ⟨⟨hold, hsource⟩, hm, rfl⟩
  constructor
  · exact List.forall_mem_append.2 ⟨h.source, fun f hf => (hnew f hf).1.2⟩
  · exact List.forall_mem_append.2 ⟨h.unloaded, fun f hf => (hnew f hf).1.1⟩
  · have hlength := length_newAt_le (w.withSources fs) q
    rcases hlist : (w.withSources fs).newAt q with _ | ⟨f, _ | ⟨g, gs⟩⟩
    · rw [List.append_nil]
      exact h.distinct
    · rw [List.map_append, List.map_singleton]
      refine nodup_append_singleton h.distinct fun hm => ?_
      obtain ⟨⟨-, hsource⟩, hfresh, -⟩ := hnew f (by rw [hlist]; exact List.mem_cons_self)
      obtain ⟨g, hg, hpath⟩ := List.mem_map.1 hm
      have hother := h.source g hg
      rw [hpath, hsource] at hother
      exact hfresh (Except.ok.inj hother ▸ hg)
    · rw [hlist, List.length_cons, List.length_cons] at hlength
      omega

end Workspace.FromDisk

namespace Project

/-- Where files were brought, a path brings what is left of its own. -/
theorem require_fromDisk (h : w.FromDisk fs) {p q : Path}
    (hpath : w.resolveFrom w.project.root p = .ok q) :
    (require p).outcome (w.withSources fs) = ((w.sourceAt q).mapError Failure.mistake,
      w.withSources (fs ++ (w.withSources fs).newAt q)) := by
  have hthere : (w.withSources fs).resolveFrom (w.withSources fs).project.root p = .ok q := hpath
  have hfiles : (w.withSources fs).withFiles ((w.withSources fs).project.files ++
      (w.withSources fs).newAt q) = w.withSources (fs ++ (w.withSources fs).newAt q) := by
    change w.withFiles (w.project.files ++ fs ++ _) = w.withFiles (w.project.files ++ (fs ++ _))
    rw [List.append_assoc]
  rw [require_sourceAt hthere, h.sourceAt_eq, hfiles]

/-- The file that a path leads to, or how the path fails. -/
def answerOf (w : Workspace) (p : Path) : Except Failure SourceFile := ((require p).outcome w).1

/-- Loading files one after the other, from files that were brought before: each answer is the one
that the path has on its own, and what is loaded in the end are the files that the paths bring. -/
theorem require_mapM (h : w.FromDisk fs) (ps : List Path) :
    ((ps.mapM require).outcome (w.withSources fs)).1 = ps.mapM (answerOf w) ∧
    ∃ fs', w.FromDisk fs' ∧ ((ps.mapM require).outcome (w.withSources fs)).2 = w.withSources fs' ∧
      ((ps.mapM (answerOf w)).toOption.isSome → ∀ f, f ∈ fs' ↔
        f ∈ fs ∨ ∃ p ∈ ps, ∃ q, w.resolveFrom w.project.root p = .ok q ∧ f ∈ w.newAt q) := by
  induction ps generalizing fs with
  | nil =>
    refine ⟨rfl, fs, h, rfl, fun _ f => ?_⟩
    simp
  | cons p ps ih =>
    rw [List.mapM_cons, List.mapM_cons]
    have hroot : (w.withSources fs).resolveFrom (w.withSources fs).project.root p =
        w.resolveFrom w.project.root p := rfl
    cases hpath : w.resolveFrom w.project.root p with
    | error e =>
      have hstep : (require p).outcome (w.withSources fs) = (.error (.fault e), w.withSources fs) := by
        rw [require_outcome, hroot, hpath]
      have hanswer : answerOf w p = .error (.fault e) := by
        rw [answerOf, require_outcome, hpath]
      rw [outcome_bind_error hstep, hanswer]
      exact ⟨rfl, fs, h, rfl, nofun⟩
    | ok q =>
      have hstep := require_fromDisk h hpath
      have hanswer : answerOf w p = (w.sourceAt q).mapError Failure.mistake := by
        rw [answerOf, require_sourceAt hpath]
      rw [hanswer]
      cases hsource : w.sourceAt q with
      | error m =>
        rw [hsource] at hstep
        rw [outcome_bind_error hstep]
        exact ⟨rfl, _, h.append_newAt q, rfl, nofun⟩
      | ok f =>
        rw [hsource] at hstep
        obtain ⟨hrest, fs', hdisk, hafter, hmem⟩ := ih (h.append_newAt q)
        rw [outcome_bind_ok hstep]
        rcases hr : (ps.mapM require).outcome (w.withSources (fs ++ (w.withSources fs).newAt q))
          with ⟨r, w'⟩
        rw [hr] at hrest hafter
        obtain rfl : r = ps.mapM (answerOf w) := hrest
        obtain rfl : w' = w.withSources fs' := hafter
        cases hall : ps.mapM (answerOf w) with
        | error e =>
          rw [hall] at hr
          rw [outcome_bind_error hr]
          exact ⟨rfl, fs', hdisk, rfl, nofun⟩
        | ok rest =>
          rw [hall] at hr hmem
          rw [outcome_bind_ok hr]
          refine ⟨rfl, fs', hdisk, rfl, fun _ g => ?_⟩
          rw [hmem rfl g, List.mem_append, h.mem_newAt_iff, or_assoc]
          simp only [List.mem_cons, exists_eq_or_imp, hpath, Except.ok.injEq, exists_eq_left']
          by_cases hg : g ∈ fs <;> simp [hg]

/-- Files that can be loaded in one order can be loaded in any other one, and then the same files
are loaded. -/
theorem require_mapM_perm {ps' : List Path} (h : ps.Perm ps')
    (hload : (ps.mapM require).outcome w = (.ok fs, u)) : ∃ fs' files files',
      u = w.withFiles files ∧ (ps'.mapM require).outcome w = (.ok fs', w.withFiles files') ∧
        files'.Perm files := by
  have hnil := Workspace.withSources_nil w
  obtain ⟨hanswer, gs, hdisk, hafter, hmem⟩ := require_mapM (.nil w) ps
  obtain ⟨hanswer', gs', hdisk', hafter', hmem'⟩ := require_mapM (.nil w) ps'
  rw [hnil, hload] at hanswer hafter
  rw [hnil] at hanswer' hafter'
  dsimp only at hanswer hafter
  -- each path has an answer of its own, so the order does not matter for that
  obtain ⟨fs', hfs'⟩ : ∃ found, ps'.mapM (answerOf w) = .ok found := by
    rw [exceptMapM_ok_iff]
    exact fun p hp => exceptMapM_ok_iff.1 ⟨fs, hanswer.symm⟩ p (h.mem_iff.2 hp)
  rw [hfs'] at hanswer' hmem'
  rw [← hanswer] at hmem
  have hperm : gs'.Perm gs := by
    refine (List.perm_ext_iff_of_nodup (hdisk'.distinct.of_map _) (hdisk.distinct.of_map _)).2
      fun f => ?_
    rw [hmem rfl f, hmem' rfl f]
    simp only [h.mem_iff]
  exact ⟨fs', _, _, hafter, Prod.ext hanswer' hafter', hperm.append_left w.project.files⟩

/-- For every reference and whatever is loaded. A reference without a path has an answer exactly if
one class of all loaded files has the name and no second one has it; the answer is this class. It
has the same outcome if the same files are loaded in another order. A reference with a path fails if
the path has no meaning. Otherwise its answer is told by the file at the path, and at most this file
is added to those that are loaded, whether the class is found or not, and whatever else is loaded.
Once a class was found by a path, its name alone means it at any later time at which one class of
the name is loaded. -/
theorem resolve_class (w : Workspace) (ref : ComponentRef) :
    (nonempty? ref.file = none →
      (∀ c v, (resolve ref).outcome w = (.ok c, v) ↔
        w.project.named ref.className = [c] ∧ v = w) ∧
      (∀ files, files.Perm w.project.files → (resolve ref).outcome (w.withFiles files) =
        (((resolve ref).outcome w).1, w.withFiles files)) ∧
      ∀ (ps ps' : List Path) fs u, ps.Perm ps' → (ps.mapM require).outcome w = (.ok fs, u) →
        ∃ fs' u', (ps'.mapM require).outcome w = (.ok fs', u') ∧
          (resolve ref).outcome u' = (((resolve ref).outcome u).1, u')) ∧
    ∀ t, nonempty? ref.file = some t →
      (∀ e, w.resolveFrom w.project.root (.ofText t) = .error e →
        (resolve ref).outcome w = (.error (.fault e), w)) ∧
      (∀ q, w.resolveFrom w.project.root (.ofText t) = .ok q →
        (w.newAt q).length ≤ 1 ∧ (∀ f, f ∈ w.newAt q ↔
          w.project.file? q = none ∧ w.source q = .ok f ∧ f.path = q) ∧
        ∀ files, files.find? (fun f => decide (f.path = q)) = w.project.file? q →
          (resolve ref).outcome (w.withFiles files) =
            (classIn ref.className (w.sourceAt q), w.withFiles (files ++ w.newAt q))) ∧
      ∀ c v, (resolve ref).outcome w = (.ok c, v) → ∀ u, v.Leads u →
        (u.project.named ref.className).length = 1 →
          (resolve ⟨ref.className, none⟩).outcome u = (.ok c, u) := by
  refine ⟨fun hbare => ⟨fun c v => resolve_bare_eq_ok hbare, ?_, ?_⟩, fun t ht => ⟨?_, ?_, ?_⟩⟩
  · intro files hperm
    rw [resolve_bare_eq hbare]
    refine Prod.ext (resolve_bare_perm ?_) (resolve_bare_after _ _)
    exact named_files_perm w.project.root hperm _
  · intro ps ps' fs u hps hload
    obtain ⟨fs', files, files', rfl, hload', hperm⟩ := require_mapM_perm hps hload
    refine ⟨fs', _, hload', ?_⟩
    rw [resolve_bare_eq hbare]
    refine Prod.ext (resolve_bare_perm ?_) (resolve_bare_after _ _)
    exact named_files_perm w.project.root hperm _
  · exact fun e he => resolve_path_error ht he
  · intro q hq
    refine ⟨w.length_newAt_le q, fun f => Workspace.mem_newAt, fun files hsame => ?_⟩
    have hfile : (w.withFiles files).project.file? q = w.project.file? q := hsame
    have hsource : (w.withFiles files).source q = w.source q := rfl
    have hanswer := resolve_path_outcome (w := w.withFiles files) ht hq
    rw [Workspace.sourceAt, Workspace.newAt, hfile, hsource] at hanswer
    exact hanswer
  · intro c v hresolve u hleads hone
    have hnamed := named_subset_of_leads hleads _ (mem_named_of_resolve ht hresolve)
    obtain ⟨d, hd⟩ := List.length_eq_one_iff.1 hone
    rw [hd, List.mem_singleton] at hnamed
    rw [resolve_bare_outcome, hd, hnamed]
    rfl

/-- The class of a file that is loaded for it is the only loaded one of its name, although a file
that is not loaded has another one. -/
theorem resolve_class_markedWorkspace : ∃ c,
    (resolve ⟨"A", some "/ws/a.ts"⟩).outcome markedWorkspace =
      (.ok c, markedWorkspace.withSource plainFile) ∧
    (resolve ⟨"A", none⟩).outcome (markedWorkspace.withSource plainFile) =
      (.ok c, markedWorkspace.withSource plainFile) := by
  have hsource : markedWorkspace.source "/ws/a.ts" = .ok plainFile :=
    Workspace.source_of_parsed rfl rfl (parse?_markedFile (by decide))
  obtain ⟨d, hd, hfacts⟩ :=
    List.map_eq_singleton_iff.1 (classes_markedFiles plainFile List.mem_cons_self)
  have hname : d.name = some ("A" : Text) := (Prod.mk.inj hfacts).1
  obtain ⟨-, hfound, hlater⟩ := (resolve_class markedWorkspace ⟨"A", some "/ws/a.ts"⟩).2
    "/ws/a.ts" rfl
  have hresolve : (resolve ⟨"A", some "/ws/a.ts"⟩).outcome markedWorkspace =
      (.ok ⟨plainFile, d⟩, markedWorkspace.withSource plainFile) := by
    have hanswer := (hfound "/ws/a.ts" rfl).2.2 [] rfl
    have hat : markedWorkspace.sourceAt "/ws/a.ts" = .ok plainFile := hsource
    have hnew : markedWorkspace.newAt "/ws/a.ts" = [plainFile] := by
      rw [Workspace.newAt_of_unloaded rfl, hsource]
      rfl
    have hfirst : classIn "A" (.ok plainFile) = .ok ⟨plainFile, d⟩ := by
      rw [classIn, hd, List.find?_cons_of_pos (by exact decide_eq_true hname)]
    rw [hat, hnew] at hanswer
    exact hanswer.trans (congrArg (Prod.mk · _) hfirst)
  refine ⟨_, hresolve, hlater _ _ hresolve _ .here ?_⟩
  change ((plainFile.classes.map _ ++ []).filter _).length = 1
  rw [hd]
  simp [hname]

end Project

end CustomElements
