import Mathlib.Data.List.Perm.Basic
import CustomElements.Proofs.Generation.Listing

/-!
# Files that entries bring

An entry with a path loads the file at the path, unless it is loaded already. So the component of an
entry depends on the entries before it only by the files that these have brought, and only if the
entry is a class name alone: then the name is looked up in all loaded files. Which files there are
that declare the name is all that counts, not the order in which they were brought.
-/

namespace CustomElements

open CustomElements.Action Workspace

/-- Whether a class of the file has this name. -/
def SourceFile.declares (f : SourceFile) (name : Text) : Bool :=
  f.classes.any fun c => decide (c.name = some name)

/-- The classes of all loaded files that have this name. -/
def Project.named (project : Project) (name : Text) : List LocatedClass :=
  project.classes.filter fun c => decide (c.declaration.name = some name)

/-- The workspace with more loaded files. -/
def Workspace.withSources (w : Workspace) (fs : List SourceFile) : Workspace :=
  { w with project := { w.project with files := w.project.files ++ fs } }

/-- The entry refers to a class by its name alone. -/
def ElementEntry.IsBare (e : ElementEntry) (name : Text) : Prop :=
  ComponentRef.parse e.component = .ok ⟨name, none⟩

/-- The file that an entry refers to by its path, if the file is not loaded yet. -/
def ElementEntry.brought? (e : ElementEntry) (w : Workspace) : Option SourceFile :=
  match ComponentRef.parse e.component with
  | .ok ⟨_, some t⟩ =>
    match w.resolveFrom w.project.root (.ofText t) with
    | .ok q => if (w.project.file? q).isSome then none else (w.source q).toOption
    | .error _ => none
  | _ => none

/-- Loading the class of the entry brings this file. -/
def ElementEntry.Brings (e : ElementEntry) (w : Workspace) (f : SourceFile) : Prop :=
  e.brought? w = some f

/-- The files that these entries bring, each once. -/
structure Brought (w : Workspace) (es : List ElementEntry) (fs : List SourceFile) : Prop where
  mem : ∀ f, f ∈ fs ↔ ∃ e ∈ es, e.Brings w f
  distinct : (fs.map SourceFile.path).Nodup

variable {w u u' : Workspace} {e : ElementEntry} {es es' : List ElementEntry}
variable {f g : SourceFile} {fs fs' : List SourceFile} {name : Text}

namespace Workspace

theorem withSources_nil (w : Workspace) : w.withSources [] = w := by
  rw [withSources, List.append_nil]

/-- A file that was loaded before comes first. -/
theorem file?_withSources (w : Workspace) (fs : List SourceFile) (q : Path) :
    (w.withSources fs).project.file? q =
      (w.project.file? q).or (fs.find? fun f => decide (f.path = q)) := List.find?_append

theorem withSources_concat (w : Workspace) (fs : List SourceFile) (f : SourceFile) :
    (w.withSources fs).withSource f = w.withSources (fs ++ [f]) := by
  rw [withSource, withSources, withSources, List.append_assoc]

end Workspace

namespace ElementEntry

theorem brings_iff : e.Brings w f ↔
    ∃ name t q, ComponentRef.parse e.component = .ok ⟨name, some t⟩ ∧
      w.resolveFrom w.project.root (.ofText t) = .ok q ∧ w.project.file? q = none ∧
        w.source q = .ok f := by
  unfold Brings brought?
  constructor
  · intro h
    split at h
    · next name t hparse =>
      split at h
      · next q hq =>
        split at h
        · cases h
        · next hnew =>
          cases hsource : w.source q with
          | error m =>
            rw [hsource] at h
            cases h
          | ok g =>
            rw [hsource] at h
            obtain rfl := Option.some.inj h
            exact ⟨name, t, q, hparse, hq, Option.not_isSome_iff_eq_none.1 hnew, hsource⟩
      · cases h
    · cases h
  · rintro ⟨name, t, q, hparse, hq, hnew, hsource⟩
    rw [hparse]
    dsimp only
    rw [hq]
    dsimp only
    rw [hnew, hsource]
    rfl

theorem Brings.unloaded (h : e.Brings w f) : w.project.file? f.path = none := by
  obtain ⟨_, _, q, -, -, hnew, hsource⟩ := brings_iff.1 h
  rwa [path_of_source hsource]

theorem Brings.source (h : e.Brings w f) : w.source f.path = .ok f := by
  obtain ⟨_, _, q, -, -, -, hsource⟩ := brings_iff.1 h
  rwa [path_of_source hsource]

theorem Brings.eq_of_path {d : ElementEntry} (hf : e.Brings w f) (hg : d.Brings w g)
    (h : f.path = g.path) : f = g := by
  have hsource := hf.source
  rw [h, hg.source] at hsource
  exact (Except.ok.inj hsource).symm

/-- An entry brings no more than one file. -/
theorem Brings.unique (hf : e.Brings w f) (hg : e.Brings w g) : f = g :=
  Option.some.inj (hf.symm.trans hg)

end ElementEntry

namespace Brought

theorem nil (w : Workspace) : Brought w [] [] :=
  ⟨fun _ => iff_of_false List.not_mem_nil fun ⟨_, h, _⟩ => List.not_mem_nil h, List.nodup_nil⟩

theorem mem_concat : (∃ d ∈ es ++ [e], d.Brings w f) ↔ (∃ d ∈ es, d.Brings w f) ∨ e.Brings w f := by
  simp only [List.mem_append, List.mem_singleton, or_and_right, exists_or, exists_eq_left]

/-- An entry that brings nothing new. -/
theorem concat_old (h : Brought w es fs) (hold : ∀ f, e.Brings w f → f ∈ fs) :
    Brought w (es ++ [e]) fs := by
  refine ⟨fun f => ?_, h.distinct⟩
  rw [mem_concat, ← h.mem]
  exact ⟨.inl, fun hf => hf.elim id (hold f)⟩

theorem concat_new (h : Brought w es fs) (hf : e.Brings w f) (hnew : f ∉ fs) :
    Brought w (es ++ [e]) (fs ++ [f]) := by
  constructor
  · intro g
    rw [mem_concat, ← h.mem, List.mem_append, List.mem_singleton]
    refine or_congr_right ⟨?_, fun hg => hg.unique hf⟩
    rintro rfl
    exact hf
  · rw [List.map_append, List.map_singleton]
    apply nodup_append_singleton h.distinct
    intro hm
    obtain ⟨g, hg, hpath⟩ := List.mem_map.1 hm
    obtain ⟨d, -, hd⟩ := (h.mem g).1 hg
    exact hnew (hf.eq_of_path hd hpath.symm ▸ hg)

theorem exists_concat (h : Brought w es fs) (e : ElementEntry) :
    ∃ fs', Brought w (es ++ [e]) fs' := by
  by_cases hb : ∃ f, e.Brings w f ∧ f ∉ fs
  · obtain ⟨f, hf, hnew⟩ := hb
    exact ⟨_, h.concat_new hf hnew⟩
  · refine ⟨fs, h.concat_old fun f hf => ?_⟩
    by_contra hnew
    exact hb ⟨f, hf, hnew⟩

theorem exists_brought (w : Workspace) (es : List ElementEntry) : ∃ fs, Brought w es fs := by
  induction es using List.reverseRecOn with
  | nil => exact ⟨[], nil w⟩
  | append_singleton es e ih =>
    obtain ⟨fs, h⟩ := ih
    exact h.exists_concat e

theorem nodup (h : Brought w es fs) : fs.Nodup := h.distinct.of_map _

end Brought

section Names

/-- Only files that declare a name have classes of the name. -/
theorem filter_classes_eq_nil (h : f.declares name = false) :
    (f.classes.map fun c => (⟨f, c⟩ : LocatedClass)).filter
      (fun c => decide (c.declaration.name = some name)) = [] := by
  rw [List.filter_eq_nil_iff]
  intro c hc hname
  obtain ⟨d, hd, rfl⟩ := List.mem_map.1 hc
  exact List.any_eq_false.1 h d hd hname

theorem named_eq_flatMap (project : Project) (name : Text) :
    project.named name = (project.files.filter (·.declares name)).flatMap fun f =>
      (f.classes.map fun c => (⟨f, c⟩ : LocatedClass)).filter
        fun c => decide (c.declaration.name = some name) := by
  rw [Project.named, Project.classes, List.filter_flatMap]
  induction project.files with
  | nil => rfl
  | cons f files ih =>
    rw [List.flatMap_cons, ih]
    cases hf : f.declares name with
    | false =>
      rw [List.filter_cons_of_neg (by simp [hf]), filter_classes_eq_nil hf, List.nil_append]
    | true => rw [List.filter_cons_of_pos (by simpa using hf), List.flatMap_cons]

/-- A name is looked up in the same classes if the same files were brought that declare it. -/
theorem named_perm (h : Brought w es fs) (h' : Brought w es' fs')
    (hsame : ∀ f, f.declares name → (f ∈ fs ↔ f ∈ fs')) :
    ((w.withSources fs).project.named name).Perm ((w.withSources fs').project.named name) := by
  have hfiles : (fs.filter (·.declares name)).Perm (fs'.filter (·.declares name)) := by
    refine (List.perm_ext_iff_of_nodup (h.nodup.filter _) (h'.nodup.filter _)).2 fun f => ?_
    rw [List.mem_filter, List.mem_filter]
    exact and_congr_left (hsame f)
  rw [named_eq_flatMap, named_eq_flatMap]
  apply List.Perm.flatMap_right
  change ((w.project.files ++ fs).filter _).Perm ((w.project.files ++ fs').filter _)
  rw [List.filter_append, List.filter_append]
  exact hfiles.append_left _

/-- The only class of a list that was searched for a name. -/
def onlyNamed (name : Text) : List LocatedClass → Except Failure LocatedClass
  | [c] => .ok c
  | [] => .error (.mistake (.classUnknown name))
  | cs => .error (.mistake (.classAmbiguous name cs.length))

theorem resolve_bare_outcome (name : Text) (w : Workspace) :
    (Project.resolve ⟨name, none⟩).outcome w = (onlyNamed name (w.project.named name), w) := by
  have hbare : nonempty? (ComponentRef.mk name none).file = none := rfl
  rw [Project.resolve, hbare]
  dsimp only
  rw [outcome_get_bind]
  unfold Project.named
  generalize w.project.classes.filter _ = cs
  rcases cs with _ | ⟨c, _ | ⟨c', cs⟩⟩
  · rfl
  · rfl
  · rfl

/-- The class that a name means does not depend on the order of the classes of the name. -/
theorem resolve_bare_perm {v : Workspace}
    (h : (u.project.named name).Perm (v.project.named name)) :
    ((Project.resolve ⟨name, none⟩).outcome u).1 =
      ((Project.resolve ⟨name, none⟩).outcome v).1 := by
  rw [resolve_bare_outcome, resolve_bare_outcome]
  generalize u.project.named name = cs at h
  generalize v.project.named name = ds at h
  rcases cs with _ | ⟨c, _ | ⟨c', cs⟩⟩
  · rw [List.nil_perm.1 h]
  · rw [List.singleton_perm.1 h]
  · rcases ds with _ | ⟨d, _ | ⟨d', ds⟩⟩
    · cases h.length_eq
    · cases h.length_eq
    · show Except.error (Failure.mistake (.classAmbiguous name (c :: c' :: cs).length)) = _
      rw [h.length_eq]
      rfl

end Names

section Turns

/-- A file is asked for where more files are loaded. -/
theorem require_withSources (p : Path) (w : Workspace) (fs : List SourceFile) :
    (Project.require p).outcome (w.withSources fs) = match w.resolveFrom w.project.root p with
      | .error f => (.error (.fault f), w.withSources fs)
      | .ok q => match (w.project.file? q).or (fs.find? fun f => decide (f.path = q)) with
        | some f => (.ok f, w.withSources fs)
        | none => match w.source q with
          | .error m => (.error (.mistake m), w.withSources fs)
          | .ok f => (.ok f, w.withSources (fs ++ [f])) := by
  have hpath : (w.withSources fs).resolveFrom (w.withSources fs).project.root p =
      w.resolveFrom w.project.root p := rfl
  rw [Project.require_outcome, hpath]
  cases w.resolveFrom w.project.root p with
  | error f => rfl
  | ok q =>
    dsimp only
    rw [Workspace.file?_withSources]
    cases (w.project.file? q).or (fs.find? fun f => decide (f.path = q)) with
    | some f => rfl
    | none =>
      have hsource : (w.withSources fs).source q = w.source q := rfl
      dsimp only
      rw [hsource]
      cases w.source q with
      | error m => rfl
      | ok f => exact congrArg (Prod.mk _) (withSources_concat w fs f)

/-- A file that is asked for is the same whether it has been brought already or not. -/
theorem require_brought (h : Brought w es fs) (p : Path) :
    ((Project.require p).outcome (w.withSources fs)).1 = ((Project.require p).outcome w).1 := by
  rw [require_withSources, Project.require_outcome]
  cases w.resolveFrom w.project.root p with
  | error f => rfl
  | ok q =>
    dsimp only
    cases w.project.file? q with
    | some f => rfl
    | none =>
      rw [Option.none_or]
      cases hfs : fs.find? fun f => decide (f.path = q) with
      | some f =>
        obtain ⟨hmem, hpath⟩ := of_find?_key hfs
        obtain ⟨d, -, hd⟩ := (h.mem f).1 hmem
        rw [← hpath, hd.source]
      | none => cases w.source q <;> rfl

/-- After an entry with a path, the file at the path is one of those that have been brought, unless
it was loaded from the start. -/
theorem require_concat (h : Brought w es fs) {t : Text}
    (hparse : ComponentRef.parse e.component = .ok ⟨name, some t⟩)
    (hf : (Project.require (.ofText t)).outcome (w.withSources fs) = (.ok f, u)) :
    ∃ fs', Brought w (es ++ [e]) fs' ∧ u = w.withSources fs' := by
  have hfound {q : Path} {g : SourceFile}
      (hq : w.resolveFrom w.project.root (.ofText t) = .ok q) (hg : e.Brings w g) :
      w.project.file? q = none ∧ w.source q = .ok g := by
    obtain ⟨_, _, q', hparse', hq', hnew, hsource⟩ := ElementEntry.brings_iff.1 hg
    obtain ⟨-, ht⟩ := ComponentRef.mk.inj (Except.ok.inj (hparse.symm.trans hparse'))
    obtain rfl := Option.some.inj ht
    obtain rfl := Except.ok.inj (hq.symm.trans hq')
    exact ⟨hnew, hsource⟩
  rw [require_withSources] at hf
  split at hf
  · cases hf
  · next q hq =>
    split at hf
    · next g hg =>
      obtain ⟨-, rfl⟩ := Prod.mk.inj hf
      refine ⟨fs, h.concat_old fun k hk => ?_, rfl⟩
      obtain ⟨hnew, hsource⟩ := hfound hq hk
      rw [hnew, Option.none_or] at hg
      obtain ⟨hmem, hpath⟩ := of_find?_key hg
      obtain ⟨d, -, hd⟩ := (h.mem g).1 hmem
      have hgsource := hd.source
      rw [hpath, hsource] at hgsource
      exact Except.ok.inj hgsource ▸ hmem
    · next hnone =>
      rw [Option.or_eq_none_iff] at hnone
      split at hf
      · cases hf
      · next g hsource =>
        obtain ⟨-, rfl⟩ := Prod.mk.inj hf
        have hbrings : e.Brings w g :=
          ElementEntry.brings_iff.2 ⟨name, t, q, hparse, hq, hnone.1, hsource⟩
        refine ⟨_, h.concat_new hbrings fun hmem => ?_, rfl⟩
        exact List.find?_eq_none.1 hnone.2 g hmem (decide_eq_true (path_of_source hsource))

theorem resolve_concat (h : Brought w es fs) {ref : ComponentRef} {found : LocatedClass}
    (hparse : ComponentRef.parse e.component = .ok ref)
    (hresolve : (Project.resolve ref).outcome (w.withSources fs) = (.ok found, u)) :
    ∃ fs', Brought w (es ++ [e]) fs' ∧ u = w.withSources fs' := by
  obtain ⟨name, _ | t⟩ := ref
  · rw [resolve_bare_outcome] at hresolve
    refine ⟨fs, h.concat_old fun f hf => ?_, (Prod.mk.inj hresolve).2.symm⟩
    obtain ⟨_, _, _, hparse', -⟩ := ElementEntry.brings_iff.1 hf
    cases hparse.symm.trans hparse'
  · rw [Project.resolve_outcome name (ComponentRef.file_ne_nil hparse rfl)] at hresolve
    cases hrequire : (Project.require (.ofText t)).outcome (w.withSources fs) with
    | mk r v =>
      rw [hrequire] at hresolve
      cases r with
      | error x => cases hresolve
      | ok f =>
        obtain ⟨fs', hfs', rfl⟩ := require_concat h hparse hrequire
        refine ⟨fs', hfs', ?_⟩
        dsimp only at hresolve
        split at hresolve
        · exact (Prod.mk.inj hresolve).2.symm
        · exact (Prod.mk.inj hresolve).2.symm

/-- What is made of the class that the reference of an entry means. -/
def describe (e : ElementEntry) (ref : ComponentRef) (found : LocatedClass) :
    Action Component := do
  let members ← Action.ofEscapes found.declaration.members
  let name := found.declaration.name
  Action.record .debug "orchestrator" ("<" ++ e.tag ++ "> " ++ name.getD "None" ++ ": "
    ++ countKind .input members ++ " input(s), " ++ countKind .output members ++ " output(s)")
  return {
    tag := e.tag, className := name.getD ref.className, file := found.file.path,
    members := members }

theorem componentOf_eq (e : ElementEntry) :
    componentOf e = (do
      let ref ← Action.ofMistakes (ComponentRef.parse e.component)
      let found ← Project.resolve ref
      describe e ref found) := rfl

theorem describe_answer (e : ElementEntry) (ref : ComponentRef) (found : LocatedClass)
    (u v : Workspace) :
    ((describe e ref found).outcome u).1 = ((describe e ref found).outcome v).1 := by
  unfold describe
  rcases found.declaration.members with (_ | _) | members
  · rfl
  · rfl
  · rfl

theorem describe_reports (e : ElementEntry) (ref : ComponentRef) (found : LocatedClass) :
    OnlyReports (describe e ref found) := by
  refine (Within.ofEscapes (fun _ => trivial) _).bind fun members => ?_
  exact (OnlyReports.record _ _ _).bind fun _ => Within.pure _

/-- An entry has the component that its class has. -/
theorem componentOf_answer {v : Workspace} {ref : ComponentRef}
    (hparse : ComponentRef.parse e.component = .ok ref)
    (h : ((Project.resolve ref).outcome u).1 = ((Project.resolve ref).outcome v).1) :
    ((componentOf e).outcome u).1 = ((componentOf e).outcome v).1 := by
  rw [componentOf_eq, hparse]
  change ((Project.resolve ref >>= describe e ref).outcome u).1 =
    ((Project.resolve ref >>= describe e ref).outcome v).1
  rw [outcome_bind, outcome_bind]
  generalize (Project.resolve ref).outcome u = r at h
  generalize (Project.resolve ref).outcome v = s at h
  obtain ⟨r, u'⟩ := r
  obtain ⟨s, v'⟩ := s
  obtain rfl : r = s := h
  cases r with
  | error x => rfl
  | ok found => exact describe_answer e ref found u' v'

/-- The entries before an entry count only by the files they bring that declare its name. -/
theorem componentOf_brought (h : Brought w es fs) (h' : Brought w es' fs')
    (hsame : ∀ name f, e.IsBare name → f.declares name → (f ∈ fs ↔ f ∈ fs')) :
    ((componentOf e).outcome (w.withSources fs)).1 =
      ((componentOf e).outcome (w.withSources fs')).1 := by
  cases hparse : ComponentRef.parse e.component with
  | error m =>
    rw [componentOf_eq, hparse]
    rfl
  | ok ref =>
    apply componentOf_answer hparse
    obtain ⟨name, _ | t⟩ := ref
    · exact resolve_bare_perm (named_perm h h' fun f => hsame name f hparse)
    · have hrequire := (require_brought h (.ofText t)).trans (require_brought h' (.ofText t)).symm
      have ht : t ≠ [] := ComponentRef.file_ne_nil hparse rfl
      rw [Project.resolve_outcome name ht, Project.resolve_outcome name ht]
      generalize (Project.require (.ofText t)).outcome (w.withSources fs) = r at hrequire
      generalize (Project.require (.ofText t)).outcome (w.withSources fs') = s at hrequire
      obtain ⟨r, u⟩ := r
      obtain ⟨s, v⟩ := s
      obtain rfl : r = s := hrequire
      cases r with
      | error x => rfl
      | ok f =>
        dsimp only
        cases f.classes.find? fun c => decide (c.name = some name) <;> rfl

/-- After a component is made, the files that its entry brings are loaded. -/
theorem componentOf_concat (hlog : w.logFile = none) (h : Brought w es fs) {k : Component}
    (hk : (componentOf e).outcome (w.withSources fs) = (.ok k, u)) :
    ∃ fs', Brought w (es ++ [e]) fs' ∧ ApartFromLog (w.withSources fs') u := by
  rw [componentOf_eq] at hk
  obtain ⟨ref, _, hread, hk⟩ := outcome_bind_eq_ok.1 hk
  obtain ⟨hparse, rfl⟩ := outcome_ofMistakes_eq_ok.1 hread
  obtain ⟨found, v, hresolve, hk⟩ := outcome_bind_eq_ok.1 hk
  obtain ⟨fs', hfs', rfl⟩ := resolve_concat h hparse hresolve
  obtain ⟨rs, hrs⟩ := (describe_reports e ref found).leaves (w.withSources fs')
  rw [hk] at hrs
  obtain rfl : u = _ := hrs
  exact ⟨fs', hfs', ApartFromLog.report (w := w.withSources fs') hlog rs⟩

end Turns

end CustomElements
