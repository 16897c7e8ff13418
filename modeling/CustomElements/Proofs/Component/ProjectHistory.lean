import CustomElements.Proofs.Component.Agreement

/-!
# The history of a project

The files of a project are a cache: a path that is asked for again is answered from it, whatever is
on the disk by then. Every operation, also one that fails halfway, leaves the files that were loaded
where they were and adds new ones behind them, each under a path of its own. Between two operations
everything but the project may change.
-/

namespace CustomElements

open CustomElements.Action

theorem Bytes.eq_ofChars_of_chars? {b : Bytes} {cs : List Char} (h : Bytes.chars? b = some cs) :
    b = Bytes.ofChars cs := by
  obtain ⟨s, hs, rfl⟩ := Option.map_eq_some_iff.1 h
  unfold String.fromUTF8? at hs
  split at hs
  · obtain rfl := Option.some.inj hs
    rw [Bytes.ofChars, String.ofList_toList]
    rfl
  · cases hs

/-- The mistakes that a file which cannot be loaded is, by what keeps it from being loaded. -/
inductive Mistake.IsOfSource : Mistake → Prop where
  | missing (file : Text) : IsOfSource (sourceMissing file)
  | unreadable (file : Path) : IsOfSource (sourceUnreadable file)
  | malformed (file : Path) : IsOfSource (sourceMalformed file)

/-- What the files of a project may become: more of them, under new paths. -/
structure Project.Grows (before after : Project) : Prop where
  root : after.root = before.root
  files : before.files <+: after.files
  distinct : (before.files.map SourceFile.path).Nodup → (after.files.map SourceFile.path).Nodup

namespace Project.Grows

variable {p q r : Project}

theorem refl (p : Project) : Grows p p := ⟨rfl, List.prefix_rfl, id⟩

theorem trans (h : Grows p q) (h' : Grows q r) : Grows p r :=
  ⟨h'.root.trans h.root, h.files.trans h'.files, fun hp => h'.distinct (h.distinct hp)⟩

/-- A file under a path that no loaded file has is added behind them. -/
theorem concat {f : SourceFile} (h : p.file? f.path = none) :
    Grows p ⟨p.root, p.files ++ [f]⟩ :=
  ⟨rfl, List.prefix_append _ _, fun hp => nodup_concat hp h⟩

/-- With different paths, a loaded file is found under its path at any later time. -/
theorem file? (h : Grows p q) (hp : (p.files.map SourceFile.path).Nodup) {f : SourceFile}
    (hf : f ∈ p.files) : q.file? f.path = some f :=
  find?_key (h.files.subset hf) rfl fun _ hg hpath =>
    List.inj_on_of_nodup_map (h.distinct hp) hg (h.files.subset hf) hpath

end Project.Grows

namespace Workspace

variable {w v u : Workspace} {f : SourceFile}

/-- The file is what is on the disk under its path, once some records have been logged. -/
def Holds (w : Workspace) (f : SourceFile) : Prop := ∃ rs, (w.report rs).source f.path = .ok f

/-- A file that is loaded keeps the bytes that it was loaded from. -/
theorem read_of_source {p : Path} (h : w.source p = .ok f) :
    w.read p = .ok (Bytes.ofChars f.tree.text) := by
  obtain ⟨-, cs, tree, hcs, htree, rfl⟩ := source_eq_ok.1 h
  obtain ⟨b, hb, hchars⟩ := Option.bind_eq_some_iff.1 hcs
  have hread : w.read p = .ok b := by
    cases hw : w.read p with
    | error e => rw [hw] at hb; cases hb
    | ok b' => rw [hw] at hb; exact congrArg Except.ok (Option.some.inj hb)
  rw [hread, Bytes.eq_ofChars_of_chars? hchars, TypeScript.text_of_parse? htree]

theorem isOfSource_of_source {p : Path} {m : Mistake} (h : w.source p = .error m) :
    m.IsOfSource := by
  unfold source at h
  split at h
  · obtain rfl := Except.error.inj h
    exact .missing _
  · split at h
    · obtain rfl := Except.error.inj h
      exact .unreadable _
    · split at h
      · obtain rfl := Except.error.inj h
        exact .malformed _
      · cases h

/-- What an operation may do: log, and load files that are on the disk behind those that are
loaded. -/
def Gathers (w v : Workspace) : Prop := ∃ rs fs,
  v = { w.report rs with project := ⟨w.project.root, w.project.files ++ fs⟩ } ∧
    w.project.Grows v.project ∧ ∀ f ∈ fs, w.Holds f

instance : Std.Refl Gathers where
  refl w := ⟨[], [], by rw [List.append_nil]; rfl, .refl _, List.forall_mem_nil _⟩

/-- Which files are loaded does not show in what is on the disk. -/
theorem Holds.of_gathered {rs : List LogRecord} {p : Project}
    (h : ({ w.report rs with project := p } : Workspace).Holds f) : w.Holds f := by
  obtain ⟨rs', hsource⟩ := h
  refine ⟨rs ++ rs', ?_⟩
  rw [report_with_project] at hsource
  rw [report, List.foldl_append]
  exact hsource

instance : IsTrans Workspace Gathers where
  trans := by
    rintro w v u ⟨rs, fs, rfl, hgrow, hfs⟩ ⟨rs', fs', rfl, hgrow', hfs'⟩
    refine ⟨rs ++ rs', fs ++ fs', ?_, hgrow.trans hgrow', ?_⟩
    · rw [report_with_project, report, report, report, List.foldl_append, List.append_assoc]
    · exact List.forall_mem_append.2 ⟨hfs, fun f hf => (hfs' f hf).of_gathered⟩

theorem Reported.gathers (h : Reported w v) : Gathers w v := by
  obtain ⟨rs, rfl⟩ := h
  have hproject : (w.report rs).project = w.project := Reported.project_eq ⟨rs, rfl⟩
  refine ⟨rs, [], ?_, hproject ▸ .refl _, List.forall_mem_nil _⟩
  rw [List.append_nil, ← hproject]

/-- Loading a file that is on the disk and not loaded yet. -/
theorem gathers_withSource {q : Path} (hnew : w.project.file? q = none)
    (hsource : w.source q = .ok f) : Gathers w (w.withSource f) := by
  obtain rfl := path_of_source hsource
  exact ⟨[], [f], rfl, .concat hnew, List.forall_mem_singleton.2 ⟨[], hsource⟩⟩

end Workspace

namespace Action

variable {α : Type}

/-- The actions that only log and load files that are not loaded yet, however they end. -/
abbrev OnlyGathers (a : Action α) : Prop := Within Workspace.Gathers (fun _ => True) a

theorem OnlyReports.onlyGathers {a : Action α} (h : OnlyReports a) : OnlyGathers a :=
  ⟨fun w => (h.leaves w).gathers, fun _ _ _ => trivial⟩

end Action

namespace Project

variable {w : Workspace}

theorem LeftByLoad.gathers {v : Workspace} {p : Path} (h : LeftByLoad w p v) :
    Workspace.Gathers w v := by
  cases h with
  | reported same => exact same.gathers
  | loaded place new source => exact Workspace.gathers_withSource new source

theorem require_onlyGathers (p : Path) : OnlyGathers (require p) :=
  ⟨fun w => (require_leaves p w).gathers, fun _ _ _ => trivial⟩

theorem offer_onlyGathers (p : Path) : OnlyGathers (offer p) :=
  ⟨fun w => (offer_leaves p w).gathers, fun _ _ _ => trivial⟩

/-- A look for a loaded file changes nothing. -/
theorem find?_outcome (p : Path) (w : Workspace) :
    (find? p).outcome w = ((w.resolveFrom w.project.root p).map w.project.file?
      |>.mapError Failure.fault, w) := by
  rw [find?, outcome_bind, locate, outcome_look]
  cases w.resolveFrom w.project.root p <;> rfl

/-- A class that is looked for in all loaded files changes nothing. -/
theorem resolve_bare_after (name : Text) (w : Workspace) :
    ((resolve ⟨name, none⟩).outcome w).2 = w := by
  have hbare : nonempty? (ComponentRef.mk name none).file = none := rfl
  rw [resolve, hbare, outcome_get_bind]
  dsimp only
  split <;> rfl

/-- The operations on a project that is there. -/
inductive Operation : {α : Type} → Action α → Prop where
  | require (p : Path) : Operation (require p)
  | offer (p : Path) : Operation (offer p)
  | addDirectory (p : Path) : Operation (addDirectory p)
  | find (p : Path) : Operation (find? p)
  | resolve (ref : ComponentRef) : Operation (resolve ref)
  | discover (rule : DiscoveryRule) : Operation (discover rule)

/-- An operation logs and loads new files, and does nothing else. -/
theorem Operation.onlyGathers {α : Type} {a : Action α} (h : Operation a) : OnlyGathers a := by
  cases h with
  | require p => exact require_onlyGathers p
  | offer p => exact offer_onlyGathers p
  | addDirectory p =>
    exact addDirectory_within (fun q => (locate_onlyReports q).onlyGathers) offer_onlyGathers p
  | find p =>
    refine (locate_onlyReports p).onlyGathers.bind fun path => ?_
    exact Within.get.bind fun w => Within.pure _
  | resolve ref => exact resolve_within require_onlyGathers ref
  | discover rule => exact (discover_onlyReports rule).onlyGathers

end Project

/-- A workspace leads to another one by operations on its project in any order, with or without an
answer. Between them everything but the project may change. -/
inductive Workspace.Leads (w : Workspace) : Workspace → Prop where
  | here : Leads w w
  | operation {v : Workspace} {α : Type} {a : Action α} (before : Leads w v)
      (operation : Project.Operation a) : Leads w (a.outcome v).2
  | outside {v u : Workspace} (before : Leads w v) (project : u.project = v.project) : Leads w u

/-- Over any history, files are only added, under new paths. -/
theorem Workspace.Leads.grows {w v : Workspace} (h : w.Leads v) : w.project.Grows v.project := by
  induction h with
  | here => exact .refl _
  | operation _ operation ih =>
    obtain ⟨_, _, _, hgrows, _⟩ := operation.onlyGathers.leaves _
    exact ih.trans hgrows
  | outside _ project ih => rwa [project]

namespace Project

variable {w v u : Workspace}

/-- How a file that is asked for and one that is found are loaded from one workspace: the same file
with the same effects, or the same failure, unless the file cannot be loaded. Then asking is a
mistake without an effect, and the find is left out with the message of that mistake. -/
inductive LoadedAlike (w : Workspace) :
    Except Failure SourceFile × Workspace → Except Failure (Option SourceFile) × Workspace → Prop
  | loaded (f : SourceFile) (w' : Workspace) : LoadedAlike w (.ok f, w') (.ok (some f), w')
  | refused (m : Mistake) (source : m.IsOfSource) : LoadedAlike w (.error (.mistake m), w)
      (.ok none, w.note ⟨.warning, loggerRoot ++ "source", m.message⟩)
  | faulty (e : Fault) : LoadedAlike w (.error (.fault e), w) (.error (.fault e), w)

theorem require_offer (p : Path) (w : Workspace) :
    LoadedAlike w ((require p).outcome w) ((offer p).outcome w) := by
  rw [require_outcome, offer_outcome]
  split
  · exact .faulty _
  · split
    · exact .loaded _ _
    · split
      · next hsource => exact .refused _ (Workspace.isOfSource_of_source hsource)
      · exact .loaded _ _

/-- Asking is a mistake about the source exactly if the find is left out. -/
theorem LoadedAlike.refused_iff {r : Except Failure SourceFile × Workspace}
    {o : Except Failure (Option SourceFile) × Workspace} (h : LoadedAlike w r o) :
    (∃ m, m.IsOfSource ∧ r.1 = .error (.mistake m)) ↔ o.1 = .ok none := by
  cases h with
  | loaded f w' => exact ⟨fun ⟨_, _, h⟩ => (nomatch h), fun h => (nomatch h)⟩
  | refused m source => exact ⟨fun _ => rfl, fun _ => ⟨m, source, rfl⟩⟩
  | faulty e => exact ⟨fun ⟨_, _, h⟩ => (nomatch h), fun h => (nomatch h)⟩

/-- A load without a file loads nothing. -/
theorem LoadedAlike.unchanged {r : Except Failure SourceFile × Workspace}
    {o : Except Failure (Option SourceFile) × Workspace} (h : LoadedAlike w r o) :
    (∀ e, r.1 = .error e → r.2 = w) ∧
      ((∀ f, o.1 ≠ .ok (some f)) → o.2.project = w.project) := by
  cases h with
  | loaded f w' => exact ⟨fun _ h => (nomatch h), fun h => absurd rfl (h f)⟩
  | refused m source => exact ⟨fun _ _ => rfl, fun _ => rfl⟩
  | faulty e => exact ⟨fun _ _ => rfl, fun _ => rfl⟩

/-- A file that is loaded is answered from what is loaded. -/
theorem loads_loaded {f : SourceFile} (h : v.project.file? f.path = some f) {p : Path}
    (hp : v.resolveFrom v.project.root p = .ok f.path) :
    (require p).outcome v = (.ok f, v) ∧ (offer p).outcome v = (.ok (some f), v) ∧
      (find? p).outcome v = (.ok (some f), v) := by
  rw [require_outcome, offer_outcome, find?_outcome, hp]
  dsimp only
  rw [h]
  exact ⟨rfl, rfl, congrArg (fun r => (Except.ok r, v)) h⟩

/-- What holds of the project of a workspace `v`, of which a workspace `u` was an earlier one. -/
structure IsCacheSince (u v : Workspace) : Prop where
  root : v.project.root = u.project.root
  distinct : (v.project.files.map SourceFile.path).Nodup
  grown : u.project.files <+: v.project.files
  /-- Under any path that leads to it, a file that was loaded is the one that was loaded. -/
  kept : ∀ f ∈ u.project.files, ∀ p, v.resolveFrom v.project.root p = .ok f.path →
    (require p).outcome v = (.ok f, v) ∧ (offer p).outcome v = (.ok (some f), v) ∧
      (find? p).outcome v = (.ok (some f), v)
  /-- What an operation adds has the bytes that are on the disk. -/
  added : ∀ {α : Type} {a : Action α}, Operation a → ∃ rs fs,
    (a.outcome v).2 =
      { v.report rs with project := ⟨v.project.root, v.project.files ++ fs⟩ } ∧
    ∀ f ∈ fs, ∃ rs', (v.report rs').source f.path = .ok f ∧
      (v.report rs').read f.path = .ok (Bytes.ofChars f.tree.text)
  failing : ∀ p, (∀ e, ((require p).outcome v).1 = .error e → ((require p).outcome v).2 = v) ∧
    ((∀ f, ((offer p).outcome v).1 ≠ .ok (some f)) →
      ((offer p).outcome v).2.project = v.project)
  alike : ∀ p, LoadedAlike v ((require p).outcome v) ((offer p).outcome v)
  refused : ∀ p, (∃ m, m.IsOfSource ∧ ((require p).outcome v).1 = .error (.mistake m)) ↔
    ((offer p).outcome v).1 = .ok none
  found : ∀ p, ((find? p).outcome v).2 = v
  resolved : ∀ name, ((resolve ⟨name, none⟩).outcome v).2 = v
  discovered : ∀ rule, ((discover rule).outcome v).2.project = v.project

/-- From an empty project on, whatever is done and whatever happens to the disk meanwhile, a project
is the cache of all that was ever loaded. -/
theorem isCacheSince {w u v : Workspace} (hstart : w.project.files = []) (hu : w.Leads u)
    (hv : u.Leads v) : IsCacheSince u v := by
  have hdistinct : (u.project.files.map SourceFile.path).Nodup := by
    refine hu.grows.distinct ?_
    rw [hstart]
    exact List.nodup_nil
  constructor
  case root => exact hv.grows.root
  case distinct => exact hv.grows.distinct hdistinct
  case grown => exact hv.grows.files
  case kept => exact fun f hf p hp => loads_loaded (hv.grows.file? hdistinct hf) hp
  case added =>
    intro α a operation
    obtain ⟨rs, fs, hafter, _, hfs⟩ := operation.onlyGathers.leaves v
    refine ⟨rs, fs, hafter, fun f hf => ?_⟩
    obtain ⟨rs', hsource⟩ := hfs f hf
    exact ⟨rs', hsource, Workspace.read_of_source hsource⟩
  case failing => exact fun p => (require_offer p v).unchanged
  case alike => exact fun p => require_offer p v
  case refused => exact fun p => (require_offer p v).refused_iff
  case found => exact fun p => congrArg Prod.snd (find?_outcome p v)
  case resolved => exact fun name => resolve_bare_after name v
  case discovered => exact fun rule => ((discover_onlyReports rule).leaves v).project_eq

/-- A workspace that has loaded a file, and nothing is on the disk any more. -/
def emptiedWorkspace : Workspace :=
  { markedWorkspace.withSource plainFile with files := .dir [] }

/-- A file is answered as it was loaded when it is gone from the disk. -/
theorem isCacheSince_emptiedWorkspace :
    (require "x/../a.ts").outcome emptiedWorkspace = (.ok plainFile, emptiedWorkspace) := by
  have hsource : markedWorkspace.source "/ws/a.ts" = .ok plainFile :=
    Workspace.source_of_parsed rfl rfl (parse?_markedFile (by decide))
  have hloaded : markedWorkspace.Leads (markedWorkspace.withSource plainFile) := by
    have hafter := LoadStep.after_require (p := "a.ts") (q := "/ws/a.ts") rfl rfl hsource
    exact hafter ▸ .operation .here (.require "a.ts")
  have hcache := isCacheSince (v := emptiedWorkspace) rfl hloaded (.outside .here rfl)
  exact (hcache.kept plainFile List.mem_cons_self "x/../a.ts" rfl).1

end Project

end CustomElements
