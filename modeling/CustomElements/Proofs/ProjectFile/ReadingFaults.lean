import CustomElements.Proofs.Json.LongIntegers
import CustomElements.Proofs.ProjectFile.ReadOnce

/-!
# How reading a project file fails

Reading a project file and its bases fails with a mistake that says what is wrong with one of the
files, except for faults of two kinds: an integer with too many digits in a file, and a path that a
file names and that cannot be resolved. What is read otherwise names resolved paths only.
-/

namespace CustomElements

/-- What can be wrong with a project file. -/
inductive Mistake.IsOfProjectFile : Mistake → Prop where
  | circular (file : Path) : IsOfProjectFile (projectCircular file)
  | unreadable (file : Path) : IsOfProjectFile (projectUnreadable file)
  | malformed (file : Path) : IsOfProjectFile (projectMalformed file)
  | noObject (file : Path) : IsOfProjectFile (projectNoObject file)

/-- An `extends` value names a base that has no path. -/
inductive Value.NamesLost (w : Workspace) (directory : Path) : Value → Fault → Prop where
  | text {t : Text} {f : Fault} (relative : Text.startsWith t "." = true)
      (lost : baseFile w directory t = .error f) : NamesLost w directory (.text t) f
  | list {vs : List Value} {v : Value} {f : Fault} (among : v ∈ vs)
      (lost : NamesLost w directory v f) : NamesLost w directory (.list vs) f

/-- What is at fault in one of the files that are read: an integer with too many digits, or a path
that it names, of a base, of the outputs or of a source. Records may be logged meanwhile. -/
inductive ReadingFault (w : Workspace) (reads : List Path) : Fault → Prop where
  | digits {v : Workspace} {p : Path} {cs : List Char} (later : w.Reported v) (read : p ∈ reads)
      (held : v.readText p = .ok cs) (long : Json.HasLongInteger (Json.plain (.ofChars cs))) :
      ReadingFault w reads .badValue
  | base {v : Workspace} {g : WrittenFile} {f : Fault} (later : w.Reported v)
      (read : g.path ∈ reads) (held : g.Holds v)
      (lost : (g.data.get "extends").NamesLost v g.directory f) : ReadingFault w reads f
  | outDir {v : Workspace} {g : WrittenFile} {p : Path} {f : Fault} (later : w.Reported v)
      (read : g.path ∈ reads) (held : g.Holds v) (named : g.outPath = some p)
      (lost : v.resolve p = .error f) : ReadingFault w reads f
  | listed {v : Workspace} {g : WrittenFile} {ps : List Path} {p : Path} {f : Fault}
      (later : w.Reported v) (read : g.path ∈ reads) (held : g.Holds v)
      (named : g.filePaths = some ps) (among : p ∈ ps) (lost : v.resolve p = .error f) :
      ReadingFault w reads f

variable {t : ReadTask} {seen reads others : List Path} {w v : Workspace} {r : ReadEnd}
variable {p : Path} {e : Failure} {f : Fault}

/-- A fault of files that are read later, and among more of them. -/
theorem ReadingFault.earlier (h : ReadingFault v reads f) (hv : w.Reported v)
    (hreads : reads ⊆ others) : ReadingFault w others f := by
  have hlater {u : Workspace} (hu : v.Reported u) : w.Reported u :=
    IsTrans.trans (r := Workspace.Reported) _ _ _ hv hu
  cases h with
  | digits later read held long => exact .digits (hlater later) (hreads read) held long
  | base later read held lost => exact .base (hlater later) (hreads read) held lost
  | outDir later read held named lost =>
    exact .outDir (hlater later) (hreads read) held named lost
  | listed later read held named among lost =>
    exact .listed (hlater later) (hreads read) held named among lost

/-- A file without settings is wrong in one of these ways, or it has a number that is too long. -/
theorem readSettings_error (h : (readSettings p).outcome w = (.error e, v)) :
    (∃ m, e = .mistake m ∧ m.IsOfProjectFile) ∨
      e = .fault .badValue ∧ ∃ cs, w.readText p = .ok cs ∧
        Json.HasLongInteger (Json.plain (.ofChars cs)) := by
  rw [readSettings, Action.outcome_get_bind] at h
  split at h
  · cases h
    exact .inl ⟨_, rfl, .unreadable p⟩
  · next cs hcs =>
    dsimp only at h
    split at h
    · cases h
      exact .inl ⟨_, rfl, .malformed p⟩
    · next hparse =>
      cases h
      refine .inr ⟨rfl, cs, hcs, ?_⟩
      split at hparse
      · cases hparse
      · exact Json.hasLongInteger_of_parse hparse
    · cases h
    · cases h
      exact .inl ⟨_, rfl, .noObject p⟩

/-- Records leave a base where it is named. -/
theorem baseFile_of_reported (h : w.Reported v) (directory : Path) (t : Text) :
    baseFile v directory t = baseFile w directory t := by
  have hresolve (q : Path) : v.resolve q = w.resolve q := by
    rw [Workspace.resolve, Workspace.resolve, h.current_eq]
  unfold baseFile
  simp only [hresolve, h.isFile_eq]

theorem Value.NamesLost.earlier {directory : Path} {x : Value} (h : x.NamesLost v directory f)
    (hv : w.Reported v) : x.NamesLost w directory f := by
  induction h with
  | text relative lost => exact .text relative (baseFile_of_reported hv directory _ ▸ lost)
  | list among _ ih => exact .list among ih

/-- The bases that a task names itself have no path. -/
def ReadTask.Lost (w : Workspace) : ReadTask → Fault → Prop
  | .file _, _ => False
  | .base directory v, f => v.NamesLost w directory f
  | .bases directory _ vs, f => ∃ v ∈ vs, v.NamesLost w directory f

/-- Why a task fails: a mistake in a file, or a fault of what is read for it. -/
def ReadTask.FailsBy (w : Workspace) (t : ReadTask) (reads : List Path) (e : Failure) : Prop :=
  (∃ m, e = .mistake m ∧ m.IsOfProjectFile) ∨
    ∃ f, e = .fault f ∧ (ReadingFault w reads f ∨ t.Lost w f)

namespace Reads

/-- The settings of a file that was read are at fault if one of its paths is. -/
theorem readingFault_of_settings {g : WrittenFile} {b : Option ProjectFile} (here : g.Holds w)
    (hread : g.path ∈ reads) (hv : w.Reported v) (hf : settingsOf g.path b g.data v = .error f) :
    ReadingFault w reads f := by
  have hsame : w.Reported w := Std.Refl.refl w
  obtain ⟨rs, rfl⟩ := hv
  rw [settingsOf_report] at hf
  rcases g.settingsOf_error hf with ⟨q, named, lost⟩ | ⟨qs, named, q, among, lost⟩
  · exact .outDir hsame hread here named lost
  · exact .listed hsame hread here named among lost

/-- A task fails with a mistake in a file or a fault of a file, or its own bases have no path. -/
theorem failsBy (h : Reads t seen w reads r) (he : r.1 = .error e) : t.FailsBy w reads e := by
  induction h with
  | @circular p seen w again =>
    obtain rfl := Except.error.inj he
    exact .inl ⟨_, rfl, .circular p⟩
  | @unreadable p seen w e' new refused =>
    obtain rfl := Except.error.inj he
    rcases readSettings_error refused with h | ⟨rfl, cs, hcs, hlong⟩
    · exact .inl h
    · exact .inr ⟨_, rfl, .inl (.digits (Std.Refl.refl w) List.mem_cons_self hcs hlong)⟩
  | @stopped p data seen reads w v e' new here inside ih =>
    rcases ih he with h | ⟨f, rfl, h | hlost⟩
    · exact .inl h
    · exact .inr ⟨f, rfl, .inl (h.earlier (Std.Refl.refl w) (List.subset_cons_self p reads))⟩
    · have hbase : ReadingFault w (p :: reads) f :=
        @ReadingFault.base w _ w ⟨p, data⟩ f (Std.Refl.refl w) List.mem_cons_self here hlost
      exact .inr ⟨f, rfl, .inl hbase⟩
  | @finished p data seen reads w v b new here inside ih =>
    cases hs : settingsOf p b data v with
    | ok s =>
      rw [hs] at he
      cases he
    | error f =>
      rw [hs] at he
      obtain rfl := Except.error.inj he
      have hfault : ReadingFault w (p :: reads) f :=
        readingFault_of_settings here List.mem_cons_self inside.reported hs
      exact .inr ⟨f, rfl, .inl hfault⟩
  | noText => cases he
  | emptyText => cases he
  | skipped => cases he
  | @nameless directory t seen w f relative lost =>
    obtain rfl := Except.error.inj he
    exact .inr ⟨f, rfl, .inr (.text relative lost)⟩
  | relative relative found inside ih =>
    rcases ih he with h | ⟨f, rfl, h | h⟩
    · exact .inl h
    · exact .inr ⟨f, rfl, .inl h⟩
    · exact h.elim
  | items inside ih =>
    rcases ih he with h | ⟨f, rfl, h | ⟨v, hv, hlost⟩⟩
    · exact .inl h
    · exact .inr ⟨f, rfl, .inl h⟩
    · exact .inr ⟨f, rfl, .inr (.list hv hlost)⟩
  | nil => cases he
  | @failed directory merged v vs seen reads w w' e' first ih =>
    rcases ih he with h | ⟨f, rfl, h | hlost⟩
    · exact .inl h
    · exact .inr ⟨f, rfl, .inl h⟩
    · exact .inr ⟨f, rfl, .inr ⟨v, List.mem_cons_self, hlost⟩⟩
  | @cons directory merged b v vs seen reads others w w' r first rest ihfirst ihrest =>
    have hw : w.Reported w' := first.reported
    rcases ihrest he with h | ⟨f, rfl, h | ⟨x, hx, hlost⟩⟩
    · exact .inl h
    · exact .inr ⟨f, rfl, .inl (h.earlier hw (List.subset_append_right reads others))⟩
    · exact .inr ⟨f, rfl, .inr ⟨x, List.mem_cons_of_mem v hx, hlost.earlier hw⟩⟩

/-- The settings that are read for a file are settings of this file. -/
theorem path_eq {s : ProjectFile} (h : Reads (.file p) seen w reads (.ok (some s), v)) :
    s.path = p := by
  generalize hr : ((.ok (some s), v) : ReadEnd) = r at h
  cases h with
  | circular | unreadable | stopped => cases hr
  | @finished _ data _ _ _ v' b new here inside =>
    cases hs : settingsOf p b data v' with
    | error f =>
      rw [hs] at hr
      cases hr
    | ok s' =>
      rw [hs] at hr
      cases hr
      exact congrArg ProjectFile.path ((WrittenFile.mk p data).settingsOf_eq_ok.1 hs).2

end Reads

/-- The sources that settings list are given by resolved paths. -/
def ProjectFile.ListsResolved (s : ProjectFile) : Prop := ∀ q ∈ s.files, q.IsNormal

namespace ProjectFile.ListsResolved

theorem override {m s : ProjectFile} (hm : m.ListsResolved) (hs : s.ListsResolved) :
    (m.override s).ListsResolved := by
  intro q hq
  rw [ProjectFile.override, orElseList] at hq
  split at hq
  · exact hm q hq
  · exact hs q hq

theorem addBase {merged b : Option ProjectFile} (hm : ∀ m ∈ merged, m.ListsResolved)
    (hb : ∀ s ∈ b, s.ListsResolved) : ∀ s ∈ addBase merged b, s.ListsResolved := by
  cases b with
  | none => exact hm
  | some s =>
    cases merged with
    | none => exact hb
    | some m =>
      rintro _ ⟨⟩
      exact (hm m rfl).override (hb s rfl)

/-- A file lists resolved paths, or what its base lists. -/
theorem onTopOf {g : WrittenFile} {b : Option ProjectFile} (hb : ∀ s ∈ b, s.ListsResolved) :
    (g.onTopOf w b).ListsResolved := by
  intro q hq
  rw [WrittenFile.onTopOf] at hq
  dsimp only at hq
  cases hps : g.filePaths with
  | none =>
    rw [hps] at hq
    cases b with
    | none => cases hq
    | some s => exact hb s rfl q hq
  | some ps =>
    rw [hps] at hq
    obtain ⟨q', -, rfl⟩ := List.mem_map.1 hq
    exact Path.normal_isNormal w.current q'

end ProjectFile.ListsResolved

/-- The bases that were read before list resolved paths only. -/
def ReadTask.StartsResolved : ReadTask → Prop
  | .bases _ merged _ => ∀ s ∈ merged, s.ListsResolved
  | _ => True

/-- Whatever is read lists resolved paths only. -/
theorem Reads.listsResolved (h : Reads t seen w reads r) (ht : t.StartsResolved)
    {b : Option ProjectFile} (hb : r.1 = .ok b) : ∀ s ∈ b, s.ListsResolved := by
  induction h generalizing b with
  | circular | unreadable | stopped | nameless | failed => cases hb
  | noText | emptyText | skipped =>
    obtain rfl := Except.ok.inj hb
    exact fun s hs => nomatch hs
  | @finished p data seen reads w v b' new here inside ih =>
    cases hs : settingsOf p b' data v with
    | error f =>
      rw [hs] at hb
      cases hb
    | ok s =>
      rw [hs] at hb
      cases hb
      rintro _ ⟨⟩
      obtain ⟨-, rfl⟩ := (WrittenFile.mk p data).settingsOf_eq_ok.1 hs
      exact .onTopOf (ih trivial rfl)
  | relative relative found inside ih => exact ih trivial hb
  | items inside ih => exact ih (fun s hs => nomatch hs) hb
  | nil =>
    obtain rfl := Except.ok.inj hb
    exact ht
  | cons first rest ihfirst ihrest => exact ihrest (.addBase ht (ihfirst trivial rfl)) hb

namespace ProjectFile.Loads

variable {file : Path}

/-- Loading comes to what the program does. -/
theorem outcome {r : Except Failure ProjectFile × Workspace} (h : Loads w file reads r) :
    (load file).outcome w = r := by
  obtain ⟨reads', r', h', hload, -⟩ := exists_loads w file
  exact hload.trans (h'.unique h).2

/-- The mistakes of reading are those that a project file can have. -/
theorem isOfProjectFile {m : Mistake} (h : Loads w file reads (.error (.mistake m), v)) :
    m.IsOfProjectFile := by
  cases h with
  | failed found inside =>
    rcases inside.failsBy rfl with ⟨m', hm, h⟩ | ⟨f, hf, -⟩
    · exact Failure.mistake.inj hm ▸ h
    · cases hf

/-- The faults of reading are those of the path and those of the files. -/
theorem fault (h : Loads w file reads (.error (.fault f), v)) :
    (do w.resolve (← w.expandHome file)) = .error f ∨ ReadingFault w reads f := by
  cases h with
  | nowhere lost => exact .inl lost
  | failed found inside =>
    rcases inside.failsBy rfl with ⟨m, hm, -⟩ | ⟨f', hf, h | h⟩
    · cases hm
    · exact .inr (Failure.fault.inj hf ▸ h)
    · exact h.elim

theorem reported {r : Except Failure ProjectFile × Workspace} (h : Loads w file reads r) :
    w.Reported r.2 := by
  cases h with
  | nowhere lost => exact Std.Refl.refl w
  | failed found inside => exact inside.reported
  | loaded found inside => exact inside.reported

end ProjectFile.Loads

end CustomElements
