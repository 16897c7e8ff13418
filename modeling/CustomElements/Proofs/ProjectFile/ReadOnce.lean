import CustomElements.Proofs.ProjectFile.Reading
import CustomElements.Proofs.Workspace.Loading
import CustomElements.Proofs.Workspace.Reports

/-!
# Every project file is read once

Reading a project file goes wherever its bases lead, and these may lead anywhere, also back. Here it
is told without any fuel, as a relation of what is to be read, what is read, and how that ends.
What ends it is that no path is read twice and that a path without a file is the last one that is
read. So there is one way to the end, and it reads at most one path more than there are files.
-/

namespace CustomElements

/-- What is to be read: a project file, what an `extends` value names, or what the rest of a list
names on top of the bases read before. -/
inductive ReadTask where
  | file (p : Path)
  | base (directory : Path) (v : Value)
  | bases (directory : Path) (merged : Option ProjectFile) (vs : List Value)

namespace ReadTask

/-- The step of reading that does a task. -/
def action (fuel : Nat) : ReadTask → ReadAction (Option ProjectFile)
  | file p => do return some (← loadFrom fuel p)
  | base directory v => baseOf (loadFrom fuel) directory v
  | bases directory merged vs => baseOfList (loadFrom fuel) directory merged vs

/-- A file to be read is given by a resolved path. -/
def IsResolved : ReadTask → Prop
  | file p => p.IsNormal
  | _ => True

end ReadTask

/-- The bases read so far and one more, if there is one. -/
def addBase (merged : Option ProjectFile) : Option ProjectFile → Option ProjectFile
  | none => merged
  | some s => some (merged.elim s fun m => m.override s)

/-- How reading ends: its answer or its failure, and the workspace that it leaves. -/
abbrev ReadEnd := Except Failure (Option ProjectFile) × Workspace

/-- A task with the files visited before reads these files, in this order, and ends like that. -/
inductive Reads : ReadTask → List Path → Workspace → List Path → ReadEnd → Prop
  | circular {p : Path} {seen : List Path} {w : Workspace} (again : p ∈ seen) :
      Reads (.file p) seen w [] (.error (.mistake (.projectCircular p)), w)
  | unreadable {p : Path} {seen : List Path} {w : Workspace} {e : Failure} (new : p ∉ seen)
      (refused : (readSettings p).outcome w = (.error e, w)) :
      Reads (.file p) seen w [p] (.error e, w)
  | stopped {p : Path} {data : Value} {seen reads : List Path} {w v : Workspace} {e : Failure}
      (new : p ∉ seen) (here : WrittenFile.Holds w ⟨p, data⟩)
      (inside : Reads (.base p.parent (data.get "extends")) (seen ++ [p]) w reads (.error e, v)) :
      Reads (.file p) seen w (p :: reads) (.error e, v)
  | finished {p : Path} {data : Value} {seen reads : List Path} {w v : Workspace}
      {b : Option ProjectFile} (new : p ∉ seen) (here : WrittenFile.Holds w ⟨p, data⟩)
      (inside : Reads (.base p.parent (data.get "extends")) (seen ++ [p]) w reads (.ok b, v)) :
      Reads (.file p) seen w (p :: reads)
        (((settingsOf p b data v).mapError Failure.fault).map some, v)
  | noText {directory : Path} {v : Value} {seen : List Path} {w : Workspace}
      (hl : v.items? = none) (ht : ∀ t, v ≠ .text t) :
      Reads (.base directory v) seen w [] (.ok none, w)
  | emptyText {directory : Path} {seen : List Path} {w : Workspace} :
      Reads (.base directory (.text [])) seen w [] (.ok none, w)
  | skipped {directory : Path} {t : Text} {seen : List Path} {w : Workspace} (some : t ≠ [])
      (elsewhere : Text.startsWith t "." = false) :
      Reads (.base directory (.text t)) seen w [] (.ok none, w.note ⟨.debug,
        loggerRoot ++ "tsconfig", "Skipping non-relative tsconfig base " ++ t⟩)
  | nameless {directory : Path} {t : Text} {seen : List Path} {w : Workspace} {e : Fault}
      (relative : Text.startsWith t "." = true) (lost : baseFile w directory t = .error e) :
      Reads (.base directory (.text t)) seen w [] (.error (.fault e), w)
  | relative {directory p : Path} {t : Text} {seen reads : List Path} {w : Workspace}
      {r : ReadEnd} (relative : Text.startsWith t "." = true)
      (found : baseFile w directory t = .ok p) (inside : Reads (.file p) seen w reads r) :
      Reads (.base directory (.text t)) seen w reads r
  | items {directory : Path} {vs : List Value} {seen reads : List Path} {w : Workspace}
      {r : ReadEnd} (inside : Reads (.bases directory none vs) seen w reads r) :
      Reads (.base directory (.list vs)) seen w reads r
  | nil {directory : Path} {merged : Option ProjectFile} {seen : List Path} {w : Workspace} :
      Reads (.bases directory merged []) seen w [] (.ok merged, w)
  | failed {directory : Path} {merged : Option ProjectFile} {v : Value} {vs : List Value}
      {seen reads : List Path} {w w' : Workspace} {e : Failure}
      (first : Reads (.base directory v) seen w reads (.error e, w')) :
      Reads (.bases directory merged (v :: vs)) seen w reads (.error e, w')
  | cons {directory : Path} {merged b : Option ProjectFile} {v : Value} {vs : List Value}
      {seen reads others : List Path} {w w' : Workspace} {r : ReadEnd}
      (first : Reads (.base directory v) seen w reads (.ok b, w'))
      (rest : Reads (.bases directory (addBase merged b) vs) (seen ++ reads) w' others r) :
      Reads (.bases directory merged (v :: vs)) seen w (reads ++ others) r

/-- The bases of a list are read one after the other. -/
theorem baseOfList_cons (load : Path → ReadAction ProjectFile) (directory : Path)
    (merged : Option ProjectFile) (v : Value) (vs : List Value) :
    baseOfList load directory merged (v :: vs) = (do
      let b ← baseOf load directory v
      baseOfList load directory (addBase merged b) vs) := by
  rw [baseOfList]
  congr
  funext b
  cases b <;> cases merged <;> rfl

variable {t : ReadTask} {seen reads : List Path} {w v : Workspace} {r : ReadEnd}

/-- Once the base of a file is read, the file has its settings, or they are at fault. -/
theorem WrittenFile.Holds.file_outcome {p : Path} {data : Value} {b : Option ProjectFile}
    {visited : List Path} {fuel : Nat} (here : WrittenFile.Holds w ⟨p, data⟩) (new : p ∉ seen)
    (hbase : (baseOf (loadFrom fuel) p.parent (data.get "extends")).outcome (seen ++ [p]) w =
      (.ok (b, visited), v)) :
    ((ReadTask.file p).action (fuel + 1)).outcome seen w =
      ((((settingsOf p b data v).mapError Failure.fault).map some).map (·, visited), v) := by
  have hlook := Action.outcome_look (settingsOf p b data) v
  have hload : (loadFrom (fuel + 1) p).outcome seen w = ReadAction.outcome
      (Action.look (settingsOf p b data) : Action ProjectFile) visited v := by
    rw [here.loadFrom_outcome new]
    exact ReadAction.outcome_bind_ok hbase _
  cases hs : settingsOf p b data v with
  | error e =>
    rw [hs] at hlook
    rw [ReadAction.outcome_lift_error hlook] at hload
    exact ReadAction.outcome_bind_error hload _
  | ok s =>
    rw [hs] at hlook
    rw [ReadAction.outcome_lift_ok hlook] at hload
    exact ReadAction.outcome_bind_ok hload _

namespace Reads

/-- With more fuel than files to read, the program does what the relation tells. -/
theorem outcome (h : Reads t seen w reads r) {fuel : Nat} (hfuel : reads.length < fuel) :
    (t.action fuel).outcome seen w = (r.1.map (·, seen ++ reads), r.2) := by
  -- a chain of bases is no longer than what is read, so the fuel goes down with the files alone
  induction h generalizing fuel with
  | circular again =>
    obtain ⟨k, rfl⟩ := Nat.exists_eq_add_one.2 hfuel
    exact ReadAction.outcome_bind_error (loadFrom_outcome_of_mem again k _) _
  | @unreadable p seen w e new refused =>
    obtain ⟨k, rfl⟩ := Nat.exists_eq_add_one.2 (Nat.zero_lt_of_lt hfuel)
    apply ReadAction.outcome_bind_error
    rw [loadFrom_outcome_of_notMem new]
    exact ReadAction.outcome_bind_error (ReadAction.outcome_lift_error refused) _
  | @stopped p data seen reads w v e new here inside ih =>
    obtain ⟨k, rfl⟩ := Nat.exists_eq_add_one.2 (Nat.zero_lt_of_lt hfuel)
    apply ReadAction.outcome_bind_error
    rw [here.loadFrom_outcome new]
    exact ReadAction.outcome_bind_error (ih (Nat.lt_of_succ_lt_succ hfuel)) _
  | @finished p data seen reads w v b new here inside ih =>
    obtain ⟨k, rfl⟩ := Nat.exists_eq_add_one.2 (Nat.zero_lt_of_lt hfuel)
    have hbase := ih (Nat.lt_of_succ_lt_succ hfuel)
    rw [List.append_assoc, List.singleton_append] at hbase
    exact here.file_outcome new hbase
  | @noText directory v seen w hl ht =>
    rw [List.append_nil]
    cases v with
    | list vs => cases hl
    | text t => exact absurd rfl (ht t)
    | _ =>
      simp only [ReadTask.action, baseOf]
      rfl
  | emptyText =>
    rw [List.append_nil, ReadTask.action, baseOf, if_pos List.isEmpty_nil]
    rfl
  | skipped some elsewhere =>
    have hne : ¬(_ : Text).isEmpty = true := mt List.isEmpty_iff.1 some
    rw [List.append_nil, ReadTask.action, baseOf, if_neg hne, if_neg (by simp [elsewhere])]
    rfl
  | @nameless directory t seen w e relative lost =>
    have hlook := Action.outcome_look (fun w => baseFile w directory t) w
    rw [lost] at hlook
    rw [ReadTask.action, baseOf, if_neg (not_isEmpty_of_relative relative), if_pos relative]
    exact ReadAction.outcome_bind_error (ReadAction.outcome_lift_error hlook) _
  | relative relative found inside ih =>
    have hload := ih hfuel
    rw [ReadTask.action, baseOf_outcome_of_relative _ relative found]
    exact hload
  | items inside ih =>
    rw [ReadTask.action, baseOf]
    exact ih hfuel
  | nil =>
    rw [List.append_nil, ReadTask.action, baseOfList]
    rfl
  | failed first ih =>
    rw [ReadTask.action, baseOfList_cons]
    exact ReadAction.outcome_bind_error (ih hfuel) _
  | cons first rest ihfirst ihrest =>
    rw [List.length_append] at hfuel
    have hfirst := ihfirst (Nat.lt_of_le_of_lt (Nat.le_add_right _ _) hfuel)
    have hrest := ihrest (Nat.lt_of_le_of_lt (Nat.le_add_left _ _) hfuel)
    rw [ReadTask.action] at hfirst
    rw [ReadTask.action, baseOfList_cons, ReadAction.outcome_bind_ok hfirst, ← List.append_assoc]
    exact hrest

/-- Reading leaves nothing but log records. -/
theorem reported (h : Reads t seen w reads r) : w.Reported r.2 := by
  have hsteps : ReadAction.OnlyReports (t.action (reads.length + 1)) := by
    cases t with
    | file p => exact (loadFrom_onlyReports _ p).bind fun s => .pure _
    | base directory v => exact baseOf_onlyReports (loadFrom_onlyReports _) directory v
    | bases directory merged vs =>
      exact baseOfList_onlyReports (loadFrom_onlyReports _) directory merged vs
  have hleaves := (hsteps seen).leaves w
  have hend := congrArg Prod.snd (h.outcome (Nat.lt_succ_self _))
  exact hend ▸ hleaves

/-! What is read and how that ends, told by what there is to read. -/

section Inversion

variable {p directory : Path} {data : Value} {text : Text} {e : Failure}

theorem of_again (h : Reads (.file p) seen w reads r) (again : p ∈ seen) :
    reads = [] ∧ r = (.error (.mistake (.projectCircular p)), w) := by
  cases h with
  | circular _ => exact ⟨rfl, rfl⟩
  | unreadable new _ => exact absurd again new
  | stopped new _ _ => exact absurd again new
  | finished new _ _ => exact absurd again new

theorem of_refused (h : Reads (.file p) seen w reads r) (new : p ∉ seen)
    (refused : (readSettings p).outcome w = (.error e, w)) : reads = [p] ∧ r = (.error e, w) := by
  cases h with
  | circular again => exact absurd again new
  | unreadable _ refused' =>
    cases refused.symm.trans refused'
    exact ⟨rfl, rfl⟩
  | stopped _ here _ => cases refused.symm.trans here
  | finished _ here _ => cases refused.symm.trans here

/-- A file that can be read is read before its bases, and ends as they end or with its settings. -/
theorem of_here (h : Reads (.file p) seen w reads r) (new : p ∉ seen)
    (here : WrittenFile.Holds w ⟨p, data⟩) :
    ∃ others a, Reads (.base p.parent (data.get "extends")) (seen ++ [p]) w others (a, r.2) ∧
      reads = p :: others ∧
      r.1 = a.bind fun b => ((settingsOf p b data r.2).mapError Failure.fault).map some := by
  cases h with
  | circular again => exact absurd again new
  | unreadable _ refused => cases refused.symm.trans here
  | stopped _ here' inside =>
    cases here.eq here' rfl
    exact ⟨_, _, inside, rfl, rfl⟩
  | finished _ here' inside =>
    cases here.eq here' rfl
    exact ⟨_, _, inside, rfl, rfl⟩

theorem of_noText {v : Value} (h : Reads (.base directory v) seen w reads r)
    (hl : v.items? = none) (ht : ∀ t, v ≠ .text t) : reads = [] ∧ r = (.ok none, w) := by
  cases h with
  | noText _ _ => exact ⟨rfl, rfl⟩
  | emptyText => exact absurd rfl (ht _)
  | skipped _ _ => exact absurd rfl (ht _)
  | nameless _ _ => exact absurd rfl (ht _)
  | relative _ _ _ => exact absurd rfl (ht _)
  | items _ => cases hl

theorem of_emptyText (h : Reads (.base directory (.text [])) seen w reads r) :
    reads = [] ∧ r = (.ok none, w) := by
  cases h with
  | noText _ ht => exact absurd rfl (ht _)
  | emptyText => exact ⟨rfl, rfl⟩
  | skipped some _ => exact absurd rfl some
  | nameless relative _ => cases relative
  | relative relative _ _ => cases relative

theorem of_skipped (h : Reads (.base directory (.text text)) seen w reads r) (some : text ≠ [])
    (elsewhere : Text.startsWith text "." = false) :
    reads = [] ∧ r = (.ok none, w.note ⟨.debug, loggerRoot ++ "tsconfig",
      "Skipping non-relative tsconfig base " ++ text⟩) := by
  cases h with
  | noText _ ht => exact absurd rfl (ht _)
  | emptyText => exact absurd rfl some
  | skipped _ _ => exact ⟨rfl, rfl⟩
  | nameless relative _ => cases elsewhere.symm.trans relative
  | relative relative _ _ => cases elsewhere.symm.trans relative

theorem of_relative (h : Reads (.base directory (.text text)) seen w reads r)
    (relative : Text.startsWith text "." = true) :
    (∃ f, baseFile w directory text = .error f ∧ reads = [] ∧ r = (.error (.fault f), w)) ∨
      ∃ q, baseFile w directory text = .ok q ∧ Reads (.file q) seen w reads r := by
  cases h with
  | noText _ ht => exact absurd rfl (ht _)
  | emptyText => cases relative
  | skipped _ elsewhere => cases elsewhere.symm.trans relative
  | nameless _ lost => exact .inl ⟨_, lost, rfl, rfl⟩
  | relative _ found inside => exact .inr ⟨_, found, inside⟩

end Inversion

/-- A task reads and ends in one way only. -/
theorem unique (h : Reads t seen w reads r) {reads' : List Path} {r' : ReadEnd}
    (h' : Reads t seen w reads' r') : reads = reads' ∧ r = r' := by
  induction h generalizing reads' r' with
  | circular again =>
    obtain ⟨rfl, rfl⟩ := h'.of_again again
    exact ⟨rfl, rfl⟩
  | unreadable new refused =>
    obtain ⟨rfl, rfl⟩ := h'.of_refused new refused
    exact ⟨rfl, rfl⟩
  | stopped new here inside ih | finished new here inside ih =>
    obtain ⟨others, a, hinside, rfl, hend⟩ := h'.of_here new here
    obtain ⟨rfl, heq⟩ := ih hinside
    obtain ⟨rfl, rfl⟩ := Prod.mk.inj heq
    exact ⟨rfl, Prod.ext hend.symm rfl⟩
  | noText hl ht =>
    obtain ⟨rfl, rfl⟩ := h'.of_noText hl ht
    exact ⟨rfl, rfl⟩
  | emptyText =>
    obtain ⟨rfl, rfl⟩ := h'.of_emptyText
    exact ⟨rfl, rfl⟩
  | skipped some elsewhere =>
    obtain ⟨rfl, rfl⟩ := h'.of_skipped some elsewhere
    exact ⟨rfl, rfl⟩
  | nameless relative lost =>
    rcases h'.of_relative relative with ⟨f, lost', rfl, rfl⟩ | ⟨q, found, -⟩
    · cases lost.symm.trans lost'
      exact ⟨rfl, rfl⟩
    · cases lost.symm.trans found
  | relative relative found inside ih =>
    rcases h'.of_relative relative with ⟨f, lost, -⟩ | ⟨q, found', inside'⟩
    · cases found.symm.trans lost
    · cases found.symm.trans found'
      exact ih inside'
  | items inside ih =>
    cases h' with
    | noText hl _ => cases hl
    | items inside' => exact ih inside'
  | nil =>
    cases h'
    exact ⟨rfl, rfl⟩
  | failed first ih =>
    cases h' with
    | failed first' => exact ih first'
    | cons first' _ => cases (ih first').2
  | cons first rest ihfirst ihrest =>
    cases h' with
    | failed first' => cases (ihfirst first').2
    | cons first' rest' =>
      obtain ⟨rfl, heq⟩ := ihfirst first'
      cases heq
      obtain ⟨rfl, heq⟩ := ihrest rest'
      exact ⟨rfl, heq⟩

end Reads

theorem Workspace.Reported.hasFile_iff (h : w.Reported v) {q : Path} :
    v.HasFile q ↔ w.HasFile q := by
  unfold Workspace.HasFile
  rw [h.map_fst_files]

theorem Workspace.Reported.length_files (h : w.Reported v) :
    v.files.files.length = w.files.files.length := by
  have hnames := congrArg List.length h.map_fst_files
  rwa [List.length_map, List.length_map] at hnames

/-- The files visited so far are different files of the workspace. -/
structure Explored (w : Workspace) (seen : List Path) : Prop where
  nodup : seen.Nodup
  held : ∀ q ∈ seen, w.HasFile q

/-- What is read is new each time, and only the last path may be one without a file. -/
structure ReadOnce (w : Workspace) (seen reads : List Path) : Prop where
  nodup : (seen ++ reads).Nodup
  resolved : ∀ q ∈ reads, q.IsNormal
  held : ∀ q ∈ reads.dropLast, w.HasFile q

theorem Explored.visit (h : Explored w seen) {p : Path} (hp : w.HasFile p) (hnew : p ∉ seen) :
    Explored w (seen ++ [p]) := by
  refine ⟨nodup_append_singleton h.nodup hnew, ?_⟩
  rw [List.forall_mem_append, List.forall_mem_singleton]
  exact ⟨h.held, hp⟩

namespace ReadOnce

variable {others : List Path}

theorem nil (h : Explored w seen) : ReadOnce w seen [] :=
  ⟨(List.append_nil seen).symm ▸ h.nodup, List.forall_mem_nil _, List.forall_mem_nil _⟩

theorem singleton (h : Explored w seen) {p : Path} (hp : p.IsNormal) (hnew : p ∉ seen) :
    ReadOnce w seen [p] :=
  ⟨nodup_append_singleton h.nodup hnew, List.forall_mem_singleton.2 hp, List.forall_mem_nil _⟩

/-- What is read later comes on top of what was read and was there. -/
theorem append (h : ReadOnce w (seen ++ reads) others) (hreads : ∀ q ∈ reads, w.HasFile q) :
    ReadOnce w seen (reads ++ others) := by
  constructor
  · rw [← List.append_assoc]
    exact h.nodup
  · rw [List.forall_mem_append]
    exact ⟨fun q hq => (hreads q hq).1, h.resolved⟩
  · intro q hq
    cases others with
    | nil =>
      rw [List.append_nil] at hq
      exact hreads q (List.mem_of_mem_dropLast hq)
    | cons other others =>
      rw [List.dropLast_append_cons] at hq
      rcases List.mem_append.1 hq with hq | hq
      · exact hreads q hq
      · exact h.held q hq

/-- There is room for one path more than there are files. -/
theorem length_le (h : ReadOnce w seen reads) : reads.length ≤ w.files.files.length + 1 := by
  have hnodup := (List.dropLast_sublist reads).nodup (List.nodup_append.1 h.nodup).2.1
  have hle := Workspace.length_le_files hnodup h.held
  rw [List.length_dropLast] at hle
  omega

theorem explored (h : ReadOnce w seen reads) (hs : Explored w seen)
    (hreads : ∀ q ∈ reads, w.HasFile q) : Explored w (seen ++ reads) :=
  ⟨h.nodup, List.forall_mem_append.2 ⟨hs.held, hreads⟩⟩

end ReadOnce

/-- Records leave what is explored as it is. -/
theorem Workspace.Reported.explored (h : w.Reported v) (hs : Explored w seen) : Explored v seen :=
  ⟨hs.nodup, fun q hq => h.hasFile_iff.2 (hs.held q hq)⟩

theorem Workspace.Reported.readOnce (h : w.Reported v) (hr : ReadOnce v seen reads) :
    ReadOnce w seen reads :=
  ⟨hr.nodup, hr.resolved, fun q hq => h.hasFile_iff.1 (hr.held q hq)⟩

namespace Reads

/-- Whatever is read is read once, and an answer takes a file for each path. -/
theorem readOnce (h : Reads t seen w reads r) (ht : t.IsResolved) (hs : Explored w seen) :
    ReadOnce w seen reads ∧ ∀ b, r.1 = .ok b → ∀ q ∈ reads, w.HasFile q := by
  induction h with
  | circular again => exact ⟨.nil hs, fun b hb => by cases hb⟩
  | unreadable new refused => exact ⟨.singleton hs ht new, fun b hb => by cases hb⟩
  | @stopped p data seen reads w v e new here inside ih =>
    have hfile : w.HasFile p := here.hasFile ht
    have hinside := (ih trivial (hs.visit hfile new)).1
    exact ⟨hinside.append (List.forall_mem_singleton.2 hfile), fun b hb => by cases hb⟩
  | @finished p data seen reads w v b new here inside ih =>
    have hfile : w.HasFile p := here.hasFile ht
    obtain ⟨hinside, hthere⟩ := ih trivial (hs.visit hfile new)
    refine ⟨hinside.append (List.forall_mem_singleton.2 hfile), fun _ _ => ?_⟩
    exact List.forall_mem_cons.2 ⟨hfile, hthere b rfl⟩
  | noText _ _ => exact ⟨.nil hs, fun _ _ => List.forall_mem_nil _⟩
  | emptyText => exact ⟨.nil hs, fun _ _ => List.forall_mem_nil _⟩
  | skipped _ _ => exact ⟨.nil hs, fun _ _ => List.forall_mem_nil _⟩
  | nameless _ _ => exact ⟨.nil hs, fun b hb => by cases hb⟩
  | relative _ found inside ih => exact ih (baseFile_isNormal found) hs
  | items inside ih => exact ih trivial hs
  | nil => exact ⟨.nil hs, fun _ _ => List.forall_mem_nil _⟩
  | failed first ih => exact ⟨(ih trivial hs).1, fun b hb => by cases hb⟩
  | @cons directory merged b v vs seen reads others w w' r first rest ihfirst ihrest =>
    obtain ⟨honce, hthere⟩ := ihfirst trivial hs
    have hreads := hthere b rfl
    have hreported := first.reported
    obtain ⟨hlater, hrest⟩ := ihrest trivial (hreported.explored (honce.explored hs hreads))
    refine ⟨(hreported.readOnce hlater).append hreads, fun c hc => ?_⟩
    rw [List.forall_mem_append]
    exact ⟨hreads, fun q hq => hreported.hasFile_iff.1 (hrest c hc q hq)⟩

/-- Reading a file comes to an end if no more than so many files are left to be visited. -/
def FilesEnd (n : Nat) : Prop :=
  ∀ p seen w, p.IsNormal → Explored w seen → w.files.files.length < n + seen.length →
    ∃ reads r, Reads (.file p) seen w reads r

mutual

/-- What an `extends` value names is read to an end if each file that it leads to is. -/
theorem exists_of_base {n : Nat} (hfiles : FilesEnd n) (directory : Path) (v : Value)
    {seen : List Path} {w : Workspace} (hs : Explored w seen)
    (hn : w.files.files.length < n + seen.length) :
    ∃ reads r, Reads (.base directory v) seen w reads r := by
  cases v with
  | list vs =>
    obtain ⟨reads, r, h⟩ := exists_of_bases hfiles directory none vs hs hn
    exact ⟨reads, r, .items h⟩
  | text t =>
    by_cases hempty : t = []
    · exact hempty ▸ ⟨_, _, .emptyText⟩
    · cases hrelative : Text.startsWith t "." with
      | false => exact ⟨_, _, .skipped hempty hrelative⟩
      | true =>
        cases hfound : baseFile w directory t with
        | error e => exact ⟨_, _, .nameless hrelative hfound⟩
        | ok p =>
          obtain ⟨reads, r, h⟩ := hfiles p seen w (baseFile_isNormal hfound) hs hn
          exact ⟨reads, r, .relative hrelative hfound h⟩
  | _ => exact ⟨_, _, .noText rfl fun _ h => by cases h⟩

theorem exists_of_bases {n : Nat} (hfiles : FilesEnd n) (directory : Path)
    (merged : Option ProjectFile) (vs : List Value) {seen : List Path} {w : Workspace}
    (hs : Explored w seen) (hn : w.files.files.length < n + seen.length) :
    ∃ reads r, Reads (.bases directory merged vs) seen w reads r := by
  cases vs with
  | nil => exact ⟨_, _, .nil⟩
  | cons v vs =>
    obtain ⟨reads, ⟨e | b, w'⟩, hfirst⟩ := exists_of_base hfiles directory v hs hn
    · exact ⟨reads, _, .failed hfirst⟩
    · obtain ⟨honce, hthere⟩ := hfirst.readOnce trivial hs
      have hreported : w.Reported w' := hfirst.reported
      have hs' := hreported.explored (honce.explored hs (hthere b rfl))
      have hn' : w'.files.files.length < n + (seen ++ reads).length := by
        rw [hreported.length_files, List.length_append]
        omega
      obtain ⟨others, r, hrest⟩ := exists_of_bases hfiles directory (addBase merged b) vs hs' hn'
      exact ⟨_, r, .cons hfirst hrest⟩

end

/-- Every file that is read leaves one less to be visited. -/
theorem filesEnd (n : Nat) : FilesEnd n := by
  induction n with
  | zero =>
    intro p seen w hp hs hn
    have hle := Workspace.length_le_files hs.nodup hs.held
    omega
  | succ n ih =>
    intro p seen w hp hs hn
    by_cases hnew : p ∈ seen
    · exact ⟨_, _, .circular hnew⟩
    · have hstays : w = ((readSettings p).outcome w).2 := by
        apply (readSettings_within p).leaves
      rcases hread : (readSettings p).outcome w with ⟨e | data, w'⟩
      · rw [hread] at hstays
        obtain rfl : w = w' := hstays
        exact ⟨_, _, .unreadable hnew hread⟩
      · rw [hread] at hstays
        obtain rfl : w = w' := hstays
        have here : WrittenFile.Holds w ⟨p, data⟩ := hread
        have hs' := hs.visit (here.hasFile hp) hnew
        have hn' : w.files.files.length < n + (seen ++ [p]).length := by
          rw [List.length_append, List.length_singleton]
          omega
        obtain ⟨reads, ⟨e | b, v⟩, h⟩ := exists_of_base ih p.parent (data.get "extends") hs' hn'
        · exact ⟨_, _, .stopped hnew here h⟩
        · exact ⟨_, _, .finished hnew here h⟩

/-- For a file there are settings in the end, or a failure. -/
theorem loadFrom_outcome {p : Path} (h : Reads (.file p) seen w reads r) {fuel : Nat}
    (hfuel : reads.length < fuel) :
    (∃ e, r.1 = .error e ∧ (loadFrom fuel p).outcome seen w = (.error e, r.2)) ∨
      ∃ s, r.1 = .ok (some s) ∧
        (loadFrom fuel p).outcome seen w = (.ok (s, seen ++ reads), r.2) := by
  have hrun := h.outcome hfuel
  rw [ReadTask.action] at hrun
  obtain ⟨a, v⟩ := r
  rcases hload : (loadFrom fuel p).outcome seen w with ⟨e | ⟨s, visited⟩, v'⟩
  · rw [ReadAction.outcome_bind_error hload] at hrun
    cases a with
    | error e' =>
      cases hrun
      exact .inl ⟨e, rfl, rfl⟩
    | ok b => cases hrun
  · rw [ReadAction.outcome_bind_ok hload, ReadAction.outcome_pure] at hrun
    cases a with
    | error e => cases hrun
    | ok b =>
      cases hrun
      exact .inr ⟨s, rfl, rfl⟩

end Reads

/-- Loading a project file resolves its path and reads from there on, with nothing visited before.
The list is of the paths that are read. -/
inductive ProjectFile.Loads (w : Workspace) (p : Path) :
    List Path → Except Failure ProjectFile × Workspace → Prop
  | nowhere {e : Fault} (lost : (do w.resolve (← w.expandHome p)) = .error e) :
      Loads w p [] (.error (.fault e), w)
  | failed {file : Path} {reads : List Path} {e : Failure} {v : Workspace}
      (found : (do w.resolve (← w.expandHome p)) = .ok file)
      (inside : Reads (.file file) [] w reads (.error e, v)) : Loads w p reads (.error e, v)
  | loaded {file : Path} {reads : List Path} {s : ProjectFile} {v : Workspace}
      (found : (do w.resolve (← w.expandHome p)) = .ok file)
      (inside : Reads (.file file) [] w reads (.ok (some s), v)) : Loads w p reads (.ok s, v)

namespace ProjectFile

/-- A project file is loaded in one way only. -/
theorem Loads.unique {p : Path} {reads' : List Path} {r r' : Except Failure ProjectFile × Workspace}
    (h : Loads w p reads r) (h' : Loads w p reads' r') : reads = reads' ∧ r = r' := by
  cases h with
  | nowhere lost =>
    cases h' with
    | nowhere lost' =>
      cases lost.symm.trans lost'
      exact ⟨rfl, rfl⟩
    | failed found _ => cases lost.symm.trans found
    | loaded found _ => cases lost.symm.trans found
  | failed found inside =>
    cases h' with
    | nowhere lost => cases found.symm.trans lost
    | failed found' inside' =>
      cases found.symm.trans found'
      obtain ⟨rfl, heq⟩ := inside.unique inside'
      cases heq
      exact ⟨rfl, rfl⟩
    | loaded found' inside' =>
      cases found.symm.trans found'
      cases (inside.unique inside').2
  | loaded found inside =>
    cases h' with
    | nowhere lost => cases found.symm.trans lost
    | failed found' inside' =>
      cases found.symm.trans found'
      cases (inside.unique inside').2
    | loaded found' inside' =>
      cases found.symm.trans found'
      obtain ⟨rfl, heq⟩ := inside.unique inside'
      cases heq
      exact ⟨rfl, rfl⟩

/-- Loading comes to an end, just as the program does. -/
theorem exists_loads (w : Workspace) (p : Path) :
    ∃ reads r, Loads w p reads r ∧ (load p).outcome w = r ∧ ReadOnce w [] reads := by
  have hstart : Explored w [] := ⟨List.nodup_nil, List.forall_mem_nil _⟩
  cases hfile : (do w.resolve (← w.expandHome p)) with
  | error e => exact ⟨[], _, .nowhere hfile, load_outcome_of_error hfile, .nil hstart⟩
  | ok file =>
    obtain ⟨_, _, hresolve⟩ := exceptBind_eq_ok.1 hfile
    have hnormal := Workspace.resolve_isNormal hresolve
    have hroom : w.files.files.length < w.files.files.length + 1 + ([] : List Path).length :=
      Nat.lt_succ_self _
    obtain ⟨reads, r, hreads⟩ := Reads.filesEnd _ file [] w hnormal hstart hroom
    obtain ⟨honce, -⟩ := hreads.readOnce hnormal hstart
    have hfuel : reads.length < w.files.files.length + 2 := Nat.lt_succ_of_le honce.length_le
    rcases hreads.loadFrom_outcome hfuel with ⟨e, he, hload⟩ | ⟨s, hs, hload⟩
    · rw [← Prod.eta r, he] at hreads
      refine ⟨reads, _, .failed hfile hreads, ?_, honce⟩
      rw [load_outcome hfile, hload]
      rfl
    · rw [← Prod.eta r, hs] at hreads
      refine ⟨reads, _, .loaded hfile hreads, ?_, honce⟩
      rw [load_outcome hfile, hload]
      rfl

/-- Whatever files there are, and however they extend each other, loading a project file comes to an
end in exactly one way, with an answer or a failure, and that is what the program gives. Until then
it reads resolved paths, none of them twice, and all but the last of them are files. So there are no
more of them than one more than the files that there are. -/
theorem load_reads_once (w : Workspace) (p : Path) :
    ∃ reads r, Loads w p reads r ∧ (load p).outcome w = r ∧
      (∀ reads' r', Loads w p reads' r' → reads' = reads ∧ r' = r) ∧
      reads.Nodup ∧ (∀ q ∈ reads, q.IsNormal) ∧ (∀ q ∈ reads.dropLast, w.HasFile q) ∧
      reads.length ≤ w.files.files.length + 1 := by
  obtain ⟨reads, r, hloads, hend, honce⟩ := exists_loads w p
  refine ⟨reads, r, hloads, hend, ?_, honce.nodup, honce.resolved, honce.held, honce.length_le⟩
  intro reads' r' h
  exact h.unique hloads

end ProjectFile

end CustomElements
