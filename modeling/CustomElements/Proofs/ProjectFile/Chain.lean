import Mathlib.Data.List.Nodup
import Mathlib.Data.List.Perm.Subperm
import CustomElements.Proofs.FirstMatch
import CustomElements.Proofs.ProjectFile.Written
import CustomElements.Proofs.Workspace.Outcome

/-!
# Chains of project files

A project file may extend another one, and so on up to a file that extends none. Which file comes
next is decided by the path alone, so a chain that ends never comes back to a file of its own. It is
therefore no longer than there are files.
-/

namespace CustomElements

/-- Values of `extends` that lead to no further file. -/
inductive Value.NamesNoFile : Value → Prop
  | text {t : Text} (h : Text.startsWith t "." = false) : NamesNoFile (.text t)
  | list {vs : List Value} (h : ∀ v ∈ vs, NamesNoFile v) : NamesNoFile (.list vs)
  | other {v : Value} (hl : v.items? = none) (ht : ∀ t, v ≠ .text t) : NamesNoFile v

theorem Value.namesNoFile_text {t : Text} :
    Value.NamesNoFile (.text t) ↔ Text.startsWith t "." = false := by
  constructor
  · intro h
    cases h with
    | text h => exact h
    | other _ ht => exact absurd rfl (ht t)
  · exact .text

/-- A relative base lies where it is named, up to an added ending, so its path is normal too. -/
theorem baseFile_isNormal {w : Workspace} {directory q : Path} {t : Text}
    (h : baseFile w directory t = .ok q) : q.IsNormal := by
  obtain ⟨p, hp, h⟩ := exceptBind_eq_ok.1 h
  have hn := Workspace.resolve_isNormal hp
  split at h
  · split at h
    · cases h
    · obtain rfl := Except.ok.inj h
      refine ⟨hn.fromRoot, fun hm => ?_⟩
      rcases List.mem_append.1 hm with hm | hm
      · exact hn.noDots (List.dropLast_subset _ hm)
      · -- the name is longer than two dots
        have hlen := congrArg List.length (List.mem_singleton.1 hm)
        rw [List.length_append] at hlen
        have hjson : (".json" : Text).length = 5 := rfl
        have hdots : (".." : Text).length = 2 := rfl
        omega
  · obtain rfl := Except.ok.inj h
    exact hn

namespace Workspace

/-- One of the files of the workspace, at its normal path. -/
def HasFile (w : Workspace) (q : Path) : Prop :=
  q.IsNormal ∧ q.parts ∈ w.files.files.map Prod.fst

/-- Different paths of files are no more than there are files. -/
theorem length_le_files {w : Workspace} {qs : List Path} (hn : qs.Nodup)
    (hfile : ∀ q ∈ qs, w.HasFile q) : qs.length ≤ w.files.files.length := by
  have hparts : (qs.map Path.parts).Nodup :=
    List.Nodup.map_on (fun q hq q' hq' heq => (hfile q hq).1.eq (hfile q' hq').1 heq) hn
  have hsub : qs.map Path.parts ⊆ w.files.files.map Prod.fst := by
    intro parts hm
    obtain ⟨q, hq, rfl⟩ := List.mem_map.1 hm
    exact (hfile q hq).2
  have hle := (List.subperm_of_subset hparts hsub).length_le
  rwa [List.length_map, List.length_map] at hle

end Workspace

namespace WrittenFile

/-- The file is there, with this written in it. -/
def Holds (w : Workspace) (f : WrittenFile) : Prop :=
  (readSettings f.path).outcome w = (.ok f.data, w)

theorem Holds.of_read {w : Workspace} {f : WrittenFile} (content : List Char)
    (ms : List (Text × Json)) (hread : w.read f.path = .ok (Bytes.ofChars content))
    (hparse : Json.parse (Json.plain (.ofChars (unifyLineEnds content))) = .ok (.object ms))
    (hdata : f.data = Value.ofJsonLast (.object ms)) : f.Holds w := by
  have htext := Workspace.readText_of_read hread
  have hempty : ¬(Json.plain (.ofChars (unifyLineEnds content))).isEmpty = true := by
    intro he
    rw [List.isEmpty_iff.1 he] at hparse
    cases hparse
  unfold Holds readSettings
  rw [Action.outcome_get_bind, htext]
  dsimp only
  rw [if_neg hempty, hparse, hdata]
  rfl

/-- The file extends the others, each of them the next one, and the last of them none. -/
inductive Extends (w : Workspace) : WrittenFile → List WrittenFile → Prop
  | alone {f : WrittenFile} (here : f.Holds w) (last : (f.data.get "extends").NamesNoFile) :
      Extends w f []
  | base {f g : WrittenFile} {bases : List WrittenFile} {t : Text} (here : f.Holds w)
      (named : f.data.get "extends" = .text t) (relative : Text.startsWith t "." = true)
      (found : baseFile w f.directory t = .ok g.path) (rest : Extends w g bases) :
      Extends w f (g :: bases)

theorem Holds.eq {w : Workspace} {f g : WrittenFile} (hf : f.Holds w) (hg : g.Holds w)
    (h : f.path = g.path) : f = g := by
  obtain ⟨path, data⟩ := f
  obtain ⟨path', data'⟩ := g
  obtain rfl : path = path' := h
  have heq : (Except.ok data : Except Failure Value) = .ok data' :=
    congrArg Prod.fst (hf.symm.trans hg)
  rw [Except.ok.inj heq]

namespace Extends

variable {w : Workspace} {f g : WrittenFile} {bases bases' : List WrittenFile}

theorem holds (h : f.Extends w bases) : f.Holds w := by
  cases h <;> assumption

/-- A file extends the same files whenever it does. -/
theorem unique (h : f.Extends w bases) (h' : f.Extends w bases') : bases = bases' := by
  induction h generalizing bases' with
  | alone _ last =>
    cases h' with
    | alone _ _ => rfl
    | base _ named relative _ _ =>
      rw [named, Value.namesNoFile_text, relative] at last
      cases last
  | base _ named relative found rest ih =>
    cases h' with
    | alone _ last =>
      rw [named, Value.namesNoFile_text, relative] at last
      cases last
    | base _ named' _ found' rest' =>
      obtain rfl := Value.text.inj (named.symm.trans named')
      have hpath := Except.ok.inj (found.symm.trans found')
      obtain rfl := rest.holds.eq rest'.holds hpath
      rw [ih rest']

/-- From each file of a chain on, the rest is a chain. -/
theorem tail_of_mem (h : f.Extends w bases) (hg : g ∈ bases) :
    ∃ rest, g.Extends w rest ∧ rest.length < bases.length := by
  induction h with
  | alone _ _ => cases hg
  | base _ _ _ _ rest ih =>
    rcases List.mem_cons.1 hg with rfl | hg
    · exact ⟨_, rest, Nat.lt_succ_self _⟩
    · obtain ⟨later, hl, hlt⟩ := ih hg
      exact ⟨later, hl, Nat.lt_succ_of_lt hlt⟩

theorem holds_of_mem (h : f.Extends w bases) (hg : g ∈ f :: bases) : g.Holds w := by
  rcases List.mem_cons.1 hg with rfl | hg
  · exact h.holds
  · obtain ⟨_, hr, _⟩ := h.tail_of_mem hg
    exact hr.holds

/-- If a chain came back to a file, it would go on from there without end. -/
theorem nodup_paths (h : f.Extends w bases) : ((f :: bases).map path).Nodup := by
  induction h with
  | alone _ _ => simp
  | @base f first bases t here named relative found rest ih =>
    rw [List.map_cons, List.nodup_cons]
    refine ⟨fun hm => ?_, ih⟩
    have hchain : f.Extends w (first :: bases) := .base here named relative found rest
    obtain ⟨g, hg, hpath⟩ := List.mem_map.1 hm
    obtain ⟨later, hl, hlt⟩ := hchain.tail_of_mem hg
    obtain rfl := hl.holds.eq here hpath
    rw [hchain.unique hl] at hlt
    exact Nat.lt_irrefl _ hlt

theorem isNormal_of_mem (h : f.Extends w bases) (hf : f.path.IsNormal) (hg : g ∈ f :: bases) :
    g.path.IsNormal := by
  induction h with
  | alone _ _ => rwa [List.mem_singleton.1 hg]
  | base _ _ _ found _ ih =>
    rcases List.mem_cons.1 hg with rfl | hg
    · exact hf
    · exact ih (baseFile_isNormal found) hg

end Extends

/-- What is written in a file was read from one of the files of the workspace. -/
theorem Holds.mem_files {w : Workspace} {f : WrittenFile} (h : f.Holds w) (hn : f.path.IsNormal) :
    f.path.parts ∈ w.files.files.map Prod.fst := by
  unfold Holds readSettings at h
  rw [Action.outcome_get_bind] at h
  cases hr : w.readText f.path with
  | error e => simp [hr] at h
  | ok cs =>
    obtain ⟨content, hc, _⟩ := exceptBind_eq_ok.1 hr
    exact List.mem_map.2 ⟨_, Workspace.mem_files_of_read hn hc, rfl⟩

theorem Holds.hasFile {w : Workspace} {f : WrittenFile} (h : f.Holds w) (hn : f.path.IsNormal) :
    w.HasFile f.path := ⟨hn, h.mem_files hn⟩

/-- There are no more written files at different paths than there are files. -/
theorem length_le_files {w : Workspace} {qs : List Path} (hn : qs.Nodup)
    (hheld : ∀ q ∈ qs, q.IsNormal ∧ ∃ g : WrittenFile, g.Holds w ∧ g.path = q) :
    qs.length ≤ w.files.files.length := by
  apply Workspace.length_le_files hn
  intro q hq
  obtain ⟨hnormal, g, hg, rfl⟩ := hheld q hq
  exact hg.hasFile hnormal

/-- A chain is no longer than there are files. -/
theorem Extends.length_lt {w : Workspace} {f : WrittenFile} {bases : List WrittenFile}
    (h : f.Extends w bases) (hf : f.path.IsNormal) : bases.length < w.files.files.length := by
  have hle := length_le_files h.nodup_paths fun q hq => by
    obtain ⟨g, hg, rfl⟩ := List.mem_map.1 hq
    exact ⟨h.isNormal_of_mem hf hg, g, h.holds_of_mem hg, rfl⟩
  rwa [List.length_map, List.length_cons] at hle

end WrittenFile

end CustomElements
