import CustomElements.Proofs.Files.Contents

/-!
# The directories in a tree

Besides the contents of its files, a file tree is told by the places of its directories. Whatever is
done to a file leaves them, and the way to a directory leads through directories only.
-/

namespace CustomElements.FileTree

variable {t t' e : FileTree} {es : List (Text × FileTree)} {name : Text}
variable {place current names : List Text} {content : Bytes}

/-- Whether there is a directory at a row of names. -/
def hasDir (t : FileTree) (names : List Text) : Bool := (t.get? names).any isDir

theorem hasDir_iff : t.hasDir names ↔ ∃ es, t.get? names = some (dir es) := by
  rw [hasDir]
  rcases t.get? names with _ | _ | es
  · simp
  · simp [isDir]
  · simp [isDir]

theorem hasDir_of_file (h : t.get? names = some (file content)) : t.hasDir names = false := by
  rw [hasDir, h]
  rfl

/-- There are no directories below a file. -/
theorem hasDir_file (content : Bytes) (names : List Text) :
    (file content).hasDir names = false := by
  cases names <;> rfl

theorem hasDir_dir_cons (es : List (Text × FileTree)) (name : Text) (names : List Text) :
    (dir es).hasDir (name :: names) = (es.lookup name).any fun e => e.hasDir names := by
  rw [hasDir, get?_dir_cons]
  cases es.lookup name <;> rfl

/-- Where an entry has its directories at the same places as before, the directory has. -/
theorem hasDir_setEntry {d : FileTree}
    (h : ∀ names', d.hasDir names' = (es.lookup name).any fun e => e.hasDir names') :
    (dir (setEntry name d es)).hasDir names = (dir es).hasDir names := by
  cases names with
  | nil => rfl
  | cons first names =>
    rw [hasDir_dir_cons, hasDir_dir_cons, lookup_setEntry]
    split
    · next hfirst => rw [Option.any_some, h, hfirst]
    · rfl

/-- Putting a file where no directory is leaves the directories. -/
theorem hasDir_put (h : t.hasDir place = false) (names : List Text) :
    (t.put (file content) place).hasDir names = t.hasDir names := by
  induction place generalizing t names with
  | nil =>
    cases t with
    | file c => rw [put, hasDir_file, hasDir_file]
    | dir es => cases h
  | cons name place ih =>
    cases t with
    | file c => rfl
    | dir es =>
      rw [hasDir_dir_cons] at h
      unfold put
      dsimp only
      split
      · refine hasDir_setEntry fun names' => ?_
        rw [hasDir_file]
        cases hl : es.lookup name with
        | none => rfl
        | some e =>
          cases e with
          | file c => exact (hasDir_file c names').symm
          | dir es' =>
            rw [hl] at h
            cases h
      · next e hl =>
        rw [hl] at h
        exact hasDir_setEntry fun names' => by rw [hl, ih h, Option.any_some]
      · rfl

/-- Writing a file leaves the directories. -/
theorem hasDir_write {parts : List Text} (h : t.write parts content = .ok t')
    (names : List Text) : t'.hasDir names = t.hasDir names := by
  obtain ⟨place, -, h⟩ := exceptBind_eq_ok.1 h
  split at h
  · cases h
  · next hnone =>
    obtain rfl := Except.ok.inj h
    refine hasDir_put (Bool.eq_false_iff.2 fun hdir => ?_) names
    obtain ⟨es, hes⟩ := hasDir_iff.1 hdir
    exact hnone es hes

theorem get?_of_contentAt (h : t.contentAt names = some content) :
    t.get? names = some (file content) := by
  obtain ⟨e, he, hc⟩ := Option.bind_eq_some_iff.1 h
  cases e with
  | file c =>
    cases hc
    exact he
  | dir es => cases hc

/-- There is nothing below a file. -/
theorem get?_file (h : (file content).get? names = some e) : names = [] ∧ e = file content := by
  cases names with
  | nil => exact ⟨rfl, (Option.some.inj h).symm⟩
  | cons name names => cases h

/-- Where there are neither contents nor a directory, there is nothing. -/
theorem get?_eq_none (hcontent : t.contentAt names = none) (hdir : t.hasDir names = false) :
    t.get? names = none := by
  rw [contentAt] at hcontent
  rw [hasDir] at hdir
  cases hg : t.get? names with
  | none => rfl
  | some e =>
    rw [hg] at hcontent hdir
    cases e with
    | file c => cases hcontent
    | dir es => cases hdir

/-- Where there was nothing, there is nothing with the same contents and directories. -/
theorem get?_eq_none_of_same {t' : FileTree} (hcontent : t'.contentAt names = t.contentAt names)
    (hdir : t'.hasDir names = t.hasDir names) (h : t.get? names = none) : t'.get? names = none := by
  refine get?_eq_none (hcontent.trans ?_) (hdir.trans ?_)
  · rw [contentAt, h]
    rfl
  · rw [hasDir, h]
    rfl

/-- The way to a directory starts at one. -/
theorem hasDir_of_walk (h : t.walk current names = .ok place) (hdir : t.hasDir place) :
    t.hasDir current := by
  cases names with
  | nil =>
    obtain rfl := Except.ok.inj h
    exact hdir
  | cons name names =>
    obtain ⟨es, hes, -⟩ := walk_cons_eq_ok.1 h
    exact hasDir_iff.2 ⟨es, hes⟩

/-- The way to a directory can be followed wherever the same directories are. -/
theorem walk_of_hasDir (hsame : ∀ names, t'.hasDir names = t.hasDir names)
    (h : t.walk current names = .ok place) (hdir : t.hasDir place) :
    t'.walk current names = .ok place := by
  induction names generalizing current with
  | nil => exact h
  | cons name names ih =>
    have hcurrent := hasDir_of_walk h hdir
    rw [← hsame] at hcurrent
    obtain ⟨es', hes'⟩ := hasDir_iff.1 hcurrent
    refine walk_cons_eq_ok.2 ⟨es', hes', ?_⟩
    obtain ⟨es, -, ⟨hdots, h⟩ | ⟨hdots, -, h⟩⟩ := walk_cons_eq_ok.1 h
    · exact .inl ⟨hdots, ih h⟩
    · have hnext := hasDir_of_walk h hdir
      rw [← hsame] at hnext
      obtain ⟨below, hbelow⟩ := hasDir_iff.1 hnext
      obtain ⟨es'', e, hes'', hlookup, -⟩ := dir_of_get? hbelow
      obtain rfl := dir.inj (Option.some.inj (hes'.symm.trans hes''))
      exact .inr ⟨hdots, ⟨e, hlookup⟩, ih h⟩

end CustomElements.FileTree
