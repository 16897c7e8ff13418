import CustomElements.Proofs.Answers
import CustomElements.Workspace

/-!
# Normal paths

A normal path starts at the root and holds no two dots. Whatever is resolved becomes one, and from
then on it stays as it is: it resolves to itself, and following it through a file tree leads to its
own names. So a file that is read at a normal path is among the files of the tree under its names.
-/

namespace CustomElements

namespace Path

/-- The path starts at the root and leads straight down. -/
structure IsNormal (p : Path) : Prop where
  fromRoot : p.anchor = .root
  noDots : (".." : Text) ∉ p.parts

/-- Two dots only remove names, so none are left. -/
theorem not_mem_normalParts (parts : List Text) : (".." : Text) ∉ normalParts parts := by
  suffices h : ∀ before, (".." : Text) ∉ before →
      (".." : Text) ∉ parts.foldl pushPart before from h [] (List.not_mem_nil)
  induction parts with
  | nil => exact fun _ h => h
  | cons p ps ih =>
    intro before h
    apply ih
    unfold pushPart
    split
    · exact fun hd => h (List.dropLast_subset before hd)
    · next hp =>
      intro hm
      rcases List.mem_append.1 hm with hm | hm
      · exact h hm
      · exact hp (List.mem_singleton.1 hm).symm

theorem normalParts_subset (parts : List Text) : normalParts parts ⊆ parts := by
  suffices h : ∀ before, parts.foldl pushPart before ⊆ before ++ parts from h []
  induction parts with
  | nil => exact fun before => List.subset_append_left before []
  | cons p ps ih =>
    intro before
    refine List.Subset.trans (ih _) (List.append_subset.2 ⟨?_, ?_⟩)
    · unfold pushPart
      split
      · exact List.Subset.trans (List.dropLast_subset _) (List.subset_append_left _ _)
      · exact List.append_subset.2 ⟨List.subset_append_left _ _,
          List.cons_subset.2 ⟨List.mem_append_right _ List.mem_cons_self, List.nil_subset _⟩⟩
    · exact List.Subset.trans (List.subset_cons_self p ps) (List.subset_append_right _ _)

theorem foldl_pushPart {parts : List Text} (h : (".." : Text) ∉ parts) (before : List Text) :
    parts.foldl pushPart before = before ++ parts := by
  induction parts generalizing before with
  | nil => simp
  | cons p ps ih =>
    rw [List.mem_cons, not_or] at h
    have hp : pushPart before p = before ++ [p] := if_neg (Ne.symm h.1)
    rw [List.foldl_cons, hp, ih h.2, List.append_assoc, List.singleton_append]

theorem normalParts_eq {parts : List Text} (h : (".." : Text) ∉ parts) :
    normalParts parts = parts := foldl_pushPart h []

theorem normal_isNormal (current p : Path) : (normal current p).IsNormal :=
  ⟨rfl, not_mem_normalParts _⟩

theorem join_of_fromRoot {p : Path} (h : p.anchor = .root) (base : Path) : base.join p = p := by
  simp [join, isAbsolute, h]

theorem IsNormal.normal_eq {p : Path} (h : p.IsNormal) (current : Path) :
    normal current p = p := by
  obtain ⟨anchor, parts⟩ := p
  obtain rfl : anchor = .root := h.fromRoot
  rw [normal, join_of_fromRoot rfl, normalParts_eq h.noDots]

/-- A path keeps its last name unless two dots remove it. -/
theorem name_normal {p : Path} (hname : p.name ≠ []) (hdots : p.name ≠ "..") (current : Path) :
    (normal current p).name = p.name := by
  obtain ⟨anchor, parts⟩ := p
  cases hl : parts.getLast? with
  | none =>
    rw [name, hl] at hname
    exact absurd rfl hname
  | some n =>
    obtain ⟨init, rfl⟩ := List.getLast?_eq_some_iff.1 hl
    have hn : (Path.mk anchor (init ++ [n])).name = n := by
      rw [name, List.getLast?_concat, Option.getD_some]
    rw [hn] at hdots ⊢
    have hlast : ∃ before, (current.join ⟨anchor, init ++ [n]⟩).parts = before ++ [n] := by
      unfold join
      split
      · exact ⟨init, rfl⟩
      · exact ⟨current.parts ++ init, (List.append_assoc _ _ _).symm⟩
    obtain ⟨before, hbefore⟩ := hlast
    rw [normal, hbefore, normalParts, List.foldl_append, List.foldl_cons, List.foldl_nil, pushPart,
      if_neg hdots, name, List.getLast?_concat, Option.getD_some]

theorem IsNormal.eq {p q : Path} (hp : p.IsNormal) (hq : q.IsNormal) (h : p.parts = q.parts) :
    p = q := by
  obtain ⟨anchor, parts⟩ := p
  obtain ⟨anchor', parts'⟩ := q
  obtain rfl : anchor = .root := hp.fromRoot
  obtain rfl : anchor' = .root := hq.fromRoot
  exact congrArg _ h

end Path

namespace Workspace

variable {w : Workspace} {p q : Path}

theorem resolve_eq_ok : w.resolve p = .ok q ↔
    (∀ name ∈ (w.current.join p).parts, checkName name = .ok ()) ∧ q = Path.normal w.current p := by
  rw [resolve, exceptBind_eq_ok]
  constructor
  · rintro ⟨_, hm, hq⟩
    exact ⟨exceptForM_eq_ok.1 hm, (Except.ok.inj hq).symm⟩
  · rintro ⟨hm, rfl⟩
    exact ⟨_, exceptForM_eq_ok.2 hm, rfl⟩

theorem resolve_isNormal (h : w.resolve p = .ok q) : q.IsNormal := by
  rw [(resolve_eq_ok.1 h).2]
  exact Path.normal_isNormal _ _

theorem place_of_fromRoot {parts : List Text} (hp : p.anchor = .root) (h : w.place p = .ok parts) :
    parts = p.parts := by
  simp only [place, Path.join_of_fromRoot hp] at h
  split at h
  · cases h
  · split at h
    · cases h
    · exact (Except.ok.inj h).symm

end Workspace

namespace FileTree

/-- A name leads on from a directory: up to the one above, or down to an entry. -/
theorem walk_cons_eq_ok {t : FileTree} {current names place : List Text} {name : Text} :
    t.walk current (name :: names) = .ok place ↔ ∃ es, t.get? current = some (dir es) ∧
      (name = ".." ∧ t.walk current.dropLast names = .ok place ∨
        name ≠ ".." ∧ (∃ e, es.lookup name = some e) ∧
          t.walk (current ++ [name]) names = .ok place) := by
  rw [walk]
  rcases t.get? current with _ | (content | es)
  · exact iff_of_false nofun nofun
  · exact iff_of_false nofun nofun
  · simp only [Option.some.injEq, dir.injEq, exists_eq_left']
    by_cases hdots : name = ".."
    · simp [hdots]
    · cases es.lookup name <;> simp [hdots]

/-- Following names takes one after the other into the place. -/
theorem walk_eq_foldl {t : FileTree} {current names place : List Text}
    (h : t.walk current names = .ok place) : place = names.foldl Path.pushPart current := by
  induction names generalizing current with
  | nil => exact (Except.ok.inj h).symm
  | cons name names ih =>
    rw [List.foldl_cons, Path.pushPart]
    obtain ⟨es, -, ⟨hdots, h⟩ | ⟨hdots, -, h⟩⟩ := walk_cons_eq_ok.1 h
    · rw [if_pos hdots, ih h]
    · rw [if_neg hdots, ih h]

/-- Without two dots, names lead straight down. -/
theorem walk_eq {t : FileTree} {current names place : List Text} (hn : (".." : Text) ∉ names)
    (h : t.walk current names = .ok place) : place = current ++ names := by
  rw [walk_eq_foldl h, Path.foldl_pushPart hn]

theorem get?_of_read {t : FileTree} {parts : List Text} {content : Bytes}
    (hn : (".." : Text) ∉ parts) (h : t.read parts = .ok content) :
    t.get? parts = some (.file content) := by
  unfold read stat at h
  cases hw : t.walk [] parts with
  | error f => simp [hw, bind, Except.bind] at h
  | ok place =>
    obtain rfl : place = parts := walk_eq hn hw
    cases hg : t.get? place with
    | none => simp [hw, hg, bind, Except.bind] at h
    | some e =>
      cases e with
      | file c => simpa [hw, hg, bind, Except.bind] using h
      | dir es => simp [hw, hg, bind, Except.bind] at h

theorem mem_filesIn {name : Text} {e : FileTree} {names : List Text} {content : Bytes}
    {es : List (Text × FileTree)} (he : (name, e) ∈ es) (h : (names, content) ∈ e.files) :
    (name :: names, content) ∈ filesIn es := by
  induction es with
  | nil => cases he
  | cons x es ih =>
    obtain ⟨first, e'⟩ := x
    rw [filesIn, List.mem_append]
    rcases List.mem_cons.1 he with heq | he
    · obtain ⟨rfl, rfl⟩ := Prod.mk.inj heq
      exact .inl (List.mem_map.2 ⟨_, h, rfl⟩)
    · exact .inr (ih he)

/-- What is below a name is below the entry of a directory. -/
theorem get?_cons_eq_some {t e : FileTree} {name : Text} {names : List Text} :
    t.get? (name :: names) = some e ↔
      ∃ es d, t = dir es ∧ es.lookup name = some d ∧ d.get? names = some e := by
  cases t with
  | file content => exact iff_of_false nofun nofun
  | dir es =>
    rw [get?, entries]
    cases hl : es.lookup name <;> simp [hl]

/-- What can be found by its names is listed under them. -/
theorem mem_files_of_get? {t : FileTree} {names : List Text} {content : Bytes}
    (h : t.get? names = some (.file content)) : (names, content) ∈ t.files := by
  induction names generalizing t with
  | nil =>
    obtain rfl : t = .file content := by simpa [get?] using h
    simp [files]
  | cons name names ih =>
    obtain ⟨es, d, rfl, hl, hd⟩ := get?_cons_eq_some.1 h
    obtain ⟨before, after, rfl, _⟩ := List.lookup_eq_some_iff.1 hl
    rw [files]
    exact mem_filesIn (by simp) (ih hd)

end FileTree

/-- A file that can be read at a normal path is among the files of the workspace. -/
theorem Workspace.mem_files_of_read {w : Workspace} {p : Path} {content : Bytes} (hp : p.IsNormal)
    (h : w.read p = .ok content) : (p.parts, content) ∈ w.files.files := by
  unfold read at h
  cases hpl : w.place p with
  | error f => simp [hpl, bind, Except.bind] at h
  | ok parts =>
    obtain rfl := place_of_fromRoot hp.fromRoot hpl
    rw [hpl] at h
    exact FileTree.mem_files_of_get? (FileTree.get?_of_read hp.noDots h)

end CustomElements
