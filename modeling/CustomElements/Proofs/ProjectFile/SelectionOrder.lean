import CustomElements.Proofs.FirstMatch
import CustomElements.Proofs.ProjectFile.Selecting
import CustomElements.Proofs.RelatedAnswers
import CustomElements.Proofs.Workspace.Outcome

/-!
# The selection in order

A project file selects the files that it lists, and after them what its include rules lead to. In
both parts a path stands where it comes first, and only in the first one where it could stand in
both. Exclude rules and the output directory take paths out of the second part alone; what they
leave there stays in its order.
-/

namespace CustomElements

namespace ProjectFile

variable {w : Workspace} {s : ProjectFile} {r : FileRule} {rs : List FileRule} {p : Path}
  {selected ps qs : List Path}

/-- The listed files that are there, each where it is listed first. -/
def listedFiles (s : ProjectFile) (w : Workspace) : List Path := (s.files.filter w.isFile).eraseDups

/-- The paths that are neither taken out nor listed, each where it comes first. -/
def laterSources (s : ProjectFile) (w : Workspace) (found : List Path) : List Path :=
  ((found.filter fun p => !s.takesOut p).filter fun p => !(s.listedFiles w).contains p).eraseDups

theorem takesOut_eq_false : s.takesOut p = false ↔
    (∀ o, s.outDir = some o → p.isBelow o = false) ∧ ∀ r ∈ s.excludes, r.takesOut p = false := by
  rw [takesOut, Bool.or_eq_false_iff, List.any_eq_false]
  cases s.outDir <;> simp

theorem listed_eq (selected ps : List Path) : listed w selected ps =
    selected ++ ((ps.filter w.isFile).filter fun p => !selected.contains p).eraseDups := by
  induction ps generalizing selected with
  | nil => rw [listed, List.filter_nil, List.filter_nil, List.eraseDups_nil, List.append_nil]
  | cons p ps ih =>
    rw [listed, ih]
    by_cases hp : w.isFile p
    · rw [List.filter_cons_of_pos hp, ← eraseDups_kept]
      cases hm : selected.contains p <;> simp [hp]
    · rw [List.filter_cons_of_neg hp]
      simp [hp]

theorem added_eq (selected ps : List Path) : s.added selected ps = selected ++
    ((ps.filter fun p => !s.takesOut p).filter fun p => !selected.contains p).eraseDups := by
  induction ps generalizing selected with
  | nil => rw [added, List.filter_nil, List.filter_nil, List.eraseDups_nil, List.append_nil]
  | cons p ps ih =>
    rw [added, ih]
    cases hp : s.takesOut p with
    | false =>
      rw [List.filter_cons_of_pos (by rw [hp]; rfl), ← eraseDups_kept, Bool.or_false]
    | true =>
      rw [List.filter_cons_of_neg (by rw [hp]; decide), Bool.or_true, if_pos rfl]

theorem added_append : s.added selected (ps ++ qs) = s.added (s.added selected ps) qs := by
  induction ps generalizing selected with
  | nil => rw [added, List.nil_append]
  | cons p ps ih => rw [List.cons_append, added, added, ih]

theorem listed_files : listed w [] s.files = s.listedFiles w := by
  have hall : (fun p => !([] : List Path).contains p) = fun _ => true := rfl
  rw [listed_eq, List.nil_append, hall, List.filter_true, listedFiles]

/-- Without a fault, all rules are followed, one after the other. -/
theorem included_eq_none : s.included w selected rs = (ps, none) ↔
    ∃ found, rs.mapM (FileRule.expand w) = .ok found ∧ ps = s.added selected found.flatten := by
  induction rs generalizing selected with
  | nil =>
    rw [included, List.mapM_nil, Prod.mk.injEq, and_iff_left rfl]
    constructor
    · intro hps
      exact ⟨[], rfl, hps.symm⟩
    · rintro ⟨found, hfound, rfl⟩
      obtain rfl := Except.ok.inj hfound
      rfl
  | cons r rs ih =>
    rw [included, List.mapM_cons]
    cases hr : r.expand w with
    | error f => simp [bind, Except.bind]
    | ok qs =>
      dsimp only
      rw [ih]
      constructor
      · rintro ⟨found, hfound, rfl⟩
        refine ⟨qs :: found, exceptBind_eq_ok.2 ⟨qs, rfl, ?_⟩, ?_⟩
        · exact exceptBind_eq_ok.2 ⟨found, hfound, rfl⟩
        · rw [List.flatten_cons, added_append]
      · rintro ⟨all, hall, rfl⟩
        obtain ⟨_, hqs, hall⟩ := exceptBind_eq_ok.1 hall
        obtain rfl := Except.ok.inj hqs
        obtain ⟨found, hfound, hall⟩ := exceptBind_eq_ok.1 hall
        obtain rfl := Except.ok.inj hall
        exact ⟨found, hfound, by rw [List.flatten_cons, added_append]⟩

/-- The selection is the listed files, and then what the include rules lead to, rule by rule. -/
theorem select_eq_none : s.select w = (ps, none) ↔
    ∃ found, s.includes.mapM (FileRule.expand w) = .ok found ∧
      ps = s.listedFiles w ++ s.laterSources w found.flatten := by
  rw [select, listed_files, included_eq_none]
  simp only [added_eq, laterSources]

theorem prefix_included (selected : List Path) (rs : List FileRule) :
    selected <+: (s.included w selected rs).1 := by
  induction rs generalizing selected with
  | nil => exact List.prefix_rfl
  | cons r rs ih =>
    rw [included]
    split
    · next ps _ =>
      refine List.IsPrefix.trans ?_ (ih _)
      rw [added_eq]
      exact List.prefix_append _ _
    · exact List.prefix_rfl

theorem listedFiles_prefix (s : ProjectFile) (w : Workspace) :
    s.listedFiles w <+: (s.select w).1 := by
  rw [select, listed_files]
  exact prefix_included _ _

theorem mem_laterSources {found : List Path} : p ∈ s.laterSources w found ↔
    p ∈ found ∧ s.takesOut p = false ∧ p ∉ s.listedFiles w := by
  rw [laterSources, List.mem_eraseDups, List.mem_filter, List.mem_filter]
  simp [and_assoc]

/-- One more exclude rule takes out what it takes out, and leaves the rest as it was. -/
theorem laterSources_exclude {before after : List FileRule} (h : s.excludes = before ++ after)
    (r : FileRule) (found : List Path) :
    laterSources { s with excludes := before ++ r :: after } w found =
      (s.laterSources w found).filter fun p => !r.takesOut p := by
  have htaken (p : Path) : takesOut { s with excludes := before ++ r :: after } p =
      (r.takesOut p || s.takesOut p) := by
    rw [takesOut, takesOut, h, List.any_append, List.any_append, List.any_cons]
    cases r.takesOut p <;> simp
  have hlisted : listedFiles { s with excludes := before ++ r :: after } w = s.listedFiles w := rfl
  rw [laterSources, laterSources, hlisted, ← eraseDups_filter, List.filter_filter,
    List.filter_filter, List.filter_filter]
  congr 1
  refine List.filter_congr fun p _ => ?_
  rw [htaken, Bool.not_or]
  cases r.takesOut p <;> simp

theorem nodup_selection (s : ProjectFile) (w : Workspace) (found : List Path) :
    (s.listedFiles w ++ s.laterSources w found).Nodup := by
  rw [List.nodup_append]
  refine ⟨nodup_eraseDups _, nodup_eraseDups _, ?_⟩
  intro p hlisted q hlater heq
  exact (mem_laterSources.1 hlater).2.2 (heq ▸ hlisted)

section Found

variable {found : List (List Path)} (hfound : s.includes.mapM (FileRule.expand w) = .ok found)

include hfound

/-- What comes later was found by an include rule, and so it is a source. -/
theorem exists_include (hp : p ∈ s.laterSources w found.flatten) :
    w.isFile p ∧ isSourceName p.name ∧
      ∃ r ∈ s.includes, ∃ qs, r.expand w = .ok qs ∧ p ∈ qs := by
  obtain ⟨qs, hqs, hp⟩ := List.mem_flatten.1 (mem_laterSources.1 hp).1
  obtain ⟨r, hr, hexpand⟩ := forall₂_exists_left (exceptMapM_eq_ok.1 hfound) qs hqs
  obtain ⟨hfile, hname⟩ := FileRule.source_of_mem_expand hexpand hp
  exact ⟨hfile, hname, r, hr, qs, hexpand, hp⟩

/-- What an include rule finds is selected unless it is taken out. -/
theorem exists_expand_of_include (hr : r ∈ s.includes) : ∃ qs, r.expand w = .ok qs ∧
    ∀ p ∈ qs, s.takesOut p = false → p ∈ s.listedFiles w ++ s.laterSources w found.flatten := by
  obtain ⟨qs, hqs, hexpand⟩ := forall₂_exists_right (exceptMapM_eq_ok.1 hfound) r hr
  refine ⟨qs, hexpand, fun p hp hkept => ?_⟩
  by_cases hlisted : p ∈ s.listedFiles w
  · exact List.mem_append_left _ hlisted
  · have hall : p ∈ found.flatten := List.mem_flatten.2 ⟨qs, hqs, hp⟩
    exact List.mem_append_right _ (mem_laterSources.2 ⟨hall, hkept, hlisted⟩)

end Found

/-- A selection without a fault has no path twice. It begins with the listed files that are there,
each where it is listed first, whatever is excluded and wherever outputs go. All that comes later are
sources that are there, outside the output directory, matched by no exclude rule and found by an
include rule; and all that an include rule finds is selected unless it is taken out. One more exclude
rule, wherever it stands, takes out later paths only and leaves the others in their order. -/
theorem select_in_order (h : s.select w = (ps, none)) : ps.Nodup ∧
    (∀ excludes outDir, s.listedFiles w <+:
      (select { s with excludes := excludes, outDir := outDir } w).1) ∧
    ∃ later, ps = s.listedFiles w ++ later ∧
      (∀ p ∈ later, (w.isFile p ∧ isSourceName p.name ∧
          ∃ r ∈ s.includes, ∃ qs, r.expand w = .ok qs ∧ p ∈ qs) ∧
        (∀ o, s.outDir = some o → p.isBelow o = false) ∧
        ∀ r ∈ s.excludes, r.takesOut p = false) ∧
      (∀ r ∈ s.includes, ∃ qs, r.expand w = .ok qs ∧
        ∀ p ∈ qs, s.takesOut p = false → p ∈ ps) ∧
      ∀ r before after, s.excludes = before ++ after →
        select { s with excludes := before ++ r :: after } w =
          (s.listedFiles w ++ later.filter fun p => !r.takesOut p, none) := by
  obtain ⟨found, hfound, rfl⟩ := select_eq_none.1 h
  refine ⟨nodup_selection s w _, ?_, s.laterSources w found.flatten, rfl, ?_, ?_, ?_⟩
  · intro excludes outDir
    exact listedFiles_prefix { s with excludes := excludes, outDir := outDir } w
  · intro p hp
    have hkept := (mem_laterSources.1 hp).2.1
    exact ⟨exists_include hfound hp, takesOut_eq_false.1 hkept⟩
  · intro r hr
    exact exists_expand_of_include hfound hr
  · intro r before after hexcludes
    rw [← laterSources_exclude hexcludes]
    exact select_eq_none.2 ⟨found, hfound, rfl⟩

/-- Rules that find three sources, one of them twice and one of them listed twice. -/
def overlappingRules : ProjectFile where
  path := "/ws/tsconfig.json"
  files := ["/ws/main.ts", "/ws/none.ts", "/ws/main.ts"]
  includes := [⟨"/ws", "lib/*"⟩, ⟨"/ws", "lib/a.ts"⟩]
  excludes := [⟨"/ws", "main.ts"⟩]

def threeSources : Workspace := { Workspace.bare with
  files := .dir [("ws", .dir [
    ("main.ts", .file ByteArray.empty),
    ("lib", .dir [("b.ts", .file ByteArray.empty), ("a.ts", .file ByteArray.empty)])])] }

theorem mergeSort_pair {α : Type} {le : α → α → Bool} {a b : α} (h : le a b = false) :
    [a, b].mergeSort le = [b, a] := by
  rw [List.mergeSort]
  simp [h]

theorem select_threeSources : overlappingRules.select threeSources =
    ([("/ws/main.ts" : Path), "/ws/lib/a.ts", "/ws/lib/b.ts"], none) := by
  have hglob : threeSources.glob "/ws" "lib/*" = .ok [("/ws/lib/a.ts" : Path), "/ws/lib/b.ts"] := by
    have hfound : threeSources.glob "/ws" "lib/*" =
        .ok ([("/ws/lib/b.ts" : Path), "/ws/lib/a.ts"].mergeSort Path.le) := rfl
    rw [hfound, mergeSort_pair (by decide)]
  have hall : (FileRule.mk "/ws" "lib/*").expand threeSources =
      .ok [("/ws/lib/a.ts" : Path), "/ws/lib/b.ts"] := by
    have hexpand : (FileRule.mk "/ws" "lib/*").expand threeSources =
        threeSources.glob "/ws" "lib/*" >>= fun found => (found.filter fun p =>
          threeSources.isFile p && isSourceName p.name &&
            !p.parts.contains ("node_modules" : Text)).mapM threeSources.resolve := rfl
    rw [hexpand, hglob]
    rfl
  have hone : (FileRule.mk "/ws" "lib/a.ts").expand threeSources =
      .ok [("/ws/lib/a.ts" : Path)] := by
    rfl
  refine select_eq_none.2 ⟨_, exceptMapM_eq_ok.2 (.cons hall (.cons hone .nil)), ?_⟩
  decide +kernel

/-- The listed file stays although it is excluded, and one more rule takes out one of the others. -/
theorem select_in_order_overlapping :
    overlappingRules.select threeSources =
      ([("/ws/main.ts" : Path), "/ws/lib/a.ts", "/ws/lib/b.ts"], none) ∧
    overlappingRules.listedFiles threeSources = [("/ws/main.ts" : Path)] ∧
    select { overlappingRules with excludes := [⟨"/ws", "main.ts"⟩, ⟨"/ws", "lib/a.*"⟩] }
      threeSources = ([("/ws/main.ts" : Path), "/ws/lib/b.ts"], none) := by
  have hlisted : overlappingRules.listedFiles threeSources = [("/ws/main.ts" : Path)] := by decide +kernel
  obtain ⟨-, -, later, hps, -, -, hexclude⟩ := select_in_order select_threeSources
  refine ⟨select_threeSources, hlisted, ?_⟩
  rw [hlisted] at hps hexclude
  rw [List.singleton_append] at hps
  obtain rfl := (List.cons.inj hps).2
  have hmore := hexclude ⟨"/ws", "lib/a.*"⟩ [⟨"/ws", "main.ts"⟩] [] rfl
  rw [List.singleton_append] at hmore
  rw [hmore]
  decide +kernel

end ProjectFile

end CustomElements
