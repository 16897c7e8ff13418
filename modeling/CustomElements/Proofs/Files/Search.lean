import CustomElements.Files.Glob
import CustomElements.Proofs.Files.NamePatterns
import CustomElements.Proofs.Files.PathText
import CustomElements.Proofs.Files.TreeNames

/-!
# What a search finds

The parts of a search pattern stand for rows of names: two asterisks for any row, every other part
for one name. A search finds paths with such names only, and it finds each file that has them.
-/

namespace CustomElements

/-- The parts of a search pattern stand for these names. -/
inductive StandsFor : List Text → List Text → Prop where
  | none : StandsFor [] []
  | anyDepth (ds : List Text) {ts ns : List Text} (h : StandsFor ts ns) :
      StandsFor ("**" :: ts) (ds ++ ns)
  | name {t n : Text} {ts ns : List Text} (ht : t ≠ ("**" : Text)) (hn : Pattern.accepts t n)
      (h : StandsFor ts ns) : StandsFor (t :: ts) (n :: ns)

namespace StandsFor

variable {ts us ns ms : List Text}

theorem of_append (h : StandsFor (ts ++ us) ns) :
    ∃ ms rs, ns = ms ++ rs ∧ StandsFor ts ms ∧ StandsFor us rs := by
  induction ts generalizing ns with
  | nil => exact ⟨[], ns, rfl, .none, h⟩
  | cons t ts ih =>
    cases h with
    | anyDepth ds h =>
      obtain ⟨ms, rs, rfl, hm, hr⟩ := ih h
      exact ⟨ds ++ ms, rs, (List.append_assoc ..).symm, .anyDepth ds hm, hr⟩
    | name ht hn h =>
      obtain ⟨ms, rs, rfl, hm, hr⟩ := ih h
      exact ⟨_ :: ms, rs, rfl, .name ht hn hm, hr⟩

theorem of_singleton {t : Text} (ht : t ≠ ("**" : Text)) (h : StandsFor [t] ns) :
    ∃ n, ns = [n] ∧ Pattern.accepts t n := by
  cases h with
  | anyDepth ds h => exact absurd rfl ht
  | name _ hn h =>
    cases h
    exact ⟨_, rfl, hn⟩

theorem ne_nil (hne : ts ≠ []) (hlast : ts.getLast? ≠ some ("**" : Text)) (h : StandsFor ts ns) :
    ns ≠ [] := by
  induction h with
  | none => exact absurd rfl hne
  | name => exact List.cons_ne_nil _ _
  | @anyDepth ds ts ns h ih =>
    cases ts with
    | nil => exact absurd rfl hlast
    | cons t ts =>
      rw [List.getLast?_cons_cons] at hlast
      exact List.append_ne_nil_of_right_ne_nil ds (ih (List.cons_ne_nil t ts) hlast)

end StandsFor

namespace FileTree

variable {t e : FileTree} {current names place : List Text}

theorem get?_append (t : FileTree) (current names : List Text) :
    t.get? (current ++ names) = (t.get? current).bind fun e => e.get? names := by
  induction current generalizing t with
  | nil => rfl
  | cons name current ih =>
    rw [List.cons_append, get?, get?]
    split
    · exact ih _
    · rfl

/-- What is above an entry is a directory that holds its name. -/
theorem dir_of_get? {name : Text} (h : t.get? (current ++ name :: names) = some e) :
    ∃ es d, t.get? current = some (.dir es) ∧ es.lookup name = some d ∧ d.get? names = some e := by
  rw [get?_append, Option.bind_eq_some_iff] at h
  obtain ⟨d, hd, h⟩ := h
  obtain ⟨es, e', rfl, hl, he⟩ := get?_cons_eq_some.1 h
  exact ⟨es, e', hd, hl, he⟩

/-- Names that lead straight down are followed exactly if there is something at their end. -/
theorem walk_of_get? (hn : (".." : Text) ∉ names) (h : (t.get? (current ++ names)).isSome) :
    t.walk current names = .ok (current ++ names) := by
  induction names generalizing current with
  | nil => rw [walk, List.append_nil]
  | cons name names ih =>
    rw [List.mem_cons, not_or] at hn
    obtain ⟨e, he⟩ := Option.isSome_iff_exists.1 h
    obtain ⟨es, d, hdir, hl, -⟩ := dir_of_get? he
    have hstep : current ++ name :: names = (current ++ [name]) ++ names := by
      rw [List.append_assoc, List.singleton_append]
    rw [hstep] at h ⊢
    exact walk_cons_eq_ok.2 ⟨es, hdir, .inr ⟨Ne.symm hn.1, ⟨d, hl⟩, ih hn.2 h⟩⟩

theorem stat_eq_get? (hn : (".." : Text) ∉ names) : (t.stat names).toOption = t.get? names := by
  cases hg : t.get? names with
  | some e =>
    have hw : t.walk [] names = .ok names := walk_of_get? hn (Option.isSome_of_eq_some hg)
    rw [stat, hw]
    simp [bind, Except.bind, hg, Except.toOption]
  | none =>
    cases hs : t.stat names with
    | error f => rfl
    | ok e =>
      obtain ⟨place, hw, he⟩ := exceptBind_eq_ok.1 hs
      have hplace : place = names := walk_eq hn hw
      rw [hplace, hg] at he
      cases he

theorem fst_mem_namesIn {es : List (Text × FileTree)} {name : Text} (h : (name, e) ∈ es) :
    name ∈ namesIn es := by
  induction es with
  | nil => cases h
  | cons x es ih =>
    obtain ⟨first, e'⟩ := x
    rw [namesIn]
    rcases List.mem_cons.1 h with heq | h
    · exact (Prod.mk.inj heq).1 ▸ List.mem_cons_self
    · exact List.mem_cons_of_mem _ (List.mem_append_right _ (ih h))

mutual

/-- The directories below a tree have names of the tree. -/
theorem directories_subset : ∀ (t : FileTree), ∀ ds ∈ t.directories, ds ⊆ t.names
  | .file _, ds, h => by
    rw [directories] at h
    cases h
  | .dir es, ds, h => by
    rw [directories, List.mem_cons] at h
    rcases h with rfl | h
    · exact List.nil_subset _
    · rw [names]
      exact directoriesIn_subset es ds h

theorem directoriesIn_subset : ∀ (es : List (Text × FileTree)),
    ∀ ds ∈ directoriesIn es, ds ⊆ namesIn es
  | [], ds, h => by
    rw [directoriesIn] at h
    cases h
  | (name, e) :: es, ds, h => by
    rw [directoriesIn, List.mem_append, List.mem_map] at h
    rw [namesIn]
    rcases h with ⟨below, hb, rfl⟩ | h
    · have hsub := directories_subset e below hb
      exact List.cons_subset_cons _ (List.subset_append_of_subset_left _ hsub)
    · have hsub := directoriesIn_subset es ds h
      exact List.subset_cons_of_subset _ (List.subset_append_of_subset_right _ hsub)

end

theorem mem_directoriesIn {es : List (Text × FileTree)} {name : Text} {ds : List Text}
    (hl : es.lookup name = some e) (h : ds ∈ e.directories) : name :: ds ∈ directoriesIn es := by
  obtain ⟨before, after, rfl, -⟩ := List.lookup_eq_some_iff.1 hl
  clear hl
  induction before with
  | nil =>
    rw [List.nil_append, directoriesIn]
    exact List.mem_append_left _ (List.mem_map_of_mem h)
  | cons x before ih =>
    obtain ⟨first, e'⟩ := x
    rw [List.cons_append, directoriesIn]
    exact List.mem_append_right _ ih

/-- The directories that can be found by their names are listed. -/
theorem mem_directories (h : t.get? names = some e) (he : e.isDir) : names ∈ t.directories := by
  induction names generalizing t with
  | nil =>
    obtain rfl := Option.some.inj h
    cases t with
    | file c => cases he
    | dir es =>
      rw [directories]
      exact List.mem_cons_self
  | cons name names ih =>
    obtain ⟨es, d, rfl, hl, hd⟩ := get?_cons_eq_some.1 h
    rw [directories]
    exact List.mem_cons_of_mem _ (mem_directoriesIn hl (ih hd))

end FileTree

namespace Workspace

variable {w : Workspace} {p q start : Path} {e : FileTree}

theorem checkName_eq_ok {name : Text} : checkName name = .ok () ↔
    name.any isUnencodable = false ∧ (name.any fun c => decide (c = .scalar '\x00')) = false := by
  unfold checkName
  split
  · next h => simp [h]
  · next h =>
    split
    · next h' => simp [h']
    · next h' => simp [h, h']

theorem place_eq_ok {parts : List Text} : w.place p = .ok parts ↔
    (∀ name ∈ (w.current.join p).parts, checkName name = .ok ()) ∧
      parts = (w.current.join p).parts := by
  unfold place
  dsimp only
  constructor
  · intro h
    split at h
    · cases h
    · next henc =>
      split at h
      · cases h
      · next hnul =>
        refine ⟨fun name hname => checkName_eq_ok.2 ⟨?_, ?_⟩, (Except.ok.inj h).symm⟩
        · exact Bool.eq_false_iff.2 (List.any_eq_false.1 (Bool.eq_false_iff.2 henc) name hname)
        · exact Bool.eq_false_iff.2 (List.any_eq_false.1 (Bool.eq_false_iff.2 hnul) name hname)
  · rintro ⟨h, rfl⟩
    rw [if_neg, if_neg]
    · rw [Bool.not_eq_true, List.any_eq_false]
      exact fun name hname => Bool.eq_false_iff.1 (checkName_eq_ok.1 (h name hname)).2
    · rw [Bool.not_eq_true, List.any_eq_false]
      exact fun name hname => Bool.eq_false_iff.1 (checkName_eq_ok.1 (h name hname)).1

theorem place_of_isPlace (h : p.IsPlace) : w.place p = .ok p.parts := by
  rw [place_eq_ok, Path.join_of_fromRoot h.fromRoot]
  exact ⟨fun name hname => (h.names name hname).accepted, rfl⟩

theorem entryAt?_of_isPlace (h : p.IsPlace) : w.entryAt? p = w.files.get? p.parts := by
  rw [entryAt?, place_of_isPlace h]
  exact FileTree.stat_eq_get? h.isNormal.noDots

theorem entryAt?_eq_some : w.entryAt? p = some e ↔
    (∀ name ∈ (w.current.join p).parts, checkName name = .ok ()) ∧
      ∃ place, w.files.walk [] (w.current.join p).parts = .ok place ∧
        w.files.get? place = some e := by
  rw [entryAt?]
  constructor
  · intro h
    split at h
    · next parts hparts =>
      obtain ⟨haccepted, rfl⟩ := place_eq_ok.1 hparts
      refine ⟨haccepted, ?_⟩
      cases hs : w.files.stat (w.current.join p).parts with
      | error f =>
        rw [hs] at h
        cases h
      | ok e' =>
        rw [hs] at h
        obtain rfl := Option.some.inj h
        obtain ⟨place, hwalk, he⟩ := exceptBind_eq_ok.1 hs
        refine ⟨place, hwalk, ?_⟩
        split at he
        · next hg => exact hg.trans (congrArg some (Except.ok.inj he))
        · cases he
    · cases h
  · rintro ⟨haccepted, place, hwalk, hg⟩
    have hstat : w.files.stat (w.current.join p).parts = .ok e := by
      refine exceptBind_eq_ok.2 ⟨place, hwalk, ?_⟩
      rw [hg]
    rw [place_eq_ok.2 ⟨haccepted, rfl⟩]
    exact congrArg Except.toOption hstat

/-- What a path leads to is at its names without two dots. -/
theorem get?_of_entryAt? (h : w.entryAt? p = some e) :
    w.files.get? (Path.normal w.current p).parts = some e := by
  obtain ⟨-, place, hwalk, hg⟩ := entryAt?_eq_some.1 h
  rw [FileTree.walk_eq_foldl hwalk] at hg
  exact hg

/-- A file that is there has a path that can be resolved. -/
theorem resolve_of_isFile (h : w.isFile p) : w.resolve p = .ok (Path.normal w.current p) := by
  refine resolve_eq_ok.2 ⟨?_, rfl⟩
  obtain ⟨e, he, -⟩ := (Option.any_eq_true _ _).1 h
  unfold entryAt? at he
  split at he
  · next parts hparts => exact (place_eq_ok.1 hparts).1
  · cases he

theorem not_isDir_of_isFile (h : w.isFile p) : ¬w.isDir p := by
  intro hdir
  obtain ⟨e, he, hfile⟩ := (Option.any_eq_true _ _).1 h
  rw [isDir, he, Option.any_some] at hdir
  rw [hdir] at hfile
  cases hfile

/-- A file is there at its normal path too. -/
theorem isFile_normal (h : w.isFile p) : w.isFile (Path.normal w.current p) := by
  have hnormal := Path.normal_isNormal w.current p
  have haccepted := (resolve_eq_ok.1 (resolve_of_isFile h)).1
  obtain ⟨e, he, hdir⟩ := (Option.any_eq_true _ _).1 h
  have hplace : w.place (Path.normal w.current p) = .ok (Path.normal w.current p).parts := by
    rw [place_eq_ok, Path.join_of_fromRoot hnormal.fromRoot]
    exact ⟨fun name hname => haccepted name (Path.normalParts_subset _ hname), rfl⟩
  have hentry : w.entryAt? (Path.normal w.current p) = some e := by
    rw [entryAt?, hplace]
    exact (FileTree.stat_eq_get? hnormal.noDots).trans (get?_of_entryAt? he)
  exact (Option.any_eq_true _ _).2 ⟨e, hentry, hdir⟩

theorem names_entryAt? (h : w.entryAt? p = some e) : e.names ⊆ w.files.names :=
  FileTree.names_get? (get?_of_entryAt? h)

theorem name_of_mem_entries {n : Text} (h : (n, e) ∈ w.entries p) : n ∈ w.files.names := by
  rw [entries] at h
  cases hd : w.entryAt? p with
  | none =>
    rw [hd] at h
    cases h
  | some d =>
    rw [hd] at h
    refine names_entryAt? hd ?_
    rw [← FileTree.names_entries]
    exact FileTree.fst_mem_namesIn h

namespace SearchPart

variable {t n : Text} {part : SearchPart}

/-- A part that can be read is two asterisks, or it stands for a name each. -/
theorem ofText_eq_ok (h : SearchPart.ofText t = .ok part) :
    (t = ("**" : Text) ∧ part = .anyDepth) ∨
      t ≠ ("**" : Text) ∧ (part = .matching (Pattern.items t) ∨
        Pattern.hasWildcard t = false ∧ part = .named t) := by
  unfold SearchPart.ofText at h
  split at h
  · next ht => exact .inl ⟨ht, (Except.ok.inj h).symm⟩
  · next ht =>
    refine .inr ⟨ht, ?_⟩
    split at h
    · cases h
    · split at h
      · exact .inl (Except.ok.inj h).symm
      · next hw => exact .inr ⟨Bool.eq_false_iff.2 hw, (Except.ok.inj h).symm⟩

end SearchPart

theorem mem_search {ts : List Text} {parts : List SearchPart}
    (h : ts.mapM SearchPart.ofText = .ok parts) (hq : q ∈ w.search start parts) :
    ∃ ns, q = ⟨start.anchor, start.parts ++ ns⟩ ∧ StandsFor ts ns ∧
      ∀ n ∈ ns, n ∈ w.files.names ∨ n ∈ ts := by
  induction ts generalizing start parts with
  | nil =>
    rw [List.mapM_nil] at h
    obtain rfl := Except.ok.inj h
    rw [search, List.mem_singleton] at hq
    refine ⟨[], ?_, .none, fun n hn => nomatch hn⟩
    rw [hq, List.append_nil]
  | cons t ts ih =>
    obtain ⟨part, rest, hpart, hrest, rfl⟩ := exceptMapM_cons_eq_ok.1 h
    have hlater : ∀ {n}, n ∈ w.files.names ∨ n ∈ ts → n ∈ w.files.names ∨ n ∈ t :: ts :=
      fun hn => hn.imp_right (List.mem_cons_of_mem t)
    -- a part that stands for one name
    have hone : ∀ {n}, t ≠ ("**" : Text) → Pattern.accepts t n →
        (n ∈ w.files.names ∨ n ∈ t :: ts) → q ∈ w.search (start.child n) rest →
        ∃ ns, q = ⟨start.anchor, start.parts ++ ns⟩ ∧ StandsFor (t :: ts) ns ∧
          ∀ n ∈ ns, n ∈ w.files.names ∨ n ∈ t :: ts := by
      intro n ht hn hname hq
      obtain ⟨ns, rfl, hs, hnames⟩ := ih hrest hq
      refine ⟨n :: ns, ?_, .name ht hn hs, List.forall_mem_cons.2 ⟨hname, fun m hm =>
        hlater (hnames m hm)⟩⟩
      rw [Path.child, List.append_assoc, List.singleton_append]
    rcases SearchPart.ofText_eq_ok hpart with ⟨rfl, rfl⟩ | ⟨ht, rfl | ⟨hw, rfl⟩⟩
    · rw [search] at hq
      split at hq
      · next e he =>
        obtain ⟨ds, hds, hq⟩ := List.mem_flatMap.1 hq
        obtain ⟨ns, rfl, hs, hnames⟩ := ih hrest hq
        refine ⟨ds ++ ns, ?_, .anyDepth ds hs, fun m hm => ?_⟩
        · rw [List.append_assoc]
        · rcases List.mem_append.1 hm with hm | hm
          · exact .inl (names_entryAt? he (FileTree.directories_subset e ds hds hm))
          · exact hlater (hnames m hm)
      · cases hq
    · rw [search] at hq
      obtain ⟨⟨n, e⟩, he, hq⟩ := List.mem_flatMap.1 hq
      obtain ⟨hentry, hmatch⟩ := List.mem_filter.1 he
      rw [Bool.and_eq_true] at hmatch
      exact hone ht hmatch.2 (.inl (name_of_mem_entries hentry)) hq
    · rw [search] at hq
      exact hone ht ((Pattern.accepts_of_not_hasWildcard hw).2 rfl) (.inr List.mem_cons_self)
        (List.mem_ite_nil_right.1 hq).2

theorem isEmpty_of_mapM {ts : List Text} {parts : List SearchPart}
    (h : ts.mapM SearchPart.ofText = .ok parts) : parts.isEmpty = ts.isEmpty := by
  cases exceptMapM_eq_ok.1 h <;> rfl

theorem entryAt?_above {ns : List Text} (hp : (Path.mk start.anchor (start.parts ++ ns)).IsPlace) :
    w.entryAt? start = w.files.get? start.parts :=
  entryAt?_of_isPlace ⟨hp.fromRoot, fun n hn => hp.names n (List.mem_append_left _ hn)⟩

theorem search_anyDepth {parts : List SearchPart} {ds : List Text} (h : w.entryAt? start = some e)
    {d : FileTree} (hd : e.get? ds = some d) (hdir : d.isDir)
    (hq : q ∈ w.search ⟨start.anchor, start.parts ++ ds⟩ parts) :
    q ∈ w.search start (.anyDepth :: parts) := by
  rw [search, h]
  exact List.mem_flatMap.2 ⟨ds, FileTree.mem_directories hd hdir, hq⟩

/-- A part that stands for a name finds what is found below the entry with this name. -/
theorem search_name {t n : Text} {part : SearchPart} {parts : List SearchPart}
    (hpart : SearchPart.ofText t = .ok part) (ht : t ≠ ("**" : Text)) (hn : Pattern.accepts t n)
    {es : List (Text × FileTree)} (h : w.entryAt? start = some (.dir es))
    (hl : es.lookup n = some e) (hnext : w.entryAt? (start.child n) = some e)
    (hdir : parts.isEmpty || e.isDir) (hq : q ∈ w.search (start.child n) parts) :
    q ∈ w.search start (part :: parts) := by
  rcases SearchPart.ofText_eq_ok hpart with ⟨rfl, -⟩ | ⟨-, rfl | ⟨hw, rfl⟩⟩
  · exact absurd rfl ht
  · rw [search, entries, h]
    refine List.mem_flatMap.2 ⟨(n, e), List.mem_filter.2 ⟨?_, ?_⟩, hq⟩
    · obtain ⟨before, after, hes, -⟩ := List.lookup_eq_some_iff.1 hl
      rw [Option.map_some, Option.getD_some, FileTree.entries, hes]
      exact List.mem_append_right _ List.mem_cons_self
    · exact Bool.and_eq_true_iff.2 ⟨hdir, hn⟩
  · obtain rfl := (Pattern.accepts_of_not_hasWildcard hw).1 hn
    rw [search]
    refine List.mem_ite_nil_right.2 ⟨?_, hq⟩
    rw [isDir, hnext]
    simpa using hdir

/-- A file with names that the parts stand for is found. -/
theorem search_of_standsFor {ts ns : List Text} {parts : List SearchPart} {content : Bytes}
    (h : ts.mapM SearchPart.ofText = .ok parts) (hlast : ts.getLast? ≠ some ("**" : Text))
    (hs : StandsFor ts ns) (hp : (Path.mk start.anchor (start.parts ++ ns)).IsPlace)
    (hf : w.files.get? (start.parts ++ ns) = some (.file content)) :
    ⟨start.anchor, start.parts ++ ns⟩ ∈ w.search start parts := by
  induction hs generalizing start parts with
  | none =>
    rw [List.mapM_nil] at h
    obtain rfl := Except.ok.inj h
    rw [search, List.append_nil]
    exact List.mem_singleton_self _
  | @anyDepth ds ts ns hs ih =>
    obtain ⟨part, rest, hpart, hrest, rfl⟩ := exceptMapM_cons_eq_ok.1 h
    obtain rfl : SearchPart.anyDepth = part := Except.ok.inj hpart
    obtain ⟨t, ts, rfl⟩ : ∃ u us, ts = u :: us := by
      refine List.exists_cons_of_ne_nil ?_
      rintro rfl
      exact hlast rfl
    rw [List.getLast?_cons_cons] at hlast
    obtain ⟨n, ns, rfl⟩ := List.exists_cons_of_ne_nil (hs.ne_nil (List.cons_ne_nil _ _) hlast)
    have hhere : w.entryAt? start = w.files.get? start.parts := entryAt?_above hp
    rw [← List.append_assoc] at hp hf ⊢
    -- what is above the last name is a directory
    obtain ⟨es, -, hdir, -, -⟩ := FileTree.dir_of_get? hf
    have hbelow := hdir
    rw [FileTree.get?_append, Option.bind_eq_some_iff] at hbelow
    obtain ⟨d, hd, hds⟩ := hbelow
    exact search_anyDepth (hhere.trans hd) hds rfl
      (@ih ⟨start.anchor, start.parts ++ ds⟩ rest hrest hlast hp hf)
  | @name t n ts ns ht hn hs ih =>
    obtain ⟨part, rest, hpart, hrest, rfl⟩ := exceptMapM_cons_eq_ok.1 h
    have hhere : w.entryAt? start = w.files.get? start.parts := entryAt?_above hp
    obtain ⟨es, e, hdir, hl, he⟩ := FileTree.dir_of_get? hf
    have hsplit : start.parts ++ n :: ns = (start.parts ++ [n]) ++ ns := by
      rw [List.append_assoc, List.singleton_append]
    have hentry : w.files.get? (start.parts ++ [n]) = some e := by
      rw [FileTree.get?_append, hdir, Option.bind_some, FileTree.get?, FileTree.entries, hl]
      rfl
    rw [hsplit] at hp hf ⊢
    have hnext : w.entryAt? (start.child n) = some e :=
      (@entryAt?_above w (start.child n) ns hp).trans hentry
    cases ts with
    | nil =>
      have hend : rest.isEmpty = true := isEmpty_of_mapM hrest
      exact search_name hpart ht hn (hhere.trans hdir) hl hnext (by rw [hend]; rfl)
        (@ih (start.child n) rest hrest (by simp) hp hf)
    | cons u us =>
      rw [List.getLast?_cons_cons] at hlast
      obtain ⟨m, ms, rfl⟩ := List.exists_cons_of_ne_nil (hs.ne_nil (List.cons_ne_nil _ _) hlast)
      have hbelow : e.get? ([] ++ m :: ms) = some (.file content) := he
      obtain ⟨es', -, he', -, -⟩ := FileTree.dir_of_get? hbelow
      obtain rfl : e = .dir es' := Option.some.inj he'
      exact search_name hpart ht hn (hhere.trans hdir) hl hnext (Bool.or_true _)
        (@ih (start.child n) rest hrest hlast hp hf)

/-- A search has an answer if its pattern is relative and its parts can be read. -/
theorem glob_eq_ok {pattern : Text} {found : List Path} : w.glob start pattern = .ok found ↔
    (Path.ofText pattern).isAbsolute = false ∧
      ∃ parts, (Path.partsOf pattern).mapM SearchPart.ofText = .ok parts ∧
        found = if w.isDir start then (w.search start parts).mergeSort Path.le else [] := by
  unfold glob
  dsimp only
  split
  · next ha => simp [ha, bind, Except.bind, throw, throwThe, MonadExceptOf.throw]
  · next ha =>
    rw [exceptBind_eq_ok, and_iff_right (Bool.eq_false_iff.2 ha)]
    refine exists_congr fun parts => and_congr_right fun _ => ?_
    rw [eq_comm]
    split <;> exact ⟨Except.ok.inj, congrArg _⟩

theorem mem_found {found : List Path} {parts : List SearchPart}
    (h : found = if w.isDir start then (w.search start parts).mergeSort Path.le else []) :
    q ∈ found ↔ w.isDir start ∧ q ∈ w.search start parts := by
  rw [h]
  split
  · next hd => rw [List.mem_mergeSort, hd, and_iff_right rfl]
  · next hd => simp [hd]

end Workspace

end CustomElements
