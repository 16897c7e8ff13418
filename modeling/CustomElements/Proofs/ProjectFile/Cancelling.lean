import CustomElements.Proofs.ProjectFile.SearchedParts
import CustomElements.Proofs.Workspace.Outcome

/-!
# Including and excluding by one pattern

A project file that excludes what it includes should select nothing. The two kinds of rules read a
pattern in different ways, though: an include rule takes it apart into names and lets two asterisks
stand for no directory at all, an exclude rule matches it with the text of the path, where every
part stands for at least one name. They agree on the patterns whose parts are names and whose two
asterisks stand at the ends only.
-/

namespace CustomElements

section Taking

variable {d : Path} {P t : Text} {ts ns : List Text}

/-- The parts match a text, or a directory above it. -/
def MatchesAbove (ts : List Text) (t : Text) : Prop :=
  Pattern.matchesItems (Pattern.itemsOf ts) t ∨
    Pattern.matchesItems (Pattern.itemsOf (ts ++ [("*" : Text)])) t

theorem Pattern.ReadsByParts.matchesAbove_iff {p : Text} (h : Pattern.ReadsByParts p) :
    (Pattern.accepts p t || Pattern.accepts (p ++ "/*") t) = true ↔
      MatchesAbove (Text.splitOn '/' p) t := by
  rw [Bool.or_eq_true, h.accepts_iff, h.accepts_below_iff]
  rfl

/-- An exclude rule takes out what its parts match; two asterisks at the front may be left out. -/
theorem takesOut_iff (hread : Pattern.ReadsByParts (dropSlashes P)) (hne : ns ≠ []) :
    (FileRule.mk d P).takesOut ⟨d.anchor, d.parts ++ ns⟩ ↔
      MatchesAbove (patternParts P) (Text.join "/" ns) ∨
        ∃ us, patternParts P = ("**" : Text) :: us ∧ us ≠ [] ∧
          MatchesAbove us (Text.join "/" ns) := by
  have hrelative : (Path.mk d.anchor (d.parts ++ ns)).relativeTo? d = some ⟨.here, ns⟩ := by
    rw [Path.relativeTo?, if_pos (by simp), List.drop_left]
  have htext : (Path.mk .here ns).text = Text.join "/" ns := by
    rw [Path.text, if_neg (by simp [hne])]
    rfl
  rw [FileRule.takesOut, hrelative]
  dsimp only
  rw [htext]
  by_cases hs : Text.startsWith (dropSlashes P) "**/"
  · obtain ⟨us, hus, husne⟩ := Pattern.startsWith_anyDepth_iff.1 hs
    obtain ⟨hdrop, hsplit⟩ := hread.drop hus husne
    rw [if_pos hs, List.any_cons, List.any_cons, List.any_nil, Bool.or_false, Bool.or_eq_true,
      hread.matchesAbove_iff, hdrop.matchesAbove_iff, hsplit]
    refine or_congr_right ⟨fun h => ⟨us, hus, husne, h⟩, ?_⟩
    rintro ⟨vs, hvs, -, h⟩
    obtain ⟨-, rfl⟩ := List.cons.inj (hus.symm.trans hvs)
    exact h
  · rw [if_neg hs, List.any_cons, List.any_nil, Bool.or_false, hread.matchesAbove_iff]
    refine ⟨.inl, fun h => h.resolve_right ?_⟩
    rintro ⟨us, hus, husne, -⟩
    exact hs (Pattern.startsWith_anyDepth_iff.2 ⟨us, hus, husne⟩)

theorem Spans.matchesAbove (h : Spans ts ns) (hne : ts ≠ []) :
    MatchesAbove ts (Text.join "/" ns) := .inl (h.matches_join hne)

theorem length_le_of_matchesAbove (hne : ts ≠ []) (h : MatchesAbove ts t) :
    ts.length ≤ (Text.splitOn '/' t).length := by
  rcases h with h | h
  · exact Pattern.length_le_of_matches hne h
  · have hle := Pattern.length_le_of_matches (List.append_ne_nil_of_left_ne_nil hne _) h
    rw [List.length_append] at hle
    omega

theorem mem_of_matchesAbove (h : MatchesAbove ts t) {p : Text} (hp : p ∈ ts)
    (hw : Pattern.hasWildcard p = false) (hs : .scalar '/' ∉ p) : p ∈ Text.splitOn '/' t := by
  rcases h with h | h
  · exact Pattern.mem_splitOn_of_matches h hp hw hs
  · exact Pattern.mem_splitOn_of_matches h (List.mem_append_left _ hp) hw hs

/-- A pattern with a part that no entry can have as its name takes out nothing. -/
theorem isPlain_of_takesOut (hread : Pattern.ReadsByParts (dropSlashes P)) (hne : ns ≠ [])
    (hns : ∀ n ∈ ns, IsFileName n)
    (h : (FileRule.mk d P).takesOut ⟨d.anchor, d.parts ++ ns⟩) : IsPlain (patternParts P) := by
  intro p hp hbad
  have hsplit : Text.splitOn '/' (Text.join "/" ns) = ns :=
    Text.splitOn_join hne fun n hn => (hns n hn).noSlash
  have hliteral : Pattern.hasWildcard p = false ∧ .scalar '/' ∉ p ∧ p ≠ ("**" : Text) := by
    simp only [List.mem_cons, List.not_mem_nil, or_false] at hbad
    rcases hbad with rfl | rfl | rfl <;> decide
  have hmem : p ∈ ns := by
    rw [← hsplit]
    rcases (takesOut_iff hread hne).1 h with h | ⟨us, hus, -, h⟩
    · exact mem_of_matchesAbove h hp hliteral.1 hliteral.2.1
    · rw [hus, List.mem_cons] at hp
      exact mem_of_matchesAbove h (hp.resolve_left hliteral.2.2) hliteral.1 hliteral.2.1
  exact (hns p hmem).plain hbad

end Taking

namespace FileTree

/-- The tree with nothing but a file at a row of names. -/
def lone : List Text → FileTree
  | [] => .file ByteArray.empty
  | name :: names => .dir [(name, lone names)]

theorem names_lone (names : List Text) : (lone names).names = names := by
  induction names with
  | nil => rfl
  | cons name names ih => simp [lone, FileTree.names, namesIn, ih]

theorem get?_lone (names more : List Text) :
    (lone (names ++ more)).get? names = some (lone more) := by
  induction names with
  | nil => rfl
  | cons name names ih => simpa [lone, get?, entries] using ih

end FileTree

namespace Workspace.IsProjectDirectory

variable {w : Workspace} {d p q : Path}

/-- A file that a path leads to is at a place with names of files. -/
theorem isPlace (hd : w.IsProjectDirectory d) (h : w.isFile q) :
    (Path.normal w.current q).IsPlace := by
  obtain ⟨e, he, -⟩ := (Option.any_eq_true _ _).1 h
  have hsub := FileTree.subset_names_of_get? (get?_of_entryAt? he)
  exact ⟨rfl, fun n hn => hd.names n (hsub hn)⟩

/-- No file is the directory itself. -/
theorem ne_of_isFile (hd : w.IsProjectDirectory d) (h : w.isFile q) :
    Path.normal w.current q ≠ d := by
  intro heq
  obtain ⟨e, he, hfile⟩ := (Option.any_eq_true _ _).1 h
  obtain ⟨e', he', hdir⟩ := (Option.any_eq_true _ _).1 hd.dir
  have hq := get?_of_entryAt? he
  have hd' := get?_of_entryAt? he'
  rw [heq] at hq
  rw [hd.normal.normal_eq, hq] at hd'
  obtain rfl := Option.some.inj hd'
  rw [hdir] at hfile
  cases hfile

end Workspace.IsProjectDirectory

section Agreeing

variable {w : Workspace} {d p : Path} {P : Text} {ps : List Path}

theorem exists_below {p d : Path} {relative : Path} (h : p.relativeTo? d = some relative) :
    ∃ ns, p = ⟨d.anchor, d.parts ++ ns⟩ := by
  obtain ⟨hanchor, ns, hparts, -⟩ := Path.relativeTo?_eq_some.1 h
  obtain ⟨anchor, parts⟩ := p
  exact ⟨ns, congrArg₂ Path.mk hanchor hparts⟩

/-- An exclude rule that takes out what an include rule finds has plain parts. -/
theorem isPlain_of_takesOut_expand (hd : w.IsProjectDirectory d)
    (hread : Pattern.ReadsByParts (dropSlashes P)) {r : FileRule}
    (hps : r.expand w = .ok ps) (hp : p ∈ ps) (h : (FileRule.mk d P).takesOut p) :
    IsPlain (patternParts P) := by
  obtain ⟨q, rfl, ⟨hfile, -⟩, -⟩ := FileRule.mem_expand hps hp
  have hplace := hd.isPlace hfile
  have hne := hd.ne_of_isFile hfile
  cases hrel : (Path.normal w.current q).relativeTo? d with
  | none =>
    rw [FileRule.takesOut, hrel] at h
    cases h
  | some relative =>
    obtain ⟨ns, hns⟩ := exists_below hrel
    rw [hns] at h hplace hne
    refine isPlain_of_takesOut hread ?_ (fun n hn => hplace.names n (List.mem_append_right _ hn)) h
    rintro rfl
    exact hne (by rw [List.append_nil])

theorem includedText_of_trimmed (ht : P.strip = P) :
    (FileRule.mk d P).includedText = dropSlashes P := by
  rw [FileRule.includedText, ht]

/-- What a search with plain parts finds lies straight below the directory, and its names are those
that the parts stand for. -/
theorem names_of_found {q : Path} {found : List Path} (hd : w.IsProjectDirectory d)
    (ht : P.strip = P) (hplain : IsPlain (patternParts P))
    (hfound : w.glob d (FileRule.mk d P).searched = .ok found) (hq : q ∈ found) :
    ∃ below ns parts, Path.partsOf (FileRule.mk d P).searched = patternParts P ++ below ∧
      (Pattern.hasWildcard (dropSlashes P) = false ∧ below = [("**" : Text), ("*" : Text)] ∨
        Pattern.hasWildcard (dropSlashes P) ∧
          (below = [] ∧ (patternParts P).getLast? ≠ some ("**" : Text) ∨
            below = [("*" : Text)] ∧ (patternParts P).getLast? = some ("**" : Text))) ∧
      (patternParts P ++ below).mapM Workspace.SearchPart.ofText = .ok parts ∧
      StandsFor (patternParts P ++ below) ns ∧ q = ⟨d.anchor, d.parts ++ ns⟩ ∧
      Path.normal w.current q = q := by
  obtain ⟨ha, parts, hparts, hall⟩ := Workspace.glob_eq_ok.1 hfound
  obtain ⟨below, hbelow, hshape⟩ := partsOf_searched (r := ⟨d, P⟩)
    (by rw [includedText_of_trimmed ht]; exact hplain) hparts
  rw [includedText_of_trimmed ht] at hbelow hshape
  obtain ⟨ns, rfl, hs, hnames⟩ := Workspace.mem_search hparts ((Workspace.mem_found hall).1 hq).2
  rw [hbelow] at hparts hs hnames
  refine ⟨below, ns, parts, hbelow, hshape, hparts, hs, rfl, Path.IsNormal.normal_eq ?_ _⟩
  refine ⟨hd.normal.fromRoot, fun hdots => ?_⟩
  rcases List.mem_append.1 hdots with hdots | hdots
  · exact hd.normal.noDots hdots
  · rcases hnames _ hdots with hname | hpart
    · exact (hd.names _ hname).noDots rfl
    · rcases List.mem_append.1 hpart with hpart | hpart
      · exact hplain _ hpart (by simp)
      · rcases hshape with ⟨-, rfl⟩ | ⟨-, ⟨rfl, -⟩ | ⟨rfl, -⟩⟩ <;> revert hpart <;> decide

theorem hasWildcard_of_mem_parts {p : Text} (hp : p ∈ patternParts P)
    (h : Pattern.hasWildcard p) : Pattern.hasWildcard (dropSlashes P) := by
  obtain ⟨c, hc, hwild⟩ := List.any_eq_true.1 h
  have hflat : c ∈ (patternParts P).flatten := List.mem_flatten.2 ⟨p, hp, hc⟩
  rw [patternParts, Text.flatten_splitOn] at hflat
  exact List.any_eq_true.2 ⟨c, (List.mem_filter.1 hflat).1, hwild⟩

/-- Without two asterisks between other parts, a plain pattern takes out what it finds. -/
theorem takesOut_of_expand (hd : w.IsProjectDirectory d) (ht : P.strip = P)
    (hread : Pattern.ReadsByParts (dropSlashes P)) (hplain : IsPlain (patternParts P))
    (hinner : ("**" : Text) ∉ (patternParts P).tail.dropLast)
    (hps : (FileRule.mk d P).expand w = .ok ps) (hp : p ∈ ps) :
    (FileRule.mk d P).takesOut p := by
  have hne : patternParts P ≠ [] := Text.splitOn_ne_nil _ _
  -- a row of names that is spanned by the parts is taken out
  have hspanned : ∀ {ns : List Text}, Spans (patternParts P) ns ∨
      (∃ us, patternParts P = ("**" : Text) :: us ∧ us ≠ [] ∧ Spans us ns) →
      (FileRule.mk d P).takesOut ⟨d.anchor, d.parts ++ ns⟩ := by
    rintro ns (hs | ⟨us, hus, husne, hs⟩)
    · exact (takesOut_iff hread (hs.ne_nil hne)).2 (.inl (hs.matchesAbove hne))
    · exact (takesOut_iff hread (hs.ne_nil husne)).2
        (.inr ⟨us, hus, husne, hs.matchesAbove husne⟩)
  obtain ⟨q, rfl, ⟨hfile, -⟩, ⟨hw, rfl⟩ | ⟨-, found, hfound, hq⟩⟩ := FileRule.mem_expand hps hp
  · rw [includedText_of_trimmed ht] at hw ⊢
    have hjoin : d.join (Path.ofText (dropSlashes P)) = ⟨d.anchor, d.parts ++ patternParts P⟩ := by
      rw [ofText_of_isPlain hplain]
      rfl
    have hnormal : (Path.mk d.anchor (d.parts ++ patternParts P)).IsNormal := by
      refine ⟨hd.normal.fromRoot, fun hdots => ?_⟩
      rcases List.mem_append.1 hdots with hdots | hdots
      · exact hd.normal.noDots hdots
      · exact hplain _ hdots (by simp)
    rw [hjoin, hnormal.normal_eq]
    refine hspanned (.inl (Spans.self fun t ht => Bool.eq_false_iff.2 fun hwild => ?_))
    exact Bool.eq_false_iff.1 hw (hasWildcard_of_mem_parts ht hwild)
  · obtain ⟨below, ns, parts, -, hshape, -, hs, rfl, hnormal⟩ :=
      names_of_found hd ht hplain hfound hq
    rw [hnormal]
    rcases hshape with ⟨hw, rfl⟩ | ⟨-, hb⟩
    · -- the pattern names a directory, and the file is somewhere below
      obtain ⟨ms, rs, rfl, hm, hr⟩ := hs.of_append
      have hdepth : ("**" : Text) ∉ patternParts P := fun hmem =>
        Bool.eq_false_iff.1 hw (hasWildcard_of_mem_parts hmem (by decide))
      have hrs := hr.ne_nil (by simp) (by decide)
      have hspans := (Spans.of_standsFor hm hdepth).append (Spans.asterisks hrs (.inr rfl))
      refine (takesOut_iff hread (List.append_ne_nil_of_right_ne_nil ms hrs)).2 (.inl (.inr ?_))
      exact hspans.matches_join (List.append_ne_nil_of_left_ne_nil hne _)
    · exact hspanned (spans_of_searched hinner hb hs)

/-- The parts of a pattern hold two asterisks once more than at its ends. -/
theorem count_of_inner {ts : List Text} (h : ("**" : Text) ∈ ts.tail.dropLast) :
    ∃ t mid l, ts = t :: (mid ++ [l]) ∧ 0 < mid.count ("**" : Text) := by
  cases ts with
  | nil => cases h
  | cons t ts =>
    rw [List.tail_cons] at h
    obtain ⟨mid, l, rfl⟩ := ts.eq_nil_or_concat'.resolve_left fun hnil => by
      rw [hnil] at h
      cases h
    rw [List.dropLast_concat] at h
    exact ⟨t, mid, l, rfl, List.count_pos_iff.2 h⟩

/-- With two asterisks between other parts, a pattern does not take out a path that has a name for
each other part only. -/
theorem not_takesOut_of_length {below ms : List Text}
    (hread : Pattern.ReadsByParts (dropSlashes P))
    (hinner : ("**" : Text) ∈ (patternParts P).tail.dropLast)
    (hb : below = [] ∨ below = [("*" : Text)] ∧ (patternParts P).getLast? = some ("**" : Text))
    (hms : ms ≠ []) (hnames : ∀ n ∈ ms, IsFileName n)
    (hlength : ms.length + (patternParts P ++ below).count ("**" : Text) =
      (patternParts P ++ below).length) :
    ¬(FileRule.mk d P).takesOut ⟨d.anchor, d.parts ++ ms⟩ := by
  intro h
  have hsplit : Text.splitOn '/' (Text.join "/" ms) = ms :=
    Text.splitOn_join hms fun n hn => (hnames n hn).noSlash
  obtain ⟨t, mid, l, hts, hmid⟩ := count_of_inner hinner
  have hbelow : below.count ("**" : Text) = 0 ∧
      (below.length = 0 ∨ below.length = 1 ∧ l = ("**" : Text)) := by
    rcases hb with rfl | ⟨rfl, hlast⟩
    · exact ⟨rfl, .inl rfl⟩
    · rw [hts, ← List.cons_append, List.getLast?_concat] at hlast
      exact ⟨by decide, .inr ⟨rfl, Option.some.inj hlast⟩⟩
  rw [List.count_append, hbelow.1, List.length_append, hts, List.count_cons, List.count_append,
    List.count_singleton, List.length_cons, List.length_append, List.length_singleton] at hlength
  rcases (takesOut_iff hread hms).1 h with h | ⟨us, hus, husne, h⟩
  · have hle := length_le_of_matchesAbove (by rw [hts]; exact List.cons_ne_nil _ _) h
    rw [hsplit, hts, List.length_cons, List.length_append, List.length_singleton] at hle
    rcases hbelow.2 with hzero | ⟨hone, rfl⟩
    · omega
    · rw [if_pos (by simp)] at hlength
      omega
  · have hle := length_le_of_matchesAbove husne h
    obtain ⟨rfl, rfl⟩ := List.cons.inj (hus.symm.trans hts)
    rw [hsplit, List.length_append, List.length_singleton] at hle
    rw [if_pos (beq_self_eq_true ("**" : Text))] at hlength
    rcases hbelow.2 with hzero | ⟨hone, rfl⟩
    · omega
    · rw [if_pos (beq_self_eq_true _)] at hlength
      omega

/-- A file whose names the parts of a search stand for is found where nothing else is. -/
theorem expand_lone {ms : List Text} {parts : List Workspace.SearchPart} (w : Workspace)
    (hplace : (Path.mk d.anchor (d.parts ++ ms)).IsPlace) (hms : ms ≠ [])
    (hne : (FileRule.mk d P).includedText ≠ [])
    (hw : Pattern.hasWildcard (FileRule.mk d P).includedText)
    (ha : (Path.ofText (FileRule.mk d P).searched).isAbsolute = false)
    (hmap : (Path.partsOf (FileRule.mk d P).searched).mapM Workspace.SearchPart.ofText = .ok parts)
    (hlast : (Path.partsOf (FileRule.mk d P).searched).getLast? ≠ some ("**" : Text))
    (hs : StandsFor (Path.partsOf (FileRule.mk d P).searched) ms)
    (hsource : isSourceName (Path.mk d.anchor (d.parts ++ ms)).name)
    (hmodules : ("node_modules" : Text) ∉ d.parts ++ ms) :
    ∃ w' ps', Workspace.IsProjectDirectory w' d ∧ (FileRule.mk d P).expand w' = .ok ps' ∧
      ⟨d.anchor, d.parts ++ ms⟩ ∈ ps' := by
  obtain ⟨w', hw'⟩ : ∃ w' : Workspace, w'.files = .lone (d.parts ++ ms) :=
    ⟨{ w with files := .lone (d.parts ++ ms) }, rfl⟩
  have hd : d.IsPlace := ⟨hplace.fromRoot, fun n hn => hplace.names n (List.mem_append_left _ hn)⟩
  have hget : w'.files.get? (d.parts ++ ms) = some (.file ByteArray.empty) := by
    have hall := FileTree.get?_lone (d.parts ++ ms) []
    rwa [List.append_nil, ← hw'] at hall
  have hdir : w'.isDir d := by
    obtain ⟨n, ns, rfl⟩ := List.exists_cons_of_ne_nil hms
    rw [Workspace.isDir, Workspace.entryAt?_of_isPlace hd, hw', FileTree.get?_lone]
    rfl
  have hfile : w'.isFile ⟨d.anchor, d.parts ++ ms⟩ := by
    rw [Workspace.isFile, Workspace.entryAt?_of_isPlace hplace, hget]
    rfl
  have hfound : ⟨d.anchor, d.parts ++ ms⟩ ∈ w'.search d parts :=
    Workspace.search_of_standsFor hmap hlast hs hplace hget
  have hglob := (@Workspace.glob_eq_ok w' d _ _).2 ⟨ha, parts, hmap, rfl⟩
  obtain ⟨ps', hps', hall⟩ := FileRule.exists_expand hne hw hglob
  have hp' := hall _ ((Workspace.mem_found rfl).2 ⟨hdir, hfound⟩)
    (FileRule.admits_iff.2 ⟨hfile, hsource, hmodules⟩)
  rw [hplace.isNormal.normal_eq] at hp'
  refine ⟨w', ps', ⟨fun n hn => ?_, hd.isNormal, hdir⟩, hps', hp'⟩
  rw [hw', FileTree.names_lone] at hn
  exact hplace.names n hn

/-- With two asterisks between other parts, a plain pattern leaves a file if it finds one at all. It
leaves one that is found when all of them stand for no directory. -/
theorem exists_kept (hd : w.IsProjectDirectory d) (ht : P.strip = P)
    (hread : Pattern.ReadsByParts (dropSlashes P)) (hplain : IsPlain (patternParts P))
    (hinner : ("**" : Text) ∈ (patternParts P).tail.dropLast)
    (hps : (FileRule.mk d P).expand w = .ok ps) (hp : p ∈ ps) :
    ∃ w' ps' p', w'.IsProjectDirectory d ∧ (FileRule.mk d P).expand w' = .ok ps' ∧ p' ∈ ps' ∧
      ¬(FileRule.mk d P).takesOut p' := by
  have hwild : Pattern.hasWildcard (dropSlashes P) := hasWildcard_of_mem_parts
    (List.mem_of_mem_tail (List.mem_of_mem_dropLast hinner)) (by decide)
  have htext := includedText_of_trimmed (d := d) ht
  obtain ⟨q, rfl, ⟨hfile, -⟩, ⟨hw, -⟩ | ⟨hadmits, found, hfound, hq⟩⟩ :=
    FileRule.mem_expand hps hp
  · rw [htext, hwild] at hw
    cases hw
  obtain ⟨below, ns, parts, hparts, hshape, hmap, hs, rfl, hnormal⟩ :=
    names_of_found hd ht hplain hfound hq
  have hplace := hd.isPlace hfile
  rw [hnormal] at hplace
  have hb := (hshape.resolve_left fun h => by rw [hwild] at h; cases h.1).2
  have hlast : (patternParts P ++ below).getLast? ≠ some ("**" : Text) := by
    rcases hb with ⟨rfl, hlast⟩ | ⟨rfl, -⟩
    · rwa [List.append_nil]
    · rw [List.getLast?_concat]
      decide
  have hts : patternParts P ++ below ≠ [] :=
    List.append_ne_nil_of_left_ne_nil (Text.splitOn_ne_nil _ _) _
  obtain ⟨ms, hms, hsub, hlength, hsame⟩ := hs.collapse
  have hmsne := hms.ne_nil hts hlast
  have hnames : ∀ n ∈ ms, IsFileName n := fun n hn =>
    hplace.names n (List.mem_append_right _ (hsub hn))
  have hplace' : (Path.mk d.anchor (d.parts ++ ms)).IsPlace :=
    ⟨hplace.fromRoot, fun n hn => (List.mem_append.1 hn).elim
      (fun hn => hplace.names n (List.mem_append_left _ hn)) (hnames n)⟩
  obtain ⟨-, hsource, hmodules⟩ := FileRule.admits_iff.1 hadmits
  have hname : (Path.mk d.anchor (d.parts ++ ms)).name =
      (Path.mk d.anchor (d.parts ++ ns)).name := by
    rw [Path.name, Path.name, List.getLast?_append_of_ne_nil _ hmsne,
      List.getLast?_append_of_ne_nil _ (hs.ne_nil hts hlast), hsame hlast]
  rw [← hname] at hsource
  rw [← hparts] at hmap hlast hms
  have hne : (FileRule.mk d P).includedText ≠ [] := by
    rw [htext]
    intro hnil
    rw [hnil] at hwild
    cases hwild
  obtain ⟨w', ps', hd', hps', hp'⟩ := expand_lone w hplace' hmsne hne (htext ▸ hwild)
    (Workspace.glob_eq_ok.1 hfound).1 hmap hlast hms hsource fun hm => hmodules <| by
      rcases List.mem_append.1 hm with hm | hm
      · exact List.mem_append_left _ hm
      · exact List.mem_append_right _ (hsub hm)
  exact ⟨w', ps', _, hd', hps', hp', not_takesOut_of_length hread hinner (hb.imp And.left id) hmsne
    hnames hlength⟩

end Agreeing

/-- Project files that exclude the pattern they include select nothing just if the pattern finds
nothing anyway, or if it is plain and has two asterisks at its ends only. The pattern is one without
blanks around it and without a bracket that reaches over a slash. -/
theorem selectsNothing_same_iff {P : Text} (ht : P.strip = P)
    (hread : Pattern.ReadsByParts (dropSlashes P)) :
    SelectsNothing [P] [P] ↔ SelectsNothing [P] [] ∨
      IsPlain (patternParts P) ∧ ("**" : Text) ∉ (patternParts P).tail.dropLast := by
  simp only [selectsNothing_iff, List.mem_singleton, exists_eq_left, List.not_mem_nil, false_and,
    exists_false]
  constructor
  · intro h
    by_contra hboth
    obtain ⟨hfinds, hshape⟩ := not_or.1 hboth
    push Not at hfinds
    obtain ⟨w, d, ps, hd, hps, p, hp, -⟩ := hfinds
    have hplain := isPlain_of_takesOut_expand hd hread hps hp (h w d ps hd hps p hp)
    have hinner : ("**" : Text) ∈ (patternParts P).tail.dropLast := by
      by_contra hinner
      exact hshape ⟨hplain, hinner⟩
    obtain ⟨w', ps', p', hd', hps', hp', hkept⟩ := exists_kept hd ht hread hplain hinner hps hp
    exact hkept (h w' d ps' hd' hps' p' hp')
  · rintro (hnone | ⟨hplain, hinner⟩) w d ps hd hps p hp
    · exact (hnone w d ps hd hps p hp).elim
    · exact takesOut_of_expand hd ht hread hplain hinner hps hp

/-- The file `src/a.ts` is found by `src/**/*.ts` with no directory between. -/
theorem finds_without_directory : ¬SelectsNothing ["src/**/*.ts"] [] := by
  have hname : ∀ n ∈ [("ws" : Text), "src", "a.ts"], IsFileName n := by
    intro n hn
    simp only [List.mem_cons, List.not_mem_nil, or_false] at hn
    rcases hn with rfl | rfl | rfl <;> exact ⟨by decide, by decide, by decide, by decide, rfl⟩
  have hplace : (Path.mk (Path.ofText "/ws").anchor
      ((Path.ofText "/ws").parts ++ [("src" : Text), "a.ts"])).IsPlace := ⟨by decide, hname⟩
  have hmap : (Path.partsOf (FileRule.mk "/ws" "src/**/*.ts").searched).mapM
      Workspace.SearchPart.ofText =
        .ok [.named "src", .anyDepth, .matching (Pattern.items "*.ts")] := rfl
  obtain ⟨w, ps, hd, hps, hp⟩ := expand_lone (d := "/ws") (P := "src/**/*.ts")
    Workspace.bare hplace (by decide) (by decide) (by decide) (by decide) hmap (by decide)
    (.name (by decide) (by decide) (.anyDepth [] (.name (by decide) (by decide) .none)))
    (by decide) (by decide)
  rw [selectsNothing_iff]
  intro h
  obtain ⟨e, he, -⟩ := h w _ ps hd hps _ hp
  cases he

theorem selectsNothing_same_iff_asterisks : SelectsNothing ["src/*.ts"] ["src/*.ts"] ∧
    ¬SelectsNothing ["src/**/*.ts"] ["src/**/*.ts"] := by
  refine ⟨(selectsNothing_same_iff (by decide) (by decide)).2 (.inr (by decide)), fun h => ?_⟩
  rcases (selectsNothing_same_iff (by decide) (by decide)).1 h with h | h
  · exact finds_without_directory h
  · revert h
    decide

end CustomElements
