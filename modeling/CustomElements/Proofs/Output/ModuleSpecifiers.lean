import CustomElements.Proofs.Files.PathText
import CustomElements.Proofs.Output.SpecifierParts

/-!
# What module specifiers lead to

A module specifier is the way to a file without the ending of its name. From the directory that it
was made for it leads back to the file, but for that ending, so only files that differ in nothing
else have the same specifier.
-/

namespace CustomElements

open Path (normal normalParts)

/-- Both paths start at the root, and the file is neither the directory nor above it. Two slashes at
the front of a path are the root as well. -/
structure IsSeenFrom (current : Path) (directory file : Text) : Prop where
  directoryAbsolute : (Path.ofText directory).isAbsolute
  fileAbsolute : (Path.ofText file).isAbsolute
  notAbove : (normal current (.ofText directory)).isBelow (normal current (.ofText file)) = false

/-- What stands behind the stem in a specifier: a dot and the extension, whose own dots at its front
do not count. -/
def addedEnding : Option Text → Text
  | some e => if e.isEmpty then [] else "." ++ e.dropWhile fun p => decide (p = .scalar '.')
  | none => []

/-- A specifier is made to start with a dot. -/
def dotted (t : Text) : Text := if Text.startsWith t "." then t else "./" ++ t

section Paths

variable {current : Path} {t : Text}

theorem normal_of_isAbsolute {p : Path} (h : p.isAbsolute) :
    normal current p = ⟨.root, normalParts p.parts⟩ := by
  rw [normal, Path.join, if_pos h]

theorem normalParts_append (names more : List Text) :
    normalParts (names ++ more) = more.foldl Path.pushPart (normalParts names) :=
  List.foldl_append

theorem startsWith_dot_iff : Text.startsWith t "." ↔ t.head? = some (.scalar '.') := by
  rw [Text.startsWith, List.isPrefixOf_iff_prefix]
  constructor
  · rintro ⟨r, rfl⟩
    rfl
  · intro h
    obtain ⟨r, rfl⟩ := List.head?_eq_some_iff.1 h
    exact ⟨r, rfl⟩

/-- A text that does not start with a slash is seen from another path. -/
theorem not_isAbsolute_ofText (h : t.head? ≠ some (.scalar '/')) :
    (Path.ofText t).isAbsolute = false := by
  have hslashes : t.takeWhile (fun c => decide (c = .scalar '/')) = [] := by
    cases t with
    | nil => rfl
    | cons c t =>
      have hc : c ≠ .scalar '/' := fun heq => h (congrArg some heq)
      exact List.takeWhile_cons_of_neg (by simpa using hc)
  rw [Path.ofText, hslashes]
  rfl

/-- The names of a normal path are names that a text can hold, and no two dots. -/
theorem names_normal (current : Path) (h : (Path.ofText t).isAbsolute) :
    ∀ n ∈ (normal current (.ofText t)).parts, IsPathName n ∧ n ≠ ("..": Text) := by
  intro n hn
  have hdots := Path.not_mem_normalParts (Path.ofText t).parts
  rw [normal_of_isAbsolute h] at hn
  refine ⟨Path.isWritten_ofText t n (Path.normalParts_subset _ hn), ?_⟩
  rintro rfl
  exact hdots hn

theorem partsOf_folders {names : List Text} (h : ∀ n ∈ names, IsPathName n) (stem : Text) :
    Path.partsOf (folders names ++ stem) = names ++ Path.partsOf stem := by
  induction names with
  | nil => rfl
  | cons n names ih =>
    rw [List.forall_mem_cons] at h
    have hn : Path.partsOf n = [n] := Path.partsOf_join (List.forall_mem_singleton.2 h.1)
    rw [folders_cons, Path.partsOf_append, hn, ih h.2, List.singleton_append, List.cons_append]

end Paths

section Specifiers

variable {current : Path} {directory file other : Text} {D init : List Text} {name : Text}

/-- A file that is seen from a directory has a name, and that is not on the way to the directory. -/
theorem IsSeenFrom.exists_name (h : IsSeenFrom current directory file) : ∃ init name,
    (normal current (.ofText file)).parts = init ++ [name] ∧
      ¬init ++ [name] <+: (normal current (.ofText directory)).parts := by
  have hnot : ¬(normal current (.ofText file)).parts <+:
      (normal current (.ofText directory)).parts := by
    intro hp
    have habove : (normal current (.ofText directory)).isBelow (normal current (.ofText file)) := by
      rw [Path.isBelow, Path.relativeTo?, if_pos]
      · rfl
      · rw [Bool.and_eq_true, decide_eq_true_eq, List.isPrefixOf_iff_prefix]
        exact ⟨rfl, hp⟩
    rw [h.notAbove] at habove
    cases habove
  have hne : (normal current (.ofText file)).parts ≠ [] := by
    intro hnil
    rw [hnil] at hnot
    exact hnot List.nil_prefix
  obtain ⟨init, name, hparts⟩ := (List.eq_nil_or_concat' _).resolve_left hne
  exact ⟨init, name, hparts, hparts ▸ hnot⟩

/-- The names on the way are those of files and two dots. -/
theorem isPathName_of_mem_relativeParts (h : ∀ n ∈ init, IsPathName n) {n : Text}
    (hn : n ∈ relativeParts D init) : IsPathName n := by
  rcases mem_relativeParts hn with rfl | hn
  · exact ⟨by decide, by decide, by decide⟩
  · exact h n hn

/-- The way to a file without its ending. -/
def wayStem (D init : List Text) (name : Text) : Text :=
  folders (relativeParts D init) ++ dropEnding name

theorem textSpecifier_eq (h : IsSeenFrom current directory file)
    (hparts : (normal current (.ofText file)).parts = init ++ [name])
    (hnot : ¬init ++ [name] <+: (normal current (.ofText directory)).parts)
    (extension : Option Text) : textSpecifier current file directory extension =
      .ok (dotted (wayStem (normal current (.ofText directory)).parts init name ++
        addedEnding extension)) := by
  have hfile : file.isEmpty = false := by
    cases file with
    | nil => cases h.fileAbsolute
    | cons c file => rfl
  have hne : (relativeParts (normal current (.ofText directory)).parts init ++ [name]).isEmpty =
      false := by simp
  simp only [textSpecifier, hfile, Bool.false_eq_true, if_false, moduleSpecifier, hparts,
    relativeParts_concat hnot, hne, join_concat, dropEnding_folders]
  rw [← dotted, ← wayStem]
  cases extension with
  | none => rw [addedEnding, List.append_nil]
  | some e =>
    dsimp only [addedEnding]
    split
    · rw [List.append_nil]
    · rw [List.append_assoc _ ("." : Text)]

/-- The pieces of a stem are the names on the way, and what is left of the last name. -/
theorem splitOn_wayStem (h : ∀ n ∈ init, IsPathName n) (hname : .scalar '/' ∉ name) :
    Text.splitOn '/' (wayStem D init name) = relativeParts D init ++ [dropEnding name] :=
  splitOn_folders (fun _ hn => (isPathName_of_mem_relativeParts h hn).noSlash)
    (noSlash_dropEnding hname)

/-- What stands before a slash in a stem is a name. -/
theorem isPathName_of_wayStem (h : ∀ n ∈ init, IsPathName n) (hname : .scalar '/' ∉ name)
    {front t : Text} (hfront : .scalar '/' ∉ front)
    (heq : wayStem D init name = front ++ .scalar '/' :: t) : IsPathName front := by
  have hsplit := splitOn_wayStem (D := D) h hname
  rw [heq, Text.splitOn_append hfront] at hsplit
  cases hnames : relativeParts D init with
  | nil =>
    rw [hnames, List.nil_append] at hsplit
    exact absurd (List.cons.inj hsplit).2 (Text.splitOn_ne_nil _ _)
  | cons n names =>
    rw [hnames] at hsplit
    rw [(List.cons.inj hsplit).1]
    exact isPathName_of_mem_relativeParts h (hnames ▸ List.mem_cons_self)

theorem dotted_eq (t : Text) : ∃ front, dotted t = front ++ t ∧
    (front = [] ∧ t.head? = some (.scalar '.') ∨
      front = ("./" : Text) ∧ t.head? ≠ some (.scalar '.')) := by
  unfold dotted
  split
  · next h => exact ⟨[], rfl, .inl ⟨rfl, startsWith_dot_iff.1 h⟩⟩
  · next h => exact ⟨_, rfl, .inr ⟨rfl, fun hhead => h (startsWith_dot_iff.2 hhead)⟩⟩

/-- From the directory a stem leads to where the file is, and from there on as its name does. -/
theorem normal_join_wayStem (hd : (Path.ofText directory).isAbsolute)
    (hD : (normal current (.ofText directory)).parts = D)
    (hinit : ∀ n ∈ init, IsPathName n ∧ n ≠ ("..": Text)) (hname : .scalar '/' ∉ name)
    {front : Text} (hfront : front = [] ∨ front = ("./" : Text)) :
    normal current ((Path.ofText directory).join (.ofText (front ++ wayStem D init name))) =
      ⟨.root, (Path.partsOf (dropEnding name)).foldl Path.pushPart init⟩ := by
  have hpath : ∀ n ∈ init, IsPathName n := fun n hn => (hinit n hn).1
  have hdots : ("..": Text) ∉ init := fun hm => (hinit _ hm).2 rfl
  have hrelative : (Path.ofText (front ++ wayStem D init name)).isAbsolute = false := by
    refine not_isAbsolute_ofText ?_
    rcases hfront with rfl | rfl
    · intro hslash
      obtain ⟨t, ht⟩ := List.head?_eq_some_iff.1 hslash
      exact (isPathName_of_wayStem hpath hname List.not_mem_nil ht).nonempty rfl
    · exact fun h => absurd (Option.some.inj h) (by decide)
  have hparts : Path.partsOf (front ++ wayStem D init name) =
      relativeParts D init ++ Path.partsOf (dropEnding name) := by
    have hstem := partsOf_folders
      (fun _ hn => isPathName_of_mem_relativeParts (D := D) hpath hn) (dropEnding name)
    rcases hfront with rfl | rfl
    · exact hstem
    · exact (Path.partsOf_append "." (wayStem D init name)).trans hstem
  have hjoin : (Path.ofText directory).join (.ofText (front ++ wayStem D init name)) =
      ⟨(Path.ofText directory).anchor, (Path.ofText directory).parts ++
        (relativeParts D init ++ Path.partsOf (dropEnding name))⟩ := by
    rw [Path.join, if_neg (by rw [hrelative]; decide), ← hparts]
    rfl
  have hnormal (names : List Text) : normal current ⟨(Path.ofText directory).anchor, names⟩ =
      ⟨.root, normalParts names⟩ := normal_of_isAbsolute hd
  have hdirectory : normalParts (Path.ofText directory).parts = D := by
    rw [← hD, normal_of_isAbsolute hd]
  rw [hjoin, hnormal, normalParts_append, List.foldl_append, hdirectory,
    foldl_relativeParts D hdots]

theorem dropEnding_text {p : Path} (hroot : p.anchor = .root) (hparts : p.parts = init ++ [name]) :
    dropEnding p.text = .scalar '/' :: (folders init ++ dropEnding name) := by
  rw [Path.text_of_fromRoot hroot, hparts, join_concat, ← List.nil_append (_ :: _),
    dropEnding_slash, dropEnding_folders, List.nil_append]

/-- The text of a file without its ending leads there as well. -/
theorem normal_dropEnding {p : Path} (hroot : p.anchor = .root) (hparts : p.parts = init ++ [name])
    (hinit : ∀ n ∈ init, IsPathName n ∧ n ≠ ("..": Text)) :
    normal current (.ofText (dropEnding p.text)) =
      ⟨.root, (Path.partsOf (dropEnding name)).foldl Path.pushPart init⟩ := by
  have hdots : ("..": Text) ∉ init := fun hm => (hinit _ hm).2 rfl
  have hnames : Path.partsOf (.scalar '/' :: (folders init ++ dropEnding name)) =
      init ++ Path.partsOf (dropEnding name) := by
    rw [← List.nil_append (_ :: _), Path.partsOf_append,
      partsOf_folders fun n hn => (hinit n hn).1]
    rfl
  rw [dropEnding_text hroot hparts, normal_of_isAbsolute (Path.ofText_isAbsolute _)]
  dsimp only [Path.ofText]
  rw [hnames, normalParts_append, Path.normalParts_eq hdots]

/-- The stem of a specifier tells where the file is, and its name without the ending. -/
theorem wayStem_injective {init' : List Text} {name' : Text}
    (hinit : ∀ n ∈ init, IsPathName n ∧ n ≠ ("..": Text)) (hname : .scalar '/' ∉ name)
    (hinit' : ∀ n ∈ init', IsPathName n ∧ n ≠ ("..": Text)) (hname' : .scalar '/' ∉ name')
    (h : wayStem D init name = wayStem D init' name') :
    init = init' ∧ dropEnding name = dropEnding name' := by
  have hsplit := splitOn_wayStem (D := D) (fun n hn => (hinit n hn).1) hname
  rw [h, splitOn_wayStem (fun n hn => (hinit' n hn).1) hname'] at hsplit
  obtain ⟨hway, hstem⟩ := List.append_inj' hsplit rfl
  have hdots : ("..": Text) ∉ init := fun hm => (hinit _ hm).2 rfl
  have hdots' : ("..": Text) ∉ init' := fun hm => (hinit' _ hm).2 rfl
  exact ⟨relativeParts_injective hdots hdots' hway.symm, (List.cons.inj hstem).1.symm⟩

/-- What makes a specifier start with a dot does not make two of them the same. -/
theorem dotted_wayStem_injective {init' : List Text} {name' added : Text}
    (hinit : ∀ n ∈ init, IsPathName n ∧ n ≠ ("..": Text)) (hname : .scalar '/' ∉ name)
    (hinit' : ∀ n ∈ init', IsPathName n ∧ n ≠ ("..": Text)) (hname' : .scalar '/' ∉ name')
    (h : dotted (wayStem D init name ++ added) = dotted (wayStem D init' name' ++ added)) :
    wayStem D init name = wayStem D init' name' := by
  obtain ⟨front, heq, hfront⟩ := dotted_eq (wayStem D init name ++ added)
  obtain ⟨front', heq', hfront'⟩ := dotted_eq (wayStem D init' name' ++ added)
  rw [heq, heq', ← List.append_assoc, ← List.append_assoc] at h
  have hdot : .scalar '/' ∉ ("." : Text) := by decide
  have hstems := List.append_cancel_right h
  rcases hfront with ⟨rfl, -⟩ | ⟨rfl, -⟩ <;> rcases hfront' with ⟨rfl, -⟩ | ⟨rfl, -⟩
  · exact hstems
  · have hfirst := isPathName_of_wayStem (fun n hn => (hinit n hn).1) hname hdot hstems
    exact absurd rfl hfirst.noDot
  · have hfirst := isPathName_of_wayStem (fun n hn => (hinit' n hn).1) hname' hdot hstems.symm
    exact absurd rfl hfirst.noDot
  · exact List.append_cancel_left hstems

/-- The last name on the way to a file and the names before it. -/
theorem IsSeenFrom.names (h : IsSeenFrom current directory file)
    (hparts : (normal current (.ofText file)).parts = init ++ [name]) :
    (∀ n ∈ init, IsPathName n ∧ n ≠ ("..": Text)) ∧ IsPathName name ∧ name ≠ ("..": Text) := by
  have hnames := names_normal current h.fileAbsolute
  rw [hparts, List.forall_mem_append, List.forall_mem_singleton] at hnames
  exact hnames

/-- Which files have the same specifier: those in one directory whose names have the same stem. -/
theorem textSpecifier_eq_iff (h : IsSeenFrom current directory file)
    (h' : IsSeenFrom current directory other) (extension : Option Text) :
    textSpecifier current file directory extension =
        textSpecifier current other directory extension ↔
      dropEnding (normal current (.ofText file)).text =
        dropEnding (normal current (.ofText other)).text := by
  obtain ⟨init, name, hparts, hnot⟩ := h.exists_name
  obtain ⟨init', name', hparts', hnot'⟩ := h'.exists_name
  obtain ⟨hinit, hname, -⟩ := h.names hparts
  obtain ⟨hinit', hname', -⟩ := h'.names hparts'
  rw [textSpecifier_eq h hparts hnot, textSpecifier_eq h' hparts' hnot', Except.ok.injEq,
    dropEnding_text rfl hparts, dropEnding_text rfl hparts']
  constructor
  · intro heq
    have hstem := dotted_wayStem_injective hinit hname.noSlash hinit' hname'.noSlash heq
    obtain ⟨rfl, hname⟩ := wayStem_injective hinit hname.noSlash hinit' hname'.noSlash hstem
    rw [hname]
  · intro heq
    have hsplit := congrArg (Text.splitOn '/') (List.cons.inj heq).2
    rw [splitOn_folders (fun n hn => (hinit n hn).1.noSlash) (noSlash_dropEnding hname.noSlash),
      splitOn_folders (fun n hn => (hinit' n hn).1.noSlash) (noSlash_dropEnding hname'.noSlash)]
      at hsplit
    obtain ⟨rfl, hstem⟩ := List.append_inj' hsplit rfl
    rw [wayStem, wayStem, (List.cons.inj hstem).1]

end Specifiers

/-- A module specifier of a file, without the ending that is added to it, leads from its directory
to the file without its own ending. So two files have the same specifier exactly if nothing but
their endings tells them apart. -/
theorem specifier_leads_back {current : Path} {directory file other : Text}
    (h : IsSeenFrom current directory file) (h' : IsSeenFrom current directory other)
    (extension : Option Text) :
    (∃ specifier stem,
      textSpecifier current file directory extension =
        .ok (specifier ++ addedEnding extension) ∧
      HasStem (normal current (.ofText file)).text stem ∧
      normal current ((Path.ofText directory).join (.ofText specifier)) =
        normal current (.ofText stem)) ∧
    (textSpecifier current file directory extension =
        textSpecifier current other directory extension ↔
      ∃ stem, HasStem (normal current (.ofText file)).text stem ∧
        HasStem (normal current (.ofText other)).text stem) := by
  constructor
  · obtain ⟨init, name, hparts, hnot⟩ := h.exists_name
    obtain ⟨hinit, hname, -⟩ := h.names hparts
    obtain ⟨front, hdotted, hfront⟩ := dotted_eq (wayStem (normal current (.ofText directory)).parts
      init name ++ addedEnding extension)
    refine ⟨front ++ wayStem (normal current (.ofText directory)).parts init name, _, ?_,
      hasStem_dropEnding _, ?_⟩
    · rw [textSpecifier_eq h hparts hnot, hdotted, List.append_assoc]
    · rw [normal_join_wayStem h.directoryAbsolute rfl hinit hname.noSlash
        (hfront.imp And.left And.left), normal_dropEnding rfl hparts hinit]
  · rw [textSpecifier_eq_iff h h' extension]
    simp only [hasStem_iff]
    exact ⟨fun heq => ⟨_, rfl, heq.symm⟩, fun ⟨_, hstem, hstem'⟩ => hstem.trans hstem'.symm⟩

/-- Two files of one name, in a directory whose name has a dot and which one of them names twice. -/
theorem specifier_leads_back_dottedFolder :
    IsSeenFrom "/ws" "/ws/dist/gen" "/ws/src/v1.2/../v1.2/card.component.ts" ∧
    IsSeenFrom "/ws" "/ws/dist/gen" "/ws/src/v1.2/card.component.tsx" ∧
    (∃ specifier stem,
      textSpecifier "/ws" "/ws/src/v1.2/../v1.2/card.component.ts" "/ws/dist/gen" (some ".js") =
        .ok (specifier ++ addedEnding (some ".js")) ∧
      HasStem (normal "/ws" (.ofText "/ws/src/v1.2/../v1.2/card.component.ts")).text stem ∧
      normal "/ws" ((Path.ofText "/ws/dist/gen").join (.ofText specifier)) =
        normal "/ws" (.ofText stem)) ∧
    textSpecifier "/ws" "/ws/src/v1.2/../v1.2/card.component.ts" "/ws/dist/gen" (some ".js") =
      textSpecifier "/ws" "/ws/src/v1.2/card.component.tsx" "/ws/dist/gen" (some ".js") := by
  have h : IsSeenFrom "/ws" "/ws/dist/gen" "/ws/src/v1.2/../v1.2/card.component.ts" :=
    ⟨by decide, by decide, by decide⟩
  have h' : IsSeenFrom "/ws" "/ws/dist/gen" "/ws/src/v1.2/card.component.tsx" :=
    ⟨by decide, by decide, by decide⟩
  obtain ⟨hback, hsame⟩ := specifier_leads_back h h' (some ".js")
  refine ⟨h, h', hback, hsame.2 ⟨"/ws/src/v1.2/card.component", ?_, ?_⟩⟩
  · exact hasStem_iff.2 (by decide)
  · exact hasStem_iff.2 (by decide)

end CustomElements
