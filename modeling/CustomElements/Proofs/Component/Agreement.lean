import Mathlib.Data.List.Pairwise
import CustomElements.Proofs.Component.EntryReferences
import CustomElements.Proofs.Component.LoadedFiles
import CustomElements.Proofs.TypeScript.Names

/-!
# Discovery and resolution

The reference that discovery writes for a class resolves to that class, from the files that are
loaded already, exactly if the text of the path holds no number sign and does not end with blanks,
and the name neither starts nor ends with them. The path leads back to its file because it is the
path of a loaded file, and the name to its class if the file has no other class of that name.
-/

namespace CustomElements

open CustomElements.Action

section Keys

variable {α β : Type} [DecidableEq β] {key : α → β} {k : β} {xs : List α} {x : α}

theorem of_find?_key (h : xs.find? (fun y => decide (key y = k)) = some x) : x ∈ xs ∧ key x = k :=
  ⟨List.mem_of_find?_eq_some h, by simpa using List.find?_some h⟩

/-- In a list without another element of the same key, an element is found by its key. -/
theorem find?_key (hx : x ∈ xs) (hk : key x = k) (hother : ∀ y ∈ xs, key y = k → y = x) :
    xs.find? (fun y => decide (key y = k)) = some x := by
  have hsome : (xs.find? fun y => decide (key y = k)).isSome :=
    List.find?_isSome.2 ⟨x, hx, decide_eq_true hk⟩
  obtain ⟨y, hy⟩ := Option.isSome_iff_exists.1 hsome
  obtain ⟨hmem, hkey⟩ := of_find?_key hy
  rw [hy, hother y hmem hkey]

end Keys

/-- A file whose classes have different names, as far as they have names. -/
def SourceFile.HasDistinctNames (f : SourceFile) : Prop :=
  (f.classes.filterMap ClassDeclaration.name).Nodup

theorem SourceFile.HasDistinctNames.eq {f : SourceFile} (h : f.HasDistinctNames)
    {c d : ClassDeclaration} (hc : c ∈ f.classes) (hd : d ∈ f.classes) {name : Text}
    (hcname : c.name = some name) (hdname : d.name = some name) : d = c := by
  by_contra hne
  rw [HasDistinctNames, List.Nodup, List.pairwise_filterMap] at h
  have hsymm : Std.Symm fun a b : ClassDeclaration =>
      ∀ n, a.name = some n → ∀ m, b.name = some m → n ≠ m :=
    ⟨fun _ _ hab n hn m hm => (hab m hm n hn).symm⟩
  exact h.forall hd hc hne name hdname name hcname rfl

theorem Project.mem_classes {project : Project} {c : LocatedClass} :
    c ∈ project.classes ↔ c.file ∈ project.files ∧ c.declaration ∈ c.file.classes := by
  rw [classes, List.mem_flatMap]
  constructor
  · rintro ⟨f, hf, hm⟩
    obtain ⟨d, hd, rfl⟩ := List.mem_map.1 hm
    exact ⟨hf, hd⟩
  · rintro ⟨hf, hd⟩
    exact ⟨c.file, hf, List.mem_map.2 ⟨c.declaration, hd, rfl⟩⟩

/-- The node of a class that a statement declares or exports is the statement or a child of it. -/
theorem ClassDeclaration.everywhere_node {P : TypeScript.Node → Prop} {n : TypeScript.Node}
    (hn : n.Everywhere P) {c : ClassDeclaration} (h : ofStatement? n = some c) :
    c.node.Everywhere P := by
  unfold ofStatement? at h
  split at h
  · obtain rfl := Option.some.inj h
    exact hn
  · obtain ⟨exported, hchild, hc⟩ := Option.bind_eq_some_iff.1 h
    obtain rfl := Option.some.inj hc
    exact hn.child (of_find?_key hchild).1
  · cases h

/-- The name of a class of a loaded file is not empty and holds no number sign. -/
theorem SourceFile.IsLoaded.className {f : SourceFile} (hf : f.IsLoaded) {c : ClassDeclaration}
    (hc : c ∈ f.classes) {name : Text} (hname : c.name = some name) :
    name ≠ [] ∧ .scalar '#' ∉ name := by
  obtain ⟨source, hparsed⟩ := hf.parsed
  obtain ⟨statement, hstatement, hof⟩ := List.mem_filterMap.1 hc
  have hnode := ClassDeclaration.everywhere_node
    ((TypeScript.identifier_of_parse? hparsed).child hstatement) hof
  obtain ⟨identifier, hfound, rfl⟩ := Option.map_eq_some_iff.1 hname
  obtain ⟨hchild, hkind⟩ := of_find?_key hfound
  have htext := (hnode.child hchild).here hkind
  refine ⟨fun h => htext.1 (List.map_eq_nil_iff.1 h), fun hm => htext.2 ?_⟩
  obtain ⟨ch, hch, heq⟩ := List.mem_map.1 hm
  exact CodePoint.scalar.inj heq ▸ hch

namespace Project

variable {w : Workspace} {f : SourceFile}

/-- The home directory plays no part for an absolute path. -/
theorem expandHome_of_isAbsolute {p : Path} (h : p.isAbsolute) : w.expandHome p = .ok p := by
  unfold Workspace.expandHome
  split
  · next heq _ =>
    rw [Path.isAbsolute, heq] at h
    cases h
  · next heq _ =>
    rw [Path.isAbsolute, heq] at h
    cases h
  · rfl

/-- An absolute path is taken as it is, without two dots. -/
theorem resolveFrom_of_isAbsolute {base p : Path} (h : p.isAbsolute) :
    w.resolveFrom base p = w.resolve p := by
  rw [Workspace.resolveFrom, expandHome_of_isAbsolute h]
  exact congrArg w.resolve (if_pos h)

/-- The text of a loaded path leads back to the file, which is taken as it is loaded. -/
theorem require_text (hw : w.IsSound) (hf : f ∈ w.project.files) :
    (require (.ofText f.path.text)).outcome w = (.ok f, w) := by
  have hplace := (hw.project.loaded f hf).place
  have habsolute : f.path.isAbsolute := by
    rw [Path.isAbsolute, hplace.fromRoot]
    rfl
  have hresolve : w.resolveFrom w.project.root f.path = .ok f.path := by
    rw [resolveFrom_of_isAbsolute habsolute, Workspace.resolve_eq_ok,
      Path.join_of_fromRoot hplace.fromRoot, hplace.isNormal.normal_eq]
    exact ⟨fun n hn => (hplace.names n hn).accepted, rfl⟩
  have hfile : w.project.file? f.path = some f :=
    find?_key hf rfl fun g hg hpath => List.inj_on_of_nodup_map hw.project.distinct hg hf hpath
  rw [Path.ofText_text hplace.isWritten, require_outcome, hresolve]
  dsimp only
  rw [hfile]

/-- What a path leads to is a file at that path. -/
theorem path_of_require (hw : w.IsSound) {p : Path} {w' : Workspace}
    (h : (require p).outcome w = (.ok f, w')) : ∃ q, w.resolveFrom w.project.root p = .ok q ∧
      f.path = q := by
  rw [require_outcome] at h
  split at h
  · cases h
  · next q hq =>
    refine ⟨q, hq, ?_⟩
    split at h
    · next hfile =>
      obtain ⟨hok, _⟩ := Prod.mk.inj h
      obtain rfl := Except.ok.inj hok
      exact (of_find?_key hfile).2
    · split at h
      · cases h
      · next hsource =>
        obtain ⟨hok, _⟩ := Prod.mk.inj h
        obtain rfl := Except.ok.inj hok
        exact (Workspace.source_isLoaded hw (resolveFrom_isNormal hq) hsource).1

/-- Without the blanks at its end, the text of a loaded path leads elsewhere. -/
theorem require_stripRight_ne (hw : w.IsSound) (hf : f ∈ w.project.files)
    (hblank : f.path.text.stripRight ≠ f.path.text) (w' : Workspace) :
    (require (.ofText f.path.text.stripRight)).outcome w ≠ (.ok f, w') := by
  intro h
  have hplace := (hw.project.loaded f hf).place
  obtain ⟨q, hq, rfl⟩ := path_of_require hw h
  have habsolute := Path.ofText_stripRight_isAbsolute hplace.fromRoot
  rw [resolveFrom_of_isAbsolute habsolute, Workspace.resolve_eq_ok] at hq
  exact Path.normal_stripRight_ne hplace hblank w.current hq.2.symm

/-- A reference with a file gives the first class of that name in the file. -/
theorem resolve_outcome (className : Text) {t : Text} (ht : t ≠ []) (w : Workspace) :
    (resolve ⟨className, some t⟩).outcome w = match (require (.ofText t)).outcome w with
      | (.error e, w') => (.error e, w')
      | (.ok f, w') =>
        match f.classes.find? fun c => decide (c.name = some className) with
        | some c => (.ok ⟨f, c⟩, w')
        | none => (.error (.mistake (.classNotInFile className f.path)), w') := by
  have hfile : nonempty? (ComponentRef.mk className (some t)).file = some t :=
    nonempty?_eq_some.2 ⟨rfl, ht⟩
  rw [resolve, hfile]
  dsimp only
  rw [outcome_bind]
  rcases (require (.ofText t)).outcome w with ⟨e | f, w'⟩
  · rfl
  · dsimp only
    cases f.classes.find? fun c => decide (c.name = some className) <;> rfl

end Project

namespace LocatedClass

/-- A text that is read as a reference, and resolves to the class with no change. -/
def ResolvesBy (w : Workspace) (t : Text) (c : LocatedClass) : Prop :=
  ∃ ref, ComponentRef.parse t = .ok ref ∧ (Project.resolve ref).outcome w = (.ok c, w)

/-- A class whose path and name are read as they are written. -/
structure IsReferable (c : LocatedClass) : Prop where
  noSign : .scalar '#' ∉ c.file.path.text
  noBlanks : c.file.path.text.stripRight = c.file.path.text
  trimmed : ∀ name, c.declaration.name = some name → name.strip = name

variable {w : Workspace} {c : LocatedClass} {name : Text}

theorem head?_text (hw : w.IsSound) (hc : c ∈ w.project.classes) :
    c.file.path.text.head? = some (.scalar '/') := by
  have hfile := (Project.mem_classes.1 hc).1
  rw [Path.text_of_fromRoot (hw.project.loaded _ hfile).place.fromRoot, List.head?_cons]

/-- Path and name are read as they are written, and lead back to the class. -/
theorem resolvesBy_of_isReferable (hw : w.IsSound) (hc : c ∈ w.project.classes)
    (hnames : c.file.HasDistinctNames) (hname : c.declaration.name = some name)
    (h : c.IsReferable) : c.ResolvesBy w (c.file.path.text ++ .scalar '#' :: name) := by
  obtain ⟨hfile, hclass⟩ := Project.mem_classes.1 hc
  obtain ⟨hne, hsign⟩ := (hw.project.loaded _ hfile).className hclass hname
  have hstrip := h.trimmed name hname
  have hnotBlank : ¬ Text.isBlank name := by
    intro hblank
    rw [Text.strip_of_isBlank hblank] at hstrip
    exact hne hstrip.symm
  refine ⟨⟨name, some c.file.path.text⟩, ?_, ?_⟩
  · rw [ComponentRef.parse_of_not_mem (head?_text hw hc) h.noSign hsign,
      Text.stripRight_of_strip hstrip, if_neg hnotBlank, hstrip, h.noBlanks]
  · have hfound : c.file.classes.find? (fun d => decide (d.name = some name)) =
        some c.declaration :=
      find?_key hclass hname fun d hd hdname => hnames.eq hclass hd hname hdname
    have hne : c.file.path.text ≠ [] := fun hnil => by
      have hhead := head?_text hw hc
      rw [hnil] at hhead
      cases hhead
    rw [Project.resolve_outcome name hne, Project.require_text hw hfile]
    dsimp only
    rw [hfound]

/-- A reference that resolves to the class was read without a change. -/
theorem isReferable_of_resolvesBy (hw : w.IsSound) (hc : c ∈ w.project.classes)
    (hname : c.declaration.name = some name)
    (h : c.ResolvesBy w (c.file.path.text ++ .scalar '#' :: name)) : c.IsReferable := by
  obtain ⟨hfile, hclass⟩ := Project.mem_classes.1 hc
  have hsign := ((hw.project.loaded _ hfile).className hclass hname).2
  obtain ⟨ref, hparse, hresolve⟩ := h
  have hnoSign : .scalar '#' ∉ c.file.path.text := by
    intro hm
    rw [ComponentRef.parse_of_mem hm] at hparse
    cases hparse
  have hne (file : Text) := @ComponentRef.file_ne_nil _ _ hparse file
  rw [ComponentRef.parse_of_not_mem (head?_text hw hc) hnoSign hsign] at hparse
  split at hparse
  · cases hparse
  · obtain rfl := Except.ok.inj hparse
    rw [Project.resolve_outcome _ (hne _ rfl)] at hresolve
    split at hresolve
    · cases hresolve
    · next f w' hrequire =>
      split at hresolve
      · next d hfound =>
        obtain ⟨hanswer, _⟩ := Prod.mk.inj hresolve
        obtain rfl := Except.ok.inj hanswer
        constructor
        · exact hnoSign
        · by_contra hblank
          exact Project.require_stripRight_ne hw hfile hblank w' hrequire
        · intro other hother
          have hread := (of_find?_key hfound).2
          obtain rfl : other = name := Option.some.inj (hother.symm.trans hname)
          exact Text.strip_of_strip_stripRight (Option.some.inj (hread.symm.trans hother))
      · cases hresolve

end LocatedClass

/-- Discovery answers one entry for each marked class of the loaded files, in their order, and
loads nothing. The component of the entry is the path and the name of the class, and it resolves to
that class, again with nothing loaded, exactly if path and name are read as they are written: the
path has no number sign and no blanks at its end, the name no blanks at either end. -/
theorem discovered_resolve_iff {w w' : Workspace} (hw : w.Reached)
    (hnames : ∀ f ∈ w.project.files, f.HasDistinctNames) {rule : DiscoveryRule}
    {entries : List ElementEntry} (h : (Project.discover rule).outcome w = (.ok entries, w')) :
    w'.project = w.project ∧
      List.Forall₂ (fun c e =>
        (∃ name, c.declaration.name = some name ∧
          e.component = c.file.path.text ++ .scalar '#' :: name) ∧
        (c.ResolvesBy w' e.component ↔ c.IsReferable))
        (w.project.classes.filter (·.isMarked rule)) entries := by
  obtain ⟨helements, hreported⟩ := Project.discover_eq_ok h
  have hproject := hreported.project_eq
  have hsound := hreported.isSound hw.isSound
  obtain ⟨es, rfl, hes⟩ := elementsFrom_ok helements
  have hmarked : ∀ c ∈ w.project.classes.filter (·.isMarked rule), c ∈ w'.project.classes :=
    fun c hc => hproject ▸ (List.mem_filter.1 hc).1
  refine ⟨hproject, ((List.forall₂_and_left _ _).2 ⟨hmarked, hes⟩).imp ?_⟩
  rintro c e ⟨hc, he⟩
  obtain ⟨name, hname, hcomponent⟩ := (LocatedClass.component_of_element? he).2
  have hdistinct := hnames _ (hproject ▸ (Project.mem_classes.1 hc).1)
  refine ⟨⟨name, hname, hcomponent⟩, ?_⟩
  rw [hcomponent]
  constructor
  · exact LocatedClass.isReferable_of_resolvesBy hsound hc hname
  · exact LocatedClass.resolvesBy_of_isReferable hsound hc hdistinct hname

/-- A small file with a marked class. -/
def markedFile (tag : Char) : List Char := "@M('".toList ++ tag :: "')class A\x7b\x7d".toList

def markedTree (tag : Char) : TypeScript.Node :=
  (TypeScript.parse? .plain (markedFile tag)).getD (.branch .source [])

theorem markedFile_parsed :
    ['a', 'b'].all fun tag => (TypeScript.parse? .plain (markedFile tag)).isSome := by
  decide +kernel

theorem parse?_markedFile {tag : Char} (h : tag ∈ ['a', 'b']) :
    TypeScript.parse? .plain (markedFile tag) = some (markedTree tag) := by
  obtain ⟨tree, htree⟩ := Option.isSome_iff_exists.1 (List.all_eq_true.1 markedFile_parsed tag h)
  rw [markedTree, htree, Option.getD_some]

def plainFile : SourceFile := ⟨"/ws/a.ts", markedTree 'a'⟩

/-- A file whose path holds a number sign. -/
def signFile : SourceFile := ⟨"/ws/b#.ts", markedTree 'b'⟩

theorem classes_markedFiles : ∀ f ∈ [plainFile, signFile],
    f.classes.map (fun c => (c.name, (c.decorator? "M").isSome)) = [(some ("A" : Text), true)] := by
  decide +kernel

def markedWorkspace : Workspace := { Workspace.bare with
  files := .dir [("ws", .dir [
    ("a.ts", .file (Bytes.ofChars (markedFile 'a'))),
    ("b#.ts", .file (Bytes.ofChars (markedFile 'b')))])] }

def markedProject : Workspace := (markedWorkspace.withSource plainFile).withSource signFile

theorem markedProject_reached : markedProject.Reached := by
  have hnames : ∀ n ∈ markedWorkspace.files.names, IsFileName n := by
    have hlist : markedWorkspace.files.names = [("ws" : Text), ("a.ts" : Text), ("b#.ts" : Text)] :=
      rfl
    rw [hlist]
    simp only [List.forall_mem_cons, List.not_mem_nil, false_implies, implies_true, and_true]
    exact ⟨⟨by decide, by decide, by decide, by decide, rfl⟩,
      ⟨by decide, by decide, by decide, by decide, rfl⟩,
      ⟨by decide, by decide, by decide, by decide, rfl⟩⟩
  have hplain : markedWorkspace.source "/ws/a.ts" = .ok plainFile :=
    Workspace.source_of_parsed rfl rfl (parse?_markedFile (by decide))
  have hsign : (markedWorkspace.withSource plainFile).source "/ws/b#.ts" = .ok signFile :=
    Workspace.source_of_parsed rfl rfl (parse?_markedFile (by decide))
  have hfirst := Workspace.Reached.step (.start hnames rfl) (.require "/ws/a.ts")
  rw [LoadStep.after_require (q := "/ws/a.ts") rfl rfl hplain] at hfirst
  have hsecond := Workspace.Reached.step hfirst (.require "/ws/b#.ts")
  rwa [LoadStep.after_require (q := "/ws/b#.ts") rfl rfl hsign] at hsecond

theorem elements_markedProject : (markedProject.project.elements ⟨"M", false⟩).1 =
      [⟨"a", "/ws/a.ts#A"⟩, ⟨"b", "/ws/b#.ts#A"⟩] ∧
    (markedProject.project.elements ⟨"M", false⟩).2.isNone := by
  decide +kernel

/-- A class of each file is found; that of the file with the number sign cannot be referred to. -/
theorem discovered_resolve_markedProject : ∃ c d w',
    markedProject.project.classes = [c, d] ∧
      (Project.discover ⟨"M", false⟩).outcome markedProject =
        (.ok [⟨"a", "/ws/a.ts#A"⟩, ⟨"b", "/ws/b#.ts#A"⟩], w') ∧
      c.ResolvesBy w' "/ws/a.ts#A" ∧ ¬ d.ResolvesBy w' "/ws/b#.ts#A" := by
  have hone (f : SourceFile) (hf : f ∈ [plainFile, signFile]) :
      ∃ c, f.classes = [c] ∧ c.name = some ("A" : Text) ∧ (c.decorator? "M").isSome := by
    obtain ⟨c, hc, hfacts⟩ := List.map_eq_singleton_iff.1 (classes_markedFiles f hf)
    obtain ⟨hname, hmarker⟩ := Prod.mk.inj hfacts
    exact ⟨c, hc, hname, hmarker⟩
  have hfiles : markedProject.project.files = [plainFile, signFile] := rfl
  have hdistinct : ∀ f ∈ markedProject.project.files, f.HasDistinctNames := by
    intro f hf
    obtain ⟨c, hc, hname, _⟩ := hone f hf
    rw [SourceFile.HasDistinctNames, hc, List.filterMap_cons_some hname]
    exact List.nodup_singleton _
  obtain ⟨c, hc, hcname, hcmarker⟩ := hone plainFile List.mem_cons_self
  obtain ⟨d, hd, hdname, hdmarker⟩ := hone signFile (List.mem_cons_of_mem _ List.mem_cons_self)
  have hclasses : markedProject.project.classes = [⟨plainFile, c⟩, ⟨signFile, d⟩] := by
    rw [Project.classes, hfiles, List.flatMap_cons, List.flatMap_cons, hc, hd]
    rfl
  have hmarked : markedProject.project.classes.filter (·.isMarked ⟨"M", false⟩) =
      [⟨plainFile, c⟩, ⟨signFile, d⟩] := by
    rw [hclasses]
    exact List.filter_eq_self.2
      (List.forall_mem_cons.2 ⟨hcmarker, List.forall_mem_singleton.2 hdmarker⟩)
  obtain ⟨helements, hnone⟩ := elements_markedProject
  have hdiscover := Project.discover_outcome ⟨"M", false⟩ markedProject
  rw [Option.isNone_iff_eq_none.1 hnone, helements] at hdiscover
  dsimp only at hdiscover
  have hagree := (discovered_resolve_iff markedProject_reached hdistinct hdiscover).2
  rw [hmarked] at hagree
  obtain ⟨⟨_, hplain⟩, hrest⟩ := List.forall₂_cons.1 hagree
  obtain ⟨⟨_, hsign⟩, _⟩ := List.forall₂_cons.1 hrest
  have hnoSign : .scalar '#' ∉ plainFile.path.text := by decide
  have hnoBlanks : plainFile.path.text.stripRight = plainFile.path.text := by decide
  have hmem : .scalar '#' ∈ signFile.path.text := by decide
  refine ⟨_, _, _, hclasses, hdiscover, hplain.2 ⟨hnoSign, hnoBlanks, ?_⟩, fun h => ?_⟩
  · intro name hname
    obtain rfl := Option.some.inj (hname.symm.trans hcname)
    decide
  · exact (hsign.1 h).noSign hmem

end CustomElements
