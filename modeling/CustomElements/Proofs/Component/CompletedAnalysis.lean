import CustomElements.Proofs.Component.CompletedText
import CustomElements.Proofs.Component.EntryReferences

/-!
# The analysis of a completed file

Completion adds pairs for metadata lists to object literals. The analysis of a file looks at names,
at the bodies of classes and, in the first arguments of decorators, at texts and at the pairs for
tags. So it finds the same classes, members and elements in a file and in its completion.
-/

namespace CustomElements

open TypeScript (Node Dialect parse?)
open TypeScript.Node

namespace TypeScript.Node

variable {pairs : List Node} {n old new : Node} {key : Text}

/-- The object literal `new` has the members of the object literal `old`, and pairs for metadata
lists behind them. -/
structure Extends (old new : Node) : Prop where
  wasObject : old.kind = .object
  isObject : new.kind = .object
  added : ∃ pairs, new.parts = old.parts ++ pairs ∧
    ∀ m ∈ pairs, ∃ name ∈ metadataLists, m.IsPairOf name

/-- Among pairs for metadata lists there is none with another key. -/
theorem findPair_of_lists (h : ∀ m ∈ pairs, ∃ name ∈ metadataLists, m.IsPairOf name)
    (hkey : key ∉ metadataLists) : findPair key pairs = .ok none := by
  induction pairs with
  | nil => rfl
  | cons m pairs ih =>
    obtain ⟨⟨name, hname, k, v, hkv, hk⟩, hrest⟩ := List.forall_mem_cons.1 h
    have hne : some name ≠ some key := fun heq => hkey (Option.some.inj heq ▸ hname)
    rw [findPair_of_some hkv, hk]
    exact (if_neg hne).trans (ih hrest)

/-- A property with another key is what it was. -/
theorem Extends.property? (h : old.Extends new) (hkey : key ∉ metadataLists) :
    new.property? key = old.property? key := by
  obtain ⟨pairs, hparts, hpairs⟩ := h.added
  rw [Node.property?, if_pos h.isObject, Node.property?, if_pos h.wasObject, hparts,
    findPair_append, findPair_of_lists hpairs hkey]
  cases findPair key old.parts with
  | error e => rfl
  | ok r => cases r <;> rfl

theorem Extends.stringProperty? (h : old.Extends new) (hkey : key ∉ metadataLists) :
    new.stringProperty? key = old.stringProperty? key := by
  rw [Node.stringProperty?, h.property? hkey, Node.stringProperty?]

/-- An object literal is no text. -/
theorem stringValue?_of_object (h : n.kind = .object) : n.stringValue? = .ok none := by
  rw [stringValue?, h]
  rfl

/-- As an argument of a marker, the literal gives the same tag. -/
theorem Extends.tagOfArgument (h : old.Extends new) :
    CustomElements.tagOfArgument new = CustomElements.tagOfArgument old := by
  rw [CustomElements.tagOfArgument, CustomElements.tagOfArgument, stringValue?_of_object h.isObject,
    stringValue?_of_object h.wasObject, h.stringProperty? (by decide),
    h.stringProperty? (by decide)]

theorem Extends.isPart (h : old.Extends new) : new.isPart := by
  rw [Node.isPart, isNamed, h.isObject]
  decide

end TypeScript.Node

/-- The decorators have the same name, and their first arguments give the same tags: they are the
same or one of them extends the other. -/
structure Decorator.Alike (d d' : Decorator) : Prop where
  name : d'.name = d.name
  argument : d'.arguments.head? = d.arguments.head? ∨
    ∃ old new, d.arguments.head? = some old ∧ d'.arguments.head? = some new ∧ old.Extends new

namespace Decorator.Alike

variable {d d' : Decorator}

theorem refl (d : Decorator) : d.Alike d := ⟨rfl, .inl rfl⟩

theorem refl_list (ds : List Decorator) : List.Forall₂ Alike ds ds :=
  List.forall₂_same.2 fun d _ => refl d

end Decorator.Alike

/-- The classes have the same name and the same body, and decorators that give the same tags. -/
structure ClassDeclaration.Alike (c c' : ClassDeclaration) : Prop where
  name : c'.name = c.name
  body : c'.node.child? .classBody = c.node.child? .classBody
  decorators : List.Forall₂ Decorator.Alike c.decorators c'.decorators

namespace ClassDeclaration.Alike

variable {c c' : ClassDeclaration}

theorem refl (c : ClassDeclaration) : c.Alike c := ⟨rfl, rfl, Decorator.Alike.refl_list _⟩

theorem members (h : c.Alike c') : c'.members = c.members := by
  rw [ClassDeclaration.members, fields, h.body, ClassDeclaration.members, fields]

/-- The first decorators of a name are alike, if there are any. -/
theorem decorator? (h : c.Alike c') (name : Text) :
    Option.Rel Decorator.Alike (c.decorator? name) (c'.decorator? name) := by
  have hall := h.decorators
  rw [ClassDeclaration.decorator?, ClassDeclaration.decorator?]
  generalize c.decorators = ds, c'.decorators = ds' at hall
  induction hall with
  | nil => exact .none
  | @cons d d' _ _ hd _ ih =>
    rw [List.find?_cons, List.find?_cons, hd.name]
    cases decide (d.name = name) with
    | true => exact .some hd
    | false => exact ih

theorem selector (h : c.Alike c') : c'.selector = c.selector := by
  have hd := h.decorator? componentDecorator
  rw [ClassDeclaration.selector, ClassDeclaration.selector]
  generalize c.decorator? componentDecorator = x, c'.decorator? componentDecorator = x' at hd
  cases hd with
  | none => rfl
  | some hd =>
    rw [Option.bind_some, Option.bind_some]
    rcases hd.argument with heq | ⟨old, new, hold, hnew, hext⟩
    · rw [heq]
    · rw [hold, hnew]
      dsimp only
      rw [hext.stringProperty? (by decide)]

theorem tag? {d d' : Decorator} (h : c.Alike c') (hd : d.Alike d') (selectorFallback : Bool) :
    c'.tag? d' selectorFallback = c.tag? d selectorFallback := by
  rw [ClassDeclaration.tag?, ClassDeclaration.tag?, h.selector]
  rcases hd.argument with heq | ⟨old, new, hold, hnew, hext⟩
  · rw [heq]
  · rw [hold, hnew]
    dsimp only
    rw [hext.tagOfArgument]

/-- A class that is alike in a file of the same path is the same element. -/
theorem element? (h : c.Alike c') {f f' : SourceFile} (hpath : f'.path = f.path)
    (rule : DiscoveryRule) :
    (LocatedClass.mk f' c').element? rule = (LocatedClass.mk f c).element? rule := by
  have hd := h.decorator? rule.marker
  rw [LocatedClass.element?, LocatedClass.element?, h.name, hpath]
  dsimp only
  generalize c.decorator? rule.marker = x, c'.decorator? rule.marker = x' at hd
  cases hd with
  | none => rfl
  | some hd =>
    dsimp only
    cases c.name with
    | none => rfl
    | some name => rw [h.tag? hd]

end ClassDeclaration.Alike

/-! ### Completed statements -/

/-- The class of a statement whose metadata is extended is alike. -/
theorem ClassDeclaration.alike_withClassMetadata {n o new : Node} {k : ClassDeclaration}
    (h : ofStatement? n = some k) (hm : k.metadata? = some o) (hext : o.Extends new) :
    ∃ k', ofStatement? (withClassMetadata new n) = some k' ∧ k.Alike k' := by
  obtain ⟨k', hk', hnodes, hchildren⟩ := ofStatement?_withClassMetadata h new
  rw [metadata?_eq, Option.bind_eq_some_iff] at hm
  obtain ⟨m, hfind, hm⟩ := hm
  obtain ⟨d, hd, ho⟩ := Option.bind_eq_some_iff.1 hm
  obtain ⟨ho, _⟩ := Option.filter_eq_some_iff.1 ho
  obtain ⟨d', hd', hname, ho'⟩ := ofNode?_withArgument hd ho hext.isPart
  obtain ⟨hm, before, after, hsplit, hbefore⟩ := List.find?_eq_some_iff_append.1 hfind
  refine ⟨k', hk', ?_, hchildren .classBody (by decide), ?_⟩
  · exact congrArg (Option.map sourceText) (hchildren .identifier (by decide))
  · rw [decorators, decorators, hnodes, hsplit, replaceFirst_append (by simpa using hbefore) hm,
      List.filterMap_append, List.filterMap_append, List.filterMap_cons_some hd,
      List.filterMap_cons_some hd']
    exact List.rel_append (Decorator.Alike.refl_list _)
      (.cons ⟨hname, .inr ⟨o, new, ho, ho', hext⟩⟩ (Decorator.Alike.refl_list _))

/-- A statement with pairs for metadata lists added behind the members of the metadata of its class,
or with nothing added. -/
inductive CompletedStatement (n : Node) : Node → Prop where
  | same : CompletedStatement n n
  | extended {k : ClassDeclaration} {o new : Node}
      (declared : ClassDeclaration.ofStatement? n = some k) (metadata : k.metadata? = some o)
      (added : o.Extends new) : CompletedStatement n (withClassMetadata new n)

/-- `tree'` is the tree of a file with pairs for metadata lists added to the metadata of classes. -/
def IsCompletionOf (tree' tree : Node) : Prop :=
  List.Forall₂ CompletedStatement tree.children tree'.children

section Trees

variable {tree tree' : Node}

theorem IsCompletionOf.refl (tree : Node) : IsCompletionOf tree tree :=
  List.forall₂_same.2 fun _ _ => .same

/-- The classes of a completed file are those of the file. -/
theorem IsCompletionOf.classes (h : IsCompletionOf tree' tree) :
    List.Forall₂ ClassDeclaration.Alike (classesOf tree) (classesOf tree') := by
  unfold IsCompletionOf at h
  unfold classesOf
  generalize tree.children = ns, tree'.children = ns' at h
  induction h with
  | nil => exact .nil
  | @cons n n' _ _ hn _ ih =>
    cases hn with
    | same =>
      rw [List.filterMap_cons, List.filterMap_cons]
      cases ClassDeclaration.ofStatement? n with
      | none => exact ih
      | some k => exact .cons (.refl k) ih
    | extended declared metadata added =>
      obtain ⟨k', hk', halike⟩ :=
        ClassDeclaration.alike_withClassMetadata declared metadata added
      rw [List.filterMap_cons_some declared, List.filterMap_cons_some hk']
      exact .cons halike ih

/-- If the search for a comma finds that of each literal, the completed tree is a completion. -/
theorem isCompletionOf_completedTree {dialect : Dialect} {source : List Char}
    (h : parse? dialect source = some tree)
    (hown : ∀ c ∈ incompleteClasses tree, c.metadata.node.FindsOwnComma) :
    IsCompletionOf (completedTree tree) tree := by
  have hstatement : ∀ s ∈ (PlacedNode.mk 0 tree).children,
      CompletedStatement s.node (completedStatement tree.text s) := by
    intro s hs
    rw [completedStatement]
    cases hc : DescribedClass.ofStatement? s with
    | none => exact .same
    | some c =>
      dsimp only
      split
      · exact .same
      · next he =>
        have hd : c ∈ describedClasses tree := List.mem_filterMap.2 ⟨s, hs, hc⟩
        have hi : c ∈ incompleteClasses tree := List.mem_filter.2 ⟨hd, by simpa using he⟩
        have heq := DescribedClass.ofStatement?_eq s
        rw [hc, Option.map_some, eq_comm, Option.bind_eq_some_iff] at heq
        obtain ⟨k, hk, hm⟩ := heq
        obtain ⟨o, ho, hpair⟩ := Option.map_eq_some_iff.1 hm
        cases hpair
        obtain ⟨_, _, hcomp⟩ := completed_reads h hi (hown c hi)
        refine .extended hk ho ⟨metadata_isObject hd, hcomp.isObject, _, hcomp.parts_eq, ?_⟩
        intro m hm
        obtain ⟨name, hname, rfl⟩ := List.mem_map.1 hm
        exact ⟨name, (missing_sublist c).subset hname,
          key_emptyListPair (missing_chars c name hname)⟩
  have hchildren : tree.children = (PlacedNode.mk 0 tree).children.map PlacedNode.node :=
    (PlacedNode.map_node_children ⟨0, tree⟩).symm
  change List.Forall₂ CompletedStatement tree.children
    ((PlacedNode.mk 0 tree).children.map (completedStatement tree.text))
  rw [hchildren, List.forall₂_map_left_iff, List.forall₂_map_right_iff, List.forall₂_same]
  exact hstatement

end Trees

/-! ### Discovery -/

/-- The classes are alike and in files of the same path. -/
def LocatedClass.Alike (c c' : LocatedClass) : Prop :=
  c'.file.path = c.file.path ∧ c.declaration.Alike c'.declaration

/-- Where the classes are the same elements, the same elements are found. -/
theorem elementsFrom_congr {rule : DiscoveryRule} {found : List ElementEntry}
    {cs cs' : List LocatedClass}
    (h : List.Forall₂ (fun c c' => c'.element? rule = c.element? rule) cs cs') :
    elementsFrom rule found cs' = elementsFrom rule found cs := by
  induction h generalizing found with
  | nil => rfl
  | @cons c c' cs cs' helement _ ih =>
    rw [elementsFrom, elementsFrom, helement]
    cases c.element? rule with
    | error f => rfl
    | ok e =>
      cases e with
      | none => exact ih
      | some e =>
        dsimp only
        cases found.find? fun o => decide (o.tag = e.tag) with
        | some owner => rfl
        | none => exact ih

/-- In alike classes, the same elements are found. -/
theorem elementsFrom_alike {rule : DiscoveryRule} {found : List ElementEntry}
    {cs cs' : List LocatedClass} (h : List.Forall₂ LocatedClass.Alike cs cs') :
    elementsFrom rule found cs' = elementsFrom rule found cs :=
  elementsFrom_congr (h.imp fun _ _ hc => hc.2.element? hc.1 rule)

/-- Files with related classes make projects with related classes. -/
theorem Project.classes_related {R : ClassDeclaration → ClassDeclaration → Prop}
    {project project' : Project} (h : List.Forall₂ (fun f f' : SourceFile =>
      f'.path = f.path ∧ List.Forall₂ R f.classes f'.classes) project.files project'.files) :
    List.Forall₂ (fun c c' : LocatedClass =>
      c'.file.path = c.file.path ∧ R c.declaration c'.declaration)
      project.classes project'.classes := by
  unfold classes
  generalize project.files = fs, project'.files = fs' at h
  induction h with
  | nil => exact .nil
  | @cons f f' _ _ hf _ ih =>
    rw [List.flatMap_cons, List.flatMap_cons]
    refine List.rel_append ?_ ih
    rw [List.forall₂_map_left_iff, List.forall₂_map_right_iff]
    exact hf.2.imp fun _ _ hc => ⟨hf.1, hc⟩

/-- With completed files in place of files, a project has the same elements. -/
theorem Project.elements_of_completion {project project' : Project} (rule : DiscoveryRule)
    (h : List.Forall₂ (fun f f' : SourceFile => f'.path = f.path ∧ IsCompletionOf f'.tree f.tree)
      project.files project'.files) :
    project'.elements rule = project.elements rule := by
  exact elementsFrom_alike (classes_related (h.imp fun _ _ hf => ⟨hf.1, hf.2.classes⟩))

/-- Discovery answers and logs the same in projects with the same elements. -/
theorem Project.discover_of_elements {rule : DiscoveryRule} {project project' : Project}
    (h : project'.elements rule = project.elements rule) (w : Workspace) : ∃ answer rs,
      (discover rule).outcome { w with project := project } =
        (answer, ({ w with project := project } : Workspace).report rs) ∧
      (discover rule).outcome { w with project := project' } =
        (answer, ({ w with project := project' } : Workspace).report rs) := by
  refine ⟨_, _, discover_outcome rule { w with project := project }, ?_⟩
  rw [discover_outcome, h]

/--
For every source text that follows the grammar: a completion has an answer if and only if the
metadata of each class can be read. If a parser reads the answer as the tree of the source with
pairs for metadata lists added to the metadata of classes, then it has the same classes in the same
order with the same members; and in any project, with any marker, discovery ends with the same
answer or the same failure, and with the same log. The completed tree is such a tree, and the answer
is its text.
-/
theorem completion_unseen {dialect : Dialect} {source : List Char} {tree : Node}
    (h : parse? dialect source = some tree) (w : Workspace) :
    ((∃ t, completion dialect source w = .ok t) ↔
      ∀ c ∈ describedClasses tree, c.metadata.node.Readable) ∧
    (∀ completed tree', completion dialect source w = .ok (.ofChars completed) →
      parse? dialect completed = some tree' → IsCompletionOf tree' tree →
      List.Forall₂ (fun c c' => c'.name = c.name ∧ c'.members = c.members)
        (classesOf tree) (classesOf tree') ∧
      ∀ path before after root rule (v : Workspace), ∃ answer rs,
        ∀ read ∈ [tree, tree'], ∀ u, u = { v with
            project := ⟨root, before ++ ⟨path, read⟩ :: after⟩ } →
          (Project.discover rule).outcome u = (answer, u.report rs)) ∧
    ∀ t, completion dialect source w = .ok t →
      (∀ c ∈ incompleteClasses tree, c.metadata.node.FindsOwnComma) →
      (completedTree tree).sourceText = t ∧ IsCompletionOf (completedTree tree) tree := by
  refine ⟨completion_ok_iff h w, ?_, ?_⟩
  · intro completed tree' _ _ htree
    refine ⟨htree.classes.imp fun _ _ halike => ⟨halike.name, halike.members⟩, ?_⟩
    intro path before after root rule v
    have hsame (fs : List SourceFile) : List.Forall₂ (fun f f' : SourceFile =>
        f'.path = f.path ∧ IsCompletionOf f'.tree f.tree) fs fs :=
      List.forall₂_same.2 fun f _ => ⟨rfl, .refl f.tree⟩
    have helements : Project.elements ⟨root, before ++ ⟨path, tree'⟩ :: after⟩ rule =
        Project.elements ⟨root, before ++ ⟨path, tree⟩ :: after⟩ rule :=
      Project.elements_of_completion rule
        (List.rel_append (hsame before) (.cons ⟨rfl, htree⟩ (hsame after)))
    obtain ⟨answer, rs, hplain, hcompleted⟩ := Project.discover_of_elements helements v
    refine ⟨answer, rs, ?_⟩
    rw [List.forall_mem_cons, List.forall_mem_singleton]
    exact ⟨fun _ hu => hu ▸ hplain, fun _ hu => hu ▸ hcompleted⟩
  · intro t ht hown
    exact ⟨((completion_closes h w).2 t ht).2 hown |>.1, isCompletionOf_completedTree h hown⟩

theorem completion_unseen_smallFile : ∃ completed tree',
    completion .plain smallFile Workspace.bare = .ok (.ofChars completed) ∧
    parse? .plain completed = some tree' ∧
    List.Forall₂ (fun c c' => c'.name = c.name ∧ c'.members = c.members)
      (classesOf smallTree) (classesOf tree') := by
  have hparse : parse? .plain (completedTree smallTree).text = some (completedTree smallTree) := by
    decide +kernel
  obtain ⟨t, ht⟩ := completion_smallFile
  obtain ⟨_, hunseen, hcompleted⟩ := completion_unseen parse?_smallFile Workspace.bare
  obtain ⟨htext, hcompletion⟩ := hcompleted t ht findsOwnComma_smallTree
  have hanswer : completion .plain smallFile Workspace.bare =
      .ok (.ofChars (completedTree smallTree).text) := by
    rw [ht, ← htext]
    rfl
  exact ⟨_, _, hanswer, hparse, (hunseen _ _ hanswer hparse hcompletion).1⟩

end CustomElements
