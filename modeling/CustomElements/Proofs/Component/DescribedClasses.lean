import CustomElements.Proofs.Component.Placement

/-!
# Classes with metadata

The classes whose metadata is completed are found by their places. They are the classes at the top
level of the file whose first component decorator is called with an object literal
(`describedClasses_eq`), and the way from the root of the tree down to the literal goes through
a class, a decorator, a call and its arguments (`exists_path`).
-/

namespace CustomElements

open TypeScript (Node Kind)

/-- The object literal that the first component decorator of a class is called with. -/
def ClassDeclaration.metadata? (c : ClassDeclaration) : Option Node :=
  (c.decorator? componentDecorator).bind fun d =>
    d.arguments.head?.filter fun a => decide (a.kind = .object)

/-- A decorator has the arguments of the call that it applies, if it applies one. -/
theorem Decorator.arguments_of_ofNode? {n : Node} {d : Decorator} (h : ofNode? n = some d) :
    ∃ applied, n.parts.head? = some applied ∧
      d.arguments = if applied.kind = .call then applied.callArguments else [] := by
  simp only [ofNode?, Option.bind_eq_bind, Option.bind_eq_some_iff] at h
  obtain ⟨applied, ha, _, _, hd⟩ := h
  cases hd
  exact ⟨applied, ha, rfl⟩

namespace PlacedNode

theorem map_node_filter (x : Option PlacedNode) (f : Node → Bool) :
    (x.filter fun c => f c.node).map node = (x.map node).filter f := by
  cases x with
  | none => rfl
  | some c => by_cases h : f c.node <;> simp [Option.filter_some, h]

theorem map_node_firstObject? (p : PlacedNode) : p.firstObject?.map node =
    p.node.callArguments.head?.filter fun a => decide (a.kind = .object) := by
  have ha := map_node_child? p .arguments
  unfold firstObject? Node.callArguments
  cases hc : p.child? .arguments with
  | none =>
    rw [hc] at ha
    rw [← ha]
    rfl
  | some a =>
    rw [hc] at ha
    rw [← ha]
    change (a.parts.head?.filter fun b => decide (b.node.kind = .object)).map node = _
    rw [map_node_filter _ fun b => decide (b.kind = .object), map_node_head?_parts]
    rfl

/-- The literal that a decorator is called with is its first argument. -/
theorem map_node_literal {p : PlacedNode} {d : Decorator} (h : Decorator.ofNode? p.node = some d) :
    (p.call?.bind firstObject?).map node =
      d.arguments.head?.filter fun a => decide (a.kind = .object) := by
  obtain ⟨applied, ha, hd⟩ := Decorator.arguments_of_ofNode? h
  have hp := map_node_head?_parts p
  rw [ha] at hp
  obtain ⟨c, hc, rfl⟩ := Option.map_eq_some_iff.1 hp
  rw [call?, hc, hd]
  by_cases hk : c.node.kind = .call
  · rw [if_pos hk, ← map_node_firstObject?, Option.filter_some_pos (by simpa using hk)]
    rfl
  · rw [if_neg hk, Option.filter_some_neg (by simpa using hk)]
    rfl

/-- The decorators of a statement are those of the class that it declares. -/
theorem map_node_decorators {p : PlacedNode} {c : ClassDeclaration}
    (h : ClassDeclaration.ofStatement? p.node = some c) :
    p.decorators.map node = c.decoratorNodes := by
  have hown (q : PlacedNode) :
      (q.children.filter fun c => decide (c.node.kind = .decorator)).map node =
        q.node.childrenOf .decorator := by
    rw [Node.childrenOf, ← map_node_children, List.filter_map]
    rfl
  unfold ClassDeclaration.ofStatement? at h
  split at h
  next hk =>
    cases h
    rw [decorators, hk]
    exact hown p
  next hk =>
    have hc := map_node_child? p .classDeclaration
    cases hcd : p.node.child? .classDeclaration with
    | none =>
      rw [hcd] at h
      cases h
    | some e =>
      rw [hcd] at h hc
      cases h
      obtain ⟨q, hq, rfl⟩ := Option.map_eq_some_iff.1 hc
      rw [decorators, hk]
      dsimp only
      rw [hq, List.map_append, hown]
      exact congrArg _ (hown q)
  next => cases h

end PlacedNode

/-- The class of a statement is described if it has metadata. -/
theorem DescribedClass.ofStatement?_eq (s : PlacedNode) :
    (ofStatement? s).map (fun c => (c.declaration, c.metadata.node)) =
      (ClassDeclaration.ofStatement? s.node).bind fun k => k.metadata?.map (k, ·) := by
  cases hk : ClassDeclaration.ofStatement? s.node with
  | none => simp [ofStatement?, hk]
  | some k =>
    have hfind : (s.decorators.find? fun d => isComponent d.node).map PlacedNode.node =
        k.decoratorNodes.find? isComponent := by
      rw [← PlacedNode.map_node_decorators hk]
      exact PlacedNode.map_node_find? ..
    have hdec : k.decorator? componentDecorator =
        (k.decoratorNodes.find? isComponent).bind Decorator.ofNode? := List.find?_filterMap ..
    cases hd : s.decorators.find? fun d => isComponent d.node with
    | none =>
      rw [hd] at hfind
      simp [ofStatement?, hk, hd, ClassDeclaration.metadata?, hdec, ← hfind]
    | some p =>
      have hc := List.find?_some hd
      rw [hd] at hfind
      cases hpd : Decorator.ofNode? p.node with
      | none =>
        rw [isComponent, hpd] at hc
        cases hc
      | some d =>
        have hl := PlacedNode.map_node_literal hpd
        have hkd : k.decorator? componentDecorator = some d := by
          rw [hdec, ← hfind, Option.map_some, Option.bind_some, hpd]
        rw [Option.bind_some, ClassDeclaration.metadata?, hkd, Option.bind_some, ← hl,
          Option.map_map, ofStatement?, hk, hd]
        cases hcall : p.call? with
        | none => simp [hcall]
        | some call => cases ho : call.firstObject? <;> simp [hcall, ho]

/-- The described classes are the classes of the file that have metadata. -/
theorem describedClasses_eq (tree : Node) :
    (describedClasses tree).map (fun c => (c.declaration, c.metadata.node)) =
      (classesOf tree).filterMap fun k => k.metadata?.map (k, ·) := by
  rw [describedClasses, List.map_filterMap, classesOf, List.filterMap_filterMap,
    ← (show (PlacedNode.mk 0 tree).node = tree from rfl), ← PlacedNode.map_node_children,
    List.filterMap_map]
  exact congrArg (List.filterMap · _) (funext DescribedClass.ofStatement?_eq)

namespace PlacedNode

theorem mem_of_child? {p c : PlacedNode} {k : Kind} (h : p.child? k = some c) :
    c ∈ p.children ∧ c.node.kind = k :=
  ⟨List.mem_of_find?_eq_some h, by simpa using List.find?_some h⟩

theorem mem_of_head?_parts {p c : PlacedNode} (h : p.parts.head? = some c) : c ∈ p.children :=
  (List.mem_filter.1 (List.mem_of_head? h)).1

/-- A decorator of a statement is a child of it or of the class that it exports. -/
theorem exists_path_of_mem_decorators {s d : PlacedNode} (h : d ∈ s.decorators) :
    d.node.kind = .decorator ∧ (s.node.kind = .classDeclaration ∧ d ∈ s.children ∨
      s.node.kind = .exportStatement ∧ (d ∈ s.children ∨
        ∃ k ∈ s.children, k.node.kind = .classDeclaration ∧ d ∈ k.children)) := by
  unfold decorators at h
  split at h
  next hk =>
    rw [List.mem_filter, decide_eq_true_eq] at h
    exact ⟨h.2, .inl ⟨hk, h.1⟩⟩
  next hk =>
    rcases List.mem_append.1 h with h | h
    · rw [List.mem_filter, decide_eq_true_eq] at h
      exact ⟨h.2, .inr ⟨hk, .inl h.1⟩⟩
    · cases hc : s.child? .classDeclaration with
      | none => simp [hc] at h
      | some k =>
        rw [hc, Option.map_some, Option.getD_some, List.mem_filter, decide_eq_true_eq] at h
        have hkm := mem_of_child? hc
        exact ⟨h.2, .inr ⟨hk, .inr ⟨k, hkm.1, hkm.2, h.1⟩⟩⟩
  next => cases h

end PlacedNode

/-- The kinds of the nodes between the root of a tree and the metadata of a class. -/
def metadataKinds : List Kind :=
  [.source, .exportStatement, .classDeclaration, .decorator, .call, .arguments, .object]

/-- The way from a statement to the metadata of its class. -/
theorem DescribedClass.exists_path {s : PlacedNode} {c : DescribedClass}
    (h : ofStatement? s = some c) :
    ∃ ks, s.Path c.metadata ks ∧ ∀ k ∈ ks, k ∈ metadataKinds := by
  unfold ofStatement? at h
  simp only [Option.bind_eq_bind, Option.bind_eq_some_iff] at h
  obtain ⟨k, hk, d, hd, call, hcall, o, ho, hc⟩ := h
  cases hc
  rw [PlacedNode.call?, Option.filter_eq_some_iff, decide_eq_true_eq] at hcall
  simp only [PlacedNode.firstObject?, Option.bind_eq_bind, Option.bind_eq_some_iff,
    Option.filter_eq_some_iff, decide_eq_true_eq] at ho
  obtain ⟨a, ha, hoa, hok⟩ := ho
  have ham := PlacedNode.mem_of_child? ha
  have hpath : d.Path o [d.node.kind, call.node.kind, a.node.kind, o.node.kind] :=
    .step (PlacedNode.mem_of_head?_parts hcall.1) (.step ham.1
      (.step (PlacedNode.mem_of_head?_parts hoa) (.here o)))
  obtain ⟨hdk, hs⟩ := PlacedNode.exists_path_of_mem_decorators (List.mem_of_find?_eq_some hd)
  rw [hdk, hcall.2, ham.2, hok] at hpath
  rcases hs with ⟨hsk, hds⟩ | ⟨hsk, hds | ⟨e, he, hek, hde⟩⟩
  · refine ⟨_, .step hds hpath, ?_⟩
    rw [hsk]
    decide
  · refine ⟨_, .step hds hpath, ?_⟩
    rw [hsk]
    decide
  · refine ⟨_, .step he (.step hde hpath), ?_⟩
    rw [hsk, hek]
    decide

end CustomElements
