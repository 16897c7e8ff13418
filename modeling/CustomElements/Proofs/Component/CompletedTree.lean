import CustomElements.Proofs.Component.Completion

/-!
# The tree of a completed source file

`completedTree` is the tree of a file with the metadata of its classes replaced by their
completed literals. Its text is the completed text (`completedTree_text`), and its classes have the
completed literals as metadata (`metadata_completedTree`).
-/

namespace CustomElements

open TypeScript (Node Kind)
open TypeScript.Node (textOf)

namespace TypeScript.Node

/-- Whether a child carries meaning. -/
def isPart (n : Node) : Bool := n.isNamed && decide (n.kind ≠ .comment)

/-- A row with the first node that satisfies `P` replaced. -/
def replaceFirst (P : Node → Bool) (f : Node → Node) : List Node → List Node
  | [] => []
  | n :: ns => if P n then f n :: ns else n :: replaceFirst P f ns

/-- A node with the first child that satisfies `P` replaced. -/
def update (n : Node) (P : Node → Bool) (f : Node → Node) : Node :=
  .branch n.kind (replaceFirst P f n.children)

variable {P Q : Node → Bool} {f : Node → Node} {ns : List Node} {n d : Node}

@[simp] theorem kind_update (n : Node) (P : Node → Bool) (f : Node → Node) :
    (n.update P f).kind = n.kind := rfl

theorem replaceFirst_append {before after : List Node} (hb : ∀ m ∈ before, P m = false)
    (hn : P n) : replaceFirst P f (before ++ n :: after) = before ++ f n :: after := by
  induction before with
  | nil => simp [replaceFirst, hn]
  | cons m ms ih =>
    have hm := hb m List.mem_cons_self
    rw [List.cons_append, replaceFirst, hm, ih fun k hk => hb k (List.mem_cons_of_mem m hk)]
    rfl

theorem find?_replaceFirst (h : ns.find? P = some n) (hf : P (f n)) :
    (replaceFirst P f ns).find? P = some (f n) := by
  obtain ⟨hn, before, after, rfl, hb⟩ := List.find?_eq_some_iff_append.1 h
  have hb' : ∀ m ∈ before, P m = false := by simpa using hb
  rw [replaceFirst_append hb' hn, List.find?_append, List.find?_eq_none.2 (by simpa using hb'),
    List.find?_cons_of_pos hf]
  rfl

/-- Another first node stays the first of its sort. -/
theorem find?_replaceFirst_of_ne (hf : ∀ m, P m → Q (f m) = Q m) (h : ns.find? Q = some d)
    (hd : P d = false) : (replaceFirst P f ns).find? Q = some d := by
  induction ns with
  | nil => cases h
  | cons m ms ih =>
    by_cases hP : P m
    · by_cases hQ : Q m
      · rw [List.find?_cons_of_pos hQ] at h
        obtain rfl := Option.some.inj h
        rw [hP] at hd
        cases hd
      · rw [List.find?_cons_of_neg hQ] at h
        rw [replaceFirst, if_pos hP, List.find?_cons_of_neg (by rw [hf m hP]; exact hQ), h]
    · rw [replaceFirst, if_neg hP]
      by_cases hQ : Q m
      · rw [List.find?_cons_of_pos hQ] at h ⊢
        exact h
      · rw [List.find?_cons_of_neg hQ] at h ⊢
        exact ih h

/-- Replacing in a row of two parts is replacing in the first one that has such a node. -/
theorem replaceFirst_append_eq (ms ns : List Node) : replaceFirst P f (ms ++ ns) =
    if ms.any P then replaceFirst P f ms ++ ns else ms ++ replaceFirst P f ns := by
  induction ms with
  | nil => rfl
  | cons m ms ih =>
    by_cases hP : P m
    · rw [List.any_cons, hP, List.cons_append, replaceFirst, if_pos hP, replaceFirst, if_pos hP]
      rfl
    · rw [List.any_cons, Bool.eq_false_iff.2 hP, Bool.false_or, List.cons_append, replaceFirst,
        if_neg hP, ih, replaceFirst, if_neg hP]
      split <;> rfl

/-- Among the nodes of a sort, the first one with a further property is replaced. -/
theorem filter_replaceFirst {R : Node → Bool} (hP : ∀ m, P m = (Q m && R m))
    (hf : ∀ m, Q (f m) = Q m) (ns : List Node) :
    (replaceFirst P f ns).filter Q = replaceFirst R f (ns.filter Q) := by
  induction ns with
  | nil => rfl
  | cons m ms ih =>
    cases hQ : Q m with
    | false =>
      rw [replaceFirst, hP, hQ, Bool.false_and, if_neg Bool.false_ne_true,
        List.filter_cons_of_neg (by rw [hQ]; decide), ih,
        List.filter_cons_of_neg (by rw [hQ]; decide)]
    | true =>
      rw [replaceFirst, hP, hQ, Bool.true_and, List.filter_cons_of_pos hQ, replaceFirst]
      split
      · rw [List.filter_cons_of_pos ((hf m).trans hQ)]
      · rw [List.filter_cons_of_pos hQ, ih]

/-- The nodes of another sort stay. -/
theorem filter_replaceFirst_other (h : ∀ m, P m → Q m = false ∧ Q (f m) = false)
    (ns : List Node) : (replaceFirst P f ns).filter Q = ns.filter Q := by
  induction ns with
  | nil => rfl
  | cons m ms ih =>
    by_cases hP : P m
    · rw [replaceFirst, if_pos hP, List.filter_cons_of_neg (by rw [(h m hP).2]; decide),
        List.filter_cons_of_neg (by rw [(h m hP).1]; decide)]
    · rw [replaceFirst, if_neg hP, List.filter_cons, List.filter_cons, ih]

theorem parts_eq_filter (n : Node) : n.parts = n.children.filter isPart := by
  rw [parts, namedChildren, List.filter_filter]
  exact List.filter_congr fun m _ => Bool.and_comm ..

theorem head?_parts (n : Node) : n.parts.head? = n.children.find? isPart := by
  rw [parts_eq_filter, List.head?_filter]

theorem kind_of_child? {k : Kind} (h : n.child? k = some d) : d.kind = k := by
  simpa using List.find?_some h

theorem isPart_of_kind {m : Node} (h : m.kind = d.kind) : m.isPart = d.isPart := by
  unfold isPart isNamed
  rw [h]

/-- Whether a child is a component decorator. -/
def isComponentDecorator (n : Node) : Bool := decide (n.kind = .decorator) && isComponent n

/-- A call with the first argument replaced. -/
def callWith (new call : Node) : Node :=
  call.update (fun c => decide (c.kind = .arguments)) fun arguments =>
    arguments.update isPart fun _ => new

/-- A decorator with the first argument of its call replaced. -/
def withArgument (new decorator : Node) : Node := decorator.update isPart (callWith new)

/-- A node with the first argument of its first component decorator replaced. -/
def withMetadata (new n : Node) : Node := n.update isComponentDecorator (withArgument new)

/-- A statement with the metadata of its class replaced. -/
def withClassMetadata (new n : Node) : Node :=
  if n.kind = .exportStatement ∧ n.children.all fun c => !isComponentDecorator c then
    n.update (fun c => decide (c.kind = .classDeclaration)) (withMetadata new)
  else withMetadata new n

end TypeScript.Node

open TypeScript.Node

variable {new n o : Node}

theorem kind_of_appliedName? {t : Text} (h : appliedName? n = some t) : n.kind ≠ .arguments := by
  intro hk
  rw [appliedName?, hk] at h
  cases h

/-- The call that a decorator applies, as far as a reader of its metadata looks. -/
theorem Decorator.call_of_arguments {d : Decorator} (h : Decorator.ofNode? n = some d)
    (ho : d.arguments.head? = some o) :
    ∃ call callee arguments, n.children.find? isPart = some call ∧ call.kind = .call ∧
      call.children.find? isPart = some callee ∧ appliedName? callee = some d.name ∧
      call.child? .arguments = some arguments ∧ arguments.children.find? isPart = some o := by
  simp only [ofNode?, Option.bind_eq_bind, Option.bind_eq_some_iff] at h
  obtain ⟨call, hcall, name, ⟨callee, hcallee, hname⟩, hd⟩ := h
  cases hd
  by_cases hk : call.kind = .call
  · rw [callee?, if_pos hk, head?_parts] at hcallee
    rw [head?_parts] at hcall
    rw [if_pos hk] at ho
    unfold callArguments at ho
    split at ho
    next arguments ha =>
      rw [head?_parts] at ho
      exact ⟨call, callee, arguments, hcall, hk, hcallee, hname, ha, ho⟩
    next => cases ho
  · rw [if_neg hk] at ho
    cases ho

/-- A decorator with another first argument is read as one. -/
theorem ofNode?_withArgument {d : Decorator} (h : Decorator.ofNode? n = some d)
    (ho : d.arguments.head? = some o) (hnew : new.isPart) :
    ∃ d', Decorator.ofNode? (withArgument new n) = some d' ∧ d'.name = d.name ∧
      d'.arguments.head? = some new := by
  obtain ⟨call, callee, arguments, hcall, hk, hcallee, hname, ha, ho⟩ :=
    Decorator.call_of_arguments h ho
  have hcall' : (withArgument new n).parts.head? = some (callWith new call) := by
    rw [head?_parts]
    have hp : call.isPart := List.find?_some hcall
    exact find?_replaceFirst hcall ((isPart_of_kind rfl).trans hp)
  have hk' : (callWith new call).kind = .call := hk
  have hcallee' : (callWith new call).parts.head? = some callee := by
    rw [head?_parts]
    refine find?_replaceFirst_of_ne (fun m _ => isPart_of_kind rfl) hcallee ?_
    exact decide_eq_false (kind_of_appliedName? hname)
  have ha' : (callWith new call).child? .arguments =
      some (arguments.update isPart fun _ => new) := by
    have hak : arguments.kind = .arguments := kind_of_child? ha
    exact find?_replaceFirst ha (decide_eq_true hak)
  refine ⟨⟨d.name, (arguments.update isPart fun _ => new).parts⟩, ?_, rfl, ?_⟩
  · rw [Decorator.ofNode?, hcall']
    change ((callee? (callWith new call)).bind appliedName?).bind _ = _
    rw [callee?, if_pos hk', hcallee', Option.bind_some, hname]
    change some (Decorator.mk d.name (if _ then _ else [])) = _
    rw [if_pos hk', callArguments, ha']
  · rw [head?_parts]
    exact find?_replaceFirst ho hnew

/-- What the first component decorator of a row is called with. -/
theorem ClassDeclaration.metadata?_eq (k : ClassDeclaration) :
    k.metadata? = (k.decoratorNodes.find? isComponent).bind fun n =>
      (Decorator.ofNode? n).bind fun d =>
        d.arguments.head?.filter fun a => decide (a.kind = .object) := by
  have hdec : k.decorator? componentDecorator =
      (k.decoratorNodes.find? isComponent).bind Decorator.ofNode? := List.find?_filterMap ..
  rw [metadata?, hdec, Option.bind_assoc]

/-- The decorators of a node with other metadata. -/
theorem childrenOf_withMetadata (new n : Node) : (withMetadata new n).childrenOf .decorator =
    replaceFirst isComponent (withArgument new) (n.childrenOf .decorator) :=
  filter_replaceFirst (P := isComponentDecorator) (f := withArgument new) (fun _ => rfl)
    (fun _ => rfl) n.children

/-- Other metadata leaves all children but the decorators. -/
theorem child?_withMetadata {k : Kind} (hk : k ≠ .decorator) (new n : Node) :
    (withMetadata new n).child? k = n.child? k := by
  have hother : ∀ m, isComponentDecorator m → decide (m.kind = k) = false ∧
      decide ((withArgument new m).kind = k) = false := by
    intro m hm
    rw [isComponentDecorator, Bool.and_eq_true, decide_eq_true_eq] at hm
    have hne : decide (m.kind = k) = false := decide_eq_false fun heq => hk (heq.symm.trans hm.1)
    exact ⟨hne, hne⟩
  have hfilter := congrArg List.head? (filter_replaceFirst_other hother n.children)
  rwa [List.head?_filter, List.head?_filter] at hfilter

theorem withClassMetadata_of_class (h : n.kind = .classDeclaration) (new : Node) :
    withClassMetadata new n = withMetadata new n := by
  rw [withClassMetadata, if_neg (by simp [h])]

/-- A decorator of the statement itself comes first. -/
theorem withClassMetadata_of_own {m : Node} (h : n.children.find? isComponentDecorator = some m)
    (new : Node) : withClassMetadata new n = withMetadata new n := by
  refine if_neg ?_
  rintro ⟨_, hall⟩
  have hno := List.all_eq_true.1 hall m (List.mem_of_find?_eq_some h)
  rw [List.find?_some h] at hno
  cases hno

theorem withClassMetadata_of_exported (hk : n.kind = .exportStatement)
    (h : n.children.find? isComponentDecorator = none) (new : Node) : withClassMetadata new n =
      n.update (fun c => decide (c.kind = .classDeclaration)) (withMetadata new) := by
  refine if_pos ⟨hk, List.all_eq_true.2 fun c hc => ?_⟩
  simpa using List.find?_eq_none.1 h c hc

theorem ofStatement?_of_class (h : n.kind = .classDeclaration) :
    ClassDeclaration.ofStatement? n = some ⟨n, n.childrenOf .decorator⟩ := by
  rw [ClassDeclaration.ofStatement?, h]

theorem ofStatement?_of_export {e : Node} (h : n.kind = .exportStatement)
    (he : n.child? .classDeclaration = some e) : ClassDeclaration.ofStatement? n =
      some ⟨e, n.childrenOf .decorator ++ e.childrenOf .decorator⟩ := by
  rw [ClassDeclaration.ofStatement?, h]
  simp [he]

/-- The class of a statement with other metadata: its first component decorator has another first
argument, and all else is the same. -/
theorem ofStatement?_withClassMetadata {k : ClassDeclaration}
    (h : ClassDeclaration.ofStatement? n = some k) (new : Node) :
    ∃ k', ClassDeclaration.ofStatement? (withClassMetadata new n) = some k' ∧
      k'.decoratorNodes = replaceFirst isComponent (withArgument new) k.decoratorNodes ∧
      ∀ kind ≠ .decorator, k'.node.child? kind = k.node.child? kind := by
  unfold ClassDeclaration.ofStatement? at h
  split at h
  next hk =>
    cases h
    rw [withClassMetadata_of_class hk]
    exact ⟨_, ofStatement?_of_class hk, childrenOf_withMetadata new n,
      fun _ hkind => child?_withMetadata hkind new n⟩
  next hk =>
    simp only [Option.bind_eq_bind, Option.bind_eq_some_iff] at h
    obtain ⟨e, he, h⟩ := h
    cases h
    have hany : (n.childrenOf .decorator).any isComponent = n.children.any isComponentDecorator := by
      rw [childrenOf, List.any_filter]
      rfl
    cases hown : n.children.find? isComponentDecorator with
    | some m =>
      -- a decorator before the export keyword
      have he' := (child?_withMetadata (k := .classDeclaration) (by decide) new n).trans he
      rw [withClassMetadata_of_own hown]
      refine ⟨_, ofStatement?_of_export hk he', ?_, fun _ _ => rfl⟩
      have hsome : n.children.any isComponentDecorator :=
        List.any_eq_true.2 ⟨m, List.mem_of_find?_eq_some hown, List.find?_some hown⟩
      rw [replaceFirst_append_eq, hany, if_pos hsome, childrenOf_withMetadata]
    | none =>
      -- a decorator of the class that is exported
      have hek : e.kind = .classDeclaration := kind_of_child? he
      have he' : (n.update (fun c => decide (c.kind = .classDeclaration))
          (withMetadata new)).child? .classDeclaration = some (withMetadata new e) :=
        find?_replaceFirst he (decide_eq_true hek)
      have hother : ∀ m : Node, decide (m.kind = .classDeclaration) →
          decide (m.kind = .decorator) = false ∧
            decide ((withMetadata new m).kind = .decorator) = false := by
        intro m hm
        have hne : decide (m.kind = .decorator) = false := by
          rw [of_decide_eq_true hm]
          rfl
        exact ⟨hne, hne⟩
      have hnone : ¬n.children.any isComponentDecorator := by
        simpa using List.find?_eq_none.1 hown
      rw [withClassMetadata_of_exported hk hown]
      refine ⟨_, ofStatement?_of_export hk he', ?_, fun _ hkind => child?_withMetadata hkind new e⟩
      rw [replaceFirst_append_eq, hany, if_neg hnone, childrenOf_withMetadata]
      exact congrArg (· ++ _) (filter_replaceFirst_other hother n.children)
  next => cases h

/-- The class of a statement with other metadata has that metadata. -/
theorem metadata?_withClassMetadata (hnew : new.kind = .object) {k : ClassDeclaration}
    (h : ClassDeclaration.ofStatement? n = some k) (hm : k.metadata? = some o) :
    ∃ k', ClassDeclaration.ofStatement? (withClassMetadata new n) = some k' ∧
      k'.metadata? = some new := by
  obtain ⟨k', hk', hnodes, _⟩ := ofStatement?_withClassMetadata h new
  rw [ClassDeclaration.metadata?_eq, Option.bind_eq_some_iff] at hm
  obtain ⟨m, hfind, hm⟩ := hm
  obtain ⟨d, hd, ho⟩ := Option.bind_eq_some_iff.1 hm
  obtain ⟨ho, _⟩ := Option.filter_eq_some_iff.1 ho
  have hpart : new.isPart := by
    rw [isPart, isNamed, hnew]
    decide
  obtain ⟨d', hd', hname, ho'⟩ := ofNode?_withArgument hd ho hpart
  have hcomp : isComponent (withArgument new m) := by
    have hcomponent := List.find?_some hfind
    rw [isComponent, hd, Option.any_some] at hcomponent
    rw [isComponent, hd', Option.any_some, hname]
    exact hcomponent
  refine ⟨k', hk', ?_⟩
  rw [ClassDeclaration.metadata?_eq, hnodes, find?_replaceFirst hfind hcomp, Option.bind_some, hd',
    Option.bind_some, ho', Option.filter_some_pos (by simpa using hnew)]

namespace PlacedNode

variable {p c : PlacedNode} {P : Node → Bool} {f : Node → Node}

/-- `n` is the node `p` with the node `o` in it replaced by `new`. -/
inductive Replaced (o : PlacedNode) (new : Node) : PlacedNode → Node → Prop where
  | here : Replaced o new o new
  | step {p c : PlacedNode} {n : Node} {before after : List Node}
      (split : p.node.children = before ++ c.node :: after)
      (place : c.offset = p.offset + (textOf before).length) (child : Replaced o new c n) :
      Replaced o new p (.branch p.node.kind (before ++ n :: after))

/-- The text before and after the replaced node stays. -/
theorem Replaced.text {o p : PlacedNode} {new n : Node} (h : Replaced o new p n) :
    ∃ before after, p.node.text = before ++ o.node.text ++ after ∧
      n.text = before ++ new.text ++ after ∧ o.offset = p.offset + before.length := by
  induction h with
  | here => exact ⟨[], [], by simp, by simp, by simp⟩
  | @step p c n ms ms' hs hplace _ ih =>
    obtain ⟨before, after, hc, hn, ho⟩ := ih
    refine ⟨textOf ms ++ before, after ++ textOf ms', ?_, ?_, ?_⟩
    · rw [Node.text_of_split hs, hc]
      simp only [List.append_assoc]
    · rw [Node.text_branch, Node.textOf_append, Node.textOf_cons, hn]
      simp only [List.append_assoc]
    · rw [ho, hplace, List.length_append]
      omega

/-- Where a node grows by an insertion, so does each node around it. -/
theorem Replaced.woven {o p : PlacedNode} {new n : Node} {i : Insertion} (h : Replaced o new p n)
    (hi : o.Covers i.offset) (hnew : new.sourceText = woven [i] o.offset o.node.sourceText) :
    n.sourceText = CustomElements.woven [i] p.offset p.node.sourceText := by
  obtain ⟨before, after, hp, hn, ho⟩ := h.text
  have hlow := hi.1
  have hhigh := hi.2
  unfold stop at hhigh
  have hlen (t : List Char) : (Text.ofChars t).length = t.length := Text.ofChars_length t
  have hfront := @woven_append [] [i] p.offset (.ofChars before)
    (o.node.sourceText ++ .ofChars after) (by simp) (by simp [hlen]; omega)
  have hback := @woven_append [i] [] o.offset o.node.sourceText (.ofChars after)
    (by simp [Node.sourceText, hlen]; omega) (by simp)
  rw [hlen, ← ho, List.nil_append, woven_nil] at hfront
  rw [List.append_nil, woven_nil, ← hnew] at hback
  have hold : p.node.sourceText =
      .ofChars before ++ (o.node.sourceText ++ .ofChars after) := by
    rw [Node.sourceText, hp, Text.ofChars_append, Text.ofChars_append, List.append_assoc]
    rfl
  have hgrown : n.sourceText = .ofChars before ++ (new.sourceText ++ .ofChars after) := by
    rw [Node.sourceText, hn, Text.ofChars_append, Text.ofChars_append, List.append_assoc]
    rfl
  rw [hgrown, hold, hfront, hback]

theorem row_split {offset : Nat} {ns : List Node} {before after : List PlacedNode}
    (h : row offset ns = before ++ c :: after) :
    ns = before.map node ++ c.node :: after.map node ∧
      c.offset = offset + (textOf (before.map node)).length := by
  have hns := congrArg (List.map node) h
  rw [map_node_row, List.map_append, List.map_cons] at hns
  refine ⟨hns, ?_⟩
  induction before generalizing offset ns with
  | nil =>
    cases ns with
    | nil => cases h
    | cons n ns => cases h; rfl
  | cons b before ih =>
    cases ns with
    | nil => cases h
    | cons n ns =>
      obtain ⟨rfl, htail⟩ := List.cons.inj h
      have hc := ih htail (List.cons.inj hns).2
      rw [hc, List.map_cons, Node.textOf_cons, List.length_append, Nat.add_assoc]

/-- Replacing below the first child of its sort. -/
theorem Replaced.update {o : PlacedNode} {new : Node}
    (hc : p.children.find? (fun c => P c.node) = some c) (h : Replaced o new c (f c.node)) :
    Replaced o new p (p.node.update P f) := by
  obtain ⟨hP, before, after, hs, hb⟩ := List.find?_eq_some_iff_append.1 hc
  obtain ⟨hsplit, hplace⟩ := row_split hs
  have hb' : ∀ m ∈ before.map node, P m = false := by
    intro m hm
    obtain ⟨b, hbm, rfl⟩ := List.mem_map.1 hm
    simpa using hb b hbm
  rw [Node.update, hsplit, replaceFirst_append hb' hP]
  exact .step hsplit hplace h

theorem head?_parts (p : PlacedNode) : p.parts.head? = p.children.find? fun c => c.node.isPart :=
  List.head?_filter ..

theorem find?_decorators (p : PlacedNode) :
    (p.children.filter fun c => decide (c.node.kind = .decorator)).find?
      (fun d => isComponent d.node) = p.children.find? fun c => isComponentDecorator c.node := by
  rw [List.find?_filter]
  exact congrArg (List.find? · _) (funext fun c => by simp [isComponentDecorator])

end PlacedNode

open PlacedNode (Replaced)

/-- Other metadata for the class of a statement is put where its metadata stood. -/
theorem DescribedClass.replaced {s : PlacedNode} {c : DescribedClass} (new : Node)
    (h : ofStatement? s = some c) : Replaced c.metadata new s (withClassMetadata new s.node) := by
  unfold ofStatement? at h
  simp only [Option.bind_eq_bind, Option.bind_eq_some_iff] at h
  obtain ⟨k, hk, d, hd, call, hcall, o, ho, hc⟩ := h
  cases hc
  rw [PlacedNode.call?, Option.filter_eq_some_iff, PlacedNode.head?_parts] at hcall
  simp only [PlacedNode.firstObject?, Option.bind_eq_bind, Option.bind_eq_some_iff,
    Option.filter_eq_some_iff, PlacedNode.head?_parts] at ho
  obtain ⟨a, ha, hoa, _⟩ := ho
  have hdecorator : Replaced o new d (withArgument new d.node) :=
    .update hcall.1 (.update ha (.update hoa .here))
  have hmetadata (q : PlacedNode)
      (hq : q.children.find? (fun c => isComponentDecorator c.node) = some d) :
      Replaced o new q (withMetadata new q.node) := .update hq hdecorator
  have hfirst := PlacedNode.map_node_find? s.children isComponentDecorator
  rw [PlacedNode.map_node_children] at hfirst
  unfold PlacedNode.decorators at hd
  split at hd
  next hsk =>
    rw [PlacedNode.find?_decorators] at hd
    rw [withClassMetadata_of_class hsk]
    exact hmetadata s hd
  next hsk =>
    rw [List.find?_append, PlacedNode.find?_decorators] at hd
    cases hown : s.children.find? fun c => isComponentDecorator c.node with
    | some d₀ =>
      rw [hown] at hd hfirst
      obtain rfl := Option.some.inj hd
      rw [withClassMetadata_of_own hfirst.symm]
      exact hmetadata s hown
    | none =>
      rw [hown] at hd hfirst
      rw [withClassMetadata_of_exported hsk hfirst.symm]
      cases he : s.child? .classDeclaration with
      | none => simp [he] at hd
      | some e =>
        rw [he, Option.map_some, Option.getD_some, PlacedNode.find?_decorators] at hd
        exact .update he (hmetadata e hd)
  next => cases hd

/-- The metadata of a class with pairs for the lists that it lacks. -/
def DescribedClass.completed (source : List Char) (c : DescribedClass) : Node :=
  completedLiteral source c.metadata c.missing

/-- A statement with the metadata of its class completed, if that lacks lists. -/
def completedStatement (source : List Char) (s : PlacedNode) : Node :=
  match DescribedClass.ofStatement? s with
  | some c => if c.missing.isEmpty then s.node else withClassMetadata (c.completed source) s.node
  | none => s.node

/-- The tree of a file with the metadata of its classes completed. -/
def completedTree (tree : Node) : Node :=
  .branch tree.kind ((PlacedNode.mk 0 tree).children.map (completedStatement tree.text))

/-- The runs for the class of a statement. -/
def statementRuns (source : List Char) (s : PlacedNode) : List Insertion :=
  ((DescribedClass.ofStatement? s).toList.filter fun c => !c.missing.isEmpty).map
    (DescribedClass.run source)

theorem metadataRuns_eq_flatMap (tree : Node) :
    metadataRuns tree = (PlacedNode.mk 0 tree).children.flatMap (statementRuns tree.text) := by
  rw [metadataRuns, incompleteClasses, describedClasses]
  generalize (PlacedNode.mk 0 tree).children = ss
  induction ss with
  | nil => rfl
  | cons s ss ih =>
    rw [List.flatMap_cons, ← ih, List.filterMap_cons, statementRuns]
    cases DescribedClass.ofStatement? s with
    | none => rfl
    | some c => by_cases he : c.missing.isEmpty <;> simp [he]

/-- Statements in a row that grow by their own runs grow by all runs at once. -/
theorem textOf_completedRow {source : List Char} {offset : Nat} {ns : List Node}
    (h : ∀ s ∈ PlacedNode.row offset ns,
      (completedStatement source s).sourceText =
        woven (statementRuns source s) s.offset s.node.sourceText ∧
      ∀ i ∈ statementRuns source s, s.Covers i.offset) :
    Text.ofChars (textOf ((PlacedNode.row offset ns).map (completedStatement source))) =
      woven ((PlacedNode.row offset ns).flatMap (statementRuns source)) offset
        (.ofChars (textOf ns)) := by
  induction ns generalizing offset with
  | nil => rfl
  | cons n ns ih =>
    rw [PlacedNode.row, List.forall_mem_cons] at h
    obtain ⟨⟨hfirst, hinside⟩, hrest⟩ := h
    have hlen : n.sourceText.length = n.text.length := Text.ofChars_length _
    have hlater : ∀ j ∈ (PlacedNode.row (offset + n.text.length) ns).flatMap (statementRuns source),
        offset + n.sourceText.length ≤ j.offset := by
      intro j hj
      obtain ⟨s, hs, hj⟩ := List.mem_flatMap.1 hj
      obtain ⟨_, _, _, ho⟩ := PlacedNode.mem_row hs
      have hlow := ((hrest s hs).2 j hj).1
      omega
    rw [PlacedNode.row, List.map_cons, List.flatMap_cons, Node.textOf_cons, Node.textOf_cons,
      Text.ofChars_append, Text.ofChars_append, ih hrest, ← hlen]
    rw [← hlen] at hlater
    have hnow : ∀ i ∈ statementRuns source ⟨offset, n⟩, i.offset < offset + n.sourceText.length := by
      intro i hi
      have hhigh := (hinside i hi).2
      change i.offset < offset + n.text.length at hhigh
      omega
    have hboth := @woven_append _ _ _ _ (Text.ofChars (textOf ns)) hnow hlater
    exact (congrArg (· ++ _) hfirst).trans hboth.symm

section

variable {dialect : TypeScript.Dialect} {source : List Char} {tree : Node}

theorem completed_text (h : TypeScript.parse? dialect source = some tree) {c : DescribedClass}
    (hc : c ∈ describedClasses tree) (hown : c.metadata.node.FindsOwnComma) :
    (c.completed tree.text).sourceText =
      woven [c.run tree.text] c.metadata.offset c.metadata.node.sourceText := by
  obtain ⟨ks, hpath, _⟩ := metadata_path h hc
  obtain ⟨members, trailing, ho⟩ := metadata_objectLiteral h hc
  have hclear := (PlacedNode.clear_iff_findsOwnComma hpath.leads_below ho c.missing).2 hown
  exact PlacedNode.completedLiteral_text ho hclear (missing_chars c)

theorem completedStatement_text (h : TypeScript.parse? dialect source = some tree)
    (hown : ∀ c ∈ incompleteClasses tree, c.metadata.node.FindsOwnComma) {s : PlacedNode}
    (hs : s ∈ (PlacedNode.mk 0 tree).children) :
    (completedStatement tree.text s).sourceText =
      woven (statementRuns tree.text s) s.offset s.node.sourceText ∧
    ∀ i ∈ statementRuns tree.text s, s.Covers i.offset := by
  rw [completedStatement, statementRuns]
  cases hc : DescribedClass.ofStatement? s with
  | none => exact ⟨(woven_nil ..).symm, nofun⟩
  | some c =>
    by_cases he : c.missing.isEmpty
    · simp [he, woven_nil]
    · have hd : c ∈ describedClasses tree := List.mem_filterMap.2 ⟨s, hs, hc⟩
      have hcov := run_covers h hd
      obtain ⟨ks, hpath, _⟩ := DescribedClass.exists_path hc
      have htext := completed_text h hd
        (hown c (List.mem_filter.2 ⟨hd, by simpa using he⟩))
      have hgrown := (DescribedClass.replaced (c.completed tree.text) hc).woven hcov htext
      simp only [he, Option.toList_some, List.filter_cons, List.filter_nil, Bool.not_false, if_true]
      refine ⟨hgrown, fun i hi => ?_⟩
      obtain rfl := List.mem_singleton.1 hi
      exact hpath.leads_below.covers hcov

/-- The text of the completed tree is the text of the file with all runs. -/
theorem completedTree_text (h : TypeScript.parse? dialect source = some tree)
    (hown : ∀ c ∈ incompleteClasses tree, c.metadata.node.FindsOwnComma) :
    (completedTree tree).sourceText = woven (metadataRuns tree) 0 (.ofChars source) := by
  have hrow := textOf_completedRow fun s hs => completedStatement_text h hown hs
  obtain ⟨nodes, rfl, _⟩ := TypeScript.reads_of_parse? h
  rw [metadataRuns_eq_flatMap, ← TypeScript.text_of_parse? h, completedTree, Node.sourceText,
    Node.text_branch]
  exact hrow

/-- The metadata of a class of the completed tree is that of a class of the file, completed if it
lacks lists. -/
theorem metadata_completedTree
    {c' : DescribedClass} (hc' : c' ∈ describedClasses (completedTree tree)) :
    ∃ c ∈ describedClasses tree, c'.metadata.node =
      if c.missing.isEmpty then c.metadata.node else c.completed tree.text := by
  obtain ⟨hmem, hm'⟩ := metadata_of_mem hc'
  obtain ⟨n, hn, hk'⟩ := List.mem_filterMap.1 hmem
  obtain ⟨s, hs, rfl⟩ := List.mem_map.1 hn
  have heq := DescribedClass.ofStatement?_eq s
  rw [completedStatement] at hk'
  cases hc : DescribedClass.ofStatement? s with
  | none =>
    rw [hc] at hk' heq
    dsimp only at hk'
    rw [hk', Option.bind_some, hm'] at heq
    cases heq
  | some c =>
    have hd : c ∈ describedClasses tree := List.mem_filterMap.2 ⟨s, hs, hc⟩
    refine ⟨c, hd, ?_⟩
    rw [hc] at hk' heq
    dsimp only at hk'
    by_cases he : c.missing.isEmpty
    · rw [if_pos he] at hk' ⊢
      rw [hk', Option.bind_some, hm'] at heq
      exact (congrArg Prod.snd (Option.some.inj heq)).symm
    · rw [if_neg he] at hk' ⊢
      obtain ⟨k, hk, hm⟩ := Option.bind_eq_some_iff.1 heq.symm
      obtain ⟨o, ho, _⟩ := Option.map_eq_some_iff.1 hm
      have hnew : (c.completed tree.text).kind = .object := metadata_isObject hd
      obtain ⟨k', hk₁, hk₂⟩ := metadata?_withClassMetadata hnew hk ho
      rw [hk', Option.some.injEq] at hk₁
      rw [← hk₁, hm'] at hk₂
      exact Option.some.inj hk₂

end

end CustomElements
