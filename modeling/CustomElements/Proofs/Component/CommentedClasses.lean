import CustomElements.Proofs.Component.CommentedTrees
import CustomElements.Proofs.Component.CompletedAnalysis

/-!
# The analysis of commented files

With more comments in its files, a project has the same classes with the same members, and discovery
finds the same elements (`comments_insignificant`). There is one exception: a comment before the type
of a field is taken for the type of its member.
-/

namespace CustomElements

open TypeScript (Node Kind EscapeError)
open TypeScript.Node

/-! ### Fields and members -/

/-- The field has more comments in its value, or a comment in place of its type. -/
structure FieldCommented (f f' : Field) : Prop where
  name : f'.name = f.name
  value : Option.Rel Commented f.initializer f'.initializer
  typeArgument : ∀ call call', f.initializer = some call → f'.initializer = some call' →
    call'.callTypeArguments.head? = call.callTypeArguments.head?
  type : f'.ascription = f.ascription ∨ ∃ t, f'.ascription = some t ∧ t.kind = .comment

/-- The type of the member of a field is the text of the comment before the type of the field. -/
def IsTypedByComment (field : Node) (m : Member) : Prop :=
  ∃ comment, field.fieldType? = some comment ∧ comment.kind = .comment ∧
    memberOfField? field = .ok (some m) ∧ m.type = comment.sourceText

/-- The member is the same, but for a type that one of the fields has from a comment. -/
structure MemberCommented (fields : List Node) (m m' : Member) : Prop where
  rest : m' = { m with type := m'.type }
  type : m'.type = m.type ∨ ∃ field ∈ fields, IsTypedByComment field m'

section Fields

variable {n n' : Node} {f f' : Field} {fields : List Node}

theorem fieldType?_commented (h : Commented n n') (hk : n.kind = .field) :
    n'.fieldType? = n.fieldType? ∨ ∃ t, n'.fieldType? = some t ∧ t.kind = .comment := by
  have hkept := h.keepsSlices.type hk
  rw [ascribedType?, ascribedType?] at hkept
  rw [fieldType?, fieldType?]
  rcases optionRel_cases (h.child? (k := .ascription) (by decide)) with
    ⟨hx, hx'⟩ | ⟨a, a', hx, hx', ha⟩
  · rw [hx, hx']
    exact .inl rfl
  rw [hx, hx'] at hkept ⊢
  rcases ha.row.head?_named fun _ _ hc => hc.kind_eq with hcomment | ⟨hnamed', hnamed⟩
  · exact .inr hcomment
  · have hparts : a'.parts.head? = a.parts.head? := hkept
    rw [parts_eq_filter, parts_eq_filter] at hparts
    exact .inl (hnamed'.trans (hparts.trans hnamed.symm))

theorem fieldValue?_commented (h : Commented n n') :
    Option.Rel Commented n.fieldValue? n'.fieldValue? := by
  rw [fieldValue?, fieldValue?]
  rcases optionRel_cases (h.child? (k := .initializer) (by decide)) with
    ⟨hx, hx'⟩ | ⟨initializer, initializer', hx, hx', hinitializer⟩
  · rw [hx, hx']
    exact .none
  · rw [hx, hx']
    exact forall₂_getLast? hinitializer.parts

/-- Only a computed name is not read as a key. -/
theorem kind_of_keyName? {name : Node} (h : name.keyName? = .ok none)
    (hmem : name.kind ∈ fieldNameKinds) : name.kind = .computedName := by
  unfold keyName? at h
  split at h
  · next hk =>
    rw [stringValue?, if_pos hk, exceptMap_eq_ok] at h
    obtain ⟨t, -, ht⟩ := h
    cases ht
  · cases h
  · cases h
  · cases h
  · cases h
  · next hstring hproperty hprivate _ hnumber =>
    simp only [fieldNameKinds, List.mem_cons, List.not_mem_nil, or_false] at hmem
    exact hmem.resolve_left hstring |>.resolve_left hnumber |>.resolve_left hprivate
      |>.resolve_right hproperty

/-- A field is read as it was, or fails to be read as it did. -/
theorem ofNode?_commented (h : Commented n n') (hk : n.kind = .field) :
    AnswersAlike (Option.Rel FieldCommented) (Field.ofNode? n) (Field.ofNode? n') := by
  have hrel : Option.Rel Commented (n.children.find? fun c => decide (c.kind ∈ fieldNameKinds))
      (n'.children.find? fun c => decide (c.kind ∈ fieldNameKinds)) := by
    rw [← List.head?_filter, ← List.head?_filter]
    exact forall₂_head? (h.filter (q := fun k => decide (k ∈ fieldNameKinds)) rfl rfl)
  rw [Field.ofNode?_eq, Field.ofNode?_eq]
  rcases optionRel_cases hrel with ⟨hx, hx'⟩ | ⟨name, name', hx, hx', hname⟩
  · rw [hx, hx']
    exact .ok .none
  rw [hx, hx', Option.elim_some, Option.elim_some, hname.keyName?]
  cases hkey : name.keyName? with
  | error e => exact .error e
  | ok key =>
    refine .ok (.some ⟨?_, fieldValue?_commented h, h.keepsSlices.typeArgument hk,
      fieldType?_commented h hk⟩)
    cases key with
    | some t => rfl
    | none =>
      have hisName := find?_eq_some_iff_isFieldName.1 hx
      have hcomputed := kind_of_keyName? hkey hisName.holds
      rw [h.keepsSlices.name hk name name' hisName (find?_eq_some_iff_isFieldName.1 hx') hcomputed]

theorem ascription_of_ofNode? (h : Field.ofNode? n = .ok (some f)) :
    f.ascription = n.fieldType? := by
  rw [Field.ofNode?_eq] at h
  generalize n.children.find? _ = found at h
  cases found with
  | none => cases h
  | some name =>
    obtain ⟨key, -, hf⟩ := exceptBind_eq_ok.1 h
    cases hf
    rfl

/-- The type of a member is what it was, or the text of a comment. -/
theorem memberType_commented (h : FieldCommented f f') {call call' : Node}
    (hcall : Commented call call') (hvalue : f.initializer = some call)
    (hvalue' : f'.initializer = some call') (shape : CallShape) :
    memberType f' call' shape = memberType f call shape ∨
      ∃ t, f'.ascription = some t ∧ t.kind = .comment ∧
        memberType f' call' shape = t.sourceText := by
  rw [memberType, memberType, h.typeArgument call call' hvalue hvalue',
    inferredSignal_commented hcall]
  cases call.callTypeArguments.head? with
  | some t => exact .inl rfl
  | none =>
    rcases h.type with hsame | ⟨t, ht, hcomment⟩
    · rw [hsame]
      exact .inl rfl
    · rw [ht]
      exact .inr ⟨t, rfl, hcomment, rfl⟩

/-- A field has the member that it had, but for a type that is the text of a comment. -/
theorem member?_commented (h : FieldCommented f f') :
    AnswersAlike (Option.Rel fun m m' => m' = { m with type := m'.type } ∧
      (m'.type = m.type ∨ ∃ t, f'.ascription = some t ∧ t.kind = .comment ∧
        m'.type = t.sourceText)) f.member? f'.member? := by
  rcases optionRel_cases h.value with ⟨hvalue, hvalue'⟩ | ⟨call, call', hvalue, hvalue', hcall⟩
  · rw [Field.member?_of_other (by simp [hvalue]), Field.member?_of_other (by simp [hvalue'])]
    exact .ok .none
  have hshape := callShape_commented hcall
  cases hkind : (CallShape.ofNode call).kind? with
  | none =>
    have hkind' : (CallShape.ofNode call').kind? = none := by rw [hshape, hkind]
    rw [Field.member?_of_other (by simp [hvalue, hkind]),
      Field.member?_of_other (by simp [hvalue', hkind'])]
    exact .ok .none
  | some kind =>
    have hkind' : (CallShape.ofNode call').kind? = some kind := by rw [hshape, hkind]
    rw [Field.member?_of_kind hvalue hkind, Field.member?_of_kind hvalue' hkind',
      aliasOf_commented hcall, h.name, hshape]
    cases aliasOf call with
    | error e => exact .error e
    | ok r => exact .ok (.some ⟨rfl, memberType_commented h hcall hvalue hvalue' _⟩)

end Fields

/-! ### Decorators -/

/-- The decorator has more comments in its arguments. -/
structure DecoratorCommented (d d' : Decorator) : Prop where
  name : d'.name = d.name
  arguments : List.Forall₂ Commented d.arguments d'.arguments

section Decorators

variable {n n' : Node}

theorem appliedName?_commented (h : Commented n n') : appliedName? n' = appliedName? n := by
  rw [appliedName?, appliedName?, h.kind_eq]
  cases hk : n.kind with
  | identifier => rw [h.eq_of_name (by rw [hk]; decide)]
  | member => rw [h.keepsSlices.accessed hk]
  | _ => rfl

theorem callee?_commented (h : Commented n n') : Option.Rel Commented (callee? n) (callee? n') := by
  rw [callee?, callee?, h.kind_eq]
  split
  · exact forall₂_head? h.parts
  · exact .some h

/-- A decorator applies what it applied. -/
theorem decoratorOfNode?_commented (h : Commented n n') :
    Option.Rel DecoratorCommented (Decorator.ofNode? n) (Decorator.ofNode? n') := by
  rw [Decorator.ofNode?, Decorator.ofNode?]
  rcases optionRel_cases (forall₂_head? h.parts) with
    ⟨hx, hx'⟩ | ⟨applied, applied', hx, hx', happlied⟩
  · rw [hx, hx']
    exact .none
  rw [hx, hx']
  have hname : (callee? applied').bind appliedName? = (callee? applied).bind appliedName? := by
    rcases optionRel_cases (callee?_commented happlied) with
      ⟨hy, hy'⟩ | ⟨callee, callee', hy, hy', hcallee⟩
    · rw [hy, hy']
    · rw [hy, hy']
      exact appliedName?_commented hcallee
  simp only [Option.bind_eq_bind, Option.bind_some, hname, happlied.kind_eq]
  cases (callee? applied).bind appliedName? with
  | none => exact .none
  | some name =>
    refine .some ⟨rfl, ?_⟩
    dsimp only
    split
    · exact happlied.callArguments
    · exact .nil

theorem tagOfArgument_commented (h : Commented n n') : tagOfArgument n' = tagOfArgument n := by
  rw [tagOfArgument, tagOfArgument, h.stringValue?, h.stringProperty?, h.stringProperty?]

end Decorators

/-! ### Classes -/

/-- The class has more comments in its nodes. -/
structure ClassCommented (c c' : ClassDeclaration) : Prop where
  node : Commented c.node c'.node
  decoratorNodes : List.Forall₂ Commented c.decoratorNodes c'.decoratorNodes

namespace ClassCommented

variable {c c' : ClassDeclaration}

theorem name (h : ClassCommented c c') : c'.name = c.name := by
  rw [ClassDeclaration.name, ClassDeclaration.name]
  rcases optionRel_cases (h.node.child? (k := .identifier) (by decide)) with
    ⟨hx, hx'⟩ | ⟨name, name', hx, hx', hname⟩
  · rw [hx, hx']
  · have hk : name.kind = .identifier := (of_find?_key hx).2
    rw [hx, hx', hname.eq_of_name (by rw [hk]; decide)]

theorem fieldNodes (h : ClassCommented c c') :
    List.Forall₂ Commented c.fieldNodes c'.fieldNodes := by
  rw [ClassDeclaration.fieldNodes, ClassDeclaration.fieldNodes]
  rcases optionRel_cases (h.node.child? (k := .classBody) (by decide)) with
    ⟨hx, hx'⟩ | ⟨body, body', hx, hx', hbody⟩
  · rw [hx, hx']
    exact .nil
  · rw [hx, hx']
    exact hbody.childrenOf (by decide)

theorem kind_of_mem_fieldNodes {n : Node} (hn : n ∈ c.fieldNodes) : n.kind = .field := by
  rw [ClassDeclaration.fieldNodes] at hn
  split at hn
  · exact of_decide_eq_true (List.mem_filter.1 hn).2
  · cases hn

/-- The fields are the same, but for comments in place of types. -/
theorem fields (h : ClassCommented c c') : AnswersAlike (List.Forall₂ fun f f' =>
      FieldCommented f f' ∧ ∃ n ∈ c'.fieldNodes, Field.ofNode? n = .ok (some f'))
    c.fields c'.fields := by
  rw [ClassDeclaration.fields_eq, ClassDeclaration.fields_eq]
  refine (AnswersAlike.mapM ((forall₂_with_mem h.fieldNodes).imp ?_)).map
    fun _ _ => forall₂_filterMap_id
  rintro n n' ⟨hn, hmem, hmem'⟩
  refine (ofNode?_commented hn (kind_of_mem_fieldNodes hmem)).with_right.mono fun o o' ho => ?_
  obtain ⟨hrel, hread⟩ := ho
  cases hrel with
  | none => exact .none
  | some hf => exact .some ⟨hf, n', hmem', hread⟩

/-- The members are the same, but for types that are the texts of comments. -/
theorem members (h : ClassCommented c c') :
    AnswersAlike (List.Forall₂ (MemberCommented c'.fieldNodes)) c.members c'.members := by
  rw [ClassDeclaration.members, ClassDeclaration.members]
  refine h.fields.bind fun fs fs' hfs => ?_
  refine AnswersAlike.bind (AnswersAlike.mapM (hfs.imp ?_)) fun os os' hos =>
    .ok (forall₂_filterMap_id hos)
  rintro f f' ⟨hf, n, hn, hread⟩
  refine (member?_commented hf).with_right.mono fun o o' ho => ?_
  obtain ⟨hrel, hmember⟩ := ho
  cases hrel with
  | none => exact .none
  | @some m m' hm =>
    obtain ⟨hrest, htype⟩ := hm
    refine .some ⟨hrest, htype.imp_right ?_⟩
    rintro ⟨t, ht, hcomment, htext⟩
    have hof : memberOfField? n = .ok (some m') := by
      rw [memberOfField?, hread]
      exact hmember
    exact ⟨n, hn, t, by rw [← ascription_of_ofNode? hread, ht], hcomment, hof, htext⟩

/-- If no type is the text of a comment, the members are the same. -/
theorem members_eq (h : ClassCommented c c')
    (htyped : ∀ field ∈ c'.fieldNodes, ∀ m, ¬ IsTypedByComment field m) :
    c'.members = c.members := by
  refine (h.members.mono fun ms ms' hms => ?_).eq.symm
  rw [← List.forall₂_eq_eq_eq]
  refine hms.imp fun m m' hm => ?_
  rcases hm.type with htype | ⟨field, hfield, hfield'⟩
  · rw [hm.rest, htype]
  · exact (htyped field hfield m' hfield').elim

theorem decorators (h : ClassCommented c c') :
    List.Forall₂ DecoratorCommented c.decorators c'.decorators :=
  List.rel_filterMap (fun _ _ hn => decoratorOfNode?_commented hn) h.decoratorNodes

theorem decorator? (h : ClassCommented c c') (name : Text) :
    Option.Rel DecoratorCommented (c.decorator? name) (c'.decorator? name) := by
  rw [ClassDeclaration.decorator?, ClassDeclaration.decorator?, ← List.head?_filter,
    ← List.head?_filter]
  exact forall₂_head? (List.rel_filter (fun _ _ hd => by dsimp only; rw [hd.name]) h.decorators)

theorem selector (h : ClassCommented c c') : c'.selector = c.selector := by
  rw [ClassDeclaration.selector, ClassDeclaration.selector]
  rcases optionRel_cases (h.decorator? componentDecorator) with
    ⟨hx, hx'⟩ | ⟨d, d', hx, hx', hd⟩
  · rw [hx, hx']
  rw [hx, hx', Option.bind_some, Option.bind_some]
  rcases optionRel_cases (forall₂_head? hd.arguments) with ⟨hy, hy'⟩ | ⟨n, n', hy, hy', hn⟩
  · rw [hy, hy']
  · rw [hy, hy']
    dsimp only
    rw [hn.stringProperty?]

theorem tag? (h : ClassCommented c c') {d d' : Decorator} (hd : DecoratorCommented d d')
    (selectorFallback : Bool) : c'.tag? d' selectorFallback = c.tag? d selectorFallback := by
  rw [ClassDeclaration.tag?, ClassDeclaration.tag?, h.selector]
  rcases optionRel_cases (forall₂_head? hd.arguments) with ⟨hy, hy'⟩ | ⟨n, n', hy, hy', hn⟩
  · rw [hy, hy']
  · rw [hy, hy']
    dsimp only
    rw [tagOfArgument_commented hn]

/-- In a file of the same path, the class is the same element. -/
theorem element? (h : ClassCommented c c') {f f' : SourceFile} (hpath : f'.path = f.path)
    (rule : DiscoveryRule) :
    (LocatedClass.mk f' c').element? rule = (LocatedClass.mk f c).element? rule := by
  rw [LocatedClass.element?, LocatedClass.element?]
  dsimp only
  rw [h.name, hpath]
  rcases optionRel_cases (h.decorator? rule.marker) with ⟨hx, hx'⟩ | ⟨d, d', hx, hx', hd⟩
  · rw [hx, hx']
  · rw [hx, hx']
    cases c.name with
    | none => rfl
    | some name =>
      dsimp only
      rw [h.tag? hd]

end ClassCommented

/-! ### Files and projects -/

section Trees

variable {n n' tree tree' : Node}

theorem ofStatement?_commented (h : Commented n n') :
    Option.Rel ClassCommented (ClassDeclaration.ofStatement? n)
      (ClassDeclaration.ofStatement? n') := by
  rw [ClassDeclaration.ofStatement?, ClassDeclaration.ofStatement?, h.kind_eq]
  cases n.kind with
  | classDeclaration => exact .some ⟨h, h.childrenOf (by decide)⟩
  | exportStatement =>
    dsimp only
    rcases optionRel_cases (h.child? (k := .classDeclaration) (by decide)) with
      ⟨hx, hx'⟩ | ⟨exported, exported', hx, hx', hexported⟩
    · rw [hx, hx']
      exact .none
    · rw [hx, hx']
      exact .some ⟨hexported,
        List.rel_append (h.childrenOf (by decide)) (hexported.childrenOf (by decide))⟩
  | _ => exact .none

/-- A commented file has the classes of the file. -/
theorem classesOf_commented (h : Commented tree tree') :
    List.Forall₂ ClassCommented (classesOf tree) (classesOf tree') := by
  refine h.row.filterMap (fun g hg => ?_) fun _ _ => ofStatement?_commented
  rw [isGap, Bool.or_eq_true, decide_eq_true_eq, decide_eq_true_eq] at hg
  rw [ClassDeclaration.ofStatement?]
  rcases hg with hk | hk <;> rw [hk]

end Trees

/-- With more comments in its files, a project has the same classes in the same order, and discovery
ends with the same answer or the same failure and the same log. A class has the same members, or
fails to have them in the same way: if a member is different at all, it is in its type, which is the
text of a comment before the type that the field has. -/
theorem comments_insignificant {project project' : Project}
    (h : List.Forall₂ (fun f f' : SourceFile => f'.path = f.path ∧ Commented f.tree f'.tree)
      project.files project'.files) :
    List.Forall₂ (fun c c' : LocatedClass => c'.declaration.name = c.declaration.name ∧
        AnswersAlike (List.Forall₂ (MemberCommented c'.declaration.fieldNodes))
          c.declaration.members c'.declaration.members ∧
        ((∀ field ∈ c'.declaration.fieldNodes, ∀ m, ¬ IsTypedByComment field m) →
          c'.declaration.members = c.declaration.members))
      project.classes project'.classes ∧
    ∀ (rule : DiscoveryRule) (w : Workspace), ∃ answer rs,
      (Project.discover rule).outcome { w with project := project } =
        (answer, ({ w with project := project } : Workspace).report rs) ∧
      (Project.discover rule).outcome { w with project := project' } =
        (answer, ({ w with project := project' } : Workspace).report rs) := by
  have hclasses : List.Forall₂ (fun c c' : LocatedClass => c'.file.path = c.file.path ∧
      ClassCommented c.declaration c'.declaration) project.classes project'.classes :=
    Project.classes_related (h.imp fun _ _ hf => ⟨hf.1, classesOf_commented hf.2⟩)
  constructor
  · exact hclasses.imp fun _ _ hc => ⟨hc.2.name, hc.2.members, hc.2.members_eq⟩
  · intro rule w
    have helements : project'.elements rule = project.elements rule :=
      elementsFrom_congr (hclasses.imp fun _ _ hc => hc.2.element? hc.1 rule)
    exact Project.discover_of_elements helements w

/-- A decorator `@M("x-a")` with comments in its arguments. -/
def markerNode (comments : List Node) : Node :=
  .branch .decorator [mark '@', .branch .call [.leaf .identifier ['M'],
    .branch .arguments (mark '(' :: comments ++ [
      .branch .string [mark '"', .leaf .fragment "x-a".toList, mark '"'], mark ')'])]]

/-- A field `x: T = input()` with comments before its type. -/
def ascribedField (comments : List Node) : Node :=
  .branch .field [.leaf .propertyName ['x'],
    .branch .ascription (mark ':' :: comments ++ [.leaf .type ['T']]),
    .branch .initializer [mark '=', .branch .call [.leaf .identifier "input".toList,
      .branch .arguments [mark '(', mark ')']]]]

def ascribedTree (comments : List Node) : Node :=
  .branch .source [.branch .classDeclaration [markerNode comments, .leaf .identifier ['A'],
    .branch .classBody [ascribedField comments]]]

def starComment : Node := .leaf .comment "/**/".toList

theorem ascribedField_commented :
    Commented (ascribedField []) (ascribedField [starComment]) := by
  refine .branch (by decide) ⟨fun _ name _ hname _ hk => ?_, fun _ => rfl, ?_, nofun⟩ ?_
  · rw [← find?_eq_some_iff_isFieldName] at hname
    cases hname
    cases hk
  · rintro - call call' hcall hcall'
    cases hcall
    cases hcall'
    rfl
  · refine .node (.same _) (.node (.branch (by decide) (.of_kind (by decide) (by decide)) ?_)
      (.node (.same _) .nil))
    exact .node (.same _) (.gap rfl (.node (.same _) .nil))

theorem markerNode_commented : Commented (markerNode []) (markerNode [starComment]) := by
  refine .branch (by decide) (.of_kind (by decide) (by decide)) (.node (.same _) (.node ?_ .nil))
  refine .branch (by decide) (.of_kind (by decide) (by decide)) (.node (.same _) (.node ?_ .nil))
  refine .branch (by decide) (.of_kind (by decide) (by decide)) (.node (.same _) (.gap rfl ?_))
  exact .node (.same _) (.node (.same _) .nil)

theorem ascribedTree_commented : Commented (ascribedTree []) (ascribedTree [starComment]) := by
  refine .branch (by decide) (.of_kind (by decide) (by decide)) (.node ?_ .nil)
  refine .branch (by decide) (.of_kind (by decide) (by decide))
    (.node markerNode_commented (.node (.same _) (.node ?_ .nil)))
  exact .branch (by decide) (.of_kind (by decide) (by decide)) (.node ascribedField_commented .nil)

def ascribedProject (comments : List Node) : Project :=
  ⟨"/ws", [⟨"/ws/a.ts", ascribedTree comments⟩]⟩

theorem ascribedProject_commented :
    List.Forall₂ (fun f f' : SourceFile => f'.path = f.path ∧ Commented f.tree f'.tree)
      (ascribedProject []).files (ascribedProject [starComment]).files :=
  .cons ⟨rfl, ascribedTree_commented⟩ .nil

/-- The element of the class is found in both trees; the type of its member is not the same. -/
theorem comments_insignificant_ascribedTree : ∃ answer rs,
    (∀ tree ∈ [ascribedTree [], ascribedTree [starComment]], ∀ w, w = { Workspace.bare with
      project := ⟨"/ws", [⟨"/ws/a.ts", tree⟩]⟩ } →
        (Project.discover ⟨"M", false⟩).outcome w = (answer, w.report rs)) ∧
    [ascribedTree [], ascribedTree [starComment]].map (fun tree =>
      (classesOf tree).map fun c => c.members.toOption.map fun ms => ms.map Member.type) =
        [[some [("T" : Text)]], [some [("/**/" : Text)]]] := by
  obtain ⟨-, hdiscover⟩ := comments_insignificant ascribedProject_commented
  obtain ⟨answer, rs, hplain, hcommented⟩ := hdiscover ⟨"M", false⟩ Workspace.bare
  refine ⟨answer, rs, ?_, by decide⟩
  rw [List.forall_mem_cons, List.forall_mem_singleton]
  exact ⟨fun _ hw => hw ▸ hplain, fun _ hw => hw ▸ hcommented⟩

end CustomElements
