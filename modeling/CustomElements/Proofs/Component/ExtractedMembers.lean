import CustomElements.Proofs.Component.ReadableMembers

/-!
# Which members a class has

The members of a class are described field by field: a field makes a member if its initial value is
a call of `input`, `output` or `input.required` (`FactoryCall`), and what the member is can be read
off the field (`IsMemberOf`). In a class without comments whose escape sequences name code points,
the members are those of its fields in declaration order, whatever other fields stand between them
(`members_extracted`).

The type of a member follows the rule `TypeOf` with one exception: a literal of a big integer is
taken for a number.
-/

namespace CustomElements

open TypeScript (Node Kind IsBeyond)
open TypeScript.Node

namespace TypeScript.Node

variable {P Q : Node → Prop} {n : Node}

/-- What follows from `P` on a whole tree holds wherever `P` does. -/
theorem Everywhere.extend (h : n.Everywhere P) (hpq : ∀ m, m.Everywhere P → Q m) :
    n.Everywhere Q := by
  induction h with
  | leaf here => exact .leaf (hpq _ (.leaf here))
  | branch here below ih => exact .branch (hpq _ (.branch here below)) ih

/-- A tree without comments whose escape sequences name code points. -/
abbrev IsClean (n : Node) : Prop := n.Everywhere fun m =>
  m.kind ≠ .comment ∧ (m.kind = .escape → m.IsEscape ∧ ¬ IsBeyond m.text)

theorem IsClean.hasEscapes (h : n.IsClean) : n.HasEscapes := h.mono fun _ hm hk => (hm.2 hk).1

theorem IsClean.sensible (h : n.IsClean) : n.Everywhere fun m => ¬ m.IsSenseless :=
  Everywhere.extend h fun _ hm ⟨_, _, hc, hk, hbeyond⟩ => ((hm.child hc).here.2 hk).2 hbeyond

/-- Without comments, the children with a name of their own are the parts. -/
theorem IsClean.namedChildren (h : n.IsClean) : n.namedChildren = n.parts := by
  refine (List.filter_eq_self.2 fun c hc => decide_eq_true ?_).symm
  exact (h.child (List.mem_of_mem_filter hc)).here.1

/-- The type that a field is ascribed, if it is. -/
def ascribedType? (field : Node) : Option Node := do (← field.child? .ascription).parts.head?

theorem IsClean.fieldType? {field : Node} (h : field.IsClean) :
    field.fieldType? = field.ascribedType? := by
  rw [Node.fieldType?, ascribedType?]
  cases ha : field.child? .ascription with
  | none => rfl
  | some a => exact congrArg List.head? (IsClean.namedChildren (h.child (of_find?_key ha).1))

end TypeScript.Node

/-! ### What the rules say -/

/-- The calls that make members, with the kind of the member and whether it is required. -/
inductive FactoryCall (call : Node) : MemberKind → Bool → Prop where
  | input {callee : Node} (isCall : call.kind = .call) (called : call.parts.head? = some callee)
      (isName : callee.kind = .identifier) (named : callee.sourceText = ("input" : Text)) :
      FactoryCall call .input false
  | output {callee : Node} (isCall : call.kind = .call) (called : call.parts.head? = some callee)
      (isName : callee.kind = .identifier) (named : callee.sourceText = ("output" : Text)) :
      FactoryCall call .output false
  | required {callee target property : Node} (isCall : call.kind = .call)
      (called : call.parts.head? = some callee) (isAccess : callee.kind = .member)
      (accessed : callee.parts.head? = some target) (isName : target.kind = .identifier)
      (named : target.sourceText = ("input" : Text)) (last : callee.parts.getLast? = some property)
      (asked : property.sourceText = ("required" : Text)) : FactoryCall call .input true

/-- A literal of a big integer: its text ends with an `n`. -/
def IsBigInt (n : Node) : Prop := n.kind = .number ∧ n.text.getLast? = some 'n'

/-- The widened type of a literal. -/
inductive WidensTo (n : Node) : Text → Prop where
  | number (isNumber : n.kind = .number) (small : ¬ IsBigInt n) : WidensTo n "number"
  | bigint (isBigInt : IsBigInt n) : WidensTo n "bigint"
  | string (isString : n.kind = .string ∨ n.kind = .template) : WidensTo n "string"
  | boolean (isBoolean : n.kind = .trueLiteral ∨ n.kind = .falseLiteral) : WidensTo n "boolean"
  | null (isNull : n.kind = .nullLiteral) : WidensTo n "null"
  | undefined (isUndefined : n.kind = .undefinedLiteral) : WidensTo n "undefined"

/-- The type of the member that a field makes with a call: the first type argument, or else what
the field is ascribed, or else the signal of the widened type of a literal, or else unknown. -/
inductive TypeOf (field call : Node) : Text → Prop where
  | argument {t : Node} (given : call.callTypeArguments.head? = some t) :
      TypeOf field call t.sourceText
  | ascribed {t : Node} (bare : call.callTypeArguments = [])
      (written : field.ascribedType? = some t) : TypeOf field call t.sourceText
  | literal {a : Node} {t : Text} (bare : call.callTypeArguments = [])
      (unwritten : field.ascribedType? = none) (isInput : FactoryCall call .input false)
      (first : call.callArguments.head? = some a) (widens : WidensTo a t) :
      TypeOf field call ("InputSignal<" ++ t ++ ">")
  | unknown (bare : call.callTypeArguments = []) (unwritten : field.ascribedType? = none)
      (nothing : FactoryCall call .input false → ∀ a, call.callArguments.head? = some a →
        ∀ t, ¬ WidensTo a t) : TypeOf field call "unknown"

/-- The type follows from a literal of a big integer. -/
def TakesBigInt (field call : Node) : Prop :=
  call.callTypeArguments = [] ∧ field.ascribedType? = none ∧ FactoryCall call .input false ∧
    ∃ a, call.callArguments.head? = some a ∧ IsBigInt a

/-- The text of the name of a field: what it denotes if it is quoted, and its own text if not. -/
inductive NameText (name : Node) : Text → Prop where
  | quoted {t : Text} (isString : name.kind = .string) (value : name.stringValue? = .ok (some t)) :
      NameText name t
  | plain (unquoted : name.kind ≠ .string) : NameText name name.sourceText

/-- A field that makes a member with a call. -/
structure MakesMember (field name call : Node) (kind : MemberKind) (required : Bool) : Prop where
  isName : field.IsFieldName name
  value : field.fieldValue? = some call
  factory : FactoryCall call kind required

/-- The member that a field makes. -/
structure IsMemberOf (field name call : Node) (m : Member) : Prop where
  made : MakesMember field name call m.kind m.required
  name : NameText name m.name
  type : ¬ TakesBigInt field call → TypeOf field call m.type
  bigInt : TakesBigInt field call → m.type = ("InputSignal<number>" : Text)
  publicName : ∀ a, m.publicName = some a ↔
    ∃ n, IsFirst GivesAlias (call.callArguments.take 2) n ∧ n.GivesText aliasKey a

/-- The members that the fields of a row make: one for each field that makes any, in order. -/
inductive Extracts : List Node → List Member → Prop where
  | nil : Extracts [] []
  | member {field name call : Node} {fields : List Node} {m : Member} {ms : List Member}
      (here : IsMemberOf field name call m) (rest : Extracts fields ms) :
      Extracts (field :: fields) (m :: ms)
  | other {field : Node} {fields : List Node} {ms : List Member}
      (here : ∀ name call kind required, ¬ MakesMember field name call kind required)
      (rest : Extracts fields ms) : Extracts (field :: fields) ms

/-! ### The rules are followed -/

section Calls

variable {call : Node} {kind : MemberKind} {required : Bool}

theorem CallShape.ofNode_of_factoryCall (h : FactoryCall call kind required) :
    (ofNode call).kind? = some kind ∧ decide (ofNode call = .requiredInput) = required := by
  cases h with
  | input isCall called isName named =>
    have hshape : ofNode call = .bareInput := by simp [ofNode, isCall, called, isName, named]
    rw [hshape]
    exact ⟨rfl, rfl⟩
  | output isCall called isName named =>
    have hne : ("output" : Text) ≠ ("input" : Text) := by decide
    have hshape : ofNode call = .bareOutput := by simp [ofNode, isCall, called, isName, named, hne]
    rw [hshape]
    exact ⟨rfl, rfl⟩
  | required isCall called isAccess accessed isName named last asked =>
    have hshape : ofNode call = .requiredInput := by
      simp [ofNode, isCall, called, isAccess, accessed, isName, named, last, asked]
    rw [hshape]
    exact ⟨rfl, rfl⟩

/-- A shape that makes a member was found on such a call. -/
theorem factoryCall_of_kind? (h : (CallShape.ofNode call).kind? = some kind) :
    FactoryCall call kind (decide (CallShape.ofNode call = .requiredInput)) := by
  generalize hshape : CallShape.ofNode call = shape at h
  unfold CallShape.ofNode at hshape
  split at hshape
  · subst hshape
    cases h
  next hcall =>
  rw [not_not] at hcall
  split at hshape
  · subst hshape
    cases h
  next callee hcallee =>
  split at hshape
  · next hname =>
    split at hshape
    · next hinput =>
      subst hshape
      cases h
      exact .input hcall hcallee hname hinput
    · split at hshape
      · next houtput =>
        subst hshape
        cases h
        exact .output hcall hcallee hname houtput
      · subst hshape
        cases h
  · next haccess =>
    split at hshape
    · next target property htarget hproperty =>
      split at hshape
      · next hrequired =>
        simp only [Bool.and_eq_true, decide_eq_true_eq] at hrequired
        subst hshape
        cases h
        exact .required hcall hcallee haccess htarget hrequired.1.1 hrequired.1.2 hproperty
          hrequired.2
      · subst hshape
        cases h
    · subst hshape
      cases h
  · subst hshape
    cases h

/-- A call is a bare input exactly if it makes an input that is not required. -/
theorem CallShape.ofNode_eq_bareInput_iff :
    ofNode call = .bareInput ↔ FactoryCall call .input false := by
  constructor
  · intro h
    have hcall : FactoryCall call .input (decide (ofNode call = .requiredInput)) :=
      factoryCall_of_kind? (by rw [h]; rfl)
    rwa [h] at hcall
  · intro h
    obtain ⟨hkind, hrequired⟩ := ofNode_of_factoryCall h
    cases hshape : ofNode call with
    | bareInput => rfl
    | bareOutput | other =>
      rw [hshape] at hkind
      cases hkind
    | requiredInput =>
      rw [hshape] at hrequired
      cases hrequired

end Calls

section Types

variable {a field call : Node} {t : Text}

/-- The types of the literals that are known. -/
def literalTypes : List Text := ["number", "string", "boolean", "null", "undefined"]

/-- Nothing is collapsed in the signal of a known type. -/
theorem sanitizeType_signal : ∀ t ∈ literalTypes,
    sanitizeType ("InputSignal<" ++ t ++ ">") = ("InputSignal<" ++ t ++ ">" : Text) := by
  decide +kernel

theorem sanitizeType_unresolved :
    ∀ t ∈ unresolvedSignals, sanitizeType t = ("unknown" : Text) := by
  decide +kernel

theorem literalType_of_widensTo (h : WidensTo a t) (ha : ¬ IsBigInt a) :
    literalType a = t ∧ t ∈ literalTypes := by
  cases h with
  | number isNumber => exact ⟨by rw [literalType, isNumber], by decide⟩
  | bigint isBigInt => exact (ha isBigInt).elim
  | string isString => exact ⟨by rcases isString with h | h <;> rw [literalType, h], by decide⟩
  | boolean isBoolean => exact ⟨by rcases isBoolean with h | h <;> rw [literalType, h], by decide⟩
  | null isNull => exact ⟨by rw [literalType, isNull], by decide⟩
  | undefined isUndefined => exact ⟨by rw [literalType, isUndefined], by decide⟩

theorem literalType_of_forall_not (h : ∀ t, ¬ WidensTo a t) : literalType a = unknownType := by
  by_cases ha : IsBigInt a
  · exact (h _ (.bigint ha)).elim
  · unfold literalType
    split
    · next hk => exact (h _ (.number hk ha)).elim
    · next hk => exact (h _ (.string (.inl hk))).elim
    · next hk => exact (h _ (.string (.inr hk))).elim
    · next hk => exact (h _ (.boolean (.inl hk))).elim
    · next hk => exact (h _ (.boolean (.inr hk))).elim
    · next hk => exact (h _ (.null hk)).elim
    · next hk => exact (h _ (.undefined hk)).elim
    · rfl

/-- The signal of a call is resolved if the call is a bare input with a literal. -/
theorem sanitizeType_inferredSignal
    (h : FactoryCall call .input false → ∀ a, call.callArguments.head? = some a →
      ∀ t, ¬ WidensTo a t) :
    sanitizeType (inferredSignal call (CallShape.ofNode call)) = ("unknown" : Text) := by
  cases hshape : CallShape.ofNode call with
  | bareInput =>
    have hnone := h (CallShape.ofNode_eq_bareInput_iff.1 hshape)
    unfold inferredSignal
    cases ha : call.callArguments.head? with
    | none => exact sanitizeType_unresolved _ (by decide)
    | some a =>
      dsimp only
      rw [literalType_of_forall_not (hnone a ha)]
      exact sanitizeType_unresolved _ (by decide)
  | bareOutput => exact sanitizeType_unresolved "OutputEmitterRef<unknown>" (by decide)
  | requiredInput | other => exact sanitizeType_unresolved "InputSignal<unknown>" (by decide)

theorem sanitizeType_inferredSignal_of_literal (hcall : FactoryCall call .input false)
    (ha : call.callArguments.head? = some a) (ht : literalType a = t) (hmem : t ∈ literalTypes) :
    sanitizeType (inferredSignal call (CallShape.ofNode call)) =
      ("InputSignal<" ++ t ++ ">" : Text) := by
  rw [CallShape.ofNode_eq_bareInput_iff.2 hcall, inferredSignal, ha]
  dsimp only
  rw [ht]
  exact sanitizeType_signal t hmem

/-- Without type arguments and without an ascription, the type is that of the signal. -/
theorem memberType_eq {f : Field} (hf : f.ascription = field.ascribedType?) (shape : CallShape) :
    memberType f call shape = match call.callTypeArguments.head? with
      | some t => t.sourceText
      | none => match field.ascribedType? with
        | some t => t.sourceText
        | none => sanitizeType (inferredSignal call shape) := by
  rw [← hf]
  rfl

theorem typeOf_memberType {f : Field} (hf : f.ascription = field.ascribedType?)
    (h : ¬ TakesBigInt field call) :
    TypeOf field call (memberType f call (CallShape.ofNode call)) := by
  rw [memberType_eq hf]
  cases hbare : call.callTypeArguments.head? with
  | some t => exact .argument hbare
  | none =>
    rw [List.head?_eq_none_iff] at hbare
    cases hwritten : field.ascribedType? with
    | some t => exact .ascribed hbare hwritten
    | none =>
      dsimp only
      by_cases hliteral : ∃ a t, FactoryCall call .input false ∧
          call.callArguments.head? = some a ∧ WidensTo a t
      · obtain ⟨a, t, hcall, ha, hwidens⟩ := hliteral
        have hsmall : ¬ IsBigInt a := fun hb => h ⟨hbare, hwritten, hcall, a, ha, hb⟩
        obtain ⟨ht, hmem⟩ := literalType_of_widensTo hwidens hsmall
        rw [sanitizeType_inferredSignal_of_literal hcall ha ht hmem]
        exact .literal hbare hwritten hcall ha hwidens
      · have hnothing : FactoryCall call .input false → ∀ a, call.callArguments.head? = some a →
            ∀ t, ¬ WidensTo a t :=
          fun hcall a ha t hwidens => hliteral ⟨a, t, hcall, ha, hwidens⟩
        rw [sanitizeType_inferredSignal hnothing]
        exact .unknown hbare hwritten hnothing

/-- A big integer is taken for a number. -/
theorem memberType_of_takesBigInt {f : Field} (hf : f.ascription = field.ascribedType?)
    (h : TakesBigInt field call) :
    memberType f call (CallShape.ofNode call) = ("InputSignal<number>" : Text) := by
  obtain ⟨hbare, hwritten, hcall, a, ha, hbig⟩ := h
  rw [memberType_eq hf, hbare, hwritten]
  have hnumber : literalType a = ("number" : Text) := by rw [literalType, hbig.1]
  exact sanitizeType_inferredSignal_of_literal hcall ha hnumber (by decide)

end Types

/-! ### What a field makes -/

section Fields

variable {field name call : Node}

theorem nameText_of_keyName? {key : Option Text} (h : name.keyName? = .ok key) :
    NameText name (key.getD name.sourceText) := by
  unfold keyName? at h
  split at h
  · next hstring =>
    rw [stringValue?, if_pos hstring, exceptMap_eq_ok] at h
    obtain ⟨t, ht, rfl⟩ := h
    refine .quoted hstring ?_
    rw [stringValue?, if_pos hstring, ht]
    rfl
  · next hk =>
    cases h
    exact .plain (by rw [hk]; decide)
  · next hk =>
    cases h
    exact .plain (by rw [hk]; decide)
  · next hk =>
    cases h
    exact .plain (by rw [hk]; decide)
  · next hk =>
    cases h
    exact .plain (by rw [hk]; decide)
  · next hk _ _ _ _ =>
    cases h
    exact .plain hk

/-- A field of a clean tree is read. -/
theorem IsClean.memberOfField? (h : field.IsClean) :
    ∃ o, CustomElements.memberOfField? field = .ok o :=
  (memberOfField?_ok_iff (IsClean.hasEscapes h)).2 fun _ hname =>
    .of_sensible (IsClean.sensible h) hname

/-- A field that makes a member contributes that member. -/
theorem memberOfField?_of_makesMember (h : field.IsClean) {kind : MemberKind} {required : Bool}
    (hmade : MakesMember field name call kind required) :
    ∃ m, memberOfField? field = .ok (some m) ∧ IsMemberOf field name call m := by
  obtain ⟨hname, hvalue, hcall⟩ := hmade
  obtain ⟨hkind, hrequired⟩ := CallShape.ofNode_of_factoryCall hcall
  obtain ⟨o, ho⟩ := IsClean.memberOfField? h
  have hread := ho
  rw [memberOfField?_of_name hname, exceptBind_eq_ok] at hread
  obtain ⟨key, hkey, hmember⟩ := hread
  rw [Field.member?_of_kind hvalue hkind, exceptBind_eq_ok] at hmember
  obtain ⟨r, hr, hmember⟩ := hmember
  obtain rfl := Except.ok.inj hmember
  refine ⟨_, ho, ⟨hname, hvalue, ?_⟩, nameText_of_keyName? hkey, ?_, ?_, ?_⟩
  · dsimp only
    rwa [hrequired]
  · exact typeOf_memberType (IsClean.fieldType? h)
  · exact memberType_of_takesBigInt (IsClean.fieldType? h)
  · exact fun a => aliasAmong_eq_some_iff hr

theorem memberOfField?_of_not_makesMember (h : field.IsClean)
    (hnone : ∀ name call kind required, ¬ MakesMember field name call kind required) :
    memberOfField? field = .ok none := by
  by_cases hnamed : ∃ name, field.IsFieldName name
  · obtain ⟨name, hname⟩ := hnamed
    obtain ⟨o, ho⟩ := IsClean.memberOfField? h
    have hread := ho
    rw [memberOfField?_of_name hname, exceptBind_eq_ok] at hread
    obtain ⟨key, -, hmember⟩ := hread
    rw [Field.member?_of_other fun call hvalue => ?_] at hmember
    · rw [ho, ← hmember]
    · refine Option.eq_none_iff_forall_ne_some.2 fun kind hkind => ?_
      exact hnone name call kind _ ⟨hname, hvalue, factoryCall_of_kind? hkind⟩
  · exact memberOfField?_of_nameless (not_exists.1 hnamed)

/-- What the fields of a row contribute are the members that they make. -/
theorem extracts_of_forall₂ {fields : List Node} {os : List (Option Member)}
    (h : ∀ field ∈ fields, field.IsClean)
    (hos : List.Forall₂ (fun n o => memberOfField? n = .ok o) fields os) :
    Extracts fields (os.filterMap id) := by
  induction hos with
  | nil => exact .nil
  | @cons field o fields os hfield _ ih =>
    obtain ⟨hplain, hrest⟩ := List.forall_mem_cons.1 h
    by_cases hmade : ∃ name call kind required, MakesMember field name call kind required
    · obtain ⟨name, call, kind, required, hmade⟩ := hmade
      obtain ⟨m, hm, hof⟩ := memberOfField?_of_makesMember hplain hmade
      obtain rfl := Except.ok.inj (hfield.symm.trans hm)
      exact .member hof (ih hrest)
    · simp only [not_exists] at hmade
      have hnone := memberOfField?_of_not_makesMember hplain hmade
      obtain rfl := Except.ok.inj (hfield.symm.trans hnone)
      exact .other hmade (ih hrest)

/-- Fields of clean trees contribute something or nothing, but do not fail. -/
theorem exists_extracts {fields : List Node} (h : ∀ field ∈ fields, field.IsClean) :
    ∃ os, List.Forall₂ (fun n o => memberOfField? n = .ok o) fields os ∧
      Extracts fields (os.filterMap id) := by
  obtain ⟨os, hos⟩ := exceptMapM_ok_iff.2 fun field hf => IsClean.memberOfField? (h field hf)
  rw [exceptMapM_eq_ok] at hos
  exact ⟨os, hos, extracts_of_forall₂ h hos⟩

theorem IsMemberOf.publicName_ne_nil {m : Member} (h : IsMemberOf field name call m) :
    m.publicName ≠ some [] := by
  intro hnil
  obtain ⟨n, -, hgives⟩ := (h.publicName []).1 hnil
  exact hgives.2.1 rfl

theorem Extracts.publicName_ne_nil {fields : List Node} {ms : List Member}
    (h : Extracts fields ms) : ∀ m ∈ ms, m.publicName ≠ some [] := by
  induction h with
  | nil => exact List.forall_mem_nil _
  | member here _ ih => exact List.forall_mem_cons.2 ⟨here.publicName_ne_nil, ih⟩
  | other _ _ ih => exact ih

end Fields

/-- The members of a class are what its fields make, one for each field that makes any, in
declaration order. With more fields between its fields, the class has the same members and those of
the new fields between them. -/
theorem members_extracted {c : ClassDeclaration} (h : c.node.IsClean) :
    (∃ ms, c.members = .ok ms ∧ Extracts c.fieldNodes ms ∧ ∀ m ∈ ms, m.publicName ≠ some []) ∧
    ∀ (c' : ClassDeclaration) (before inserted after : List Node), c'.node.IsClean →
      c.fieldNodes = before ++ after → c'.fieldNodes = before ++ inserted ++ after →
      ∃ first added last, c.members = .ok (first ++ last) ∧
        c'.members = .ok (first ++ added ++ last) ∧
        Extracts before first ∧ Extracts inserted added ∧ Extracts after last := by
  have hclean {d : ClassDeclaration} (hd : d.node.IsClean) : ∀ field ∈ d.fieldNodes, field.IsClean :=
    fun field hf => ClassDeclaration.everywhere_field hd hf
  constructor
  · obtain ⟨os, hos, hextracts⟩ := exists_extracts (hclean h)
    exact ⟨os.filterMap id, ClassDeclaration.members_eq_ok_iff.2 ⟨os, hos, rfl⟩, hextracts,
      hextracts.publicName_ne_nil⟩
  · intro c' before inserted after h' hfields hfields'
    have hall := hclean h'
    rw [hfields', List.forall_mem_append, List.forall_mem_append] at hall
    obtain ⟨first, hfirst, hextractsFirst⟩ := exists_extracts hall.1.1
    obtain ⟨added, hadded, hextractsAdded⟩ := exists_extracts hall.1.2
    obtain ⟨last, hlast, hextractsLast⟩ := exists_extracts hall.2
    refine ⟨_, _, _, ?_, ?_, hextractsFirst, hextractsAdded, hextractsLast⟩
    · rw [ClassDeclaration.members_eq_ok_iff, hfields, ← List.filterMap_append]
      exact ⟨first ++ last, List.rel_append hfirst hlast, rfl⟩
    · rw [ClassDeclaration.members_eq_ok_iff, hfields', ← List.filterMap_append,
        ← List.filterMap_append]
      exact ⟨first ++ added ++ last, List.rel_append (List.rel_append hfirst hadded) hlast, rfl⟩

/-- A class of some fields. -/
def classOfFields (fields : List Node) : ClassDeclaration :=
  ⟨.branch .classDeclaration [.branch .classBody fields], []⟩

/-- A field `name = callee(argument)`. -/
def callField (name callee : List Char) (argument : Node) : Node :=
  .branch .field [.leaf .propertyName name, .branch .initializer [.leaf .mark ['='],
    .branch .call [.leaf .identifier callee,
      .branch .arguments [.leaf .mark ['('], argument, .leaf .mark [')']]]]]

def inputField : Node := callField ['a'] "input".toList (.leaf .number ['1'])

def outputField : Node := callField ['b'] "output".toList (.leaf .nullLiteral "null".toList)

def plainField : Node := callField ['c'] "f".toList (.leaf .number ['2'])

/-- An output between an input and a field that makes no member. -/
theorem members_extracted_fields : ∃ first added last,
    (classOfFields [inputField, plainField]).members = .ok (first ++ last) ∧
    (classOfFields [inputField, outputField, plainField]).members = .ok (first ++ added ++ last) ∧
    Extracts [inputField] first ∧ Extracts [outputField] added ∧ Extracts [plainField] last := by
  have hclean {n : Node}
      (h : n.Everywhere fun m => m.kind ≠ .comment ∧ m.kind ≠ .escape) : n.IsClean :=
    h.mono fun m hm => ⟨hm.1, fun hk => (hm.2 hk).elim⟩
  exact (members_extracted (c := classOfFields [inputField, plainField]) (hclean (by decide))).2
    (classOfFields [inputField, outputField, plainField]) [inputField] [outputField] [plainField]
    (hclean (by decide)) rfl rfl

end CustomElements
