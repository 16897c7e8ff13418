import CustomElements.Component.Member
import CustomElements.Proofs.Answers
import CustomElements.Proofs.Component.Agreement
import CustomElements.Proofs.Component.StringProperties
import CustomElements.Proofs.FirstMatch

/-!
# Which members can be listed

What a field of a class contributes to the members of the class depends on that field alone
(`members_eq_ok_iff`), and the members can be listed if each field can be read (`members_ok_iff`).

They are determined by literals at three places: the names of fields, the keys of the objects that a
call is given, and the values of their aliases. The list fails if one of these names a number beyond
those of the code points, and only then (`members_ok_iff_readable`). In a class without such literals
it never fails (`members_ok_of_sensible`).
-/

namespace CustomElements

open TypeScript (Node Kind EscapeError)
open TypeScript.Node

/-! ### Members field by field -/

namespace TypeScript.Node

/-- The kinds of the names that fields are written under. -/
def fieldNameKinds : List Kind := [.string, .number, .privateName, .computedName, .propertyName]

/-- The name of a field is the first of its children that can be one. -/
def IsFieldName (field name : Node) : Prop :=
  IsFirst (fun c => c.kind ∈ fieldNameKinds) field.children name

theorem find?_eq_some_iff_isFieldName {field name : Node} :
    field.children.find? (fun c => decide (c.kind ∈ fieldNameKinds)) = some name ↔
      field.IsFieldName name := by
  simp only [find?_eq_some_iff_isFirst, decide_eq_true_eq, IsFieldName]

/-- The initial value of a field, if it has one. -/
def fieldValue? (field : Node) : Option Node := do (← field.child? .initializer).parts.getLast?

/-- The first node of the ascription of a field, comments included. -/
def fieldType? (field : Node) : Option Node :=
  do (← field.child? .ascription).namedChildren.head?

end TypeScript.Node

theorem Field.ofNode?_eq (n : Node) :
    Field.ofNode? n = (n.children.find? fun c => decide (c.kind ∈ Node.fieldNameKinds)).elim
      (.ok none) fun name => name.keyName? >>= fun key => .ok (some {
        name := key.getD name.sourceText
        ascription := n.fieldType?
        initializer := n.fieldValue? }) := by
  have hsearch {p : Node → Bool} {found : Option Node}
      (hp : ∀ c, decide (c.kind ∈ Node.fieldNameKinds) = p c) (h : n.children.find? p = found) :
      n.children.find? (fun c => decide (c.kind ∈ Node.fieldNameKinds)) = found :=
    (congrArg (fun p => n.children.find? p) (funext hp)).trans h
  rw [Field.ofNode?]
  split
  · next hfind =>
    rw [hsearch (fun c => by cases c.kind <;> rfl) hfind]
    rfl
  · next name hfind =>
    rw [hsearch (fun c => by cases c.kind <;> rfl) hfind]
    rfl

/-- A field is read if its name is. -/
theorem Field.ofNode?_of_name {n name : Node} (h : n.IsFieldName name) :
    Field.ofNode? n = name.keyName? >>= fun key => .ok (some {
      name := key.getD name.sourceText
      ascription := n.fieldType?
      initializer := n.fieldValue? }) := by
  rw [Field.ofNode?_eq, Node.find?_eq_some_iff_isFieldName.2 h]
  rfl

theorem Field.ofNode?_of_nameless {n : Node} (h : ∀ name, ¬ n.IsFieldName name) :
    Field.ofNode? n = .ok none := by
  rw [Field.ofNode?_eq]
  cases hfind : n.children.find? fun c => decide (c.kind ∈ Node.fieldNameKinds) with
  | none => rfl
  | some name => exact (h name (Node.find?_eq_some_iff_isFieldName.1 hfind)).elim

/-- What a field of a class body contributes to the members of the class. -/
def memberOfField? (n : Node) : Except EscapeError (Option Member) := do
  match ← Field.ofNode? n with
  | some f => f.member?
  | none => return none

theorem memberOfField?_of_name {n name : Node} (h : n.IsFieldName name) :
    memberOfField? n = name.keyName? >>= fun key => Field.member? {
      name := key.getD name.sourceText
      ascription := n.fieldType?
      initializer := n.fieldValue? } := by
  rw [memberOfField?, Field.ofNode?_of_name h]
  cases name.keyName? <;> rfl

theorem memberOfField?_of_nameless {n : Node} (h : ∀ name, ¬ n.IsFieldName name) :
    memberOfField? n = .ok none := by
  rw [memberOfField?, Field.ofNode?_of_nameless h]
  rfl

/-- A field whose initial value makes a member has one as soon as the alias is found. -/
theorem Field.member?_of_kind {f : Field} {call : Node} {kind : MemberKind}
    (hvalue : f.initializer = some call) (hkind : (CallShape.ofNode call).kind? = some kind) :
    f.member? = aliasOf call >>= fun r => .ok (some {
      name := f.name
      kind := kind
      required := decide (CallShape.ofNode call = .requiredInput)
      type := memberType f call (CallShape.ofNode call)
      publicName := r }) := by
  rw [member?, hvalue]
  dsimp only
  rw [hkind]
  rfl

/-- Other fields have none. -/
theorem Field.member?_of_other {f : Field}
    (h : ∀ call, f.initializer = some call → (CallShape.ofNode call).kind? = none) :
    f.member? = .ok none := by
  rw [member?]
  cases hvalue : f.initializer with
  | none => rfl
  | some call =>
    dsimp only
    rw [h call hvalue]

namespace ClassDeclaration

/-- The fields of the body of a class in declaration order. -/
def fieldNodes (c : ClassDeclaration) : List Node :=
  match c.node.child? .classBody with
  | some body => body.childrenOf .field
  | none => []

variable {c : ClassDeclaration} {ms : List Member}

theorem fields_eq (c : ClassDeclaration) :
    c.fields = (fun fs => fs.filterMap id) <$> c.fieldNodes.mapM Field.ofNode? := by
  rw [fields, fieldNodes]
  cases c.node.child? .classBody with
  | none => rfl
  | some body => rfl

/-- Reading all fields and then the members of all of them is reading them one by one. -/
theorem forall₂_memberOfField?_iff {ns : List Node} :
    (∃ os, List.Forall₂ (fun n o => memberOfField? n = .ok o) ns os ∧ ms = os.filterMap id) ↔
      ∃ fs os, List.Forall₂ (fun n f => Field.ofNode? n = .ok f) ns fs ∧
        List.Forall₂ (fun f o => Field.member? f = .ok o) (fs.filterMap id) os ∧
        ms = os.filterMap id := by
  constructor
  · rintro ⟨os, hos, rfl⟩
    induction hos with
    | nil => exact ⟨[], [], .nil, .nil, rfl⟩
    | @cons n o ns os hn _ ih =>
      obtain ⟨fs, os', hfs, hos', hms⟩ := ih
      obtain ⟨f, hf, ho⟩ := exceptBind_eq_ok.1 hn
      cases f with
      | none =>
        obtain rfl := Except.ok.inj ho
        exact ⟨none :: fs, os', .cons hf hfs, hos', hms⟩
      | some f =>
        refine ⟨some f :: fs, o :: os', .cons hf hfs, .cons ho hos', ?_⟩
        rw [List.filterMap_cons, hms, List.filterMap_cons]
  · rintro ⟨fs, os, hfs, hos, rfl⟩
    induction hfs generalizing os with
    | nil =>
      cases hos
      exact ⟨[], .nil, rfl⟩
    | @cons n f ns fs hn _ ih =>
      cases f with
      | none =>
        obtain ⟨os', hos', hms⟩ := ih os hos
        exact ⟨none :: os', .cons (exceptBind_eq_ok.2 ⟨none, hn, rfl⟩) hos', hms⟩
      | some f =>
        obtain ⟨o, os, ho, hrest, rfl⟩ := List.forall₂_cons_left_iff.1 hos
        obtain ⟨os', hos', hms⟩ := ih os hrest
        refine ⟨o :: os', .cons (exceptBind_eq_ok.2 ⟨some f, hn, ho⟩) hos', ?_⟩
        rw [List.filterMap_cons, hms, List.filterMap_cons]

/-- The members of a class are what its fields contribute, one after the other. -/
theorem members_eq_ok_iff : c.members = .ok ms ↔
    ∃ os, List.Forall₂ (fun n o => memberOfField? n = .ok o) c.fieldNodes os ∧
      ms = os.filterMap id := by
  rw [forall₂_memberOfField?_iff, members, exceptBind_eq_ok]
  constructor
  · rintro ⟨fs, hfs, h⟩
    rw [fields_eq, exceptMap_eq_ok] at hfs
    obtain ⟨read, hread, rfl⟩ := hfs
    obtain ⟨os, hos, h⟩ := exceptBind_eq_ok.1 h
    exact ⟨read, os, exceptMapM_eq_ok.1 hread, exceptMapM_eq_ok.1 hos, (Except.ok.inj h).symm⟩
  · rintro ⟨read, os, hread, hos, rfl⟩
    refine ⟨read.filterMap id, ?_, exceptBind_eq_ok.2 ⟨os, exceptMapM_eq_ok.2 hos, rfl⟩⟩
    rw [fields_eq, exceptMap_eq_ok]
    exact ⟨read, exceptMapM_eq_ok.2 hread, rfl⟩

/-- The members of a class can be listed if each of its fields can be read. -/
theorem members_ok_iff :
    (∃ ms, c.members = .ok ms) ↔ ∀ n ∈ c.fieldNodes, ∃ o, memberOfField? n = .ok o := by
  rw [← exceptMapM_ok_iff]
  simp only [members_eq_ok_iff, exceptMapM_eq_ok]
  exact ⟨fun ⟨_, os, hos, _⟩ => ⟨os, hos⟩, fun ⟨os, hos⟩ => ⟨_, os, hos, rfl⟩⟩

end ClassDeclaration

/-! ### The literals of a member -/

/-- The arguments in which the alias of a call is looked for can be looked at, up to the first one
that gives an alias. -/
def ReadableAlias (call : Node) : Prop :=
  UpToFirst GivesAlias (fun n => n.kind = .object → n.ReadableProperty aliasKey)
    (call.callArguments.take 2)

/-- A field of which the member can be determined. -/
structure ReadableField (field name : Node) : Prop where
  sensible : ¬ name.IsSenseless
  readable : ∀ call, field.fieldValue? = some call → (CallShape.ofNode call).kind? ≠ none →
    ReadableAlias call

namespace TypeScript.Node

variable {P : Node → Prop} {n a field call : Node}

theorem Everywhere.callArgument (h : n.Everywhere P) (ha : a ∈ n.callArguments) :
    a.Everywhere P := by
  rw [callArguments] at ha
  split at ha
  · next list hlist => exact (h.child (of_find?_key hlist).1).part ha
  · cases ha

theorem Everywhere.fieldValue (h : field.Everywhere P) (hcall : field.fieldValue? = some call) :
    call.Everywhere P := by
  obtain ⟨initializer, hinit, hlast⟩ := Option.bind_eq_some_iff.1 hcall
  exact (h.child (of_find?_key hinit).1).part (List.mem_of_getLast? hlast)

end TypeScript.Node

theorem aliasOf_ok_iff {call : Node} (h : call.HasEscapes) :
    (∃ r, aliasOf call = .ok r) ↔ ReadableAlias call :=
  aliasAmong_ok_iff fun _ ha => h.callArgument (List.mem_of_mem_take ha)

/-- Only the alias of a call can fail to be read. -/
theorem Field.member?_ok_iff {f : Field} : (∃ o, f.member? = .ok o) ↔
    ∀ call, f.initializer = some call → (CallShape.ofNode call).kind? ≠ none →
      ∃ r, aliasOf call = .ok r := by
  by_cases h : ∃ call kind, f.initializer = some call ∧ (CallShape.ofNode call).kind? = some kind
  · obtain ⟨call, kind, hvalue, hkind⟩ := h
    rw [member?_of_kind hvalue hkind]
    simp only [hvalue, Option.some.injEq, forall_eq']
    rw [hkind, forall_prop_of_true (Option.some_ne_none kind)]
    constructor
    · rintro ⟨o, ho⟩
      obtain ⟨r, hr, -⟩ := exceptBind_eq_ok.1 ho
      exact ⟨r, hr⟩
    · rintro ⟨r, hr⟩
      exact ⟨_, exceptBind_eq_ok.2 ⟨r, hr, rfl⟩⟩
  · have hother : ∀ call, f.initializer = some call → (CallShape.ofNode call).kind? = none :=
      fun call hvalue => Option.eq_none_iff_forall_ne_some.2 fun kind hkind =>
        h ⟨call, kind, hvalue, hkind⟩
    rw [member?_of_other hother]
    exact iff_of_true ⟨none, rfl⟩ fun call hvalue hkind => (hkind (hother call hvalue)).elim

/-- A field is read if its name and the alias of its call are. -/
theorem memberOfField?_ok_iff {field : Node} (h : field.HasEscapes) :
    (∃ o, memberOfField? field = .ok o) ↔ ∀ name, field.IsFieldName name →
      ReadableField field name := by
  by_cases hnamed : ∃ name, field.IsFieldName name
  · obtain ⟨name, hname⟩ := hnamed
    have hunique : ∀ other, field.IsFieldName other ↔ name = other := by
      intro other
      rw [← find?_eq_some_iff_isFieldName, find?_eq_some_iff_isFieldName.2 hname, Option.some.injEq]
    have hkey := HasEscapes.keyName?_ok_iff (h.child hname.mem)
    simp only [hunique, forall_eq', memberOfField?_of_name hname]
    cases hk : name.keyName? with
    | error e =>
      refine iff_of_false nofun fun hread => ?_
      obtain ⟨t, ht⟩ := hkey.2 hread.sensible
      rw [hk] at ht
      cases ht
    | ok key =>
      have hsense : ¬ name.IsSenseless := hkey.1 ⟨key, hk⟩
      refine Field.member?_ok_iff.trans ?_
      constructor
      · exact fun hcall => ⟨hsense, fun call hvalue hkind =>
          (aliasOf_ok_iff (h.fieldValue hvalue)).1 (hcall call hvalue hkind)⟩
      · exact fun hread call hvalue hkind =>
          (aliasOf_ok_iff (h.fieldValue hvalue)).2 (hread.readable call hvalue hkind)
  · rw [not_exists] at hnamed
    rw [memberOfField?_of_nameless hnamed]
    exact iff_of_true ⟨none, rfl⟩ fun name hname => (hnamed name hname).elim

namespace ClassDeclaration

variable {c : ClassDeclaration} {field : Node}

/-- What holds everywhere in a class holds everywhere in its fields. -/
theorem everywhere_field {P : Node → Prop} (h : c.node.Everywhere P) (hf : field ∈ c.fieldNodes) :
    field.Everywhere P := by
  rw [fieldNodes] at hf
  split at hf
  · next body hbody => exact (h.child (of_find?_key hbody).1).child (List.mem_of_mem_filter hf)
  · cases hf

theorem members_ok_iff_of_hasEscapes (h : c.node.HasEscapes) : (∃ ms, c.members = .ok ms) ↔
    ∀ field ∈ c.fieldNodes, ∀ name, field.IsFieldName name → ReadableField field name := by
  rw [members_ok_iff]
  exact forall₂_congr fun field hf => memberOfField?_ok_iff (everywhere_field h hf)

end ClassDeclaration

theorem hasEscapes_of_mem_classes {w : Workspace} (hw : w.Reached) {c : LocatedClass}
    (hc : c ∈ w.project.classes) : c.declaration.node.HasEscapes := by
  obtain ⟨hfile, hclass⟩ := Project.mem_classes.1 hc
  obtain ⟨source, hparsed⟩ := (hw.isSound.project.loaded _ hfile).parsed
  obtain ⟨statement, hstatement, hof⟩ := List.mem_filterMap.1 hclass
  exact ClassDeclaration.everywhere_node
    ((TypeScript.escape_of_parse? hparsed).child hstatement) hof

/-- The members of a class of a loaded file can be listed if and only if the name of each of its
fields denotes a text and, for each field that is a member, so do the keys and the value that are
looked at for its alias. What stands in the way is an escape sequence with a number beyond those of
the code points, and nothing else. -/
theorem members_ok_iff_readable {w : Workspace} (hw : w.Reached) {c : LocatedClass}
    (hc : c ∈ w.project.classes) : (∃ ms, c.declaration.members = .ok ms) ↔
      ∀ field ∈ c.declaration.fieldNodes, ∀ name, field.IsFieldName name →
        ReadableField field name :=
  ClassDeclaration.members_ok_iff_of_hasEscapes (hasEscapes_of_mem_classes hw hc)

/-- A file with two classes, of which the first has a field whose name is beyond all code points. -/
def escapedNames : List Char :=
  "class A\x7b'\\u\x7b110000\x7d'=1\x7dclass B\x7b'\\u\x7b10ffff\x7d'=input()\x7d".toList

def escapedTree : Node := (TypeScript.parse? .plain escapedNames).getD (.branch .source [])

def escapedFile : SourceFile := ⟨"/ws/a.ts", escapedTree⟩

def escapedWorkspace : Workspace := { Workspace.bare with
  files := .dir [("ws", .dir [("a.ts", .file (Bytes.ofChars escapedNames))])] }

theorem parse?_escapedNames : TypeScript.parse? .plain escapedNames = some escapedTree := by
  have hparsed : (TypeScript.parse? .plain escapedNames).isSome := by decide +kernel
  obtain ⟨tree, htree⟩ := Option.isSome_iff_exists.1 hparsed
  rw [escapedTree, htree, Option.getD_some]

theorem escapedWorkspace_reached : (escapedWorkspace.withSource escapedFile).Reached := by
  have hnames : ∀ n ∈ escapedWorkspace.files.names, IsFileName n := by
    have hlist : escapedWorkspace.files.names = [("ws" : Text), ("a.ts" : Text)] := rfl
    rw [hlist, List.forall_mem_cons, List.forall_mem_singleton]
    exact ⟨⟨by decide, by decide, by decide, by decide, rfl⟩,
      ⟨by decide, by decide, by decide, by decide, rfl⟩⟩
  have hsource : escapedWorkspace.source "/ws/a.ts" = .ok escapedFile :=
    Workspace.source_of_parsed rfl rfl parse?_escapedNames
  have hloaded := Workspace.Reached.step (.start hnames rfl) (.require "/ws/a.ts")
  rwa [LoadStep.after_require (q := "/ws/a.ts") rfl rfl hsource] at hloaded

theorem members_escapedFile :
    escapedFile.classes.map (fun c => c.members.toOption.isSome) = [false, true] := by
  decide +kernel

/-- The first class has an unreadable field, the second one has none. -/
theorem members_ok_iff_readable_escapedNames : ∃ c d,
    (escapedWorkspace.withSource escapedFile).project.classes = [c, d] ∧
    (∃ field ∈ c.declaration.fieldNodes, ∃ name, field.IsFieldName name ∧
      ¬ ReadableField field name) ∧
    ∀ field ∈ d.declaration.fieldNodes, ∀ name, field.IsFieldName name →
      ReadableField field name := by
  have hclasses : (escapedWorkspace.withSource escapedFile).project.classes =
      escapedFile.classes.map fun c => ⟨escapedFile, c⟩ := List.append_nil _
  obtain ⟨c, rest, hsplit, hc, hrest⟩ := List.map_eq_cons_iff.1 members_escapedFile
  obtain ⟨d, rfl, hd⟩ := List.map_eq_singleton_iff.1 hrest
  rw [hsplit] at hclasses
  refine ⟨⟨escapedFile, c⟩, ⟨escapedFile, d⟩, hclasses, ?_, ?_⟩
  · have hread := members_ok_iff_readable escapedWorkspace_reached (c := ⟨escapedFile, c⟩)
      (hclasses ▸ List.mem_cons_self)
    rw [exists_eq_ok_iff_isSome, hc] at hread
    simpa only [Bool.false_eq_true, false_iff, not_forall, exists_prop] using hread
  · have hread := members_ok_iff_readable escapedWorkspace_reached (c := ⟨escapedFile, d⟩)
      (hclasses ▸ List.mem_cons_of_mem _ List.mem_cons_self)
    rw [exists_eq_ok_iff_isSome, hd] at hread
    exact hread.1 rfl

theorem ReadableField.of_sensible {field name : Node} (h : field.Everywhere fun n => ¬ n.IsSenseless)
    (hname : field.IsFieldName name) : ReadableField field name where
  sensible := (h.child hname.mem).here
  readable _ hcall _ := upToFirst_of_forall fun _ hn _ =>
    .of_sensible ((h.fieldValue hcall).callArgument (List.mem_of_mem_take hn))

/-- In a class without senseless literals, the members can always be listed. -/
theorem members_ok_of_sensible {c : ClassDeclaration} (h : c.node.HasEscapes)
    (hsense : c.node.Everywhere fun n => ¬ n.IsSenseless) : ∃ ms, c.members = .ok ms := by
  refine (ClassDeclaration.members_ok_iff_of_hasEscapes h).2 fun field hf name hname => ?_
  exact .of_sensible (ClassDeclaration.everywhere_field hsense hf) hname

end CustomElements
