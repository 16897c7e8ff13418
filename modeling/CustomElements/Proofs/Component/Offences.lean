import CustomElements.Proofs.Component.ExtractedMembers
import CustomElements.Proofs.Component.MarkedClasses
import CustomElements.Proofs.RelatedAnswers

/-!
# The first offence

Discovery walks through the classes of a project in order and stops at the first one that is an
offence: a marked class that is no element, or an element whose tag a class before it has already.
So its answer has an entry for each marked class if there is no offence, and otherwise its failure
is that of the first offence.
-/

namespace CustomElements

open CustomElements.Action

namespace LocatedClass

/-- What is wrong with a class that stands behind these classes. -/
inductive Offence (rule : DiscoveryRule) (before : List LocatedClass) (c : LocatedClass) :
    Mistake → Prop
  | unfit {m : Mistake} (h : c.IsUnfit rule m) : Offence rule before c m
  | repeated {o : LocatedClass} {first second : ElementEntry} (here : c.IsEntry rule second)
      (owner : o ∈ before) (there : o.IsEntry rule first) (same : first.tag = second.tag) :
      Offence rule before c
        (.duplicateTag second.tag (some (first.component, second.component)))

/-- The decorators of the class hold string literals that denote texts. -/
def IsSensible (c : LocatedClass) : Prop := ∀ n ∈ c.declaration.decoratorNodes, n.IsSensible

end LocatedClass

/-- No class among these is an offence behind those before it. -/
def IsOrderly (rule : DiscoveryRule) (cs : List LocatedClass) : Prop :=
  ∀ before c after, cs = before ++ c :: after → ∀ m, ¬ c.Offence rule before m

section Walking

variable {rule : DiscoveryRule} {found es : List ElementEntry} {before cs rest : List LocatedClass}
  {c : LocatedClass} {f : Failure}

/-- A walk is a step at its first class, and a walk from there unless the step ends it. -/
theorem elementsFrom_cons (rule : DiscoveryRule) (found : List ElementEntry) (c : LocatedClass)
    (cs : List LocatedClass) : elementsFrom rule found (c :: cs) =
      match elementsFrom rule found [c] with
      | (es, none) => elementsFrom rule es cs
      | (es, some f) => (es, some f) := by
  rw [elementsFrom, elementsFrom]
  cases c.element? rule with
  | error f => rfl
  | ok o =>
    cases o with
    | none => rfl
    | some e =>
      dsimp only
      cases found.find? fun o => decide (o.tag = e.tag) <;> rfl

/-- A walk in two parts. -/
theorem elementsFrom_append (rule : DiscoveryRule) (found : List ElementEntry)
    (before rest : List LocatedClass) : elementsFrom rule found (before ++ rest) =
      match elementsFrom rule found before with
      | (es, none) => elementsFrom rule es rest
      | (es, some f) => (es, some f) := by
  induction before generalizing found with
  | nil => rfl
  | cons b before ih =>
    rw [List.cons_append, elementsFrom_cons, elementsFrom_cons rule found b before]
    rcases elementsFrom rule found [b] with ⟨es, _ | f⟩
    · exact ih es
    · rfl

/-- A walk fails at a class that it comes to without a failure. -/
theorem elementsFrom_failure_iff : (elementsFrom rule found cs).2 = some f ↔
    ∃ before c after es, cs = before ++ c :: after ∧
      elementsFrom rule found before = (es, none) ∧ (elementsFrom rule es [c]).2 = some f := by
  constructor
  · intro hf
    induction cs generalizing found with
    | nil => cases hf
    | cons c cs ih =>
      rw [elementsFrom_cons] at hf
      rcases hstep : elementsFrom rule found [c] with ⟨es, _ | g⟩
      · rw [hstep] at hf
        obtain ⟨before, d, after, es', rfl, hbefore, hd⟩ := ih hf
        refine ⟨c :: before, d, after, es', rfl, ?_, hd⟩
        rw [elementsFrom_cons, hstep]
        exact hbefore
      · rw [hstep] at hf
        exact ⟨[], c, cs, found, rfl, rfl, by rw [hstep]; exact hf⟩
  · rintro ⟨before, c, after, es, rfl, hbefore, hc⟩
    rw [elementsFrom_append, hbefore]
    dsimp only
    rw [elementsFrom_cons]
    rcases hstep : elementsFrom rule es [c] with ⟨es', _ | g⟩
    · rw [hstep] at hc
      cases hc
    · rw [hstep] at hc
      exact hc

/-- A failure in the front of a row is one of the whole row. -/
theorem elementsFrom_none_of_append (h : (elementsFrom rule found (before ++ rest)).2 = none) :
    (elementsFrom rule found before).2 = none := by
  rw [elementsFrom_append] at h
  rcases hfront : elementsFrom rule found before with ⟨es, _ | f⟩
  · rfl
  · rw [hfront] at h
    cases h

theorem elementsFrom_of_element {e : ElementEntry} (h : c.element? rule = .ok (some e)) :
    (elementsFrom rule es [c]).2 = (es.find? fun o => decide (o.tag = e.tag)).map fun owner =>
      .mistake (.duplicateTag e.tag (some (owner.component, e.component))) := by
  rw [elementsFrom, h]
  dsimp only
  cases es.find? fun o => decide (o.tag = e.tag) <;> rfl

/-- Without a failure so far, the entries are those of the classes so far. -/
theorem mem_of_elementsFrom (h : elementsFrom rule [] before = (es, none)) {e : ElementEntry} :
    e ∈ es ↔ ∃ b ∈ before, b.element? rule = .ok (some e) := by
  obtain ⟨es, rfl, hes⟩ := elementsFrom_ok h
  constructor
  · intro he
    obtain ⟨b, hb, hbe⟩ := forall₂_exists_left hes e he
    exact ⟨b, List.mem_of_mem_filter hb, hbe⟩
  · rintro ⟨b, hb, hbe⟩
    have hmarked := (LocatedClass.component_of_element? hbe).1
    obtain ⟨o, ho, hbo⟩ := forall₂_exists_right hes b (List.mem_filter.2 ⟨hb, hmarked⟩)
    cases hbe.symm.trans hbo
    exact ho

/-- Behind classes without a failure, the step at a class fails just if it is an offence. -/
theorem offence_iff (hc : c.IsSensible) (hbefore : ∀ b ∈ before, b.IsSensible)
    (h : elementsFrom rule [] before = (es, none)) :
    (elementsFrom rule es [c]).2 = some f ↔ ∃ m, f = .mistake m ∧ c.Offence rule before m := by
  rcases LocatedClass.element?_cases rule hc with
    ⟨hnone, -⟩ | ⟨e, he, hentry⟩ | ⟨m, hm, hunfit⟩
  · have hstep : (elementsFrom rule es [c]).2 = none := by rw [elementsFrom, hnone, elementsFrom]
    rw [hstep]
    refine iff_of_false (Option.some_ne_none f).symm ?_
    rintro ⟨m, -, ⟨hunfit⟩ | ⟨here, -⟩⟩
    · cases hnone.symm.trans (hunfit.element? hc)
    · cases hnone.symm.trans (here.element? hc)
  · rw [elementsFrom_of_element he, Option.map_eq_some_iff]
    constructor
    · rintro ⟨o, ho, rfl⟩
      obtain ⟨hmem, hsame⟩ := of_find?_key ho
      obtain ⟨b, hb, hbo⟩ := (mem_of_elementsFrom h).1 hmem
      exact ⟨_, rfl, .repeated hentry hb
        ((LocatedClass.element?_eq_some_iff (hbefore b hb)).1 hbo) hsame⟩
    · rintro ⟨m, rfl, ⟨hunfit⟩ | ⟨here, owner, there, same⟩⟩
      · cases he.symm.trans (hunfit.element? hc)
      · cases he.symm.trans (here.element? hc)
        have hmem := (mem_of_elementsFrom h).2 ⟨_, owner, there.element? (hbefore _ owner)⟩
        have hdistinct := elementsFrom_nodup h List.nodup_nil
        refine ⟨_, find?_key hmem same fun o ho hsame => ?_, rfl⟩
        exact List.inj_on_of_nodup_map hdistinct ho hmem (hsame.trans same.symm)
  · have hstep : (elementsFrom rule es [c]).2 = some (.mistake m) := by rw [elementsFrom, hm]
    rw [hstep, Option.some.injEq]
    constructor
    · rintro rfl
      exact ⟨m, rfl, .unfit hunfit⟩
    · rintro ⟨m', rfl, ⟨hunfit'⟩ | ⟨here, -⟩⟩
      · exact Except.error.inj (hm.symm.trans (hunfit'.element? hc))
      · cases hm.symm.trans (here.element? hc)

/-- A walk fails just at the first offence. -/
theorem elementsFrom_eq_some_iff (hcs : ∀ c ∈ cs, c.IsSensible) :
    (elementsFrom rule [] cs).2 = some f ↔ ∃ before c after m, cs = before ++ c :: after ∧
      (elementsFrom rule [] before).2 = none ∧ c.Offence rule before m ∧ f = .mistake m := by
  rw [elementsFrom_failure_iff]
  refine exists₃_congr fun before c after => ?_
  constructor
  · rintro ⟨es, rfl, hbefore, hstep⟩
    rw [List.forall_mem_append, List.forall_mem_cons] at hcs
    obtain ⟨m, rfl, hm⟩ := (offence_iff hcs.2.1 hcs.1 hbefore).1 hstep
    exact ⟨m, rfl, by rw [hbefore], hm, rfl⟩
  · rintro ⟨m, rfl, hbefore, hm, rfl⟩
    rw [List.forall_mem_append, List.forall_mem_cons] at hcs
    have heq : elementsFrom rule [] before = ((elementsFrom rule [] before).1, none) := by
      rw [← hbefore]
    exact ⟨_, rfl, heq, (offence_iff hcs.2.1 hcs.1 heq).2 ⟨m, rfl, hm⟩⟩

/-- A walk has no failure just if there is no offence. -/
theorem isOrderly_iff (hcs : ∀ c ∈ cs, c.IsSensible) :
    IsOrderly rule cs ↔ (elementsFrom rule [] cs).2 = none := by
  constructor
  · intro h
    by_contra hne
    obtain ⟨f, hf⟩ := Option.ne_none_iff_exists'.1 hne
    obtain ⟨before, c, after, m, hsplit, -, hm, -⟩ := (elementsFrom_eq_some_iff hcs).1 hf
    exact h before c after hsplit m hm
  · rintro h before c after rfl m hm
    have hfails := (elementsFrom_eq_some_iff hcs).2
      ⟨before, c, after, m, rfl, elementsFrom_none_of_append h, hm, rfl⟩
    rw [h] at hfails
    cases hfails

end Walking

/-- The decorators of the classes of a loaded file stand in its tree. -/
theorem isSensible_of_mem_classes {w : Workspace} (hw : w.Reached)
    (hsense : ∀ f ∈ w.project.files, f.tree.Everywhere fun n => ¬ n.IsSenseless) {c : LocatedClass}
    (hc : c ∈ w.project.classes) : c.IsSensible := by
  obtain ⟨hfile, hclass⟩ := Project.mem_classes.1 hc
  obtain ⟨source, hparsed⟩ := (hw.isSound.project.loaded _ hfile).parsed
  obtain ⟨statement, hstatement, hof⟩ := List.mem_filterMap.1 hclass
  have hescapes := (TypeScript.escape_of_parse? hparsed).child hstatement
  have hsensible := (hsense _ hfile).child hstatement
  exact fun n hn => ⟨ClassDeclaration.everywhere_decoratorNode hescapes hof hn,
    ClassDeclaration.everywhere_decoratorNode hsensible hof hn⟩

theorem Project.discover_eq_error_iff {rule : DiscoveryRule} {w : Workspace} {f : Failure} :
    ((discover rule).outcome w).1 = .error f ↔ (w.project.elements rule).2 = some f := by
  rw [discover_outcome]
  cases (w.project.elements rule).2 <;> simp

/-- Where all string literals denote texts, discovery either answers or ends with the first offence
among the loaded classes, and it leaves the project as it is. It answers if and only if there is no
offence, and then with an entry for each marked class, in the order of the classes: with its tag,
and with its file and its name. Its failure is what is wrong with the first class that is an
offence. -/
theorem discover_ends_at_first_offence {w : Workspace} (hw : w.Reached)
    (hsense : ∀ f ∈ w.project.files, f.tree.Everywhere fun n => ¬ n.IsSenseless)
    (rule : DiscoveryRule) :
    w.Reported ((Project.discover rule).outcome w).2 ∧
    ((Project.discover rule).outcome w).2.project = w.project ∧
    ((∃ es, ((Project.discover rule).outcome w).1 = .ok es) ↔ IsOrderly rule w.project.classes) ∧
    (∀ es, ((Project.discover rule).outcome w).1 = .ok es →
      List.Forall₂ (LocatedClass.IsEntry rule) (w.project.classes.filter (·.isMarked rule)) es) ∧
    ∀ f, ((Project.discover rule).outcome w).1 = .error f ↔
      ∃ before c after m, w.project.classes = before ++ c :: after ∧
        IsOrderly rule before ∧ c.Offence rule before m ∧ f = .mistake m := by
  have hcs : ∀ c ∈ w.project.classes, c.IsSensible := fun c hc =>
    isSensible_of_mem_classes hw hsense hc
  have hreported : w.Reported ((Project.discover rule).outcome w).2 := by
    rw [Project.discover_outcome]
    exact ⟨_, rfl⟩
  refine ⟨hreported, hreported.project_eq, ?_, fun es hes => ?_, fun f => ?_⟩
  · rw [isOrderly_iff hcs, Project.discover_outcome, Project.elements]
    cases (elementsFrom rule [] w.project.classes).2 <;> simp
  · obtain ⟨helements, -⟩ := Project.discover_eq_ok (Prod.ext hes rfl)
    obtain ⟨es, rfl, hforall⟩ := elementsFrom_ok helements
    refine (forall₂_with_mem hforall).imp fun c e ⟨he, hc, _⟩ => ?_
    exact (LocatedClass.element?_eq_some_iff (hcs c (List.mem_of_mem_filter hc))).1 he
  · rw [Project.discover_eq_error_iff, Project.elements, elementsFrom_eq_some_iff hcs]
    refine exists₄_congr fun before c after m => ?_
    refine and_congr_right fun hsplit => ?_
    rw [hsplit, List.forall_mem_append] at hcs
    rw [isOrderly_iff hcs.1]

/-- A file with two marked classes, of which the second has the tag of the first as its selector. -/
def contestedText : List Char :=
  "@M('a')class A\x7b\x7d@M()@Component(\x7bselector:'a'\x7d)class B\x7b\x7d".toList

def contestedTree : TypeScript.Node :=
  (TypeScript.parse? .plain contestedText).getD (.branch .source [])

def contestedFile : SourceFile := ⟨"/ws/a.ts", contestedTree⟩

def contestedWorkspace : Workspace := { Workspace.bare with
  files := .dir [("ws", .dir [("a.ts", .file (Bytes.ofChars contestedText))])] }

theorem parse?_contestedText : TypeScript.parse? .plain contestedText = some contestedTree := by
  have hparsed : (TypeScript.parse? .plain contestedText).isSome := by decide +kernel
  obtain ⟨tree, htree⟩ := Option.isSome_iff_exists.1 hparsed
  rw [contestedTree, htree, Option.getD_some]

theorem contestedWorkspace_reached : (contestedWorkspace.withSource contestedFile).Reached := by
  have hnames : ∀ n ∈ contestedWorkspace.files.names, IsFileName n := by
    have hlist : contestedWorkspace.files.names = [("ws" : Text), ("a.ts" : Text)] := rfl
    rw [hlist, List.forall_mem_cons, List.forall_mem_singleton]
    exact ⟨⟨by decide, by decide, by decide, by decide, rfl⟩,
      ⟨by decide, by decide, by decide, by decide, rfl⟩⟩
  have hsource : contestedWorkspace.source "/ws/a.ts" = .ok contestedFile :=
    Workspace.source_of_parsed rfl rfl parse?_contestedText
  have hloaded := Workspace.Reached.step (.start hnames rfl) (.require "/ws/a.ts")
  rwa [LoadStep.after_require (q := "/ws/a.ts") rfl rfl hsource] at hloaded

theorem sensible_contestedFile : contestedFile.tree.Everywhere fun n => ¬ n.IsSenseless := by
  have hplain : contestedFile.tree.Everywhere fun n => n.kind ≠ .comment ∧ n.kind ≠ .escape := by
    decide +kernel
  have hclean : contestedFile.tree.IsClean :=
    hplain.mono fun _ hn => ⟨hn.1, fun hk => (hn.2 hk).elim⟩
  exact hclean.sensible

/-- The message of the failure that ends the discovery in that file. -/
def contestedMessage (selectorFallback : Bool) : Option Text :=
  ((contestedWorkspace.withSource contestedFile).project.elements ⟨"M", selectorFallback⟩).2.map
    fun
    | .mistake m => m.message
    | .fault _ => []

theorem contestedMessage_eq :
    contestedMessage true = some "Tag is duplicated: a (/ws/a.ts#A and /ws/a.ts#B)" ∧
      contestedMessage false = some "@M on B (/ws/a.ts) does not declare a tag" := by
  decide +kernel

/-- Whether the first offence in that file has this message. -/
def IsContested (selectorFallback : Bool) (message : Text) : Prop := ∃ before c after m,
  (contestedWorkspace.withSource contestedFile).project.classes = before ++ c :: after ∧
    IsOrderly ⟨"M", selectorFallback⟩ before ∧ c.Offence ⟨"M", selectorFallback⟩ before m ∧
    m.message = message

/-- With selectors as tags, the second class has the tag of the first, and without them it has no
tag at all. -/
theorem discover_ends_at_first_offence_contested :
    IsContested true "Tag is duplicated: a (/ws/a.ts#A and /ws/a.ts#B)" ∧
      IsContested false "@M on B (/ws/a.ts) does not declare a tag" := by
  have hsense : ∀ f ∈ (contestedWorkspace.withSource contestedFile).project.files,
      f.tree.Everywhere fun n => ¬ n.IsSenseless := by
    have hfiles : (contestedWorkspace.withSource contestedFile).project.files = [contestedFile] := rfl
    rw [hfiles]
    exact List.forall_mem_singleton.2 sensible_contestedFile
  have hends {selectorFallback : Bool} {message : Text}
      (h : contestedMessage selectorFallback = some message) :
      IsContested selectorFallback message := by
    obtain ⟨f, hf, hmessage⟩ := Option.map_eq_some_iff.1 h
    have hwalk := discover_ends_at_first_offence contestedWorkspace_reached hsense
      ⟨"M", selectorFallback⟩
    obtain ⟨before, c, after, m, hsplit, horderly, hm, rfl⟩ :=
      (hwalk.2.2.2.2 f).1 (Project.discover_eq_error_iff.2 hf)
    exact ⟨before, c, after, m, hsplit, horderly, hm, hmessage⟩
  exact ⟨hends contestedMessage_eq.1, hends contestedMessage_eq.2⟩

end CustomElements
