import CustomElements.Proofs.Component.CompletedLiteral
import CustomElements.Proofs.Component.DescribedClasses
import CustomElements.Proofs.Component.MissingLists
import CustomElements.Proofs.Workspace.Undisturbed

/-!
# Completing a source file

A source file is completed if the metadata of all its classes can be read (`completion_ok_iff`).
Then one run is written into the metadata of each class that lacks lists (`completion_eq`). The runs
are in the order of the classes, and each is between the braces of its literal.
-/

namespace CustomElements

open TypeScript (Node Dialect EscapeError parse?)
open PlacedNode (Below)

/-- The lists that the metadata of a class lacks. -/
def DescribedClass.missing (c : DescribedClass) : List Text :=
  (missingLists c.metadata.node).toOption.getD []

/-- What is written into the metadata of a class. -/
def DescribedClass.run (source : List Char) (c : DescribedClass) : Insertion :=
  metadataInsertion source c.metadata c.missing

/-- The classes of a file whose metadata lacks lists. -/
def incompleteClasses (tree : Node) : List DescribedClass :=
  (describedClasses tree).filter fun c => !c.missing.isEmpty

/-- All that is written into a file, in source order. -/
def metadataRuns (tree : Node) : List Insertion :=
  (incompleteClasses tree).map (DescribedClass.run tree.text)

/-- The answer to a request to complete a source text, in a given workspace. -/
def completion (dialect : Dialect) (source : List Char) (w : Workspace) : Except Failure Text :=
  ((completeMetadata dialect source).outcome w).1

section

variable {source : List Char} {c : DescribedClass} {cs : List DescribedClass} {missing : List Text}

theorem DescribedClass.missing_of_ok (h : missingLists c.metadata.node = .ok missing) :
    c.missing = missing := by
  rw [DescribedClass.missing, h]
  rfl

theorem DescribedClass.gap?_of_ok (h : missingLists c.metadata.node = .ok missing) :
    c.gap? source = .ok (if missing.isEmpty then none
      else some ⟨c.declaration.name, c.missing, c.run source⟩) := by
  rw [DescribedClass.gap?, h, DescribedClass.run, DescribedClass.missing_of_ok h]
  change (if missing.isEmpty then Except.ok none else _) = _
  split
  · rfl
  · rfl

theorem DescribedClass.gap?_of_error {e : EscapeError}
    (h : missingLists c.metadata.node = .error e) : c.gap? source = .error e := by
  rw [DescribedClass.gap?, h]
  rfl

/-- The search for gaps comes to its end if the metadata of each class can be read. -/
theorem metadataGaps_ends_iff : (metadataGaps source cs).2 = none ↔
    ∀ c ∈ cs, ∃ missing, missingLists c.metadata.node = .ok missing := by
  induction cs with
  | nil => simp [metadataGaps]
  | cons c cs ih =>
    rw [metadataGaps, List.forall_mem_cons, ← ih]
    cases hm : missingLists c.metadata.node with
    | error e =>
      rw [DescribedClass.gap?_of_error hm]
      simp
    | ok missing =>
      rw [DescribedClass.gap?_of_ok hm]
      by_cases he : missing.isEmpty
      · simp [he]
      · simp [he]

theorem metadataGaps_insertions
    (h : ∀ c ∈ cs, ∃ missing, missingLists c.metadata.node = .ok missing) :
    (metadataGaps source cs).1.map MetadataGap.insertion =
      (cs.filter fun c => !c.missing.isEmpty).map (DescribedClass.run source) := by
  induction cs with
  | nil => rfl
  | cons c cs ih =>
    rw [List.forall_mem_cons] at h
    obtain ⟨⟨missing, hm⟩, hcs⟩ := h
    have hrest := ih hcs
    rw [metadataGaps, DescribedClass.gap?_of_ok hm, List.filter_cons,
      DescribedClass.missing_of_ok hm]
    by_cases he : missing.isEmpty
    · simpa [he] using hrest
    · simpa [he] using hrest

end

section

variable {dialect : Dialect} {source : List Char} {tree : Node} {c : DescribedClass}

/-- What is completed is the first argument of the first component decorator of its class. -/
theorem metadata_of_mem (hc : c ∈ describedClasses tree) :
    c.declaration ∈ classesOf tree ∧ c.declaration.metadata? = some c.metadata.node := by
  have hmem : (c.declaration, c.metadata.node) ∈
      (describedClasses tree).map fun c => (c.declaration, c.metadata.node) :=
    List.mem_map_of_mem hc
  rw [describedClasses_eq, List.mem_filterMap] at hmem
  obtain ⟨k, hk, hm⟩ := hmem
  obtain ⟨o, ho, heq⟩ := Option.map_eq_some_iff.1 hm
  cases heq
  exact ⟨hk, ho⟩

/-- The metadata of a class lies in the statement that declares the class. -/
theorem metadata_in_statement (hc : c ∈ describedClasses tree) :
    ∃ s ∈ (PlacedNode.mk 0 tree).children,
      ClassDeclaration.ofStatement? s.node = some c.declaration ∧ Below s c.metadata := by
  obtain ⟨s, hs, hc⟩ := List.mem_filterMap.1 hc
  obtain ⟨ks, hpath, _⟩ := DescribedClass.exists_path hc
  have heq := DescribedClass.ofStatement?_eq s
  rw [hc, Option.map_some, eq_comm, Option.bind_eq_some_iff] at heq
  obtain ⟨k, hk, hm⟩ := heq
  obtain ⟨o, _, hpair⟩ := Option.map_eq_some_iff.1 hm
  cases hpair
  exact ⟨s, hs, hk, hpath.leads_below⟩

theorem metadata_isObject (hc : c ∈ describedClasses tree) : c.metadata.node.kind = .object := by
  have hm := (metadata_of_mem hc).2
  rw [ClassDeclaration.metadata?, Option.bind_eq_some_iff] at hm
  obtain ⟨d, _, hd⟩ := hm
  simpa using (Option.filter_eq_some_iff.1 hd).2

/-- The record that is logged for a gap. -/
def MetadataGap.record (g : MetadataGap) : LogRecord where
  level := .debug
  logger := loggerRoot ++ "normalizer"
  message := "Adding " ++ Text.join ", " g.missing ++ " to @" ++ componentDecorator ++ " of "
    ++ g.className.getD "None"

theorem completeMetadata_of_gaps (h : parse? dialect source = some tree) (w : Workspace) :
    (completeMetadata dialect source).outcome w =
      let (gaps, e) := metadataGaps source (describedClasses tree)
      (match e with
        | some e => (((Action.ofEscapes (.error e) : Action Text)).outcome w).1
        | none => .ok (insertAll (gaps.map MetadataGap.insertion) (.ofChars source)),
        w.report (gaps.map MetadataGap.record)) := by
  rw [completeMetadata, h]
  dsimp only
  generalize metadataGaps source (describedClasses tree) = r
  obtain ⟨gaps, e⟩ := r
  dsimp only
  rw [Action.outcome_bind_ok
    (Action.outcome_forIn_note (r := MetadataGap.record) (fun _ _ => rfl) gaps w)]
  cases e with
  | none => rfl
  | some e => cases e <;> rfl

theorem completion_of_gaps (h : parse? dialect source = some tree) (w : Workspace) :
    completion dialect source w =
      let (gaps, e) := metadataGaps source (describedClasses tree)
      match e with
      | some e => (((Action.ofEscapes (.error e) : Action Text)).outcome w).1
      | none => .ok (insertAll (gaps.map MetadataGap.insertion) (.ofChars source)) :=
  congrArg Prod.fst (completeMetadata_of_gaps h w)

/-- A completion logs one record for each gap that it finds, and changes nothing. -/
theorem completeMetadata_outcome (h : parse? dialect source = some tree) (w : Workspace) :
    (completeMetadata dialect source).outcome w = (completion dialect source w,
      w.report ((metadataGaps source (describedClasses tree)).1.map MetadataGap.record)) := by
  refine Prod.ext rfl ?_
  rw [completeMetadata_of_gaps h]

/-- A completion has an answer exactly if the metadata of each class can be read. -/
theorem completion_ok_iff (h : parse? dialect source = some tree) (w : Workspace) :
    (∃ t, completion dialect source w = .ok t) ↔
      ∀ c ∈ describedClasses tree, c.metadata.node.Readable := by
  have hread : (∀ c ∈ describedClasses tree, c.metadata.node.Readable) ↔
      (metadataGaps source (describedClasses tree)).2 = none := by
    rw [metadataGaps_ends_iff]
    exact forall₂_congr fun c hc => (missingLists_ok_iff (metadata_isObject hc)).symm
  rw [hread, completion_of_gaps h]
  obtain ⟨gaps, e⟩ := metadataGaps source (describedClasses tree)
  cases e with
  | none => simp
  | some e => cases e <;> simp [Action.ofEscapes]

/-- The answer is the source text with all runs. -/
theorem completion_eq (h : parse? dialect source = some tree) {w : Workspace} {t : Text}
    (ht : completion dialect source w = .ok t) :
    t = insertAll (metadataRuns tree) (.ofChars source) := by
  have hread := (completion_ok_iff h w).1 ⟨t, ht⟩
  have hok : ∀ c ∈ describedClasses tree, ∃ missing, missingLists c.metadata.node = .ok missing :=
    fun c hc => (missingLists_ok_iff (metadata_isObject hc)).2 (hread c hc)
  have hruns := @metadataGaps_insertions source _ hok
  have hends := (@metadataGaps_ends_iff source _).2 hok
  rw [completion_of_gaps h] at ht
  generalize metadataGaps source (describedClasses tree) = r at ht hruns hends
  obtain ⟨gaps, e⟩ := r
  dsimp only at ht hruns hends
  rw [hends] at ht
  rw [metadataRuns, incompleteClasses, TypeScript.text_of_parse? h, ← hruns]
  exact (Except.ok.inj ht).symm

/-- The way from the root down to the metadata of a class. -/
theorem metadata_path (h : parse? dialect source = some tree) (hc : c ∈ describedClasses tree) :
    ∃ ks, (PlacedNode.mk 0 tree).Path c.metadata ks ∧ ∀ k ∈ ks, k ∈ metadataKinds := by
  obtain ⟨s, hs, hc⟩ := List.mem_filterMap.1 hc
  obtain ⟨ks, hpath, hks⟩ := DescribedClass.exists_path hc
  refine ⟨_, .step hs hpath, ?_⟩
  rw [List.forall_mem_cons]
  refine ⟨?_, hks⟩
  obtain ⟨nodes, rfl, _⟩ := TypeScript.reads_of_parse? h
  change TypeScript.Kind.source ∈ metadataKinds
  decide

/-- The metadata of a class reads as an object literal. -/
theorem metadata_objectLiteral (h : parse? dialect source = some tree)
    (hc : c ∈ describedClasses tree) :
    ∃ members trailing, c.metadata.node.ObjectLiteral members trailing := by
  obtain ⟨ks, hpath, _⟩ := metadata_path h hc
  have hall := hpath.leads_below.everywhere (TypeScript.objectLiteral_of_parse? h)
  exact hall.here (metadata_isObject hc)

/-- The run of a class is written between the braces of its metadata. -/
theorem run_covers (h : parse? dialect source = some tree) (hc : c ∈ describedClasses tree) :
    c.metadata.Covers (c.run tree.text).offset := by
  obtain ⟨ks, hpath, _⟩ := metadata_path h hc
  obtain ⟨members, trailing, ho⟩ := metadata_objectLiteral h hc
  exact PlacedNode.metadataInsertion_covers hpath.leads_below ho c.missing

/-- The runs of two classes are as far from each other as their statements. -/
theorem incompleteClasses_sorted (h : parse? dialect source = some tree) :
    (incompleteClasses tree).Pairwise
      fun c d => (c.run tree.text).offset < (d.run tree.text).offset := by
  have hinside (s : PlacedNode) (hs : s ∈ (PlacedNode.mk 0 tree).children) (c : DescribedClass)
      (hc : DescribedClass.ofStatement? s = some c) : s.Covers (c.run tree.text).offset := by
    obtain ⟨ks, hpath, _⟩ := DescribedClass.exists_path hc
    exact hpath.leads_below.covers (run_covers h (List.mem_filterMap.2 ⟨s, hs, hc⟩))
  refine List.Pairwise.filter _ (List.pairwise_filterMap.2 ?_)
  refine (PlacedNode.row_ordered 0 tree.children).imp_of_mem ?_
  intro s s' hs hs' hle c hc d hd
  have hcs := (hinside s hs c hc).2
  have hds := (hinside s' hs' d hd).1
  omega

theorem metadataRuns_sorted (h : parse? dialect source = some tree) :
    (metadataRuns tree).Pairwise fun r r' => r.offset < r'.offset :=
  List.pairwise_map.2 (incompleteClasses_sorted h)

theorem metadataRuns_inside (h : parse? dialect source = some tree) {r : Insertion}
    (hr : r ∈ metadataRuns tree) : r.offset ≤ source.length := by
  obtain ⟨c, hc, rfl⟩ := List.mem_map.1 hr
  have hd := (List.mem_filter.1 hc).1
  obtain ⟨ks, hpath, _⟩ := metadata_path h hd
  have hstop := hpath.leads_below.range.2
  have hcov := (run_covers h hd).2
  change c.metadata.stop ≤ 0 + tree.text.length at hstop
  rw [TypeScript.text_of_parse? h] at hstop
  omega

theorem missing_sublist (c : DescribedClass) : c.missing.Sublist metadataLists := by
  rw [DescribedClass.missing]
  cases hm : missingLists c.metadata.node with
  | error e => exact List.nil_sublist _
  | ok missing => exact missingAmong_sublist hm

/-- The names of lists are written in characters. -/
theorem missing_chars (c : DescribedClass) : ∀ name ∈ c.missing, name.chars?.isSome := by
  have hall : ∀ name ∈ metadataLists, name.chars?.isSome := by decide
  intro name hname
  exact hall name ((missing_sublist c).subset hname)

theorem missing_of_mem (hc : c ∈ incompleteClasses tree) :
    missingLists c.metadata.node = .ok c.missing := by
  obtain ⟨_, hne⟩ := List.mem_filter.1 hc
  cases hm : missingLists c.metadata.node with
  | error e =>
    rw [DescribedClass.missing, hm] at hne
    cases hne
  | ok missing => rw [DescribedClass.missing_of_ok hm]

theorem metadataRuns_chars {r : Insertion} (hr : r ∈ metadataRuns tree) :
    ∃ cs, r.text = Text.ofChars cs := by
  obtain ⟨c, _, rfl⟩ := List.mem_map.1 hr
  exact ⟨_, (insertedNodes_text (missing_chars c)).symm⟩

/-- Each run is for one class of the file, in the order of the classes. -/
theorem incompleteClasses_sublist (tree : Node) :
    ((incompleteClasses tree).map DescribedClass.declaration).Sublist (classesOf tree) := by
  have hall : (describedClasses tree).map DescribedClass.declaration =
      (classesOf tree).filter fun k => k.metadata?.isSome := by
    have heq := congrArg (List.map Prod.fst) (describedClasses_eq tree)
    rw [List.map_map, List.map_filterMap] at heq
    refine heq.trans ?_
    rw [← List.filterMap_eq_filter]
    refine congrArg (List.filterMap · _) (funext fun k => ?_)
    cases hm : k.metadata? with
    | none => simp [Option.guard, hm]
    | some o => simp [Option.guard, hm]
  have hsub := (List.filter_sublist (p := fun c : DescribedClass => !c.missing.isEmpty)
    (l := describedClasses tree)).map DescribedClass.declaration
  rw [hall] at hsub
  exact hsub.trans List.filter_sublist

end

/-- A file with a component that has one member in its metadata. -/
def smallFile : List Char := "@Component({a})class A{}".toList

theorem smallFile_parsed : (parse? .plain smallFile).isSome := by decide +kernel

/-- The tree of the small file. -/
def smallTree : Node := (parse? .plain smallFile).get smallFile_parsed

theorem parse?_smallFile : parse? .plain smallFile = some smallTree := (Option.some_get _).symm

theorem completion_smallFile : ∃ t, completion .plain smallFile Workspace.bare = .ok t := by
  have hsome : (completion .plain smallFile Workspace.bare).toOption.isSome := by decide +kernel
  cases hc : completion .plain smallFile Workspace.bare with
  | error e =>
    rw [hc] at hsome
    cases hsome
  | ok t => exact ⟨t, rfl⟩

end CustomElements
