import CustomElements.Proofs.Component.CompletedTree
import CustomElements.Proofs.Component.Completion

/-!
# The text that a completion gives

A completed text is the source text with one run for each class that lacks metadata lists, and
nothing else is changed (`Preserves`). A run is written inside of no string and no member. It is
inside of a comment exactly if the search for a comma behind the last member ends inside of one,
which it can if a line comment does not end with a line feed: the search then misses the
end of the comment.

A completed literal reads as the old members and then the lists that were missing, with one comma
between two of them, so nothing is missing any more. If a parser reads the completed text for what
it is, completing it again changes nothing (`completion_of_complete`).
-/

namespace CustomElements

open TypeScript (Node Dialect parse?)
open PlacedNode (Below)

/-! ### What stays as it was -/

/-- A text is a source text with one run for each class that lacks metadata lists. -/
structure Preserves (source : List Char) (tree : Node) (t : Text) : Prop where
  atOnce : t = woven (metadataRuns tree) 0 (.ofChars source)
  lastFirst : t = insertAll (metadataRuns tree) (.ofChars source)
  removed : removeAll (metadataRuns tree) t = .ofChars source
  bytes : Bytes.ofText? t = some (insertAllBytes
    ((metadataRuns tree).map fun r =>
      (byteOffset source r.offset, (Bytes.ofText? r.text).getD ByteArray.empty))
    (.ofChars source))
  ordered : (metadataRuns tree).Pairwise fun r r' => r.offset < r'.offset
  onePerClass : ((incompleteClasses tree).map DescribedClass.declaration).Sublist (classesOf tree)
  betweenBraces : ∀ c ∈ incompleteClasses tree,
    c.declaration.metadata? = some c.metadata.node ∧ c.metadata.Covers (c.run source).offset ∧
      ∃ s ∈ (PlacedNode.mk 0 tree).children,
        ClassDeclaration.ofStatement? s.node = some c.declaration ∧ Below s c.metadata

variable {dialect : Dialect} {source : List Char} {tree : Node} {c : DescribedClass}

theorem preserves_of_completion (h : parse? dialect source = some tree) {w : Workspace} {t : Text}
    (ht : completion dialect source w = .ok t) : Preserves source tree t := by
  have heq := completion_eq h ht
  have hinside : ∀ r ∈ metadataRuns tree, r.offset ≤ (Text.ofChars source).length := by
    intro r hr
    rw [Text.ofChars_length]
    exact metadataRuns_inside h hr
  have hsorted := (metadataRuns_sorted h).imp fun hlt => Nat.le_of_lt hlt
  refine ⟨?_, heq, ?_, ?_, metadataRuns_sorted h, incompleteClasses_sublist tree, ?_⟩
  · rw [heq]
    exact insertAll_eq_woven hsorted hinside
  · rw [heq]
    exact removeAll_insertAll hinside
  · rw [heq]
    exact ofText?_insertAll hsorted (fun r hr => metadataRuns_inside h hr)
      fun r hr => metadataRuns_chars hr
  · intro c hc
    have hd := (List.mem_filter.1 hc).1
    have hcov := run_covers h hd
    rw [TypeScript.text_of_parse? h] at hcov
    exact ⟨(metadata_of_mem hd).2, hcov, metadata_in_statement hd⟩

/-- The nodes around the place of a run are on the way down to the metadata of the class, but for
a comment that may be among the children of the metadata. -/
theorem around_run (h : parse? dialect source = some tree) (hc : c ∈ describedClasses tree)
    {q : PlacedNode} (hq : Below ⟨0, tree⟩ q) (hcov : q.Covers (c.run source).offset) :
    q.node.kind ∈ metadataKinds ∧ Below q c.metadata ∨
      q ∈ c.metadata.children ∧ q.node.kind = .comment := by
  obtain ⟨ks, hpath, hks⟩ := metadata_path h hc
  obtain ⟨members, trailing, ho⟩ := metadata_objectLiteral h hc
  have hrun := run_covers h hc
  rw [← TypeScript.text_of_parse? h] at hcov
  rcases hpath.around hrun hq hcov with ⟨hk, hb⟩ | ⟨d, hd, hdcov, hb⟩
  · exact .inl ⟨hks _ hk, hb⟩
  · obtain ⟨s, hs⟩ := PlacedNode.comment_of_covers hpath.leads_below ho c.missing hd hdcov
    -- a comment has no children, so nothing else lies below it
    cases hb with
    | here _ => exact .inr ⟨hd, by rw [hs]; rfl⟩
    | step he _ =>
      rw [PlacedNode.children, hs] at he
      cases he

/-- A run is written into a comment exactly if the search for a comma ends inside of one. -/
theorem comment_around_run_iff (h : parse? dialect source = some tree)
    (hc : c ∈ describedClasses tree) :
    (∃ q, Below ⟨0, tree⟩ q ∧ q.node.kind = .comment ∧ q.Covers (c.run source).offset) ↔
      ¬ c.metadata.node.FindsEdge := by
  obtain ⟨ks, hpath, _⟩ := metadata_path h hc
  obtain ⟨members, trailing, ho⟩ := metadata_objectLiteral h hc
  have hrun := run_covers h hc
  have hbetween := PlacedNode.between_iff_findsEdge hpath.leads_below ho c.missing
  rw [← hbetween, ← TypeScript.text_of_parse? h]
  constructor
  · rintro ⟨q, hq, hk, hcov⟩ hb
    have hcov' := hcov
    rw [TypeScript.text_of_parse? h] at hcov'
    rcases around_run h hc hq hcov' with ⟨hkinds, _⟩ | ⟨hchild, _⟩
    · rw [hk] at hkinds
      exact absurd hkinds (by decide)
    · exact hb.not_covers hchild hcov
  · intro hno
    obtain ⟨d, hd, hdcov⟩ := (PlacedNode.between_or_covers hrun ho.text_eq).resolve_left hno
    obtain ⟨s, hs⟩ := PlacedNode.comment_of_covers hpath.leads_below ho c.missing hd hdcov
    exact ⟨d, hpath.leads_below.trans (.of_child hd), by rw [hs]; rfl, hdcov⟩

/--
For every source text that follows the grammar: a completion has an answer if and only if the
metadata of each class can be read. The answer preserves the text. The place of each run is inside
of the nodes on the way down to the metadata of its class and of no other node, if the search for a
comma behind the last member ends with a child of the metadata; else, and only then, it
is inside of one more node, which is a comment.
-/
theorem completion_preserves (h : parse? dialect source = some tree) (w : Workspace) :
    ((∃ t, completion dialect source w = .ok t) ↔
      ∀ c ∈ describedClasses tree, c.metadata.node.Readable) ∧
    (∀ t, completion dialect source w = .ok t → Preserves source tree t) ∧
    ∀ c ∈ incompleteClasses tree,
      (∀ q, Below ⟨0, tree⟩ q → q.Covers (c.run source).offset →
        q.node.kind ∈ metadataKinds ∧ Below q c.metadata ∨
          q ∈ c.metadata.children ∧ q.node.kind = .comment) ∧
      ((∃ q, Below ⟨0, tree⟩ q ∧ q.node.kind = .comment ∧ q.Covers (c.run source).offset) ↔
        ¬ c.metadata.node.FindsEdge) := by
  refine ⟨completion_ok_iff h w, fun t ht => preserves_of_completion h ht, fun c hc => ?_⟩
  have hd := (List.mem_filter.1 hc).1
  exact ⟨fun q hq hcov => around_run h hd hq hcov, comment_around_run_iff h hd⟩

theorem completion_preserves_smallFile :
    ∃ t, completion .plain smallFile Workspace.bare = .ok t ∧ Preserves smallFile smallTree t := by
  obtain ⟨t, ht⟩ := completion_smallFile
  exact ⟨t, ht, (completion_preserves parse?_smallFile Workspace.bare).2.1 t ht⟩

/-- A carriage return ends the line comment, and the search for a comma misses that. -/
example : (completion .plain "@Component(\x7ba//\r/*\n,*/\x7d)class A\x7b\x7d".toList Workspace.bare).toOption =
    some ("@Component(\x7ba//\r/*\n,\n            styles: [],\n            animations: [],\n" ++
      "            imports: [],\n            schemas: [],*/\x7d)class A\x7b\x7d") := by
  decide +kernel

/-! ### What is left to be done -/

variable {dialect : Dialect} {source : List Char} {tree : Node} {c : DescribedClass}

/-- A pair for an empty list has the name of the list as its key. -/
theorem key_emptyListPair {name : Text} (h : name.chars?.isSome) :
    (emptyListPair name).IsPairOf name := by
  refine ⟨_, _, rfl, ?_⟩
  change Except.ok (some (Text.ofChars (name.chars?.getD []))) = _
  rw [Text.ofChars_getD h]

theorem missing_of_readable (hc : c ∈ describedClasses tree) (h : c.metadata.node.Readable) :
    missingLists c.metadata.node = .ok c.missing := by
  obtain ⟨missing, hm⟩ := (missingLists_ok_iff (metadata_isObject hc)).2 h
  rw [hm, DescribedClass.missing_of_ok hm]

/-- The completed metadata of a class, as a reader finds it. -/
theorem completed_reads (h : parse? dialect source = some tree) (hc : c ∈ incompleteClasses tree)
    (hown : c.metadata.node.FindsOwnComma) :
    ∃ trailing, c.metadata.node.ObjectLiteral c.metadata.node.parts trailing ∧
      (c.completed tree.text).ObjectLiteral
        (c.metadata.node.parts ++ c.missing.map emptyListPair)
        (trailing && !c.metadata.node.parts.isEmpty) := by
  obtain ⟨hd, hne⟩ := List.mem_filter.1 hc
  have hmissing : c.missing ≠ [] := by simpa using hne
  obtain ⟨ks, hpath, _⟩ := metadata_path h hd
  obtain ⟨members, trailing, ho⟩ := metadata_objectLiteral h hd
  rw [ho.parts_eq]
  exact ⟨trailing, ho, PlacedNode.completedLiteral_reads hpath.leads_below ho hown hmissing⟩

/-- The completed metadata of a class lacks nothing. -/
theorem completed_lacks_nothing (h : parse? dialect source = some tree)
    (hc : c ∈ incompleteClasses tree) (hown : c.metadata.node.FindsOwnComma) :
    missingLists (c.completed tree.text) = .ok [] := by
  have hd := (List.mem_filter.1 hc).1
  obtain ⟨trailing, _, hcomp⟩ := completed_reads h hc hown
  exact missingLists_of_append (metadata_isObject hd) hcomp.isObject (missing_of_mem hc)
    hcomp.parts_eq fun name hname => key_emptyListPair (missing_chars c name hname)

/-- A text in which nothing is missing is its own completion. -/
theorem completion_of_complete (h : parse? dialect source = some tree)
    (hnone : ∀ c ∈ describedClasses tree, missingLists c.metadata.node = .ok []) (w : Workspace) :
    completion dialect source w = .ok (.ofChars source) := by
  obtain ⟨t, ht⟩ := (completion_ok_iff h w).2 fun c hc =>
    (missingLists_ok_iff (metadata_isObject hc)).1 ⟨[], hnone c hc⟩
  have hruns : metadataRuns tree = [] := by
    rw [metadataRuns, incompleteClasses, List.filter_eq_nil_iff.2, List.map_nil]
    intro c hc
    rw [DescribedClass.missing_of_ok (hnone c hc)]
    decide
  have heq := completion_eq h ht
  rw [hruns] at heq
  rw [ht, heq]
  rfl

/-- A completed tree lacks nothing. -/
theorem completedTree_lacks_nothing (h : parse? dialect source = some tree)
    (hread : ∀ c ∈ describedClasses tree, c.metadata.node.Readable)
    (hown : ∀ c ∈ incompleteClasses tree, c.metadata.node.FindsOwnComma) :
    ∀ c ∈ describedClasses (completedTree tree), missingLists c.metadata.node = .ok [] := by
  intro c' hc'
  obtain ⟨c, hc, heq⟩ := metadata_completedTree hc'
  rw [heq]
  by_cases he : c.missing.isEmpty
  · rw [if_pos he, missing_of_readable hc (hread c hc), List.isEmpty_iff.1 he]
  · have hi : c ∈ incompleteClasses tree := List.mem_filter.2 ⟨hc, by simpa using he⟩
    rw [if_neg he]
    exact completed_lacks_nothing h hi (hown c hi)

/--
For every source text that follows the grammar: a completion has an answer if and only if the
metadata of each class can be read. What is written into the metadata of a class stands between
two tokens if and only if the search for a comma behind the last member finds no other one than that
of the literal. Then the completed literal reads as its old members and after them the lists that
were missing, with one comma between two of them, and with a comma at the end if there was
one; so nothing is missing. If this holds of all literals, the completed text is that of the
completed tree, and a parser that reads it so lets it pass unchanged.
-/
theorem completion_closes (h : parse? dialect source = some tree) (w : Workspace) :
    ((∃ t, completion dialect source w = .ok t) ↔
      ∀ c ∈ describedClasses tree, c.metadata.node.Readable) ∧
    ∀ t, completion dialect source w = .ok t →
      (∀ c ∈ incompleteClasses tree,
        c.missing.Sublist metadataLists ∧
        (∀ name, name ∈ c.missing ↔
          name ∈ metadataLists ∧ hasMember c.metadata.node name = .ok false) ∧
        (c.metadata.Clear (c.run source).offset ↔ c.metadata.node.FindsOwnComma) ∧
        (c.metadata.node.FindsOwnComma →
          (∃ trailing, c.metadata.node.ObjectLiteral c.metadata.node.parts trailing ∧
            (c.completed source).ObjectLiteral
              (c.metadata.node.parts ++ c.missing.map emptyListPair)
              (trailing && !c.metadata.node.parts.isEmpty)) ∧
          (c.completed source).sourceText =
            woven [c.run source] c.metadata.offset c.metadata.node.sourceText ∧
          missingLists (c.completed source) = .ok [])) ∧
      ((∀ c ∈ incompleteClasses tree, c.metadata.node.FindsOwnComma) →
        (completedTree tree).sourceText = t ∧
        ∀ v, parse? dialect (completedTree tree).text = some (completedTree tree) →
          completion dialect (completedTree tree).text v = .ok t) := by
  refine ⟨completion_ok_iff h w, fun t ht => ?_⟩
  have hread := (completion_ok_iff h w).1 ⟨t, ht⟩
  have hsource := TypeScript.text_of_parse? h
  refine ⟨fun c hc => ?_, fun hown => ?_⟩
  · have hd := (List.mem_filter.1 hc).1
    have hm := mem_missingAmong (missing_of_mem hc)
    obtain ⟨ks, hpath, _⟩ := metadata_path h hd
    obtain ⟨members, trailing, ho⟩ := metadata_objectLiteral h hd
    have hclear := PlacedNode.clear_iff_findsOwnComma hpath.leads_below ho c.missing
    rw [← hsource]
    exact ⟨missing_sublist c, hm, hclear, fun hown => ⟨completed_reads h hc hown,
      completed_text h hd hown, completed_lacks_nothing h hc hown⟩⟩
  · have htext : (completedTree tree).sourceText = t := by
      rw [completedTree_text h hown]
      exact (preserves_of_completion h ht).atOnce.symm
    refine ⟨htext, fun v hparse => ?_⟩
    rw [← htext]
    exact completion_of_complete hparse (completedTree_lacks_nothing h hread hown) v

theorem findsOwnComma_smallTree : ∀ c ∈ incompleteClasses smallTree,
    c.metadata.node.FindsOwnComma := by
  have hnone : ∀ c ∈ incompleteClasses smallTree,
      throughComma .outside (Node.textOf c.metadata.node.afterMembers) = none := by
    decide +kernel
  intro c hc _ k hk
  rw [hnone c hc] at hk
  cases hk

theorem completion_closes_smallFile : ∃ t, completion .plain smallFile Workspace.bare = .ok t ∧
    completion .plain (completedTree smallTree).text Workspace.bare = .ok t := by
  have hparse : parse? .plain (completedTree smallTree).text = some (completedTree smallTree) := by
    decide +kernel
  obtain ⟨t, ht⟩ := completion_smallFile
  have hrest := (completion_closes parse?_smallFile Workspace.bare).2 t ht
  exact ⟨t, ht, (hrest.2 findsOwnComma_smallTree).2 Workspace.bare hparse⟩

end CustomElements
