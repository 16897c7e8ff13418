import CustomElements.Proofs.Component.MetadataLayout

/-!
# Missing lists as nodes

What is written for missing lists is a row of nodes: pairs with commas and blanks between them. The
text of the row is what is written (`insertedNodes_text`), and its blanks are blanks wherever
the row is put (`gapsHold_insertedNodes`).
-/

namespace CustomElements

open TypeScript (Node Lexeme)
open TypeScript.Node (EndsWith mark significant textOf Spaced Gap)

namespace Text

@[simp] theorem ofChars_append (cs ds : List Char) :
    ofChars (cs ++ ds) = ofChars cs ++ ofChars ds := List.map_append ..

@[simp] theorem ofChars_length (cs : List Char) : (ofChars cs).length = cs.length :=
  List.length_map ..

theorem ofChars_getD {t : Text} (h : t.chars?.isSome) : ofChars (t.chars?.getD []) = t := by
  obtain ⟨cs, hcs⟩ := Option.isSome_iff_exists.1 h
  rw [hcs, Option.getD_some]
  exact (eq_ofChars_of_chars? hcs).symm

theorem join_cons (sep t : Text) (ts : List Text) :
    join sep (t :: ts) = t ++ ts.flatMap fun u => sep ++ u := by
  induction ts generalizing t with
  | nil => simp [join]
  | cons u us ih =>
    rw [join, ih u, List.flatMap_cons, List.append_assoc, List.append_assoc]
    exact fun h => by cases h

end Text

/-- The pair that the entry of an empty list is read as. -/
def emptyListPair (name : Text) : Node :=
  .branch .pair [.leaf .propertyName (name.chars?.getD []), mark ':', .leaf .blank [' '],
    .branch .other [mark '[', mark ']']]

/-- A blank with these characters. -/
def blankOf (gap : Text) : Node := .leaf .blank (gap.chars?.getD [])

/-- Pairs for empty lists in a row, with a comma and a blank between neighbours. -/
def emptyListPairs (gap : Text) : List Text → List Node
  | [] => []
  | name :: names => emptyListPair name ::
      names.flatMap fun n => [mark ',', blankOf gap, emptyListPair n]

/-- The nodes that missing lists are written as. -/
def insertedNodes (source : List Char) (o : PlacedNode) (missing : List Text) : List Node :=
  match o.parts.getLast? with
  | none =>
    if o.node.text.contains '\n'
      then blankOf "  " :: emptyListPairs " " missing ++ [blankOf "\n"]
      else blankOf " " :: emptyListPairs " " missing ++ [blankOf " "]
  | some last =>
    let gap := entryGap source o last
    match throughComma .outside ((source.take (o.stop - 1)).drop last.stop) with
    | some _ => blankOf gap :: emptyListPairs gap missing ++ [mark ',']
    | none => mark ',' :: blankOf gap :: emptyListPairs gap missing

theorem emptyListPair_text {name : Text} (h : name.chars?.isSome) :
    Text.ofChars (emptyListPair name).text = emptyList name := by
  have hrest : (": []" : Text) = Text.ofChars [':', ' ', '[', ']'] := rfl
  rw [emptyList, hrest]
  conv => rhs; rw [← Text.ofChars_getD h]
  rw [← Text.ofChars_append]
  simp [emptyListPair, mark]

theorem blankOf_text {gap : Text} (h : gap.chars?.isSome) :
    Text.ofChars (blankOf gap).text = gap := by
  rw [blankOf, Node.text_leaf, Text.ofChars_getD h]

theorem comma_text : Text.ofChars (mark ',').text = "," := rfl

theorem emptyListPairs_text {gap : Text} {names : List Text} (hg : gap.chars?.isSome)
    (hn : ∀ name ∈ names, name.chars?.isSome) :
    Text.ofChars (textOf (emptyListPairs gap names)) = emptyLists gap names := by
  have hrest (ns : List Text) (hns : ∀ n ∈ ns, n.chars?.isSome) :
      Text.ofChars (textOf (ns.flatMap fun n => [mark ',', blankOf gap, emptyListPair n])) =
        ns.flatMap fun n => ("," : Text) ++ gap ++ emptyList n := by
    induction ns with
    | nil => rfl
    | cons n ns ih =>
      have hone := emptyListPair_text (hns n List.mem_cons_self)
      rw [List.flatMap_cons, Node.textOf_append, Text.ofChars_append, List.flatMap_cons,
        ih fun m hm => hns m (List.mem_cons_of_mem n hm)]
      simp only [Node.textOf_cons, Node.textOf_nil, List.append_nil, Text.ofChars_append, hone,
        blankOf_text hg, comma_text, List.append_assoc]
  cases names with
  | nil => rfl
  | cons name names =>
    rw [emptyLists, List.map_cons, Text.join_cons, List.flatMap_map, emptyListPairs,
      Node.textOf_cons, Text.ofChars_append, emptyListPair_text (hn name List.mem_cons_self),
      hrest names fun n h => hn n (List.mem_cons_of_mem name h)]

/-- The indent of a new line is made of blanks. -/
theorem entryGap_chars (source : List Char) (o last : PlacedNode) :
    ∃ cs, (entryGap source o last).chars? = some cs ∧ cs ≠ [] ∧ ∀ c ∈ cs, Lexeme.isBlank c := by
  unfold entryGap
  split
  · generalize columnAfter (source.take last.offset) = k
    refine ⟨'\n' :: List.replicate k ' ', ?_, by simp, ?_⟩
    · have hc : ("\n" : Text) ++ List.replicate k (CodePoint.scalar ' ') =
          Text.ofChars ('\n' :: List.replicate k ' ') := by
        rw [Text.ofChars, List.map_cons, List.map_replicate]
        rfl
      rw [hc, Text.chars?_ofChars]
    · intro c hc
      rcases List.mem_cons.1 hc with rfl | hc
      · decide
      · rw [List.eq_of_mem_replicate hc]
        decide
  · have hspace : Lexeme.isBlank ' ' := by decide
    exact ⟨[' '], rfl, by simp, by simpa using hspace⟩

/-- The nodes that missing lists are written as have the text that is written. -/
theorem insertedNodes_text {source : List Char} {o : PlacedNode} {missing : List Text}
    (hm : ∀ name ∈ missing, name.chars?.isSome) :
    Text.ofChars (textOf (insertedNodes source o missing)) =
      (metadataInsertion source o missing).text := by
  have hpairs (gap : Text) (hg : gap.chars?.isSome) := emptyListPairs_text hg hm
  unfold insertedNodes metadataInsertion
  cases hl : o.parts.getLast? with
  | none =>
    dsimp only
    split
    · simp only [Node.textOf_cons, Node.textOf_append, Node.textOf_nil, List.append_nil,
        Text.ofChars_append, List.cons_append]
      rw [blankOf_text rfl, blankOf_text rfl, hpairs " " rfl, List.append_assoc]
    · simp only [Node.textOf_cons, Node.textOf_append, Node.textOf_nil, List.append_nil,
        Text.ofChars_append, List.cons_append]
      rw [blankOf_text rfl, hpairs " " rfl, List.append_assoc]
  | some last =>
    obtain ⟨cs, hcs, _, _⟩ := entryGap_chars source o last
    have hg : (entryGap source o last).chars?.isSome := by rw [hcs]; rfl
    dsimp only
    cases throughComma .outside ((source.take (o.stop - 1)).drop last.stop) with
    | some k =>
      simp only [Node.textOf_cons, Node.textOf_append, Node.textOf_nil, List.append_nil,
        Text.ofChars_append, List.cons_append, blankOf_text hg, hpairs _ hg, comma_text,
        List.append_assoc]
    | none =>
      simp only [Node.textOf_cons, Text.ofChars_append, blankOf_text hg, hpairs _ hg, comma_text,
        List.append_assoc]

/-- The blanks and comments of a row are such whatever follows them. -/
def GapsHold (ns : List Node) : Prop := ∀ n ∈ ns, n.isGap → ∀ rest, Gap rest n

theorem gapsHold_append {ms ns : List Node} (hm : GapsHold ms) (hn : GapsHold ns) :
    GapsHold (ms ++ ns) := by
  intro n hmem
  exact (List.mem_append.1 hmem).elim (hm n) (hn n)

theorem gapsHold_token {n : Node} (h : n.isGap = false) : GapsHold [n] := by
  intro m hm hg
  rw [List.mem_singleton.1 hm, h] at hg
  cases hg

theorem gapsHold_blankOf {gap : Text} {cs : List Char} (hcs : gap.chars? = some cs) (hne : cs ≠ [])
    (hb : ∀ c ∈ cs, Lexeme.isBlank c) : GapsHold [blankOf gap] := by
  intro m hm _ rest
  rw [List.mem_singleton.1 hm, blankOf, hcs, Option.getD_some]
  exact .blank hne hb

theorem gapsHold_emptyListPairs {gap : Text} (h : GapsHold [blankOf gap]) (names : List Text) :
    GapsHold (emptyListPairs gap names) := by
  have hpair (name : Text) : GapsHold [emptyListPair name] := gapsHold_token rfl
  have hcomma : GapsHold [mark ','] := gapsHold_token rfl
  cases names with
  | nil => exact nofun
  | cons name names =>
    refine gapsHold_append (hpair name) ?_
    intro m hm
    obtain ⟨n, _, hm⟩ := List.mem_flatMap.1 hm
    exact gapsHold_append hcomma (gapsHold_append h (hpair n)) m hm

/-- What is written consists of pairs, commas and blanks. -/
theorem gapsHold_insertedNodes (source : List Char) (o : PlacedNode) (missing : List Text) :
    GapsHold (insertedNodes source o missing) := by
  have hspace : Lexeme.isBlank ' ' := by decide
  have hfeed : Lexeme.isBlank '\n' := by decide
  have hone : GapsHold [blankOf " "] :=
    @gapsHold_blankOf " " [' '] rfl (by simp) (by simpa using hspace)
  have htwo : GapsHold [blankOf "  "] :=
    @gapsHold_blankOf "  " [' ', ' '] rfl (by simp) (by simpa using hspace)
  have hline : GapsHold [blankOf "\n"] :=
    @gapsHold_blankOf "\n" ['\n'] rfl (by simp) (by simpa using hfeed)
  have hcomma : GapsHold [mark ','] := gapsHold_token rfl
  unfold insertedNodes
  split
  · split
    · exact gapsHold_append (gapsHold_append htwo (gapsHold_emptyListPairs hone missing)) hline
    · exact gapsHold_append (gapsHold_append hone (gapsHold_emptyListPairs hone missing)) hone
  next last _ =>
    obtain ⟨cs, hcs, hne, hb⟩ := entryGap_chars source o last
    have hgap := gapsHold_blankOf hcs hne hb
    have hpairs := gapsHold_emptyListPairs hgap missing
    dsimp only
    split
    · exact gapsHold_append (gapsHold_append hgap hpairs) hcomma
    · exact gapsHold_append hcomma (gapsHold_append hgap hpairs)

theorem spaced_of_gapsHold {ns : List Node} (h : GapsHold ns) (rest : List Char) :
    Spaced ns rest := by
  induction ns with
  | nil => trivial
  | cons n ns ih =>
    exact ⟨fun hg => h n List.mem_cons_self hg _,
      ih fun c hc => h c (List.mem_cons_of_mem n hc)⟩

/-- Pairs in a row read as such, with one comma between two of them. -/
theorem significant_emptyListPairs (gap name : Text) (names : List Text) :
    significant (emptyListPairs gap (name :: names)) = emptyListPair name ::
      (names.map emptyListPair).flatMap fun p => [mark ',', p] := by
  have hgap : (blankOf gap).isGap = true := rfl
  have hcomma : (mark ',').isGap = false := rfl
  have hpair (n : Text) : (emptyListPair n).isGap = false := rfl
  have hrest : significant (names.flatMap fun n => [mark ',', blankOf gap, emptyListPair n]) =
      (names.map emptyListPair).flatMap fun p => [mark ',', p] := by
    induction names with
    | nil => rfl
    | cons n ns ih =>
      rw [List.flatMap_cons, Node.significant_append, ih, List.map_cons, List.flatMap_cons]
      simp [Node.significant_cons, hgap, hcomma, hpair]
  rw [emptyListPairs, Node.significant_cons, hpair, hrest]
  rfl

namespace PlacedNode

variable {o : PlacedNode} {last : Node} {front tail : List Node} {trailing : Bool}

theorem significant_insertedNodes_of_empty {source : List Char} (h : o.parts = []) (name : Text)
    (names : List Text) : significant (insertedNodes source o (name :: names)) =
      emptyListPair name :: (names.map emptyListPair).flatMap fun p => [mark ',', p] := by
  have hgap (gap : Text) : significant [blankOf gap] = [] := rfl
  unfold insertedNodes
  rw [h]
  change significant (if _ then _ else _) = _
  split
  · rw [List.cons_append, ← List.singleton_append, Node.significant_append,
      Node.significant_append, hgap, hgap, List.append_nil, significant_emptyListPairs]
    rfl
  · rw [List.cons_append, ← List.singleton_append, Node.significant_append,
      Node.significant_append, hgap, List.append_nil, significant_emptyListPairs]
    rfl

/-- Behind the last member, the search for a comma decides on which side of the pairs one goes. -/
theorem significant_insertedNodes_of_end {tree : Node} (hb : Below ⟨0, tree⟩ o)
    (h : o.node.EndsWith last front tail trailing) (name : Text) (names : List Text) :
    significant (insertedNodes tree.text o (name :: names)) =
      let pairs := emptyListPair name :: (names.map emptyListPair).flatMap fun p => [mark ',', p]
      if (throughComma .outside (textOf tail)).isSome then pairs ++ [mark ',']
        else mark ',' :: pairs := by
  have hgap (gap : Text) : (blankOf gap).isGap = true := rfl
  have hcomma : (mark ',').isGap = false := rfl
  have hs := segment_eq hb h
  unfold insertedNodes
  rw [getLast?_parts h]
  change significant (match throughComma .outside ((tree.text.take (o.stop - 1)).drop
    (o.offset + (textOf front).length + last.text.length)) with
    | some _ => _
    | none => _) = _
  rw [hs]
  cases throughComma .outside (textOf tail) with
  | some k =>
    change significant (blankOf _ :: _ ++ _) = _
    rw [List.cons_append, Node.significant_cons, hgap, Node.significant_append,
      significant_emptyListPairs, Node.significant_cons, hcomma]
    rfl
  | none =>
    change significant (mark ',' :: blankOf _ :: _) = _
    rw [Node.significant_cons, hcomma, Node.significant_cons, hgap, significant_emptyListPairs]
    rfl

end PlacedNode

end CustomElements
