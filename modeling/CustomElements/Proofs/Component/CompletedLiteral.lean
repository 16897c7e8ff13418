import CustomElements.Proofs.Component.InsertedNodes
import CustomElements.Proofs.Component.Splicing

/-!
# Completed object literals

`completedLiteral` puts the nodes that missing lists are written as between the children of an
object literal. If that place is between two tokens, the result reads as an object literal again:
the old members, then the pairs for the missing lists, with one comma between two of them and a
comma after the last one if there was one before (`completedLiteral_reads`).
-/

namespace CustomElements

open TypeScript (Node Kind)
open TypeScript.Node (mark separated significant textOf memberKinds Spaced)

namespace TypeScript.Node

/-- The nodes of a row that end within the first `place` characters, and the others. -/
def cutAt : Nat → List Node → List Node × List Node
  | _, [] => ([], [])
  | place, n :: ns =>
    if n.text.length ≤ place then
      (n :: (cutAt (place - n.text.length) ns).1, (cutAt (place - n.text.length) ns).2)
    else ([], n :: ns)

theorem cutAt_append {before after : List Node} {n : Node} (h : n.text ≠ []) :
    cutAt (textOf before).length (before ++ n :: after) = (before, n :: after) := by
  induction before with
  | nil =>
    have hlen := List.length_pos_iff.2 h
    rw [textOf_nil, List.nil_append, cutAt, if_neg (by simpa using h)]
  | cons m ms ih =>
    rw [textOf_cons, List.length_append, List.cons_append, cutAt, if_pos (Nat.le_add_right ..),
      Nat.add_sub_cancel_left, ih]

/-- Two rows of nodes in one; blanks that meet become one blank. -/
def joinBlanks (ms ns : List Node) : List Node :=
  match ms.getLast?, ns with
  | some (.leaf .blank s), .leaf .blank t :: rest => ms.dropLast ++ .leaf .blank (s ++ t) :: rest
  | _, _ => ms ++ ns

/-- Joining is putting one row behind the other, but for two blanks that meet. -/
theorem joinBlanks_cases (ms ns : List Node) :
    joinBlanks ms ns = ms ++ ns ∨ ∃ init s t rest, ms = init ++ [.leaf .blank s] ∧
      ns = .leaf .blank t :: rest ∧ joinBlanks ms ns = init ++ .leaf .blank (s ++ t) :: rest := by
  unfold joinBlanks
  split
  next s t rest hs =>
    obtain ⟨init, rfl⟩ := List.getLast?_eq_some_iff.1 hs
    exact .inr ⟨init, s, t, rest, rfl, rfl, by rw [List.dropLast_concat]⟩
  next => exact .inl rfl

theorem textOf_joinBlanks (ms ns : List Node) :
    textOf (joinBlanks ms ns) = textOf ms ++ textOf ns := by
  rcases joinBlanks_cases ms ns with h | ⟨init, s, t, rest, rfl, rfl, h⟩
  · rw [h, textOf_append]
  · rw [h]
    simp

theorem significant_joinBlanks (ms ns : List Node) :
    significant (joinBlanks ms ns) = significant ms ++ significant ns := by
  rcases joinBlanks_cases ms ns with h | ⟨init, s, t, rest, rfl, rfl, h⟩
  · rw [h, significant_append]
  · rw [h]
    simp [significant_cons, isGap, kind]

theorem spaced_joinBlanks {ms ns : List Node} {rest : List Char}
    (hm : Spaced ms (textOf ns ++ rest)) (hn : Spaced ns rest) :
    Spaced (joinBlanks ms ns) rest := by
  rcases joinBlanks_cases ms ns with h | ⟨init, s, t, tail, rfl, rfl, h⟩
  · rw [h, spaced_append]
    exact ⟨hm, hn⟩
  · rw [h]
    rw [spaced_append] at hm ⊢
    refine ⟨?_, fun _ => ?_, hn.2⟩
    · simpa using hm.1
    · have hs := hm.2.1 rfl
      have ht := hn.1 rfl
      cases hs with
      | blank hs0 hsb =>
        cases ht with
        | blank _ htb =>
          refine .blank (by simp [hs0]) fun c hc => ?_
          rcases List.mem_append.1 hc with hc | hc
          · exact hsb c hc
          · exact htb c hc

end TypeScript.Node

/-- An object literal with pairs for the missing lists. -/
def completedLiteral (source : List Char) (o : PlacedNode) (missing : List Text) : Node :=
  let cut := Node.cutAt ((metadataInsertion source o missing).offset - o.offset) o.node.children
  .branch o.node.kind (Node.joinBlanks cut.1 (insertedNodes source o missing) ++ cut.2)

namespace TypeScript.Node

theorem not_gap_of_memberKinds {m : Node} (h : m.kind ∈ memberKinds) : m.isGap = false := by
  unfold isGap
  cases hk : m.kind <;> simp_all [memberKinds]

end TypeScript.Node

namespace PlacedNode

variable {o : PlacedNode} {last : Node} {front tail members before after : List Node}
  {trailing : Bool} {missing : List Text}

/-- No child of an object literal is empty. -/
theorem child_ne_nil (h : o.node.ObjectLiteral members trailing) {c : Node}
    (hc : c ∈ o.node.children) : c.text ≠ [] := by
  by_cases hg : c.isGap
  · obtain ⟨xs, ys, hs⟩ := List.append_of_mem hc
    have hsp := h.spaced
    rw [hs] at hsp
    exact (hsp.gap hg).text_ne_nil
  · have hsig : c ∈ significant o.node.children := List.mem_filter.2 ⟨hc, by simpa using hg⟩
    have hmem : c ∈ members ∨ ∃ d, c = mark d := by
      rw [h.listed] at hsig
      simp only [List.cons_append, List.mem_cons, List.mem_append, List.not_mem_nil, or_false]
        at hsig
      rcases hsig with rfl | hsig | rfl
      · exact .inr ⟨_, rfl⟩
      · exact (Node.mem_separated hsig).imp_right fun hc => ⟨_, hc⟩
      · exact .inr ⟨_, rfl⟩
    rcases hmem with hm | ⟨d, rfl⟩
    · exact h.solid c hm
    · simp [mark]

/-- The children of a completed literal. -/
theorem completedLiteral_eq {source : List Char} (h : o.node.ObjectLiteral members trailing)
    (hcut : o.CutAt (metadataInsertion source o missing).offset before after) :
    completedLiteral source o missing = .branch o.node.kind
      (Node.joinBlanks before (insertedNodes source o missing) ++ after) := by
  obtain ⟨n, after', rfl⟩ := List.exists_cons_of_ne_nil hcut.after_ne
  have hn : n.text ≠ [] := child_ne_nil h (by rw [hcut.children_eq]; simp)
  rw [completedLiteral, hcut.place, hcut.children_eq, Nat.add_sub_cancel_left,
    Node.cutAt_append hn]

/-- The text of a completed literal is the text of the literal with what is written into it. -/
theorem completedLiteral_text {source : List Char} (h : o.node.ObjectLiteral members trailing)
    (hclear : o.Clear (metadataInsertion source o missing).offset)
    (hm : ∀ name ∈ missing, name.chars?.isSome) :
    (completedLiteral source o missing).sourceText =
      woven [metadataInsertion source o missing] o.offset o.node.sourceText := by
  obtain ⟨before, after, hcut⟩ := hclear
  have htext : o.node.text = textOf before ++ textOf after := by
    obtain ⟨n, after', rfl⟩ := List.exists_cons_of_ne_nil hcut.after_ne
    rw [Node.text_of_split hcut.children_eq, Node.textOf_cons]
  have hlen : (textOf before).length = (Text.ofChars (textOf before)).length :=
    (Text.ofChars_length _).symm
  rw [woven_cons (by rw [hcut.place]; omega)
      (by rw [Node.sourceText, Text.ofChars_length, htext, List.length_append, hcut.place]; omega)
      (by simp), woven_nil, completedLiteral_eq h hcut, Node.sourceText, Node.sourceText, htext,
    Node.text_branch, Node.textOf_append, Node.textOf_joinBlanks, hcut.place,
    Nat.add_sub_cancel_left, Text.ofChars_append, Text.ofChars_append, Text.ofChars_append,
    insertedNodes_text hm, hlen, List.take_left, List.drop_left]

/-- Gaps in front of a token do not depend on what follows it. -/
theorem spaced_before {ns : List Node} {rest : List Char} (h : Spaced ns rest)
    (hne : ∀ n ∈ ns, n.text ≠ []) (hl : ∀ c ∈ ns.getLast?, ¬ c.IsLineComment)
    (rest' : List Char) : Spaced ns rest' := by
  induction ns with
  | nil => trivial
  | cons n ns ih =>
    refine ⟨fun hg => ?_, ?_⟩
    · have hn := h.1 hg
      cases ns with
      | nil =>
        cases hn with
        | blank hs hb => exact .blank hs hb
        | @line s _ _ => exact (hl _ rfl ⟨rfl, s, rfl⟩).elim
        | block hb => exact .block hb
      | cons m ms =>
        obtain ⟨c, cs, hm⟩ := List.exists_cons_of_ne_nil (hne m (by simp))
        refine hn.congr ?_
        rw [Node.textOf_cons, hm]
        rfl
    · cases ns with
      | nil => trivial
      | cons m ms =>
        refine ih h.2 (fun k hk => hne k (List.mem_cons_of_mem n hk)) fun c hc => hl c ?_
        rwa [List.getLast?_cons_cons]

theorem completedLiteral_spaced {source : List Char} (h : o.node.ObjectLiteral members trailing)
    (hcut : o.CutAt (metadataInsertion source o missing).offset before after) :
    Spaced (completedLiteral source o missing).children [] := by
  have hs := h.spaced
  rw [hcut.children_eq] at hs
  obtain ⟨hb, ha⟩ := (Node.spaced_append ..).1 hs
  have hne : ∀ n ∈ before, n.text ≠ [] := fun n hn =>
    child_ne_nil h (by rw [hcut.children_eq]; exact List.mem_append_left _ hn)
  have hnew := spaced_of_gapsHold (gapsHold_insertedNodes source o missing) (textOf after ++ [])
  rw [completedLiteral_eq h hcut]
  exact (Node.spaced_append ..).2
    ⟨Node.spaced_joinBlanks (spaced_before hb hne hcut.not_line _) hnew, ha⟩

/-- The nodes of a completed literal that count. -/
theorem significant_completedLiteral {source : List Char}
    (h : o.node.ObjectLiteral members trailing)
    (hcut : o.CutAt (metadataInsertion source o missing).offset before after) :
    significant (completedLiteral source o missing).children =
      significant before ++ significant (insertedNodes source o missing) ++ significant after := by
  rw [completedLiteral_eq h hcut]
  change significant (Node.joinBlanks .. ++ after) = _
  rw [Node.significant_append, Node.significant_joinBlanks]

/-- What a completed literal lists are the old members, and pairs for the missing lists. -/
theorem completedLiteral_listed {tree : Node} (hb : Below ⟨0, tree⟩ o)
    (h : o.node.ObjectLiteral members trailing) (hown : o.node.FindsOwnComma)
    (hne : missing ≠ []) :
    significant (completedLiteral tree.text o missing).children = mark '{' ::
      separated (trailing && !members.isEmpty) (members ++ missing.map emptyListPair) ++
        [mark '}'] := by
  obtain ⟨name, names, rfl⟩ := List.exists_cons_of_ne_nil hne
  have hclose : significant [mark '}'] = [mark '}'] := rfl
  rcases List.eq_nil_or_concat members with rfl | ⟨ms, last, rfl⟩
  · obtain ⟨inner, hopen, hcut⟩ := cut_of_empty tree.text h (name :: names)
    rw [significant_completedLiteral h hcut, hopen, hclose,
      significant_insertedNodes_of_empty (parts_eq_nil h), List.nil_append, List.map_cons,
      Node.separated_cons]
    simp
  rw [List.concat_eq_append] at h ⊢
  obtain ⟨front, tail, he, hfront⟩ := h.exists_end
  have hlast := Node.not_gap_of_memberKinds he.isMember
  have hsig := he.listed
  have hflag : (trailing && !(ms ++ [last]).isEmpty) = trailing := by simp
  have hnew := significant_insertedNodes_of_end hb he name names
  rw [hflag, List.append_assoc, List.singleton_append, Node.separated_append, List.map_cons]
  cases hk : throughComma .outside (textOf tail) with
  | none =>
    rw [significant_completedLiteral h (cut_behind_member hb he hk _), hnew, hk,
      Node.significant_append, Node.significant_append, hfront, hsig, hclose,
      Node.significant_cons, hlast, List.flatMap_cons]
    simp
  | some k =>
    obtain ⟨gap, rest, htail, rfl⟩ := hown he.parts_ne_nil k (by rw [he.afterMembers_eq]; exact hk)
    rw [he.afterMembers_eq] at htail
    subst htail
    rw [significant_completedLiteral h (cut_behind_comma hb he hk _), hnew, hk]
    -- the comma that was found is all that counts behind the last member
    have hcomma : significant [mark ','] = [mark ','] := rfl
    rw [Node.significant_append, ← List.singleton_append, Node.significant_append, hcomma] at hsig
    obtain ⟨hgap, rfl, hrest⟩ : significant gap = [] ∧ trailing = true ∧ significant rest = [] := by
      cases trailing with
      | false => simp at hsig
      | true => simpa [List.append_eq_singleton_iff] using hsig
    rw [Node.significant_append, hcomma, Node.significant_append, Node.significant_append,
      Node.significant_cons, hlast, hfront, hgap, hrest, hclose, List.flatMap_cons]
    simp

/-- A completed literal reads as an object literal with the old members and then pairs for the
missing lists. Behind them is a comma if there was one behind the old members. -/
theorem completedLiteral_reads {tree : Node} (hb : Below ⟨0, tree⟩ o)
    (h : o.node.ObjectLiteral members trailing) (hown : o.node.FindsOwnComma)
    (hne : missing ≠ []) :
    (completedLiteral tree.text o missing).ObjectLiteral (members ++ missing.map emptyListPair)
      (trailing && !members.isEmpty) := by
  obtain ⟨before, after, hcut⟩ := (clear_iff_findsOwnComma hb h missing).2 hown
  have hmember (P : Node → Prop) (hold : ∀ m ∈ members, P m) (hnew : ∀ n, P (emptyListPair n)) :
      ∀ m ∈ members ++ missing.map emptyListPair, P m := by
    intro m hm
    rcases List.mem_append.1 hm with hm | hm
    · exact hold m hm
    · obtain ⟨n, _, rfl⟩ := List.mem_map.1 hm
      exact hnew n
  have hpair : Kind.pair ∈ memberKinds := by decide
  refine ⟨?_, ?_, completedLiteral_listed hb h hown hne, completedLiteral_spaced h hcut,
    hmember _ h.forms fun _ => hpair, hmember _ h.solid fun n => by simp [emptyListPair, mark]⟩
  · rw [completedLiteral_eq h hcut]
    exact h.isObject
  · obtain ⟨rest, z, rfl⟩ := (List.eq_nil_or_concat after).resolve_left hcut.after_ne
    have hz := h.closed
    rw [hcut.children_eq, List.concat_eq_append, ← List.append_assoc, List.getLast?_concat] at hz
    rw [completedLiteral_eq h hcut, Option.some.inj hz, List.concat_eq_append]
    change (_ ++ (rest ++ [mark '}'])).getLast? = _
    rw [← List.append_assoc, List.getLast?_concat]


end PlacedNode

end CustomElements
