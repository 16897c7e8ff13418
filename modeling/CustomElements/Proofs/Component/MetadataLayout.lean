import CustomElements.Proofs.Component.LiteralEnd
import CustomElements.Proofs.Component.Placement

/-!
# Where missing lists are written

Missing lists go between two children of an object literal: in front of the closing brace if there
are no members, else behind the last member or behind the comma after it. That comma is searched
for in the text, so the place may also be inside of a comment. It is between two children of the
literal exactly if what is found ends one of them (`between_iff_findsEdge`), and what is written
stands between two tokens exactly if the search finds no other comma than the one of the literal
(`clear_iff_findsOwnComma`).
-/

namespace CustomElements

open TypeScript (Node)
open TypeScript.Node (EndsWith mark significant textOf memberKinds)

namespace PlacedNode

variable {o : PlacedNode} {tree last : Node} {front tail members : List Node} {trailing : Bool}

theorem parts_eq_nil (h : o.node.ObjectLiteral [] trailing) : o.parts = [] := by
  have hp := map_node_parts o
  rw [h.parts_eq] at hp
  exact List.map_eq_nil_iff.1 hp

theorem getLast?_parts (h : o.node.EndsWith last front tail trailing) :
    o.parts.getLast? = some ⟨o.offset + (textOf front).length, last⟩ := by
  have hrest : (row (o.offset + (textOf front).length + last.text.length)
      (tail ++ [mark '}'])).filter
        (fun c => c.node.isNamed && decide (c.node.kind ≠ .comment)) = [] := by
    rw [List.filter_eq_nil_iff]
    intro c hc
    obtain ⟨ms, ms', hs, _⟩ := mem_row hc
    rw [Node.not_part (h.tail_not_part c.node (by rw [hs]; simp))]
    decide
  rw [parts, children, h.children_eq, row_append, row, List.filter_append, List.filter_cons,
    if_pos (Node.part_of_memberKinds h.isMember), hrest, List.getLast?_concat]

/-- What the search for a comma goes through is the text between the last member and the brace. -/
theorem segment_eq (hb : Below ⟨0, tree⟩ o) (h : o.node.EndsWith last front tail trailing) :
    (tree.text.take (o.stop - 1)).drop (o.offset + (textOf front).length + last.text.length) =
      textOf tail := by
  obtain ⟨before, after, ht, ho⟩ := hb.text
  change o.offset = 0 + before.length at ho
  have htext := Node.text_of_split h.children_eq
  rw [Node.textOf_append] at htext
  have hclose : textOf [mark '}'] = ['}'] := by simp [mark]
  rw [hclose] at htext
  have hlen := congrArg List.length htext
  simp only [List.length_append, List.length_singleton] at hlen
  have hstop : o.stop - 1 =
      (before ++ textOf front ++ last.text ++ textOf tail).length := by
    unfold stop
    simp only [List.length_append]
    omega
  have hskip : o.offset + (textOf front).length + last.text.length =
      (before ++ textOf front ++ last.text).length := by
    simp only [List.length_append]
    omega
  have hsrc : tree.text =
      before ++ textOf front ++ last.text ++ textOf tail ++ ('}' :: after) := by
    change (PlacedNode.mk 0 tree).node.text = _
    rw [ht, htext]
    simp
  rw [hsrc, hstop, List.take_left, hskip, List.drop_left]

theorem metadataInsertion_of_empty (source : List Char) (h : o.node.ObjectLiteral [] trailing)
    (missing : List Text) : (metadataInsertion source o missing).offset = o.stop - 1 := by
  rw [metadataInsertion, parts_eq_nil h]
  rfl

/-- Behind the last member, the search for a comma decides where lists are written and how. -/
theorem metadataInsertion_of_end (hb : Below ⟨0, tree⟩ o)
    (h : o.node.EndsWith last front tail trailing) (missing : List Text) :
    metadataInsertion tree.text o missing =
      let place := o.offset + (textOf front).length
      let gap := entryGap tree.text o ⟨place, last⟩
      match throughComma .outside (textOf tail) with
      | some k => ⟨place + last.text.length + k, gap ++ emptyLists gap missing ++ ","⟩
      | none => ⟨place + last.text.length, "," ++ gap ++ emptyLists gap missing⟩ := by
  have hs := segment_eq hb h
  rw [metadataInsertion, getLast?_parts h]
  change (match throughComma .outside ((tree.text.take (o.stop - 1)).drop
    (o.offset + (textOf front).length + last.text.length)) with
    | some k => _
    | none => _) = _
  rw [hs]
  rfl

/-- A point between two children of a node, and not where a line comment ends. -/
structure CutAt (o : PlacedNode) (point : Nat) (before after : List Node) : Prop where
  children_eq : o.node.children = before ++ after
  before_ne : before ≠ []
  after_ne : after ≠ []
  place : point = o.offset + (textOf before).length
  not_line : ∀ c ∈ before.getLast?, ¬ c.IsLineComment

/-- What is written at the point stands between two tokens of the node. -/
def Clear (o : PlacedNode) (point : Nat) : Prop := ∃ before after, o.CutAt point before after

theorem Clear.between {point : Nat} (h : o.Clear point) : o.Between point := by
  obtain ⟨before, after, hc⟩ := h
  exact ⟨before, after, hc.children_eq, hc.place⟩

theorem not_line_of_memberKinds (h : last.kind ∈ memberKinds) : ¬ last.IsLineComment := by
  rintro ⟨hk, _⟩
  rw [hk] at h
  exact absurd h (by decide)

/-- Without members, missing lists are written in front of the closing brace. -/
theorem cut_of_empty (source : List Char) (h : o.node.ObjectLiteral [] trailing)
    (missing : List Text) : ∃ inner, significant inner = [mark '{'] ∧
      o.CutAt (metadataInsertion source o missing).offset inner [mark '}'] := by
  obtain ⟨inner, hinner, hsig⟩ := h.exists_inner
  have hne : inner ≠ [] := by
    rintro rfl
    cases hsig
  have hopen : significant inner = [mark '{'] := by
    rw [hsig]
    cases trailing <;> rfl
  refine ⟨inner, hopen, hinner, hne, by simp, ?_, ?_⟩
  · have hlen := congrArg List.length (Node.text_of_split hinner)
    simp only [List.length_append, mark, Node.text_leaf, Node.textOf_nil, List.length_nil,
      List.length_singleton] at hlen
    rw [metadataInsertion_of_empty source h, stop]
    omega
  · intro c hc hline
    obtain ⟨xs, rfl⟩ := List.getLast?_eq_some_iff.1 hc
    have hs := h.spaced
    rw [hinner, List.append_assoc] at hs
    have hg := hs.gap (by rw [Node.isGap, hline.1]; rfl)
    exact hg.not_line (d := '}') (by simp [mark]) (by decide) hline

/-- Where no comma is found, missing lists are written behind the last member. -/
theorem cut_behind_member (hb : Below ⟨0, tree⟩ o) (h : o.node.EndsWith last front tail trailing)
    (hk : throughComma .outside (textOf tail) = none) (missing : List Text) :
    o.CutAt (metadataInsertion tree.text o missing).offset (front ++ [last])
      (tail ++ [mark '}']) := by
  refine ⟨by rw [h.children_eq]; simp, by simp, by simp, ?_, ?_⟩
  · rw [metadataInsertion_of_end hb h, hk]
    simp [Nat.add_assoc]
  · intro c hc
    rw [List.getLast?_concat] at hc
    obtain rfl := Option.some.inj hc
    exact not_line_of_memberKinds h.isMember

/-- Where the comma of the literal is found, missing lists are written behind it. -/
theorem cut_behind_comma {gap rest : List Node} (hb : Below ⟨0, tree⟩ o)
    (h : o.node.EndsWith last front (gap ++ mark ',' :: rest) trailing)
    (hk : throughComma .outside (textOf (gap ++ mark ',' :: rest)) =
      some ((textOf gap).length + 1)) (missing : List Text) :
    o.CutAt (metadataInsertion tree.text o missing).offset (front ++ last :: gap ++ [mark ','])
      (rest ++ [mark '}']) := by
  refine ⟨by rw [h.children_eq]; simp, by simp, by simp, ?_, ?_⟩
  · rw [metadataInsertion_of_end hb h, hk]
    simp [mark, Nat.add_assoc]
  · intro c hc
    rw [List.getLast?_concat] at hc
    obtain rfl := Option.some.inj hc
    rintro ⟨hk, _⟩
    cases hk

/-- What a search found, told as nodes: if the text up to it is a row of children, these end with
the comma of the literal or with a line comment. -/
theorem ends_of_throughComma {k : Nat} {found after : List Node}
    (hs : Node.Spaced (found ++ after) ['}'])
    (ht : significant (found ++ after) = if trailing then [mark ','] else [])
    (hk : throughComma .outside (textOf (found ++ after)) = some k)
    (hlen : (textOf found).length = k) :
    ∃ gap c, found = gap ++ [c] ∧ (c = mark ',' ∨ c.IsLineComment) := by
  obtain ⟨a, b, hab, rfl⟩ := comma_of_throughComma hk
  have hfound : textOf found = a ++ [','] := by
    rw [Node.textOf_append, List.append_cons] at hab
    exact (List.append_inj hab (by simpa using hlen)).1
  rcases List.eq_nil_or_concat found with rfl | ⟨gap, c, rfl⟩
  · simp at hfound
  refine ⟨gap, c, List.concat_eq_append, ?_⟩
  rw [List.concat_eq_append] at hs ht hfound
  by_cases hg : c.isGap
  · right
    rw [List.append_assoc] at hs
    have hgap := hs.gap hg
    refine hgap.line_of_comma ?_
    obtain ⟨t, d, hd⟩ := List.eq_nil_or_concat c.text |>.resolve_left hgap.text_ne_nil
    have hlast := congrArg List.getLast? hfound
    rw [Node.textOf_append, Node.textOf_cons, Node.textOf_nil, List.append_nil, hd,
      List.concat_eq_append, ← List.append_assoc, List.getLast?_concat, List.getLast?_concat,
      Option.some.injEq] at hlast
    rw [hd, List.concat_eq_append, List.getLast?_concat, hlast]
  · left
    have hc : c ∈ significant (gap ++ [c] ++ after) :=
      List.mem_filter.2 ⟨by simp, by simpa using hg⟩
    rw [ht] at hc
    cases trailing with
    | false => cases hc
    | true => exact List.mem_singleton.1 hc

/-- A cut behind the last member divides the tail. -/
theorem exists_of_cut {before after : List Node}
    (h : front ++ last :: (tail ++ [mark '}']) = before ++ after) (hne : after ≠ [])
    (hlt : (textOf front).length + last.text.length < (textOf before).length) :
    ∃ found after', before = front ++ last :: found ∧ tail = found ++ after' := by
  obtain ⟨after', z, rfl⟩ := (List.eq_nil_or_concat after).resolve_left hne
  rw [List.append_cons, List.concat_eq_append] at h
  rcases List.append_eq_append_iff.1 h with ⟨found, hb, hr⟩ | ⟨_, hb, _⟩
  · refine ⟨found, after', by rw [hb]; simp, ?_⟩
    rw [← List.append_assoc] at hr
    exact (List.append_inj' hr rfl).1
  · have hl := congrArg (fun ns => (textOf ns).length) hb
    simp only [Node.textOf_append, Node.textOf_cons, Node.textOf_nil, List.append_nil,
      List.length_append] at hl
    omega

/-- Missing lists are written between two tokens of the literal if and only if the search for a
comma finds no other one than that of the literal. -/
theorem clear_iff_findsOwnComma (hb : Below ⟨0, tree⟩ o)
    (h : o.node.ObjectLiteral members trailing) (missing : List Text) :
    o.Clear (metadataInsertion tree.text o missing).offset ↔ o.node.FindsOwnComma := by
  rcases List.eq_nil_or_concat members with rfl | ⟨ms, last, rfl⟩
  · obtain ⟨inner, _, hcut⟩ := cut_of_empty tree.text h missing
    exact ⟨fun _ => Node.findsOwnComma_of_empty h, fun _ => ⟨_, _, hcut⟩⟩
  rw [List.concat_eq_append] at h
  obtain ⟨front, tail, he, _⟩ := h.exists_end
  rw [Node.FindsOwnComma, he.afterMembers_eq]
  constructor
  · rintro ⟨before, after, hcut⟩ _ k hk
    have hkpos : 0 < k := by
      obtain ⟨a, b, _, rfl⟩ := comma_of_throughComma hk
      omega
    have hpoint := hcut.place
    rw [metadataInsertion_of_end hb he, hk] at hpoint
    change o.offset + (textOf front).length + last.text.length + k = _ at hpoint
    obtain ⟨found, after', rfl, rfl⟩ :=
      exists_of_cut (he.children_eq.symm.trans hcut.children_eq) hcut.after_ne (by omega)
    have hlen : (textOf found).length = k := by
      simp only [Node.textOf_append, Node.textOf_cons, List.length_append] at hpoint
      omega
    obtain ⟨gap, c, rfl, hc⟩ := ends_of_throughComma (he.tail_spaced h) he.listed hk hlen
    rcases hc with rfl | hc
    · refine ⟨gap, after', by simp, ?_⟩
      rw [← hlen]
      simp [mark]
    · refine (hcut.not_line c ?_ hc).elim
      rw [← List.cons_append, ← List.append_assoc, List.getLast?_concat]
      rfl
  · intro hown
    cases hk : throughComma .outside (textOf tail) with
    | none => exact ⟨_, _, cut_behind_member hb he hk missing⟩
    | some k =>
      obtain ⟨gap, rest, rfl, rfl⟩ := hown he.parts_ne_nil k hk
      exact ⟨_, _, cut_behind_comma hb he hk missing⟩

/-- Missing lists are written between two children of the literal if and only if what the search
for a comma finds ends a child. -/
theorem between_iff_findsEdge (hb : Below ⟨0, tree⟩ o)
    (h : o.node.ObjectLiteral members trailing) (missing : List Text) :
    o.Between (metadataInsertion tree.text o missing).offset ↔ o.node.FindsEdge := by
  rcases List.eq_nil_or_concat members with rfl | ⟨ms, last, rfl⟩
  · have hown := Node.findsOwnComma_of_empty h
    exact ⟨fun _ => hown.findsEdge,
      fun _ => ((clear_iff_findsOwnComma hb h missing).2 hown).between⟩
  rw [List.concat_eq_append] at h
  obtain ⟨front, tail, he, _⟩ := h.exists_end
  have hplace := metadataInsertion_of_end hb he missing
  rw [Node.FindsEdge, he.afterMembers_eq]
  constructor
  · rintro ⟨before, after, hcut, hpoint⟩ _ k hk
    obtain ⟨a, b, hab, rfl⟩ := comma_of_throughComma hk
    rw [hplace, hk] at hpoint
    change o.offset + (textOf front).length + last.text.length + (a.length + 1) = _ at hpoint
    have hboth := he.children_eq.symm.trans hcut
    have hne : after ≠ [] := by
      rintro rfl
      have hlen := congrArg (fun ns => (textOf ns).length) hboth
      have htail := congrArg List.length hab
      simp [mark] at hlen htail
      omega
    obtain ⟨found, after', rfl, rfl⟩ := exists_of_cut hboth hne (by omega)
    refine ⟨found, after', rfl, ?_⟩
    simp only [Node.textOf_append, Node.textOf_cons, List.length_append] at hpoint
    omega
  · intro hedge
    cases hk : throughComma .outside (textOf tail) with
    | none =>
      have hcut := cut_behind_member hb he hk missing
      exact Clear.between ⟨_, _, hcut⟩
    | some k =>
      obtain ⟨found, rest, rfl, rfl⟩ := hedge he.parts_ne_nil k hk
      refine ⟨front ++ last :: found, rest ++ [mark '}'], by rw [he.children_eq]; simp, ?_⟩
      rw [hplace, hk]
      simp [Nat.add_assoc]

/-- A child around a point behind the last member, and before the brace, stands in the tail. -/
theorem mem_tail_of_covers {c : PlacedNode} {point : Nat} (hc : c ∈ o.children)
    (h : o.node.EndsWith last front tail trailing) (hcov : c.Covers point)
    (hlow : o.offset + (textOf front).length + last.text.length < point)
    (hhigh : point ≤ o.offset + (textOf front).length + last.text.length + (textOf tail).length) :
    ∃ gap after, tail = gap ++ c.node :: after ∧
      c.offset = o.offset + (textOf front).length + last.text.length + (textOf gap).length := by
  obtain ⟨hcl, hch⟩ := hcov
  unfold stop at hch
  obtain ⟨xs, ys, hs, ho⟩ := mem_row hc
  have hboth := h.children_eq.symm.trans hs
  have hlen := congrArg (fun ns => (textOf ns).length) hboth
  simp only [Node.textOf_append, Node.textOf_cons, Node.textOf_nil, mark, Node.text_leaf,
    List.length_append, List.length_cons, List.length_nil] at hlen
  have hys : ys ≠ [] := by
    rintro rfl
    have hbrace := congrArg List.getLast? hboth
    rw [← List.cons_append, ← List.append_assoc, List.getLast?_concat, List.getLast?_concat]
      at hbrace
    rw [← Option.some.inj hbrace, mark, Node.text_leaf, List.length_singleton] at hch
    rw [← Option.some.inj hbrace, mark, Node.text_leaf, Node.textOf_nil, List.length_singleton,
      List.length_nil] at hlen
    omega
  have hcut : front ++ last :: (tail ++ [mark '}']) = xs ++ [c.node] ++ ys := by
    rw [hboth]
    simp
  obtain ⟨found, after, hf, rfl⟩ := exists_of_cut hcut hys (by simp; omega)
  rcases List.eq_nil_or_concat found with rfl | ⟨gap, d, rfl⟩
  · obtain ⟨rfl, hd⟩ := List.append_inj' hf rfl
    rw [List.singleton_inj.1 hd] at hch
    omega
  · rw [List.concat_eq_append, ← List.cons_append, ← List.append_assoc] at hf
    obtain ⟨rfl, hd⟩ := List.append_inj' hf rfl
    obtain rfl := List.singleton_inj.1 hd
    refine ⟨gap, after, by simp, ?_⟩
    rw [ho, Node.textOf_append, Node.textOf_cons, List.length_append, List.length_append]
    omega

/-- The character before a point is one of the node around that point. -/
theorem comma_mem_of_around {p t r a b : List Char} (h : p ++ (t ++ r) = a ++ ',' :: b)
    (hlow : p.length < a.length + 1) (hhigh : a.length + 1 < p.length + t.length) : ',' ∈ t := by
  have hat : (p ++ (t ++ r))[a.length]? = some ',' := by
    rw [h, List.getElem?_append_right (Nat.le_refl _), Nat.sub_self, List.getElem?_cons_zero]
  rw [List.getElem?_append_right (by omega), List.getElem?_append_left (by omega)] at hat
  exact List.mem_of_getElem? hat

/-- A blank holds no comma, and a comma has no inside. -/
theorem comment_of_comma_mem {gap after : List Node} {c : Node}
    (hs : Node.Spaced (gap ++ c :: after) ['}'])
    (ht : significant (gap ++ c :: after) = if trailing then [mark ','] else [])
    (hcomma : ',' ∈ c.text) (hlen : c.text.length ≠ 1) : ∃ s, c = .leaf .comment s := by
  by_cases hg : c.isGap
  · have hs' : Node.Spaced (gap ++ [c] ++ after) ['}'] := by simpa using hs
    rw [List.append_assoc] at hs'
    cases hs'.gap hg with
    | blank _ hblank =>
      have := hblank ',' (by simpa using hcomma)
      exact absurd this (by decide)
    | line _ _ => exact ⟨_, rfl⟩
    | block _ => exact ⟨_, rfl⟩
  · have hmark : c ∈ significant (gap ++ c :: after) :=
      List.mem_filter.2 ⟨by simp, by simpa using hg⟩
    rw [ht] at hmark
    cases trailing with
    | false => cases hmark
    | true =>
      rw [List.mem_singleton.1 hmark] at hlen
      exact (hlen rfl).elim

/-- A child of the literal that missing lists are written into is a comment. -/
theorem comment_of_covers (hb : Below ⟨0, tree⟩ o) (h : o.node.ObjectLiteral members trailing)
    (missing : List Text) {c : PlacedNode} (hc : c ∈ o.children)
    (hcov : c.Covers (metadataInsertion tree.text o missing).offset) :
    ∃ s, c.node = .leaf .comment s := by
  rcases List.eq_nil_or_concat members with rfl | ⟨ms, last, rfl⟩
  · have hclear := (clear_iff_findsOwnComma hb h missing).2 (Node.findsOwnComma_of_empty h)
    exact (hclear.between.not_covers hc hcov).elim
  rw [List.concat_eq_append] at h
  obtain ⟨front, tail, he, _⟩ := h.exists_end
  cases hk : throughComma .outside (textOf tail) with
  | none =>
    have hcut := cut_behind_member hb he hk missing
    exact (Between.not_covers (Clear.between ⟨_, _, hcut⟩) hc hcov).elim
  | some k =>
    obtain ⟨a, b, hab, rfl⟩ := comma_of_throughComma hk
    rw [metadataInsertion_of_end hb he, hk] at hcov
    have htail := congrArg List.length hab
    rw [List.length_append, List.length_cons] at htail
    obtain ⟨gap, after, rfl, ho⟩ := mem_tail_of_covers hc he hcov (by simp) (by simp; omega)
    obtain ⟨hlow, hhigh⟩ := hcov
    change c.offset < o.offset + (textOf front).length + last.text.length + (a.length + 1) at hlow
    change o.offset + (textOf front).length + last.text.length + (a.length + 1) <
      c.offset + c.node.text.length at hhigh
    rw [Node.textOf_append, Node.textOf_cons] at hab
    exact comment_of_comma_mem (he.tail_spaced h) he.listed
      (comma_mem_of_around hab (by omega) (by omega)) (by omega)

theorem textOf_length_pos {ns : List Node} {c : Char} (h : mark c ∈ ns) :
    0 < (textOf ns).length := by
  obtain ⟨xs, ys, rfl⟩ := List.append_of_mem h
  simp only [Node.textOf_append, Node.textOf_cons, List.length_append, mark, Node.text_leaf,
    List.length_singleton]
  omega

theorem mem_of_significant {ns ms : List Node} {m : Node} (h : significant ns = m :: ms) :
    m ∈ ns := by
  have hm : m ∈ significant ns := by rw [h]; exact List.mem_cons_self
  exact (List.mem_filter.1 hm).1

/-- Wherever a comma is found, missing lists are written between the braces of the literal. -/
theorem metadataInsertion_covers (hb : Below ⟨0, tree⟩ o)
    (h : o.node.ObjectLiteral members trailing) (missing : List Text) :
    o.Covers (metadataInsertion tree.text o missing).offset := by
  rcases List.eq_nil_or_concat members with rfl | ⟨ms, last, rfl⟩
  · obtain ⟨inner, hinner, hsig⟩ := h.exists_inner
    have hpos := textOf_length_pos (mem_of_significant hsig)
    have hlen := congrArg List.length (Node.text_of_split hinner)
    simp only [List.length_append, mark, Node.text_leaf, Node.textOf_nil, List.length_nil,
      List.length_singleton] at hlen
    rw [metadataInsertion_of_empty tree.text h]
    constructor
    · unfold stop; omega
    · unfold stop; omega
  · rw [List.concat_eq_append] at h
    obtain ⟨front, tail, he, hfront⟩ := h.exists_end
    have hpos := textOf_length_pos (mem_of_significant hfront)
    have hlen := congrArg List.length (Node.text_of_split he.children_eq)
    simp only [Node.textOf_append, List.length_append, mark, Node.textOf_cons, Node.text_leaf,
      Node.textOf_nil, List.append_nil, List.length_singleton] at hlen
    rw [metadataInsertion_of_end hb he]
    cases hk : throughComma .outside (textOf tail) with
    | none => constructor <;> simp only [stop] <;> omega
    | some k =>
      obtain ⟨a, b, hab, rfl⟩ := comma_of_throughComma hk
      rw [hab, List.length_append, List.length_cons] at hlen
      constructor <;> simp only [stop] <;> omega

end PlacedNode

end CustomElements
