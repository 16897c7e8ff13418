import CustomElements.Component.Metadata
import CustomElements.Proofs.TypeScript.Branches

/-!
# Places of nodes in a source text

The places of nodes are nested and ordered: a node lies where its parent lies, and its siblings lie
before or after it. So the nodes around a point of the text form one path from the root down
(`Path.around`), and a point between two children of a node is inside of that node and of the nodes
above it, and of no other node (`Between.not_covers`).
-/

namespace CustomElements

open TypeScript (Node Kind)

/-- A node with a child among its children is the row of these. -/
theorem TypeScript.Node.text_of_split {n c : Node} {ms ms' : List Node}
    (h : n.children = ms ++ c :: ms') :
    n.text = Node.textOf ms ++ (c.text ++ Node.textOf ms') := by
  cases n with
  | leaf k s => cases ms <;> cases h
  | branch k cs =>
    change cs = _ at h
    rw [Node.text_branch, h, Node.textOf_append, Node.textOf_cons]

namespace PlacedNode

theorem row_append (offset : Nat) (ms ns : List Node) :
    row offset (ms ++ ns) = row offset ms ++ row (offset + (Node.textOf ms).length) ns := by
  induction ms generalizing offset with
  | nil => simp [row]
  | cons m ms ih =>
    rw [List.cons_append, row, row, ih, Node.textOf_cons, List.length_append, Nat.add_assoc]
    rfl

@[simp] theorem map_node_row (offset : Nat) (ns : List Node) : (row offset ns).map node = ns := by
  induction ns generalizing offset with
  | nil => rfl
  | cons n ns ih => rw [row, List.map_cons, ih]

theorem mem_row {offset : Nat} {ns : List Node} {p : PlacedNode} (h : p ∈ row offset ns) :
    ∃ ms ms', ns = ms ++ p.node :: ms' ∧ p.offset = offset + (Node.textOf ms).length := by
  induction ns generalizing offset with
  | nil => cases h
  | cons n ns ih =>
    rcases List.mem_cons.1 h with rfl | h
    · exact ⟨[], ns, rfl, rfl⟩
    · obtain ⟨ms, ms', rfl, ho⟩ := ih h
      refine ⟨n :: ms, ms', rfl, ?_⟩
      rw [ho, Node.textOf_cons, List.length_append, Nat.add_assoc]

@[simp] theorem map_node_children (p : PlacedNode) : p.children.map node = p.node.children :=
  map_node_row ..

theorem map_node_parts (p : PlacedNode) : p.parts.map node = p.node.parts := by
  rw [Node.parts, Node.namedChildren, List.filter_filter, ← map_node_children, List.filter_map,
    parts]
  congr 1
  exact List.filter_congr fun c _ => Bool.and_comm ..

theorem map_node_find? (ps : List PlacedNode) (f : Node → Bool) :
    (ps.find? fun c => f c.node).map node = (ps.map node).find? f :=
  (List.find?_map ..).symm

theorem map_node_child? (p : PlacedNode) (k : Kind) : (p.child? k).map node = p.node.child? k := by
  rw [child?, map_node_find? p.children fun c => decide (c.kind = k), map_node_children]
  rfl

theorem map_node_head?_parts (p : PlacedNode) : p.parts.head?.map node = p.node.parts.head? := by
  rw [← map_node_parts, List.head?_map]

/-- The children of a node lie inside of it. -/
theorem range_of_mem_children {p c : PlacedNode} (h : c ∈ p.children) :
    p.offset ≤ c.offset ∧ c.stop ≤ p.stop := by
  obtain ⟨ms, ms', hs, ho⟩ := mem_row h
  have ht := congrArg List.length (Node.text_of_split hs)
  rw [List.length_append, List.length_append] at ht
  unfold stop
  omega

/-- Each node of a row ends where the next ones start, or before. -/
theorem row_ordered (offset : Nat) (ns : List Node) :
    (row offset ns).Pairwise fun p q => p.stop ≤ q.offset := by
  induction ns generalizing offset with
  | nil => exact .nil
  | cons n ns ih =>
    refine .cons ?_ (ih _)
    intro q hq
    obtain ⟨_, _, _, ho⟩ := mem_row hq
    rw [ho]
    exact Nat.le_add_right ..

/-- Of two nodes in a row, one lies before the other. -/
theorem eq_of_covering {offset : Nat} {ns : List Node} {c d : PlacedNode} {point : Nat}
    (hc : c ∈ row offset ns) (hd : d ∈ row offset ns) (hc1 : c.offset < point)
    (hc2 : point < c.stop) (hd1 : d.offset < point) (hd2 : point < d.stop) : c = d := by
  have hlow {offset : Nat} {ns : List Node} {c : PlacedNode} (h : c ∈ row offset ns) :
      offset ≤ c.offset := by
    obtain ⟨_, _, _, ho⟩ := mem_row h
    omega
  induction ns generalizing offset with
  | nil => cases hc
  | cons n ns ih =>
    rcases List.mem_cons.1 hc with rfl | hc
    · rcases List.mem_cons.1 hd with rfl | hd
      · rfl
      · have := hlow hd
        change point < offset + n.text.length at hc2
        omega
    · rcases List.mem_cons.1 hd with rfl | hd
      · have := hlow hc
        change point < offset + n.text.length at hd2
        omega
      · exact ih hc hd

/-- `Below p q`: the node `q` is `p`, or it lies below `p`. -/
inductive Below : PlacedNode → PlacedNode → Prop where
  | here (p : PlacedNode) : Below p p
  | step {p c q : PlacedNode} (child : c ∈ p.children) (below : Below c q) : Below p q

theorem Below.of_child {p c : PlacedNode} (h : c ∈ p.children) : Below p c := .step h (.here c)

theorem Below.trans {p q r : PlacedNode} (h : Below p q) (h' : Below q r) : Below p r := by
  induction h with
  | here _ => exact h'
  | step hc _ ih => exact .step hc (ih h')

theorem Below.range {p q : PlacedNode} (h : Below p q) : p.offset ≤ q.offset ∧ q.stop ≤ p.stop := by
  induction h with
  | here _ => exact ⟨Nat.le_refl _, Nat.le_refl _⟩
  | step hc _ ih =>
    have hr := range_of_mem_children hc
    omega

/-- What lies below a node is a part of its text. -/
theorem Below.text {p q : PlacedNode} (h : Below p q) :
    ∃ before after, p.node.text = before ++ q.node.text ++ after ∧
      q.offset = p.offset + before.length := by
  induction h with
  | here _ => exact ⟨[], [], by simp, by simp⟩
  | @step p c q hc _ ih =>
    obtain ⟨before, after, ht, ho⟩ := ih
    obtain ⟨ms, ms', hs, hoc⟩ := mem_row hc
    refine ⟨Node.textOf ms ++ before, after ++ Node.textOf ms', ?_, ?_⟩
    · rw [Node.text_of_split hs, ht]
      simp only [List.append_assoc]
    · rw [ho, hoc, List.length_append]
      omega

theorem Below.everywhere {p q : PlacedNode} {P : Node → Prop} (h : Below p q)
    (hp : p.node.Everywhere P) : q.node.Everywhere P := by
  induction h with
  | here _ => exact hp
  | @step p c q hc _ ih =>
    refine ih (hp.child ?_)
    rw [← map_node_children]
    exact List.mem_map_of_mem hc

/-- A point is strictly inside of a node. -/
def Covers (p : PlacedNode) (point : Nat) : Prop := p.offset < point ∧ point < p.stop

theorem Below.covers {p q : PlacedNode} {point : Nat} (h : Below p q) (hq : q.Covers point) :
    p.Covers point := by
  have hr := h.range
  exact ⟨Nat.lt_of_le_of_lt hr.1 hq.1, Nat.lt_of_lt_of_le hq.2 hr.2⟩

/-- A point lies between two children of a node, or at one of its ends. -/
def Between (p : PlacedNode) (point : Nat) : Prop :=
  ∃ before after, p.node.children = before ++ after ∧
    point = p.offset + (Node.textOf before).length

/-- No child of a node is around a point between its children. -/
theorem Between.not_covers {p c : PlacedNode} {point : Nat} (h : p.Between point)
    (hc : c ∈ p.children) : ¬ c.Covers point := by
  obtain ⟨before, after, hs, rfl⟩ := h
  rintro ⟨h1, h2⟩
  rw [children, hs, row_append] at hc
  rcases List.mem_append.1 hc with hc | hc
  · obtain ⟨ms, ms', hb, ho⟩ := mem_row hc
    rw [hb, Node.textOf_append, Node.textOf_cons, List.length_append, List.length_append] at h2
    unfold stop at h2
    omega
  · obtain ⟨ms, ms', rfl, ho⟩ := mem_row hc
    omega

/-- The way from a node down to one below it, with the kinds of the nodes on the way. -/
inductive Path : PlacedNode → PlacedNode → List Kind → Prop where
  | here (p : PlacedNode) : Path p p [p.node.kind]
  | step {p c q : PlacedNode} {ks : List Kind} (child : c ∈ p.children) (path : Path c q ks) :
      Path p q (p.node.kind :: ks)

theorem Path.leads_below {p q : PlacedNode} {ks : List Kind} (h : Path p q ks) : Below p q := by
  induction h with
  | here p => exact .here p
  | step hc _ ih => exact .step hc ih

/-- Inside of a row, a point lies between two nodes or inside of one. -/
theorem between_or_covers_of_row {offset point : Nat} {ns : List Node} (hl : offset ≤ point)
    (hr : point ≤ offset + (Node.textOf ns).length) :
    (∃ before after, ns = before ++ after ∧ point = offset + (Node.textOf before).length) ∨
      ∃ c ∈ row offset ns, c.Covers point := by
  induction ns generalizing offset with
  | nil =>
    rw [Node.textOf_nil] at hr
    exact .inl ⟨[], [], rfl, Nat.le_antisymm hr hl⟩
  | cons n ns ih =>
    rw [Node.textOf_cons, List.length_append] at hr
    by_cases hn : point < offset + n.text.length
    · by_cases ho : point = offset
      · exact .inl ⟨[], n :: ns, rfl, ho⟩
      · exact .inr ⟨⟨offset, n⟩, List.mem_cons_self, by change offset < point; omega, hn⟩
    · have hrest := @ih (offset + n.text.length) (by omega) (by omega)
      rcases hrest with ⟨before, after, rfl, hb⟩ | ⟨c, hc, hcov⟩
      · refine .inl ⟨n :: before, after, rfl, ?_⟩
        rw [hb, Node.textOf_cons, List.length_append, Nat.add_assoc]
      · exact .inr ⟨c, List.mem_cons_of_mem _ hc, hcov⟩

/-- A point inside of a node is between two children of it or inside of one. -/
theorem between_or_covers {p : PlacedNode} {point : Nat} (h : p.Covers point)
    (hp : p.node.text = Node.textOf p.node.children) :
    p.Between point ∨ ∃ c ∈ p.children, c.Covers point := by
  obtain ⟨hl, hr⟩ := h
  unfold stop at hr
  rw [hp] at hr
  exact between_or_covers_of_row (Nat.le_of_lt hl) (Nat.le_of_lt hr)

/-- The nodes around a point are on the way to a node around it, or they lie below a child of that
node. -/
theorem Path.around {p q r : PlacedNode} {ks : List Kind} {point : Nat} (h : Path p q ks)
    (hq : q.Covers point) (hr : Below p r) (hrp : r.Covers point) :
    r.node.kind ∈ ks ∧ Below r q ∨ ∃ c ∈ q.children, c.Covers point ∧ Below c r := by
  induction h with
  | here p =>
    cases hr with
    | here _ => exact .inl ⟨List.mem_singleton_self _, .here _⟩
    | step hc hcr => exact .inr ⟨_, hc, hcr.covers hrp, hcr⟩
  | @step p c q ks hc hpath ih =>
    cases hr with
    | here _ => exact .inl ⟨List.mem_cons_self, .step hc hpath.leads_below⟩
    | step hd hdr =>
      have hcp := hpath.leads_below.covers hq
      have hdp := hdr.covers hrp
      obtain rfl := eq_of_covering hc hd hcp.1 hcp.2 hdp.1 hdp.2
      refine (ih hq hdr).imp_left ?_
      rintro ⟨hk, hrq⟩
      exact ⟨List.mem_cons_of_mem _ hk, hrq⟩

end PlacedNode

end CustomElements
