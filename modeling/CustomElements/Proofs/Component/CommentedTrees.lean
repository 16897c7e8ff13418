import CustomElements.Component.Member
import CustomElements.Proofs.Component.CompletedTree
import CustomElements.Proofs.Component.ExtractedMembers
import CustomElements.Proofs.RelatedAnswers

/-!
# Trees with more comments

`Commented n n'` says that `n'` is `n` with more comments and blanks among the children of its
branches, at any depth, but in none of the slices that are copied as names and types
(`KeepsSlices`). What the analysis reads of literals, pairs and calls is the same in both.
-/

namespace CustomElements

open TypeScript (Node Kind EscapeError)
open TypeScript.Node

namespace TypeScript.Node

/-- The row `ns'` has related nodes for those of `ns`, and comments and blanks between them. -/
inductive WithGaps (R : Node → Node → Prop) : List Node → List Node → Prop where
  | nil : WithGaps R [] []
  | gap {g : Node} {ns ns' : List Node} (isGap : g.isGap) (rest : WithGaps R ns ns') :
      WithGaps R ns (g :: ns')
  | node {n n' : Node} {ns ns' : List Node} (related : R n n') (rest : WithGaps R ns ns') :
      WithGaps R (n :: ns) (n' :: ns')

/-- What is copied from a node is the same in both: the name and the type of a field, the first type
argument of its value, and the last name of an access to a member. -/
structure KeepsSlices (n n' : Node) : Prop where
  name : n.kind = .field → ∀ name name', n.IsFieldName name → n'.IsFieldName name' →
    name.kind = .computedName → name' = name
  type : n.kind = .field → n'.ascribedType? = n.ascribedType?
  typeArgument : n.kind = .field → ∀ call call', n.fieldValue? = some call →
    n'.fieldValue? = some call' → call'.callTypeArguments.head? = call.callTypeArguments.head?
  accessed : n.kind = .member → n'.parts.getLast? = n.parts.getLast?

theorem KeepsSlices.of_kind {n n' : Node} (hf : n.kind ≠ .field) (hm : n.kind ≠ .member) :
    KeepsSlices n n' :=
  ⟨fun hk => (hf hk).elim, fun hk => (hf hk).elim, fun hk => (hf hk).elim, fun hk => (hm hk).elim⟩

/-- The kinds of nodes that are names. -/
def nameKinds : List Kind := [.identifier, .propertyName, .privateName, .number]

/-- The node `n'` is `n` with more comments and blanks outside the slices that are copied. -/
inductive Commented : Node → Node → Prop where
  | same (n : Node) : Commented n n
  | branch {k : Kind} {cs cs' : List Node} (free : k ∉ nameKinds)
      (kept : KeepsSlices (.branch k cs) (.branch k cs')) (row : WithGaps Commented cs cs') :
      Commented (.branch k cs) (.branch k cs')

variable {R S : Node → Node → Prop} {n n' : Node} {ns ns' : List Node}

namespace WithGaps

theorem refl (h : ∀ n, R n n) (ns : List Node) : WithGaps R ns ns := by
  induction ns with
  | nil => exact .nil
  | cons n ns ih => exact .node (h n) ih

/-- What is chosen among nodes and gaps by a property of the nodes is related one by one. -/
theorem filter (h : WithGaps R ns ns') {p : Node → Bool} (hgap : ∀ g : Node, g.isGap → p g = false)
    (hp : ∀ n n', R n n' → p n' = p n) : List.Forall₂ R (ns.filter p) (ns'.filter p) := by
  induction h with
  | nil => exact .nil
  | gap isGap _ ih => rwa [List.filter_cons_of_neg (by rw [hgap _ isGap]; decide)]
  | @node n n' ns ns' related _ ih =>
    rw [List.filter_cons, List.filter_cons, hp n n' related]
    cases p n with
    | true => exact .cons related ih
    | false => exact ih

theorem filterMap {α β : Type} {S : α → β → Prop} {f : Node → Option α} {g : Node → Option β}
    (h : WithGaps R ns ns') (hgap : ∀ n : Node, n.isGap → g n = none)
    (hf : ∀ n n', R n n' → Option.Rel S (f n) (g n')) :
    List.Forall₂ S (ns.filterMap f) (ns'.filterMap g) := by
  induction h with
  | nil => exact .nil
  | gap isGap _ ih => rwa [List.filterMap_cons_none (hgap _ isGap)]
  | @node n n' ns ns' related _ ih =>
    rcases optionRel_cases (hf n n' related) with ⟨hx, hx'⟩ | ⟨a, b, hx, hx', hab⟩
    · rwa [List.filterMap_cons_none hx, List.filterMap_cons_none hx']
    · rw [List.filterMap_cons_some hx, List.filterMap_cons_some hx']
      exact .cons hab ih

/-- Behind the gaps, a row begins with a comment, or its first named node is its first part. -/
theorem head?_named (h : WithGaps R ns ns') (hkind : ∀ n n', R n n' → n'.kind = n.kind) :
    (∃ t, (ns'.filter isNamed).head? = some t ∧ t.kind = .comment) ∨
      (ns'.filter isNamed).head? = (ns'.filter isPart).head? ∧
      (ns.filter isNamed).head? = (ns.filter isPart).head? := by
  induction h with
  | nil => exact .inr ⟨rfl, rfl⟩
  | @gap g ns ns' isGap _ ih =>
    cases hk : g.kind with
    | comment => exact .inl ⟨g, by simp [isNamed, hk], hk⟩
    | blank => simpa [isNamed, isPart, hk] using ih
    | _ => simp [Node.isGap, hk] at isGap
  | @node n n' ns ns' related _ ih =>
    have hk := hkind _ _ related
    by_cases hnamed : n.isNamed
    · have hnamed' : n'.isNamed := by rwa [isNamed, hk]
      rw [List.filter_cons_of_pos hnamed', List.filter_cons_of_pos hnamed]
      by_cases hcomment : n.kind = .comment
      · exact .inl ⟨n', rfl, hk.trans hcomment⟩
      · have hpart : n.isPart := by simp [isPart, hnamed, hcomment]
        have hpart' : n'.isPart := by rwa [isPart_of_kind hk]
        rw [List.filter_cons_of_pos hpart', List.filter_cons_of_pos hpart]
        exact .inr ⟨rfl, rfl⟩
    · have hnamed' : ¬ n'.isNamed := by rwa [isNamed, hk]
      have hpart : ¬ n.isPart := by simp [isPart, hnamed]
      have hpart' : ¬ n'.isPart := by rwa [isPart_of_kind hk]
      rwa [List.filter_cons_of_neg hnamed', List.filter_cons_of_neg hnamed,
        List.filter_cons_of_neg hpart', List.filter_cons_of_neg hpart]

end WithGaps

namespace Commented

theorem kind_eq (h : Commented n n') : n'.kind = n.kind := by
  cases h with
  | same => rfl
  | branch => rfl

theorem row (h : Commented n n') : WithGaps Commented n.children n'.children := by
  cases h with
  | same => exact .refl .same _
  | branch _ _ row => exact row

theorem keepsSlices (h : Commented n n') : KeepsSlices n n' := by
  cases h with
  | same => 
    refine ⟨fun _ name name' h h' _ => ?_, fun _ => rfl, fun _ call call' h h' => ?_, fun _ => rfl⟩
    · rw [← find?_eq_some_iff_isFieldName] at h h'
      exact Option.some.inj (h'.symm.trans h)
    · rw [Option.some.inj (h'.symm.trans h)]
  | branch _ kept _ => exact kept

/-- Names are not changed. -/
theorem eq_of_name (h : Commented n n') (hk : n.kind ∈ nameKinds) : n' = n := by
  cases h with
  | same => rfl
  | branch free => exact (free hk).elim

/-- The children of some kinds, blanks and comments not among them, are the same but for their own
comments. -/
theorem filter (h : Commented n n') {q : Kind → Bool} (hblank : q .blank = false)
    (hcomment : q .comment = false) :
    List.Forall₂ Commented (n.children.filter fun c => q c.kind)
      (n'.children.filter fun c => q c.kind) := by
  refine h.row.filter (fun g hg => ?_) fun _ _ hc => by rw [hc.kind_eq]
  rw [isGap, Bool.or_eq_true, decide_eq_true_eq, decide_eq_true_eq] at hg
  rcases hg with hg | hg
  · rw [hg, hblank]
  · rw [hg, hcomment]

theorem parts (h : Commented n n') : List.Forall₂ Commented n.parts n'.parts := by
  rw [parts_eq_filter, parts_eq_filter]
  exact h.filter (q := fun k => isPart (.leaf k [])) rfl rfl

theorem childrenOf (h : Commented n n') {k : Kind} (hk : k ≠ .blank ∧ k ≠ .comment) :
    List.Forall₂ Commented (n.childrenOf k) (n'.childrenOf k) :=
  h.filter (q := fun c => decide (c = k)) (decide_eq_false hk.1.symm) (decide_eq_false hk.2.symm)

theorem child? (h : Commented n n') {k : Kind} (hk : k ≠ .blank ∧ k ≠ .comment) :
    Option.Rel Commented (n.child? k) (n'.child? k) := by
  have hfirst := forall₂_head? (h.childrenOf hk)
  rwa [Node.childrenOf, Node.childrenOf, List.head?_filter, List.head?_filter] at hfirst

theorem callArguments (h : Commented n n') :
    List.Forall₂ Commented n.callArguments n'.callArguments := by
  rw [Node.callArguments, Node.callArguments]
  rcases optionRel_cases (h.child? (k := .arguments) (by decide)) with
    ⟨hx, hx'⟩ | ⟨list, list', hx, hx', hlist⟩
  · rw [hx, hx']
    exact .nil
  · rw [hx, hx']
    exact hlist.parts

theorem pieceValue (h : Commented n n') : n'.pieceValue = n.pieceValue := by
  cases h with
  | same => rfl
  | branch => rfl

/-- Comments add nothing to the value of a literal. -/
theorem literalValue (h : WithGaps Commented ns ns') :
    Node.literalValue ns' = Node.literalValue ns := by
  induction h with
  | nil => rfl
  | @gap g ns ns' isGap _ ih =>
    rw [Node.isGap, Bool.or_eq_true, decide_eq_true_eq, decide_eq_true_eq] at isGap
    have hnone : g.pieceValue = .ok [] := by
      rcases isGap with hk | hk <;> exact pieceValue_of_other (by rw [hk]; decide) (by rw [hk]; decide)
    rw [literalValue_cons, hnone, ih]
    cases Node.literalValue ns <;> rfl
  | @node n n' ns ns' related _ ih =>
    rw [literalValue_cons, literalValue_cons, related.pieceValue, ih]

theorem stringValue? (h : Commented n n') : n'.stringValue? = n.stringValue? := by
  rw [Node.stringValue?, Node.stringValue?, h.kind_eq, literalValue h.row]

theorem keyName? (h : Commented n n') : n'.keyName? = n.keyName? := by
  have hname {k : Kind} (hk : n.kind = k) (hmem : k ∈ nameKinds) : n' = n :=
    h.eq_of_name (hk ▸ hmem)
  rw [Node.keyName?, Node.keyName?, h.kind_eq]
  split
  · exact h.stringValue?
  · next hk => rw [hname hk (by decide)]
  · next hk => rw [hname hk (by decide)]
  · next hk => rw [hname hk (by decide)]
  · next hk => rw [hname hk (by decide)]
  · rfl

/-- A pair has the key and the value that it had, with more comments in them. -/
theorem keyAndValue? (h : Commented n n') :
    Option.Rel (fun kv kv' => Commented kv.1 kv'.1 ∧ Commented kv.2 kv'.2)
      n.keyAndValue? n'.keyAndValue? := by
  rw [Node.keyAndValue?, Node.keyAndValue?, h.kind_eq]
  by_cases hk : n.kind = .pair
  · rw [if_pos hk, if_pos hk]
    rcases optionRel_cases (forall₂_head? h.parts) with ⟨hx, hx'⟩ | ⟨key, key', hx, hx', hkey⟩
    · rw [hx, hx']
      exact .none
    rcases optionRel_cases (forall₂_getLast? (forall₂_tail h.parts)) with
      ⟨hy, hy'⟩ | ⟨value, value', hy, hy', hvalue⟩
    · rw [hx, hx', hy, hy']
      exact .none
    · rw [hx, hx', hy, hy']
      exact .some ⟨hkey, hvalue⟩
  · rw [if_neg hk, if_neg hk]
    exact .none

/-- The same pair is found, or none, or the search fails at the same key. -/
theorem findPair {name : Text} (h : List.Forall₂ Commented ns ns') :
    AnswersAlike (Option.Rel Commented) (Node.findPair name ns) (Node.findPair name ns') := by
  induction h with
  | nil => exact .ok .none
  | @cons n n' ns ns' hn _ ih =>
    rcases optionRel_cases hn.keyAndValue? with ⟨hkv, hkv'⟩ | ⟨kv, kv', hkv, hkv', hkey, hvalue⟩
    · rwa [findPair_of_none hkv, findPair_of_none hkv']
    · rw [findPair_of_some hkv, findPair_of_some hkv', hkey.keyName?]
      cases kv.1.keyName? with
      | error e => exact .error e
      | ok key =>
        by_cases hname : key = some name
        · simpa [bind, Except.bind, hname] using AnswersAlike.ok (.some hvalue)
        · simpa [bind, Except.bind, hname] using ih

theorem stringProperty? (h : Commented n n') (name : Text) :
    n'.stringProperty? name = n.stringProperty? name := by
  by_cases hk : n.kind = .object
  · rw [stringProperty?_of_object hk, stringProperty?_of_object (h.kind_eq.trans hk)]
    refine (AnswersAlike.bind (findPair h.parts) fun v v' hv => ?_).eq.symm
    cases hv with
    | none => exact .ok rfl
    | some hv => exact .of_eq hv.stringValue?.symm
  · rw [stringProperty?_of_ne hk, stringProperty?_of_ne (h.kind_eq ▸ hk)]

end Commented

end TypeScript.Node

/-! ### Calls -/

section Calls

variable {n n' call call' : Node} {ns ns' : List Node}

theorem aliasAmong_commented (h : List.Forall₂ Commented ns ns') :
    aliasAmong ns' = aliasAmong ns := by
  induction h with
  | nil => rfl
  | cons first _ ih => rw [aliasAmong_cons, aliasAmong_cons, first.stringProperty?, ih]

theorem aliasOf_commented (h : Commented call call') : aliasOf call' = aliasOf call :=
  aliasAmong_commented (List.forall₂_take 2 h.callArguments)

/-- A call has the shape that it had. -/
theorem callShape_commented (h : Commented call call') :
    CallShape.ofNode call' = CallShape.ofNode call := by
  rw [CallShape.ofNode, CallShape.ofNode, h.kind_eq]
  rcases optionRel_cases (forall₂_head? h.parts) with
    ⟨hx, hx'⟩ | ⟨callee, callee', hx, hx', hcallee⟩
  · rw [hx, hx']
  rw [hx, hx']
  dsimp only
  rw [hcallee.kind_eq]
  cases hk : callee.kind with
  | identifier => rw [hcallee.eq_of_name (by rw [hk]; decide)]
  | member =>
    dsimp only
    rw [hcallee.keepsSlices.accessed hk]
    rcases optionRel_cases (forall₂_head? hcallee.parts) with
      ⟨hy, hy'⟩ | ⟨target, target', hy, hy', htarget⟩
    · rw [hy, hy']
    rw [hy, hy']
    by_cases ht : target.kind = .identifier
    · rw [htarget.eq_of_name (by rw [ht]; decide)]
    · have ht' : target'.kind ≠ .identifier := by rwa [htarget.kind_eq]
      cases callee.parts.getLast? with
      | none => rfl
      | some property =>
        dsimp only
        rw [decide_eq_false ht, decide_eq_false ht']
        rfl
  | _ => rfl

theorem literalType_commented (h : Commented n n') : literalType n' = literalType n := by
  rw [literalType, literalType, h.kind_eq]

/-- The signal type that is inferred is the same. -/
theorem inferredSignal_commented (h : Commented call call') (shape : CallShape) :
    inferredSignal call' shape = inferredSignal call shape := by
  cases shape with
  | bareInput =>
    rw [inferredSignal, inferredSignal]
    rcases optionRel_cases (forall₂_head? h.callArguments) with
      ⟨hx, hx'⟩ | ⟨first, first', hx, hx', hfirst⟩
    · rw [hx, hx']
    · rw [hx, hx']
      dsimp only
      rw [literalType_commented hfirst]
  | _ => rfl

end Calls

end CustomElements
