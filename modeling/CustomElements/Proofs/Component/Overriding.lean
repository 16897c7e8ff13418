import CustomElements.Proofs.Component.CompletedText
import CustomElements.Proofs.Component.ObjectValue

/-!
# What a completion overrides

Pairs for missing lists come last, so they override whatever else gives their keys. Other keys keep
their values. A list that counts as missing may have a value nevertheless, which is lost then: by a
spread member, a name in brackets, a quoted name of a method, or a name with an escape sequence
(`completion_overrides_iff`).
-/

namespace CustomElements

open TypeScript (Node Dialect parse? Lexeme nameText stringText)

namespace Scope

variable {V : Type} {scope : Scope V} {key name : Text} {names : List Text}

theorem entry_emptyListPair (h : name ∈ metadataLists) (i : Nat) :
    scope.entry key i (emptyListPair name) =
      if name = key then some (scope.value i (emptyListPair name)) else none := by
  have hread : ∀ name ∈ metadataLists, nameText 0 (name.chars?.getD []) = name := by decide
  have hkey : scope.memberKey i (emptyListPair name) = some name := by
    rw [memberKey_of_named (.inl rfl) rfl]
    exact congrArg some (hread name h)
  have hpair : (emptyListPair name).kind ≠ .spread := by
    intro h
    cases h
  rw [entry, if_neg hpair, hkey]
  simp only [Option.some.injEq]

/-- Pairs for lists of other names leave the value of a key as it is. -/
theorem valueFrom_of_not_mem (hn : ∀ name ∈ names, name ∈ metadataLists) (h : key ∉ names)
    (i : Nat) (v : Option V) : scope.valueFrom key i v (names.map emptyListPair) = v := by
  refine scope.valueFrom_of_none v ?_
  intro m hm j
  obtain ⟨name, hname, rfl⟩ := List.mem_map.1 hm
  rw [entry_emptyListPair (hn name hname), if_neg]
  rintro rfl
  exact h hname

/-- The last pair for a list decides on its value. -/
theorem valueFrom_of_mem (hn : ∀ name ∈ names, name ∈ metadataLists) (h : key ∈ names) (i : Nat)
    (v : Option V) : ∃ j, i ≤ j ∧ scope.valueFrom key i v (names.map emptyListPair) =
      some (scope.value j (emptyListPair key)) := by
  induction names generalizing i v with
  | nil => cases h
  | cons name names ih =>
    rw [List.forall_mem_cons] at hn
    rw [List.map_cons, valueFrom]
    by_cases hlater : key ∈ names
    · obtain ⟨j, hj, hv⟩ := ih hn.2 hlater (i + 1) _
      exact ⟨j, by omega, hv⟩
    · obtain rfl := (List.mem_cons.1 h).resolve_right hlater
      refine ⟨i, Nat.le_refl i, ?_⟩
      rw [valueFrom_of_not_mem hn.2 hlater, entry_emptyListPair hn.1, if_pos rfl]
      rfl

end Scope

variable {ms : List Node} {names : List Text}

/-- Pairs for lists at the end of a literal change the values of these lists only. -/
theorem mem_of_valueOf_ne {V : Type} {scope : Scope V} {key : Text}
    (hn : ∀ name ∈ names, name ∈ metadataLists)
    (h : scope.valueOf (ms ++ names.map emptyListPair) key ≠ scope.valueOf ms key) :
    key ∈ names := by
  by_contra hnot
  refine h ?_
  rw [Scope.valueOf, scope.valueFrom_append, Scope.valueFrom_of_not_mem hn hnot]
  rfl

/-- Pairs for lists at the end of a literal override no value if and only if no member before them
may give the name of one of these lists. -/
theorem keeps_values_iff (hn : ∀ name ∈ names, name ∈ metadataLists) :
    (∀ (V : Type) (scope : Scope V) (key : Text) (v : V), scope.valueOf ms key = some v →
      scope.valueOf (ms ++ names.map emptyListPair) key = some v) ↔
    ∀ m ∈ ms, ∀ name ∈ names, ¬ MayGive name m := by
  constructor
  · rintro hkeep m hm name hname ⟨scope, i, hgive⟩
    have hbefore := scope.valueOf_telling i hm hgive
    have hafter := hkeep Bool _ name true hbefore
    obtain ⟨j, hj, hv⟩ := @Scope.valueFrom_of_mem _ (scope.telling i ms.length) _ _ hn hname
      (0 + ms.length) ((scope.telling i ms.length).valueOf ms name)
    rw [Scope.valueOf, Scope.valueFrom_append] at hafter
    have htold : (scope.telling i ms.length).value j (emptyListPair name) = true :=
      Option.some.inj (hv.symm.trans hafter)
    have hlate : ¬ j < ms.length := by omega
    exact hlate (of_decide_eq_true htold)
  · intro hnone V scope key v hv
    by_cases hkey : key ∈ names
    · have hempty : scope.valueOf ms key = none := by
        refine scope.valueFrom_of_none none ?_
        intro m hm j
        rw [← Option.not_isSome_iff_eq_none]
        exact fun hgive => hnone m hm key hkey (mayGive_of_entry hgive)
      rw [hempty] at hv
      cases hv
    · by_contra hne
      rw [← hv] at hne
      exact hkey (mem_of_valueOf_ne hn hne)

namespace TypeScript

theorem nameText_of_plain {cs : List Char} (h : '\\' ∉ cs) : nameText 0 cs = .ofChars cs := by
  induction cs with
  | nil => rfl
  | cons c r ih =>
    rw [List.mem_cons, not_or] at h
    have hno : Lexeme.nameEscape (c :: r) = 0 := by
      unfold Lexeme.nameEscape
      split
      next heq => exact (h.1 (List.cons.inj heq).1.symm).elim
      next heq => exact (h.1 (List.cons.inj heq).1.symm).elim
      next => rfl
    rw [nameText, ih h.2]
    · rfl
    · exact hno

/-- Without escape sequences, the check reads a string as the language does. -/
theorem literalValue_of_plain {ns : List Node} (h : ∀ n ∈ ns, n.kind ≠ .escape) :
    Node.literalValue ns = .ok (stringText ns) := by
  induction ns with
  | nil => rfl
  | cons n ns ih =>
    rw [List.forall_mem_cons] at h
    have hrest := ih h.2
    cases n with
    | branch k cs => exact hrest
    | leaf k s =>
      cases k with
      | fragment =>
        rw [Node.literalValue, hrest]
        rfl
      | escape => exact (h.1 rfl).elim
      | _ => exact hrest

namespace Node

/-- A name without an escape sequence, or a number. -/
def IsPlainName (n : Node) : Prop :=
  (n.kind = .propertyName ∧ '\\' ∉ n.text) ∨
    (n.kind = .string ∧ ∀ c ∈ n.children, c.kind ≠ .escape) ∨ n.kind = .number

/-- A member with a name that the check for missing lists reads as the language does. -/
inductive IsPlain (m : Node) : Prop where
  | pair {key value : Node} (named : m.keyAndValue? = some (key, value)) (plain : key.IsPlainName)
  | shorthand (kind : m.kind = .shorthand) (plain : '\\' ∉ m.text)
  | method {name : Node} (kind : m.kind = .method) (named : m.parts.head? = some name)
      (unquoted : name.kind = .propertyName) (plain : '\\' ∉ name.text)

end Node

end TypeScript

/-- The check for missing lists sees which list a plain member gives. -/
theorem seen_of_plain {m : Node} {name : Text} (hm : m.IsPlain) (hn : name ∈ metadataLists)
    (hgive : MayGive name m) : m.IsPairOf name ∨ isWrittenAs name m := by
  obtain ⟨scope, i, hgive⟩ := hgive
  have hkey (hk : m.kind ≠ .spread) : scope.memberKey i m = some name := by
    rwa [Scope.entry, if_neg hk, Option.isSome_ite] at hgive
  cases hm with
  | @pair key value named plain =>
    obtain ⟨hk, hfirst⟩ : m.kind = .pair ∧ m.parts.head? = some key := by
      rw [Node.keyAndValue?] at named
      split at named
      next hk =>
        simp only [Option.bind_eq_bind, Option.bind_eq_some_iff] at named
        obtain ⟨k, hk', v, _, heq⟩ := named
        cases heq
        exact ⟨hk, hk'⟩
      next => cases named
    have hname := hkey (by rw [hk]; decide)
    rw [Scope.memberKey_of_named (.inl hk) hfirst, Option.some.injEq, Scope.nameKey] at hname
    refine .inl ⟨key, value, named, ?_⟩
    rcases plain with ⟨hp, hplain⟩ | ⟨hs, hplain⟩ | hnum
    · rw [hp] at hname
      rw [Node.keyName?, hp, ← hname]
      exact congrArg (Except.ok ∘ some) (TypeScript.nameText_of_plain hplain).symm
    · rw [hs] at hname
      rw [Node.keyName?, hs, ← hname]
      dsimp only
      rw [Node.stringValue?, if_pos hs, TypeScript.literalValue_of_plain hplain]
      rfl
    · rw [hnum] at hname
      rw [← hname] at hn
      exact (scope.numeral_not_list key hn).elim
  | shorthand kind plain =>
    have hname := hkey (by rw [kind]; decide)
    rw [Scope.memberKey, kind, Option.some.injEq, TypeScript.nameText_of_plain plain] at hname
    refine .inr ?_
    rw [isWrittenAs, kind]
    exact decide_eq_true hname
  | @method n kind named unquoted plain =>
    have hname := hkey (by rw [kind]; decide)
    rw [Scope.memberKey_of_named (.inr kind) named, Option.some.injEq, Scope.nameKey, unquoted]
      at hname
    refine .inr ?_
    rw [isWrittenAs, kind]
    dsimp only
    rw [named]
    exact decide_eq_true ((TypeScript.nameText_of_plain plain).symm.trans hname)

/-- Plain members may give no list that counts as missing. -/
theorem not_mayGive_of_plain {object : Node} {missing : List Text} (h : object.kind = .object)
    (hm : missingLists object = .ok missing) (hplain : ∀ m ∈ object.parts, m.IsPlain) :
    ∀ m ∈ object.parts, ∀ name ∈ missing, ¬ MayGive name m := by
  intro m hmem name hname hgive
  have hlist := ((mem_missingAmong hm name).1 hname).1
  obtain ⟨hfind, hwritten⟩ := lacks_of_mem_missing h hm hname
  rcases seen_of_plain (hplain m hmem) hlist hgive with hp | hw
  · exact Node.not_isPairOf_of_findPair hfind m hmem hp
  · rw [hwritten m hmem] at hw
    cases hw

variable {dialect : Dialect} {source : List Char} {tree : Node} {c : DescribedClass}

/--
The completed metadata of a class, where it reads as one: its text is that of the metadata with
the run of the class, its members are the old ones and then pairs for the missing lists. For every
choice of what its names and expressions denote, a key has another value than before only if it is
one of the missing lists. No value is overridden, whatever that choice is, if and only if no old
member may give the name of a missing list; this holds if all old members are plain.
-/
theorem completion_overrides_iff (h : parse? dialect source = some tree)
    (hc : c ∈ incompleteClasses tree) (hown : c.metadata.node.FindsOwnComma) :
    (c.completed source).sourceText =
      woven [c.run source] c.metadata.offset c.metadata.node.sourceText ∧
    (c.completed source).parts = c.metadata.node.parts ++ c.missing.map emptyListPair ∧
    c.missing.Sublist metadataLists ∧
    (∀ (V : Type) (scope : Scope V) (key : Text),
      scope.valueOf (c.completed source).parts key ≠ scope.valueOf c.metadata.node.parts key →
        key ∈ c.missing) ∧
    ((∀ (V : Type) (scope : Scope V) (key : Text) (v : V),
      scope.valueOf c.metadata.node.parts key = some v →
        scope.valueOf (c.completed source).parts key = some v) ↔
      ∀ m ∈ c.metadata.node.parts, ∀ name ∈ c.missing, ¬ MayGive name m) ∧
    ((∀ m ∈ c.metadata.node.parts, m.IsPlain) →
      ∀ m ∈ c.metadata.node.parts, ∀ name ∈ c.missing, ¬ MayGive name m) := by
  have hd := (List.mem_filter.1 hc).1
  have htext := completed_text h hd hown
  obtain ⟨trailing, _, hreads⟩ := completed_reads h hc hown
  have hsub := missing_sublist c
  have hlists : ∀ name ∈ c.missing, name ∈ metadataLists := fun name hn => hsub.subset hn
  rw [TypeScript.text_of_parse? h] at htext hreads
  refine ⟨htext, hreads.parts_eq, hsub, ?_, ?_, ?_⟩
  · intro V scope key hne
    rw [hreads.parts_eq] at hne
    exact mem_of_valueOf_ne hlists hne
  · rw [hreads.parts_eq]
    exact keeps_values_iff hlists
  · exact not_mayGive_of_plain (metadata_isObject hd) (missing_of_mem hc)

theorem completion_keeps_values_smallFile : ∃ c ∈ incompleteClasses smallTree,
    ∀ (V : Type) (scope : Scope V) (key : Text) (v : V),
      scope.valueOf c.metadata.node.parts key = some v →
        scope.valueOf (c.completed smallFile).parts key = some v := by
  have hlen : (incompleteClasses smallTree).length = 1 := by decide +kernel
  have hparts : ∀ c ∈ incompleteClasses smallTree,
      c.metadata.node.parts = [.leaf .shorthand ['a']] := by
    decide +kernel
  obtain ⟨c, hc⟩ := List.exists_mem_of_length_pos (by rw [hlen]; decide)
  obtain ⟨_, _, _, _, hiff, hplain⟩ :=
    completion_overrides_iff parse?_smallFile hc (findsOwnComma_smallTree c hc)
  refine ⟨c, hc, hiff.2 (hplain fun m hm => ?_)⟩
  rw [hparts c hc, List.mem_singleton] at hm
  rw [hm]
  exact .shorthand rfl (by decide)

end CustomElements
