import CustomElements.Proofs.Component.EntryReferences
import CustomElements.Proofs.Component.ReadableMembers

/-!
# What a marked class declares

A tag is looked for in several places, and the first of them that has a text with characters gives
it (`HasTag`). A class that carries the marker is an element if it has a tag and a name (`IsEntry`),
and a mistake otherwise (`IsUnfit`). Where all string literals denote texts, nothing else can become
of it.
-/

namespace CustomElements

open TypeScript (Node EscapeError)
open TypeScript.Node

/-- A string literal that denotes this text, which has characters. -/
def TypeScript.Node.IsString (n : Node) (t : Text) : Prop := n.stringValue? = .ok (some t) ∧ t ≠ []

/-- A tree whose string literals denote texts. -/
structure TypeScript.Node.IsSensible (n : Node) : Prop where
  escapes : n.HasEscapes
  sensible : n.Everywhere fun m => ¬ m.IsSenseless

namespace ClassDeclaration

/-- The first argument of the first decorator of this name. -/
def IsHeadArgument (c : ClassDeclaration) (decorator : Text) (n : Node) : Prop :=
  ∃ d, c.decorator? decorator = some d ∧ d.arguments.head? = some n

/-- The places that may give a marked class its tag, in the order in which they are looked at. -/
def tagSources (rule : DiscoveryRule) (c : ClassDeclaration) : List (Text → Prop) :=
  [fun t => ∃ n, c.IsHeadArgument rule.marker n ∧ n.IsString t,
    fun t => ∃ n, c.IsHeadArgument rule.marker n ∧ n.GivesText "tag" t,
    fun t => ∃ n, c.IsHeadArgument rule.marker n ∧ n.GivesText "selector" t,
    fun t => rule.selectorFallback ∧
      ∃ n, c.IsHeadArgument componentDecorator n ∧ n.GivesText "selector" t]

/-- The tag of a marked class: what the first place gives that gives any. -/
def HasTag (rule : DiscoveryRule) (c : ClassDeclaration) (t : Text) : Prop :=
  ∃ source, IsFirst (fun s => ∃ t, s t) (c.tagSources rule) source ∧ source t

end ClassDeclaration

namespace LocatedClass

/-- The entry of a marked class: its tag, and its file and name with a number sign between them. -/
structure IsEntry (rule : DiscoveryRule) (c : LocatedClass) (e : ElementEntry) : Prop where
  marked : c.isMarked rule
  tagged : c.declaration.HasTag rule e.tag
  referred : ∃ name, c.declaration.name = some name ∧
    e.component = c.file.path.text ++ .scalar '#' :: name

/-- What is wrong with a marked class that is no element. A name is asked for before a tag. -/
inductive IsUnfit (rule : DiscoveryRule) (c : LocatedClass) : Mistake → Prop
  | unnamed (marked : c.isMarked rule) (nameless : c.declaration.name = none) :
      IsUnfit rule c (.markerOnAnonymousClass rule.marker c.file.path)
  | untagged {name : Text} (marked : c.isMarked rule) (named : c.declaration.name = some name)
      (tagless : ∀ t, ¬ c.declaration.HasTag rule t) :
      IsUnfit rule c (.markerWithoutTag rule.marker name c.file.path)

end LocatedClass

section Searching

variable {sources : List (Text → Prop)} {found : List (Option Text)} {t : Text}

/-- Looking at places in order finds what the first one gives that gives any. -/
theorem firstSource_iff (h : List.Forall₂ (fun s o => ∀ t, s t ↔ o = some t) sources found) :
    (∃ source, IsFirst (fun s => ∃ t, s t) sources source ∧ source t) ↔
      found.findSome? id = some t := by
  induction h with
  | nil => exact iff_of_false (fun ⟨_, hs, _⟩ => not_isFirst_nil hs) nofun
  | @cons s o sources found hs _ ih =>
    cases o with
    | none =>
      have hnone : ¬ ∃ t, s t := fun ⟨t, ht⟩ => nomatch (hs t).1 ht
      simp only [isFirst_cons_of_neg hnone]
      exact ih
    | some u =>
      have hsome : ∃ t, s t := ⟨u, (hs u).2 rfl⟩
      simp only [isFirst_cons_of_pos hsome, exists_eq_left]
      exact hs t

variable {n : Node}

/-- All places of an argument can be looked at, and the first text that is there is the tag. -/
theorem tagOfArgument_found (h : n.IsSensible) : ∃ found,
    tagOfArgument n = .ok (found.findSome? id) ∧
    List.Forall₂ (fun s o => ∀ t, s t ↔ o = some t)
      [n.IsString, n.GivesText "tag", n.GivesText "selector"] found := by
  have hproperty (name : Text) : ∃ o, n.stringProperty? name = .ok o :=
    (stringProperty?_ok_iff h.escapes).2 fun _ => .of_sensible h.sensible
  obtain ⟨a, ha⟩ := h.escapes.stringValue?_ok_iff.2 h.sensible.here
  obtain ⟨b, hb⟩ := hproperty "tag"
  obtain ⟨s, hs⟩ := hproperty "selector"
  refine ⟨[nonempty? a, nonempty? b, nonempty? s], ?_,
    .cons (fun t => ?_) (.cons (fun t => ?_) (.cons (fun t => ?_) .nil))⟩
  · rw [tagOfArgument, ha, hb, hs]
    simp only [bind, Except.bind]
    cases nonempty? a <;> cases nonempty? b <;> cases nonempty? s <;> rfl
  · rw [nonempty?_eq_some, IsString, ha, Except.ok.injEq]
  · rw [nonempty?_eq_some, givesText_iff hb]
  · rw [nonempty?_eq_some, givesText_iff hs]

end Searching

namespace ClassDeclaration

variable {c : ClassDeclaration} {rule : DiscoveryRule} {d : Decorator} {n : Node} {name : Text}

/-- The decorators of a class stand in the statement that declares or exports it. -/
theorem everywhere_decoratorNode {P : Node → Prop} {statement : Node} (hs : statement.Everywhere P)
    (h : ofStatement? statement = some c) (hn : n ∈ c.decoratorNodes) : n.Everywhere P := by
  unfold ofStatement? at h
  split at h
  · obtain rfl := Option.some.inj h
    exact hs.child (List.mem_of_mem_filter hn)
  · obtain ⟨exported, hchild, hc⟩ := Option.bind_eq_some_iff.1 h
    obtain rfl := Option.some.inj hc
    rcases List.mem_append.1 hn with hn | hn
    · exact hs.child (List.mem_of_mem_filter hn)
    · exact (hs.child (of_find?_key hchild).1).child (List.mem_of_mem_filter hn)
  · cases h

theorem isHeadArgument_iff : c.IsHeadArgument name n ↔
    ((c.decorator? name).bind fun d => d.arguments.head?) = some n :=
  Option.bind_eq_some_iff.symm

/-- An argument of a decorator is below it. -/
theorem isSensible_of_isHeadArgument (hc : ∀ m ∈ c.decoratorNodes, m.IsSensible)
    (h : c.IsHeadArgument name n) : n.IsSensible := by
  obtain ⟨d, hd, hhead⟩ := h
  obtain ⟨m, hm, hof⟩ := List.mem_filterMap.1 (List.mem_of_find?_eq_some hd)
  obtain ⟨applied, happlied, hrest⟩ := Option.bind_eq_some_iff.1 hof
  obtain ⟨_, _, heq⟩ := Option.bind_eq_some_iff.1 hrest
  obtain rfl := Option.some.inj heq
  have hpart := List.mem_of_mem_head? happlied
  have hargument : n ∈ applied.callArguments := by
    dsimp only at hhead
    split at hhead
    · exact List.mem_of_mem_head? hhead
    · cases hhead
  exact ⟨((hc m hm).escapes.part hpart).callArgument hargument,
    ((hc m hm).sensible.part hpart).callArgument hargument⟩

/-- The selector of a component can be looked up. -/
theorem selector_found (hc : ∀ m ∈ c.decoratorNodes, m.IsSensible) : ∃ o, c.selector = .ok o ∧
    ∀ t, (∃ n, c.IsHeadArgument componentDecorator n ∧ n.GivesText "selector" t) ↔ o = some t := by
  simp only [isHeadArgument_iff]
  rw [selector]
  cases hhead : (c.decorator? componentDecorator).bind fun d => d.arguments.head? with
  | none => exact ⟨none, rfl, by simp⟩
  | some n =>
    have hn := isSensible_of_isHeadArgument hc (isHeadArgument_iff.2 hhead)
    have hfound : ∃ o, n.stringProperty? "selector" = .ok o :=
      (stringProperty?_ok_iff hn.escapes).2 fun _ => .of_sensible hn.sensible
    obtain ⟨o, ho⟩ := hfound
    refine ⟨nonempty? o, ?_, fun t => ?_⟩
    · dsimp only
      rw [ho]
      rfl
    · rw [nonempty?_eq_some, ← givesText_iff ho]
      simp

/-- The tag that the marker gives goes before the selector of the component. -/
theorem tag?_of_marker {found : List (Option Text)} {o : Option Text} (hselector : c.selector = .ok o)
    (hmarker : (match d.arguments.head? with
      | some n => tagOfArgument n
      | none => .ok none) = .ok (found.findSome? id)) (selectorFallback : Bool) :
    c.tag? d selectorFallback =
      .ok ((found ++ [if selectorFallback then o else none]).findSome? id) := by
  rw [tag?, hselector, List.findSome?_append]
  cases hhead : d.arguments.head? with
  | none =>
    rw [hhead] at hmarker
    have hnone : none = found.findSome? id := Except.ok.inj hmarker
    rw [← hnone]
    cases selectorFallback <;> cases o <;> rfl
  | some n =>
    rw [hhead] at hmarker
    have hargument : tagOfArgument n = .ok (found.findSome? id) := hmarker
    simp only [hargument, bind, Except.bind]
    cases found.findSome? id with
    | some t => rfl
    | none => cases selectorFallback <;> cases o <;> rfl

/-- All places of a marked class can be looked at, and the first text that is there is its tag. -/
theorem tag?_found (hc : ∀ m ∈ c.decoratorNodes, m.IsSensible)
    (hd : c.decorator? rule.marker = some d) : ∃ found,
    c.tag? d rule.selectorFallback = .ok (found.findSome? id) ∧
      List.Forall₂ (fun s o => ∀ t, s t ↔ o = some t) (c.tagSources rule) found := by
  obtain ⟨o, hselector, ho⟩ := selector_found hc
  have hlast : ∀ t, (rule.selectorFallback ∧
      ∃ n, c.IsHeadArgument componentDecorator n ∧ n.GivesText "selector" t) ↔
      (if rule.selectorFallback then o else none) = some t := by
    intro t
    cases rule.selectorFallback <;> simp [ho]
  cases hhead : d.arguments.head? with
  | none =>
    have hnone (P : Node → Text → Prop) (t : Text) :
        (∃ n, c.IsHeadArgument rule.marker n ∧ P n t) ↔ none = some t := by
      simp [isHeadArgument_iff, hd, hhead]
    exact ⟨[none, none, none] ++ _, tag?_of_marker hselector (by rw [hhead]; rfl) _,
      .cons (hnone _) (.cons (hnone _) (.cons (hnone _) (.cons hlast .nil)))⟩
  | some n =>
    have hn := isSensible_of_isHeadArgument hc ⟨d, hd, hhead⟩
    have hsome (P : Node → Text → Prop) :
        (fun t => ∃ m, c.IsHeadArgument rule.marker m ∧ P m t) = P n := by
      funext t
      simp [isHeadArgument_iff, hd, hhead]
    obtain ⟨found, hfound, hsources⟩ := tagOfArgument_found hn
    refine ⟨_, tag?_of_marker hselector (by rw [hhead]; exact hfound) _, ?_⟩
    rw [← hsome IsString, ← hsome (GivesText "tag"), ← hsome (GivesText "selector")] at hsources
    exact List.rel_append hsources (.cons hlast .nil)

/-- A marked class has the tag that is found for it. -/
theorem hasTag_iff (hc : ∀ m ∈ c.decoratorNodes, m.IsSensible)
    (hd : c.decorator? rule.marker = some d) : ∃ tag,
    c.tag? d rule.selectorFallback = .ok tag ∧ ∀ t, c.HasTag rule t ↔ tag = some t := by
  obtain ⟨found, htag, hsources⟩ := tag?_found hc hd
  exact ⟨_, htag, fun t => firstSource_iff hsources⟩

end ClassDeclaration

namespace LocatedClass

variable {c : LocatedClass} {rule : DiscoveryRule} {e e' : ElementEntry} {m : Mistake}

theorem reference_eq (name : Text) : c.file.path.text ++ "#" ++ name =
    c.file.path.text ++ .scalar '#' :: name := by
  simp [Text.ofString, Text.ofChars]

theorem isMarked_iff : c.isMarked rule ↔ ∃ d, c.declaration.decorator? rule.marker = some d :=
  Option.isSome_iff_exists

theorem IsEntry.element? (hc : ∀ m ∈ c.declaration.decoratorNodes, m.IsSensible)
    (h : c.IsEntry rule e) : c.element? rule = .ok (some e) := by
  obtain ⟨d, hd⟩ := isMarked_iff.1 h.marked
  obtain ⟨tag, htag, hhas⟩ := ClassDeclaration.hasTag_iff hc hd
  obtain rfl := (hhas _).1 h.tagged
  obtain ⟨name, hname, hreference⟩ := h.referred
  rw [LocatedClass.element?, hd]
  dsimp only
  rw [hname]
  dsimp only
  rw [htag]
  dsimp only
  rw [reference_eq, ← hreference]

theorem IsUnfit.element? (hc : ∀ m ∈ c.declaration.decoratorNodes, m.IsSensible)
    (h : c.IsUnfit rule m) : c.element? rule = .error (.mistake m) := by
  cases h with
  | unnamed marked nameless =>
    obtain ⟨d, hd⟩ := isMarked_iff.1 marked
    rw [LocatedClass.element?, hd]
    dsimp only
    rw [nameless]
  | untagged marked named tagless =>
    obtain ⟨d, hd⟩ := isMarked_iff.1 marked
    obtain ⟨tag, htag, hhas⟩ := ClassDeclaration.hasTag_iff hc hd
    obtain rfl : tag = none := Option.eq_none_iff_forall_ne_some.2 fun t ht => tagless t ((hhas t).2 ht)
    rw [LocatedClass.element?, hd]
    dsimp only
    rw [named]
    dsimp only
    rw [htag]

/-- A class is passed over, or it is an element, or something is wrong with it. -/
theorem element?_cases (rule : DiscoveryRule)
    (hc : ∀ m ∈ c.declaration.decoratorNodes, m.IsSensible) :
    (c.element? rule = .ok none ∧ c.isMarked rule = false) ∨
    (∃ e, c.element? rule = .ok (some e) ∧ c.IsEntry rule e) ∨
    ∃ m, c.element? rule = .error (.mistake m) ∧ c.IsUnfit rule m := by
  rw [element?]
  cases hd : c.declaration.decorator? rule.marker with
  | none =>
    refine .inl ⟨rfl, ?_⟩
    rw [isMarked, hd]
    rfl
  | some d =>
    have hmarked : c.isMarked rule := isMarked_iff.2 ⟨d, hd⟩
    dsimp only
    cases hname : c.declaration.name with
    | none => exact .inr (.inr ⟨_, rfl, .unnamed hmarked hname⟩)
    | some name =>
      obtain ⟨tag, htag, hhas⟩ := ClassDeclaration.hasTag_iff hc hd
      dsimp only
      rw [htag]
      cases tag with
      | none =>
        refine .inr (.inr ⟨_, rfl, .untagged hmarked hname fun t ht => ?_⟩)
        cases (hhas t).1 ht
      | some t =>
        exact .inr (.inl ⟨_, rfl, hmarked, (hhas t).2 rfl, name, hname, reference_eq name⟩)

theorem element?_eq_some_iff (hc : ∀ m ∈ c.declaration.decoratorNodes, m.IsSensible) :
    c.element? rule = .ok (some e) ↔ c.IsEntry rule e := by
  refine ⟨fun h => ?_, IsEntry.element? hc⟩
  rcases element?_cases rule hc with ⟨hnone, -⟩ | ⟨o, ho, hentry⟩ | ⟨m, hm, -⟩
  · cases hnone.symm.trans h
  · cases ho.symm.trans h
    exact hentry
  · cases hm.symm.trans h

end LocatedClass

end CustomElements
