import CustomElements.Component.Member
import CustomElements.Proofs.Component.MissingLists
import CustomElements.Proofs.FirstMatch
import CustomElements.Proofs.TypeScript.Branches
import CustomElements.Proofs.TypeScript.EscapeSequences

/-!
# String properties of object literals

A property of an object literal is the value of the first pair of its name. It can be looked up
unless a literal is in the way that names a number beyond those of the code points
(`stringProperty?_ok_iff`). The alias of a call is the first such value with characters in it among
its arguments (`aliasAmong_eq_some_iff`, `aliasAmong_ok_iff`).
-/

namespace CustomElements

open TypeScript (EscapeError)

namespace TypeScript.Node

variable {name a : Text} {n m v : Node} {ms ns : List Node}

/-- The value of the first pair of the name. -/
def IsFirstValue (name : Text) (ms : List Node) (v : Node) : Prop :=
  ∃ m k, IsFirst (IsPairOf name) ms m ∧ m.keyAndValue? = some (k, v)

/-- What a search for a pair finds is the first value of the name. -/
theorem isFirstValue_iff {r : Option Node} (h : findPair name ms = .ok r) :
    IsFirstValue name ms v ↔ r = some v := by
  induction ms with
  | nil =>
    cases h
    exact iff_of_false (fun ⟨_, _, hm, _⟩ => not_isFirst_nil hm) nofun
  | cons m ms ih =>
    have hpass (hm : ¬ m.IsPairOf name) :
        IsFirstValue name (m :: ms) v ↔ IsFirstValue name ms v :=
      exists₂_congr fun _ _ => and_congr_left fun _ => isFirst_cons_of_neg hm
    cases hkv : m.keyAndValue? with
    | none =>
      have hm : ¬ m.IsPairOf name := by
        rintro ⟨k, v, hp, -⟩
        rw [hkv] at hp
        cases hp
      rw [findPair_of_none hkv] at h
      rw [hpass hm, ih h]
    | some kv =>
      obtain ⟨k, w⟩ := kv
      rw [findPair_of_some hkv, exceptBind_eq_ok] at h
      obtain ⟨key, hk, h⟩ := h
      have hm : m.IsPairOf name ↔ key = some name := by
        constructor
        · rintro ⟨k', v', hp, hname⟩
          cases hkv.symm.trans hp
          exact Except.ok.inj (hk.symm.trans hname)
        · rintro rfl
          exact ⟨k, w, hkv, hk⟩
      by_cases hkey : key = some name
      · rw [if_pos hkey, Except.ok.injEq] at h
        rw [← h, Option.some.injEq]
        constructor
        · rintro ⟨p, k', hp, hv⟩
          obtain rfl := (isFirst_cons_of_pos (hm.2 hkey)).1 hp
          cases hkv.symm.trans hv
          rfl
        · rintro rfl
          exact ⟨m, k, (isFirst_cons_of_pos (hm.2 hkey)).2 rfl, hkv⟩
      · rw [if_neg hkey] at h
        rw [hpass (mt hm.1 hkey), ih h]

section Everywhere

variable {P : Node → Prop}

theorem Everywhere.part (h : n.Everywhere P) (hm : m ∈ n.parts) : m.Everywhere P :=
  h.child (List.mem_of_mem_filter (List.mem_of_mem_filter hm))

/-- Key and value of a pair are below it. -/
theorem Everywhere.keyAndValue {k : Node} (h : m.Everywhere P)
    (hkv : m.keyAndValue? = some (k, v)) : k.Everywhere P ∧ v.Everywhere P := by
  rw [keyAndValue?] at hkv
  split at hkv
  · obtain ⟨k', hk, hrest⟩ := Option.bind_eq_some_iff.1 hkv
    obtain ⟨v', hv, heq⟩ := Option.bind_eq_some_iff.1 hrest
    cases heq
    exact ⟨h.part (List.mem_of_mem_head? hk),
      h.part (List.mem_of_mem_tail (List.mem_of_getLast? hv))⟩
  · cases hkv

theorem Everywhere.firstValue (h : n.Everywhere P) (hv : IsFirstValue name n.parts v) :
    v.Everywhere P := by
  obtain ⟨m, k, hm, hkv⟩ := hv
  exact ((h.part hm.mem).keyAndValue hkv).2

end Everywhere

/-- A tree in which the escape sequences are as they are read. -/
abbrev HasEscapes (n : Node) : Prop := n.Everywhere fun c => c.kind = .escape → c.IsEscape

theorem HasEscapes.stringValue?_ok_iff (h : n.HasEscapes) :
    (∃ t, n.stringValue? = .ok t) ↔ ¬ n.IsSenseless :=
  Node.stringValue?_ok_iff fun _ hc => (h.child hc).here

theorem HasEscapes.keyName?_ok_iff (h : n.HasEscapes) :
    (∃ t, n.keyName? = .ok t) ↔ ¬ n.IsSenseless :=
  Node.keyName?_ok_iff fun _ hc => (h.child hc).here

/-- A pair whose key names a number beyond those of the code points. -/
def HasSenselessKey (m : Node) : Prop := ∃ k v, m.keyAndValue? = some (k, v) ∧ k.IsSenseless

theorem HasEscapes.unreadable_iff (h : m.HasEscapes) : m.Unreadable ↔ m.HasSenselessKey := by
  refine exists₂_congr fun k v => ?_
  rw [exists_and_left]
  refine and_congr_right fun hkv => ?_
  rw [← not_iff_not, ← HasEscapes.keyName?_ok_iff (h.keyAndValue hkv).1]
  cases k.keyName? with
  | ok t => exact iff_of_true nofun ⟨t, rfl⟩
  | error e => exact iff_of_false (not_not_intro ⟨e, rfl⟩) nofun

/-- An object literal of which the property of a name can be looked up: neither the keys up to the
first pair of the name nor its value are senseless. -/
structure ReadableProperty (name : Text) (n : Node) : Prop where
  keys : UpToFirst (IsPairOf name) (fun m => ¬ m.HasSenselessKey) n.parts
  value : ∀ v, IsFirstValue name n.parts v → ¬ v.IsSenseless

theorem ReadableProperty.of_sensible (h : n.Everywhere fun m => ¬ m.IsSenseless) :
    n.ReadableProperty name where
  keys := upToFirst_of_forall fun _ hm ⟨_, _, hkv, hk⟩ => ((h.part hm).keyAndValue hkv).1.here hk
  value _ hv := (h.firstValue hv).here

theorem readableFor_iff (h : n.HasEscapes) : ReadableFor name n.parts ↔
    UpToFirst (IsPairOf name) (fun m => ¬ m.HasSenselessKey) n.parts := by
  rw [readableFor_iff_upToFirst]
  exact upToFirst_congr fun m hm => not_congr (HasEscapes.unreadable_iff (h.part hm))

theorem stringProperty?_of_object (hk : n.kind = .object) :
    n.stringProperty? name = findPair name n.parts >>= fun r =>
      match r with
      | some v => v.stringValue?
      | none => .ok none := by
  rw [stringProperty?, property?, if_pos hk]
  rfl

theorem stringProperty?_of_ne (hk : n.kind ≠ .object) : n.stringProperty? name = .ok none := by
  rw [stringProperty?, property?, if_neg hk]
  rfl

/-- A property can be looked up unless a senseless literal is in the way. -/
theorem stringProperty?_ok_iff (h : n.HasEscapes) :
    (∃ t, n.stringProperty? name = .ok t) ↔ (n.kind = .object → n.ReadableProperty name) := by
  by_cases hk : n.kind = .object
  · have hvalue {v} (hv : IsFirstValue name n.parts v) :
        (∃ t, v.stringValue? = .ok t) ↔ ¬ v.IsSenseless :=
      HasEscapes.stringValue?_ok_iff (h.firstValue hv)
    rw [stringProperty?_of_object hk]
    constructor
    · rintro ⟨t, ht⟩ -
      obtain ⟨r, hr, ht⟩ := exceptBind_eq_ok.1 ht
      refine ⟨(readableFor_iff h).1 (findPair_ok_iff.1 ⟨r, hr⟩), fun v hv => ?_⟩
      obtain rfl := (isFirstValue_iff hr).1 hv
      exact (hvalue hv).1 ⟨t, ht⟩
    · intro hread
      obtain ⟨r, hr⟩ := findPair_ok_iff.2 ((readableFor_iff h).2 (hread hk).keys)
      rw [hr]
      cases r with
      | none => exact ⟨none, rfl⟩
      | some v =>
        have hv := (isFirstValue_iff hr).2 rfl
        exact (hvalue hv).2 ((hread hk).value v hv)
  · rw [stringProperty?_of_ne hk]
    exact iff_of_true ⟨none, rfl⟩ fun hobject => (hk hobject).elim

/-- An object literal whose first pair of the name has a string with characters in it. -/
def GivesText (name : Text) (n : Node) (a : Text) : Prop :=
  n.kind = .object ∧ a ≠ [] ∧ ∃ v, IsFirstValue name n.parts v ∧ v.stringValue? = .ok (some a)

theorem givesText_iff {t : Option Text} (h : n.stringProperty? name = .ok t) :
    n.GivesText name a ↔ t = some a ∧ a ≠ [] := by
  by_cases hk : n.kind = .object
  · rw [stringProperty?_of_object hk, exceptBind_eq_ok] at h
    obtain ⟨r, hr, ht⟩ := h
    constructor
    · rintro ⟨-, ha, v, hv, hvalue⟩
      obtain rfl := (isFirstValue_iff hr).1 hv
      exact ⟨Except.ok.inj (ht.symm.trans hvalue), ha⟩
    · rintro ⟨rfl, ha⟩
      cases r with
      | none => cases ht
      | some v => exact ⟨hk, ha, v, (isFirstValue_iff hr).2 rfl, ht⟩
  · rw [stringProperty?_of_ne hk, Except.ok.injEq] at h
    subst h
    exact iff_of_false (fun hg => hk hg.1) nofun

end TypeScript.Node

/-! ### The alias among arguments -/

open TypeScript (Node)

/-- The name under which a call gives an alias. -/
def aliasKey : Text := "alias"

/-- An argument that gives an alias. -/
def GivesAlias (n : Node) : Prop := ∃ a, n.GivesText aliasKey a

variable {ns : List Node} {n : Node} {a : Text}

/-- Looking at an argument either fails, or ends with its alias, or passes it over. -/
theorem aliasAmong_cons (n : Node) (ns : List Node) :
    aliasAmong (n :: ns) = n.stringProperty? aliasKey >>= fun t =>
      match t with
      | some a => if a.isEmpty then aliasAmong ns else .ok (some a)
      | none => aliasAmong ns := by
  rw [aliasAmong]
  rfl

theorem aliasAmong_of_text (h : n.stringProperty? aliasKey = .ok (some a)) (ha : a ≠ []) :
    aliasAmong (n :: ns) = .ok (some a) := by
  rw [aliasAmong_cons, h]
  exact if_neg (by simpa using ha)

theorem aliasAmong_of_passed {t : Option Text} (h : n.stringProperty? aliasKey = .ok t)
    (hn : ¬ GivesAlias n) : aliasAmong (n :: ns) = aliasAmong ns := by
  rw [aliasAmong_cons, h]
  cases t with
  | none => rfl
  | some a => exact if_pos (by simpa using fun ha => hn ⟨a, (Node.givesText_iff h).2 ⟨rfl, ha⟩⟩)

/-- The alias that is found is that of the first argument that gives one. -/
theorem aliasAmong_eq_some_iff {r : Option Text} (h : aliasAmong ns = .ok r) :
    r = some a ↔ ∃ n, IsFirst GivesAlias ns n ∧ n.GivesText aliasKey a := by
  induction ns with
  | nil =>
    cases h
    exact iff_of_false nofun fun ⟨_, hn, _⟩ => not_isFirst_nil hn
  | cons n ns ih =>
    cases hp : n.stringProperty? aliasKey with
    | error e =>
      rw [aliasAmong_cons, hp] at h
      cases h
    | ok t =>
      by_cases hn : GivesAlias n
      · have hone : (∃ m, IsFirst GivesAlias (n :: ns) m ∧ m.GivesText aliasKey a) ↔
            n.GivesText aliasKey a := by
          simp only [isFirst_cons_of_pos hn, exists_eq_left]
        obtain ⟨b, hb⟩ := hn
        obtain ⟨rfl, hne⟩ := (Node.givesText_iff hp).1 hb
        rw [aliasAmong_of_text hp hne, Except.ok.injEq] at h
        rw [hone, Node.givesText_iff hp, ← h]
        exact ⟨fun hab => ⟨hab, Option.some.inj hab ▸ hne⟩, And.left⟩
      · rw [aliasAmong_of_passed hp hn] at h
        simp only [isFirst_cons_of_neg hn]
        exact ih h

/-- The alias is found if the arguments up to the first that gives one can be looked at. -/
theorem aliasAmong_ok_iff (h : ∀ n ∈ ns, n.HasEscapes) : (∃ r, aliasAmong ns = .ok r) ↔
    UpToFirst GivesAlias (fun n => n.kind = .object → n.ReadableProperty aliasKey) ns := by
  induction ns with
  | nil => exact iff_of_true ⟨none, rfl⟩ upToFirst_nil
  | cons n ns ih =>
    obtain ⟨hn, hns⟩ := List.forall_mem_cons.1 h
    rw [upToFirst_cons, ← Node.stringProperty?_ok_iff hn, ← ih hns]
    cases hp : n.stringProperty? aliasKey with
    | error e =>
      rw [aliasAmong_cons, hp]
      exact iff_of_false nofun nofun
    | ok t =>
      rw [and_iff_right ⟨t, rfl⟩]
      by_cases hgives : GivesAlias n
      · refine iff_of_true ?_ (.inl hgives)
        obtain ⟨b, hb⟩ := hgives
        obtain ⟨rfl, hne⟩ := (Node.givesText_iff hp).1 hb
        exact ⟨some b, aliasAmong_of_text hp hne⟩
      · rw [aliasAmong_of_passed hp hgives, or_iff_right hgives]

end CustomElements
