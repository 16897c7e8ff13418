import CustomElements.Component.Metadata
import CustomElements.Proofs.Answers
import CustomElements.Proofs.FirstMatch

/-!
# Which lists are missing

A list is there if a pair, a shorthand or a method of an object literal has its name. The answer is
given if no pair that is looked at has a key with a senseless escape sequence
(`missingLists_ok_iff`). More members at the end of a literal only add to what is there, and pairs
for the missing lists leave none missing (`missingLists_of_append`).
-/

namespace CustomElements

open TypeScript (Node)

namespace TypeScript.Node

/-- A pair whose key has an escape sequence that denotes nothing. -/
def Unreadable (m : Node) : Prop :=
  ∃ k v e, m.keyAndValue? = some (k, v) ∧ k.keyName? = .error e

/-- A pair with the given key. -/
def IsPairOf (name : Text) (m : Node) : Prop :=
  ∃ k v, m.keyAndValue? = some (k, v) ∧ k.keyName? = .ok (some name)

theorem findPair_of_none {name : Text} {m : Node} {ms : List Node} (h : m.keyAndValue? = none) :
    findPair name (m :: ms) = findPair name ms := by
  rw [findPair, h]

theorem findPair_of_some {name : Text} {m k v : Node} {ms : List Node}
    (h : m.keyAndValue? = some (k, v)) :
    findPair name (m :: ms) = k.keyName? >>= fun key =>
      if key = some name then .ok (some v) else findPair name ms := by
  rw [findPair, h]
  rfl

/-- Before each unreadable key stands a pair of the name. -/
def ReadableFor (name : Text) (ms : List Node) : Prop :=
  ∀ before m after, ms = before ++ m :: after → m.Unreadable → ∃ p ∈ before, p.IsPairOf name

/-- So no key up to the first pair of the name is unreadable. -/
theorem readableFor_iff_upToFirst {name : Text} {ms : List Node} :
    ReadableFor name ms ↔ UpToFirst (IsPairOf name) (fun m => ¬ m.Unreadable) ms := by
  refine forall₃_congr fun before m after => forall_congr' fun _ => ?_
  constructor
  · intro hread hbefore hm
    obtain ⟨p, hp, hname⟩ := hread hm
    exact hbefore p hp hname
  · intro hread hm
    by_contra hnone
    exact hread (fun p hp hname => hnone ⟨p, hp, hname⟩) hm

/-- A search for a pair has an answer if its name comes before each unreadable key. -/
theorem findPair_ok_iff {name : Text} {ms : List Node} :
    (∃ r, findPair name ms = .ok r) ↔ ReadableFor name ms := by
  rw [readableFor_iff_upToFirst]
  induction ms with
  | nil => exact iff_of_true ⟨none, rfl⟩ upToFirst_nil
  | cons m ms ih =>
    rw [upToFirst_cons, ← ih]
    cases hkv : m.keyAndValue? with
    | none =>
      rw [findPair_of_none hkv]
      simp [Unreadable, IsPairOf, hkv]
    | some kv =>
      obtain ⟨k, v⟩ := kv
      rw [findPair_of_some hkv]
      cases hk : k.keyName? with
      | error e => simp [Unreadable, hkv, hk, bind, Except.bind]
      | ok key =>
        by_cases hname : key = some name <;>
          simp [Unreadable, IsPairOf, hkv, hk, hname, bind, Except.bind]

theorem findPair_append {name : Text} (ms ns : List Node) :
    findPair name (ms ++ ns) = findPair name ms >>= fun r =>
      match r with
      | some v => .ok (some v)
      | none => findPair name ns := by
  induction ms with
  | nil => rfl
  | cons m ms ih =>
    cases hkv : m.keyAndValue? with
    | none => rw [List.cons_append, findPair_of_none hkv, findPair_of_none hkv, ih]
    | some kv =>
      rw [List.cons_append, findPair_of_some hkv, findPair_of_some hkv]
      cases k : kv.1.keyName? with
      | error e => rfl
      | ok key =>
        by_cases hname : key = some name
        · simp [bind, Except.bind, hname]
        · simpa [bind, Except.bind, hname] using ih

/-- Where a search finds nothing, there is no pair of the name. -/
theorem not_isPairOf_of_findPair {name : Text} {ms : List Node}
    (h : findPair name ms = .ok none) : ∀ m ∈ ms, ¬ m.IsPairOf name := by
  intro m hm hp
  obtain ⟨before, after, rfl⟩ := List.append_of_mem hm
  obtain ⟨k, v, hkv, hk⟩ := hp
  rw [findPair_append, exceptBind_eq_ok] at h
  obtain ⟨r, _, hr⟩ := h
  cases r with
  | some w => cases hr
  | none =>
    rw [findPair_of_some hkv, hk] at hr
    simp [bind, Except.bind] at hr

/-- Each unreadable key stands behind pairs for all metadata lists. -/
def Readable (n : Node) : Prop := ∀ name ∈ metadataLists, ReadableFor name n.parts

end TypeScript.Node

section

variable {object : Node} {name : Text} {names missing : List Text}

theorem hasMember_eq (h : object.kind = .object) (name : Text) :
    hasMember object name = Node.findPair name object.parts >>= fun v =>
      .ok (v.isSome || object.parts.any (isWrittenAs name)) := by
  rw [hasMember, Node.property?, if_pos h]
  rfl

theorem hasMember_ok_iff (h : object.kind = .object) :
    (∃ b, hasMember object name = .ok b) ↔ Node.ReadableFor name object.parts := by
  rw [hasMember_eq h, ← Node.findPair_ok_iff]
  cases Node.findPair name object.parts with
  | error e => simp [bind, Except.bind]
  | ok v => simp [bind, Except.bind]

theorem missingAmong_cons : missingAmong object (name :: names) =
    hasMember object name >>= fun present => missingAmong object names >>= fun missing =>
      .ok (if present then missing else name :: missing) := rfl

theorem missingAmong_ok_iff : (∃ missing, missingAmong object names = .ok missing) ↔
    ∀ name ∈ names, ∃ b, hasMember object name = .ok b := by
  induction names with
  | nil => simp [missingAmong]
  | cons name names ih =>
    rw [missingAmong_cons, List.forall_mem_cons, ← ih]
    constructor
    · rintro ⟨missing, h⟩
      obtain ⟨b, hb, h⟩ := exceptBind_eq_ok.1 h
      obtain ⟨rest, hr, _⟩ := exceptBind_eq_ok.1 h
      exact ⟨⟨b, hb⟩, rest, hr⟩
    · rintro ⟨⟨b, hb⟩, rest, hr⟩
      exact ⟨_, exceptBind_eq_ok.2 ⟨b, hb, exceptBind_eq_ok.2 ⟨rest, hr, rfl⟩⟩⟩

theorem mem_missingAmong (h : missingAmong object names = .ok missing) (name : Text) :
    name ∈ missing ↔ name ∈ names ∧ hasMember object name = .ok false := by
  induction names generalizing missing with
  | nil =>
    cases h
    simp
  | cons first names ih =>
    rw [missingAmong_cons] at h
    obtain ⟨b, hb, h⟩ := exceptBind_eq_ok.1 h
    obtain ⟨rest, hr, h⟩ := exceptBind_eq_ok.1 h
    have hrest := ih hr
    cases b with
    | true =>
      cases h
      change name ∈ rest ↔ _
      rw [hrest, List.mem_cons]
      constructor
      · exact fun ⟨hn, hm⟩ => ⟨.inr hn, hm⟩
      · rintro ⟨rfl | hn, hm⟩
        · rw [hb] at hm
          cases hm
        · exact ⟨hn, hm⟩
    | false =>
      cases h
      change name ∈ first :: rest ↔ _
      rw [List.mem_cons, hrest, List.mem_cons]
      constructor
      · rintro (rfl | ⟨hn, hm⟩)
        · exact ⟨.inl rfl, hb⟩
        · exact ⟨.inr hn, hm⟩
      · rintro ⟨rfl | hn, hm⟩
        · exact .inl rfl
        · exact .inr ⟨hn, hm⟩

theorem missingAmong_sublist (h : missingAmong object names = .ok missing) :
    missing.Sublist names := by
  induction names generalizing missing with
  | nil =>
    cases h
    exact .slnil
  | cons first names ih =>
    rw [missingAmong_cons] at h
    obtain ⟨b, _, h⟩ := exceptBind_eq_ok.1 h
    obtain ⟨rest, hr, h⟩ := exceptBind_eq_ok.1 h
    cases b with
    | true =>
      cases h
      exact (ih hr).cons first
    | false =>
      cases h
      exact (ih hr).cons_cons first

/-- Nothing is missing where each name has a member. -/
theorem missingAmong_eq_nil (h : ∀ name ∈ names, hasMember object name = .ok true) :
    missingAmong object names = .ok [] := by
  obtain ⟨missing, hm⟩ := missingAmong_ok_iff.2 fun name hn => ⟨true, h name hn⟩
  cases missing with
  | nil => exact hm
  | cons name rest =>
    obtain ⟨hn, hf⟩ := (mem_missingAmong hm name).1 List.mem_cons_self
    rw [h name hn] at hf
    cases hf

/-- What is missing has no member that the check knows. -/
theorem lacks_of_mem_missing (h : object.kind = .object)
    (hm : missingLists object = .ok missing) (hn : name ∈ missing) :
    Node.findPair name object.parts = .ok none ∧ ∀ m ∈ object.parts, isWrittenAs name m = false := by
  obtain ⟨_, hf⟩ := (mem_missingAmong hm name).1 hn
  rw [hasMember_eq h, exceptBind_eq_ok] at hf
  obtain ⟨v, hv, hb⟩ := hf
  rw [Except.ok.injEq, Bool.or_eq_false_iff] at hb
  cases v with
  | some _ => simp at hb
  | none => exact ⟨hv, by simpa using hb.2⟩

/-- In a row of pairs, the search finds each name that has one. -/
theorem findPair_of_pairs {pair : Text → Node}
    (hp : ∀ name ∈ names, (pair name).IsPairOf name) (name : Text) :
    ∃ r, Node.findPair name (names.map pair) = .ok r ∧ (name ∈ names → r.isSome) := by
  induction names with
  | nil => exact ⟨none, rfl, nofun⟩
  | cons first names ih =>
    obtain ⟨k, v, hkv, hk⟩ := hp first List.mem_cons_self
    obtain ⟨r, hr, hs⟩ := ih fun n hn => hp n (List.mem_cons_of_mem first hn)
    rw [List.map_cons, Node.findPair_of_some hkv, hk]
    by_cases hname : first = name
    · exact ⟨some v, by simp [bind, Except.bind, hname], fun _ => rfl⟩
    · refine ⟨r, by simpa [bind, Except.bind, hname] using hr, fun hmem => ?_⟩
      exact hs ((List.mem_cons.1 hmem).resolve_left (Ne.symm hname))

/-- Pairs for the missing lists at the end of a literal leave none missing. -/
theorem missingLists_of_append {completed : Node} {pair : Text → Node}
    (h : object.kind = .object) (hc : completed.kind = .object)
    (hm : missingLists object = .ok missing)
    (hparts : completed.parts = object.parts ++ missing.map pair)
    (hpair : ∀ name ∈ missing, (pair name).IsPairOf name) :
    missingLists completed = .ok [] := by
  refine missingAmong_eq_nil fun name hname => ?_
  obtain ⟨b, hb⟩ := missingAmong_ok_iff.1 ⟨missing, hm⟩ name hname
  obtain ⟨r, hr, hs⟩ := findPair_of_pairs hpair name
  rw [hasMember_eq h, exceptBind_eq_ok] at hb
  obtain ⟨v, hv, hb⟩ := hb
  rw [hasMember_eq hc, hparts, Node.findPair_append, hv, List.any_append]
  cases v with
  | some w => rfl
  | none =>
    change (Node.findPair name (missing.map pair) >>= _) = _
    rw [hr]
    by_cases hin : name ∈ missing
    · change Except.ok _ = _
      rw [hs hin, Bool.true_or]
    · have htrue : b = true := by
        cases b with
        | true => rfl
        | false =>
          refine (hin ((mem_missingAmong hm name).2 ⟨hname, ?_⟩)).elim
          rw [hasMember_eq h, hv]
          exact congrArg Except.ok (Except.ok.inj hb)
      have hany : object.parts.any (isWrittenAs name) = true := by
        rw [htrue] at hb
        simpa using hb
      change Except.ok _ = _
      rw [hany, Bool.true_or, Bool.or_true]

theorem missingLists_ok_iff (h : object.kind = .object) :
    (∃ missing, missingLists object = .ok missing) ↔ object.Readable := by
  rw [missingLists, missingAmong_ok_iff]
  exact forall₂_congr fun name _ => hasMember_ok_iff h

end

end CustomElements
