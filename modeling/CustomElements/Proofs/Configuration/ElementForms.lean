import Mathlib.Data.List.Induction
import Mathlib.Data.List.Nodup
import CustomElements.Proofs.Generation.Phases

/-!
# The forms of an element list

An element list may be written as a mapping, or as a list whose items have one of three shapes. What
counts are the pairs of tag and component that it gives: entries are read from these in their order,
and the first pair that breaks a rule is reported. The message of such a mistake shows the value at
fault, so where that holds an integer with too many digits, the reading ends as a fault.

A mapping with a repeated key is kept as the list of its pairs, and an element list is read from
either in the same way. So the pairs that were written are read in their order up to the first tag
that has been read before.
-/

namespace CustomElements

open CustomElements.Action

/-! ### Items -/

/-- The items of an element list that give a tag and a component, whatever values these are. -/
inductive GivesPair : Value → Value × Value → Prop where
  | mapping (es : List (Value × Value)) :
    GivesPair (.map es) ((Value.map es).get "tag", (Value.map es).get "component")
  | pair (k v : Value) : GivesPair (.pair k v) (k, v)
  | row (k v : Value) : GivesPair (.list [k, v]) (k, v)

theorem entryPair_eq_ok {v : Value} {p : Value × Value} : entryPair v = .ok p ↔ GivesPair v p := by
  constructor
  · intro h
    unfold entryPair at h
    split at h <;> cases h
    · exact .mapping _
    · exact .pair _ _
    · exact .row _ _
  · rintro (_ | _ | _) <;> rfl

theorem entryPair_eq_error {v : Value} {m : Mistake} :
    entryPair v = .error m ↔ (∀ p, ¬GivesPair v p) ∧ m = .entryShape v := by
  constructor
  · intro h
    refine ⟨fun p hp => ?_, ?_⟩
    · rw [entryPair_eq_ok.2 hp] at h
      cases h
    · unfold entryPair at h
      split at h <;> cases h
      rfl
  · rintro ⟨hnone, rfl⟩
    cases h : entryPair v with
    | ok p => exact absurd (entryPair_eq_ok.1 h) (hnone p)
    | error m =>
      unfold entryPair at h
      split at h <;> cases h
      rfl

/-- A value for the elements and the pairs that it gives. -/
inductive Presents : Value → List (Value × Value) → Prop where
  | mapping (ps : List (Value × Value)) : Presents (.map ps) ps
  | list {items : List Value} {ps : List (Value × Value)} (h : List.Forall₂ GivesPair items ps) :
    Presents (.list items) ps

/-- Pairs as a mapping, as a list of mappings, as a list of pairs, and as a list of lists. -/
def elementForms (ps : List (Value × Value)) : List Value :=
  [.map ps,
    .list (ps.map fun p => .map [(.text "tag", p.1), (.text "component", p.2)]),
    .list (ps.map fun p => .pair p.1 p.2),
    .list (ps.map fun p => .list [p.1, p.2])]

theorem Presents.of_items {f : Value × Value → Value} (hf : ∀ p, GivesPair (f p) p)
    (ps : List (Value × Value)) : Presents (.list (ps.map f)) ps :=
  .list (List.forall₂_map_left_iff.2 (List.forall₂_same.2 fun p _ => hf p))

theorem presents_of_mem_elementForms {v : Value} {ps : List (Value × Value)}
    (h : v ∈ elementForms ps) : Presents v ps := by
  simp only [elementForms, List.mem_cons, List.not_mem_nil, or_false] at h
  rcases h with rfl | rfl | rfl | rfl
  · exact .mapping ps
  · exact .of_items (fun p => .mapping [(.text "tag", p.1), (.text "component", p.2)]) ps
  · exact .of_items (fun p => .pair p.1 p.2) ps
  · exact .of_items (fun p => .row p.1 p.2) ps

theorem Presents.elementPairs_eq {v : Value} {ps : List (Value × Value)} (h : Presents v ps) :
    elementPairs v = .ok ps := by
  cases h with
  | mapping => rfl
  | list h => exact exceptMapM_eq_ok.2 (h.imp fun _ _ => entryPair_eq_ok.2)

/-- Each list presents pairs, up to its first item that gives none. -/
theorem presents_or_exists_first (items : List Value) :
    (∃ ps, Presents (.list items) ps) ∨
    ∃ before item after, items = before ++ item :: after ∧
      (∀ i ∈ before, ∃ p, GivesPair i p) ∧ ∀ p, ¬GivesPair item p := by
  rcases exceptMapM_cases items entryPair with ⟨ps, h⟩ | ⟨before, item, after, m, rfl, hb, hm⟩
  · exact .inl ⟨ps, .list ((exceptMapM_eq_ok.1 h).imp fun _ _ => entryPair_eq_ok.1)⟩
  · refine .inr ⟨before, item, after, rfl, fun i hi => ?_, (entryPair_eq_error.1 hm).1⟩
    exact (hb i hi).imp fun _ => entryPair_eq_ok.1

/-! ### Entries -/

/-- The pair of values that an entry is read from. -/
def ElementEntry.pair (e : ElementEntry) : Value × Value := (.text e.tag, .text e.component)

/-- The pair tells the entry. -/
theorem ElementEntry.pair_injective : Function.Injective ElementEntry.pair := by
  rintro ⟨tag, component⟩ ⟨tag', component'⟩ h
  cases h
  rfl

namespace ElementEntry

/-- Neither the tag nor the component is blank. -/
structure IsFilled (e : ElementEntry) : Prop where
  tag : Text.isBlank e.tag = false
  component : Text.isBlank e.component = false

variable {e : ElementEntry} {read es : List ElementEntry} {rest : List (Value × Value)}

/-- A pair with texts is read if the tag is new. -/
theorem entriesFrom_pair (he : e.IsFilled) :
    entriesFrom read (e.pair :: rest) =
      if e.tag ∈ read.map ElementEntry.tag then .error (.duplicateTag e.tag none)
      else entriesFrom (read ++ [e]) rest := by
  have hseen : (read.any fun o => decide (o.tag = e.tag)) ↔ e.tag ∈ read.map ElementEntry.tag := by
    rw [List.any_eq_true, List.mem_map]
    exact exists_congr fun o => and_congr_right' decide_eq_true_iff
  rw [pair, entriesFrom, he.tag, he.component, if_neg Bool.false_ne_true,
    if_neg Bool.false_ne_true]
  simp only [hseen]

/-- Pairs with different tags are read one after the other. -/
theorem entriesFrom_pairs (hes : ∀ e ∈ es, e.IsFilled)
    (hn : ((read ++ es).map ElementEntry.tag).Nodup) :
    entriesFrom read (es.map pair ++ rest) = entriesFrom (read ++ es) rest := by
  induction es generalizing read with
  | nil => rw [List.append_nil, List.map_nil, List.nil_append]
  | cons e es ih =>
    have hnew : e.tag ∉ read.map ElementEntry.tag := by
      rw [List.map_append, List.nodup_append] at hn
      exact fun hm => hn.2.2 _ hm _ List.mem_cons_self rfl
    rw [List.append_cons] at hn
    obtain ⟨he, hes⟩ := List.forall_mem_cons.1 hes
    rw [List.map_cons, List.cons_append, entriesFrom_pair he, if_neg hnew, ih hes hn,
      ← List.append_cons]

end ElementEntry

/-! ### Pairs -/

/-- A text with a character that is no white space. -/
def Value.IsFilled : Value → Prop
  | .text t => Text.isBlank t = false
  | _ => False

/-- A pair of tag and component that breaks a rule, after certain tags, and the mistake that it is.
Both may be wrong at once; the tag comes first, and only tags with a component are compared. -/
inductive Breaks (seen : List Text) : Value × Value → Mistake → Prop where
  | tag {k c : Value} (blank : ¬k.IsFilled) : Breaks seen (k, c) (.entryWithoutTag c)
  | component {t : Text} {c : Value} (filled : Text.isBlank t = false) (blank : ¬c.IsFilled) :
    Breaks seen (.text t, c) (.entryWithoutComponent t)
  | repeated {t : Text} {c : Value} (filled : Text.isBlank t = false) (full : c.IsFilled)
    (again : t ∈ seen) : Breaks seen (.text t, c) (.duplicateTag t none)

/-- Pairs that keep the rules, and the entries that they are. -/
structure ReadsAs (ps : List (Value × Value)) (es : List ElementEntry) : Prop where
  pairs : ps = es.map ElementEntry.pair
  filled : ∀ e ∈ es, e.IsFilled
  distinct : (es.map ElementEntry.tag).Nodup

/-- The first pair that breaks a rule is this mistake. -/
def BreaksFirst (ps : List (Value × Value)) (m : Mistake) : Prop :=
  ∃ before es p after, ps = before ++ p :: after ∧ ReadsAs before es ∧
    Breaks (es.map ElementEntry.tag) p m

/-- A pair either breaks a rule or is a new entry. -/
theorem breaks_or_exists_entry (seen : List Text) (p : Value × Value) :
    (∃ m, Breaks seen p m) ∨ ∃ e : ElementEntry, p = e.pair ∧ e.IsFilled ∧ e.tag ∉ seen := by
  obtain ⟨k, c⟩ := p
  by_cases hk : k.IsFilled
  · cases k with
    | text t =>
      by_cases hc : c.IsFilled
      · cases c with
        | text r =>
          by_cases ht : t ∈ seen
          · exact .inl ⟨_, .repeated hk hc ht⟩
          · exact .inr ⟨⟨t, r⟩, rfl, ⟨hk, hc⟩, ht⟩
        | _ => exact hc.elim
      · exact .inl ⟨_, .component hk hc⟩
    | _ => exact hk.elim
  · exact .inl ⟨_, .tag hk⟩

/-- All pairs keep the rules, or a first one breaks one. -/
theorem readsAs_or_breaksFirst (ps : List (Value × Value)) :
    (∃ es, ReadsAs ps es) ∨ ∃ m, BreaksFirst ps m := by
  induction ps using List.reverseRecOn with
  | nil => exact .inl ⟨[], rfl, List.forall_mem_nil _, List.nodup_nil⟩
  | append_singleton ps p ih =>
    rcases ih with ⟨es, hes⟩ | ⟨m, before, es, q, after, rfl, hes, hq⟩
    · rcases breaks_or_exists_entry (es.map ElementEntry.tag) p with ⟨m, hm⟩ | ⟨e, rfl, he, hnew⟩
      · exact .inr ⟨m, ps, es, p, [], rfl, hes, hm⟩
      · refine .inl ⟨es ++ [e], ?_, ?_, ?_⟩
        · rw [hes.pairs, List.map_append, List.map_singleton]
        · exact List.forall_mem_append.2 ⟨hes.filled, List.forall_mem_singleton.2 he⟩
        · rw [List.map_append, List.map_singleton, ← List.concat_eq_append]
          exact hes.distinct.concat hnew
    · exact .inr ⟨m, before, es, q, after ++ [p], by simp, hes, hq⟩

theorem isBlank_of_not_isFilled {t : Text} (h : ¬(Value.text t).IsFilled) : Text.isBlank t :=
  Bool.not_eq_false _ ▸ h

/-- A pair that breaks a rule ends the reading. -/
theorem entriesFrom_of_breaks {read : List ElementEntry} {p : Value × Value} {m : Mistake}
    (h : Breaks (read.map ElementEntry.tag) p m) (rest : List (Value × Value)) :
    entriesFrom read (p :: rest) = .error m := by
  cases h with
  | @tag k c blank =>
    unfold entriesFrom
    cases k with
    | text t => exact if_pos (isBlank_of_not_isFilled blank)
    | _ => rfl
  | @component t c filled blank =>
    unfold entriesFrom
    refine (if_neg (Bool.not_eq_true _ ▸ filled)).trans ?_
    cases c with
    | text r => exact if_pos (isBlank_of_not_isFilled blank)
    | _ => rfl
  | @repeated t c filled full again =>
    cases c with
    | text r =>
      let e : ElementEntry := ⟨t, r⟩
      have he : e.IsFilled := ⟨filled, full⟩
      exact (ElementEntry.entriesFrom_pair he).trans (if_pos again)
    | _ => exact full.elim

/-- Pairs that keep the rules are read one after the other. -/
theorem ReadsAs.entriesFrom_append {ps : List (Value × Value)} {es : List ElementEntry}
    (h : ReadsAs ps es) (rest : List (Value × Value)) :
    entriesFrom [] (ps ++ rest) = entriesFrom es rest := by
  rw [h.pairs]
  exact ElementEntry.entriesFrom_pairs h.filled h.distinct

theorem ReadsAs.entriesFrom_eq {ps : List (Value × Value)} {es : List ElementEntry}
    (h : ReadsAs ps es) : entriesFrom [] ps = .ok es := by
  rw [← List.append_nil ps]
  exact h.entriesFrom_append []

theorem BreaksFirst.entriesFrom_eq {ps : List (Value × Value)} {m : Mistake}
    (h : BreaksFirst ps m) : entriesFrom [] ps = .error m := by
  obtain ⟨before, es, p, after, rfl, hes, hp⟩ := h
  exact (hes.entriesFrom_append (p :: after)).trans (entriesFrom_of_breaks hp after)

theorem entriesFrom_eq_ok_iff {ps : List (Value × Value)} {es : List ElementEntry} :
    entriesFrom [] ps = .ok es ↔ ReadsAs ps es := by
  refine ⟨fun h => ?_, ReadsAs.entriesFrom_eq⟩
  rcases readsAs_or_breaksFirst ps with ⟨es', hes'⟩ | ⟨m, hm⟩
  · rw [hes'.entriesFrom_eq] at h
    cases h
    exact hes'
  · rw [hm.entriesFrom_eq] at h
    cases h

theorem entriesFrom_eq_error_iff {ps : List (Value × Value)} {m : Mistake} :
    entriesFrom [] ps = .error m ↔ BreaksFirst ps m := by
  refine ⟨fun h => ?_, BreaksFirst.entriesFrom_eq⟩
  rcases readsAs_or_breaksFirst ps with ⟨es, hes⟩ | ⟨m', hm'⟩
  · rw [hes.entriesFrom_eq] at h
    cases h
  · rw [hm'.entriesFrom_eq] at h
    cases h
    exact hm'

/-! ### Element lists -/

theorem Presents.elementEntries_eq {v : Value} {ps : List (Value × Value)} (h : Presents v ps) :
    elementEntries v = entriesFrom [] ps := by
  rw [elementEntries, h.elementPairs_eq]
  rfl

/-- Whether the pairs were kept in a mapping or in a list, they are the pairs that are read. -/
theorem presents_ofPairs (pairs : List (Value × Value)) : Presents (.ofPairs pairs) pairs := by
  rw [Value.ofPairs]
  split
  · exact .of_items (fun p => .pair p.1 p.2) pairs
  · exact .mapping pairs

/-! ### Repeated tags -/

section FirstRepeat

variable {α β : Type} {key : α → β}

/-- If keys are repeated, one of them is the first to be. -/
theorem exists_first_repeat {xs : List α} (h : ¬(xs.map key).Nodup) :
    ∃ before x after, xs = before ++ x :: after ∧ (before.map key).Nodup ∧
      key x ∈ before.map key := by
  induction xs using List.reverseRecOn with
  | nil => exact absurd List.nodup_nil h
  | append_singleton xs x ih =>
    by_cases hn : (xs.map key).Nodup
    · by_cases hx : key x ∈ xs.map key
      · exact ⟨xs, x, [], rfl, hn, hx⟩
      · rw [List.map_append, List.map_singleton, ← List.concat_eq_append] at h
        exact absurd (hn.concat hx) h
    · obtain ⟨before, y, after, rfl, hbefore, hy⟩ := ih hn
      exact ⟨before, y, after ++ [x], by simp, hbefore, hy⟩

end FirstRepeat

section Repeated

variable {e : ElementEntry} {es before after : List ElementEntry}

/-- The pairs that were written are read as they are if their tags are different. -/
theorem elementEntries_of_nodup (hes : ∀ e ∈ es, e.IsFilled)
    (hn : (es.map ElementEntry.tag).Nodup) :
    elementEntries (.ofPairs (es.map ElementEntry.pair)) = .ok es :=
  (presents_ofPairs _).elementEntries_eq.trans (ReadsAs.entriesFrom_eq ⟨rfl, hes, hn⟩)

/-- The first tag that was written before is reported. -/
theorem elementEntries_of_repeated (hes : ∀ o ∈ before ++ e :: after, o.IsFilled)
    (hn : (before.map ElementEntry.tag).Nodup) (hm : e.tag ∈ before.map ElementEntry.tag) :
    elementEntries (.ofPairs ((before ++ e :: after).map ElementEntry.pair)) =
      .error (.duplicateTag e.tag none) := by
  obtain ⟨hbefore, hrest⟩ := List.forall_mem_append.1 hes
  have he := hrest e List.mem_cons_self
  rw [(presents_ofPairs _).elementEntries_eq]
  exact BreaksFirst.entriesFrom_eq ⟨_, before, e.pair, _, List.map_append, ⟨rfl, hbefore, hn⟩,
    .repeated he.tag he.component hm⟩

end Repeated

/-! ### Reports -/

/-- Only a value that cannot be shown keeps a mistake from being reported. -/
theorem Mistake.failure_cases (m : Mistake) :
    m.failure = .mistake m ∨ m.failure = .fault .badValue ∧
      ∃ v, (m = .entryShape v ∨ m = .entryWithoutTag v) ∧ v.isShowable = false := by
  rw [Mistake.failure_eq_mistake]
  by_cases hm : m.isWordable
  · exact .inl hm
  · refine .inr ⟨if_neg hm, ?_⟩
    cases m with
    | entryShape v => exact ⟨v, .inl rfl, Bool.eq_false_iff.2 hm⟩
    | entryWithoutTag v => exact ⟨v, .inr rfl, Bool.eq_false_iff.2 hm⟩
    | _ => exact absurd rfl hm

/-- All forms of an element list have the outcome that the rules give its pairs. A list with an item
that gives no pair is refused for the first of these, whatever its other items are. Each refusal is
reported as the mistake that it is, unless this would show an integer with too many digits. -/
theorem elementEntries_outcome (w : Workspace) :
    (∀ ps, ∀ v ∈ elementForms ps, Presents v ps) ∧
    (∀ v ps, Presents v ps →
      (ofMistakes (elementEntries v)).outcome w = (ofMistakes (entriesFrom [] ps)).outcome w ∧
      (∀ es w', (ofMistakes (elementEntries v)).outcome w = (.ok es, w') ↔
        ReadsAs ps es ∧ w' = w) ∧
      ∀ f w', (ofMistakes (elementEntries v)).outcome w = (.error f, w') ↔
        (∃ m, BreaksFirst ps m ∧ m.failure = f) ∧ w' = w) ∧
    (∀ items, (∃ ps, Presents (.list items) ps) ∨
      ∃ before item after, items = before ++ item :: after ∧
        (∀ i ∈ before, ∃ p, GivesPair i p) ∧ ∀ p, ¬GivesPair item p) ∧
    (∀ before item after, (∀ i ∈ before, ∃ p, GivesPair i p) → (∀ p, ¬GivesPair item p) →
      (ofMistakes (elementEntries (.list (before ++ item :: after)))).outcome w =
        (.error (Mistake.entryShape item).failure, w)) ∧
    ∀ m : Mistake, m.failure = .mistake m ∨ m.failure = .fault .badValue ∧
      ∃ v, (m = .entryShape v ∨ m = .entryWithoutTag v) ∧ v.isShowable = false := by
  refine ⟨fun ps v => presents_of_mem_elementForms, fun v ps h => ?_, presents_or_exists_first,
    fun before item after hb hi => ?_, Mistake.failure_cases⟩
  · rw [h.elementEntries_eq]
    refine ⟨rfl, fun es w' => ?_, fun f w' => ?_⟩
    · rw [outcome_ofMistakes_eq_ok, entriesFrom_eq_ok_iff]
    · simp only [outcome_ofMistakes_eq_error, entriesFrom_eq_error_iff]
  · have hbefore : ∀ i ∈ before, ∃ p, entryPair i = .ok p :=
      fun i hi => (hb i hi).imp fun _ => entryPair_eq_ok.2
    have hpairs : elementPairs (.list (before ++ item :: after)) = .error (.entryShape item) :=
      exceptMapM_append_error hbefore (entryPair_eq_error.2 ⟨hi, rfl⟩) after
    rw [elementEntries, hpairs]
    rfl

/-- Two entries of different shapes are read; an integer in the place of an entry is reported as a
fault if it has more digits than can be shown. -/
theorem elementEntries_outcome_long :
    (ofMistakes (elementEntries (.list [.pair (.text "x-a") (.text "A"),
      .list [.text "x-b", .text "B"]]))).outcome Workspace.bare =
      (.ok [⟨"x-a", "A"⟩, ⟨"x-b", "B"⟩], Workspace.bare) ∧
    (ofMistakes (elementEntries (.list [.pair (.text "x-a") (.text "A"),
      .int (tenTo Numeral.digitLimit)]))).outcome Workspace.bare =
      (.error (.fault .badValue), Workspace.bare) := by
  obtain ⟨-, hread, -, hrefused, -⟩ := elementEntries_outcome Workspace.bare
  constructor
  · refine ((hread _ _ (.list (.cons (.pair _ _) (.cons (.row _ _) .nil)))).2.1 _ _).2 ⟨?_, rfl⟩
    have hfilled : ∀ e ∈ [(⟨"x-a", "A"⟩ : ElementEntry), ⟨"x-b", "B"⟩], e.IsFilled :=
      List.forall_mem_cons.2 ⟨⟨rfl, rfl⟩, List.forall_mem_singleton.2 ⟨rfl, rfl⟩⟩
    exact ⟨rfl, hfilled, by decide⟩
  · have hbefore : ∀ i ∈ [Value.pair (.text "x-a") (.text "A")], ∃ p, GivesPair i p :=
      List.forall_mem_singleton.2 ⟨_, .pair _ _⟩
    refine (hrefused _ _ [] hbefore (by rintro p ⟨⟩)).trans ?_
    have hlong : (Value.int (tenTo Numeral.digitLimit)).isShowable = false := by decide +kernel
    rw [Mistake.failure, Mistake.isWordable, hlong]
    rfl

end CustomElements
