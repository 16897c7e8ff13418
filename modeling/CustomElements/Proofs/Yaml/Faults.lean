import Mathlib.Data.List.TakeWhile
import Mathlib.Logic.Relation
import CustomElements.Proofs.Text.Hexadecimal
import CustomElements.Proofs.Yaml.Construction

/-!
# Faults of YAML texts

A text that is no YAML is malformed. Beyond that it can meet a fault: an escape of a number that is
no code point, a version with too many digits, or a scalar whose text does not have the form that
its tag asks for. There are no other ways.
-/

namespace CustomElements.Yaml

/-! ### Nodes -/

namespace Node

/-- The text of a node does not have the form that its tag asks for. -/
inductive Misfits : Node → Fault → Prop where
  | bool {n : Node} {t : Text} {f : Fault} (tag : n.tag = .bool) (text : n.scalarText? = some t)
    (unread : boolValue t = .error f) : Misfits n f
  | int {n : Node} {t : Text} {f : Fault} (tag : n.tag = .int) (text : n.scalarText? = some t)
    (unread : integerValue t = .error f) : Misfits n f
  | float {n : Node} {t : Text} {f : Fault} (tag : n.tag = .float) (text : n.scalarText? = some t)
    (unread : floatValue t = .error f) : Misfits n f
  | time {t : Text} {f : Fault} (unread : timeValue t = .error f) : Misfits (scalar .timestamp t) f
  | mapping (p : CodePoint) (t : Text) : Misfits (scalar .mapping (p :: t)) .badValue

section Values

variable {g : Node → Except ReadError Value} {n c : Node} {f : Fault} {e : Node × Node}
variable {r : ReadError} {i : Node}

theorem ofFault_eq_fault {α : Type} {x : Except Fault α} :
    ofFault x = .error (.fault f) ↔ x = .error f := by
  cases x <;> simp [ofFault]

theorem orMalformed_ne_fault {α : Type} {x : Option α} : orMalformed x ≠ .error (.fault f) := by
  cases x <;> nofun

theorem orMalformed_eq_ok {α : Type} {x : Option α} {a : α} :
    orMalformed x = .ok a ↔ x = some a := by
  cases x <;> simp [orMalformed]

/-- A scalar is a fault because its text is one for its tag. -/
theorem exists_text_of_fault {α : Type} {form : Text → Except Fault α} {make : α → Value} :
    (do return make (← ofFault (form (← orMalformed n.scalarText?)))) =
      Except.error (ReadError.fault f) ↔
    ∃ t, n.scalarText? = some t ∧ form t = .error f := by
  simp only [exceptBind_eq_error, orMalformed_ne_fault, orMalformed_eq_ok, ofFault_eq_fault,
    false_or]
  refine exists_congr fun t => and_congr_right' (or_iff_left ?_)
  rintro ⟨a, -, h⟩
  cases h

theorem scalarValue_eq_fault :
    n.scalarValue = .error (.fault f) ↔ n.Misfits f ∧ n.tag ≠ .mapping := by
  constructor
  · intro h
    unfold scalarValue at h
    split at h
    case h_1 =>
      rcases exceptBind_eq_error.1 h with h | ⟨_, -, h⟩
      · exact absurd h orMalformed_ne_fault
      · cases h
    case h_2 tag =>
      obtain ⟨t, text, unread⟩ := exists_text_of_fault.1 h
      exact ⟨.bool tag text unread, by rw [tag]; nofun⟩
    case h_3 tag =>
      obtain ⟨t, text, unread⟩ := exists_text_of_fault.1 h
      exact ⟨.int tag text unread, by rw [tag]; nofun⟩
    case h_4 tag =>
      obtain ⟨t, text, unread⟩ := exists_text_of_fault.1 h
      exact ⟨.float tag text unread, by rw [tag]; nofun⟩
    case h_5 =>
      rcases exceptBind_eq_error.1 h with h | ⟨_, -, h⟩
      · exact absurd h orMalformed_ne_fault
      · cases h
    case h_6 =>
      rcases exceptBind_eq_error.1 h with h | ⟨_, -, h⟩
      · exact absurd h orMalformed_ne_fault
      · rcases exceptBind_eq_error.1 h with h | ⟨_, -, h⟩
        · exact absurd h orMalformed_ne_fault
        · cases h
    case h_7 tag =>
      split at h
      · next t' t =>
        obtain rfl : t' = .timestamp := tag
        exact ⟨.time (ofFault_eq_fault.1 h), nofun⟩
      · cases h
    case h_8 => cases h
  · rintro ⟨h, htag⟩
    unfold scalarValue
    cases h with
    | bool tag text unread | int tag text unread | float tag text unread =>
      rw [tag]
      exact exists_text_of_fault.2 ⟨_, text, unread⟩
    | time unread => exact ofFault_eq_fault.2 unread
    | mapping => exact absurd rfl htag

/-- A pair is a fault because its key or what is under it is one. -/
theorem pairOf_fault (h : pairOf g e = .error (.fault f)) :
    g e.1 = .error (.fault f) ∨ g e.2 = .error (.fault f) := by
  rcases exceptBind_eq_error.1 h with h | ⟨k, -, h⟩
  · exact .inl h
  · rcases exceptBind_eq_error.1 h with h | ⟨v, -, h⟩
    · exact .inr h
    · cases h

theorem keyedPairOf_fault (h : keyedPairOf g e = .error (.fault f)) :
    g e.1 = .error (.fault f) ∨ g e.2 = .error (.fault f) := by
  rcases exceptBind_eq_error.1 h with h | ⟨k, -, h⟩
  · exact .inl h
  · cases hk : k.isKey with
    | false =>
      rw [hk] at h
      cases h
    | true =>
      rw [hk] at h
      rcases exceptBind_eq_error.1 h with h | ⟨v, -, h⟩
      · exact .inr h
      · cases h

theorem itemPairOf_fault (h : itemPairOf g i = .error (.fault f)) :
    ∃ t a e, i = mapping t a [e] ∧ (g e.1 = .error (.fault f) ∨ g e.2 = .error (.fault f)) := by
  unfold itemPairOf at h
  split at h
  · exact ⟨_, _, _, rfl, pairOf_fault h⟩
  · cases h

mutual

/-- What is merged is never a fault. -/
theorem split_ne_fault (es : List (Node × Node)) : split es ≠ .error (.fault f) := by
  match es with
  | [] => nofun
  | (k, v) :: es =>
    intro h
    rw [split] at h
    rcases exceptBind_eq_error.1 h with h | ⟨rest, -, h⟩
    · exact split_ne_fault es h
    · dsimp only at h
      split at h
      · rcases exceptBind_eq_error.1 h with h | ⟨_, -, h⟩
        · exact mergedBy_ne_fault v h
        · cases h
      · cases h
termination_by structural es

theorem mergedBy_ne_fault (v : Node) : mergedBy v ≠ .error (.fault f) := by
  match v with
  | scalar _ _ => nofun
  | loop _ => nofun
  | mapping t a sub =>
    intro h
    rw [mergedBy] at h
    rcases exceptBind_eq_error.1 h with h | ⟨_, -, h⟩
    · exact split_ne_fault sub h
    · cases h
  | sequence t a items => exact mergedItems_ne_fault items
termination_by structural v

theorem mergedItems_ne_fault (items : List Node) : mergedItems items ≠ .error (.fault f) := by
  match items with
  | [] => nofun
  | scalar _ _ :: _ => nofun
  | loop _ :: _ => nofun
  | sequence _ _ _ :: _ => nofun
  | mapping t a sub :: items =>
    intro h
    rw [mergedItems] at h
    rcases exceptBind_eq_error.1 h with h | ⟨_, -, h⟩
    · exact split_ne_fault sub h
    · rcases exceptBind_eq_error.1 h with h | ⟨_, -, h⟩
      · exact mergedItems_ne_fault items h
      · cases h
termination_by structural items

end

theorem flatten_ne_fault (es : List (Node × Node)) : flatten es ≠ .error (.fault f) := by
  intro h
  rcases exceptBind_eq_error.1 h with h | ⟨_, -, h⟩
  · exact split_ne_fault es h
  · cases h

/-- The entries of a node are a fault because the key or the value of one is. -/
theorem entries_fault {t : Tag} {a : Option Text} {es : List (Node × Node)}
    {pair : Node × Node → Except ReadError (Value × Value)} (ht : t = .mapping ∨ t = .set)
    (hpair : ∀ e, pair e = .error (.fault f) →
      g e.1 = .error (.fault f) ∨ g e.2 = .error (.fault f))
    (h : (do (← flatten es).mapM pair) = .error (.fault f)) :
    ∃ c, HasPart (mapping t a es) c ∧ g c = .error (.fault f) := by
  rcases exceptBind_eq_error.1 h with h | ⟨entries, flat, h⟩
  · exact absurd h (flatten_ne_fault es)
  · obtain ⟨e, mem, h⟩ := exists_mem_of_exceptMapM_eq_error h
    rcases hpair e h with h | h
    · exact ⟨_, .key ht flat mem, h⟩
    · exact ⟨_, .value ht flat mem, h⟩

/-- A node is a fault because its text is one for its tag, or because one of its parts is one. -/
theorem step_fault (h : step keepsPairs g n = .error (.fault f)) :
    n.Misfits f ∨ ∃ c, HasPart n c ∧ g c = .error (.fault f) := by
  have hown (hstep : step keepsPairs g n = n.scalarValue) : n.Misfits f :=
    (scalarValue_eq_fault.1 (hstep.symm.trans h)).1
  cases n with
  | scalar t s =>
    cases t with
    | mapping =>
      cases s with
      | nil => cases h
      | cons p s =>
        cases h
        exact .inl (.mapping p s)
    | sequence | set | orderedMapping | pairs => cases h
    | _ => exact .inl (hown rfl)
  | loop a => cases h
  | sequence t a items =>
    have hpairs (ht : t = .orderedMapping ∨ t = .pairs)
        (h : step keepsPairs g (sequence t a items) = .error (.fault f)) :
        ∃ c, HasPart (sequence t a items) c ∧ g c = .error (.fault f) := by
      rw [step_pairs ht] at h
      rcases exceptBind_eq_error.1 h with h | ⟨_, -, h⟩
      · obtain ⟨i, mem, h⟩ := exists_mem_of_exceptMapM_eq_error h
        obtain ⟨t', a', e, rfl, h | h⟩ := itemPairOf_fault h
        · exact ⟨_, .itemKey ht mem, h⟩
        · exact ⟨_, .itemValue ht mem, h⟩
      · cases h
    cases t with
    | sequence =>
      rw [step_sequence] at h
      rcases exceptBind_eq_error.1 h with h | ⟨_, -, h⟩
      · obtain ⟨i, mem, h⟩ := exists_mem_of_exceptMapM_eq_error h
        exact .inr ⟨i, .item mem, h⟩
      · cases h
    | orderedMapping => exact .inr (hpairs (.inl rfl) h)
    | pairs => exact .inr (hpairs (.inr rfl) h)
    | mapping | set => cases h
    | _ => exact .inl (hown rfl)
  | mapping t a es =>
    cases t with
    | mapping =>
      rw [step_mapping, ← bind_assoc] at h
      rcases exceptBind_eq_error.1 h with h | ⟨_, -, h⟩
      · exact .inr (entries_fault (.inl rfl) (fun _ => pairOf_fault) h)
      · split at h <;> cases h
    | set =>
      rw [step_set, ← bind_assoc] at h
      rcases exceptBind_eq_error.1 h with h | ⟨_, -, h⟩
      · exact .inr (entries_fault (.inr rfl) (fun _ => keyedPairOf_fault) h)
      · cases h
    | sequence | orderedMapping | pairs => cases h
    | _ => exact .inl (hown rfl)

/-- A node is a fault if its text does not have the form that its tag asks for. -/
theorem step_of_misfits (h : n.Misfits f) : step keepsPairs g n = .error (.fault f) := by
  have hscalar (htag : n.tag ≠ .mapping) : n.scalarValue = .error (.fault f) :=
    scalarValue_eq_fault.2 ⟨h, htag⟩
  cases h with
  | mapping p t => rfl
  | time unread => exact hscalar nofun
  | bool tag | int tag | float tag =>
    rw [tag] at hscalar
    unfold step
    rw [tag]
    exact hscalar nofun

/-- A node has no value if one of its parts has none. -/
theorem step_of_part (hc : HasPart n c) (h : ∀ u, g c ≠ .ok u) (u : Value) :
    step keepsPairs g n ≠ .ok u := by
  intro hu
  have hentry {t : Tag} {a : Option Text} {es entries : List (Node × Node)} {e : Node × Node}
      (ht : t = .mapping ∨ t = .set) (flat : flatten es = .ok entries) (mem : e ∈ entries)
      (hu : step keepsPairs g (mapping t a es) = .ok u) : ∃ p, pairOf g e = .ok p := by
    have hpairs : ∃ ps, entries.mapM (keyedPairOf g) = .ok ps := by
      rcases ht with rfl | rfl
      · obtain ⟨_, ps, flat', hps, -⟩ := step_mapping_eq_ok.1 hu
        exact ⟨ps, Except.ok.inj (flat'.symm.trans flat) ▸ hps⟩
      · obtain ⟨_, ps, flat', hps, -⟩ := step_set_eq_ok.1 hu
        exact ⟨ps, Except.ok.inj (flat'.symm.trans flat) ▸ hps⟩
    obtain ⟨p, hp⟩ := exceptMapM_ok_iff.1 hpairs e mem
    exact ⟨p, (keyedPairOf_eq_ok.1 hp).2⟩
  have hitem {t t' : Tag} {a a' : Option Text} {items : List Node} {e : Node × Node}
      (ht : t = .orderedMapping ∨ t = .pairs) (mem : mapping t' a' [e] ∈ items)
      (hu : step keepsPairs g (sequence t a items) = .ok u) : ∃ p, pairOf g e = .ok p := by
    obtain ⟨ps, hps, -⟩ := (step_pairs_eq_ok ht).1 hu
    exact exceptMapM_ok_iff.1 ⟨ps, hps⟩ _ mem
  cases hc with
  | item mem =>
    obtain ⟨vs, hvs, -⟩ := step_sequence_eq_ok.1 hu
    obtain ⟨v, hv⟩ := exceptMapM_ok_iff.1 ⟨vs, hvs⟩ _ mem
    exact h v hv
  | key ht flat mem =>
    obtain ⟨p, hp⟩ := hentry ht flat mem hu
    exact h _ (pairOf_eq_ok.1 hp).1
  | value ht flat mem =>
    obtain ⟨p, hp⟩ := hentry ht flat mem hu
    exact h _ (pairOf_eq_ok.1 hp).2
  | itemKey ht mem =>
    obtain ⟨p, hp⟩ := hitem ht mem hu
    exact h _ (pairOf_eq_ok.1 hp).1
  | itemValue ht mem =>
    obtain ⟨p, hp⟩ := hitem ht mem hu
    exact h _ (pairOf_eq_ok.1 hp).2

end Values

section Trees

open Relation (ReflTransGen)

variable {n m : Node} {f : Fault} {fuel : Nat} {deep : Bool} {opened : List Text}

theorem valueAt_loop_ne_fault (a : Text) :
    valueAt fuel deep opened (loop a) ≠ .error (.fault f) := by
  cases fuel with
  | zero => nofun
  | succ fuel =>
    show (if opened.contains a then Except.ok Value.null else .error ReadError.malformed) ≠ _
    split <;> nofun

/-- A tree is a fault because of a part of it whose text does not have the form that its tag asks
for. -/
theorem valueAt_fault (h : valueAt fuel deep opened n = .error (.fault f)) :
    ∃ m, ReflTransGen HasPart n m ∧ m.Misfits f := by
  induction fuel generalizing n deep opened with
  | zero => cases h
  | succ fuel ih =>
    by_cases hn : ∃ a, n = loop a
    · obtain ⟨a, rfl⟩ := hn
      exact absurd h (valueAt_loop_ne_fault a)
    · rw [valueAt_succ deep opened fun a ha => hn ⟨a, ha⟩] at h
      rcases step_fault h with hm | ⟨c, hc, h⟩
      · exact ⟨n, .refl, hm⟩
      · obtain ⟨m, hcm, hm⟩ := ih h
        exact ⟨m, .head hc hcm, hm⟩

/-- A tree with such a part has no value: another part may be malformed before it is met. -/
theorem valueAt_of_misfits (hm : m.Misfits f) (h : ReflTransGen HasPart n m) (u : Value) :
    valueAt fuel deep opened n ≠ .ok u := by
  induction fuel generalizing n deep opened u with
  | zero => nofun
  | succ fuel ih =>
    have hn (a : Text) : n ≠ loop a := by
      rintro rfl
      cases h using Relation.ReflTransGen.head_induction_on with
      | refl => cases hm <;> contradiction
      | head hc _ => cases hc
    rw [valueAt_succ deep opened hn]
    rcases h.cases_head with rfl | ⟨c, hc, hcm⟩
    · rw [step_of_misfits hm]
      nofun
    · exact step_of_part hc (fun u => ih hcm u) u

end Trees

end Node

/-! ### Words -/

/-- What in a text is a fault before there is a tree: the escape of a number that is no code point,
or the number of a version with too many digits. -/
inductive FaultyWord (cs : List Char) : Fault → Prop where
  | escape {ds : List Char} {n : Nat} (written : '\\' :: 'U' :: ds <:+: cs) (length : ds.length = 8)
    (number : hexValue? ds = some n) (beyond : 0x10FFFF < n) :
    FaultyWord cs (if n < 0x80000000 then .badValue else .beyondRange)
  | version {ds : List Char} (directive : "%YAML".toList <:+: cs) (written : ds <:+: cs)
    (digits : ∀ d ∈ ds, d.isDigit) (many : Numeral.digitLimit < ds.length) : FaultyWord cs .badValue

/-- What a reader of a part of the text `cs` comes to: a rest of the text, or a fault that has its
word in the text. -/
structure ReadsIn {α : Type} (cs : List Char) (rest : α → List Char) (x : Except ReadError α) :
    Prop where
  rest : ∀ a, x = .ok a → rest a <:+ cs
  fault : ∀ f, x = .error (.fault f) → FaultyWord cs f

section Words

variable {α β : Type} {cs r : List Char}

namespace ReadsIn

theorem ok {rest : α → List Char} {a : α} (h : rest a <:+ cs) : ReadsIn cs rest (.ok a) :=
  ⟨fun _ ha => Except.ok.inj ha ▸ h, nofun⟩

theorem malformed {rest : α → List Char} : ReadsIn cs rest (.error .malformed) := ⟨nofun, nofun⟩

theorem bind {x : Except ReadError α} {g : α → Except ReadError β} {rest : α → List Char}
    {rest' : β → List Char} (hx : ReadsIn cs rest x)
    (hg : ∀ a, rest a <:+ cs → ReadsIn cs rest' (g a)) : ReadsIn cs rest' (x >>= g) := by
  refine ⟨fun b hb => ?_, fun f hf => ?_⟩
  · obtain ⟨a, ha, hb⟩ := exceptBind_eq_ok.1 hb
    exact (hg a (hx.rest a ha)).rest b hb
  · rcases exceptBind_eq_error.1 hf with hf | ⟨a, ha, hf⟩
    · exact hx.fault f hf
    · exact (hg a (hx.rest a ha)).fault f hf

theorem map {x : Except ReadError α} {g : α → β} {rest : α → List Char} {rest' : β → List Char}
    (hx : ReadsIn cs rest x) (hg : ∀ a, rest a <:+ cs → rest' (g a) <:+ cs) :
    ReadsIn cs rest' (x.map g) := by
  cases x with
  | ok a => exact ok (hg a (hx.rest a rfl))
  | error e => exact ⟨nofun, fun f hf => hx.fault f (congrArg _ (Except.error.inj hf))⟩

theorem ite {rest : α → List Char} {x y : Except ReadError α} {p : Prop} [Decidable p]
    (hx : p → ReadsIn cs rest x) (hy : ¬p → ReadsIn cs rest y) :
    ReadsIn cs rest (if p then x else y) := by
  split
  · next hp => exact hx hp
  · next hp => exact hy hp

/-- A condition without which a text is malformed. -/
theorem guard {rest : α → List Char} {x : Except ReadError α} {p : Prop} [Decidable p]
    (hx : ReadsIn cs rest x) :
    ReadsIn cs rest (if p then (do Except.error ReadError.malformed; x) else x) :=
  ite (fun _ => malformed) fun _ => hx

end ReadsIn

theorem readsIn_quotedBreaks (start : Bool) (h : r <:+ cs) :
    ReadsIn cs Prod.snd (quotedBreaks start r) := by
  induction r generalizing start with
  | nil => exact .ok h
  | cons c r ih =>
    have hr := (List.suffix_cons c r).trans h
    unfold quotedBreaks
    split
    · exact .malformed
    · split
      · exact ih false hr
      · split
        · exact (ih true hr).map fun _ hrest => hrest
        · exact .ok h

theorem readsIn_quotedBlanks (h : r <:+ cs) : ReadsIn cs Prod.snd (quotedBlanks r) := by
  have hblank (p : Char → Bool) : r.dropWhile p <:+ cs := (List.dropWhile_suffix p).trans h
  unfold quotedBlanks
  dsimp only
  split
  · exact .malformed
  · next c q hq =>
    have hcq := hq ▸ hblank _
    split
    · refine (readsIn_quotedBreaks true ((List.suffix_cons c q).trans hcq)).bind fun a ha => ?_
      exact .ok ha
    · exact .ok hcq

theorem singleWord_suffix (r : List Char) : (singleWord r).2 <:+ r := by
  induction r using singleWord.induct with
  | case1 r ih =>
    rw [singleWord]
    exact ih.trans ((List.suffix_cons _ _).trans (List.suffix_cons _ _))
  | case2 c r hc hstop =>
    simp [singleWord.eq_2 _ _ hc, hstop]
  | case3 c r hc hstop ih =>
    rw [singleWord.eq_2 _ _ hc, if_neg hstop]
    exact ih.trans (List.suffix_cons _ _)
  | case4 => exact List.suffix_rfl

/-- The escape of a number is a fault if it is no code point. -/
theorem readsIn_codePoint {c : Char} {k n : Nat} {ds : List Char} (hk : codeLength? c = some k)
    (hlength : ds.length = k) (hn : hexValue? ds = some n) (hwritten : '\\' :: c :: ds <:+: cs) :
    ReadsIn cs (fun _ => []) (codePoint n) := by
  refine ⟨fun _ _ => List.nil_suffix, fun f hf => ?_⟩
  have hlt := hexValue?_lt hn
  unfold codePoint at hf
  split at hf
  · cases hf
  · next hnone =>
    have hbeyond : 0x10FFFF < n := by
      by_contra hle
      obtain ⟨p, hp, -⟩ := CodePoint.exists_ofNat? (n := n) (by omega)
      rw [hp] at hnone
      cases hnone
    cases hf
    unfold codeLength? at hk
    split at hk
    case h_4 => cases hk
    all_goals
      cases hk
      rw [hlength] at hlt
    · omega
    · omega
    · exact .escape hwritten hlength hn hbeyond

theorem readsIn_doubleWord (fuel : Nat) (h : r <:+ cs) :
    ReadsIn cs Prod.snd (doubleWord fuel r) := by
  induction fuel generalizing r with
  | zero => exact .ok h
  | succ fuel ih =>
    have hrest {c d : Char} {q : List Char} (h : c :: d :: q <:+ cs) : q <:+ cs :=
      ((List.suffix_cons d q).trans (List.suffix_cons c _)).trans h
    unfold doubleWord
    split
    · next heq => cases heq
    · exact .ok h
    · exact .malformed
    · next c q heq =>
      obtain rfl := Nat.succ.inj heq
      split
      · exact (ih (hrest h)).bind fun _ ht => .ok ht
      · next k _ hk =>
        split
        · exact .malformed
        · next hlength =>
          split
          · exact .malformed
          · next n hn =>
            have hread : '\\' :: c :: q.take k <+: '\\' :: c :: q :=
              (List.prefix_cons_inj _).2 ((List.prefix_cons_inj _).2 (List.take_prefix _ _))
            have hcode := readsIn_codePoint hk (List.length_take_of_le (Nat.not_lt.1 hlength)) hn
              (hread.isInfix.trans h.isInfix)
            refine hcode.bind fun p _ => ?_
            exact (ih ((List.drop_suffix _ _).trans (hrest h))).bind fun _ ht => .ok ht
      · split
        · refine (readsIn_quotedBreaks true (hrest h)).bind fun ⟨breaks, rest⟩ hq => ?_
          exact (ih hq).bind fun _ ht => .ok ht
        · exact .malformed
    · next c q _ _ heq =>
      obtain rfl := Nat.succ.inj heq
      split
      · exact .ok h
      · exact (ih ((List.suffix_cons c q).trans h)).bind fun _ ht => .ok ht

theorem readsIn_quotedRest (q : Quote) (fuel : Nat) (h : r <:+ cs) :
    ReadsIn cs Prod.snd (quotedRest q fuel r) := by
  induction fuel generalizing r with
  | zero => exact .malformed
  | succ fuel ih =>
    have hsingle : ReadsIn cs Prod.snd (pure (singleWord r)) := .ok ((singleWord_suffix r).trans h)
    have hdouble : ReadsIn cs Prod.snd (doubleWord r.length r) := readsIn_doubleWord _ h
    unfold quotedRest
    cases q
    case' single => refine hsingle.bind ?_
    case' double => refine hdouble.bind ?_
    all_goals
      rintro ⟨word, rest⟩ hrest
      dsimp only
      split
      · exact .ok ((List.drop_suffix _ _).trans hrest)
      · refine (readsIn_quotedBlanks hrest).bind fun ⟨blanks, rest⟩ hrest => ?_
        exact (ih hrest).bind fun ⟨t, rest⟩ hrest => .ok hrest

theorem readsIn_quotedScalar (q : Quote) (h : r <:+ cs) :
    ReadsIn cs Prod.snd (quotedScalar q r) := readsIn_quotedRest q _ h

/-! The readers of other words meet no fault; what they leave unread does not matter. -/

theorem readsIn_skipLineRest (r : List Char) : ReadsIn cs (fun _ => []) (skipLineRest r) := by
  unfold skipLineRest
  dsimp only
  split
  · exact .ok List.nil_suffix
  · split
    · exact .ok List.nil_suffix
    · exact .malformed

theorem readsIn_percentBytes (r : List Char) : ReadsIn cs (fun _ => []) (percentBytes r) := by
  induction r using percentBytes.induct with
  | case1 a b r n hn ih =>
    rw [percentBytes, hn]
    exact ih.map fun _ _ => List.nil_suffix
  | case2 a b r hn =>
    rw [percentBytes, hn]
    exact .malformed
  | case3 r hr =>
    rw [percentBytes.eq_2 _ hr]
    exact .malformed
  | case4 r hr hr' =>
    rw [percentBytes.eq_3 _ hr hr']
    exact .ok List.nil_suffix

theorem readsIn_tagPieces (fuel : Nat) (r : List Char) :
    ReadsIn cs (fun _ => []) (tagPieces fuel r) := by
  induction fuel generalizing r with
  | zero => exact .ok List.nil_suffix
  | succ fuel ih =>
    unfold tagPieces
    split
    · refine (readsIn_percentBytes _).bind fun ⟨bytes, rest⟩ _ => ?_
      dsimp only
      split
      · exact .malformed
      · exact (ih rest).map fun _ _ => List.nil_suffix
    · split
      · exact (ih _).map fun _ _ => List.nil_suffix
      · exact .ok List.nil_suffix
    · exact .ok List.nil_suffix

theorem readsIn_tagText (r : List Char) : ReadsIn cs (fun _ => []) (tagText r) := by
  unfold tagText
  split
  · exact .malformed
  · exact readsIn_tagPieces _ _

theorem readsIn_tagHandle (r : List Char) : ReadsIn cs (fun _ => []) (tagHandle r) := by
  unfold tagHandle
  split
  · exact .ok List.nil_suffix
  · split
    · exact .ok List.nil_suffix
    · exact .malformed
  · exact .malformed

theorem readsIn_tagToken (r : List Char) : ReadsIn cs (fun _ => []) (tagToken r) := by
  have hend (token : Token) (rest : List Char) : ReadsIn cs (fun _ => [])
      (if endsOr (fun c => c == ' ' || isBreak c) rest then pure (token, rest)
        else Except.error ReadError.malformed) := by
    split
    · exact .ok List.nil_suffix
    · exact .malformed
  unfold tagToken
  split
  · refine (readsIn_tagText _).bind fun _ _ => ?_
    split
    · exact hend _ _
    · exact .malformed
  · dsimp only
    split
    · exact hend _ _
    · split
      · exact (readsIn_tagHandle _).bind fun _ _ => (readsIn_tagText _).bind fun _ _ => hend _ _
      · exact (readsIn_tagText _).bind fun _ _ => hend _ _

theorem readsIn_anchorName (r : List Char) : ReadsIn cs (fun _ => []) (anchorName r) := by
  unfold anchorName
  dsimp only
  split
  · exact .malformed
  · split
    · exact .ok List.nil_suffix
    · exact .malformed

theorem readsIn_versionNumber (hname : "%YAML".toList <:+: cs) (h : r <:+ cs) :
    ReadsIn cs Prod.snd (versionNumber r) := by
  unfold versionNumber
  dsimp only
  split
  · exact .malformed
  · next hne =>
    split
    · exact .ok ((List.dropWhile_suffix _).trans h)
    · next hnone =>
      refine ⟨nofun, fun f hf => ?_⟩
      cases hf
      have hdigits : ∀ d ∈ r.takeWhile Char.isDigit, d.isDigit := fun d hd =>
        List.mem_takeWhile_imp hd
      refine .version hname ((List.takeWhile_prefix _).isInfix.trans h.isInfix) hdigits ?_
      by_contra hlimit
      obtain ⟨n, hn⟩ := Numeral.exists_decimal? (by simpa using hne) hdigits (Nat.not_lt.1 hlimit)
      rw [hn] at hnone
      cases hnone

/-- A directive behind its percent sign. -/
theorem readsIn_directive (h : '%' :: r <:+ cs) : ReadsIn cs (fun _ => []) (directive r) := by
  have hspaces {q : List Char} (hq : q <:+ cs) : q.dropWhile (· == ' ') <:+ cs :=
    (List.dropWhile_suffix _).trans hq
  have hline (make : List Char → Token × List Char) (q : List Char) :
      ReadsIn cs (fun _ => []) (do return make (← skipLineRest q)) :=
    (readsIn_skipLineRest q).bind fun _ _ => .ok List.nil_suffix
  unfold directive
  refine .guard ?_
  split
  · next hname =>
    have hnamed : "%YAML".toList <:+: cs := by
      have hread : '%' :: r.takeWhile isWordChar <+: '%' :: r :=
        (List.prefix_cons_inj _).2 (List.takeWhile_prefix _)
      rw [hname] at hread
      exact hread.isInfix.trans h.isInfix
    have hrest := (List.dropWhile_suffix isWordChar).trans ((List.suffix_cons '%' r).trans h)
    refine (readsIn_versionNumber hnamed (hspaces hrest)).bind fun major hmajor => .guard ?_
    refine (readsIn_versionNumber hnamed ((List.drop_suffix _ _).trans hmajor)).bind
      fun minor _ => .guard ?_
    exact hline _ _
  · split
    · refine (readsIn_tagHandle _).bind fun handle _ => .guard ?_
      exact (readsIn_tagText _).bind fun meaning _ => .guard (hline _ _)
    · exact hline _ _

theorem readsIn_increment? (c : Char) : ReadsIn cs (fun _ => []) (increment? c) := by
  unfold increment?
  split
  · exact .malformed
  · split <;> exact .ok List.nil_suffix

theorem readsIn_blockHeader (r : List Char) : ReadsIn cs (fun _ => []) (blockHeader r) := by
  have hend (header : BlockHeader) (rest : List Char) : ReadsIn cs (fun _ => [])
      (if endsOr (fun c => c == ' ' || isBreak c) rest then do
          return (header, ← skipLineRest rest)
        else Except.error ReadError.malformed) := by
    split
    · exact (readsIn_skipLineRest _).bind fun _ _ => .ok List.nil_suffix
    · exact .malformed
  unfold blockHeader
  dsimp only
  split
  · exact hend {} []
  · split
    · split
      · exact hend ⟨_, none⟩ []
      · refine (readsIn_increment? _).bind fun _ _ => ?_
        split <;> exact hend _ _
    · refine (readsIn_increment? _).bind fun _ _ => ?_
      split
      · exact hend _ _
      · split
        · exact hend ⟨.clip, _⟩ []
        · exact hend _ _

theorem readsIn_blockScalar (folded : Bool) (outer : Int) (r : List Char) :
    ReadsIn cs (fun _ => []) (blockScalar folded outer r) :=
  (readsIn_blockHeader r).bind fun _ _ => .ok List.nil_suffix

end Words

/-! ### Tokens -/

section Tokens

variable {cs r : List Char} {s : Scan}

theorem moveTo_suffix (k : Cursor) (r : List Char) : (k.moveTo r).rest <:+ k.rest := by
  have hstep (k : Cursor) (c : Char) : (k.step c).rest <:+ k.rest := by
    unfold Cursor.step
    dsimp only
    repeat' split
    all_goals exact List.drop_suffix 1 k.rest
  have hfold (taken : List Char) (k : Cursor) : (taken.foldl Cursor.step k).rest <:+ k.rest := by
    induction taken generalizing k with
    | nil => exact List.suffix_rfl
    | cons c taken ih => exact (ih _).trans (hstep k c)
  exact hfold _ k

namespace Scan

/-- What is left to read of a text. -/
def rest (s : Scan) : List Char := s.cursor.rest

theorem emit_suffix (s : Scan) (t : Token) (r : List Char) : (s.emit t r).rest <:+ s.rest :=
  moveTo_suffix s.cursor r

theorem rest_unwind (s : Scan) (column : Int) : (s.unwind column).rest = s.rest := by
  have hto (outer : List Int) (s : Scan) : (s.unwindTo column outer).rest = s.rest := by
    induction outer generalizing s with
    | nil => rfl
    | cons i outer ih =>
      rw [unwindTo]
      split
      · exact ih _
      · rfl
  unfold unwind
  split
  · exact hto _ s
  · rfl

theorem rest_openBlock {s s' : Scan} {column : Nat} (h : s.openBlock column = some s') :
    s'.rest = s.rest := by
  unfold openBlock at h
  split at h
  · cases h
    rfl
  · cases h

/-! Each step of the scanner moves on in the text. Only the readers of words meet faults. -/

theorem readsIn_dropStale (h : s.rest <:+ cs) : ReadsIn cs rest s.dropStale := by
  unfold dropStale
  split
  · exact .malformed
  · exact .ok h

theorem readsIn_dropCandidate (h : s.rest <:+ cs) : ReadsIn cs rest s.dropCandidate := by
  unfold dropCandidate
  split
  · exact .malformed
  · exact .ok h

theorem readsIn_saveCandidate (h : s.rest <:+ cs) : ReadsIn cs rest s.saveCandidate := by
  unfold saveCandidate
  split
  · exact .ok h
  · exact (readsIn_dropCandidate h).bind fun _ hs => .ok hs

theorem readsIn_emit (h : s.rest <:+ cs) (t : Token) (r : List Char) :
    ReadsIn cs rest (.ok (s.emit t r)) := .ok ((emit_suffix s t r).trans h)

theorem readsIn_openFlow (h : s.rest <:+ cs) (t : Token) (r : List Char) :
    ReadsIn cs rest (s.openFlow t r) :=
  (readsIn_saveCandidate h).bind fun _ hs => readsIn_emit (by exact hs) t r

theorem readsIn_closeFlow (h : s.rest <:+ cs) (t : Token) (r : List Char) :
    ReadsIn cs rest (s.closeFlow t r) :=
  (readsIn_dropCandidate h).bind fun _ hs => readsIn_emit (by exact hs) t r

theorem readsIn_blockSign (h : s.rest <:+ cs) (t : Token) : ReadsIn cs rest (s.blockSign t) := by
  unfold blockSign
  split
  · exact .ok h
  · split
    · exact .malformed
    · split
      · next s' hs' => exact .ok ((rest_openBlock hs').symm ▸ h)
      · exact .ok h

theorem readsIn_entrySign (h : s.rest <:+ cs) (r : List Char) : ReadsIn cs rest (s.entrySign r) :=
  (readsIn_blockSign h _).bind fun _ hs =>
    (readsIn_dropCandidate (by exact hs)).bind fun _ hs => readsIn_emit (by exact hs) _ r

theorem readsIn_keySign (h : s.rest <:+ cs) (r : List Char) : ReadsIn cs rest (s.keySign r) :=
  (readsIn_blockSign h _).bind fun _ hs =>
    (readsIn_dropCandidate (by exact hs)).bind fun _ hs => readsIn_emit (by exact hs) _ r

theorem readsIn_valueSign (h : s.rest <:+ cs) (r : List Char) :
    ReadsIn cs rest (s.valueSign r) := by
  unfold valueSign
  split
  · dsimp only
    refine readsIn_emit ?_ _ _
    split
    · exact h
    · split
      · next s' hs' => exact (rest_openBlock hs').symm ▸ h
      · exact h
  · exact (readsIn_blockSign h _).bind fun _ hs =>
      (readsIn_dropCandidate (by exact hs)).bind fun _ hs => readsIn_emit (by exact hs) _ r

theorem readsIn_documentSign (h : s.rest <:+ cs) (t : Token) (r : List Char) :
    ReadsIn cs rest (s.documentSign t r) :=
  (readsIn_dropCandidate ((rest_unwind s _).symm ▸ h)).bind fun _ hs =>
    readsIn_emit (by exact hs) t r

theorem readsIn_word {read : Except ReadError (Token × List Char)} (h : s.rest <:+ cs)
    (hread : ReadsIn cs (fun _ => []) read) : ReadsIn cs rest (s.word read) :=
  (readsIn_saveCandidate h).bind fun _ hs => hread.bind fun _ _ => readsIn_emit (by exact hs) _ _

theorem readsIn_block (h : s.rest <:+ cs) (folded : Bool) (r : List Char) :
    ReadsIn cs rest (s.block folded r) :=
  (readsIn_dropCandidate (by exact h)).bind fun _ hs =>
    (readsIn_blockScalar folded _ r).bind fun _ _ => readsIn_emit (by exact hs) _ _

theorem readsIn_plain (h : s.rest <:+ cs) : ReadsIn cs rest s.plain :=
  (readsIn_saveCandidate h).bind fun _ hs => readsIn_emit (by exact hs) _ _

theorem readsIn_finish (h : s.rest <:+ cs) : ReadsIn cs rest s.finish :=
  (readsIn_dropCandidate ((rest_unwind s _).symm ▸ h)).bind fun _ hs =>
    readsIn_emit (by exact hs) _ _

theorem readsIn_token (h : s.rest <:+ cs) : ReadsIn cs rest s.token := by
  unfold token
  dsimp only
  split
  · exact readsIn_finish h
  · next c r hr =>
    have hcr : c :: r <:+ cs := hr ▸ h
    have hrest := (List.suffix_cons c r).trans hcr
    have hquoted (q : Quote) : ReadsIn cs (fun _ => [])
        ((quotedScalar q r).map fun p => (Token.scalar false p.1, p.2)) :=
      (readsIn_quotedScalar q hrest).map fun _ _ => List.nil_suffix
    have hnamed (make : Text → Token) :
        ReadsIn cs (fun _ => []) ((anchorName r).map fun p => (make p.1, p.2)) :=
      (readsIn_anchorName r).map fun _ _ => List.nil_suffix
    -- a directive
    refine .ite (fun hdirective => ?_) fun _ => ?_
    · rw [Bool.and_eq_true, beq_iff_eq] at hdirective
      refine (readsIn_directive (hdirective.1 ▸ hcr)).bind fun _ _ => ?_
      exact readsIn_documentSign h _ _
    -- document markers, brackets and other signs
    refine .ite (fun _ => readsIn_documentSign h _ _) fun _ => ?_
    refine .ite (fun _ => readsIn_documentSign h _ _) fun _ => ?_
    refine .ite (fun _ => readsIn_openFlow h _ _) fun _ => ?_
    refine .ite (fun _ => readsIn_openFlow h _ _) fun _ => ?_
    refine .ite (fun _ => readsIn_closeFlow h _ _) fun _ => ?_
    refine .ite (fun _ => readsIn_closeFlow h _ _) fun _ => ?_
    refine .ite (fun _ => ?_) fun _ => ?_
    · exact (readsIn_dropCandidate (by exact h)).bind fun _ hs => readsIn_emit hs _ _
    refine .ite (fun _ => readsIn_entrySign h _) fun _ => ?_
    refine .ite (fun _ => readsIn_keySign h _) fun _ => ?_
    refine .ite (fun _ => readsIn_valueSign h _) fun _ => ?_
    -- words
    refine .ite (fun _ => readsIn_word h (hnamed _)) fun _ => ?_
    refine .ite (fun _ => readsIn_word h (hnamed _)) fun _ => ?_
    refine .ite (fun _ => readsIn_word h (readsIn_tagToken _)) fun _ => ?_
    refine .ite (fun _ => readsIn_block h _ _) fun _ => ?_
    refine .ite (fun _ => readsIn_block h _ _) fun _ => ?_
    refine .ite (fun _ => readsIn_word h (hquoted _)) fun _ => ?_
    refine .ite (fun _ => readsIn_word h (hquoted _)) fun _ => ?_
    exact .ite (fun _ => readsIn_plain h) fun _ => .malformed

/-- Moving to the next token. -/
theorem rest_advance (s : Scan) : s.advance.rest <:+ s.rest := moveTo_suffix _ _

theorem readsIn_next (h : s.rest <:+ cs) : ReadsIn cs rest s.next :=
  (readsIn_dropStale ((rest_advance s).trans h)).bind fun s hs =>
    readsIn_token ((rest_unwind s _).symm ▸ hs)

end Scan

theorem TokenStream.from_fault {fuel : Nat} {f : Fault} (h : s.rest <:+ cs)
    (hf : (TokenStream.from fuel s).failure = some (.fault f)) : FaultyWord cs f := by
  induction fuel generalizing s with
  | zero => cases hf
  | succ fuel ih =>
    have hnext := Scan.readsIn_next h
    unfold TokenStream.from at hf
    split at hf
    · next e he =>
      cases hf
      exact hnext.fault f he
    · next s' hs' =>
      split at hf
      · cases hf
      · exact ih (hnext.rest s' hs') hf

/-- A text is a fault before there is a tree only because of a word in it. -/
theorem TokenStream.ofChars_fault {f : Fault}
    (hf : (TokenStream.ofChars cs).failure = some (.fault f)) : FaultyWord cs f := by
  unfold TokenStream.ofChars at hf
  split at hf
  · exact TokenStream.from_fault List.suffix_rfl hf
  · cases hf

end Tokens

/-! ### Trees -/

/-- What a step of reading a document comes to: it fails because the text is malformed, or with the
failure that its tokens end with, which stays what it is. -/
structure EndsWith {α : Type} (e : Option ReadError) (x : Reading α) : Prop where
  kept : ∀ s a s', s.stream.failure = e → x s = .ok (a, s') → s'.stream.failure = e
  failed : ∀ s r, s.stream.failure = e → x s = .error r → r = .malformed ∨ e = some r

section Steps

open Reading

variable {α β : Type} {e : Option ReadError} {x : Reading α}

namespace EndsWith

theorem of_pure (a : α) : EndsWith e (pure a : Reading α) :=
  ⟨fun _ _ _ hs h => by cases h; exact hs, nofun⟩

theorem malformed : EndsWith e (Reading.malformed : Reading α) :=
  ⟨nofun, fun _ _ _ h => .inl (Except.error.inj h).symm⟩

theorem bind {g : α → Reading β} (hx : EndsWith e x) (hg : ∀ a, EndsWith e (g a)) :
    EndsWith e (x >>= g) := by
  refine ⟨fun s b s' hs h => ?_, fun s r hs h => ?_⟩
  · obtain ⟨⟨a, t⟩, ha, h⟩ := exceptBind_eq_ok.1 h
    exact (hg a).kept t b s' (hx.kept s a t hs ha) h
  · rcases exceptBind_eq_error.1 h with h | ⟨⟨a, t⟩, ha, h⟩
    · exact hx.failed s r hs h
    · exact (hg a).failed t r (hx.kept s a t hs ha) h

theorem of_get : EndsWith e (get : Reading DocumentState) :=
  ⟨fun _ _ _ hs h => by cases h; exact hs, nofun⟩

theorem of_modify {g : DocumentState → DocumentState}
    (hg : ∀ s, (g s).stream.failure = s.stream.failure) :
    EndsWith e (modify g : Reading Unit) :=
  ⟨fun s _ _ hs h => by cases h; exact (hg s).trans hs, nofun⟩

theorem ite {y : Reading α} {p : Prop} [Decidable p] (hx : EndsWith e x) (hy : EndsWith e y) :
    EndsWith e (if p then x else y) := by
  split
  · exact hx
  · exact hy

end EndsWith

theorem peek_eq (s : DocumentState) : peek s =
    match s.stream.tokens, s.stream.failure with
    | t :: _, _ => .ok (t, s)
    | [], some r => .error r
    | [], none => .ok (.streamEnd, s) := by
  cases htokens : s.stream.tokens <;> cases hfailure : s.stream.failure
  all_goals
    change (match s.stream.tokens, s.stream.failure with
      | t :: _, _ => Pure.pure t
      | [], some r => throw r
      | [], none => Pure.pure Token.streamEnd : Reading Token) s = _
    rw [htokens, hfailure]
    rfl

theorem endsWith_peek : EndsWith e peek := by
  refine ⟨fun s t s' hs h => ?_, fun s r hs h => ?_⟩
  · rw [peek_eq] at h
    split at h <;> cases h
    all_goals exact hs
  · rw [peek_eq] at h
    split at h
    · cases h
    · next hfailure =>
      cases h
      exact .inr (hs.symm.trans hfailure)
    · cases h

theorem endsWith_skip : EndsWith e skip := .of_modify fun _ => rfl

theorem endsWith_sees (ts : List Token) : EndsWith e (sees ts) :=
  endsWith_peek.bind fun _ => .of_pure _

/-- Between two entries in brackets there is a comma. -/
theorem endsWith_separated {first : Bool} (hx : EndsWith e x) : EndsWith e (do
    if !first then
      if ← sees [.flowEntry] then skip else Reading.malformed
    x) :=
  .ite ((endsWith_sees _).bind fun _ => .ite (endsWith_skip.bind fun _ => hx)
    (EndsWith.malformed.bind fun _ => hx)) hx

theorem endsWith_requireFree (anchor : Option Text) : EndsWith e (requireFree anchor) := by
  unfold requireFree
  split
  · exact EndsWith.of_get.bind fun _ => .ite .malformed (.of_pure _)
  · exact .of_pure _

theorem endsWith_bind (anchor : Option Text) (n : Node) : EndsWith e (bind anchor n) := by
  unfold bind
  split
  · exact .of_modify fun _ => rfl
  · exact .of_pure _

/-- The tag of a node is resolved by the handles of the document. -/
theorem endsWith_resolve {make : WrittenTag → Option Text × Option WrittenTag}
    (handle : Option Text) (suffix : Text) : EndsWith e (do
      let written ← (match handle with
        | none => return suffix
        | some h => do
          match (← get).handles.lookup h with
          | some meaning => return meaning ++ suffix
          | none => Reading.malformed : Reading WrittenTag)
      return make written) := by
  refine EndsWith.bind ?_ fun _ => .of_pure _
  split
  · exact .of_pure _
  · refine EndsWith.of_get.bind fun s => ?_
    split
    · exact .of_pure _
    · exact .malformed

theorem endsWith_nodeProperties : EndsWith e nodeProperties := by
  unfold nodeProperties
  dsimp only
  refine endsWith_peek.bind fun t => ?_
  split
  · refine endsWith_skip.bind fun _ => endsWith_peek.bind fun t => ?_
    split
    · exact endsWith_skip.bind fun _ => endsWith_resolve _ _
    · exact .of_pure _
  · refine endsWith_skip.bind fun _ => endsWith_peek.bind fun t => ?_
    split
    · exact endsWith_skip.bind fun _ => endsWith_resolve _ _
    · exact endsWith_resolve _ _
  · exact .of_pure _

section Nodes

/-- The steps that read nodes, with at most this fuel. -/
structure NodesEndWith (e : Option ReadError) (fuel : Nat) : Prop where
  node : ∀ place, EndsWith e (node fuel place)
  nodeUnless : ∀ place ends, EndsWith e (nodeUnless fuel place ends)
  blockItems : EndsWith e (blockItems fuel)
  bareItems : EndsWith e (bareItems fuel)
  blockEntries : EndsWith e (blockEntries fuel)
  blockEntryValue : EndsWith e (blockEntryValue fuel)
  flowItems : ∀ first, EndsWith e (flowItems fuel first)
  flowEntryValue : ∀ ends, EndsWith e (flowEntryValue fuel ends)
  flowEntries : ∀ first, EndsWith e (flowEntries fuel first)

theorem endsWith_node {fuel : Nat} (ih : NodesEndWith e fuel) (place : Place) :
    EndsWith e (node (fuel + 1) place) := by
  unfold node
  refine endsWith_peek.bind fun t => ?_
  split
  · refine endsWith_skip.bind fun _ => EndsWith.of_get.bind fun s => ?_
    split
    · exact .of_pure _
    · exact .malformed
  · refine endsWith_nodeProperties.bind fun ⟨anchor, written⟩ => ?_
    have hsequence {items : Reading (List Node)} (hitems : EndsWith e items) {tag : Tag} :
        EndsWith e (do
          requireFree anchor
          bind anchor (.loop (anchor.getD []))
          let n := Node.sequence tag anchor (← items)
          bind anchor n
          return n) :=
      (endsWith_requireFree anchor).bind fun _ => (endsWith_bind _ _).bind fun _ =>
        hitems.bind fun _ => (endsWith_bind _ _).bind fun _ => .of_pure _
    have hmapping {entries : Reading (List (Node × Node))} (hentries : EndsWith e entries)
        {tag : Tag} : EndsWith e (do
          requireFree anchor
          bind anchor (.loop (anchor.getD []))
          let es := Node.ownEntries anchor (← entries)
          let n := Node.mapping tag anchor es
          bind anchor n
          return n) :=
      (endsWith_requireFree anchor).bind fun _ => (endsWith_bind _ _).bind fun _ =>
        hentries.bind fun _ => (endsWith_bind _ _).bind fun _ => .of_pure _
    have hscalar (n : Node) : EndsWith e (do
        requireFree anchor
        bind anchor n
        return n) :=
      (endsWith_requireFree anchor).bind fun _ => (endsWith_bind _ _).bind fun _ => .of_pure _
    dsimp only
    refine endsWith_peek.bind fun t => ?_
    split
    · exact hsequence ih.bareItems
    · exact endsWith_skip.bind fun _ => hscalar _
    · exact hsequence (endsWith_skip.bind fun _ => ih.flowItems true)
    · exact hmapping (endsWith_skip.bind fun _ => ih.flowEntries true)
    · refine .ite (hsequence (endsWith_skip.bind fun _ => ih.blockItems)) ?_
      refine .ite (hmapping (endsWith_skip.bind fun _ => ih.blockEntries)) ?_
      exact .ite (hscalar _) .malformed

/-- The value behind a key, if there is one. -/
theorem endsWith_entryValue {fuel : Nat} (ih : NodesEndWith e fuel) (place : Place)
    (ends : List Token) : EndsWith e (do
      match ← peek with
      | .value =>
        skip
        nodeUnless fuel place ends
      | _ => return .empty) := by
  refine endsWith_peek.bind fun t => ?_
  split
  · exact endsWith_skip.bind fun _ => ih.nodeUnless _ _
  · exact .of_pure _

theorem endsWith_blockItems {fuel : Nat} (ih : NodesEndWith e fuel) :
    EndsWith e (blockItems (fuel + 1)) := by
  unfold blockItems
  refine endsWith_peek.bind fun t => ?_
  split
  · exact endsWith_skip.bind fun _ => (ih.nodeUnless _ _).bind fun _ =>
      ih.blockItems.bind fun _ => .of_pure _
  · exact endsWith_skip.bind fun _ => .of_pure _
  · exact .malformed

theorem endsWith_bareItems {fuel : Nat} (ih : NodesEndWith e fuel) :
    EndsWith e (bareItems (fuel + 1)) := by
  unfold bareItems
  refine endsWith_peek.bind fun t => ?_
  split
  · exact endsWith_skip.bind fun _ => (ih.nodeUnless _ _).bind fun _ =>
      ih.bareItems.bind fun _ => .of_pure _
  · exact .of_pure _

theorem endsWith_blockEntries {fuel : Nat} (ih : NodesEndWith e fuel) :
    EndsWith e (blockEntries (fuel + 1)) := by
  unfold blockEntries
  refine endsWith_peek.bind fun t => ?_
  split
  · exact endsWith_skip.bind fun _ => .of_pure _
  · exact endsWith_skip.bind fun _ => (ih.nodeUnless _ _).bind fun _ =>
      ih.blockEntryValue.bind fun _ => ih.blockEntries.bind fun _ => .of_pure _
  · exact .malformed

theorem endsWith_flowItems {fuel : Nat} (ih : NodesEndWith e fuel) (first : Bool) :
    EndsWith e (flowItems (fuel + 1) first) := by
  have hmore {n : Node} : EndsWith e (do return n :: (← flowItems fuel false)) :=
    (ih.flowItems false).bind fun _ => .of_pure _
  unfold flowItems
  refine (endsWith_sees _).bind fun _ => .ite (endsWith_skip.bind fun _ => .of_pure _) ?_
  refine endsWith_separated (endsWith_peek.bind fun t => ?_)
  split
  · exact endsWith_skip.bind fun _ => (ih.nodeUnless _ _).bind fun _ =>
      (ih.flowEntryValue _).bind fun _ => hmore
  · exact endsWith_skip.bind fun _ => .of_pure _
  · exact (ih.node _).bind fun _ => hmore

theorem endsWith_flowEntries {fuel : Nat} (ih : NodesEndWith e fuel) (first : Bool) :
    EndsWith e (flowEntries (fuel + 1) first) := by
  have hmore {entry : Node × Node} : EndsWith e (do return entry :: (← flowEntries fuel false)) :=
    (ih.flowEntries false).bind fun _ => .of_pure _
  unfold flowEntries
  refine (endsWith_sees _).bind fun _ => .ite (endsWith_skip.bind fun _ => .of_pure _) ?_
  refine endsWith_separated (endsWith_peek.bind fun t => ?_)
  split
  · exact endsWith_skip.bind fun _ => (ih.nodeUnless _ _).bind fun _ =>
      (ih.flowEntryValue _).bind fun _ => hmore
  · exact endsWith_skip.bind fun _ => .of_pure _
  · exact (ih.node _).bind fun _ => hmore

theorem nodesEndWith (e : Option ReadError) (fuel : Nat) : NodesEndWith e fuel := by
  induction fuel with
  | zero =>
    have hnone {α : Type} : EndsWith e (Reading.malformed : Reading α) := .malformed
    exact ⟨fun _ => hnone, fun _ _ => by unfold nodeUnless; exact hnone, hnone, hnone, hnone,
      by unfold blockEntryValue; exact hnone, fun _ => hnone,
      fun _ => by unfold flowEntryValue; exact hnone, fun _ => hnone⟩
  | succ fuel ih =>
    refine ⟨endsWith_node ih, fun place ends => ?_, endsWith_blockItems ih, endsWith_bareItems ih,
      endsWith_blockEntries ih, ?_, endsWith_flowItems ih, fun ends => ?_, endsWith_flowEntries ih⟩
    · unfold nodeUnless
      exact (endsWith_sees ends).bind fun _ => .ite (.of_pure _) (ih.node place)
    · unfold blockEntryValue
      exact endsWith_entryValue ih _ _
    · unfold flowEntryValue
      exact endsWith_entryValue ih _ _

end Nodes

theorem endsWith_directives (fuel : Nat) (versioned : Bool) (handles : List (Text × Text)) :
    EndsWith e (directives fuel versioned handles) := by
  induction fuel generalizing versioned handles with
  | zero => exact .malformed
  | succ fuel ih =>
    unfold directives
    refine endsWith_peek.bind fun t => ?_
    split
    · exact endsWith_skip.bind fun _ => .ite (EndsWith.malformed.bind fun _ => ih _ _) (ih _ _)
    · exact endsWith_skip.bind fun _ => EndsWith.of_get.bind fun _ =>
        .ite (EndsWith.malformed.bind fun _ => ih _ _) (ih _ _)
    · exact endsWith_skip.bind fun _ => ih _ _
    · exact .of_pure _

theorem endsWith_skipEnds (fuel : Nat) : EndsWith e (skipEnds fuel) := by
  induction fuel with
  | zero => exact .malformed
  | succ fuel ih =>
    unfold skipEnds
    exact (endsWith_sees _).bind fun _ => .ite (endsWith_skip.bind fun _ => ih) (.of_pure _)

theorem endsWith_document (fuel : Nat) : EndsWith e (document fuel) := by
  have hfinish (n : Option Node) : EndsWith e (document.finish fuel n) := by
    unfold document.finish
    refine (endsWith_skipEnds _).bind fun _ => (endsWith_sees _).bind fun _ => .ite (.of_pure _) ?_
    exact (endsWith_directives _ _ _).bind fun _ => .malformed
  have hroot : EndsWith e (do document.finish fuel (some (← node fuel .block))) :=
    ((nodesEndWith e fuel).node _).bind fun _ => hfinish _
  unfold document
  refine endsWith_peek.bind fun t => ?_
  split
  case h_1 => exact .of_pure _
  case h_4 => exact hroot
  all_goals
    refine (endsWith_directives _ _ _).bind fun _ => (endsWith_sees _).bind fun _ =>
      .ite (EndsWith.malformed.bind fun _ => ?_) ?_
  all_goals
    refine endsWith_skip.bind fun _ => EndsWith.bind (.of_modify fun _ => rfl) fun _ => ?_
    refine endsWith_peek.bind fun t => ?_
    split
    all_goals first | exact hfinish _ | exact hroot

end Steps

/-- A text is a fault before there is a tree only because of a word in it. -/
theorem Node.ofStream?_fault {cs : List Char} {f : Fault}
    (h : Node.ofStream? (.ofChars cs) = .error (.fault f)) : FaultyWord cs f := by
  rcases exceptBind_eq_error.1 h with h | ⟨_, -, h⟩
  · rcases (endsWith_document _).failed _ _ rfl h with h | h
    · cases h
    · exact TokenStream.ofChars_fault h
  · cases h

end CustomElements.Yaml
