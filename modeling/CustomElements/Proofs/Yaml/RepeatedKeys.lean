import CustomElements.Proofs.Yaml.Construction

/-!
# Repeated keys in trees

Whether a repeated key keeps all its pairs or has the value of the last one, a tree without loops
has a value under the same conditions. The two values are the same exactly if no key is repeated in
a mapping, among its own entries and those that it merges.
-/

namespace CustomElements.Yaml.Node

/-! ### Repeated keys in a tree -/

/-- A key is repeated in a mapping of the tree, among its own entries and those that it merges. What
is under the keys of a set does not count, since it is given up. -/
inductive RepeatsKey : Node → Prop where
  | here {a : Option Text} {es entries : List (Node × Node)} {ks : List Value}
    (flat : flatten es = .ok entries)
    (keys : List.Forall₂ (fun e k => e.1.scalarValue = .ok k) entries ks)
    (again : ¬ks.Pairwise fun k l => k.sameKey l = false) : RepeatsKey (mapping .mapping a es)
  | inside {n c : Node} (kept : n.tag ≠ .set) (part : HasPart n c) (inner : RepeatsKey c) :
    RepeatsKey n

section Inversion

variable {a : Option Text} {items : List Node} {es entries : List (Node × Node)}

theorem repeatsKey_sequence_iff :
    RepeatsKey (sequence .sequence a items) ↔ ∃ i ∈ items, RepeatsKey i := by
  constructor
  · rintro (_ | ⟨_, part, inner⟩)
    cases part with
    | item mem => exact ⟨_, mem, inner⟩
    | itemKey tag => rcases tag with h | h <;> cases h
    | itemValue tag => rcases tag with h | h <;> cases h
  · rintro ⟨i, hi, inner⟩
    exact .inside nofun (.item hi) inner

theorem repeatsKey_pairs_iff {t : Tag} (ht : t = .orderedMapping ∨ t = .pairs) :
    RepeatsKey (sequence t a items) ↔
      ∃ t' a' e, mapping t' a' [e] ∈ items ∧ (RepeatsKey e.1 ∨ RepeatsKey e.2) := by
  constructor
  · rintro (_ | ⟨_, part, inner⟩)
    cases part with
    | item => rcases ht with h | h <;> cases h
    | itemKey _ mem => exact ⟨_, _, _, mem, .inl inner⟩
    | itemValue _ mem => exact ⟨_, _, _, mem, .inr inner⟩
  · rintro ⟨t', a', e, mem, inner⟩
    have hkept : (sequence t a items).tag ≠ .set := by rcases ht with rfl | rfl <;> nofun
    rcases inner with inner | inner
    · exact .inside hkept (.itemKey ht mem) inner
    · exact .inside hkept (.itemValue ht mem) inner

theorem repeatsKey_mapping_iff (hf : flatten es = .ok entries) {ks : List Value}
    (hks : List.Forall₂ (fun e k => e.1.scalarValue = .ok k) entries ks) :
    RepeatsKey (mapping .mapping a es) ↔ (¬ks.Pairwise fun k l => k.sameKey l = false) ∨
      ∃ e ∈ entries, RepeatsKey e.1 ∨ RepeatsKey e.2 := by
  constructor
  · rintro (⟨flat, keys, again⟩ | ⟨_, part, inner⟩)
    · obtain rfl := Except.ok.inj (flat.symm.trans hf)
      obtain rfl := Except.ok.inj
        ((exceptMapM_eq_ok.2 keys).symm.trans (exceptMapM_eq_ok.2 hks))
      exact .inl again
    · cases part with
      | key _ flat mem => exact .inr ⟨_, Except.ok.inj (flat.symm.trans hf) ▸ mem, .inl inner⟩
      | value _ flat mem => exact .inr ⟨_, Except.ok.inj (flat.symm.trans hf) ▸ mem, .inr inner⟩
  · rintro (again | ⟨e, mem, inner | inner⟩)
    · exact .here hf hks again
    · exact .inside nofun (.key (.inl rfl) hf mem) inner
    · exact .inside nofun (.value (.inl rfl) hf mem) inner

/-- Only mappings, and lists that are kept, hold mappings. -/
theorem tag_of_repeatsKey {n : Node} (h : RepeatsKey n) :
    n.tag = .mapping ∨ n.tag = .sequence ∨ n.tag = .orderedMapping ∨ n.tag = .pairs := by
  cases h with
  | here => exact .inl rfl
  | inside kept part =>
    cases part with
    | item => exact .inr (.inl rfl)
    | key ht | value ht => exact .inl (ht.resolve_right kept)
    | itemKey ht | itemValue ht => exact .inr (.inr ht)

end Inversion

/-! ### Two rules on one tree -/

/-- Both rules succeed on a node or neither does, and they give the same value exactly if no key is
repeated. -/
structure Agrees (n : Node) : Prop where
  both : (∃ u, n.built keepsPairs = .ok u) ↔ ∃ v, n.built lastWins = .ok v
  same_iff : ∀ u v, n.built keepsPairs = .ok u → n.built lastWins = .ok v →
    (u = v ↔ ¬RepeatsKey n)

section Comparison

variable {n : Node} {e : Node × Node} {p q : Value × Value} {u v : Value}

/-- A key has the same value by each rule. -/
theorem built_eq_of_isKey {rule rule' : MappingRule} (h : n.built rule = .ok u) (hu : u.isKey) :
    n.scalarValue = .ok u ∧ n.built rule' = .ok u := by
  rw [built_eq] at h ⊢
  have hscalar := step_eq_key_iff.1 ⟨h, hu⟩
  exact ⟨hscalar, (step_eq_key_iff.2 hscalar).1⟩

theorem pairOf_both (hk : Agrees e.1) (hv : Agrees e.2) :
    (∃ p, pairOf (built keepsPairs) e = .ok p) ↔ ∃ q, pairOf (built lastWins) e = .ok q := by
  simp only [pairOf_eq_ok, Prod.exists, exists_and_left, exists_and_right, hk.both, hv.both]

theorem pairOf_same_iff (hk : Agrees e.1) (hv : Agrees e.2)
    (hp : pairOf (built keepsPairs) e = .ok p) (hq : pairOf (built lastWins) e = .ok q) :
    p = q ↔ ¬(RepeatsKey e.1 ∨ RepeatsKey e.2) := by
  rw [pairOf_eq_ok] at hp hq
  rw [not_or, ← hk.same_iff _ _ hp.1 hq.1, ← hv.same_iff _ _ hp.2 hq.2, Prod.ext_iff]

theorem itemPairOf_both {i : Node} (h : ∀ t a e, i = mapping t a [e] → Agrees e.1 ∧ Agrees e.2) :
    (∃ p, itemPairOf (built keepsPairs) i = .ok p) ↔
      ∃ q, itemPairOf (built lastWins) i = .ok q := by
  unfold itemPairOf
  split
  · obtain ⟨hk, hv⟩ := h _ _ _ rfl
    exact pairOf_both hk hv
  · exact iff_of_false nofun nofun

theorem keyedPairOf_both (hv : Agrees e.2) :
    (∃ p, keyedPairOf (built keepsPairs) e = .ok p) ↔
      ∃ q, keyedPairOf (built lastWins) e = .ok q := by
  simp only [keyedPairOf_eq_ok, pairOf_eq_ok]
  constructor
  · rintro ⟨p, hkey, hp, hpv⟩
    obtain ⟨v, hv⟩ := hv.both.1 ⟨_, hpv⟩
    exact ⟨(p.1, v), hkey, (built_eq_of_isKey hp hkey).2, hv⟩
  · rintro ⟨q, hkey, hq, hqv⟩
    obtain ⟨v, hv⟩ := hv.both.2 ⟨_, hqv⟩
    exact ⟨(q.1, v), hkey, (built_eq_of_isKey hq hkey).2, hv⟩

/-- The keys of entries are the values of scalars, whatever the rule. -/
theorem keys_of_mapM {rule : MappingRule} {entries : List (Node × Node)}
    {ps : List (Value × Value)} (h : entries.mapM (keyedPairOf (built rule)) = .ok ps) :
    List.Forall₂ (fun e k => e.1.scalarValue = .ok k) entries (ps.map Prod.fst) := by
  rw [List.forall₂_map_right_iff]
  refine (exceptMapM_eq_ok.1 h).imp fun e p hp => ?_
  obtain ⟨hkey, hp⟩ := keyedPairOf_eq_ok.1 hp
  have hsame : e.1.scalarValue = .ok p.1 ∧ e.1.built rule = .ok p.1 :=
    built_eq_of_isKey (pairOf_eq_ok.1 hp).1 hkey
  exact hsame.1

theorem agrees_sequence {a : Option Text} {items : List Node} (h : ∀ i ∈ items, Agrees i) :
    Agrees (sequence .sequence a items) := by
  refine ⟨?_, fun u v hu hv => ?_⟩
  · have hitems (rule : MappingRule) : (∃ u, (sequence .sequence a items).built rule = .ok u) ↔
        ∀ i ∈ items, ∃ u, i.built rule = .ok u := by
      rw [← exceptMapM_ok_iff]
      simp only [built_eq rule (sequence _ _ _), step_sequence_eq_ok]
      exact ⟨fun ⟨_, vs, hvs, _⟩ => ⟨vs, hvs⟩, fun ⟨vs, hvs⟩ => ⟨_, vs, hvs, rfl⟩⟩
    rw [hitems, hitems]
    exact forall₂_congr fun i hi => (h i hi).both
  · rw [built_eq, step_sequence_eq_ok] at hu hv
    obtain ⟨us, hus, rfl⟩ := hu
    obtain ⟨vs, hvs, rfl⟩ := hv
    rw [repeatsKey_sequence_iff, Value.list.injEq,
      exceptMapM_eq_iff hus hvs fun i hi => (h i hi).same_iff]
    simp only [not_exists, not_and]

theorem agrees_pairs {t : Tag} {a : Option Text} {items : List Node}
    (ht : t = .orderedMapping ∨ t = .pairs)
    (h : ∀ t' a' e, mapping t' a' [e] ∈ items → Agrees e.1 ∧ Agrees e.2) :
    Agrees (sequence t a items) := by
  refine ⟨?_, fun u v hu hv => ?_⟩
  · have hitems (rule : MappingRule) : (∃ u, (sequence t a items).built rule = .ok u) ↔
        ∀ i ∈ items, ∃ p, itemPairOf (built rule) i = .ok p := by
      rw [← exceptMapM_ok_iff]
      simp only [built_eq rule (sequence _ _ _), step_pairs_eq_ok ht]
      exact ⟨fun ⟨_, vs, hvs, _⟩ => ⟨vs, hvs⟩, fun ⟨vs, hvs⟩ => ⟨_, vs, hvs, rfl⟩⟩
    rw [hitems, hitems]
    refine forall₂_congr fun i hi => itemPairOf_both fun t' a' e heq => h t' a' e (heq ▸ hi)
  · rw [built_eq, step_pairs_eq_ok ht] at hu hv
    obtain ⟨ps, hps, rfl⟩ := hu
    obtain ⟨qs, hqs, rfl⟩ := hv
    have hinj : Function.Injective fun p : Value × Value => Value.pair p.1 p.2 := fun p q heq =>
      Prod.ext (Value.pair.inj heq).1 (Value.pair.inj heq).2
    have hitem : ∀ i ∈ items, ∀ p q, itemPairOf (built keepsPairs) i = .ok p →
        itemPairOf (built lastWins) i = .ok q →
        (p = q ↔ ∀ t' a' e, i = mapping t' a' [e] → ¬(RepeatsKey e.1 ∨ RepeatsKey e.2)) := by
      intro i hi p q hp hq
      obtain ⟨t', a', e, rfl, hp⟩ := itemPairOf_eq_ok.1 hp
      obtain ⟨hk, hv⟩ := h t' a' e hi
      rw [pairOf_same_iff hk hv hp hq]
      exact ⟨fun hnone t a e' heq => by cases heq; exact hnone, fun hall => hall _ _ _ rfl⟩
    rw [repeatsKey_pairs_iff ht, Value.list.injEq, hinj.list_map.eq_iff,
      exceptMapM_eq_iff hps hqs hitem]
    simp only [not_exists, not_and]
    exact ⟨fun hall t' a' e hm => hall _ hm t' a' e rfl, fun hall i hi t' a' e heq =>
      hall t' a' e (heq ▸ hi)⟩

/-- The keys of entries are the same by each rule. -/
theorem keys_eq {entries : List (Node × Node)} {ps qs : List (Value × Value)}
    (hps : entries.mapM (keyedPairOf (built keepsPairs)) = .ok ps)
    (hqs : entries.mapM (keyedPairOf (built lastWins)) = .ok qs) :
    ps.map Prod.fst = qs.map Prod.fst :=
  Except.ok.inj
    ((exceptMapM_eq_ok.2 (keys_of_mapM hps)).symm.trans (exceptMapM_eq_ok.2 (keys_of_mapM hqs)))

theorem entries_both {es : List (Node × Node)}
    (h : ∀ entries, flatten es = .ok entries → ∀ e ∈ entries, Agrees e.1 ∧ Agrees e.2) :
    (∃ entries ps, flatten es = .ok entries ∧
      entries.mapM (keyedPairOf (built keepsPairs)) = .ok ps) ↔
    ∃ entries ps, flatten es = .ok entries ∧
      entries.mapM (keyedPairOf (built lastWins)) = .ok ps := by
  simp only [exists_and_left, exceptMapM_ok_iff]
  refine exists_congr fun entries => and_congr_right fun hf => ?_
  exact forall₂_congr fun e he => keyedPairOf_both (h entries hf e he).2

theorem agrees_set {a : Option Text} {es : List (Node × Node)}
    (h : ∀ entries, flatten es = .ok entries → ∀ e ∈ entries, Agrees e.1 ∧ Agrees e.2) :
    Agrees (mapping .set a es) := by
  refine ⟨?_, fun u v hu hv => ?_⟩
  · have hentries (rule : MappingRule) : (∃ u, (mapping .set a es).built rule = .ok u) ↔
        ∃ entries ps, flatten es = .ok entries ∧
          entries.mapM (keyedPairOf (built rule)) = .ok ps := by
      simp only [built_eq rule (mapping _ _ _), step_set_eq_ok]
      exact ⟨fun ⟨_, entries, ps, hf, hps, _⟩ => ⟨entries, ps, hf, hps⟩,
        fun ⟨entries, ps, hf, hps⟩ => ⟨_, entries, ps, hf, hps, rfl⟩⟩
    rw [hentries, hentries]
    exact entries_both h
  · rw [built_eq, step_set_eq_ok] at hu hv
    obtain ⟨entries, ps, hf, hps, rfl⟩ := hu
    obtain ⟨entries', qs, hf', hqs, rfl⟩ := hv
    obtain rfl := Except.ok.inj (hf.symm.trans hf')
    refine iff_of_true ?_ fun hrepeats => ?_
    · rw [Value.keys_assignAll, Value.keys_assignAll, keys_eq hps hqs]
    · simpa [tag] using tag_of_repeatsKey hrepeats

theorem agrees_mapping {a : Option Text} {es : List (Node × Node)}
    (h : ∀ entries, flatten es = .ok entries → ∀ e ∈ entries, Agrees e.1 ∧ Agrees e.2) :
    Agrees (mapping .mapping a es) := by
  refine ⟨?_, fun u v hu hv => ?_⟩
  · have hentries (rule : MappingRule) : (∃ u, (mapping .mapping a es).built rule = .ok u) ↔
        ∃ entries ps, flatten es = .ok entries ∧
          entries.mapM (keyedPairOf (built rule)) = .ok ps := by
      simp only [built_eq rule (mapping _ _ _), step_mapping_eq_ok]
      exact ⟨fun ⟨_, entries, ps, hf, hps, _⟩ => ⟨entries, ps, hf, hps⟩,
        fun ⟨entries, ps, hf, hps⟩ => ⟨_, entries, ps, hf, hps, rfl⟩⟩
    rw [hentries, hentries]
    exact entries_both h
  · rw [built_eq, step_mapping_eq_ok] at hu hv
    obtain ⟨entries, ps, hf, hps, rfl⟩ := hu
    obtain ⟨entries', qs, hf', hqs, rfl⟩ := hv
    obtain rfl := Except.ok.inj (hf.symm.trans hf')
    have hpairs : ps = qs ↔ ∀ e ∈ entries, ¬(RepeatsKey e.1 ∨ RepeatsKey e.2) := by
      refine exceptMapM_eq_iff hps hqs fun e he p q hp hq => ?_
      obtain ⟨hk, hv⟩ := h entries hf e he
      exact pairOf_same_iff hk hv (keyedPairOf_eq_ok.1 hp).2 (keyedPairOf_eq_ok.1 hq).2
    rw [repeatsKey_mapping_iff hf (keys_of_mapM hps), not_or, not_not,
      ← Value.repeatsKey_eq_false_iff]
    simp only [not_exists, not_and]
    rw [← hpairs]
    exact Value.ofPairs_eq_ofLastPairs_iff (keys_eq hps hqs)

/-- The value of a node without parts is the same by each rule, if there is one. -/
theorem agrees_of_no_part (h : ∀ u, n.built keepsPairs = .ok u ↔ n.built lastWins = .ok u)
    (hpart : ∀ c, ¬HasPart n c) (hn : ∀ a es, n ≠ mapping .mapping a es) : Agrees n := by
  refine ⟨exists_congr h, fun u v hu hv => iff_of_true ?_ fun hrepeats => ?_⟩
  · exact Except.ok.inj (((h u).1 hu).symm.trans hv)
  · cases hrepeats with
    | here => exact hn _ _ rfl
    | inside _ part => exact hpart _ part

/-- The rules agree on every node but for repeated keys: by the tag and the form of the node, from
its parts. -/
theorem agrees (n : Node) : Agrees n := by
  induction hd : n.depth using Nat.strongRecOn generalizing n with
  | ind d ih =>
    have hpart (c : Node) (hc : HasPart n c) : Agrees c :=
      ih c.depth (hd ▸ depth_of_hasPart hc) c rfl
    cases n with
    | scalar t s =>
      refine agrees_of_no_part (fun u => ?_) nofun nofun
      rw [built_eq, built_eq]
      cases t with
      | mapping => cases s <;> exact iff_of_false nofun nofun
      | _ => exact Iff.rfl
    | loop a => exact agrees_of_no_part (fun u => Iff.rfl) nofun nofun
    | sequence t a items =>
      cases t with
      | sequence => exact agrees_sequence fun i hi => hpart i (.item hi)
      | orderedMapping =>
        exact agrees_pairs (.inl rfl) fun _ _ _ hm =>
          ⟨hpart _ (.itemKey (.inl rfl) hm), hpart _ (.itemValue (.inl rfl) hm)⟩
      | pairs =>
        exact agrees_pairs (.inr rfl) fun _ _ _ hm =>
          ⟨hpart _ (.itemKey (.inr rfl) hm), hpart _ (.itemValue (.inr rfl) hm)⟩
      | _ =>
        refine agrees_of_no_part (fun u => by rw [built_eq, built_eq]; exact Iff.rfl) ?_ nofun
        rintro c (_ | _ | _ | ⟨h, _⟩ | ⟨h, _⟩) <;> rcases h with h | h <;> cases h
    | mapping t a es =>
      cases t with
      | mapping =>
        exact agrees_mapping fun _ hf _ he =>
          ⟨hpart _ (.key (.inl rfl) hf he), hpart _ (.value (.inl rfl) hf he)⟩
      | set =>
        exact agrees_set fun _ hf _ he =>
          ⟨hpart _ (.key (.inr rfl) hf he), hpart _ (.value (.inr rfl) hf he)⟩
      | _ =>
        refine agrees_of_no_part (fun u => by rw [built_eq, built_eq]; exact Iff.rfl) ?_ nofun
        rintro c (_ | ⟨h, _⟩ | ⟨h, _⟩ | _ | _) <;> rcases h with h | h <;> cases h

end Comparison

/-! ### The value of a tree -/

/-- The value of a tree without loops, in which the last pair with a key gives its value. -/
def lastValue (n : Node) : Except ReadError Value := n.built lastWins

section Trees

variable {n : Node}

theorem value_eq_built (hn : n.IsAcyclic) : n.value = n.built keepsPairs :=
  valueAt_eq_builtAt hn false []

/-- The pairs of a mapping without loops are the values of its entries. They are a mapping if no key
is repeated, and a list of all of them otherwise. -/
theorem pairs_of_value {a : Option Text} {es : List (Node × Node)} {u : Value}
    (hn : (mapping .mapping a es).IsAcyclic) (hu : (mapping .mapping a es).value = .ok u) :
    ∃ entries ps, flatten es = .ok entries ∧
      List.Forall₂ (fun e p => e.1.value = .ok p.1 ∧ e.2.value = .ok p.2) entries ps ∧
      u = .ofPairs ps := by
  rw [value_eq_built hn, built_eq, step_mapping_eq_ok] at hu
  obtain ⟨entries, ps, hf, hps, rfl⟩ := hu
  have hinside := flatten_inherits isInherited_isAcyclic
    (isInherited_isAcyclic.entries _ _ _ hn) hf
  have hvalues : entries.mapM (keyedPairOf value) = .ok ps := by
    refine Eq.trans (exceptMapM_congr fun e he => ?_) hps
    obtain ⟨hk, hv⟩ := hinside e he
    exact keyedPairOf_congr (value_eq_built hk) (value_eq_built hv)
  refine ⟨entries, ps, hf, (exceptMapM_eq_ok.1 hvalues).imp fun e p hp => ?_, rfl⟩
  exact pairOf_eq_ok.1 (keyedPairOf_eq_ok.1 hp).2

/-- A tree without loops has a value exactly if it has one in which the last pair with a key gives
its value, and the two are the same exactly if no key is repeated, be it by an entry that overrides
a merged one. The value of a mapping holds the values of all its entries in their order, those of
the document if nothing is merged: as a mapping if their keys are different from each other, as a
list of pairs otherwise. -/
theorem value_eq_lastValue_iff (hn : n.IsAcyclic) :
    ((∃ u, n.value = .ok u) ↔ ∃ v, n.lastValue = .ok v) ∧
    (∀ u v, n.value = .ok u → n.lastValue = .ok v → (u = v ↔ ¬n.RepeatsKey)) ∧
    ∀ a es u, n = mapping .mapping a es → n.value = .ok u →
      ∃ entries ps, flatten es = .ok entries ∧
        ((∀ e ∈ es, e.1.tag ≠ .merge) → entries = es.map fun e => (e.1.asKey, e.2)) ∧
        List.Forall₂ (fun e p => e.1.value = .ok p.1 ∧ e.2.value = .ok p.2) entries ps ∧
        ((ps.map Prod.fst).Pairwise (fun k l => k.sameKey l = false) → u = .map ps) ∧
        (¬(ps.map Prod.fst).Pairwise (fun k l => k.sameKey l = false) →
          u = .list (ps.map fun p => .pair p.1 p.2)) := by
  refine ⟨?_, fun u v hu hv => ?_, ?_⟩
  · rw [value_eq_built hn]
    exact (agrees n).both
  · rw [value_eq_built hn] at hu
    exact (agrees n).same_iff u v hu hv
  · rintro a es u rfl hu
    obtain ⟨entries, ps, hf, hvalues, rfl⟩ := pairs_of_value hn hu
    refine ⟨entries, ps, hf, fun hmerge => ?_, hvalues, fun hdistinct => ?_, fun hagain => ?_⟩
    · exact Except.ok.inj (hf.symm.trans (flatten_of_no_merge hmerge))
    · exact if_neg (by rw [Value.repeatsKey_eq_false_iff.2 hdistinct]; exact Bool.false_ne_true)
    · rw [← Value.repeatsKey_eq_false_iff, Bool.not_eq_false] at hagain
      exact if_pos hagain

/-- A mapping that merges another one and has its own entry for the key of that. -/
def overriding : Node :=
  mapping .mapping none [
    (scalar .merge "<<", mapping .mapping none [
      (scalar .text "x-a", scalar .text "A")]),
    (scalar .text "x-a", scalar .text "B")]

/-- An entry that overrides a merged one is kept beside it, and the value is no mapping. -/
theorem value_eq_lastValue_iff_overriding : overriding.IsAcyclic ∧
    (∃ u v, overriding.value = .ok u ∧ overriding.lastValue = .ok v ∧ u ≠ v) ∧
    overriding.RepeatsKey := by
  have hacyclic : overriding.IsAcyclic := by
    have hmerged : (mapping .mapping none [(scalar .text "x-a", scalar .text "A")]).IsAcyclic := by
      exact .mapping (List.forall_mem_singleton.2 (.scalar _ _))
        (List.forall_mem_singleton.2 (.scalar _ _))
    exact .mapping
      (List.forall_mem_cons.2 ⟨.scalar _ _, List.forall_mem_singleton.2 (.scalar _ _)⟩)
      (List.forall_mem_cons.2 ⟨hmerged, List.forall_mem_singleton.2 (.scalar _ _)⟩)
  have hvalue : overriding.value = .ok (.list [.pair (.text "x-a") (.text "A"),
    .pair (.text "x-a") (.text "B")]) := by rfl
  have hlast : overriding.lastValue = .ok (.map [(.text "x-a", .text "B")]) := by rfl
  have h := (value_eq_lastValue_iff hacyclic).2.1 _ _ hvalue hlast
  exact ⟨hacyclic, ⟨_, _, hvalue, hlast, nofun⟩, by_contra fun hnone => nomatch h.2 hnone⟩

end Trees

end CustomElements.Yaml.Node
