import CustomElements.Proofs.Yaml.TextMapping

/-!
# The construction of values

What a mapping is made of its pairs is a matter of a rule: a repeated key may keep all its pairs, as
it does here, or have the value of the last one. All else of the construction is the same, and the
value of a node is constructed from the values of its parts.
-/

namespace CustomElements

namespace Value

/-! ### Repeated keys -/

/-- Pairs without a repeated key are those whose keys are different from all later ones. -/
theorem repeatsKey_eq_false_iff {ps : List (Value × Value)} : repeatsKey ps = false ↔
    (ps.map Prod.fst).Pairwise fun k l => k.sameKey l = false := by
  induction ps with
  | nil => exact iff_of_true rfl List.Pairwise.nil
  | cons p ps ih =>
    rw [repeatsKey, Bool.or_eq_false_iff, ih, List.map_cons, List.pairwise_cons, List.any_eq_false]
    simp only [List.forall_mem_map, Bool.not_eq_true]

/-- The entries of a mapping that is given these pairs one after the other. -/
def assignAll (ps : List (Value × Value)) : List (Value × Value) :=
  ps.foldl (fun es p => assign p.1 p.2 es) []

/-- The mapping with these pairs, in which the last pair with a key gives its value. -/
def ofLastPairs (ps : List (Value × Value)) : Value := .map (assignAll ps)

theorem assign_of_fresh {k v : Value} {es : List (Value × Value)}
    (h : ∀ e ∈ es, e.1.sameKey k = false) : assign k v es = es ++ [(k, v)] := by
  induction es with
  | nil => rfl
  | cons e es ih =>
    rw [List.forall_mem_cons] at h
    rw [assign, h.1, if_neg Bool.false_ne_true, ih h.2, List.cons_append]

/-- Without a repeated key, the pairs are the entries. -/
theorem assignAll_of_not_repeatsKey {ps : List (Value × Value)} (h : repeatsKey ps = false) :
    assignAll ps = ps := by
  have hfold (es : List (Value × Value)) (hes : repeatsKey (es ++ ps) = false) :
      ps.foldl (fun es p => assign p.1 p.2 es) es = es ++ ps := by
    induction ps generalizing es with
    | nil => exact (List.append_nil es).symm
    | cons p ps ih =>
      have hfresh : ∀ e ∈ es, e.1.sameKey p.1 = false := by
        rw [repeatsKey_eq_false_iff, List.map_append, List.pairwise_append] at hes
        exact fun e he => hes.2.2 _ (List.mem_map_of_mem he) _ List.mem_cons_self
      rw [List.append_cons] at hes ⊢
      rw [List.foldl_cons, assign_of_fresh hfresh]
      exact ih (Bool.or_eq_false_iff.1 h).2 _ hes
  exact hfold [] h

/-- A key is added to a row of keys unless it is there. -/
def addKey (ks : List Value) (k : Value) : List Value :=
  if ks.any fun l => l.sameKey k then ks else ks ++ [k]

theorem keys_assign (k v : Value) (es : List (Value × Value)) :
    (assign k v es).map Prod.fst = addKey (es.map Prod.fst) k := by
  induction es with
  | nil => rfl
  | cons e es ih =>
    rw [assign, addKey, List.map_cons, List.any_cons]
    by_cases he : e.1.sameKey k
    · rw [if_pos he, if_pos (by rw [he, Bool.true_or]), List.map_cons]
    · rw [if_neg he, List.map_cons, ih, addKey, Bool.eq_false_iff.2 he, Bool.false_or]
      split <;> rfl

/-- The keys of the entries are told by the keys of the pairs. -/
theorem keys_assignAll (ps : List (Value × Value)) :
    (assignAll ps).map Prod.fst = (ps.map Prod.fst).foldl addKey [] := by
  have hfold (es : List (Value × Value)) :
      (ps.foldl (fun es p => assign p.1 p.2 es) es).map Prod.fst =
        (ps.map Prod.fst).foldl addKey (es.map Prod.fst) := by
    induction ps generalizing es with
    | nil => rfl
    | cons p ps ih => rw [List.foldl_cons, ih, keys_assign, List.map_cons, List.foldl_cons]
  exact hfold []

/-- Both rules make the same of pairs exactly if no key is repeated and the pairs are the same. -/
theorem ofPairs_eq_ofLastPairs_iff {ps qs : List (Value × Value)}
    (h : ps.map Prod.fst = qs.map Prod.fst) :
    ofPairs ps = ofLastPairs qs ↔ repeatsKey ps = false ∧ ps = qs := by
  have hrepeats : repeatsKey ps = repeatsKey qs := by
    rw [Bool.eq_iff_iff, ← not_iff_not, Bool.not_eq_true, Bool.not_eq_true,
      repeatsKey_eq_false_iff, repeatsKey_eq_false_iff, h]
  rw [ofPairs, ofLastPairs]
  cases hps : repeatsKey ps with
  | true => simp
  | false =>
    rw [if_neg Bool.false_ne_true, assignAll_of_not_repeatsKey (hrepeats.symm.trans hps)]
    simp

theorem isKey_ofPairs (ps : List (Value × Value)) : (ofPairs ps).isKey = false := by
  rw [ofPairs]
  split <;> rfl

end Value

namespace Yaml.Node

/-! ### Construction by a rule -/

/-- What a mapping becomes, and what is wrong with a text that is tagged as one. -/
structure MappingRule where
  collect : List (Value × Value) → Value
  ofScalar : ReadError
  collect_isKey (ps : List (Value × Value)) : (collect ps).isKey = false

/-- Repeated keys keep all their pairs. -/
def keepsPairs : MappingRule := ⟨Value.ofPairs, .fault .badValue, Value.isKey_ofPairs⟩

/-- The last pair with a key gives its value. -/
def lastWins : MappingRule := ⟨Value.ofLastPairs, .malformed, fun _ => rfl⟩

/-- The value of a node that is tagged as a scalar. -/
def scalarValue (n : Node) : Except ReadError Value :=
  match n.tag with
  | .null => do
    let _ ← orMalformed n.scalarText?
    return .null
  | .bool => do return .bool (← ofFault (boolValue (← orMalformed n.scalarText?)))
  | .int => do return .int (← ofFault (integerValue (← orMalformed n.scalarText?)))
  | .float => do return .float (← ofFault (floatValue (← orMalformed n.scalarText?)))
  | .text => do return .text (← orMalformed n.scalarText?)
  | .binary => do return .bytes (← orMalformed (bytesValue? (← orMalformed n.scalarText?)))
  | .timestamp =>
    match n with
    | scalar _ t => ofFault (timeValue t)
    | _ => .error .malformed
  | _ => .error .malformed

section Steps

variable (rule : MappingRule) (value : Node → Except ReadError Value)

/-- The values of a key and of what is under it. -/
def pairOf (e : Node × Node) : Except ReadError (Value × Value) := do
  let k ← value e.1
  return (k, ← value e.2)

/-- The same, if the first one may be a key. -/
def keyedPairOf (e : Node × Node) : Except ReadError (Value × Value) := do
  let k ← value e.1
  if !k.isKey then .error .malformed
  return (k, ← value e.2)

/-- The pair that a mapping with one entry holds. -/
def itemPairOf : Node → Except ReadError (Value × Value)
  | mapping _ _ [e] => pairOf value e
  | _ => .error .malformed

/-- The value of a node, given the values of its parts. -/
def step (n : Node) : Except ReadError Value :=
  match n.tag with
  | .sequence =>
    match n with
    | sequence _ _ items => do return .list (← items.mapM value)
    | _ => .error .malformed
  | .mapping =>
    match n with
    | mapping _ _ es => do
      let pairs ← (← flatten es).mapM (pairOf value)
      if pairs.all fun p => p.1.isKey then return rule.collect pairs else .error .malformed
    | scalar _ (_ :: _) => .error rule.ofScalar
    | _ => .error .malformed
  | .set =>
    match n with
    | mapping _ _ es => do
      let pairs ← (← flatten es).mapM (keyedPairOf value)
      return .set ((Value.assignAll pairs).map Prod.fst)
    | _ => .error .malformed
  | .orderedMapping | .pairs =>
    match n with
    | sequence _ _ items => do
      let pairs ← items.mapM (itemPairOf value)
      return .list (pairs.map fun p => .pair p.1 p.2)
    | _ => .error .malformed
  | _ => n.scalarValue

end Steps

/-- The value of a tree without loops by a rule; `fuel` bounds its depth. -/
def builtAt (rule : MappingRule) : Nat → Node → Except ReadError Value
  | 0, _ => .error .malformed
  | fuel + 1, n => step rule (builtAt rule fuel) n

/-- The value of a tree without loops by a rule. -/
def built (rule : MappingRule) (n : Node) : Except ReadError Value :=
  builtAt rule (n.depth + 1) n

/-- A tree in which no alias stands inside of what it refers to. -/
inductive IsAcyclic : Node → Prop where
  | scalar (t : Tag) (s : Text) : IsAcyclic (scalar t s)
  | sequence {t : Tag} {a : Option Text} {items : List Node}
    (all : ∀ i ∈ items, IsAcyclic i) : IsAcyclic (sequence t a items)
  | mapping {t : Tag} {a : Option Text} {es : List (Node × Node)}
    (keys : ∀ e ∈ es, IsAcyclic e.1) (values : ∀ e ∈ es, IsAcyclic e.2) :
    IsAcyclic (mapping t a es)

/-- The nodes whose values a node is constructed from. -/
inductive HasPart : Node → Node → Prop where
  | item {a : Option Text} {items : List Node} {i : Node} (mem : i ∈ items) :
    HasPart (sequence .sequence a items) i
  | key {t : Tag} {a : Option Text} {es entries : List (Node × Node)} {e : Node × Node}
    (tag : t = .mapping ∨ t = .set) (flat : flatten es = .ok entries) (mem : e ∈ entries) :
    HasPart (mapping t a es) e.1
  | value {t : Tag} {a : Option Text} {es entries : List (Node × Node)} {e : Node × Node}
    (tag : t = .mapping ∨ t = .set) (flat : flatten es = .ok entries) (mem : e ∈ entries) :
    HasPart (mapping t a es) e.2
  | itemKey {t t' : Tag} {a a' : Option Text} {items : List Node} {e : Node × Node}
    (tag : t = .orderedMapping ∨ t = .pairs) (mem : mapping t' a' [e] ∈ items) :
    HasPart (sequence t a items) e.1
  | itemValue {t t' : Tag} {a a' : Option Text} {items : List Node} {e : Node × Node}
    (tag : t = .orderedMapping ∨ t = .pairs) (mem : mapping t' a' [e] ∈ items) :
    HasPart (sequence t a items) e.2

section Parts

variable {n c : Node} {es entries : List (Node × Node)} {e : Node × Node}

theorem depth_asKey (n : Node) : n.asKey.depth = n.depth := by
  unfold asKey
  split
  · rfl
  · cases n <;> rfl

theorem isAcyclic_asKey (h : n.IsAcyclic) : n.asKey.IsAcyclic := by
  unfold asKey
  split
  · exact h
  · cases h with
    | scalar t s => exact .scalar _ s
    | sequence h => exact .sequence h
    | mapping hk hv => exact .mapping hk hv

/-- Nodes that have something in common with all nodes inside of them. -/
structure IsInherited (P : Node → Prop) : Prop where
  asKey : ∀ n, P n → P n.asKey
  items : ∀ t a items, P (sequence t a items) → ∀ i ∈ items, P i
  entries : ∀ t a es, P (mapping t a es) → ∀ e ∈ es, P e.1 ∧ P e.2

mutual

/-- The entries that are merged, and the own ones, are made of nodes inside of a mapping. -/
theorem split_inherits {P : Node → Prop} (hP : IsInherited P) (es : List (Node × Node))
    (hes : ∀ e ∈ es, P e.1 ∧ P e.2) {merged own : List (Node × Node)}
    (h : split es = .ok (merged, own)) : ∀ e ∈ merged ++ own, P e.1 ∧ P e.2 := by
  match es with
  | [] =>
    cases h
    exact List.forall_mem_nil _
  | (k, v) :: es =>
    rw [List.forall_mem_cons] at hes
    rw [split] at h
    obtain ⟨⟨merged', own'⟩, hrest, h⟩ := exceptBind_eq_ok.1 h
    have ih := List.forall_mem_append.1 (split_inherits hP es hes.2 hrest)
    dsimp only at h
    split at h
    · obtain ⟨more, hmore, h⟩ := exceptBind_eq_ok.1 h
      cases h
      have hv := mergedBy_inherits hP v hes.1.2 hmore
      exact List.forall_mem_append.2 ⟨List.forall_mem_append.2 ⟨hv, ih.1⟩, ih.2⟩
    · cases h
      have hk : P k.asKey ∧ P v := ⟨hP.asKey k hes.1.1, hes.1.2⟩
      exact List.forall_mem_append.2 ⟨ih.1, List.forall_mem_cons.2 ⟨hk, ih.2⟩⟩
termination_by structural es

theorem mergedBy_inherits {P : Node → Prop} (hP : IsInherited P) (v : Node) (hv : P v)
    {merged : List (Node × Node)} (h : mergedBy v = .ok merged) :
    ∀ e ∈ merged, P e.1 ∧ P e.2 := by
  match v with
  | scalar t s => cases h
  | loop a => cases h
  | mapping t a sub =>
    rw [mergedBy] at h
    obtain ⟨⟨merged', own'⟩, hsplit, h⟩ := exceptBind_eq_ok.1 h
    cases h
    exact split_inherits hP sub (hP.entries t a sub hv) hsplit
  | sequence t a items =>
    rw [mergedBy] at h
    exact mergedItems_inherits hP items (hP.items t a items hv) h
termination_by structural v

theorem mergedItems_inherits {P : Node → Prop} (hP : IsInherited P) (items : List Node)
    (hitems : ∀ i ∈ items, P i) {merged : List (Node × Node)}
    (h : mergedItems items = .ok merged) : ∀ e ∈ merged, P e.1 ∧ P e.2 := by
  match items with
  | [] =>
    cases h
    exact List.forall_mem_nil _
  | v :: items =>
    rw [List.forall_mem_cons] at hitems
    match v with
    | scalar t s => cases h
    | loop a => cases h
    | sequence t a items' => cases h
    | mapping t a sub =>
      rw [mergedItems] at h
      obtain ⟨⟨merged', own'⟩, hsplit, h⟩ := exceptBind_eq_ok.1 h
      obtain ⟨more, hmore, h⟩ := exceptBind_eq_ok.1 h
      cases h
      have hsub := split_inherits hP sub (hP.entries t a sub hitems.1) hsplit
      exact List.forall_mem_append.2 ⟨mergedItems_inherits hP items hitems.2 hmore, hsub⟩
termination_by structural items

end

/-- The entries of a mapping, merged ones too, are made of nodes inside of it. -/
theorem flatten_inherits {P : Node → Prop} (hP : IsInherited P) (hes : ∀ e ∈ es, P e.1 ∧ P e.2)
    (h : flatten es = .ok entries) : ∀ e ∈ entries, P e.1 ∧ P e.2 := by
  obtain ⟨⟨merged, own⟩, hsplit, h⟩ := exceptBind_eq_ok.1 h
  cases h
  exact split_inherits hP es hes hsplit

theorem isInherited_isAcyclic : IsInherited IsAcyclic := by
  refine ⟨fun _ h => isAcyclic_asKey h, fun t a items h => ?_, fun t a es h e he => ?_⟩
  · cases h with
    | sequence all => exact all
  · cases h with
    | mapping keys values => exact ⟨keys e he, values e he⟩

theorem depth_le_of_mem_items {items : List Node} {i : Node} (h : i ∈ items) :
    i.depth ≤ depthOfItems items := by
  induction items with
  | nil => cases h
  | cons j items ih =>
    rw [depthOfItems]
    rcases List.mem_cons.1 h with rfl | h
    · exact Nat.le_max_left _ _
    · exact Nat.le_trans (ih h) (Nat.le_max_right _ _)

theorem depth_le_of_mem_entries (h : e ∈ es) :
    e.1.depth ≤ depthOfEntries es ∧ e.2.depth ≤ depthOfEntries es := by
  induction es with
  | nil => cases h
  | cons f es ih =>
    obtain ⟨k, v⟩ := f
    rw [depthOfEntries]
    rcases List.mem_cons.1 h with rfl | h
    · dsimp only
      exact ⟨by omega, by omega⟩
    · obtain ⟨hk, hv⟩ := ih h
      exact ⟨by omega, by omega⟩

theorem isInherited_depth (d : Nat) : IsInherited fun n => n.depth ≤ d := by
  refine ⟨fun n h => Nat.le_trans (Nat.le_of_eq (depth_asKey n)) h, fun t a items h i hi => ?_,
    fun t a es h e he => ?_⟩
  · have hle := depth_le_of_mem_items hi
    rw [depth] at h
    omega
  · obtain ⟨hk, hv⟩ := depth_le_of_mem_entries he
    rw [depth] at h
    exact ⟨by omega, by omega⟩

/-- The parts of a node are less deep than the node. -/
theorem depth_of_hasPart (h : HasPart n c) : c.depth < n.depth := by
  have hflat {es entries : List (Node × Node)} (hf : flatten es = .ok entries) :=
    flatten_inherits (isInherited_depth (depthOfEntries es))
      (fun e he => depth_le_of_mem_entries he) hf
  have hentry {t : Tag} {a : Option Text} {e : Node × Node} {items : List Node}
      (hm : mapping t a [e] ∈ items) :
      e.1.depth < depthOfItems items ∧ e.2.depth < depthOfItems items := by
    have hle := depth_le_of_mem_items hm
    obtain ⟨hk, hv⟩ := depth_le_of_mem_entries (List.mem_singleton_self e)
    rw [depth] at hle
    exact ⟨by omega, by omega⟩
  cases h with
  | item hm =>
    rw [depth]
    exact Nat.lt_succ_of_le (depth_le_of_mem_items hm)
  | key ht hf hm =>
    rw [depth]
    exact Nat.lt_succ_of_le (hflat hf _ hm).1
  | value ht hf hm =>
    rw [depth]
    exact Nat.lt_succ_of_le (hflat hf _ hm).2
  | itemKey ht hm =>
    rw [depth]
    exact Nat.lt_succ_of_lt (hentry hm).1
  | itemValue ht hm =>
    rw [depth]
    exact Nat.lt_succ_of_lt (hentry hm).2

/-- The parts of a tree without loops have none. -/
theorem isAcyclic_of_hasPart (hn : n.IsAcyclic) (h : HasPart n c) : c.IsAcyclic := by
  have hP := isInherited_isAcyclic
  cases h with
  | item hm => exact hP.items _ _ _ hn _ hm
  | key _ hf hm => exact (flatten_inherits hP (hP.entries _ _ _ hn) hf _ hm).1
  | value _ hf hm => exact (flatten_inherits hP (hP.entries _ _ _ hn) hf _ hm).2
  | itemKey _ hm =>
    exact (hP.entries _ _ _ (hP.items _ _ _ hn _ hm) _ (List.mem_singleton_self _)).1
  | itemValue _ hm =>
    exact (hP.entries _ _ _ (hP.items _ _ _ hn _ hm) _ (List.mem_singleton_self _)).2

end Parts

section Congruence

variable {rule : MappingRule} {f g : Node → Except ReadError Value} {n : Node}

theorem step_sequence (a : Option Text) (items : List Node) :
    step rule f (sequence .sequence a items) = do return .list (← items.mapM f) := rfl

theorem step_mapping (a : Option Text) (es : List (Node × Node)) :
    step rule f (mapping .mapping a es) = (do
      let pairs ← (← flatten es).mapM (pairOf f)
      if pairs.all fun p => p.1.isKey then return rule.collect pairs else .error .malformed) := rfl

theorem step_set (a : Option Text) (es : List (Node × Node)) :
    step rule f (mapping .set a es) = (do
      let pairs ← (← flatten es).mapM (keyedPairOf f)
      return .set ((Value.assignAll pairs).map Prod.fst)) := rfl

theorem step_pairs {t : Tag} (ht : t = .orderedMapping ∨ t = .pairs) (a : Option Text)
    (items : List Node) : step rule f (sequence t a items) = (do
      let pairs ← items.mapM (itemPairOf f)
      return .list (pairs.map fun p => .pair p.1 p.2)) := by
  rcases ht with rfl | rfl <;> rfl

theorem pairOf_congr {e : Node × Node} (hk : f e.1 = g e.1) (hv : f e.2 = g e.2) :
    pairOf f e = pairOf g e := by
  rw [pairOf, pairOf, hk, hv]

theorem keyedPairOf_congr {e : Node × Node} (hk : f e.1 = g e.1) (hv : f e.2 = g e.2) :
    keyedPairOf f e = keyedPairOf g e := by
  rw [keyedPairOf, keyedPairOf, hk, hv]

/-- The value of a node depends on the values of its parts only. -/
theorem step_congr (h : ∀ c, HasPart n c → f c = g c) : step rule f n = step rule g n := by
  cases n with
  | scalar t s => cases t <;> cases s <;> rfl
  | loop a => rfl
  | sequence t a items =>
    have hpairs (ht : t = .orderedMapping ∨ t = .pairs) :
        items.mapM (itemPairOf f) = items.mapM (itemPairOf g) := by
      refine exceptMapM_congr fun i hi => ?_
      unfold itemPairOf
      split
      · exact pairOf_congr (h _ (.itemKey ht hi)) (h _ (.itemValue ht hi))
      · rfl
    cases t with
    | sequence =>
      have hitems : items.mapM f = items.mapM g :=
        exceptMapM_congr fun i hi => h i (.item hi)
      rw [step_sequence, step_sequence, hitems]
    | orderedMapping => rw [step_pairs (.inl rfl), step_pairs (.inl rfl), hpairs (.inl rfl)]
    | pairs => rw [step_pairs (.inr rfl), step_pairs (.inr rfl), hpairs (.inr rfl)]
    | _ => rfl
  | mapping t a es =>
    cases t with
    | mapping =>
      rw [step_mapping, step_mapping]
      refine exceptBind_congr fun entries hf => ?_
      have hpairs : entries.mapM (pairOf f) = entries.mapM (pairOf g) :=
        exceptMapM_congr fun e he =>
          pairOf_congr (h _ (.key (.inl rfl) hf he)) (h _ (.value (.inl rfl) hf he))
      rw [hpairs]
    | set =>
      rw [step_set, step_set]
      refine exceptBind_congr fun entries hf => ?_
      have hpairs : entries.mapM (keyedPairOf f) = entries.mapM (keyedPairOf g) :=
        exceptMapM_congr fun e he =>
          keyedPairOf_congr (h _ (.key (.inr rfl) hf he)) (h _ (.value (.inr rfl) hf he))
      rw [hpairs]
    | _ => rfl

/-- More fuel than the depth of a tree makes no difference. -/
theorem builtAt_congr {fuel fuel' : Nat} (h : n.depth < fuel) (h' : n.depth < fuel') :
    builtAt rule fuel n = builtAt rule fuel' n := by
  induction fuel generalizing n fuel' with
  | zero => exact absurd h (Nat.not_lt_zero _)
  | succ fuel ih =>
    cases fuel' with
    | zero => exact absurd h' (Nat.not_lt_zero _)
    | succ fuel' =>
      refine step_congr fun c hc => ih ?_ ?_
      · exact Nat.lt_of_lt_of_le (depth_of_hasPart hc) (Nat.le_of_lt_succ h)
      · exact Nat.lt_of_lt_of_le (depth_of_hasPart hc) (Nat.le_of_lt_succ h')

theorem builtAt_eq {fuel : Nat} (h : n.depth < fuel) : builtAt rule fuel n = n.built rule :=
  builtAt_congr h (Nat.lt_succ_self _)

/-- The value of a node is constructed from the values of its parts. -/
theorem built_eq (rule : MappingRule) (n : Node) : n.built rule = step rule (built rule) n :=
  step_congr fun _ hc => builtAt_eq (depth_of_hasPart hc)

end Congruence

section Agreement

variable {fuel : Nat} {n : Node}

/-- Whether the entries of a set are gathered at once or one after the other makes no difference. -/
theorem foldlM_assign (f : Node → Except ReadError Value) (entries : List (Node × Node)) :
    entries.foldlM (fun acc e => do
      let k ← f e.1
      if !k.isKey then .error .malformed
      return Value.assign k (← f e.2) acc) [] =
    (do return Value.assignAll (← entries.mapM (keyedPairOf f))) := by
  have hgather := exceptFoldlM_eq (keyedPairOf f) (fun acc p => Value.assign p.1 p.2 acc) entries []
  refine Eq.trans ?_ hgather
  congr 1
  funext acc e
  rw [keyedPairOf]
  cases f e.1 with
  | error r => rfl
  | ok k =>
    change (if !k.isKey then _ else _) = ((if !k.isKey then _ else _) >>= _)
    cases k.isKey with
    | false => rfl
    | true => cases f e.2 <;> rfl

/-- Whether the parts of a node are inside of a mapping. -/
def deepInside (deep : Bool) (n : Node) : Bool := deep || decide (n.tag = .mapping)

/-- The anchors of the lists around the parts of a node. -/
def openedInside (deep : Bool) (opened : List Text) : Node → List Text
  | sequence _ a _ | mapping .set a _ => if deep then opened else openedWith opened a
  | _ => opened

/-- The value of a node is constructed by the rule that keeps all pairs. -/
theorem valueAt_succ (deep : Bool) (opened : List Text) (hn : ∀ a, n ≠ loop a) :
    valueAt (fuel + 1) deep opened n =
      step keepsPairs (valueAt fuel (deepInside deep n) (openedInside deep opened n)) n := by
  cases n with
  | scalar t s => cases t <;> cases s <;> rfl
  | loop a => exact absurd rfl (hn a)
  | sequence t a items =>
    cases t <;> simp only [deepInside, tag, reduceCtorEq, decide_false, Bool.or_false] <;> rfl
  | mapping t a es =>
    cases t with
    | mapping =>
      simp only [deepInside, tag, decide_true, Bool.or_true]
      rfl
    | set =>
      simp only [deepInside, tag, reduceCtorEq, decide_false, Bool.or_false]
      rw [step_set]
      refine exceptBind_congr fun entries _ => ?_
      have hgather := foldlM_assign
        (valueAt fuel deep (openedInside deep opened (mapping .set a es))) entries
      refine (congrArg (fun r => do return Value.set ((← r).map Prod.fst)) hgather).trans ?_
      cases entries.mapM (keyedPairOf _) <;> rfl
    | _ => rfl

/-- On a tree without loops, it does not matter what lies around a node. -/
theorem valueAt_eq_builtAt (hn : n.IsAcyclic) (deep : Bool) (opened : List Text) :
    valueAt fuel deep opened n = builtAt keepsPairs fuel n := by
  induction fuel generalizing deep opened n with
  | zero => rfl
  | succ fuel ih =>
    have hloop (a : Text) : n ≠ loop a := by
      rintro rfl
      cases hn
    rw [valueAt_succ deep opened hloop, builtAt]
    exact step_congr fun c hc => ih (isAcyclic_of_hasPart hn hc) _ _

end Agreement

section Pairs

variable {f g : Node → Except ReadError Value} {e : Node × Node} {p : Value × Value} {i n : Node}
variable {rule : MappingRule} {u : Value}

theorem pairOf_eq_ok : pairOf f e = .ok p ↔ f e.1 = .ok p.1 ∧ f e.2 = .ok p.2 := by
  rw [pairOf]
  simp only [exceptBind_eq_ok]
  constructor
  · rintro ⟨k, hk, v, hv, h⟩
    cases h
    exact ⟨hk, hv⟩
  · rintro ⟨hk, hv⟩
    exact ⟨_, hk, _, hv, rfl⟩

theorem keyedPairOf_eq_ok :
    keyedPairOf f e = .ok p ↔ p.1.isKey ∧ pairOf f e = .ok p := by
  rw [pairOf_eq_ok, keyedPairOf]
  simp only [exceptBind_eq_ok]
  constructor
  · rintro ⟨k, hk, h⟩
    cases hkey : k.isKey with
    | false =>
      rw [hkey] at h
      cases h
    | true =>
      rw [hkey] at h
      obtain ⟨v, hv, h⟩ := exceptBind_eq_ok.1 h
      cases h
      exact ⟨hkey, hk, hv⟩
  · rintro ⟨hkey, hk, hv⟩
    refine ⟨_, hk, ?_⟩
    rw [hkey]
    exact exceptBind_eq_ok.2 ⟨_, hv, rfl⟩

theorem itemPairOf_eq_ok :
    itemPairOf f i = .ok p ↔ ∃ t a e, i = mapping t a [e] ∧ pairOf f e = .ok p := by
  constructor
  · intro h
    unfold itemPairOf at h
    split at h
    · exact ⟨_, _, _, rfl, h⟩
    · cases h
  · rintro ⟨t, a, e, rfl, h⟩
    exact h

theorem ofFault_eq_ok {α : Type} {r : Except Fault α} {x : α} : ofFault r = .ok x ↔ r = .ok x := by
  cases r <;> simp [ofFault]

theorem isKey_of_timeValue {t : Text} (h : timeValue t = .ok u) : u.isKey := by
  obtain ⟨written, -, h⟩ := exceptBind_eq_ok.1 h
  obtain ⟨form, -, h⟩ := exceptBind_eq_ok.1 h
  dsimp only at h
  split at h
  · split at h
    · cases h
      rfl
    · cases h
  · split at h
    all_goals
      obtain ⟨offset, -, h⟩ := exceptBind_eq_ok.1 h
      split at h
      · cases h
        rfl
      · cases h

theorem isKey_of_scalarValue (h : n.scalarValue = .ok u) : u.isKey := by
  unfold scalarValue at h
  split at h
  case h_1 =>
    obtain ⟨_, -, h⟩ := exceptBind_eq_ok.1 h
    cases h
    rfl
  case h_5 =>
    obtain ⟨_, -, h⟩ := exceptBind_eq_ok.1 h
    cases h
    rfl
  case h_7 =>
    split at h
    · exact isKey_of_timeValue (ofFault_eq_ok.1 h)
    · cases h
  case h_8 => cases h
  all_goals
    obtain ⟨_, -, h⟩ := exceptBind_eq_ok.1 h
    obtain ⟨_, -, h⟩ := exceptBind_eq_ok.1 h
    cases h
    rfl

/-- The value of a sequence or a mapping may be no key. -/
theorem step_cases (rule : MappingRule) (f : Node → Except ReadError Value) (n : Node) :
    step rule f n = n.scalarValue ∨ n.scalarValue = .error .malformed ∧
      ∀ u, step rule f n = .ok u → u.isKey = false := by
  cases n with
  | scalar t s =>
    cases t with
    | sequence | set | orderedMapping | pairs => exact .inr ⟨rfl, nofun⟩
    | mapping =>
      refine .inr ⟨rfl, fun u h => ?_⟩
      cases s <;> cases h
    | _ => exact .inl rfl
  | loop a => exact .inl rfl
  | sequence t a items =>
    cases t with
    | mapping | set => exact .inr ⟨rfl, nofun⟩
    | sequence =>
      refine .inr ⟨rfl, fun u h => ?_⟩
      obtain ⟨_, -, h⟩ := exceptBind_eq_ok.1 h
      cases h
      rfl
    | orderedMapping | pairs =>
      refine .inr ⟨rfl, fun u h => ?_⟩
      obtain ⟨_, -, h⟩ := exceptBind_eq_ok.1 h
      cases h
      rfl
    | _ => exact .inl rfl
  | mapping t a es =>
    cases t with
    | sequence | orderedMapping | pairs => exact .inr ⟨rfl, nofun⟩
    | mapping =>
      refine .inr ⟨rfl, fun u h => ?_⟩
      obtain ⟨_, -, h⟩ := exceptBind_eq_ok.1 h
      obtain ⟨_, -, h⟩ := exceptBind_eq_ok.1 h
      split at h
      · cases h
        exact rule.collect_isKey _
      · cases h
    | set =>
      refine .inr ⟨rfl, fun u h => ?_⟩
      obtain ⟨_, -, h⟩ := exceptBind_eq_ok.1 h
      obtain ⟨_, -, h⟩ := exceptBind_eq_ok.1 h
      cases h
      rfl
    | _ => exact .inl rfl

/-- A value that may be a key is that of a scalar. -/
theorem step_eq_key_iff : step rule f n = .ok u ∧ u.isKey ↔ n.scalarValue = .ok u := by
  rcases step_cases rule f n with h | ⟨h, hkey⟩
  · rw [h]
    exact and_iff_left_of_imp isKey_of_scalarValue
  · rw [h]
    refine iff_of_false (fun hu => ?_) nofun
    rw [hkey u hu.1] at hu
    exact Bool.false_ne_true hu.2

end Pairs

section Results

variable {rule : MappingRule} {f : Node → Except ReadError Value} {u : Value}
variable {a : Option Text} {es : List (Node × Node)} {items : List Node}

theorem step_sequence_eq_ok : step rule f (sequence .sequence a items) = .ok u ↔
    ∃ vs, items.mapM f = .ok vs ∧ u = .list vs := by
  rw [step_sequence, exceptBind_eq_ok]
  exact exists_congr fun vs => and_congr_right' ⟨fun h => (Except.ok.inj h).symm, fun h => h ▸ rfl⟩

theorem step_pairs_eq_ok {t : Tag} (ht : t = .orderedMapping ∨ t = .pairs) :
    step rule f (sequence t a items) = .ok u ↔
      ∃ ps, items.mapM (itemPairOf f) = .ok ps ∧ u = .list (ps.map fun p => .pair p.1 p.2) := by
  rw [step_pairs ht, exceptBind_eq_ok]
  exact exists_congr fun vs => and_congr_right' ⟨fun h => (Except.ok.inj h).symm, fun h => h ▸ rfl⟩

theorem step_set_eq_ok : step rule f (mapping .set a es) = .ok u ↔
    ∃ entries ps, flatten es = .ok entries ∧ entries.mapM (keyedPairOf f) = .ok ps ∧
      u = .set ((Value.assignAll ps).map Prod.fst) := by
  rw [step_set]
  simp only [exceptBind_eq_ok]
  constructor
  · rintro ⟨entries, hf, ps, hps, h⟩
    exact ⟨entries, ps, hf, hps, (Except.ok.inj h).symm⟩
  · rintro ⟨entries, ps, hf, hps, rfl⟩
    exact ⟨entries, hf, ps, hps, rfl⟩

/-- Keys may be looked at one by one or all at the end. -/
theorem mapM_keyedPairOf {entries : List (Node × Node)} {ps : List (Value × Value)} :
    entries.mapM (keyedPairOf f) = .ok ps ↔
      entries.mapM (pairOf f) = .ok ps ∧ ps.all fun p => p.1.isKey := by
  rw [exceptMapM_eq_ok, exceptMapM_eq_ok, List.all_eq_true]
  simp only [keyedPairOf_eq_ok]
  induction entries generalizing ps with
  | nil => simp +contextual
  | cons e entries ih =>
    simp only [List.forall₂_cons_left_iff, ih]
    constructor
    · rintro ⟨p, rest, ⟨hkey, hp⟩, ⟨hrest, hkeys⟩, rfl⟩
      exact ⟨⟨p, rest, hp, hrest, rfl⟩, List.forall_mem_cons.2 ⟨hkey, hkeys⟩⟩
    · rintro ⟨⟨p, rest, hp, hrest, rfl⟩, hkeys⟩
      rw [List.forall_mem_cons] at hkeys
      exact ⟨p, rest, ⟨hkeys.1, hp⟩, ⟨hrest, hkeys.2⟩, rfl⟩

theorem step_mapping_eq_ok : step rule f (mapping .mapping a es) = .ok u ↔
    ∃ entries ps, flatten es = .ok entries ∧ entries.mapM (keyedPairOf f) = .ok ps ∧
      u = rule.collect ps := by
  rw [step_mapping]
  simp only [exceptBind_eq_ok, mapM_keyedPairOf]
  constructor
  · rintro ⟨entries, hf, ps, hps, h⟩
    split at h
    · next hkeys => exact ⟨entries, ps, hf, ⟨hps, hkeys⟩, (Except.ok.inj h).symm⟩
    · cases h
  · rintro ⟨entries, ps, hf, ⟨hps, hkeys⟩, rfl⟩
    exact ⟨entries, hf, ps, hps, if_pos hkeys⟩

end Results

end Yaml.Node

end CustomElements
