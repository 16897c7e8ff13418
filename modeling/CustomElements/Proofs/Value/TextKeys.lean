import CustomElements.Proofs.FirstMatch
import CustomElements.Value.Basic

/-!
# Mappings with text keys

Text keys are the same key only if they are equal. Where a mapping has text keys, giving values to
further text keys leaves its entries in their order and adds the new ones behind them.
-/

namespace CustomElements.Value

variable {key : Text} {v : Value} {own os : List (Text × Value)}

/-- Only a text is the same key as a text. -/
theorem sameKey_text_iff {v : Value} {t : Text} : v.sameKey (.text t) ↔ v = .text t := by
  cases v with
  | text s => rw [sameKey, decide_eq_true_iff, text.injEq]
  | _ => simp [sameKey, integer?]

/-- Text keys are repeated if two of them are equal. -/
theorem repeatsKey_texts {pairs : List (Text × Value)} :
    repeatsKey (pairs.map fun p => (.text p.1, p.2)) = false ↔ (pairs.map Prod.fst).Nodup := by
  induction pairs with
  | nil => exact ⟨fun _ => List.nodup_nil, fun _ => rfl⟩
  | cons p pairs ih =>
    rw [List.map_cons, List.map_cons, List.nodup_cons, ← ih, repeatsKey, Bool.or_eq_false_iff,
      List.any_map, List.any_eq_false]
    refine and_congr_left' ?_
    rw [List.mem_map]
    constructor
    · rintro h ⟨q, hq, heq⟩
      exact h q hq (sameKey_text_iff.2 (congrArg text heq.symm))
    · rintro h q hq hsame
      exact h ⟨q, hq, (text.inj (sameKey_text_iff.1 hsame)).symm⟩

/-- In a mapping without repeated keys, a value is found under its key. -/
theorem get?_of_mem {es : List (Value × Value)} (h : repeatsKey es = false) {key : Text} {v : Value}
    (hm : (.text key, v) ∈ es) : (map es).get? key = some v := by
  induction es with
  | nil => cases hm
  | cons e es ih =>
    rw [repeatsKey, Bool.or_eq_false_iff, List.any_eq_false] at h
    rw [get?]
    rcases List.mem_cons.1 hm with rfl | hrest
    · have hfirst : (Value.text key).sameKey (.text key) := sameKey_text_iff.2 rfl
      rw [List.find?_cons, hfirst]
      rfl
    · have hother : e.1.sameKey (.text key) = false := Bool.eq_false_iff.2 (h.1 _ hrest)
      rw [List.find?_cons, hother]
      exact ih h.2 hrest

/-- Entries with the values of other ones in place of theirs, and those others that have new keys
behind them. -/
def overriding (own os : List (Text × Value)) : List (Text × Value) :=
  os.map (fun o => (o.1, (own.lookup o.1).getD o.2)) ++
    own.filter fun o => decide (o.1 ∉ os.map Prod.fst)

/-- Entries with other keys keep their values. -/
theorem map_lookup_of_fresh (h : ∀ o ∈ os, o.1 ∉ own.map Prod.fst) :
    os.map (fun o => (o.1, (own.lookup o.1).getD o.2)) = os := by
  refine (List.map_congr_left fun o ho => ?_).trans (List.map_id os)
  rw [lookup_eq_none_iff.2 (h o ho)]
  rfl

theorem assign_texts (hos : (os.map Prod.fst).Nodup) (key : Text) (v : Value) :
    assign (.text key) v (os.map fun o => (.text o.1, o.2)) =
      (overriding [(key, v)] os).map fun o => (.text o.1, o.2) := by
  induction os with
  | nil => rfl
  | cons o os ih =>
    obtain ⟨first, u⟩ := o
    rw [List.map_cons, List.nodup_cons] at hos
    rw [List.map_cons, assign]
    by_cases hkey : first = key
    · subst hkey
      have hfresh : ∀ o ∈ os, o.1 ∉ [(first, v)].map Prod.fst := by
        intro o ho hmem
        exact hos.1 (List.mem_singleton.1 hmem ▸ List.mem_map_of_mem ho)
      rw [if_pos (sameKey_text_iff.2 rfl), overriding, List.map_cons, map_lookup_of_fresh hfresh]
      simp
    · rw [if_neg (mt sameKey_text_iff.1 fun heq => hkey (text.inj heq)), ih hos.2]
      have hnone : [(key, v)].lookup first = none :=
        lookup_eq_none_iff.2 (mt List.mem_singleton.1 hkey)
      simp only [overriding, List.map_cons, List.cons_append, hnone, Option.getD_none]
      simp only [List.filter_cons, List.filter_nil, List.mem_cons, Ne.symm hkey, false_or]

theorem keys_overriding (own os : List (Text × Value)) :
    (overriding own os).map Prod.fst =
      os.map Prod.fst ++ (own.map Prod.fst).filter fun k => decide (k ∉ os.map Prod.fst) := by
  rw [overriding, List.map_append, List.map_map, List.filter_map]
  rfl

/-- New keys are not repeated where neither the old ones nor they are. -/
theorem nodup_overriding (hos : (os.map Prod.fst).Nodup) (hown : (own.map Prod.fst).Nodup) :
    ((overriding own os).map Prod.fst).Nodup := by
  rw [keys_overriding, List.nodup_append]
  refine ⟨hos, hown.filter _, fun k hk k' hk' => ?_⟩
  rintro rfl
  exact of_decide_eq_true (List.mem_filter.1 hk').2 hk

theorem mem_overriding_iff (hown : (own.map Prod.fst).Nodup) {o : Text × Value} :
    o ∈ overriding own os ↔ o ∈ own ∨ o ∈ os ∧ o.1 ∉ own.map Prod.fst := by
  rw [overriding, List.mem_append, List.mem_map, List.mem_filter, decide_eq_true_iff]
  constructor
  · rintro (⟨p, hp, rfl⟩ | ⟨ho, -⟩)
    · cases hlookup : own.lookup p.1 with
      | none => exact .inr ⟨hp, lookup_eq_none_iff.1 hlookup⟩
      | some u => exact .inl (mem_of_lookup hlookup)
    · exact .inl ho
  · rintro (ho | ⟨ho, hfresh⟩)
    · by_cases hkey : o.1 ∈ os.map Prod.fst
      · obtain ⟨p, hp, heq⟩ := List.mem_map.1 hkey
        refine .inl ⟨p, hp, ?_⟩
        rw [heq, lookup_of_mem hown ho]
        rfl
      · exact .inr ⟨ho, hkey⟩
    · refine .inl ⟨o, ho, ?_⟩
      rw [lookup_eq_none_iff.2 hfresh]
      rfl

/-- The entries with other keys stay in their order. -/
theorem filter_overriding {P : Text × Value → Bool} (hP : ∀ o, P o → o.1 ∉ own.map Prod.fst)
    (os : List (Text × Value)) : (overriding own os).filter P = os.filter P := by
  have hnew : (own.filter fun o => decide (o.1 ∉ os.map Prod.fst)).filter P = [] := by
    refine List.filter_eq_nil_iff.2 fun o ho h => ?_
    exact hP o h (List.mem_map_of_mem (List.mem_of_mem_filter ho))
  rw [overriding, List.filter_append, hnew, List.append_nil]
  clear hnew
  induction os with
  | nil => rfl
  | cons o os ih =>
    by_cases hfresh : o.1 ∈ own.map Prod.fst
    · have hold : ¬P o := fun h => hP o h hfresh
      have hset : ¬P (o.1, (own.lookup o.1).getD o.2) := fun h => hP _ h hfresh
      rw [List.map_cons, List.filter_cons_of_neg hset, List.filter_cons_of_neg hold, ih]
    · have hsame : (o.1, (own.lookup o.1).getD o.2) = o := by
        rw [lookup_eq_none_iff.2 hfresh]
        rfl
      rw [List.map_cons, hsame, List.filter_cons, List.filter_cons, ih]

/-- One key after the other or all at once. -/
theorem overriding_cons (h : key ∉ own.map Prod.fst) (v : Value) (os : List (Text × Value)) :
    overriding own (overriding [(key, v)] os) = overriding ((key, v) :: own) os := by
  have hvalues (o : Text × Value) : (own.lookup o.1).getD (([(key, v)].lookup o.1).getD o.2) =
      (((key, v) :: own).lookup o.1).getD o.2 := by
    by_cases hkey : o.1 = key
    · rw [hkey, lookup_eq_none_iff.2 h, List.lookup_cons_self, List.lookup_cons_self]
      rfl
    · have hne : (o.1 == key) = false := beq_eq_false_iff_ne.2 hkey
      rw [List.lookup_cons, List.lookup_cons, hne]
      rfl
  have hfront : (os.map fun o => (o.1, ([(key, v)].lookup o.1).getD o.2)).map
      (fun o => (o.1, (own.lookup o.1).getD o.2)) =
        os.map fun o => (o.1, (((key, v) :: own).lookup o.1).getD o.2) := by
    rw [List.map_map]
    exact List.map_congr_left fun o _ => congrArg (Prod.mk o.1) (hvalues o)
  rw [overriding, keys_overriding, overriding, List.map_append, hfront, overriding,
    List.append_assoc]
  refine congrArg _ ?_
  have hnew (o : Text × Value) (ho : o ∈ own) : o.1 ≠ key := by
    rintro rfl
    exact h (List.mem_map_of_mem ho)
  have hrest : (own.filter fun o => decide (o.1 ∉ os.map Prod.fst ++
      ([(key, v)].map Prod.fst).filter fun k => decide (k ∉ os.map Prod.fst))) =
        own.filter fun o => decide (o.1 ∉ os.map Prod.fst) := by
    refine List.filter_congr fun o ho => ?_
    simp [hnew o ho]
  rw [hrest]
  by_cases hkey : key ∈ os.map Prod.fst
  · simp [hkey]
  · simp [hkey, lookup_eq_none_iff.2 h]

/-- Giving values to text keys overrides the entries. -/
theorem foldl_assign_texts (hos : (os.map Prod.fst).Nodup) (hown : (own.map Prod.fst).Nodup) :
    own.foldl (fun es o => assign (.text o.1) o.2 es) (os.map fun o => (.text o.1, o.2)) =
      (overriding own os).map fun o => (.text o.1, o.2) := by
  induction own generalizing os with
  | nil => simp [overriding]
  | cons o own ih =>
    obtain ⟨key, v⟩ := o
    rw [List.map_cons, List.nodup_cons] at hown
    have hone : ([(key, v)].map Prod.fst).Nodup := List.nodup_singleton key
    rw [List.foldl_cons, assign_texts hos, ih (nodup_overriding hos hone) hown.2,
      overriding_cons hown.1]

end CustomElements.Value
