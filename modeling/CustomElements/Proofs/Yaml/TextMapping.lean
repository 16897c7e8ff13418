import CustomElements.Proofs.Answers
import CustomElements.Yaml.Document

/-!
# Mappings of texts

A node whose tag is that of a text is the text that it holds, and a mapping of such nodes without
merges is the mapping of their texts, in the order of the document. A key that is a lone equals sign
counts as a text.
-/

namespace CustomElements.Yaml.Node

variable {fuel : Nat} {deep : Bool} {opened : List Text} {n k : Node} {t : Text} {v : Value}

/-- A node that stands for a text. -/
structure Holds (n : Node) (t : Text) : Prop where
  tag : n.tag = .text
  text : n.scalarText? = some t

/-- The value of a text is the text. -/
theorem Holds.value (h : n.Holds t) (hv : valueAt fuel deep opened n = .ok v) : v = .text t := by
  obtain ⟨htag, htext⟩ := h
  cases fuel with
  | zero => cases hv
  | succ fuel =>
    have hok : (do return Value.text (← orMalformed n.scalarText?)) = Except.ok v := by
      cases n with
      | loop a => cases htag
      | _ =>
        obtain rfl := htag
        exact hv
    rw [htext] at hok
    exact (Except.ok.inj hok).symm

/-- The value of a mapping is made from the values of its entries. -/
theorem valueAt_mapping {a : Option Text} {es : List (Node × Node)}
    (hv : valueAt fuel deep opened (mapping .mapping a es) = .ok v) :
    ∃ fuel' entries pairs, flatten es = .ok entries ∧
      List.Forall₂ (fun e p => valueAt fuel' true opened e.1 = .ok p.1 ∧
        valueAt fuel' true opened e.2 = .ok p.2) entries pairs ∧ v = .ofPairs pairs := by
  cases fuel with
  | zero => cases hv
  | succ fuel =>
    obtain ⟨entries, hentries, hrest⟩ := exceptBind_eq_ok.1 hv
    obtain ⟨pairs, hpairs, hend⟩ := exceptBind_eq_ok.1 hrest
    refine ⟨fuel, entries, pairs, hentries, (exceptMapM_eq_ok.1 hpairs).imp ?_, ?_⟩
    · intro e p hp
      obtain ⟨key, hkey, hp⟩ := exceptBind_eq_ok.1 hp
      obtain ⟨value, hvalue, hp⟩ := exceptBind_eq_ok.1 hp
      obtain rfl := Except.ok.inj hp
      exact ⟨hkey, hvalue⟩
    · split at hend
      · exact (Except.ok.inj hend).symm
      · cases hend

/-- A mapping that merges nothing has its own entries only. -/
theorem flatten_of_no_merge {es : List (Node × Node)} (h : ∀ e ∈ es, e.1.tag ≠ .merge) :
    flatten es = .ok (es.map fun e => (e.1.asKey, e.2)) := by
  have hsplit : split es = .ok ([], es.map fun e => (e.1.asKey, e.2)) := by
    induction es with
    | nil => rfl
    | cons e es ih =>
      rw [List.forall_mem_cons] at h
      rw [split, ih h.2]
      exact if_neg h.1
  rw [flatten, hsplit]
  rfl

/-- A key that is a text merges nothing. -/
theorem tag_ne_merge (h : k.asKey.Holds t) : k.tag ≠ .merge := by
  intro hmerge
  have htag := h.tag
  have hkey : k.asKey = k := if_pos (by rw [hmerge]; decide)
  rw [hkey, hmerge] at htag
  cases htag

/-- The entry of a mapping with a text as its key and one as its value. -/
def EntryHolds (e : Node × Node) (p : Text × Text) : Prop := e.1.asKey.Holds p.1 ∧ e.2.Holds p.2

section Texts

variable {es : List (Node × Node)} {texts : List (Text × Text)}

/-- A mapping of texts has its own entries only. -/
theorem flatten_of_texts (h : List.Forall₂ EntryHolds es texts) :
    flatten es = .ok (es.map fun e => (e.1.asKey, e.2)) := by
  refine flatten_of_no_merge fun e he => ?_
  induction h with
  | nil => cases he
  | cons hentry _ ih =>
    rcases List.mem_cons.1 he with rfl | he
    · exact tag_ne_merge hentry.1
    · exact ih he

/-- The values of the entries are the texts. -/
theorem pairs_of_texts (h : List.Forall₂ EntryHolds es texts) {pairs : List (Value × Value)}
    (hpairs : List.Forall₂ (fun e p => valueAt fuel deep opened e.1 = .ok p.1 ∧
      valueAt fuel deep opened e.2 = .ok p.2) (es.map fun e => (e.1.asKey, e.2)) pairs) :
    pairs = texts.map fun p => (.text p.1, .text p.2) := by
  induction h generalizing pairs with
  | nil => exact List.forall₂_nil_left_iff.1 hpairs
  | cons hentry _ ih =>
    obtain ⟨p, rest, ⟨hkey, hvalue⟩, hrest, rfl⟩ := List.forall₂_cons_left_iff.1 hpairs
    rw [List.map_cons, ← ih hrest, ← hentry.1.value hkey, ← hentry.2.value hvalue]

/-- A mapping of texts has the value that its texts tell, in their order. -/
theorem value_of_texts {a : Option Text} (h : List.Forall₂ EntryHolds es texts)
    (hv : valueAt fuel deep opened (mapping .mapping a es) = .ok v) :
    v = .ofPairs (texts.map fun p => (.text p.1, .text p.2)) := by
  obtain ⟨fuel', entries, pairs, hflat, hpairs, rfl⟩ := valueAt_mapping hv
  rw [flatten_of_texts h] at hflat
  obtain rfl := Except.ok.inj hflat
  rw [pairs_of_texts h hpairs]

end Texts

/-- In the value of a mapping, what is under a text key is the value of the node that is. -/
theorem mem_of_valueAt {entries : List (Node × Node)} {pairs : List (Value × Value)}
    (h : List.Forall₂ (fun e p => valueAt fuel deep opened e.1 = .ok p.1 ∧
      valueAt fuel deep opened e.2 = .ok p.2) entries pairs)
    (hm : (k, n) ∈ entries) (hk : k.Holds t) :
    ∃ v, valueAt fuel deep opened n = .ok v ∧ (.text t, v) ∈ pairs := by
  induction h with
  | nil => cases hm
  | @cons e p _ _ hvalues _ ih =>
    rcases List.mem_cons.1 hm with rfl | hrest
    · refine ⟨p.2, hvalues.2, ?_⟩
      rw [← hk.value hvalues.1]
      exact List.mem_cons_self
    · obtain ⟨v, hv, hmem⟩ := ih hrest
      exact ⟨v, hv, List.mem_cons_of_mem _ hmem⟩

end CustomElements.Yaml.Node
