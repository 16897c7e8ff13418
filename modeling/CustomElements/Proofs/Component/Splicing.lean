import CustomElements.Component.Metadata

/-!
# Insertions into a text

Insertions are written one after the other, the last place first, into a text that grows meanwhile.
`woven` is the text in which all of them stand at once: it goes through the old text and puts in
front of each character what belongs at its place. Both are the same (`insertAll_eq_woven`), also
when the work is done on bytes (`ofText?_insertAll`), and taking the insertions out again gives
back the old text (`removeAll_insertAll`).
-/

namespace CustomElements

/-- What is to be written at a place. -/
def writtenAt (p : Nat) (is : List Insertion) : Text :=
  (is.filter fun i => decide (i.offset = p)).flatMap Insertion.text

/-- A text that starts at place `p`, with what is to be written at each of its places. -/
def woven (is : List Insertion) : Nat → Text → Text
  | p, [] => writtenAt p is
  | p, c :: r => writtenAt p is ++ c :: woven is (p + 1) r

theorem writtenAt_append (p : Nat) (is js : List Insertion) :
    writtenAt p (is ++ js) = writtenAt p is ++ writtenAt p js := by
  simp [writtenAt]

theorem writtenAt_eq_nil {p : Nat} {is : List Insertion} (h : ∀ i ∈ is, i.offset ≠ p) :
    writtenAt p is = [] := by
  rw [writtenAt, List.filter_eq_nil_iff.2 (by simpa using h), List.flatMap_nil]

/-- Places that have been passed do not count any more. -/
theorem woven_passed {is : List Insertion} (js : List Insertion) {p : Nat} {s : Text}
    (h : ∀ i ∈ is, i.offset < p) : woven (is ++ js) p s = woven js p s := by
  have hp : writtenAt p is = [] := writtenAt_eq_nil fun i hi => by have := h i hi; omega
  induction s generalizing p with
  | nil => rw [woven, woven, writtenAt_append, hp, List.nil_append]
  | cons c r ih =>
    have h' : ∀ i ∈ is, i.offset < p + 1 := fun i hi => by have := h i hi; omega
    rw [woven, woven, writtenAt_append, hp, List.nil_append,
      ih h' (writtenAt_eq_nil fun i hi => by have := h i hi; omega)]

theorem woven_nil (p : Nat) (s : Text) : woven [] p s = s := by
  induction s generalizing p with
  | nil => rfl
  | cons c r ih => rw [woven, ih]; rfl

/-- Two texts in a row are woven one after the other. -/
theorem woven_append {is js : List Insertion} {p : Nat} {s t : Text}
    (hi : ∀ i ∈ is, i.offset < p + s.length) (hj : ∀ j ∈ js, p + s.length ≤ j.offset) :
    woven (is ++ js) p (s ++ t) = woven is p s ++ woven js (p + s.length) t := by
  induction s generalizing p with
  | nil =>
    have hw : woven is p [] = [] := writtenAt_eq_nil fun i h => by have := hi i h; simp at this; omega
    rw [hw, List.nil_append, List.nil_append, woven_passed js (by simpa using hi)]
    rfl
  | cons c r ih =>
    rw [List.length_cons] at hi hj
    have hnow : writtenAt p js = [] := writtenAt_eq_nil fun j h => by have := hj j h; omega
    rw [List.cons_append, woven, woven, writtenAt_append, hnow, List.append_nil,
      ih (by intro i h; have := hi i h; omega) (by intro j h; have := hj j h; omega),
      List.append_assoc, List.cons_append, List.length_cons, Nat.add_right_comm, Nat.add_assoc]

/-- An insertion before all others can be made last. -/
theorem woven_cons {i : Insertion} {is : List Insertion} {p : Nat} {s : Text}
    (hp : p ≤ i.offset) (hs : i.offset ≤ p + s.length) (hi : ∀ j ∈ is, i.offset ≤ j.offset) :
    woven (i :: is) p s =
      (woven is p s).take (i.offset - p) ++ i.text ++ (woven is p s).drop (i.offset - p) := by
  induction s generalizing p with
  | nil =>
    rw [List.length_nil] at hs
    obtain rfl : i.offset = p := by omega
    simp [woven, writtenAt]
  | cons c r ih =>
    rw [List.length_cons] at hs
    by_cases he : i.offset = p
    · have hpass : woven ([i] ++ is) (p + 1) r = woven is (p + 1) r :=
        woven_passed is (by simp; omega)
      rw [List.singleton_append] at hpass
      rw [woven, woven, hpass, he, Nat.sub_self, List.take_zero, List.drop_zero, List.nil_append]
      simp [writtenAt, he]
    · have hnow : writtenAt p (i :: is) = [] := writtenAt_eq_nil fun j hj => by
        rcases List.mem_cons.1 hj with rfl | hj
        · exact he
        · have := hi j hj; omega
      have hrest : writtenAt p is = [] := writtenAt_eq_nil fun j hj => by have := hi j hj; omega
      obtain ⟨k, hk⟩ : ∃ k, i.offset - p = k + 1 := ⟨i.offset - p - 1, by omega⟩
      have hk' : i.offset - (p + 1) = k := by omega
      rw [woven, woven, hnow, hrest, hk, ih (by omega) (by omega), hk']
      simp

theorem insertAll_cons (i : Insertion) (is : List Insertion) (s : Text) :
    insertAll (i :: is) s =
      (insertAll is s).take i.offset ++ i.text ++ (insertAll is s).drop i.offset := rfl

/-- Writing insertions from the last to the first is writing all of them at once. -/
theorem insertAll_eq_woven {is : List Insertion} {s : Text}
    (hsort : is.Pairwise fun i j => i.offset ≤ j.offset) (hs : ∀ i ∈ is, i.offset ≤ s.length) :
    insertAll is s = woven is 0 s := by
  induction is with
  | nil => rw [woven_nil]; rfl
  | cons i is ih =>
    rw [List.pairwise_cons] at hsort
    have hrest := ih hsort.2 fun j hj => hs j (List.mem_cons_of_mem i hj)
    have hi := hs i List.mem_cons_self
    rw [woven_cons (Nat.zero_le _) (by omega) hsort.1, ← hrest, insertAll_cons, Nat.sub_zero]

/-- The text without the insertions, the first one taken out first. -/
def removeAll (is : List Insertion) (t : Text) : Text :=
  is.foldl (fun t i => t.take i.offset ++ t.drop (i.offset + i.text.length)) t

theorem length_le_insertAll (is : List Insertion) (s : Text) :
    s.length ≤ (insertAll is s).length := by
  induction is with
  | nil => exact Nat.le_refl _
  | cons i is ih =>
    rw [insertAll_cons, List.length_append, List.length_append, List.length_take, List.length_drop]
    omega

theorem removeAll_insertAll {is : List Insertion} {s : Text}
    (hs : ∀ i ∈ is, i.offset ≤ s.length) : removeAll is (insertAll is s) = s := by
  induction is with
  | nil => rfl
  | cons i is ih =>
    have hi := hs i List.mem_cons_self
    have hl := length_le_insertAll is s
    have hout : ((insertAll (i :: is) s).take i.offset ++
        (insertAll (i :: is) s).drop (i.offset + i.text.length)) = insertAll is s := by
      have ht : ((insertAll is s).take i.offset).length = i.offset := by
        rw [List.length_take]
        omega
      rw [insertAll_cons, List.append_assoc, List.take_left' ht, ← List.append_assoc,
        List.drop_left' (by rw [List.length_append, ht]), List.take_append_drop]
    rw [removeAll, List.foldl_cons, hout]
    exact ih fun j hj => hs j (List.mem_cons_of_mem i hj)

/-- Bytes written into bytes at the given places, the last place first. -/
def insertAllBytes (runs : List (Nat × Bytes)) (b : Bytes) : Bytes :=
  runs.foldr (fun r b => b.extract 0 r.1 ++ r.2 ++ b.extract r.1 b.size) b

theorem insertAllBytes_cons (place : Nat) (run : Bytes) (runs : List (Nat × Bytes)) (b : Bytes) :
    insertAllBytes ((place, run) :: runs) b =
      (insertAllBytes runs b).extract 0 place ++ run ++
        (insertAllBytes runs b).extract place (insertAllBytes runs b).size := rfl

/-- The number of bytes before a place in a text. -/
def byteOffset (source : List Char) (place : Nat) : Nat :=
  (Bytes.ofChars (source.take place)).size

theorem Bytes.ofChars_append (cs ds : List Char) :
    ofChars (cs ++ ds) = ofChars cs ++ ofChars ds := List.utf8Encode_append

theorem take_insertAll {is : List Insertion} {s : Text} {k : Nat} (hk : k ≤ s.length)
    (hi : ∀ i ∈ is, k ≤ i.offset) : (insertAll is s).take k = s.take k := by
  induction is with
  | nil => rfl
  | cons i is ih =>
    have hl := length_le_insertAll is s
    have hki := hi i List.mem_cons_self
    rw [insertAll_cons, List.append_assoc, List.take_append_of_le_length, List.take_take, Nat.min_eq_left hki]
    · exact ih fun j hj => hi j (List.mem_cons_of_mem i hj)
    · rw [List.length_take]
      omega

/-- On the encoded text the insertions are the encoded ones at the byte offsets of their places. -/
theorem ofText?_insertAll {is : List Insertion} {source : List Char}
    (hsort : is.Pairwise fun i j => i.offset ≤ j.offset)
    (hs : ∀ i ∈ is, i.offset ≤ source.length)
    (ht : ∀ i ∈ is, ∃ cs, i.text = Text.ofChars cs) :
    Bytes.ofText? (insertAll is (.ofChars source)) = some (insertAllBytes
      (is.map fun i => (byteOffset source i.offset, (Bytes.ofText? i.text).getD ByteArray.empty))
      (.ofChars source)) := by
  have hchars : ∃ cs, insertAll is (Text.ofChars source) = Text.ofChars cs ∧
      Bytes.ofChars cs = insertAllBytes
        (is.map fun i => (byteOffset source i.offset, (Bytes.ofText? i.text).getD ByteArray.empty))
        (.ofChars source) := by
    induction is with
    | nil => exact ⟨source, rfl, rfl⟩
    | cons i is ih =>
      rw [List.pairwise_cons] at hsort
      obtain ⟨cs, hcs, hb⟩ := ih hsort.2 (fun j hj => hs j (List.mem_cons_of_mem i hj))
        fun j hj => ht j (List.mem_cons_of_mem i hj)
      obtain ⟨ds, hds⟩ := ht i List.mem_cons_self
      have hlen : (Text.ofChars source).length = source.length := List.length_map ..
      have hfront : cs.take i.offset = source.take i.offset := by
        have hk := take_insertAll (s := .ofChars source) (k := i.offset)
          (by rw [hlen]; exact hs i List.mem_cons_self) hsort.1
        rw [hcs] at hk
        have hinj := congrArg Text.chars? hk
        rw [Text.ofChars, Text.ofChars, ← List.map_take, ← List.map_take] at hinj
        change (Text.ofChars _).chars? = (Text.ofChars _).chars? at hinj
        rw [Text.chars?_ofChars, Text.chars?_ofChars] at hinj
        exact Option.some.inj hinj
      refine ⟨cs.take i.offset ++ ds ++ cs.drop i.offset, ?_, ?_⟩
      · rw [insertAll_cons, hcs, hds]
        simp [Text.ofChars]
      · have hsplit : Bytes.ofChars cs =
            Bytes.ofChars (cs.take i.offset) ++ Bytes.ofChars (cs.drop i.offset) := by
          rw [← Bytes.ofChars_append, List.take_append_drop]
        have hoff : byteOffset source i.offset = (Bytes.ofChars (cs.take i.offset)).size := by
          rw [byteOffset, hfront]
        rw [List.map_cons, insertAllBytes_cons, ← hb, hoff, hsplit, ByteArray.extract_append_eq_left rfl,
          ByteArray.extract_append_eq_right rfl (by rw [ByteArray.size_append]),
          Bytes.ofChars_append, Bytes.ofChars_append, hds, Bytes.ofText?, Text.chars?_ofChars]
        rfl
  obtain ⟨cs, hcs, hb⟩ := hchars
  rw [hcs, Bytes.ofText?, Text.chars?_ofChars, ← hb]
  rfl

end CustomElements
