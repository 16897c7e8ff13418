import CustomElements.Component.Reference
import CustomElements.Proofs.Text.Splitting
import CustomElements.Proofs.Text.Trimming

/-!
# The forms of a reference

A reference names a class, or a file and a class in it with one number sign between them. Blanks may
stand around each of the names, and so around the whole. Reading trims the whole text before it
looks for number signs and each part after that. A number sign is no blank, so this comes to the
same as trimming the parts alone, and the number signs of the text decide what is read. The text of
a reference that was read, without any blanks, is read as this reference again.
-/

namespace CustomElements

namespace ComponentRef

variable {t u f n file name : Text} {ref : ComponentRef} {m : Mistake}

theorem isBlank_sign : (CodePoint.scalar '#').isBlank = false := by decide

/-! ### Reading by the number signs -/

/-- The number signs of a text: none, one between two parts, or more of them. -/
inductive Signs : Text → Prop where
  | none {t : Text} (h : .scalar '#' ∉ t) : Signs t
  | one {f n : Text} (hf : .scalar '#' ∉ f) (hn : .scalar '#' ∉ n) : Signs (f ++ .scalar '#' :: n)
  | more {t : Text} (h : 2 ≤ t.count (.scalar '#')) : Signs t

theorem two_le_count (f n : Text) : 2 ≤ (f ++ .scalar '#' :: n).count (.scalar '#') ↔
    .scalar '#' ∈ f ∨ .scalar '#' ∈ n := by
  rw [List.count_append, List.count_cons_self, ← List.count_pos_iff, ← List.count_pos_iff]
  omega

theorem signs (t : Text) : Signs t := by
  by_cases h : .scalar '#' ∈ t
  · obtain ⟨f, n, rfl, hf⟩ := List.eq_append_cons_of_mem h
    by_cases hn : .scalar '#' ∈ n
    · exact .more ((two_le_count f n).2 (.inr hn))
    · exact .one hf hn
  · exact .none h

/-- A text with a number sign is not blank. -/
theorem isBlank_of_sign (h : .scalar '#' ∈ t) : t.isBlank = false :=
  Bool.eq_false_iff.2 fun hblank => Text.not_mem_of_isBlank hblank isBlank_sign h

/-- Without a number sign the whole text names the class. -/
theorem parse_bare (h : .scalar '#' ∉ t) :
    parse t = if t.isBlank then .error (.referenceBlank t) else .ok ⟨t.strip, none⟩ := by
  have hstrip : .scalar '#' ∉ t.strip := fun hm =>
    h (((Text.pads_strip t).mem_iff isBlank_sign).2 hm)
  rw [parse, Text.splitOn_of_not_mem hstrip]
  simp only [List.isEmpty_iff, Text.strip_eq_nil]

/-- With one number sign the parts on both sides of it are trimmed. -/
theorem parse_located (hf : .scalar '#' ∉ f) (hn : .scalar '#' ∉ n) :
    parse (f ++ .scalar '#' :: n) =
      if f.isBlank ∨ n.isBlank then .error (.referenceMalformed (f ++ .scalar '#' :: n))
      else .ok ⟨n.strip, some f.strip⟩ := by
  -- the number sign stays, so trimming the whole text trims one end of each part
  have hpf := Text.pads_stripLeft f
  have hpn := Text.pads_stripRight n
  have hleft : .scalar '#' ∉ f.stripLeft := fun hm => hf ((hpf.mem_iff isBlank_sign).2 hm)
  have hright : .scalar '#' ∉ n.stripRight := fun hm => hn ((hpn.mem_iff isBlank_sign).2 hm)
  rw [parse, Text.strip_append isBlank_sign, if_neg (by simp), Text.splitOn_append hleft,
    Text.splitOn_of_not_mem hright]
  dsimp only
  rw [← hpf.isBlank_eq, ← hpn.isBlank_eq, ← hpf.strip_eq, ← hpn.strip_eq]
  simp only [Bool.or_eq_true]

/-- A text with more number signs is no reference. -/
theorem parse_of_more (h : 2 ≤ t.count (.scalar '#')) :
    parse t = .error (.referenceMalformed t) := by
  have hsign : .scalar '#' ∈ t := List.count_pos_iff.1 (by omega)
  have hne : t.strip ≠ [] := fun hnil =>
    absurd (Text.strip_eq_nil.1 hnil) (Bool.eq_false_iff.1 (isBlank_of_sign hsign))
  have hpieces := Text.length_splitOn (.scalar '#') t.strip
  rw [← (Text.pads_strip t).count_eq isBlank_sign] at hpieces
  rw [parse, if_neg (by rwa [List.isEmpty_iff])]
  split
  · next heq =>
    rw [heq, List.length_singleton] at hpieces
    omega
  · next heq =>
    rw [heq, List.length_cons, List.length_singleton] at hpieces
    omega
  · rfl

/-- What is read from parts on two sides of a number sign. -/
theorem parse_located_eq_ok : parse (f ++ .scalar '#' :: n) = .ok ref ↔
    .scalar '#' ∉ f ∧ .scalar '#' ∉ n ∧ f.isBlank = false ∧ n.isBlank = false ∧
      ref = ⟨n.strip, some f.strip⟩ := by
  by_cases hmore : .scalar '#' ∈ f ∨ .scalar '#' ∈ n
  · rw [parse_of_more ((two_le_count f n).2 hmore)]
    exact iff_of_false nofun fun h => hmore.elim h.1 h.2.1
  · obtain ⟨hf, hn⟩ := not_or.1 hmore
    rw [parse_located hf hn]
    split
    · next hblank =>
      refine iff_of_false nofun fun h => ?_
      rw [h.2.2.1, h.2.2.2.1] at hblank
      exact absurd hblank (by decide)
    · next hblank =>
      rw [not_or, Bool.not_eq_true, Bool.not_eq_true] at hblank
      rw [Except.ok.injEq, eq_comm, and_iff_right hf, and_iff_right hn, and_iff_right hblank.1,
        and_iff_right hblank.2]

/-! ### Parts and forms -/

/-- A part of a reference as it is read. -/
structure IsPart (t : Text) : Prop where
  ne_nil : t ≠ []
  noSign : .scalar '#' ∉ t
  isTrimmed : t.IsTrimmed

namespace IsPart

theorem of_strip (hblank : t.isBlank = false) (hsign : .scalar '#' ∉ t) : IsPart t.strip where
  ne_nil hnil := Bool.eq_false_iff.1 hblank (Text.strip_eq_nil.1 hnil)
  noSign hm := hsign (((Text.pads_strip t).mem_iff isBlank_sign).2 hm)
  isTrimmed := Text.isTrimmed_strip t

variable (h : IsPart u) (hpads : t.Pads u)

include h hpads

theorem strip_eq : t.strip = u := Text.strip_eq_iff.2 ⟨h.isTrimmed, hpads⟩

theorem isBlank_eq : t.isBlank = false := Bool.eq_false_iff.2 fun hblank =>
  h.ne_nil ((h.strip_eq hpads).symm.trans (Text.strip_of_isBlank hblank))

theorem not_mem : .scalar '#' ∉ t := fun hm => h.noSign ((hpads.mem_iff isBlank_sign).1 hm)

end IsPart

/-- The texts of a reference: each of its parts with blanks around it, and a number sign between
them if there are two. -/
inductive Form : ComponentRef → Text → Prop where
  | bare {name t : Text} (part : IsPart name) (pads : t.Pads name) : Form ⟨name, none⟩ t
  | located {file name f n : Text} (filePart : IsPart file) (filePads : f.Pads file)
      (part : IsPart name) (pads : n.Pads name) :
      Form ⟨name, some file⟩ (f ++ .scalar '#' :: n)

theorem parse_eq_ok : parse t = .ok ref ↔ Form ref t := by
  constructor
  · intro h
    cases signs t with
    | none hsign =>
      rw [parse_bare hsign] at h
      split at h
      · cases h
      · next hblank =>
        obtain rfl := Except.ok.inj h
        exact .bare (.of_strip (Bool.eq_false_iff.2 hblank) hsign) (Text.pads_strip t)
    | @one f n hf hn =>
      obtain ⟨-, -, hfile, hname, rfl⟩ := parse_located_eq_ok.1 h
      exact .located (.of_strip hfile hf) (Text.pads_strip f) (.of_strip hname hn)
        (Text.pads_strip n)
    | more hmore =>
      rw [parse_of_more hmore] at h
      cases h
  · intro h
    cases h with
    | bare part pads =>
      rw [parse_bare (part.not_mem pads), part.isBlank_eq pads, if_neg Bool.false_ne_true,
        part.strip_eq pads]
    | located filePart filePads part pads =>
      refine parse_located_eq_ok.2 ⟨filePart.not_mem filePads, part.not_mem pads,
        filePart.isBlank_eq filePads, part.isBlank_eq pads, ?_⟩
      rw [filePart.strip_eq filePads, part.strip_eq pads]

/-! ### Which texts are references -/

/-- The texts that are references: not blank, and with no number sign, or with one that has
something else than blanks on both of its sides. -/
def IsReference (t : Text) : Prop :=
  t.isBlank = false ∧ (.scalar '#' ∉ t ∨ ∃ file name : Text, t = file ++ .scalar '#' :: name ∧
    .scalar '#' ∉ file ∧ .scalar '#' ∉ name ∧ file.isBlank = false ∧ name.isBlank = false)

theorem exists_parse_eq_ok : (∃ ref, parse t = .ok ref) ↔ IsReference t := by
  simp only [parse_eq_ok]
  constructor
  · rintro ⟨ref, h⟩
    cases h with
    | bare part pads => exact ⟨part.isBlank_eq pads, .inl (part.not_mem pads)⟩
    | located filePart filePads part pads =>
      refine ⟨isBlank_of_sign (by simp), .inr ⟨_, _, rfl, ?_⟩⟩
      exact ⟨filePart.not_mem filePads, part.not_mem pads, filePart.isBlank_eq filePads,
        part.isBlank_eq pads⟩
  · rintro ⟨hblank, hsign | ⟨file, name, rfl, hf, hn, hfile, hname⟩⟩
    · exact ⟨_, .bare (.of_strip hblank hsign) (Text.pads_strip t)⟩
    · exact ⟨_, .located (.of_strip hfile hf) (Text.pads_strip file) (.of_strip hname hn)
        (Text.pads_strip name)⟩

/-- The mistake tells the whole text, and whether it was blank. -/
theorem mistake_of_parse (h : parse t = .error m) :
    m = if t.isBlank then .referenceBlank t else .referenceMalformed t := by
  cases signs t with
  | none hsign =>
    rw [parse_bare hsign] at h
    split at h
    · next hblank => rw [if_pos hblank, Except.error.inj h]
    · cases h
  | one hf hn =>
    rw [parse_located hf hn] at h
    split at h
    · rw [isBlank_of_sign (by simp), if_neg Bool.false_ne_true, Except.error.inj h]
    · cases h
  | more hmore =>
    have hsign := List.count_pos_iff.1 (Nat.zero_lt_of_lt hmore)
    rw [parse_of_more hmore] at h
    rw [isBlank_of_sign hsign, if_neg Bool.false_ne_true, Except.error.inj h]

theorem parse_eq_error : parse t = .error m ↔
    ¬IsReference t ∧ m = if t.isBlank then .referenceBlank t else .referenceMalformed t := by
  constructor
  · intro h
    refine ⟨fun href => ?_, mistake_of_parse h⟩
    obtain ⟨ref, hok⟩ := exists_parse_eq_ok.2 href
    rw [h] at hok
    cases hok
  · rintro ⟨hno, rfl⟩
    cases h : parse t with
    | ok ref => exact absurd (exists_parse_eq_ok.1 ⟨ref, h⟩) hno
    | error m => rw [mistake_of_parse h]

/-! ### Blanks that do not count -/

/-- Blanks around the whole text do not change what is read. -/
theorem parse_of_pads (h : t.Pads u) : parse t = .ok ref ↔ parse u = .ok ref := by
  rw [parse, parse, h.strip_eq]
  split
  · exact iff_of_false nofun nofun
  · split
    · rfl
    · split
      · exact iff_of_false nofun nofun
      · rfl
    · exact iff_of_false nofun nofun

/-- Blanks around each part do not change what is read. -/
theorem parse_of_pads_parts (hf : f.Pads file) (hn : n.Pads name) :
    parse (f ++ .scalar '#' :: n) = .ok ref ↔ parse (file ++ .scalar '#' :: name) = .ok ref := by
  rw [parse_located_eq_ok, parse_located_eq_ok, hf.mem_iff isBlank_sign, hn.mem_iff isBlank_sign,
    hf.isBlank_eq, hn.isBlank_eq, hf.strip_eq, hn.strip_eq]

/-! ### Texts -/

/-- The text of a reference, without any blanks around its parts. -/
def text (ref : ComponentRef) : Text :=
  match ref.file with
  | some file => file ++ .scalar '#' :: ref.className
  | none => ref.className

theorem Form.of_text (h : Form ref t) : Form ref ref.text := by
  cases h with
  | bare part _ => exact .bare part (.refl _)
  | located filePart _ part _ => exact .located filePart (.refl _) part (.refl _)

theorem Form.isPart (h : Form ref t) : IsPart ref.className ∧ ∀ file ∈ ref.file, IsPart file := by
  cases h with
  | bare part _ => exact ⟨part, nofun⟩
  | located filePart _ part _ =>
    refine ⟨part, fun file hfile => ?_⟩
    obtain rfl := Option.some.inj hfile
    exact filePart

end ComponentRef

open ComponentRef

/--
A text is read as a reference exactly if it has one of the forms of this reference. It has such a
form exactly if it is not blank and holds no number sign, or one with something else than blanks on
both sides; for any other text the mistake tells the text. The class and the file that are read are
not empty, hold no number sign, and have no blanks at their ends. Blanks around the whole text or
around each of its parts do not change what is read, and the text of what was read is read as the
same reference again.
-/
theorem reference_grammar :
    (∀ t ref, parse t = .ok ref ↔ Form ref t) ∧
    (∀ t, (∃ ref, parse t = .ok ref) ↔ IsReference t) ∧
    (∀ t m, parse t = .error m ↔
      ¬IsReference t ∧ m = if t.isBlank then .referenceBlank t else .referenceMalformed t) ∧
    (∀ t ref, parse t = .ok ref → IsPart ref.className ∧ ∀ file ∈ ref.file, IsPart file) ∧
    (∀ t u ref, Text.Pads t u → (parse t = .ok ref ↔ parse u = .ok ref)) ∧
    (∀ f file n name ref, Text.Pads f file → Text.Pads n name →
      (parse (f ++ .scalar '#' :: n) = .ok ref ↔
        parse (file ++ .scalar '#' :: name) = .ok ref)) ∧
    ∀ t ref, parse t = .ok ref → parse ref.text = .ok ref := by
  refine ⟨fun t ref => parse_eq_ok, fun t => exists_parse_eq_ok, fun t m => parse_eq_error,
    fun t ref h => (parse_eq_ok.1 h).isPart, fun t u ref => parse_of_pads,
    fun f file n name ref => parse_of_pads_parts, fun t ref h => ?_⟩
  exact parse_eq_ok.2 (parse_eq_ok.1 h).of_text

/-- A reference with blanks of several kinds around the whole and around both parts. -/
def spacedReference : Text := "\u3000 src/a b.ts\t\u00a0#\u2003Card\r\n"

theorem reference_grammar_spacedReference :
    IsPart "Card" ∧ IsPart "src/a b.ts" ∧
      parse spacedReference = .ok ⟨"Card", some "src/a b.ts"⟩ ∧
      parse "src/a b.ts#Card" = .ok ⟨"Card", some "src/a b.ts"⟩ := by
  obtain ⟨-, -, -, hpart, hwhole, hparts, htext⟩ := reference_grammar
  have hread : parse spacedReference = .ok ⟨"Card", some "src/a b.ts"⟩ := by
    refine (hwhole _ "src/a b.ts\t\u00a0#\u2003Card" _ ⟨"\u3000 ", "\r\n", ?_, ?_, ?_⟩).2 ?_
    · rfl
    · rfl
    · rfl
    · exact (hparts "src/a b.ts\t\u00a0" "src/a b.ts" "\u2003Card" "Card" _
        ⟨[], "\t\u00a0", rfl, rfl, rfl⟩ ⟨"\u2003", [], rfl, rfl, rfl⟩).2 rfl
  obtain ⟨hclass, hfile⟩ := hpart _ _ hread
  exact ⟨hclass, hfile _ rfl, hread, htext _ _ hread⟩

end CustomElements
