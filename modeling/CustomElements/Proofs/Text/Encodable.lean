import CustomElements.Files.Encoding
import CustomElements.Proofs.Text.Splitting

/-!
# Texts that have an encoding

A text can be written exactly if each of its code points is a character. Whether it can is told by
its pieces, in whatever order these stand.
-/

namespace CustomElements.Text

/-- A text of characters. -/
def IsEncodable (t : Text) : Prop := ∀ p ∈ t, p.char?.isSome

instance (t : Text) : Decidable t.IsEncodable := inferInstanceAs (Decidable (∀ p ∈ t, _))

@[simp] theorem isEncodable_ofChars (cs : List Char) : (ofChars cs).IsEncodable := by
  intro p hp
  obtain ⟨c, -, rfl⟩ := List.mem_map.1 hp
  rfl

@[simp] theorem isEncodable_ofString (s : String) : (s : Text).IsEncodable := isEncodable_ofChars _

@[simp] theorem isEncodable_nil : IsEncodable [] := List.forall_mem_nil _

@[simp] theorem isEncodable_cons {p : CodePoint} {t : Text} :
    IsEncodable (p :: t) ↔ p.char?.isSome ∧ t.IsEncodable := List.forall_mem_cons

@[simp] theorem isEncodable_append {s t : Text} :
    (s ++ t).IsEncodable ↔ s.IsEncodable ∧ t.IsEncodable := List.forall_mem_append

@[simp] theorem isEncodable_flatMap {α : Type} {f : α → Text} {xs : List α} :
    IsEncodable (xs.flatMap f) ↔ ∀ x ∈ xs, (f x).IsEncodable := by
  constructor
  · intro h x hx p hp
    exact h p (List.mem_flatMap.2 ⟨x, hx, hp⟩)
  · intro h p hp
    obtain ⟨x, hx, hp⟩ := List.mem_flatMap.1 hp
    exact h x hx p hp

/-- Between pieces there may be any text that has an encoding itself. -/
theorem isEncodable_join {sep : Text} (hsep : sep.IsEncodable) {pieces : List Text} :
    (join sep pieces).IsEncodable ↔ ∀ t ∈ pieces, t.IsEncodable := by
  constructor
  · intro h t ht p hp
    exact h p (subset_join ht hp)
  · intro h
    induction pieces with
    | nil => exact isEncodable_nil
    | cons t pieces ih =>
      rw [List.forall_mem_cons] at h
      cases pieces with
      | nil => exact h.1
      | cons s pieces =>
        rw [join_cons_of_ne_nil (List.cons_ne_nil s pieces), isEncodable_append,
          isEncodable_append]
        exact ⟨⟨h.1, hsep⟩, ih h.2⟩

theorem isEncodable_iff_chars? {t : Text} : t.IsEncodable ↔ t.chars?.isSome := by
  induction t with
  | nil => exact iff_of_true isEncodable_nil rfl
  | cons p t ih =>
    rw [isEncodable_cons, ih]
    cases p with
    | scalar c =>
      rw [chars?, Option.isSome_map]
      exact and_iff_right rfl
    | surrogate k => exact iff_of_false (fun h => Bool.false_ne_true h.1) Bool.false_ne_true

theorem isEncodable_iff_ofText? {t : Text} : t.IsEncodable ↔ (Bytes.ofText? t).isSome := by
  rw [Bytes.ofText?, Option.isSome_map, isEncodable_iff_chars?]

end CustomElements.Text
