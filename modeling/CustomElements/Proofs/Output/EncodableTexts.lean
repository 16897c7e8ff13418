import CustomElements.Output.Declarations
import CustomElements.Output.Manifest
import CustomElements.Output.Registration
import CustomElements.Proofs.Json.Quoting
import CustomElements.Proofs.Text.Encodable

/-!
# Which artifacts have an encoding

JSON texts and registration modules always have an encoding, since all texts in them are quoted. In
the type declarations names and types stand as they are, so a surrogate in one of them keeps the
declarations from being written, wherever its component stands in the list.
-/

namespace CustomElements

open Text

namespace Json

@[simp] theorem isEncodable_quote (t : Text) : (quote t).IsEncodable := by
  intro p hp
  cases p with
  | scalar c => rfl
  | surrogate k =>
    have hprintable : _ ∧ 0xD800 + k.val ≤ 0x7E := quote_printable t _ hp
    omega

@[simp] theorem isEncodable_toText (x : Binary64) : x.toText.IsEncodable := by
  have hif (b : Prop) [Decidable b] {s t : Text} (hs : s.IsEncodable) (ht : t.IsEncodable) :
      IsEncodable (if b then s else t) := by
    split
    · exact hs
    · exact ht
  unfold Binary64.toText
  dsimp only
  split
  · simp
  · have hsign : IsEncodable (if x.isNegative then "-" else []) := hif _ (by simp) (by simp)
    split
    · simp [hsign]
    · split
      · simp [hsign]
      · split
        · split
          · simp [hsign]
          · split <;> simp [hsign]
        · simp only [isEncodable_append, hsign, isEncodable_ofChars, and_true, true_and]
          exact ⟨hif _ (by simp) (by simp), hif _ (by simp) (by simp)⟩

@[simp] theorem isEncodable_floatText (x : Binary64) : (floatText x).IsEncodable := by
  unfold floatText
  split
  · simp
  · split
    · split <;> simp
    · simp

/-- What stands between values has an encoding. -/
structure Layout.IsEncodable (l : Layout) : Prop where
  item : l.item.IsEncodable
  key : l.key.IsEncodable

theorem Layout.isEncodable_indented : Layout.indented.IsEncodable := by
  exact ⟨isEncodable_ofString _, isEncodable_ofString _⟩

@[simp] theorem isEncodable_newLine (l : Layout) (level : Nat) :
    (l.newLine level).IsEncodable := by
  unfold Layout.newLine
  split
  · refine isEncodable_cons.2 ⟨rfl, fun p hp => ?_⟩
    rw [List.eq_of_mem_replicate hp]
    rfl
  · exact isEncodable_nil

@[simp] theorem isEncodable_ofInt (n : Int) : (Text.ofInt n).IsEncodable := by
  cases n with
  | ofNat n => exact isEncodable_ofChars _
  | negSucc n => exact isEncodable_cons.2 ⟨rfl, isEncodable_ofChars _⟩

variable {l : Layout}

mutual

theorem isEncodable_renderAt (hl : l.IsEncodable) (level : Nat) (v : Json) :
    (renderAt l level v).IsEncodable := by
  cases v with
  | null => simp [renderAt]
  | bool b => cases b <;> simp [renderAt]
  | int n => simp [renderAt]
  | float x => simp [renderAt]
  | string t => simp [renderAt]
  | array vs =>
    cases vs with
    | nil => simp [renderAt]
    | cons v vs => simp [renderAt, isEncodable_renderAt hl _ v, isEncodable_renderItems hl _ vs]
  | object ms =>
    cases ms with
    | nil => simp [renderAt]
    | cons m ms =>
      simp [renderAt, hl.key, isEncodable_renderAt hl _ m.2, isEncodable_renderMembers hl _ ms]

theorem isEncodable_renderItems (hl : l.IsEncodable) (level : Nat) (vs : List Json) :
    (renderItems l level vs).IsEncodable := by
  cases vs with
  | nil => simp [renderItems]
  | cons v vs =>
    simp [renderItems, hl.item, isEncodable_renderAt hl _ v, isEncodable_renderItems hl _ vs]

theorem isEncodable_renderMembers (hl : l.IsEncodable) (level : Nat) (ms : List (Text × Json)) :
    (renderMembers l level ms).IsEncodable := by
  cases ms with
  | nil => simp [renderMembers]
  | cons m ms =>
    simp [renderMembers, hl.item, hl.key, isEncodable_renderAt hl _ m.2,
      isEncodable_renderMembers hl _ ms]

end

end Json

theorem isEncodable_manifestText (root : Option Path) (cs : List Component) :
    (manifestText root cs).IsEncodable := by
  refine isEncodable_append.2 ⟨?_, isEncodable_ofString _⟩
  exact Json.isEncodable_renderAt Json.Layout.isEncodable_indented 0 _

section Registration

theorem isEncodable_importLines (inlined : Bool) (index : Nat) (c : Component) (specifier : Text) :
    ∀ l ∈ importLines inlined index c specifier, l.IsEncodable := by
  unfold importLines Text.ofNat
  split <;> simp

theorem isEncodable_definitionLine (inlined : Bool) (index : Nat) (c : Component) :
    (definitionLine inlined index c).IsEncodable := by
  unfold definitionLine Text.ofNat
  split <;> simp

/-- All lines but those of the components are the same in every module of a kind. -/
theorem isEncodable_registrationLines {imports definitions : List Text}
    (hi : ∀ l ∈ imports, l.IsEncodable) (hd : ∀ l ∈ definitions, l.IsEncodable)
    (settings : RegistrationSettings) :
    ∀ l ∈ registrationLines imports definitions settings, l.IsEncodable := by
  have hhead : ∀ l ∈ headLines, l.IsEncodable := by simp [headLines]
  have hlist : ∀ l : Text, l ∈ [[], ("const elementDefinitions = [" : Text)] → l.IsEncodable := by
    simp
  have hloop : ∀ l ∈ loopLines, l.IsEncodable := by simp [loopLines]
  have hdefine : ∀ l ∈ defineLines, l.IsEncodable := by simp [defineLines]
  have hresolve : ∀ l ∈ resolveLines settings.inlineComponents, l.IsEncodable := by
    unfold resolveLines
    split <;> simp
  have hlast : ∀ l ∈ (if settings.mode = .browser then selfRegistrationLines else []),
      l.IsEncodable := by
    split
    · simp [selfRegistrationLines, readyVariable]
    · exact List.forall_mem_nil _
  unfold registrationLines
  simp only [List.forall_mem_append]
  exact ⟨⟨⟨⟨⟨⟨⟨hhead, hi⟩, hlist⟩, hd⟩, hloop⟩, hresolve⟩, hdefine⟩, hlast⟩

theorem isEncodable_registrationModule (current : Path) (settings : RegistrationSettings)
    (cs : List Component) : (registrationModule current settings cs).IsEncodable := by
  unfold registrationModule
  refine isEncodable_flatMap.2 fun l hl => isEncodable_append.2 ⟨?_, isEncodable_ofString _⟩
  refine isEncodable_registrationLines (fun line hline => ?_) (fun line hline => ?_) settings l hl
  · obtain ⟨lines, hlines, hline⟩ := List.mem_flatten.1 hline
    obtain ⟨c, -, rfl⟩ := List.mem_map.1 hlines
    exact isEncodable_importLines _ _ _ _ line hline
  · obtain ⟨c, -, rfl⟩ := List.mem_map.1 hline
    exact isEncodable_definitionLine _ _ _

end Registration

theorem isEncodable_typeDeclarations {cs : List Component} :
    (typeDeclarations cs).IsEncodable ↔
      ∀ c ∈ cs, ∀ l ∈ declarationLines c, l.IsEncodable := by
  unfold typeDeclarations
  rw [isEncodable_join (isEncodable_ofString _), List.forall_mem_append, and_iff_right (by simp)]
  simp only [List.mem_flatMap]
  constructor
  · exact fun h c hc l hl => h l ⟨c, hc, hl⟩
  · rintro h l ⟨c, hc, hl⟩
    exact h c hc l hl

end CustomElements
