import CustomElements.Files.Encoding
import CustomElements.Output.Declarations
import CustomElements.Output.Manifest
import CustomElements.Proofs.Output.RegistrationModule

/-!
# The tags in the outputs

The manifest tells the tag of each declaration, and the registration module has a line for each
element that begins with its tag. Both give back the tags of the components in their order. The
units of a string literal tell texts of characters apart, and only such texts get into the type
declarations, so different tags stay different.
-/

namespace CustomElements

section Manifest

/-- The values of an array; other values have none. -/
def Json.items : Json → List Json
  | .array vs => vs
  | _ => []

/-- The values of the array that a member is. -/
def Json.itemsOf (key : Text) (v : Json) : List Json := ((v.member? key).map Json.items).getD []

def Json.text? : Json → Option Text
  | .string t => some t
  | _ => none

/-- The tags that the declarations of a manifest tell, module by module. -/
def manifestTags (v : Json) : List Text :=
  ((v.itemsOf "modules").flatMap (Json.itemsOf "declarations")).filterMap fun d =>
    (d.member? "tagName").bind Json.text?

theorem manifestTags_manifest (root : Option Path) (cs : List Component) :
    manifestTags (manifest root cs) = cs.map Component.tag := by
  have hmodules : (manifest root cs).itemsOf "modules" = cs.map (manifestModule root) := rfl
  have hdeclarations : ∀ c, ((manifestModule root c).itemsOf "declarations").filterMap
      (fun d => (d.member? "tagName").bind Json.text?) = [c.tag] := fun _ => rfl
  rw [manifestTags, hmodules, List.flatMap_map, List.filterMap_flatMap, List.map_eq_flatMap]
  exact congrArg (fun f => List.flatMap f cs) (funext hdeclarations)

end Manifest

section Registration

open Segment Registration

/-- What stands before the tag in the line that defines an element. -/
def definitionLead : Text := "  \x7b tag: "

/-- The tag that a line defines, in units, if it is a line that defines an element. -/
def definedTag? (line : Text) : Option (List Nat) :=
  match read line with
  | some (.code lead :: .literal units :: _) => if lead = definitionLead then some units else none
  | _ => none

/-- The tags that the lines of a module define. -/
def definedTags (source : Text) : List (List Nat) :=
  (Text.splitOn '\n' source).filterMap definedTag?

/-- The code before the first literal is what the line begins with. -/
theorem prefix_of_readFrom {fuel : Nat} {line lead : Text} {segments : List Segment}
    (h : readFrom fuel line = some (.code lead :: segments)) : lead <+: line := by
  cases fuel with
  | zero => cases h
  | succ fuel =>
    rw [readFrom] at h
    split at h
    · cases h
      exact List.takeWhile_prefix _
    · simp only [Option.bind_eq_bind, Option.bind_eq_some_iff] at h
      obtain ⟨_, -, _, -, h⟩ := h
      cases h
      exact List.takeWhile_prefix _

theorem definedTag?_eq_none {line : Text} (h : ¬definitionLead <+: line) :
    definedTag? line = none := by
  unfold definedTag?
  split
  · next lead units rest hread =>
    refine if_neg ?_
    rintro rfl
    exact h (prefix_of_readFrom hread)
  · rfl

theorem definedTag?_definitionLine (inlined : Bool) (i : Nat) (c : Component) :
    definedTag? (definitionLine inlined i c) = some c.tag.units := by
  rw [definedTag?, read_definitionLine]
  cases inlined <;> exact if_pos rfl

/-- A line with another first character defines no tag. -/
theorem definedTag?_append_eq_none {t : Text} (hne : t ≠ [])
    (h : definitionLead.head? ≠ t.head?) (r : Text) : definedTag? (t ++ r) = none := by
  refine definedTag?_eq_none ?_
  rintro ⟨u, hu⟩
  have hlead : definitionLead ≠ [] := by decide
  have hhead := congrArg List.head? hu
  rw [List.head?_append_of_ne_nil _ hlead, List.head?_append_of_ne_nil _ hne] at hhead
  exact h hhead

theorem definedTag?_importLines (inlined : Bool) (i : Nat) (c : Component) (specifier : Text) :
    ∀ l ∈ importLines inlined i c specifier, definedTag? l = none := by
  intro l hl
  unfold importLines at hl
  cases inlined with
  | true =>
    simp only [if_true, List.mem_cons, List.not_mem_nil, or_false, List.append_assoc] at hl
    rcases hl with rfl | rfl <;> exact definedTag?_append_eq_none (by decide) (by decide) _
  | false =>
    simp only [Bool.false_eq_true, if_false, List.mem_singleton, List.append_assoc] at hl
    subst hl
    exact definedTag?_append_eq_none (by decide) (by decide) _

/-- The lines that are there without any component. -/
def commonBlocks : List (List Text) :=
  [headLines, betweenLines, loopLines, resolveLines true, resolveLines false, defineLines,
    selfRegistrationLines, [[]]]

theorem filterMap_commonBlocks : ∀ lines ∈ commonBlocks, lines.filterMap definedTag? = [] := by
  have hlead : ∀ lines ∈ commonBlocks, ∀ l ∈ lines, ¬definitionLead <+: l := by decide +kernel
  intro lines hlines
  rw [List.filterMap_eq_nil_iff]
  exact fun l hl => definedTag?_eq_none (hlead lines hlines l hl)

theorem filterMap_closingLines (mode : RegistrationMode) (inlined : Bool) :
    (closingLines mode inlined).filterMap definedTag? = [] := by
  have hloop := filterMap_commonBlocks loopLines (by simp [commonBlocks])
  have hdefine := filterMap_commonBlocks defineLines (by simp [commonBlocks])
  have hself := filterMap_commonBlocks selfRegistrationLines (by simp [commonBlocks])
  have hresolve : (resolveLines inlined).filterMap definedTag? = [] :=
    filterMap_commonBlocks _ (by cases inlined <;> simp [commonBlocks])
  have hlast : (if mode = .browser then selfRegistrationLines else []).filterMap definedTag? =
      [] := by
    cases mode with
    | module => rw [if_neg RegistrationMode.noConfusion, List.filterMap_nil]
    | browser => rw [if_pos rfl, hself]
  rw [closingLines]
  simp only [List.filterMap_append, hloop, hresolve, hdefine, hlast, List.append_nil]

/-- The module defines the tags of the components, in their order. -/
theorem definedTags_registrationModule (current : Path) (settings : RegistrationSettings)
    (cs : List Component) :
    definedTags (registrationModule current settings cs) = cs.map fun c => c.tag.units := by
  have himports : (importBlocks current settings cs).flatten.filterMap definedTag? = [] := by
    rw [List.filterMap_eq_nil_iff]
    intro l hl
    obtain ⟨block, hb, hl⟩ := List.mem_flatten.1 hl
    obtain ⟨x, -, rfl⟩ := List.mem_map.1 hb
    exact definedTag?_importLines _ _ _ _ l hl
  have hdefinitions : (definitionLines settings cs).filterMap definedTag? =
      cs.map fun c => c.tag.units := by
    rw [definitionLines, List.filterMap_map]
    have hline : (definedTag? ∘ fun x : Component × Nat =>
        definitionLine settings.inlineComponents x.2 x.1) =
          some ∘ (fun c : Component => c.tag.units) ∘ Prod.fst :=
      funext fun x => definedTag?_definitionLine _ x.2 x.1
    rw [hline, List.filterMap_eq_map, ← List.map_map, List.zipIdx_map_fst]
  have hhead := filterMap_commonBlocks headLines (by simp [commonBlocks])
  have hbetween := filterMap_commonBlocks betweenLines (by simp [commonBlocks])
  have hlast := filterMap_commonBlocks [[]] (by simp [commonBlocks])
  rw [definedTags, lines_registrationModule]
  simp only [List.filterMap_append, hhead, himports, hbetween, hdefinitions,
    filterMap_closingLines, hlast, List.nil_append, List.append_nil]

end Registration

section Characters

/-- Characters with the same units are the same. -/
theorem units_append_inj {c d : Char} {s t : List Nat}
    (h : (CodePoint.scalar c).units ++ s = (CodePoint.scalar d).units ++ t) : c = d ∧ s = t := by
  have hc : Nat.isValidChar c.toNat := c.valid
  have hd : Nat.isValidChar d.toNat := d.valid
  unfold Nat.isValidChar at hc hd
  have hvalue : c.toNat = d.toNat ∧ s = t := by
    unfold CodePoint.units at h
    change (if c.toNat < 0x10000 then _ else _) ++ s = (if d.toNat < 0x10000 then _ else _) ++ t at h
    split at h <;> split at h <;>
      simp only [List.cons_append, List.nil_append, List.cons.injEq, CodePoint.val] at h
    · exact h
    · omega
    · omega
    · exact ⟨by omega, h.2.2⟩
  exact ⟨Char.ext (UInt32.toNat.inj hvalue.1), hvalue.2⟩

theorem units_ne_nil (p : CodePoint) (us : List Nat) : p.units ++ us ≠ [] := by
  unfold CodePoint.units
  split <;> exact List.cons_ne_nil _ _

/-- Texts of characters with the same units are the same. -/
theorem units_ofChars_injective {cs ds : List Char}
    (h : (Text.ofChars cs).units = (Text.ofChars ds).units) : cs = ds := by
  induction cs generalizing ds with
  | nil =>
    cases ds with
    | nil => rfl
    | cons d ds => exact absurd h.symm (units_ne_nil _ _)
  | cons c cs ih =>
    cases ds with
    | nil => exact absurd h (units_ne_nil _ _)
    | cons d ds =>
      obtain ⟨rfl, hrest⟩ := units_append_inj h
      rw [ih hrest]

/-- What a text of characters is made of is a text of characters. -/
theorem exists_ofChars_of_subset {s t : Text} {content : Bytes} (h : Bytes.ofText? t = some content)
    (hs : s ⊆ t) : ∃ cs, s = .ofChars cs := by
  obtain ⟨ds, hds, -⟩ := Option.map_eq_some_iff.1 h
  obtain rfl := Text.eq_ofChars_of_chars? hds
  induction s with
  | nil => exact ⟨[], rfl⟩
  | cons p s ih =>
    obtain ⟨hp, hrest⟩ := List.cons_subset.1 hs
    obtain ⟨c, -, rfl⟩ := List.mem_map.1 hp
    obtain ⟨cs, rfl⟩ := ih hrest
    exact ⟨c :: cs, rfl⟩

theorem tag_subset_typeDeclarations {cs : List Component} {c : Component} (h : c ∈ cs) :
    c.tag ⊆ typeDeclarations cs := by
  let line : Text := "    \"" ++ c.tag ++ "\": " ++ (pascalCase c.tag ++ "Element") ++ ";"
  have htag : c.tag ⊆ line := by
    intro p hp
    simp only [line, List.mem_append]
    exact .inl (.inl (.inl (.inr hp)))
  have hline : line ∈ declarationLines c :=
    List.mem_append_right _ (List.mem_cons_of_mem _ (List.mem_cons_of_mem _ (List.mem_cons_of_mem _
      (List.mem_cons_of_mem _ List.mem_cons_self))))
  exact List.Subset.trans htag (Text.subset_join
    (List.mem_append_right _ (List.mem_flatMap.2 ⟨c, h, hline⟩)))

/-- Different tags that get into a file with the type declarations have different units. -/
theorem nodup_tag_units {cs : List Component} {content : Bytes}
    (h : Bytes.ofText? (typeDeclarations cs) = some content) (hn : (cs.map Component.tag).Nodup) :
    (cs.map fun c => c.tag.units).Nodup := by
  have hunits : (cs.map fun c => c.tag.units) = (cs.map Component.tag).map Text.units := by
    rw [List.map_map]
    rfl
  rw [hunits]
  refine List.Nodup.map_on (fun s hs t ht hst => ?_) hn
  obtain ⟨c, hc, rfl⟩ := List.mem_map.1 hs
  obtain ⟨d, hd, rfl⟩ := List.mem_map.1 ht
  obtain ⟨chars, hchars⟩ := exists_ofChars_of_subset h (tag_subset_typeDeclarations hc)
  obtain ⟨chars', hchars'⟩ := exists_ofChars_of_subset h (tag_subset_typeDeclarations hd)
  rw [hchars, hchars'] at hst ⊢
  rw [units_ofChars_injective hst]

end Characters

end CustomElements
