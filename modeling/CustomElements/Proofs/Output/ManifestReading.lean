import Mathlib.Data.List.Forall2
import Mathlib.Data.List.Basic
import CustomElements.Proofs.Files.PathText
import CustomElements.Proofs.Json.PrintedRendering
import CustomElements.Proofs.Output.Tags

/-!
# Reading the manifest

The text of a manifest is read as the manifest, and a reader that knows only where things stand in
it finds the components again, in their order: their classes and tags, their inputs and outputs with
names and types, and their files.
-/

namespace CustomElements

/-- What a manifest tells of a component; members and events are names with types. -/
structure ManifestEntry where
  path : Text
  className : Text
  tag : Text
  members : List (Text × Text)
  events : List (Text × Text)
  attributes : List (Text × Text)
deriving DecidableEq

section Reader

namespace Json

def items? : Json → Option (List Json)
  | array vs => some vs
  | _ => none

/-- The text that a member is. -/
def textAt? (key : Text) (v : Json) : Option Text := (v.member? key).bind text?

/-- The values of the array that a member is. -/
def itemsAt? (key : Text) (v : Json) : Option (List Json) := (v.member? key).bind items?

end Json

/-- Reads a name with its type. -/
def readMember (v : Json) : Option (Text × Text) := do
  return (← v.textAt? "name", ← (← v.member? "type").textAt? "text")

/-- Reads names with their types, all of them or none. -/
def readMembers (key : Text) (v : Json) : Option (List (Text × Text)) := do
  (← v.itemsAt? key).mapM readMember

/-- Reads a module with a single declaration. -/
def readModule (v : Json) : Option ManifestEntry := do
  match ← v.itemsAt? "declarations" with
  | [d] =>
    return {
      path := ← v.textAt? "path"
      className := ← d.textAt? "name"
      tag := ← d.textAt? "tagName"
      members := ← readMembers "members" d
      events := ← readMembers "events" d
      attributes := ← readMembers "attributes" d }
  | _ => none

/-- Reads a manifest, all of its modules or none. -/
def readManifest (v : Json) : Option (List ManifestEntry) := do
  (← v.itemsAt? "modules").mapM readModule

end Reader

/-- The name under which a member is visible, with its type. -/
def Member.description (m : Member) : Text × Text := (m.effectiveName, m.type)

/-- What an entry tells of a component is right and all there is: no input and no output is missing,
is there twice or stands in the other list, and the path leads to the file. -/
structure ManifestEntry.Describes (root : Option Path) (c : Component) (e : ManifestEntry) :
    Prop where
  className : e.className = c.className
  tag : e.tag = c.tag
  members : e.members = c.inputs.map Member.description
  attributes : e.attributes = e.members
  events : e.events = c.outputs.map Member.description
  complete : (e.members ++ e.events).Perm (c.members.map Member.description)
  /-- The path of a file below the root leads to it from there. -/
  below : ∀ r, root = some r → c.file.isBelow r → r.join (.ofText e.path) = c.file
  /-- The path of any other file is its own. -/
  elsewhere : (∀ r, root = some r → ¬c.file.isBelow r) →
    e.path = c.file.text ∧ .ofText e.path = c.file

/-- A component whose texts are of characters only, in a file with a path that a text can name. -/
structure Component.IsProper (c : Component) : Prop where
  tag : c.tag.IsEncodable
  className : c.className.IsEncodable
  file : c.file.IsWritten ∧ c.file.text.IsEncodable
  members : ∀ m ∈ c.members, m.effectiveName.IsEncodable ∧ m.type.IsEncodable

section Paths

open Text

theorem Path.isEncodable_text {p : Path} :
    p.text.IsEncodable ↔ ∀ n ∈ p.parts, n.IsEncodable := by
  unfold Path.text
  split
  · next h =>
    rw [Bool.and_eq_true, List.isEmpty_iff] at h
    simp [h.2]
  · have hanchor : (anchorText p.anchor).IsEncodable := by
      cases p.anchor <;> simp [anchorText]
    rw [isEncodable_append, and_iff_right hanchor, isEncodable_join (isEncodable_ofString _)]

theorem Path.isEncodable_textFrom {p : Path} (h : p.text.IsEncodable) (base : Path) :
    (p.textFrom base).IsEncodable := by
  unfold Path.textFrom
  cases hbelow : p.relativeTo? base with
  | none => exact h
  | some below =>
    obtain ⟨-, names, hparts, rfl⟩ := relativeTo?_eq_some.1 hbelow
    rw [isEncodable_text, hparts] at h
    exact isEncodable_text.2 (List.forall_mem_append.1 h).2

end Paths

section ReadBack

/-- Values that are read one by one are read in a row. -/
theorem mapM_map_eq_some {α β γ : Type} {f : α → β} {read : β → Option γ} {g : α → γ} {xs : List α}
    (h : ∀ x ∈ xs, read (f x) = some (g x)) : (xs.map f).mapM read = some (xs.map g) := by
  induction xs with
  | nil => rfl
  | cons x xs ih =>
    rw [List.forall_mem_cons] at h
    rw [List.map_cons, List.mapM_cons, h.1, ih h.2]
    rfl

/-- What the manifest tells of a component. -/
def entryOf (root : Option Path) (c : Component) : ManifestEntry where
  path := match root with
    | some r => c.file.textFrom r
    | none => c.file.text
  className := c.className
  tag := c.tag
  members := c.inputs.map Member.description
  events := c.outputs.map Member.description
  attributes := c.inputs.map Member.description

theorem readModule_manifestModule (root : Option Path) (c : Component) :
    readModule (manifestModule root c) = some (entryOf root c) := by
  have hpath : (manifestModule root c).textAt? "path" = some (entryOf root c).path := rfl
  obtain ⟨d, hdeclaration, hname, htag, hmembers, hevents, hattributes⟩ :
      ∃ d, (manifestModule root c).itemsAt? "declarations" = some [d] ∧
        d.textAt? "name" = some c.className ∧ d.textAt? "tagName" = some c.tag ∧
        d.itemsAt? "members" = some (c.inputs.map fun m =>
          .object (("kind", .string "field") :: memberEntries m)) ∧
        d.itemsAt? "events" = some (c.outputs.map fun m => .object (memberEntries m)) ∧
        d.itemsAt? "attributes" = some (c.inputs.map fun m => .object (memberEntries m)) :=
    ⟨_, rfl, rfl, rfl, rfl, rfl, rfl⟩
  have hfields : (c.inputs.map fun m => Json.object (("kind", .string "field") ::
      memberEntries m)).mapM readMember = some (c.inputs.map Member.description) :=
    mapM_map_eq_some fun m _ => rfl
  have hplain (ms : List Member) : (ms.map fun m => Json.object (memberEntries m)).mapM
      readMember = some (ms.map Member.description) := mapM_map_eq_some fun m _ => rfl
  rw [readModule, hdeclaration, hpath]
  simp only [readMembers, hname, htag, hmembers, hevents, hattributes, Option.bind_eq_bind,
    Option.bind_some, hfields, hplain]
  rfl

theorem readManifest_manifest (root : Option Path) (cs : List Component) :
    readManifest (manifest root cs) = some (cs.map (entryOf root)) := by
  have hmodules : (manifest root cs).itemsAt? "modules" = some (cs.map (manifestModule root)) := rfl
  rw [readManifest, hmodules]
  exact mapM_map_eq_some fun c _ => readModule_manifestModule root c

theorem isTextual_manifest (root : Option Path) {cs : List Component}
    (h : ∀ c ∈ cs, c.IsProper) : (manifest root cs).IsTextual := by
  have hmodule : ∀ c ∈ cs, (manifestModule root c).IsTextual := by
    intro c hc
    obtain ⟨htag, hname, hfile, hmembers⟩ := h c hc
    have hpath : (entryOf root c).path.IsEncodable := by
      cases root with
      | none => exact hfile.2
      | some r => exact Path.isEncodable_textFrom hfile.2 r
    have hinputs : ∀ m ∈ c.inputs, m.effectiveName.IsEncodable ∧ m.type.IsEncodable :=
      fun m hm => hmembers m (List.mem_filter.1 hm).1
    have houtputs : ∀ m ∈ c.outputs, m.effectiveName.IsEncodable ∧ m.type.IsEncodable :=
      fun m hm => hmembers m (List.mem_filter.1 hm).1
    simp only [manifestModule, memberEntries, Json.IsTextual.object_iff, Json.IsTextual.array_iff,
      Json.IsTextual.string_iff, Json.IsTextual.bool_iff, Text.isEncodable_ofString, htag, hname,
      List.mem_cons, List.not_mem_nil, or_false, forall_eq_or_imp, forall_eq, and_self, true_and,
      List.mem_map, forall_exists_index, and_imp, forall_apply_eq_imp_iff₂]
    exact ⟨hpath, hinputs, houtputs, hinputs⟩
  simpa [manifest, manifestVersion] using hmodule

theorem describes_entryOf (root : Option Path) {c : Component} (h : c.file.IsWritten) :
    (entryOf root c).Describes root c where
  className := rfl
  tag := rfl
  members := rfl
  attributes := rfl
  events := rfl
  complete := by
    have houtput : (fun m : Member => decide (m.kind = .output)) =
        fun m => !decide (m.kind = .input) := by
      funext m
      cases m.kind <;> rfl
    have hperm := List.filter_append_perm (fun m : Member => decide (m.kind = .input)) c.members
    rw [← houtput] at hperm
    have hmap := hperm.map Member.description
    rwa [List.map_append] at hmap
  below := by
    rintro r rfl hbelow
    exact Path.join_ofText_textFrom h hbelow
  elsewhere := by
    intro hnot
    have hpath : (entryOf root c).path = c.file.text := by
      cases root with
      | none => rfl
      | some r => exact Path.textFrom_of_not_isBelow (hnot r rfl)
    exact ⟨hpath, hpath ▸ Path.ofText_text h⟩

/-- The text of a manifest is read as the manifest, and from it the components are read again, one
entry for each of them in their order. -/
theorem manifest_read_back (root : Option Path) {cs : List Component} (h : ∀ c ∈ cs, c.IsProper) :
    Json.parse (manifestText root cs) = .ok (manifest root cs) ∧
      ∃ entries, readManifest (manifest root cs) = some entries ∧
        List.Forall₂ (ManifestEntry.Describes root) cs entries := by
  refine ⟨Json.parse_render_indented (isTextual_manifest root h), _,
    readManifest_manifest root cs, ?_⟩
  rw [List.forall₂_map_right_iff, List.forall₂_same]
  exact fun c hc => describes_entryOf root (h c hc).file.1

/-- A file below the root with inputs and outputs in turns, and one elsewhere whose texts need
escapes. -/
def mixedComponents : List Component :=
  [{ tag := "x-card", className := "Card", file := "/ws/src/card.ts",
     members := [⟨"size", .input, true, "number", none⟩, ⟨"done", .output, false, "string", none⟩,
       ⟨"label", .input, false, "\"a\" | \"b\"", some "title"⟩] },
   { tag := "x-😀", className := "Smile", file := "/lib/smile\n.ts",
     members := [⟨"open", .output, false, "\\u0041\t𝔸", some ""⟩] }]

theorem manifest_read_back_mixed :
    Json.parse (manifestText (some "/ws") mixedComponents) =
        .ok (manifest (some "/ws") mixedComponents) ∧
      ∃ entries, readManifest (manifest (some "/ws") mixedComponents) = some entries ∧
        List.Forall₂ (ManifestEntry.Describes (some "/ws")) mixedComponents entries := by
  refine manifest_read_back _ fun c hc => ?_
  simp only [mixedComponents, List.mem_cons, List.not_mem_nil, or_false] at hc
  rcases hc with rfl | rfl
  · exact ⟨by decide, by decide, ⟨Path.isWritten_ofText _, by decide⟩, by decide⟩
  · exact ⟨by decide, by decide, ⟨Path.isWritten_ofText _, by decide⟩, by decide⟩

end ReadBack

end CustomElements
