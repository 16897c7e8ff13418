import CustomElements.Proofs.Component.EntryReferences
import CustomElements.Proofs.Configuration.ElementForms
import CustomElements.Proofs.Generation.Course
import CustomElements.Proofs.Output.Tags

/-!
# The components of a run

A run makes one component of each entry, in the order of the entries, whether these are listed in
the configuration or found among the loaded classes. No tag occurs twice among the entries, so none
does among the components, and none in the outputs that are made from them.
-/

namespace CustomElements

open CustomElements.Action Workspace

section Entries

/-- The entries of a run. Listed ones are read from the pairs that the configuration gives, one of
each; found ones belong to the marked classes of the loaded sources, one to each. -/
def Configuration.Gives (c : Configuration) (w : Workspace) (entries : List ElementEntry) : Prop :=
  match c.elements with
  | some v => elementPairs v = .ok (entries.map ElementEntry.pair)
  | none => ∃ loaded, (loadSources c).outcome w = (.ok ⟨⟩, loaded) ∧
      List.Forall₂ (fun k e => k.element? c.discovery = .ok (some e))
        (loaded.project.classes.filter (·.isMarked c.discovery)) entries

/-- Found elements are all the elements of the project. -/
theorem runElements_none_eq_ok {c : Configuration} {w w' : Workspace} {entries : List ElementEntry}
    (h : (runElements c none).outcome w = (.ok entries, w')) :
    w.project.elements c.discovery = (entries, none) := by
  obtain ⟨found, v, hdiscover, hrest⟩ := outcome_bind_eq_ok.1 h
  have helements := (Project.discover_eq_ok hdiscover).1
  split at hrest
  · cases hrest
    exact helements
  · cases hrest
    exact helements

/-- The components of a prepared run are those of its entries. -/
theorem Prepared.gives {c : Configuration} {w w' : Workspace} {p : Preparation}
    (h : Prepared c w p w') : ∃ entries, c.Gives w entries ∧
      (entries.map ElementEntry.tag).Nodup ∧
      List.Forall₂ (fun e k => ∃ v v', (componentOf e).outcome v = (.ok k, v')) entries
        p.components := by
  obtain ⟨listed, entries, loaded, found, analyzed, hlisted, hload, hfound, -, hcs⟩ := h.components
  refine ⟨entries, ?_⟩
  -- what the entries are depends on where they come from, what is made of them does not
  rw [← and_assoc]
  refine ⟨?_, outcome_listMapM_eq_ok hcs⟩
  unfold Configuration.Gives
  cases hgiven : c.elements with
  | none =>
    rw [hgiven] at hlisted
    obtain rfl : none = listed := Except.ok.inj hlisted
    have helements := runElements_none_eq_ok hfound
    obtain ⟨es, rfl, hes⟩ := elementsFrom_ok helements
    exact ⟨⟨loaded, hload, hes⟩, elementsFrom_nodup helements List.nodup_nil⟩
  | some v =>
    rw [hgiven] at hlisted
    obtain ⟨es, hes, rfl⟩ := exceptMap_eq_ok.1 hlisted
    cases hfound
    obtain ⟨pairs, hpairs, hread⟩ := exceptBind_eq_ok.1 hes
    have hreads := entriesFrom_eq_ok_iff.1 hread
    exact ⟨hreads.pairs ▸ hpairs, hreads.distinct⟩

end Entries

section Run

variable {builder : Builder} {c : Configuration} {r s : GenerationResult} {w w' : Workspace}

/-- A component has the tag of its entry. -/
theorem tag_of_componentOf {e : ElementEntry} {k : Component}
    (h : (componentOf e).outcome w = (.ok k, w')) : k.tag = e.tag := by
  obtain ⟨ref, v₁, -, h₁⟩ := outcome_bind_eq_ok.1 h
  obtain ⟨found, v₂, -, h₂⟩ := outcome_bind_eq_ok.1 h₁
  obtain ⟨members, v₃, -, h₃⟩ := outcome_bind_eq_ok.1 h₂
  obtain ⟨_, v₄, -, h₄⟩ := outcome_bind_eq_ok.1 h₃
  cases h₄
  rfl

/-- Components with the tags of their entries have them in the same order. -/
theorem tags_eq {entries : List ElementEntry} {cs : List Component}
    (h : List.Forall₂ (fun e k => k.tag = e.tag) entries cs) :
    entries.map ElementEntry.tag = cs.map Component.tag := by
  refine List.forall₂_eq_eq_eq ▸ List.forall₂_map_left_iff.2 (List.forall₂_map_right_iff.2 ?_)
  exact h.imp fun e k hk => hk.symm

/-- Outputs are written from the components, and leave them as they are. -/
theorem writeOutput_components {target : Option BuildTarget} {outDir : Path} {kind : Text}
    (h : (writeOutput builder c target outDir s kind).outcome w = (.ok r, w')) :
    r.components = s.components := by
  unfold writeOutput at h
  split at h
  · obtain ⟨p, v, -, hend⟩ := outcome_bind_eq_ok.1 h
    cases hend
    rfl
  · split at h
    · split at h
      · cases h
        rfl
      · obtain ⟨directory, v₁, -, h₁⟩ := outcome_bind_eq_ok.1 h
        obtain ⟨entry, v₂, -, h₂⟩ := outcome_bind_eq_ok.1 h₁
        obtain ⟨built, v₃, -, h₃⟩ := outcome_bind_eq_ok.1 h₂
        cases h₃
        rfl
    · cases h
      rfl

theorem foldlM_writeOutput_components {target : Option BuildTarget} {outDir : Path}
    {kinds : List Text}
    (h : (kinds.foldlM (writeOutput builder c target outDir) s).outcome w = (.ok r, w')) :
    r.components = s.components := by
  induction kinds generalizing s w with
  | nil =>
    cases h
    rfl
  | cons kind kinds ih =>
    rw [List.foldlM_cons] at h
    obtain ⟨t, v, hfirst, hrest⟩ := outcome_bind_eq_ok.1 h
    exact (ih hrest).trans (writeOutput_components hfirst)

/-- The components of every run that has an answer. There is one for each entry, in the order of the
entries and with the tag of the entry, and no tag occurs twice. The manifest tells these tags, and
the registration module defines them, in the same order. -/
theorem generate_components (h : (generate builder c).outcome w = (.ok r, w')) :
    ∃ entries, c.Gives w entries ∧
      List.Forall₂ (fun e k => k.tag = e.tag ∧
        ∃ v v', (componentOf e).outcome v = (.ok k, v')) entries r.components ∧
      (r.components.map Component.tag).Nodup ∧
      manifestTags (manifest (some c.root) r.components) = r.components.map Component.tag ∧
      (∀ current settings, definedTags (registrationModule current settings r.components) =
        r.components.map fun k => k.tag.units) ∧
      (r.components.map fun k => k.tag.units).Nodup := by
  obtain ⟨p, u, outDir, v, hp, -, hbasic, hother⟩ := generate_begins h
  rw [hother builder] at h
  obtain ⟨s, u', hloop, hend⟩ := outcome_bind_eq_ok.1 h
  obtain ⟨rfl, -⟩ := concludeRun_eq_ok hend
  have hcs : r.components = p.components := foldlM_writeOutput_components hloop
  obtain ⟨entries, hgives, hdistinct, hmade⟩ := hp.gives
  have hmade' : List.Forall₂ (fun e k => k.tag = e.tag ∧
      ∃ v v', (componentOf e).outcome v = (.ok k, v')) entries r.components := by
    rw [hcs]
    refine hmade.imp fun e k hk => ⟨?_, hk⟩
    obtain ⟨v, v', hrun⟩ := hk
    exact tag_of_componentOf hrun
  have hnodup : (r.components.map Component.tag).Nodup :=
    tags_eq (hmade'.imp fun e k hk => hk.1) ▸ hdistinct
  -- the types were written, so the tags are texts of characters and their units tell them apart
  obtain ⟨content, htypes, -⟩ := (hbasic outDir).holds
    (outDir.child typesFileName, typeDeclarations p.components)
    (List.mem_cons_of_mem _ List.mem_cons_self)
  refine ⟨entries, hgives, hmade', hnodup, manifestTags_manifest _ _,
    fun current settings => definedTags_registrationModule current settings _, ?_⟩
  exact nodup_tag_units (hcs ▸ htypes) hnodup

/-- Two elements that are given in two ways, and whose classes have the same name. -/
def listedRequest : Configuration where
  root := "/ws"
  elements := some (.list [
    .map [(.text "tag", .text "x-b"), (.text "component", .text "b.ts#A")],
    .pair (.text "x-a") (.text "a.ts#A")])

/-- A file of the smallest class. -/
def classFile : FileTree := .file (.ofChars "class A\x7b\x7d".toList)

def listedWorkspace : Workspace :=
  { Workspace.bare with files := .dir [("ws", .dir [("a.ts", classFile), ("b.ts", classFile)])] }

theorem generate_components_listed :
    ∃ r w', (generate (fun _ => pure { success := true }) listedRequest).outcome listedWorkspace =
        (.ok r, w') ∧
      r.components.map Component.tag = [("x-b" : Text), ("x-a" : Text)] ∧
      manifestTags (manifest (some "/ws") r.components) = [("x-b" : Text), ("x-a" : Text)] := by
  have hanswers : ((generate (fun _ => pure { success := true }) listedRequest).outcome
      listedWorkspace).1.toOption.isSome := by decide +kernel
  obtain ⟨r, w', h⟩ := exists_outcome_of_isSome hanswers
  obtain ⟨entries, hgives, hmade, -, hmanifest, -⟩ := generate_components h
  have hpairs : ([⟨"x-b", "b.ts#A"⟩, ⟨"x-a", "a.ts#A"⟩] : List ElementEntry).map
      ElementEntry.pair = entries.map ElementEntry.pair := Except.ok.inj hgives
  have hentries := List.map_injective_iff.2 ElementEntry.pair_injective hpairs
  have htags : r.components.map Component.tag = [("x-b" : Text), ("x-a" : Text)] := by
    rw [← tags_eq (hmade.imp fun e k hk => hk.1), ← hentries]
    rfl
  exact ⟨r, w', h, htags, hmanifest.trans htags⟩

end Run

end CustomElements
