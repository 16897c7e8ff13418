import Mathlib.Data.List.Forall2
import CustomElements.Proofs.Component.ReferenceForms
import CustomElements.Proofs.FirstMatch
import CustomElements.Proofs.Workspace.Loading

/-!
# The references of discovered elements

Discovery writes down a file and a class with a number sign between them. Reading such a reference
gives both back, trimmed, if the path holds no number sign itself.
-/

namespace CustomElements

open CustomElements.Action

namespace ComponentRef

/-- A reference that was read has no empty path. -/
theorem file_ne_nil {t : Text} {ref : ComponentRef} (h : parse t = .ok ref) {file : Text}
    (hfile : ref.file = some file) : file ≠ [] :=
  ((parse_eq_ok.1 h).isPart.2 file hfile).ne_nil

/-- A path with a number sign makes no reference that can be read. -/
theorem parse_of_mem {path : Text} (h : .scalar '#' ∈ path) (name : Text) :
    parse (path ++ .scalar '#' :: name) =
      .error (.referenceMalformed (path ++ .scalar '#' :: name)) :=
  parse_of_more ((two_le_count path name).2 (.inl h))

section Entry

variable {path name : Text} (hpath : path.head? = some (.scalar '/'))

include hpath

theorem isBlank_path : Text.isBlank path = false := by
  obtain ⟨rest, rfl⟩ := List.head?_eq_some_iff.1 hpath
  rfl

theorem strip_path : Text.strip path = Text.stripRight path := by
  obtain ⟨rest, rfl⟩ := List.head?_eq_some_iff.1 hpath
  rw [Text.strip, Text.stripLeft_cons (by decide)]

/-- Other paths are read without the blanks at their ends, and so is the name. -/
theorem parse_of_not_mem (h : .scalar '#' ∉ path) (hname : .scalar '#' ∉ name) :
    parse (path ++ .scalar '#' :: name) =
      if Text.isBlank (Text.stripRight name) then
        .error (.referenceMalformed (path ++ .scalar '#' :: name))
      else .ok ⟨Text.strip (Text.stripRight name), some (Text.stripRight path)⟩ := by
  have hpads := Text.pads_stripRight name
  rw [parse_located h hname, isBlank_path hpath, strip_path hpath, ← hpads.isBlank_eq,
    ← hpads.strip_eq]
  simp only [Bool.false_eq_true, false_or]

end Entry

end ComponentRef

/-- Whether a class carries the marker. -/
def LocatedClass.isMarked (rule : DiscoveryRule) (c : LocatedClass) : Bool :=
  (c.declaration.decorator? rule.marker).isSome

/-- An entry that a marked class gives refers to its file and its name. -/
theorem LocatedClass.component_of_element? {c : LocatedClass} {rule : DiscoveryRule}
    {e : ElementEntry} (h : c.element? rule = .ok (some e)) :
    c.isMarked rule ∧ ∃ name, c.declaration.name = some name ∧
      e.component = c.file.path.text ++ .scalar '#' :: name := by
  unfold element? at h
  split at h
  · cases h
  · next d hd =>
    refine ⟨by rw [isMarked, hd]; rfl, ?_⟩
    split at h
    · cases h
    · next name hname =>
      refine ⟨name, hname, ?_⟩
      split at h
      · cases h
      · cases h
      · cases h
      · obtain rfl := Option.some.inj (Except.ok.inj h)
        simp [Text.ofString, Text.ofChars]

theorem LocatedClass.isMarked_of_element?_none {c : LocatedClass} {rule : DiscoveryRule}
    (h : c.element? rule = .ok none) : c.isMarked rule = false := by
  unfold element? at h
  split at h
  · next hd =>
    rw [isMarked, hd]
    rfl
  · split at h
    · cases h
    · split at h <;> cases h

/-- Without a failure there is an entry for each marked class, in the order of the classes. -/
theorem elementsFrom_ok {rule : DiscoveryRule} {cs : List LocatedClass}
    {found entries : List ElementEntry} (h : elementsFrom rule found cs = (entries, none)) :
    ∃ es, entries = found ++ es ∧
      List.Forall₂ (fun c e => c.element? rule = .ok (some e))
        (cs.filter (·.isMarked rule)) es := by
  induction cs generalizing found with
  | nil =>
    obtain ⟨rfl, _⟩ := Prod.mk.inj h
    exact ⟨[], (List.append_nil _).symm, .nil⟩
  | cons c cs ih =>
    rw [elementsFrom] at h
    split at h
    · cases h
    · next he =>
      have hmarked := LocatedClass.isMarked_of_element?_none he
      rw [List.filter_cons_of_neg (by rw [hmarked]; decide)]
      exact ih h
    · next e he =>
      have hmarked := (LocatedClass.component_of_element? he).1
      split at h
      · cases h
      · obtain ⟨es, rfl, hes⟩ := ih h
        rw [List.filter_cons_of_pos hmarked]
        exact ⟨e :: es, by rw [List.append_assoc, List.singleton_append], .cons he hes⟩

/-- A tag that did not occur before keeps the tags distinct. -/
theorem nodup_tags_concat {es : List ElementEntry} {e : ElementEntry}
    (hn : (es.map ElementEntry.tag).Nodup) (hnew : ∀ o ∈ es, o.tag ≠ e.tag) :
    ((es ++ [e]).map ElementEntry.tag).Nodup := by
  rw [List.map_append, List.map_singleton]
  apply nodup_append_singleton hn
  intro hm
  obtain ⟨o, ho, htag⟩ := List.mem_map.1 hm
  exact hnew o ho htag

/-- Discovery finds no two elements with the same tag. -/
theorem elementsFrom_nodup {rule : DiscoveryRule} {cs : List LocatedClass}
    {found entries : List ElementEntry} (h : elementsFrom rule found cs = (entries, none))
    (hn : (found.map ElementEntry.tag).Nodup) : (entries.map ElementEntry.tag).Nodup := by
  induction cs generalizing found with
  | nil =>
    cases h
    exact hn
  | cons c cs ih =>
    rw [elementsFrom] at h
    split at h
    · cases h
    · exact ih h hn
    · split at h
      · cases h
      · next hnone =>
        refine ih h (nodup_tags_concat hn fun o ho htag => ?_)
        exact List.find?_eq_none.1 hnone o ho (decide_eq_true htag)

/-- The record of an element that is found. -/
def ElementEntry.record (e : ElementEntry) : LogRecord :=
  ⟨.debug, loggerRoot ++ "discovery", "Discovered <" ++ e.tag ++ "> -> " ++ e.component⟩

/-- Discovery answers the elements of the project, or the failure that ended the search, and logs
what was found. -/
theorem Project.discover_outcome (rule : DiscoveryRule) (w : Workspace) :
    (discover rule).outcome w = (match (w.project.elements rule).2 with
      | some f => .error f
      | none => .ok (w.project.elements rule).1,
      w.report ((w.project.elements rule).1.map ElementEntry.record)) := by
  rw [discover, outcome_get_bind]
  rcases w.project.elements rule with ⟨found, failure⟩
  dsimp only
  rw [outcome_bind_ok (outcome_forIn_note (r := ElementEntry.record) (fun _ _ => rfl) found w)]
  cases failure <;> rfl

/-- An answer is all the elements of the project. -/
theorem Project.discover_eq_ok {rule : DiscoveryRule} {w w' : Workspace}
    {entries : List ElementEntry} (h : (discover rule).outcome w = (.ok entries, w')) :
    w.project.elements rule = (entries, none) ∧ w.Reported w' := by
  rw [discover_outcome] at h
  obtain ⟨hanswer, rfl⟩ := Prod.mk.inj h
  refine ⟨?_, _, rfl⟩
  rcases hfound : w.project.elements rule with ⟨found, _ | f⟩
  · rw [hfound] at hanswer
    have heq : found = entries := Except.ok.inj hanswer
    rw [heq]
  · rw [hfound] at hanswer
    cases hanswer

end CustomElements
