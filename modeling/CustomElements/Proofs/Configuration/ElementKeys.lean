import CustomElements.Configuration.Reader
import CustomElements.Proofs.Configuration.ElementForms
import CustomElements.Proofs.Value.TextKeys
import CustomElements.Proofs.Yaml.TextMapping

/-!
# The elements of a configuration file

An element list that is written as a mapping, in JSON or in YAML, is read in the order in which it
is written. A repeated key is not lost on the way: it is reported when the list is read, and a run
with such a list ends before it does anything.
-/

namespace CustomElements

open CustomElements.Action
open Yaml (Node)

/-! ### What is written -/

namespace Json

/-- A word or a number is no object. -/
theorem ne_object_of_scalar {t rest : Text} {j : Json} (h : scalar t = .ok (j, rest))
    (ms : List (Text × Json)) : j ≠ .object ms := by
  rintro rfl
  have hnumber (negative : Bool) (r : Text) : number negative r ≠ .ok (.object ms, rest) := by
    intro hr
    unfold number at hr
    repeat' split at hr
    all_goals cases hr
  unfold scalar at h
  dsimp only at h
  split at h
  · next w hw =>
    have hword := List.mem_of_find?_eq_some hw
    obtain ⟨hobject, _⟩ := Prod.mk.inj (Except.ok.inj h)
    simp only [List.mem_cons, List.not_mem_nil, or_false] at hword
    rcases hword with rfl | rfl | rfl | rfl | rfl | rfl <;> cases hobject
  · split at h
    · exact hnumber true _ h
    · exact hnumber false _ h

/-- A text that an object is read from starts with a brace. -/
theorem head?_of_object {fuel : Nat} {t rest : Text} {ms : List (Text × Json)}
    (h : value fuel t = .ok (.object ms, rest)) : t.head? = some (.scalar '\x7b') := by
  cases fuel with
  | zero => cases h
  | succ fuel =>
    unfold value at h
    split at h
    · split at h <;> cases h
    · split at h
      · cases h
      · obtain ⟨items, _, h⟩ := exceptBind_eq_ok.1 h
        cases h
    · rfl
    · exact absurd rfl (ne_object_of_scalar h ms)

/-- A file with an object is not blank. -/
theorem isBlank_of_object {t : Text} {ms : List (Text × Json)} (h : parse t = .ok (.object ms)) :
    Text.isBlank t = false := by
  obtain ⟨⟨j, rest⟩, hvalue, h⟩ := exceptBind_eq_ok.1 h
  dsimp only at h
  split at h
  · obtain rfl := Except.ok.inj h
    have hbrace := List.mem_of_mem_head? (head?_of_object hvalue)
    have hmem := (List.dropWhile_suffix isSpace).subset hbrace
    exact List.all_eq_false.2 ⟨_, hmem, by decide⟩
  · cases h

end Json

/-- A file with a certain ending and contents holds `data`, in which the elements are written as a
mapping of texts: these entries in this order. In YAML, nothing is merged into that mapping. -/
inductive WritesElements (suffix : Text) (cs : List Char) (es : List ElementEntry) :
    List (Value × Value) → Prop where
  | json {ms : List (Text × Json)} (ending : suffix = ".json")
      (parsed : Json.parse (.ofChars cs) = .ok (.object ms)) (distinct : (ms.map Prod.fst).Nodup)
      (elements : (("elements" : Text),
        Json.object (es.map fun e => (e.tag, .string e.component))) ∈ ms) :
      WritesElements suffix cs es (Value.ofJsonMembers ms)
  | yaml {anchor inner : Option Text} {rows entries sub : List (Node × Node)} {key : Node}
      {data : List (Value × Value)} (ending : suffix = ".yml" ∨ suffix = ".yaml")
      (filled : Text.isBlank (.ofChars cs) = false)
      (document : Node.ofStream? (.ofChars cs) = .ok (some (.mapping .mapping anchor rows)))
      (value : (Node.mapping .mapping anchor rows).value = .ok (.map data))
      (flat : Node.flatten rows = .ok entries)
      (elements : (key, .mapping .mapping inner sub) ∈ entries) (named : key.Holds "elements")
      (texts : List.Forall₂ Node.EntryHolds sub (es.map fun e => (e.tag, e.component))) :
      WritesElements suffix cs es data

namespace Value

theorem ofJsonMembers_eq (ms : List (Text × Json)) :
    ofJsonMembers ms = (ms.map fun m => (m.1, ofJson m.2)).map fun p => (.text p.1, p.2) := by
  induction ms with
  | nil => rfl
  | cons m ms ih =>
    rw [ofJsonMembers, ih]
    rfl

/-- An object without repeated keys is a mapping. -/
theorem ofJson_object {ms : List (Text × Json)} (h : (ms.map Prod.fst).Nodup) :
    repeatsKey (ofJsonMembers ms) = false ∧ ofJson (.object ms) = map (ofJsonMembers ms) := by
  have hrepeats : repeatsKey (ofJsonMembers ms) = false := by
    rw [ofJsonMembers_eq, repeatsKey_texts, List.map_map]
    exact h
  refine ⟨hrepeats, ?_⟩
  rw [ofJson, ofPairs, hrepeats]
  rfl

/-- Pairs make a mapping if no key is repeated. -/
theorem ofPairs_eq_map {pairs data : List (Value × Value)} (h : ofPairs pairs = map data) :
    pairs = data ∧ repeatsKey data = false := by
  rw [ofPairs] at h
  split at h
  · cases h
  · next hrepeats =>
    obtain rfl := map.inj h
    exact ⟨rfl, Bool.eq_false_iff.2 hrepeats⟩

end Value

namespace WritesElements

variable {suffix : Text} {cs : List Char} {es : List ElementEntry} {data : List (Value × Value)}

/-- The elements are the pairs in the order in which they are written. -/
theorem get_elements (h : WritesElements suffix cs es data) :
    (Value.map data).get "elements" = .ofPairs (es.map ElementEntry.pair) := by
  have hget {v : Value} (hrepeats : Value.repeatsKey data = false)
      (hm : (.text "elements", v) ∈ data) : (Value.map data).get "elements" = v := by
    rw [Value.get, Value.get?_of_mem hrepeats hm, Option.getD_some]
  cases h with
  | json _ _ distinct elements =>
    refine hget (Value.ofJson_object distinct).1 ?_
    have hvalue : Value.ofJson (.object (es.map fun e => (e.tag, .string e.component))) =
        .ofPairs (es.map ElementEntry.pair) := by
      rw [Value.ofJson, Value.ofJsonMembers_eq, List.map_map, List.map_map]
      rfl
    rw [Value.ofJsonMembers_eq, List.map_map, ← hvalue]
    exact List.mem_map_of_mem elements
  | yaml _ _ _ value flat elements named texts =>
    obtain ⟨fuel, flattened, pairs, hflat, hpairs, hdata⟩ := Node.valueAt_mapping value
    obtain rfl := Except.ok.inj (flat.symm.trans hflat)
    obtain ⟨rfl, hrepeats⟩ := Value.ofPairs_eq_map hdata.symm
    obtain ⟨v, hv, hm⟩ := Node.mem_of_valueAt hpairs elements named
    rw [hget hrepeats hm, Node.value_of_texts texts hv, List.map_map]
    rfl

/-- The value of the file is the mapping that it holds. -/
theorem configurationValue_outcome {w : Workspace} {file : Path}
    (h : WritesElements (Text.lower file.suffix) cs es data) (hread : w.readText file = .ok cs) :
    (configurationValue file).outcome w = (.ok (.map data), w) := by
  rw [configurationValue, outcome_get_bind, hread]
  dsimp only
  generalize Text.lower file.suffix = suffix at h
  cases h with
  | json ending parsed distinct _ =>
    rw [Json.isBlank_of_object parsed, if_neg Bool.false_ne_true, if_pos ending, parsed]
    dsimp only
    rw [(Value.ofJson_object distinct).2]
    rfl
  | yaml ending filled document value _ _ _ _ =>
    have hsuffix : suffix ≠ ".json" := by
      rcases ending with rfl | rfl <;> decide
    have hyaml : (suffix = (".yml" : Text) || suffix = (".yaml" : Text)) := by
      simpa using ending
    have hvalue : Yaml.read cs = .ok (.map data) := by
      rw [Yaml.read, document]
      exact value
    rw [filled, if_neg Bool.false_ne_true, if_neg hsuffix, if_pos hyaml, hvalue]
    rfl

end WritesElements

/-! ### What is loaded -/

namespace Configuration

/-- What a configuration file in the directory `root` says besides its elements. -/
def settings (root : Path) (data : Value) : Action Configuration := do
  let outputs ← ofFaults (asTexts (data.get "elementOutputs"))
  let target ← asBuildTarget (data.get "buildTarget")
  let build : BuildSettings := {
    target := target
    sourceMap := (asBool (data.get "sourceMap")).getD false
    outputHashing := ← ofFaults (asText (data.get "outputHashing"))
    outputFileName := ← ofFaults (asText (data.get "outputFileName"))
    options := asEntries (data.get "buildTargetOptions")
    entryDir := ← asPath root (data.get "browserEntryDir") }
  let found := Value.map (asEntries (data.get "discovery"))
  let marker ← ofFaults (asText (found.get "marker"))
  return {
    root := root
    projectFile := ← asPath root (data.get "tsconfig")
    outDir := ← asPath root (data.get "outDir")
    rootDir := ← asPath root (data.get "rootDir")
    outputs := if outputs.isEmpty then [manifestOutput] else outputs
    importExtension := ← ofFaults (asText (data.get "importExtension"))
    inlineComponents := asBool (data.get "inlineComponents")
    build := build
    discovery := {
      marker := (nonempty? marker).getD ({} : DiscoveryRule).marker
      selectorFallback := (asBool (found.get "selectorFallback")).getD false } }

/-- Settings are read without a change. -/
theorem settings_leaves (root : Path) (data : Value) :
    Within (· = ·) (fun _ => True) (settings root data) := by
  have hfaults {α : Type} (r : Except Fault α) : Within (· = ·) (fun _ => True) (ofFaults r) :=
    Within.ofFaults (fun _ => trivial) r
  have hpath (v : Value) : Within (· = ·) (fun _ => True) (asPath root v) := by
    refine (hfaults _).bind fun t => ?_
    split
    · exact (Within.look (fun _ => trivial) _).bind fun _ => Within.pure _
    · exact Within.pure _
  have htarget (v : Value) : Within (· = ·) (fun _ => True) (asBuildTarget v) := by
    unfold asBuildTarget
    split
    · refine (hfaults _).bind fun _ => (hfaults _).bind fun _ => (hfaults _).bind fun _ => ?_
      split
      · exact Within.pure _
      · exact Within.fail trivial
    · exact hfaults _
  refine (hfaults _).bind fun _ => (htarget _).bind fun _ => (hfaults _).bind fun _ => ?_
  refine (hfaults _).bind fun _ => (hpath _).bind fun _ => (hfaults _).bind fun _ => ?_
  refine (hpath _).bind fun _ => (hpath _).bind fun _ => (hpath _).bind fun _ => ?_
  exact (hfaults _).bind fun _ => Within.pure _

/-- The values that are taken for elements: a mapping, a list, or nothing at all. -/
inductive TakesElements : Value → Prop where
  | none : TakesElements .null
  | mapping (es : List (Value × Value)) : TakesElements (.map es)
  | list (vs : List Value) : TakesElements (.list vs)

/-- The elements that a value gives. -/
def givenElements : Value → Option Value
  | .null => none
  | v => some v

theorem takesElements_ofPairs (pairs : List (Value × Value)) :
    TakesElements (.ofPairs pairs) ∧ givenElements (.ofPairs pairs) = some (.ofPairs pairs) := by
  rw [Value.ofPairs]
  split
  · exact ⟨.list _, rfl⟩
  · exact ⟨.mapping _, rfl⟩

/-- What is made of the value of a file. -/
def ofValue (file : Path) : Value → Action Configuration
  | .map es =>
    match (Value.map es).get "elements" with
    | .null | .map _ | .list _ =>
      (fun c => { c with elements := givenElements ((Value.map es).get "elements") }) <$>
        settings file.parent (.map es)
    | _ => fail .elementsNoCollection
  | _ => fail (.configNoMapping file.name)

section Loading

variable {w : Workspace} {p file : Path}

/-- A file that is there is loaded from its value. -/
theorem load_eq_ofValue (hpath : (do w.resolve (← w.expandHome p)) = .ok file)
    (hfile : w.isFile file) :
    (load p).outcome w = (configurationValue file >>= ofValue file).outcome w := by
  have hlook : (look fun w => do w.resolve (← w.expandHome p)).outcome w = (.ok file, w) := by
    rw [outcome_look, hpath]
    rfl
  rw [load, outcome_bind_ok hlook, outcome_get_bind, hfile]
  dsimp only
  rw [if_neg (by decide)]
  refine congrArg (fun k => (configurationValue file >>= k).outcome w) (funext fun data => ?_)
  cases data with
  | map es =>
    dsimp only [ofValue]
    cases (Value.map es).get "elements" with
    | null | map | list => simp only [settings, map_bind, map_pure, givenElements]
    | _ => rfl
  | _ => rfl

theorem ofValue_of_takesElements {es : List (Value × Value)}
    (helements : TakesElements ((Value.map es).get "elements")) :
    ofValue file (.map es) =
      (fun c => { c with elements := givenElements ((Value.map es).get "elements") }) <$>
        settings file.parent (.map es) := by
  rw [ofValue]
  generalize (Value.map es).get "elements" = v at helements
  cases helements <;> rfl

end Loading

/-- What is wrong with the outputs that are asked for or with the build target, if anything is. -/
def outputMistake? (c : Configuration) : Option Mistake :=
  let checked : Except Mistake Unit := do
    let outputs ← requestedOutputs [] c.outputs
    let target ← (nonempty? c.build.target).mapM BuildTarget.parse
    checkTarget outputs target
  match checked with
  | .ok _ => none
  | .error m => some m

/-- The message of a mistake in the outputs or in the build target shows no value. -/
theorem isWordable_of_outputMistake? {c : Configuration} {m : Mistake}
    (h : c.outputMistake? = some m) : m.isWordable := by
  have houtputs {kinds : List Text} : ∀ {chosen m},
      requestedOutputs chosen kinds = .error m → m.isWordable := by
    induction kinds with
    | nil => nofun
    | cons kind kinds ih =>
      intro chosen m hm
      unfold requestedOutputs at hm
      split at hm
      · cases hm
        rfl
      · exact ih hm
  have htarget {t : Text} {m : Mistake} (hm : BuildTarget.parse t = .error m) : m.isWordable := by
    unfold BuildTarget.parse at hm
    split at hm
    · split at hm <;> cases hm
      rfl
    · cases hm
      rfl
  unfold outputMistake? at h
  dsimp only at h
  split at h
  · cases h
  · next e he =>
    cases h
    rcases exceptBind_eq_error.1 he with he | ⟨outputs, -, he⟩
    · exact houtputs he
    · rcases exceptBind_eq_error.1 he with he | ⟨target, -, he⟩
      · cases ht : nonempty? c.build.target with
        | none =>
          rw [ht] at he
          cases he
        | some t =>
          rw [ht] at he
          rcases exceptBind_eq_error.1 he with he | ⟨_, -, he⟩
          · exact htarget he
          · cases he
      · unfold checkTarget at he
        split at he <;> cases he
        rfl

/-- A run whose element list is a mistake ends before it looks at anything. -/
theorem generate_of_elements {c : Configuration} {m : Mistake}
    (h : c.elements.mapM elementEntries = .error m) (builder : Builder) (w : Workspace) :
    (generate builder c).outcome w = (.error (c.outputMistake?.getD m).failure, w) := by
  refine outcome_bind_error ?_ _
  rw [prepare, outputMistake?, h]
  cases requestedOutputs [] c.outputs with
  | error e => rfl
  | ok outputs =>
    cases (nonempty? c.build.target).mapM BuildTarget.parse with
    | error e => rfl
    | ok target =>
      change (ofMistakes (checkTarget outputs target) >>= _).outcome w = _
      change _ = (Except.error (Option.getD (match checkTarget outputs target with
        | .ok _ => none
        | .error e => some e) m).failure, w)
      cases checkTarget outputs target <;> rfl

/-- Elements that are written as a mapping of texts are read in the order in which they are written.
If a key is repeated, the first one that is is reported, and no run with them changes anything. -/
theorem load_written_elements {w : Workspace} {p file : Path} {cs : List Char}
    {es : List ElementEntry} {data : List (Value × Value)} {c : Configuration}
    (hpath : (do w.resolve (← w.expandHome p)) = .ok file) (hfile : w.isFile file)
    (hread : w.readText file = .ok cs)
    (hwrites : WritesElements (Text.lower file.suffix) cs es data)
    (hfilled : ∀ e ∈ es, e.IsFilled)
    (hsettings : ((settings file.parent (.map data)).outcome w).1 = .ok c) :
    ∃ v, (load p).outcome w = (.ok { c with elements := some v }, w) ∧
      ((es.map ElementEntry.tag).Nodup → elementEntries v = .ok es) ∧
      (¬(es.map ElementEntry.tag).Nodup → ∃ before e after, es = before ++ e :: after ∧
        (before.map ElementEntry.tag).Nodup ∧ e.tag ∈ before.map ElementEntry.tag ∧
        elementEntries v = .error (.duplicateTag e.tag none) ∧
        ∀ builder u, (generate builder { c with elements := some v }).outcome u =
          (.error (.mistake (c.outputMistake?.getD (.duplicateTag e.tag none))), u)) := by
  have houtcome : (settings file.parent (.map data)).outcome w = (.ok c, w) :=
    Prod.ext hsettings ((settings_leaves _ _).leaves w).symm
  refine ⟨.ofPairs (es.map ElementEntry.pair), ?_, elementEntries_of_nodup hfilled,
    fun hrepeated => ?_⟩
  · obtain ⟨htaken, hgiven⟩ := takesElements_ofPairs (es.map ElementEntry.pair)
    rw [load_eq_ofValue hpath hfile, outcome_bind_ok (hwrites.configurationValue_outcome hread),
      ofValue_of_takesElements (hwrites.get_elements ▸ htaken), hwrites.get_elements, hgiven,
      map_eq_pure_bind, outcome_bind_ok houtcome]
    rfl
  · obtain ⟨before, e, after, rfl, hn, hm⟩ := exists_first_repeat hrepeated
    have helements := elementEntries_of_repeated hfilled hn hm
    refine ⟨before, e, after, rfl, hn, hm, helements, fun builder u => ?_⟩
    have hlisted : (some (Value.ofPairs ((before ++ e :: after).map ElementEntry.pair))).mapM
        elementEntries = .error (.duplicateTag e.tag none) := by
      change (some <$> elementEntries _) = _
      rw [helements]
      rfl
    have hwordable : (Option.getD c.outputMistake? (.duplicateTag e.tag none)).isWordable := by
      cases hm : c.outputMistake? with
      | none => rfl
      | some m => exact isWordable_of_outputMistake? hm
    rw [generate_of_elements hlisted]
    exact congrArg (fun f => (Except.error f, u)) (Mistake.failure_eq_mistake.2 hwordable)

/-- A tag that is written twice, once with an escape. -/
def repeatedTagJson : List Char :=
  "\x7b\"elements\": \x7b\"x-a\": \"A\", \"x-\\u0061\": \"B\"\x7d\x7d".toList

/-- The same elements, once with quotes. -/
def repeatedTagYaml : List Char := "elements: \x7bx-a: A, 'x-a': B\x7d".toList

def repeatedTagWorkspace : Workspace := { Workspace.bare with
  files := .dir [("ws", .dir [("c.json", .file (Bytes.ofChars repeatedTagJson)),
    ("c.yml", .file (Bytes.ofChars repeatedTagYaml))])] }

/-- What is read from a document, if it is an object in an object: its key, and its two members with
texts. -/
def twoMembers? {ε : Type} : Except ε Json → Option (Text × (Text × Text) × (Text × Text))
  | .ok (.object [(key, .object [(a, .string v), (b, .string w)])]) => some (key, (a, v), (b, w))
  | _ => none

theorem eq_of_twoMembers? {ε : Type} {read : Except ε Json} {key : Text} {a b : Text × Text}
    (h : twoMembers? read = some (key, a, b)) :
    read = .ok (.object [(key, .object [(a.1, .string a.2), (b.1, .string b.2)])]) := by
  unfold twoMembers? at h
  split at h
  · cases h
    rfl
  · cases h

theorem parse_repeatedTagJson : Json.parse (.ofChars repeatedTagJson) =
    .ok (.object [("elements", .object [("x-a", .string "A"), ("x-a", .string "B")])]) := by
  have hread : twoMembers? (Json.parse (.ofChars repeatedTagJson)) =
      some (.ofString "elements", (.ofString "x-a", .ofString "A"),
        (.ofString "x-a", .ofString "B")) := by
    decide +kernel
  exact eq_of_twoMembers? hread

/-- The same of a document that is a mapping in a mapping. -/
def twoPairs? {ε : Type} :
    Except ε (Option Node) → Option (Text × (Text × Text) × (Text × Text))
  | .ok (some (.mapping .mapping none [(.scalar .text key, .mapping .mapping none
      [(.scalar .text a, .scalar .text v), (.scalar .text b, .scalar .text w)])])) =>
    some (key, (a, v), (b, w))
  | _ => none

theorem eq_of_twoPairs? {ε : Type} {read : Except ε (Option Node)} {key : Text}
    {a b : Text × Text} (h : twoPairs? read = some (key, a, b)) :
    read = .ok (some (.mapping .mapping none [(.scalar .text key, .mapping .mapping none
      [(.scalar .text a.1, .scalar .text a.2), (.scalar .text b.1, .scalar .text b.2)])])) := by
  unfold twoPairs? at h
  split at h
  · cases h
    rfl
  · cases h

theorem ofStream?_repeatedTagYaml : Node.ofStream? (.ofChars repeatedTagYaml) =
    .ok (some (.mapping .mapping none [(.scalar .text "elements", .mapping .mapping none
      [(.scalar .text "x-a", .scalar .text "A"), (.scalar .text "x-a", .scalar .text "B")])])) := by
  have hread : twoPairs? (Node.ofStream? (.ofChars repeatedTagYaml)) =
      some (.ofString "elements", (.ofString "x-a", .ofString "A"),
        (.ofString "x-a", .ofString "B")) := by
    decide +kernel
  exact eq_of_twoPairs? hread

def repeatedTagEntries : List ElementEntry := [⟨"x-a", "A"⟩, ⟨"x-a", "B"⟩]

/-- The file of this name can be loaded, and the repeated tag is reported for its elements. -/
def ReportsRepeatedTag (name : Path) : Prop := ∃ v,
  (load name).outcome repeatedTagWorkspace =
    (.ok { root := "/ws", elements := some v }, repeatedTagWorkspace) ∧
  elementEntries v = .error (.duplicateTag "x-a" none)

theorem load_written_elements_repeatedTag :
    ReportsRepeatedTag "c.json" ∧ ReportsRepeatedTag "c.yml" := by
  have hfilled : ∀ e ∈ repeatedTagEntries, e.IsFilled := by
    rw [repeatedTagEntries, List.forall_mem_cons, List.forall_mem_singleton]
    exact ⟨⟨rfl, rfl⟩, ⟨rfl, rfl⟩⟩
  have htag : ∀ e ∈ repeatedTagEntries, e.tag = "x-a" := by decide
  have hlines : ∀ cs ∈ [repeatedTagJson, repeatedTagYaml], unifyLineEnds cs = cs := by
    decide +kernel
  have hreported {name file : Path} {cs : List Char} {data : List (Value × Value)}
      (hpath : (do repeatedTagWorkspace.resolve (← repeatedTagWorkspace.expandHome name)) =
        .ok file)
      (hfile : repeatedTagWorkspace.isFile file)
      (hread : repeatedTagWorkspace.readText file = .ok cs)
      (hwrites : WritesElements (Text.lower file.suffix) cs repeatedTagEntries data)
      (hsettings : ((settings file.parent (.map data)).outcome repeatedTagWorkspace).1 =
        .ok { root := "/ws" }) : ReportsRepeatedTag name := by
    obtain ⟨v, hload, _, hrepeated⟩ :=
      load_written_elements hpath hfile hread hwrites hfilled hsettings
    obtain ⟨before, e, after, hes, _, _, helements, _⟩ := hrepeated (by decide)
    rw [htag e (hes ▸ List.mem_append_right _ List.mem_cons_self)] at helements
    exact ⟨v, hload, helements⟩
  have hjson : repeatedTagWorkspace.readText "/ws/c.json" = .ok repeatedTagJson := by
    have hread : repeatedTagWorkspace.read "/ws/c.json" = .ok (.ofChars repeatedTagJson) := rfl
    rw [Workspace.readText_of_read hread, hlines _ (by simp)]
  have hyaml : repeatedTagWorkspace.readText "/ws/c.yml" = .ok repeatedTagYaml := by
    have hread : repeatedTagWorkspace.read "/ws/c.yml" = .ok (.ofChars repeatedTagYaml) := rfl
    rw [Workspace.readText_of_read hread, hlines _ (by simp)]
  have hwritesJson : WritesElements (Text.lower (Path.suffix "/ws/c.json")) repeatedTagJson
      repeatedTagEntries [(.text "elements", _)] :=
    .json (by decide +kernel) parse_repeatedTagJson (by decide) List.mem_cons_self
  have hwritesYaml : WritesElements (Text.lower (Path.suffix "/ws/c.yml")) repeatedTagYaml
      repeatedTagEntries [(.text "elements", _)] :=
    .yaml (.inl (by decide +kernel)) (by decide +kernel) ofStream?_repeatedTagYaml rfl rfl
      List.mem_cons_self ⟨rfl, rfl⟩
      (.cons ⟨⟨rfl, rfl⟩, ⟨rfl, rfl⟩⟩ (.cons ⟨⟨rfl, rfl⟩, ⟨rfl, rfl⟩⟩ .nil))
  exact ⟨hreported rfl rfl hjson hwritesJson rfl, hreported rfl rfl hyaml hwritesYaml rfl⟩

end Configuration

end CustomElements
