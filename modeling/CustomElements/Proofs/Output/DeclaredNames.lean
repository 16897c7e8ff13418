import CustomElements.Proofs.Output.PropertyNames
import CustomElements.Proofs.Output.Tags

/-!
# The names in the type declarations

The declarations are code with places in it where a name stands: the keys of the inputs, and the
tags in two interfaces. The reader goes along the code and reads a name at each place. It finds the
names that the manifest tells exactly if all of them mean the same with and without quotes.
-/

namespace CustomElements

open Literal (quote IsVerbatim)

/-- A piece of the declarations: code, the key of an input, or a tag between quotes. -/
inductive Place where
  | code (t : Text)
  | key (name : Text)
  | tag (name : Text)

namespace Place

/-- What stands at a place. -/
def text : Place → Text
  | code t => t
  | key name => propertyKey name
  | tag name => "\"" ++ name ++ "\""

/-- The name that is meant at a place. -/
def name? : Place → Option Text
  | code _ => none
  | key name => some name
  | tag name => some name

/-- Reads a name at a place; which one is meant there makes no difference to what is read. -/
def read : Place → Text → Option (Text × Text)
  | code _, _ => none
  | key _, t => readPropertyName t
  | tag _, t => Literal.read t

/-- Whether what stands at a place ends there, if this text comes after it. -/
def EndsBefore : Place → Text → Prop
  | key _, rest => StopsName rest
  | _, _ => True

/-- What stands at places in a row. -/
def written (ps : List Place) : Text := ps.flatMap text

/-- The names that are meant at places in a row. -/
def names (ps : List Place) : List Text := ps.filterMap name?

/-- Reads the names at places in a row, if all code is where it should be. -/
def readNames : List Place → Text → Option (List Text)
  | [], t => if t.isEmpty then some [] else none
  | code s :: ps, t => if s.isPrefixOf t then readNames ps (t.drop s.length) else none
  | p :: ps, t => (p.read t).bind fun u => (readNames ps u.2).map (u.1 :: ·)

/-- Places where each key comes before code that ends it. -/
def AreApart : List Place → Prop
  | [] => True
  | p :: ps => p.EndsBefore (written ps) ∧ AreApart ps

theorem areApart_right {ps qs : List Place} (h : AreApart (ps ++ qs)) : AreApart qs := by
  induction ps with
  | nil => exact h
  | cons p ps ih => exact ih h.2

theorem areApart_flatMap {α : Type} {f : α → List Place} {xs : List α}
    (h : ∀ x ∈ xs, ∀ ps, AreApart ps → AreApart (f x ++ ps)) {ps : List Place}
    (hps : AreApart ps) : AreApart (xs.flatMap f ++ ps) := by
  induction xs with
  | nil => exact hps
  | cons x xs ih =>
    rw [List.forall_mem_cons] at h
    rw [List.flatMap_cons, List.append_assoc]
    exact h.1 _ (ih h.2)

/-- A verbatim name is read at its place, and nothing else. -/
theorem read_text {p : Place} {name rest : Text} (hp : p.name? = some name)
    (hend : p.EndsBefore rest) (h : IsVerbatim name) :
    p.read (p.text ++ rest) = some (name, rest) := by
  cases p with
  | code t => cases hp
  | key name =>
    cases hp
    exact readPropertyName_key hend h
  | tag name =>
    cases hp
    rw [text, quoted_append]
    exact Literal.readRest_verbatim h rest

/-- The name that is meant at a place is read there exactly if it is verbatim. -/
theorem read_text_iff {p : Place} {name rest : Text} (hp : p.name? = some name)
    (hend : p.EndsBefore rest) :
    (p.read (p.text ++ rest)).map Prod.fst = some name ↔ IsVerbatim name := by
  cases p with
  | code t => cases hp
  | key name =>
    cases hp
    exact readPropertyName_key_iff hend
  | tag name =>
    cases hp
    rw [text, quoted_append]
    exact Literal.read_quoted_iff name rest

theorem readNames_code (s : Text) (ps : List Place) (rest : Text) :
    readNames (code s :: ps) (s ++ rest) = readNames ps rest := by
  rw [readNames, if_pos (List.isPrefixOf_iff_prefix.2 (List.prefix_append s rest)),
    List.drop_left]

theorem readNames_name {p : Place} {name : Text} (hp : p.name? = some name) (ps : List Place)
    (t : Text) : readNames (p :: ps) t =
      (p.read t).bind fun u => (readNames ps u.2).map (u.1 :: ·) := by
  cases p with
  | code s => cases hp
  | key _ => rfl
  | tag _ => rfl

/-- The names that are meant at places in a row are read there exactly if they are verbatim. -/
theorem readNames_written_iff {ps : List Place} (h : AreApart ps) :
    readNames ps (written ps) = some (names ps) ↔ ∀ name ∈ names ps, IsVerbatim name := by
  induction ps with
  | nil => simp [readNames, written, names]
  | cons p ps ih =>
    have hwritten : written (p :: ps) = p.text ++ written ps := List.flatMap_cons
    rw [hwritten]
    cases hp : p.name? with
    | none =>
      obtain ⟨s, rfl⟩ : ∃ s, p = code s := by
        cases p with
        | code s => exact ⟨s, rfl⟩
        | key _ => cases hp
        | tag _ => cases hp
      have hnames : names (code s :: ps) = names ps := rfl
      rw [hnames, ← ih h.2, text, readNames_code]
    | some n =>
      have hnames : names (p :: ps) = n :: names ps := List.filterMap_cons_some hp
      rw [hnames, List.forall_mem_cons, ← ih h.2, readNames_name hp]
      constructor
      · intro hread
        obtain ⟨⟨n', rest⟩, hfirst, hothers⟩ := Option.bind_eq_some_iff.1 hread
        obtain ⟨others, hrest, heq⟩ := Option.map_eq_some_iff.1 hothers
        cases heq
        have hverbatim : IsVerbatim n' :=
          (read_text_iff hp h.1).1 (by rw [hfirst]; rfl)
        rw [read_text hp h.1 hverbatim] at hfirst
        cases hfirst
        exact ⟨hverbatim, hrest⟩
      · rintro ⟨hverbatim, hrest⟩
        rw [read_text hp h.1 hverbatim, Option.bind_some, hrest]
        rfl

end Place

namespace Declarations

open Place

/-- Lines of code without names. -/
def codeLines (ts : List Text) : List (List Place) := ts.map fun t => [code t]

/-- The line of an input, with the place of its key. -/
def inputPlaces (m : Member) : List Place :=
  [code "  ", key m.effectiveName, code ((if m.required then ": " else "?: ") ++ m.type ++ ";")]

/-- The line of a tag and its interface, with the place of the tag. -/
def tagPlaces (front name interfaceName : Text) : List Place :=
  [code front, tag name, code (": " ++ interfaceName ++ ";")]

/-- The lines of a component, with the places of the names. -/
def lines (c : Component) : List (List Place) :=
  let element := pascalCase c.tag ++ "Element"
  let props := pascalCase c.tag ++ "Props"
  codeLines [("export interface " : Text) ++ element ++ " extends HTMLElement \x7b\x7d",
    "export interface " ++ props ++ " \x7b"]
  ++ c.inputs.map inputPlaces ++ codeLines (c.outputs.map outputProperty)
  ++ codeLines ["\x7d", "", "declare global \x7b", "  interface HTMLElementTagNameMap \x7b"]
  ++ [tagPlaces "    " c.tag element]
  ++ codeLines ["  \x7d", "", "  namespace JSX \x7b", "    interface IntrinsicElements \x7b"]
  ++ [tagPlaces "      " c.tag props]
  ++ codeLines ["    \x7d", "  \x7d", "\x7d", ""]

/-- The places of a component, with a line feed before each line. -/
def componentPlaces (c : Component) : List Place := (lines c).flatMap fun l => code "\n" :: l

/-- The places of the declarations of components. -/
def places (cs : List Component) : List Place :=
  code "export \x7b\x7d;\n" :: cs.flatMap componentPlaces

section Written

theorem map_written_codeLines (ts : List Text) : (codeLines ts).map written = ts := by
  rw [codeLines, List.map_map]
  exact List.map_id'' (fun t => List.append_nil t) ts

theorem written_inputPlaces (m : Member) : written (inputPlaces m) = inputProperty m := by
  simp [written, inputPlaces, inputProperty, Place.text]

theorem map_written_lines (c : Component) : (lines c).map written = declarationLines c := by
  have hinputs : written ∘ inputPlaces = inputProperty := funext written_inputPlaces
  have htag (front name interfaceName : Text) : written (tagPlaces front name interfaceName) =
      front ++ ("\"" : Text) ++ name ++ ("\": " : Text) ++ interfaceName ++ (";" : Text) := by
    simp [written, tagPlaces, Place.text]
    rfl
  simp only [lines, declarationLines, List.map_append, map_written_codeLines, List.map_map,
    hinputs, List.map_cons, List.map_nil, htag, List.append_assoc]
  rfl

theorem written_componentPlaces (c : Component) :
    written (componentPlaces c) = (declarationLines c).flatMap fun t => ("\n" : Text) ++ t := by
  rw [componentPlaces, written, List.flatMap_assoc, ← map_written_lines, List.flatMap_map]
  rfl

/-- The places are where the names stand in the declarations. -/
theorem written_places (cs : List Component) : written (places cs) = typeDeclarations cs := by
  have hcomponents : written (cs.flatMap componentPlaces) =
      (cs.flatMap declarationLines).flatMap fun t => ("\n" : Text) ++ t := by
    rw [written, List.flatMap_assoc, List.flatMap_assoc]
    exact congrArg (fun f => cs.flatMap f) (funext written_componentPlaces)
  have hhead : written (places cs) =
      ("export \x7b\x7d;\n" : Text) ++ written (cs.flatMap componentPlaces) := List.flatMap_cons
  rw [hhead, hcomponents, typeDeclarations, List.cons_append, Text.join_cons_eq]
  rfl

end Written

section Names

/-- The names of a component: those of its inputs, and its tag twice. -/
theorem names_componentPlaces (c : Component) :
    names (componentPlaces c) = c.inputs.map Member.effectiveName ++ [c.tag, c.tag] := by
  have hcode (ts : List Text) : (codeLines ts).flatMap names = [] := by
    rw [codeLines, List.flatMap_map]
    exact List.flatMap_eq_nil_iff.2 fun t _ => rfl
  have hinputs : (c.inputs.map inputPlaces).flatMap names =
      c.inputs.map Member.effectiveName := by
    rw [List.flatMap_map, List.map_eq_flatMap]
    rfl
  have hlines : names (componentPlaces c) = (lines c).flatMap names := by
    rw [names, componentPlaces, List.filterMap_flatMap]
    rfl
  have htag (front name interfaceName : Text) :
      [tagPlaces front name interfaceName].flatMap names = [name] := rfl
  rw [hlines, lines]
  simp only [List.flatMap_append, hcode, hinputs, htag, List.append_nil, List.nil_append,
    List.append_assoc]
  rfl

theorem names_places (cs : List Component) : names (places cs) =
    cs.flatMap fun c => c.inputs.map Member.effectiveName ++ [c.tag, c.tag] := by
  have hhead : names (places cs) = names (cs.flatMap componentPlaces) := rfl
  rw [hhead, names, List.filterMap_flatMap]
  exact congrArg (fun f => cs.flatMap f) (funext names_componentPlaces)

end Names

section Apart

theorem areApart_codeLines {ts : List Text} : ∀ l ∈ codeLines ts, ∀ ps, AreApart ps →
    AreApart (l ++ ps) := by
  rw [codeLines, List.forall_mem_map]
  exact fun t _ ps h => ⟨trivial, h⟩

/-- After the key of an input comes a colon or a question mark. -/
theorem areApart_inputPlaces (m : Member) (ps : List Place) (h : AreApart ps) :
    AreApart (inputPlaces m ++ ps) := by
  refine ⟨trivial, ?_, trivial, h⟩
  show StopsName (((if m.required then ": " else "?: ") ++ m.type ++ ";") ++ written ps)
  cases m.required with
  | true => exact ⟨_, _, rfl, by decide⟩
  | false => exact ⟨_, _, rfl, by decide⟩

theorem areApart_tagPlaces (front name interfaceName : Text) (ps : List Place) (h : AreApart ps) :
    AreApart (tagPlaces front name interfaceName ++ ps) :=
  ⟨trivial, trivial, trivial, h⟩

theorem areApart_lines (c : Component) : ∀ l ∈ lines c, ∀ ps, AreApart ps →
    AreApart (l ++ ps) := by
  have hinputs : ∀ l ∈ c.inputs.map inputPlaces, ∀ ps, AreApart ps → AreApart (l ++ ps) :=
    List.forall_mem_map.2 fun m _ => areApart_inputPlaces m
  simp only [lines, List.forall_mem_append, List.forall_mem_singleton]
  exact ⟨⟨⟨⟨⟨⟨⟨areApart_codeLines, hinputs⟩, areApart_codeLines⟩, areApart_codeLines⟩,
    areApart_tagPlaces _ _ _⟩, areApart_codeLines⟩, areApart_tagPlaces _ _ _⟩, areApart_codeLines⟩

theorem areApart_places (cs : List Component) : AreApart (places cs) := by
  have hcomponent (c : Component) (ps : List Place) (hps : AreApart ps) :
      AreApart (componentPlaces c ++ ps) := by
    refine areApart_flatMap (fun l hl qs hqs => ?_) hps
    exact ⟨trivial, areApart_lines c l hl qs hqs⟩
  have h : AreApart (cs.flatMap componentPlaces ++ []) :=
    areApart_flatMap (fun c _ ps hps => hcomponent c ps hps) trivial
  rw [List.append_nil] at h
  exact ⟨trivial, h⟩

end Apart

/-- The name of a member in a manifest. -/
def toldName (v : Json) : Option Text := (v.member? "name").bind Json.text?

/-- The names that a declaration in a manifest tells: those of its inputs, and its tag for each of
the two interfaces that it is in. -/
def toldNamesIn (d : Json) : List Text :=
  let tag := ((d.member? "tagName").bind Json.text?).toList
  (d.itemsOf "members").filterMap toldName ++ tag ++ tag

/-- The names that a manifest tells, declaration by declaration. -/
def toldNames (v : Json) : List Text :=
  ((v.itemsOf "modules").flatMap (Json.itemsOf "declarations")).flatMap toldNamesIn

theorem toldNames_manifest (root : Option Path) (cs : List Component) :
    toldNames (manifest root cs) =
      cs.flatMap fun c => c.inputs.map Member.effectiveName ++ [c.tag, c.tag] := by
  have hmodules : (manifest root cs).itemsOf "modules" = cs.map (manifestModule root) := rfl
  have hdeclarations (c : Component) :
      ((manifestModule root c).itemsOf "declarations").flatMap toldNamesIn =
        c.inputs.map Member.effectiveName ++ [c.tag, c.tag] := by
    have hmembers : (c.inputs.map fun m => Json.object (("kind", .string "field") ::
        memberEntries m)).filterMap toldName = c.inputs.map Member.effectiveName := by
      rw [List.filterMap_map]
      exact congrFun (List.filterMap_eq_map (f := Member.effectiveName)) c.inputs
    show ((c.inputs.map fun m => Json.object (("kind", .string "field") ::
        memberEntries m)).filterMap toldName ++ [c.tag] ++ [c.tag]) ++ [] = _
    rw [hmembers, List.append_nil, List.append_assoc]
    rfl
  rw [toldNames, hmodules, List.flatMap_map, List.flatMap_assoc]
  exact congrArg (fun f => cs.flatMap f) (funext hdeclarations)

/--
Which names of the type declarations denote the real names, which are those that the manifest tells.
A name that is read where it stands is the one that is meant there exactly if it is verbatim; and a
reader that goes along the whole text reads the names of the manifest exactly if all of them are.
-/
theorem declared_names_iff (root : Option Path) (cs : List Component) :
    written (places cs) = typeDeclarations cs ∧
    names (places cs) = toldNames (manifest root cs) ∧
    (∀ before p after name, places cs = before ++ p :: after → p.name? = some name →
      ((p.read (written (p :: after))).map Prod.fst = some name ↔ IsVerbatim name)) ∧
    (readNames (places cs) (typeDeclarations cs) = some (toldNames (manifest root cs)) ↔
      ∀ name ∈ toldNames (manifest root cs), IsVerbatim name) := by
  have hnames : names (places cs) = toldNames (manifest root cs) :=
    (names_places cs).trans (toldNames_manifest root cs).symm
  have hapart := areApart_places cs
  refine ⟨written_places cs, hnames, fun before p after name hsplit hname => ?_, ?_⟩
  · rw [hsplit] at hapart
    have hend := (areApart_right hapart).1
    exact read_text_iff hname hend
  · rw [← written_places, ← hnames]
    exact readNames_written_iff hapart

/-- A quote in a name ends its key early. -/
example : (readPropertyName (propertyKey "b\"c" ++ "?: string;")).map Prod.fst =
    some ("b" : Text) := by decide

/-- A line feed at the end of a plain name is not part of its key. -/
example : (readPropertyName (propertyKey "foo\n" ++ "?: string;")).map Prod.fst =
    some ("foo" : Text) := by decide

end Declarations

end CustomElements
