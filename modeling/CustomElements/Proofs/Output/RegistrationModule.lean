import Mathlib.Data.List.Nodup
import CustomElements.Output.Registration
import CustomElements.Proofs.Output.ModuleReader
import CustomElements.Proofs.Text.Splitting

/-!
# What a registration module says

Each component has its own lines: those that import it, and one that defines its element. Read back,
they hold the tag, the class name and the module specifier, whatever characters these are made of,
and they are tied together by a name of their own. All other lines are the same for all components.
-/

namespace CustomElements

open Segment

namespace Registration

/-- The name that the lines of a component share. -/
def localName (inlined : Bool) (index : Nat) : Text :=
  if inlined then "Component" ++ Text.ofNat index else "loadComponent" ++ Text.ofNat index

/-- What the import lines of a component say. -/
def importReading (inlined : Bool) (index : Nat) (c : Component) (specifier : Text) :
    List (List Segment) :=
  let name := localName inlined index
  if inlined then
    [[.code ("import * as " ++ name ++ "Module from "), .literal specifier.units, .code ";"],
      [.code ("const " ++ name ++ " = (" ++ name ++ "Module as Record<string, unknown>)["),
        .literal c.className.units, .code "];"]]
  else
    [[.code ("const " ++ name ++ " = () => import("), .literal specifier.units, .code ");"]]

/-- What the line that defines the element of a component says. -/
def definitionReading (inlined : Bool) (index : Nat) (c : Component) : List Segment :=
  let name := localName inlined index
  if inlined then
    [.code "  \x7b tag: ", .literal c.tag.units, .code (", component: " ++ name ++ " \x7d,")]
  else
    [.code "  \x7b tag: ", .literal c.tag.units, .code ", className: ",
      .literal c.className.units, .code (", load: " ++ name ++ " \x7d,")]

/-- The lines between the imports and the definitions. -/
def betweenLines : List Text := [[], "const elementDefinitions = ["]

/-- The lines behind the definitions. -/
def closingLines (mode : RegistrationMode) (inlined : Bool) : List Text :=
  loopLines ++ resolveLines inlined ++ defineLines
    ++ (if mode = .browser then selfRegistrationLines else [])

theorem ofNat_injective {i j : Nat} (h : Text.ofNat i = Text.ofNat j) : i = j := by
  have hchars : Nat.toDigits 10 i = Nat.toDigits 10 j := by
    have hread := congrArg Text.chars? h
    rw [Text.ofNat, Text.ofNat, Text.chars?_ofChars, Text.chars?_ofChars] at hread
    exact Option.some.inj hread
  have hvalue := congrArg (fun digits => Nat.ofDigitChars 10 digits 0) hchars
  simpa using hvalue

theorem localName_injective {inlined : Bool} {i j : Nat}
    (h : localName inlined i = localName inlined j) : i = j := by
  cases inlined <;> exact ofNat_injective (List.append_cancel_left h)

/-- A name is one word. -/
theorem localName_isWord (inlined : Bool) (i : Nat) : ∀ p ∈ localName inlined i, isNamePoint p := by
  have hnumber : ∀ p ∈ Text.ofNat i, isNamePoint p := by
    intro p hp
    obtain ⟨c, hc, rfl⟩ := List.mem_map.1 hp
    have hdigit : c.isDigit := Nat.isDigit_of_mem_toDigits (by omega) (by omega) hc
    simp [isNamePoint, CodePoint.satisfies, Char.isAlphanum, hdigit]
  have hcomponent : ∀ p ∈ ("Component" : Text), isNamePoint p := by decide
  have hload : ∀ p ∈ ("loadComponent" : Text), isNamePoint p := by decide
  cases inlined with
  | true => exact List.forall_mem_append.2 ⟨hcomponent, hnumber⟩
  | false => exact List.forall_mem_append.2 ⟨hload, hnumber⟩

theorem localName_isCode (inlined : Bool) (i : Nat) : IsCode (localName inlined i) :=
  isCode_of_isWord (localName_isWord inlined i)

/-- The import lines of a component as code with quoted texts in between. -/
def importParts (inlined : Bool) (i : Nat) (c : Component) (specifier : Text) :
    List (Text × List (Text × Text)) :=
  let name := localName inlined i
  if inlined then
    [("import * as " ++ name ++ "Module from ", [(specifier, ";")]),
      ("const " ++ name ++ " = (" ++ name ++ "Module as Record<string, unknown>)[",
        [(c.className, "];")])]
  else [("const " ++ name ++ " = () => import(", [(specifier, ");")])]

/-- The line of a definition as code with quoted texts in between. -/
def definitionParts (inlined : Bool) (i : Nat) (c : Component) : List (Text × Text) :=
  let name := localName inlined i
  if inlined then [(c.tag, ", component: " ++ name ++ " \x7d,")]
  else [(c.tag, ", className: "), (c.className, ", load: " ++ name ++ " \x7d,")]

theorem importLines_eq (inlined : Bool) (i : Nat) (c : Component) (specifier : Text) :
    importLines inlined i c specifier =
      (importParts inlined i c specifier).map fun l => lineOf l.1 l.2 := by
  have himport (n : Text) :
      ("import * as Component" : Text) ++ n = "import * as " ++ ("Component" ++ n) := rfl
  have hconst (n : Text) : ("const Component" : Text) ++ n = "const " ++ ("Component" ++ n) := rfl
  have hparen (n : Text) : (" = (Component" : Text) ++ n = " = (" ++ ("Component" ++ n) := rfl
  have hload (n : Text) :
      ("const loadComponent" : Text) ++ n = "const " ++ ("loadComponent" ++ n) := rfl
  cases inlined with
  | true =>
    simp [importLines, importParts, lineOf, localName, himport, hconst, hparen, List.append_assoc]
  | false => simp [importLines, importParts, lineOf, localName, hload, List.append_assoc]

theorem definitionLine_eq (inlined : Bool) (i : Nat) (c : Component) :
    definitionLine inlined i c = lineOf "  \x7b tag: " (definitionParts inlined i c) := by
  have hcomponent (n : Text) : (", " : Text) ++ ("component: Component" ++ n) =
      ", component: " ++ ("Component" ++ n) := rfl
  have hclass (n : Text) : (", " : Text) ++ ("className: " ++ n) = ", className: " ++ n := rfl
  have hload (n : Text) : (", load: loadComponent" : Text) ++ n =
      ", load: " ++ ("loadComponent" ++ n) := rfl
  cases inlined with
  | true => simp [definitionLine, definitionParts, lineOf, localName, hcomponent, List.append_assoc]
  | false =>
    simp [definitionLine, definitionParts, lineOf, localName, hclass, hload, List.append_assoc]

theorem importParts_isCode (inlined : Bool) (i : Nat) (c : Component) (specifier : Text) :
    ∀ l ∈ importParts inlined i c specifier, IsCode l.1 ∧ ∀ p ∈ l.2, IsCode p.2 := by
  have hname := localName_isCode inlined i
  have himport : IsCode "import * as " := by decide
  have hfrom : IsCode "Module from " := by decide
  have hsemicolon : IsCode ";" := by decide
  have hconst : IsCode "const " := by decide
  have hequals : IsCode " = (" := by decide
  have hrecord : IsCode "Module as Record<string, unknown>)[" := by decide
  have hbracket : IsCode "];" := by decide
  have harrow : IsCode " = () => import(" := by decide
  have hparen : IsCode ");" := by decide
  cases inlined with
  | true =>
    rw [importParts, if_pos rfl, List.forall_mem_cons, List.forall_mem_singleton,
      List.forall_mem_singleton, List.forall_mem_singleton]
    exact ⟨⟨(himport.append hname).append hfrom, hsemicolon⟩,
      (((hconst.append hname).append hequals).append hname).append hrecord, hbracket⟩
  | false =>
    rw [importParts, if_neg Bool.false_ne_true, List.forall_mem_singleton,
      List.forall_mem_singleton]
    exact ⟨(hconst.append hname).append harrow, hparen⟩

theorem definitionParts_isCode (inlined : Bool) (i : Nat) (c : Component) :
    ∀ p ∈ definitionParts inlined i c, IsCode p.2 := by
  have hname := localName_isCode inlined i
  have hcomponent : IsCode ", component: " := by decide
  have hbrace : IsCode " \x7d," := by decide
  have hclass : IsCode ", className: " := by decide
  have hload : IsCode ", load: " := by decide
  cases inlined with
  | true =>
    rw [definitionParts, if_pos rfl, List.forall_mem_singleton]
    exact (hcomponent.append hname).append hbrace
  | false =>
    rw [definitionParts, if_neg Bool.false_ne_true, List.forall_mem_cons, List.forall_mem_singleton]
    exact ⟨hclass, (hload.append hname).append hbrace⟩

/-- The import lines say what they should. -/
theorem read_importLines (inlined : Bool) (i : Nat) (c : Component) (specifier : Text) :
    (importLines inlined i c specifier).map read =
      (importReading inlined i c specifier).map some := by
  have hreading : importReading inlined i c specifier =
      (importParts inlined i c specifier).map fun l => segmentsOf l.1 l.2 := by
    cases inlined <;> rfl
  rw [importLines_eq, hreading, List.map_map, List.map_map]
  refine List.map_congr_left fun l hl => ?_
  obtain ⟨hfront, hparts⟩ := importParts_isCode inlined i c specifier l hl
  exact read_lineOf hfront hparts

/-- The line of a definition says what it should. -/
theorem read_definitionLine (inlined : Bool) (i : Nat) (c : Component) :
    read (definitionLine inlined i c) = some (definitionReading inlined i c) := by
  have hreading : definitionReading inlined i c =
      segmentsOf "  \x7b tag: " (definitionParts inlined i c) := by
    cases inlined <;> rfl
  rw [definitionLine_eq, hreading]
  exact read_lineOf (by decide) (definitionParts_isCode inlined i c)

theorem wordsFrom_word {w : Text} (hw : ∀ p ∈ w, isNamePoint p) (begun r : Text) :
    wordsFrom begun (w ++ r) = wordsFrom (begun ++ w) r := by
  induction w generalizing begun with
  | nil => simp
  | cons p w ih =>
    rw [List.forall_mem_cons] at hw
    rw [List.cons_append, wordsFrom, if_pos hw.1, ih hw.2, List.append_assoc, List.singleton_append]

/-- A word ends at the first character that no word holds. -/
theorem wordsFrom_end {begun : Text} (hb : begun ≠ []) {p : CodePoint} (hp : isNamePoint p = false)
    (r : Text) : wordsFrom begun (p :: r) = begun :: wordsFrom [] r := by
  rw [wordsFrom, if_neg (by simp [hp]), if_neg (by simpa using hb)]

/-- How a name starts, whatever follows it. -/
theorem take_localName (inlined : Bool) (i : Nat) (r : Text) :
    (localName inlined i ++ r).take 2 = if inlined then ("Co" : Text) else "lo" := by
  cases inlined <;> rfl

theorem localName_append_ne {inlined : Bool} {i : Nat} {r w : Text}
    (hw : w.take 2 ≠ ("Co" : Text) ∧ w.take 2 ≠ ("lo" : Text)) : localName inlined i ++ r ≠ w := by
  rintro rfl
  rw [take_localName] at hw
  cases inlined with
  | true => exact hw.1 rfl
  | false => exact hw.2 rfl

theorem localName_ne {inlined : Bool} {i : Nat} {w : Text}
    (hw : w.take 2 ≠ ("Co" : Text) ∧ w.take 2 ≠ ("lo" : Text)) : localName inlined i ≠ w := by
  have h := @localName_append_ne inlined i [] w hw
  rwa [List.append_nil] at h

theorem localName_append_not_declaring (inlined : Bool) (i : Nat) (r : Text) :
    localName inlined i ++ r ∉ declaringWords := by
  have hkeywords : ∀ w ∈ declaringWords, w.take 2 ≠ ("Co" : Text) ∧ w.take 2 ≠ ("lo" : Text) := by
    decide
  exact fun h => localName_append_ne (hkeywords _ h) rfl

theorem localName_not_declaring (inlined : Bool) (i : Nat) :
    localName inlined i ∉ declaringWords := by
  have h := localName_append_not_declaring inlined i []
  rwa [List.append_nil] at h

/-- The names that the import lines of a component declare. -/
def importNames (inlined : Bool) (i : Nat) : List Text :=
  if inlined then [localName inlined i ++ "Module", localName inlined i] else [localName inlined i]

theorem declared_import {w : Text} (hfrom : w ≠ ("from" : Text)) (has : w ≠ ("as" : Text)) :
    declared ["import", "as", w, "from"] = [w] := by
  have hdistinct : ("as" : Text) ≠ "from" := by decide
  simp [declared, hdistinct, hfrom, has]

theorem declared_none {ws : List Text} (himport : ws.head? ≠ some ("import" : Text))
    (hws : ∀ v ∈ ws, v ∉ declaringWords) : declared ws = [] := by
  rw [declared, if_neg himport, List.filterMap_eq_nil_iff]
  rintro ⟨v, x⟩ hpair
  have hv := hws v (List.of_mem_zip hpair).1
  exact if_neg (by simpa using hv)

theorem declared_const {w : Text} {ws : List Text} (hw : w ∉ declaringWords)
    (himport : w ≠ ("import" : Text)) (hws : ∀ v ∈ ws, v ∉ declaringWords) :
    declared ("const" :: w :: ws) = [w] := by
  have hfirst : ¬some ("const" : Text) = some ("import" : Text) := by decide
  have hconst : declaringWords.contains ("const" : Text) = true := by decide
  have hrest : declared (w :: ws) = [] :=
    declared_none (by simpa using himport) (List.forall_mem_cons.2 ⟨hw, hws⟩)
  rw [declared, if_neg (by simpa using himport), List.tail_cons] at hrest
  rw [declared, List.head?_cons, if_neg hfirst, List.tail_cons, List.zip_cons_cons,
    List.filterMap_cons, hrest, if_pos hconst]

/-- A name of a component between other code is a word of its own. -/
theorem words_localName {inlined : Bool} {i : Nat} {stem : Text} {before : List Text}
    (hstem : ∀ t, wordsFrom [] (stem ++ t) = before ++ wordsFrom [] t) {p : CodePoint}
    (hp : isNamePoint p = false) (r : Text) :
    wordsFrom [] (stem ++ (localName inlined i ++ p :: r)) =
      before ++ localName inlined i :: wordsFrom [] r := by
  have hempty : localName inlined i ≠ [] := localName_ne (by decide)
  rw [hstem, wordsFrom_word (localName_isWord inlined i), List.nil_append, wordsFrom_end hempty hp]

theorem words_localName_module {inlined : Bool} {i : Nat} {stem : Text} {before : List Text}
    (hstem : ∀ t, wordsFrom [] (stem ++ t) = before ++ wordsFrom [] t) {p : CodePoint}
    (hp : isNamePoint p = false) (r : Text) :
    wordsFrom [] (stem ++ (localName inlined i ++ ("Module" ++ p :: r))) =
      before ++ (localName inlined i ++ "Module") :: wordsFrom [] r := by
  have hempty : localName inlined i ++ ("Module" : Text) ≠ [] := localName_append_ne (by decide)
  have hmodule : ∀ p ∈ ("Module" : Text), isNamePoint p := by decide
  rw [hstem, wordsFrom_word (localName_isWord inlined i), List.nil_append, wordsFrom_word hmodule,
    wordsFrom_end hempty hp]

theorem declared_importReading (inlined : Bool) (i : Nat) (c : Component) (specifier : Text) :
    (importReading inlined i c specifier).flatMap (fun line => declared (line.flatMap words)) =
      importNames inlined i := by
  have hplain := localName_not_declaring inlined i
  have himport : localName inlined i ≠ "import" := localName_ne (by decide)
  have hliteral (us : List Nat) : words (.literal us) = [] := rfl
  have hconst (t : Text) :
      wordsFrom [] ("const " ++ t) = (["const"] : List Text) ++ wordsFrom [] t := rfl
  cases inlined with
  | true =>
    have hbinds (t : Text) : wordsFrom [] ("import * as " ++ t) =
        (["import", "as"] : List Text) ++ wordsFrom [] t := rfl
    have hequals (t : Text) : wordsFrom [] ("= (" ++ t) = ([] : List Text) ++ wordsFrom [] t := rfl
    have hfirst : words (.code ("import * as " ++ localName true i ++ "Module from ")) =
        (["import", "as", localName true i ++ "Module", "from"] : List Text) := by
      rw [List.append_assoc]
      exact words_localName_module hbinds rfl "from "
    have hsecond : words (.code ("const " ++ localName true i ++ " = (" ++ localName true i ++
        "Module as Record<string, unknown>)[")) = (["const", localName true i,
          localName true i ++ "Module", "as", "Record", "string", "unknown"] : List Text) := by
      rw [List.append_assoc, List.append_assoc, List.append_assoc]
      refine (words_localName hconst rfl ("= (" ++ (localName true i ++ _))).trans ?_
      exact congrArg (fun ws => _ :: _ :: ws)
        (words_localName_module hequals rfl "as Record<string, unknown>)[")
    have hsemicolon : words (.code ";") = [] := rfl
    have hbracket : words (.code "];") = [] := rfl
    have hfrom : localName true i ++ ("Module" : Text) ≠ "from" := localName_append_ne (by decide)
    have has : localName true i ++ ("Module" : Text) ≠ "as" := localName_append_ne (by decide)
    have hthird : ∀ v ∈ (["as", "Record", "string", "unknown"] : List Text),
        v ∉ declaringWords := by decide
    have hrest : ∀ v ∈ (localName true i ++ ("Module" : Text)) ::
        (["as", "Record", "string", "unknown"] : List Text), v ∉ declaringWords :=
      List.forall_mem_cons.2 ⟨localName_append_not_declaring true i _, hthird⟩
    rw [importReading, if_pos rfl, importNames, if_pos rfl]
    simp only [List.flatMap_cons, List.flatMap_nil, hfirst, hsecond, hsemicolon, hbracket, hliteral,
      List.append_nil, declared_import hfrom has, declared_const hplain himport hrest]
    rfl
  | false =>
    have hline : words (.code ("const " ++ localName false i ++ " = () => import(")) =
        (["const", localName false i, "import"] : List Text) := by
      rw [List.append_assoc]
      exact words_localName hconst rfl "= () => import("
    have hend : words (.code ");") = [] := rfl
    have hrest : ∀ v ∈ (["import"] : List Text), v ∉ declaringWords := by decide
    rw [importReading, if_neg Bool.false_ne_true, importNames, if_neg Bool.false_ne_true]
    simp only [List.flatMap_cons, List.flatMap_nil, hline, hend, hliteral, List.append_nil,
      declared_const hplain himport hrest]

/-- The line of a definition declares nothing. -/
theorem declared_definitionReading (inlined : Bool) (i : Nat) (c : Component) :
    declared ((definitionReading inlined i c).flatMap words) = [] := by
  have htag : words (.code "  \x7b tag: ") = (["tag"] : List Text) := rfl
  have hclass : words (.code ", className: ") = (["className"] : List Text) := rfl
  have hliteral (us : List Nat) : words (.literal us) = [] := rfl
  have hnew := localName_not_declaring inlined i
  cases inlined with
  | true =>
    have hstem (t : Text) : wordsFrom [] (", component: " ++ t) =
        (["component"] : List Text) ++ wordsFrom [] t := rfl
    have hlast : words (.code (", component: " ++ localName true i ++ " \x7d,")) =
        (["component", localName true i] : List Text) := by
      rw [List.append_assoc]
      exact words_localName hstem rfl "\x7d,"
    have hplain : ∀ v ∈ (["tag", "component"] : List Text), v ∉ declaringWords := by decide
    have hall := List.forall_mem_append.2 ⟨hplain, List.forall_mem_singleton.2 hnew⟩
    rw [definitionReading, if_pos rfl]
    simp only [List.flatMap_cons, List.flatMap_nil, htag, hliteral, hlast]
    exact declared_none (by rw [List.cons_append, List.head?_cons]; decide) hall
  | false =>
    have hstem (t : Text) : wordsFrom [] (", load: " ++ t) =
        (["load"] : List Text) ++ wordsFrom [] t := rfl
    have hlast : words (.code (", load: " ++ localName false i ++ " \x7d,")) =
        (["load", localName false i] : List Text) := by
      rw [List.append_assoc]
      exact words_localName hstem rfl "\x7d,"
    have hplain : ∀ v ∈ (["tag", "className", "load"] : List Text), v ∉ declaringWords := by
      decide
    have hall := List.forall_mem_append.2 ⟨hplain, List.forall_mem_singleton.2 hnew⟩
    rw [definitionReading, if_neg Bool.false_ne_true]
    simp only [List.flatMap_cons, List.flatMap_nil, htag, hclass, hliteral, hlast]
    exact declared_none (by rw [List.cons_append, List.head?_cons]; decide) hall

theorem declaredIn_eq {line : Text} {segments : List Segment} (h : read line = some segments) :
    declaredIn line = declared (segments.flatMap words) := by
  rw [declaredIn, h, Option.getD_some]

theorem declaredIn_importLines (inlined : Bool) (i : Nat) (c : Component) (specifier : Text) :
    (importLines inlined i c specifier).flatMap declaredIn = importNames inlined i := by
  have hlines {lines : List Text} {readings : List (List Segment)}
      (h : lines.map read = readings.map some) :
      lines.flatMap declaredIn = readings.flatMap fun line => declared (line.flatMap words) := by
    induction lines generalizing readings with
    | nil =>
      rw [List.map_nil, eq_comm, List.map_eq_nil_iff] at h
      rw [h]
      rfl
    | cons line lines ih =>
      obtain ⟨r, rs, rfl, hr, hrs⟩ := List.map_eq_cons_iff.1 h.symm
      rw [List.flatMap_cons, List.flatMap_cons, ih hrs.symm, declaredIn_eq hr.symm]
  rw [hlines (read_importLines inlined i c specifier), declared_importReading]

theorem declaredIn_definitionLine (inlined : Bool) (i : Nat) (c : Component) :
    declaredIn (definitionLine inlined i c) = [] := by
  rw [declaredIn_eq (read_definitionLine inlined i c), declared_definitionReading]

/-- A character that neither ends a line nor is part of a number. -/
def IsFixed (p : CodePoint) : Prop := p ≠ .scalar '\n' ∧ p.satisfies Char.isDigit = false

instance (p : CodePoint) : Decidable (IsFixed p) := inferInstanceAs (Decidable (_ ∧ _))

/-- What holds of the characters is checked by going through them. -/
theorem forall_mem_ofString {P : CodePoint → Prop} [DecidablePred P] {s : String} {cs : List Char}
    (h : s = String.ofList cs) (hcs : cs.all fun c => decide (P (.scalar c))) :
    ∀ p ∈ Text.ofString s, P p := by
  subst h
  intro p hp
  obtain ⟨c, hc, rfl⟩ := List.mem_map.1 hp
  rw [String.toList_ofList] at hc
  exact of_decide_eq_true (List.all_eq_true.1 hcs c hc)

theorem headLines_fixed : ∀ l ∈ headLines, ∀ p ∈ l, IsFixed p := by
  simp only [headLines, List.forall_mem_cons]
  and_intros
  all_goals first | exact List.forall_mem_nil _ | exact forall_mem_ofString rfl (by decide +kernel)

theorem betweenLines_fixed : ∀ l ∈ betweenLines, ∀ p ∈ l, IsFixed p := by
  simp only [betweenLines, List.forall_mem_cons]
  and_intros
  all_goals first | exact List.forall_mem_nil _ | exact forall_mem_ofString rfl (by decide +kernel)

theorem closingLines_fixed (mode : RegistrationMode) (inlined : Bool) :
    ∀ l ∈ closingLines mode inlined, ∀ p ∈ l, IsFixed p := by
  have hquoted : ∀ p ∈ Json.quote "ngElementsReady", IsFixed p := by decide +kernel
  have hself : ∀ l ∈ selfRegistrationLines, ∀ p ∈ l, IsFixed p := by
    simp only [selfRegistrationLines, readyVariable, List.forall_mem_cons, List.forall_mem_append]
    and_intros
    all_goals first
      | exact List.forall_mem_nil _ | exact forall_mem_ofString rfl (by decide +kernel)
      | exact hquoted
  have hloop : ∀ l ∈ loopLines, ∀ p ∈ l, IsFixed p := by
    simp only [loopLines, List.forall_mem_cons]
    and_intros
    all_goals first
      | exact List.forall_mem_nil _ | exact forall_mem_ofString rfl (by decide +kernel)
  have hresolve : ∀ l ∈ resolveLines inlined, ∀ p ∈ l, IsFixed p := by
    cases inlined
    all_goals
      simp only [resolveLines, Bool.false_eq_true, if_true, if_false, List.forall_mem_cons,
        List.forall_mem_append]
      and_intros
      all_goals first
        | exact List.forall_mem_nil _ | exact forall_mem_ofString rfl (by decide +kernel)
  have hdefine : ∀ l ∈ defineLines, ∀ p ∈ l, IsFixed p := by
    simp only [defineLines, List.forall_mem_cons]
    and_intros
    all_goals first
      | exact List.forall_mem_nil _ | exact forall_mem_ofString rfl (by decide +kernel)
  have hlast : ∀ l ∈ (if mode = .browser then selfRegistrationLines else []),
      ∀ p ∈ l, IsFixed p := by
    split
    · exact hself
    · exact List.forall_mem_nil _
  rw [closingLines]
  simp only [List.forall_mem_append]
  exact ⟨⟨⟨hloop, hresolve⟩, hdefine⟩, hlast⟩

/-- No line without a number declares the name of a component. -/
theorem not_mem_declaredIn {line : Text} (h : ∀ p ∈ line, IsFixed p) (inlined : Bool) (i : Nat) :
    localName inlined i ∉ declaredIn line := by
  intro hm
  obtain ⟨c, r, hdigits⟩ := List.exists_cons_of_ne_nil (@Nat.toDigits_ne_nil i 10)
  have hc : c ∈ Nat.toDigits 10 i := by
    rw [hdigits]
    exact List.mem_cons_self
  have hname : CodePoint.scalar c ∈ localName inlined i := by
    cases inlined <;> exact List.mem_append_right _ (List.mem_map.2 ⟨c, hc, rfl⟩)
  have hfixed := (h _ (subset_of_mem_declaredIn hm hname)).2
  have hdigit : c.isDigit := Nat.isDigit_of_mem_toDigits (by omega) (by omega) hc
  rw [CodePoint.satisfies, hdigit] at hfixed
  cases hfixed

/-- A component's name is among the names of its own import lines only. -/
theorem count_importNames (inlined : Bool) (n i : Nat) (hi : i < n) :
    ((List.range n).flatMap (importNames inlined)).count (localName inlined i) = 1 := by
  have hmodule (j k : Nat) : localName inlined j ++ ("Module" : Text) ≠ localName inlined k := by
    -- the letter M is in no name
    intro h
    have hm : CodePoint.scalar 'M' ∈ localName inlined k := by
      rw [← h]
      exact List.mem_append_right _ (by decide)
    have hstem : CodePoint.scalar 'M' ∉ ("Component" : Text) ∧
        CodePoint.scalar 'M' ∉ ("loadComponent" : Text) := by decide
    have hnumber : CodePoint.scalar 'M' ∉ Text.ofNat k := by
      intro hd
      obtain ⟨c, hc, heq⟩ := List.mem_map.1 hd
      have hdigit : c.isDigit := Nat.isDigit_of_mem_toDigits (by omega) (by omega) hc
      rw [CodePoint.scalar.inj heq] at hdigit
      cases hdigit
    cases inlined with
    | true => exact (List.mem_append.1 hm).elim hstem.1 hnumber
    | false => exact (List.mem_append.1 hm).elim hstem.2 hnumber
  have hdistinct {j k : Nat} (h : j ≠ k) : localName inlined j ≠ localName inlined k :=
    fun heq => h (localName_injective heq)
  have hnodup : ((List.range n).flatMap (importNames inlined)).Nodup := by
    rw [List.nodup_flatMap]
    refine ⟨fun j _ => ?_, List.nodup_range.imp fun {j k} hjk => ?_⟩
    · cases inlined <;> simp [importNames, hmodule]
    · have hjk := hdistinct hjk
      cases inlined with
      | true => simp [Function.onFun, importNames, hmodule, hjk.symm, (hmodule _ _).symm]
      | false => simp [Function.onFun, importNames, hjk.symm]
  refine List.count_eq_one_of_mem hnodup ?_
  refine List.mem_flatMap.2 ⟨i, List.mem_range.2 hi, ?_⟩
  cases inlined <;> simp [importNames]

/-- The import lines of the components, one block for each. -/
def importBlocks (current : Path) (settings : RegistrationSettings) (cs : List Component) :
    List (List Text) :=
  cs.zipIdx.map fun x => importLines settings.inlineComponents x.2 x.1
    (moduleSpecifier current x.1.file settings.directory settings.importExtension)

/-- The lines that define the elements, one for each component. -/
def definitionLines (settings : RegistrationSettings) (cs : List Component) : List Text :=
  cs.zipIdx.map fun x => definitionLine settings.inlineComponents x.2 x.1

variable (current : Path) (settings : RegistrationSettings) (cs : List Component)

theorem IsFixed.not_mem {lines : List Text} (h : ∀ l ∈ lines, ∀ p ∈ l, IsFixed p) :
    ∀ l ∈ lines, .scalar '\n' ∉ l :=
  fun l hl hm => (h l hl _ hm).1 rfl

/-- No text of a component gets a line end into its lines. -/
theorem lines_registrationModule :
    Text.splitOn '\n' (registrationModule current settings cs) =
      headLines ++ (importBlocks current settings cs).flatten ++ betweenLines ++
        definitionLines settings cs ++ closingLines settings.mode settings.inlineComponents ++
        [[]] := by
  have htext : registrationModule current settings cs =
      (headLines ++ (importBlocks current settings cs).flatten ++ betweenLines ++
        definitionLines settings cs ++
        closingLines settings.mode settings.inlineComponents).flatMap
          fun l => l ++ [.scalar '\n'] := by
    rw [closingLines, ← List.append_assoc, ← List.append_assoc, ← List.append_assoc]
    rfl
  have himports : ∀ l ∈ (importBlocks current settings cs).flatten, .scalar '\n' ∉ l := by
    intro l hl
    obtain ⟨block, hb, hl⟩ := List.mem_flatten.1 hl
    obtain ⟨x, _, rfl⟩ := List.mem_map.1 hb
    rw [importLines_eq] at hl
    obtain ⟨parts, hp, rfl⟩ := List.mem_map.1 hl
    obtain ⟨hfront, hparts⟩ := importParts_isCode _ x.2 x.1 _ parts hp
    exact not_mem_lineOf hfront hparts
  have hdefinitions : ∀ l ∈ definitionLines settings cs, .scalar '\n' ∉ l := by
    intro l hl
    obtain ⟨x, _, rfl⟩ := List.mem_map.1 hl
    rw [definitionLine_eq]
    exact not_mem_lineOf (by decide) (definitionParts_isCode _ x.2 x.1)
  have hclosing := closingLines_fixed settings.mode settings.inlineComponents
  rw [htext, Text.splitOn_lines]
  simp only [List.forall_mem_append]
  exact ⟨⟨⟨⟨IsFixed.not_mem headLines_fixed, himports⟩, IsFixed.not_mem betweenLines_fixed⟩,
    hdefinitions⟩, IsFixed.not_mem hclosing⟩

theorem declaredIn_importBlocks : (importBlocks current settings cs).flatten.flatMap declaredIn =
    (List.range cs.length).flatMap (importNames settings.inlineComponents) := by
  have hindices : cs.zipIdx.map Prod.snd = List.range cs.length := by
    rw [List.zipIdx_map_snd, List.range_eq_range']
  rw [← hindices, List.flatMap_map, importBlocks, ← List.flatMap_def, List.flatMap_assoc]
  exact congrArg (fun f => List.flatMap f cs.zipIdx)
    (funext fun x => declaredIn_importLines _ x.2 x.1 _)

/-- Only the import lines of a component declare its name, and they do so once. -/
theorem count_declaredIn {i : Nat} (hi : i < cs.length) :
    ((Text.splitOn '\n' (registrationModule current settings cs)).flatMap declaredIn).count
      (localName settings.inlineComponents i) = 1 := by
  have hdefinitions : (definitionLines settings cs).flatMap declaredIn = [] := by
    rw [List.flatMap_eq_nil_iff]
    intro l hl
    obtain ⟨x, _, rfl⟩ := List.mem_map.1 hl
    exact declaredIn_definitionLine _ x.2 x.1
  have hfixed {lines : List Text} (h : ∀ l ∈ lines, ∀ p ∈ l, IsFixed p) :
      (lines.flatMap declaredIn).count (localName settings.inlineComponents i) = 0 := by
    refine List.count_eq_zero_of_not_mem fun hm => ?_
    obtain ⟨l, hl, hm⟩ := List.mem_flatMap.1 hm
    exact not_mem_declaredIn (h l hl) _ i hm
  have hempty : ∀ l ∈ ([[]] : List Text), ∀ p ∈ l, IsFixed p := by simp
  have hclosing := closingLines_fixed settings.mode settings.inlineComponents
  rw [lines_registrationModule]
  simp only [List.flatMap_append, List.count_append, declaredIn_importBlocks, hdefinitions,
    hfixed headLines_fixed, hfixed betweenLines_fixed, hfixed hclosing, hfixed hempty,
    count_importNames _ _ i hi, List.count_nil]

end Registration

open Registration

/-- The module of a list of components can be read back. It consists of lines that only depend on
the mode and on how components are imported, one block of import lines for each component, and one
line of definition for each; the blocks and the definitions stand in the order of the components.
The string literals hold the module specifier, the class name and the tag, unit by unit, and what
stands around them is code with the name of the component. These names differ from each other, and
each of them is declared once in the module. -/
theorem registrationModule_reads (current : Path) (settings : RegistrationSettings)
    (cs : List Component) :
    let inlined := settings.inlineComponents
    let lines := Text.splitOn '\n' (registrationModule current settings cs)
    (∃ blocks definitions,
      lines = headLines ++ List.flatten blocks ++ betweenLines ++ definitions ++
        closingLines settings.mode inlined ++ [[]] ∧
      blocks.map (List.map read) = cs.zipIdx.map (fun (c, i) =>
        (importReading inlined i c (moduleSpecifier current c.file settings.directory
          settings.importExtension)).map some) ∧
      definitions.map read = cs.zipIdx.map fun (c, i) => some (definitionReading inlined i c)) ∧
    (∀ i j, localName inlined i = localName inlined j → i = j) ∧
    ∀ i < cs.length, (lines.flatMap declaredIn).count (localName inlined i) = 1 := by
  refine ⟨⟨importBlocks current settings cs, definitionLines settings cs,
    lines_registrationModule current settings cs, ?_, ?_⟩, fun i j => localName_injective,
    fun i hi => count_declaredIn current settings cs hi⟩
  · rw [importBlocks, List.map_map]
    exact List.map_congr_left fun x _ => read_importLines _ x.2 x.1 _
  · rw [definitionLines, List.map_map]
    exact List.map_congr_left fun x _ => read_definitionLine _ x.2 x.1

end CustomElements
