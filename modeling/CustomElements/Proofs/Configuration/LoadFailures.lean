import CustomElements.Proofs.Component.MarkedClasses
import CustomElements.Proofs.Configuration.ElementKeys
import CustomElements.Proofs.Json.LongIntegers
import CustomElements.Proofs.Json.PlainReading
import CustomElements.Proofs.Yaml.Faults

/-!
# How loading fails

Loading a configuration file fails with a mistake that says what is wrong with the file, except for
faults of two kinds: those of its text, and those of a setting that has no text or is a path that
cannot be resolved.
-/

namespace CustomElements

open CustomElements.Action
open Relation (ReflTransGen)
open Yaml (Node)

/-! ### Paths -/

namespace Workspace

/-- What is wrong with a path that cannot be resolved: the home directory of another user, or its
first name that no file can have. -/
inductive PathFault (w : Workspace) (base p : Path) : Fault → Prop where
  | home {name : Text} {rest : List Text} (written : p = ⟨.here, (.scalar '~' :: name) :: rest⟩)
    (named : name ≠ []) : PathFault w base p .noHome
  | name {q : Path} {before after : List Text} {name : Text} {f : Fault}
    (expanded : w.expandHome p = .ok q)
    (split : (w.current.join (base.join q)).parts = before ++ name :: after)
    (fine : ∀ n ∈ before, checkName n = .ok ()) (bad : checkName name = .error f) :
    PathFault w base p f

variable {w : Workspace} {base p : Path} {f : Fault}

theorem expandHome_eq_error : w.expandHome p = .error f ↔
    f = .noHome ∧ ∃ name rest, p = ⟨.here, (.scalar '~' :: name) :: rest⟩ ∧ name ≠ [] := by
  obtain ⟨anchor, parts⟩ := p
  constructor
  · intro h
    unfold expandHome at h
    split at h
    · cases h
    · next name rest hother hanchor hparts =>
      dsimp only at hanchor hparts
      subst hanchor hparts
      cases h
      exact ⟨rfl, name, rest, rfl, hother⟩
    · cases h
  · rintro ⟨rfl, name, rest, heq, hname⟩
    cases heq
    cases name with
    | nil => exact absurd rfl hname
    | cons p name => rfl

theorem resolveFrom_eq_error : w.resolveFrom base p = .error f ↔ PathFault w base p f := by
  constructor
  · intro h
    rcases exceptBind_eq_error.1 h with h | ⟨q, hq, h⟩
    · obtain ⟨rfl, name, rest, hp, hname⟩ := expandHome_eq_error.1 h
      exact .home hp hname
    · rcases exceptBind_eq_error.1 h with h | ⟨_, -, h⟩
      · obtain ⟨before, name, after, split, fine, bad⟩ := exceptForM_eq_error.1 h
        exact .name hq split fine bad
      · cases h
  · rintro (⟨hp, hname⟩ | ⟨hq, split, fine, bad⟩)
    · exact exceptBind_eq_error.2 (.inl (expandHome_eq_error.2 ⟨rfl, _, _, hp, hname⟩))
    · refine exceptBind_eq_error.2 (.inr ⟨_, hq, exceptBind_eq_error.2 (.inl ?_)⟩)
      exact exceptForM_eq_error.2 ⟨_, _, _, split, fine, bad⟩

end Workspace

/-! ### Values of one kind -/

/-- An integer with more digits than can be written. -/
inductive Value.IsOverlong : Value → Prop where
  | int {n : Int} (digits : tenTo Numeral.digitLimit ≤ n.natAbs) : IsOverlong (.int n)

section Values

variable {v : Value} {f : Fault}

theorem settingText_eq_error : settingText v = .error f ↔ f = .badValue ∧ v.IsOverlong := by
  constructor
  · intro h
    unfold settingText at h
    split at h
    · split at h
      · cases h
      · next hn =>
        cases h
        exact ⟨rfl, .int (Nat.le_of_not_lt hn)⟩
    · cases h
  · rintro ⟨rfl, ⟨digits⟩⟩
    rw [settingText, if_neg (Nat.not_lt.2 digits)]

theorem asText_eq_error : asText v = .error f ↔ f = .badValue ∧ v.IsOverlong := by
  rw [← settingText_eq_error]
  unfold asText
  split
  · cases settingText _ <;> simp [Functor.map, Except.map]
  · cases settingText _ <;> simp [Functor.map, Except.map]
  · cases settingText _ <;> simp [Functor.map, Except.map]
  · next hint _ =>
    rw [settingText_eq_error]
    refine iff_of_false nofun ?_
    rintro ⟨-, ⟨_⟩⟩
    exact hint _ rfl

theorem mapM_settingText_eq_error {vs : List Value} : vs.mapM settingText = .error f ↔
    f = .badValue ∧ ∃ i ∈ vs, i.IsOverlong := by
  rw [exceptMapM_eq_error_of_only fun _ _ h => (settingText_eq_error.1 h).1]
  simp only [settingText_eq_error, true_and]

theorem asTexts_eq_error : asTexts v = .error f ↔
    f = .badValue ∧ ∃ vs, v = .list vs ∧ ∃ i ∈ vs, i.IsOverlong := by
  unfold asTexts
  split
  · exact iff_of_false nofun nofun
  · next vs =>
    rw [mapM_settingText_eq_error]
    refine and_congr_right' ?_
    constructor
    · rintro ⟨i, hi, hlong⟩
      exact ⟨vs, rfl, i, (List.mem_filter.1 hi).1, hlong⟩
    · rintro ⟨_, hvs, i, hi, hlong⟩
      obtain rfl := Value.list.inj hvs
      exact ⟨i, List.mem_filter.2 ⟨hi, by cases hlong; rfl⟩, hlong⟩
  · exact iff_of_false nofun nofun
  · next hother _ =>
    refine iff_of_false nofun ?_
    rintro ⟨-, vs, rfl, -⟩
    exact hother vs rfl

end Values

/-! ### Settings -/

/-- The kinds of settings whose values can keep a file from being loaded. -/
inductive SettingKind where
  | text
  /-- A list of texts. -/
  | texts
  /-- A build target: a text, or a mapping with its parts. -/
  | target
  | path

/-- What names the parts of a build target; the last one may be missing. -/
def targetParts : List Text := ["project", "target", "configuration"]

/-- How a setting fails that is seen from the directory `root`. -/
inductive SettingFails (w : Workspace) (root : Path) : SettingKind × Value → Failure → Prop where
  | digits {kind : SettingKind} {v : Value} (single : kind ≠ .texts) (overlong : v.IsOverlong) :
    SettingFails w root (kind, v) (.fault .badValue)
  | item {vs : List Value} {v : Value} (mem : v ∈ vs) (overlong : v.IsOverlong) :
    SettingFails w root (.texts, .list vs) (.fault .badValue)
  | part {es : List (Value × Value)} {key : Text} (mem : key ∈ targetParts)
    (overlong : ((Value.map es).get key).IsOverlong) :
    SettingFails w root (.target, .map es) (.fault .badValue)
  | incomplete {es : List (Value × Value)}
    (readable : ∀ key ∈ targetParts, ¬((Value.map es).get key).IsOverlong) {key : Text}
    (mem : key ∈ targetParts.take 2)
    (missing : ∀ t, asText ((Value.map es).get key) = .ok (some t) → t = []) :
    SettingFails w root (.target, .map es) (.mistake .targetIncomplete)
  | path {v : Value} {t : Text} {f : Fault} (text : asText v = .ok (some t)) (filled : t ≠ [])
    (fault : w.PathFault root (.ofText t) f) : SettingFails w root (.path, v) (.fault f)

/-- How the first of some settings fails that fails. -/
def FirstFails (w : Workspace) (root : Path) : List (SettingKind × Value) → Failure → Prop
  | [], _ => False
  | s :: row, e =>
    SettingFails w root s e ∨ (∀ e', ¬SettingFails w root s e') ∧ FirstFails w root row e

theorem outcome_ofFaults_eq_ok {α : Type} {r : Except Fault α} {x : α} {w : Workspace} :
    ((ofFaults r).outcome w).1 = .ok x ↔ r = .ok x := by
  cases r <;> simp [Except.mapError]

/-- An action that changes nothing and fails in certain ways only. -/
structure Action.FailsOnly {α : Type} (w : Workspace) (P : Failure → Prop) (a : Action α) :
    Prop where
  unchanged : (a.outcome w).2 = w
  failure : ∀ e, (a.outcome w).1 = .error e ↔ P e

namespace Action.FailsOnly

variable {α β : Type} {w : Workspace} {P Q : Failure → Prop}

theorem congr {a : Action α} (h : FailsOnly w P a) (heq : ∀ e, P e ↔ Q e) : FailsOnly w Q a :=
  ⟨h.unchanged, fun e => (h.failure e).trans (heq e)⟩

theorem of_outcome_eq {a b : Action α} (hb : FailsOnly w P b) (h : a.outcome w = b.outcome w) :
    FailsOnly w P a :=
  ⟨h ▸ hb.unchanged, h ▸ hb.failure⟩

theorem pure (x : α) : FailsOnly w (fun _ => False) (Pure.pure x) :=
  ⟨rfl, fun _ => iff_of_false nofun not_false⟩

theorem fail (m : Mistake) : FailsOnly w (· = .mistake m) (Action.fail m : Action α) :=
  ⟨rfl, fun _ => ⟨fun h => by cases h; rfl, fun h => h ▸ rfl⟩⟩

theorem faulty (f : Fault) : FailsOnly w (· = .fault f) (Action.faulty f : Action α) :=
  ⟨rfl, fun _ => ⟨fun h => by cases h; rfl, fun h => h ▸ rfl⟩⟩

theorem ofFaults (r : Except Fault α) :
    FailsOnly w (fun e => ∃ f, r = .error f ∧ e = .fault f) (Action.ofFaults r) := by
  cases r with
  | ok x => exact ⟨rfl, fun _ => iff_of_false nofun nofun⟩
  | error f =>
    refine ⟨rfl, fun e => ⟨fun h => ⟨f, rfl, (Except.error.inj h).symm⟩, ?_⟩⟩
    rintro ⟨_, hf, rfl⟩
    cases hf
    rfl

theorem look (g : Workspace → Except Fault α) :
    FailsOnly w (fun e => ∃ f, g w = .error f ∧ e = .fault f) (Action.look g) := by
  have h := ofFaults (w := w) (g w)
  exact ⟨(congrArg Prod.snd (outcome_look g w)), fun e => by
    rw [← h.failure e, outcome_look, outcome_ofFaults]⟩

/-- A sequence fails as its first step does, or as its next one does after an answer. -/
theorem bind {a : Action α} {g : α → Action β} {R : α → Failure → Prop} (ha : FailsOnly w P a)
    (hg : ∀ x, (a.outcome w).1 = .ok x → FailsOnly w (R x) (g x)) :
    FailsOnly w (fun e => P e ∨ ∃ x, (a.outcome w).1 = .ok x ∧ R x e) (a >>= g) := by
  rcases hr : a.outcome w with ⟨r, w'⟩
  obtain rfl : w' = w := by simpa [hr] using ha.unchanged
  simp only [hr] at hg
  cases r with
  | error e₀ =>
    have hP (e : Failure) : P e ↔ e₀ = e := by
      rw [← ha.failure e, hr, Except.error.injEq]
    refine ⟨by rw [outcome_bind_error hr], fun e => ?_⟩
    rw [outcome_bind_error hr, hP, Except.error.injEq]
    exact (or_iff_left nofun).symm
  | ok x =>
    have hP (e : Failure) : ¬P e := by
      rw [← ha.failure e, hr]
      nofun
    refine ⟨by rw [outcome_bind_ok hr]; exact (hg x rfl).unchanged, fun e => ?_⟩
    rw [outcome_bind_ok hr, (hg x rfl).failure, or_iff_right (hP e)]
    constructor
    · exact fun h => ⟨x, rfl, h⟩
    · rintro ⟨_, hx, h⟩
      cases hx
      exact h

/-- A sequence whose next step fails in the same ways after each answer. -/
theorem later {a : Action α} {g : α → Action β} (ha : FailsOnly w P a)
    (hg : ∀ x, FailsOnly w Q (g x)) :
    FailsOnly w (fun e => P e ∨ (∀ e', ¬P e') ∧ Q e) (a >>= g) := by
  refine (ha.bind fun x _ => hg x).congr fun e => or_congr_right ?_
  rw [exists_and_right]
  refine and_congr_left' ?_
  simp only [← ha.failure]
  cases (a.outcome w).1 <;> simp

end Action.FailsOnly

section Kinds

variable {w : Workspace} {root : Path} {v : Value} {e : Failure} {es : List (Value × Value)}

theorem failsOnly_asText (v : Value) : FailsOnly w (fun e => v.IsOverlong ∧ e = .fault .badValue)
    (Action.ofFaults (asText v)) := by
  refine (FailsOnly.ofFaults _).congr fun e => ?_
  simp only [asText_eq_error, and_assoc, exists_eq_left]

theorem failsOnly_text (v : Value) :
    FailsOnly w (SettingFails w root (.text, v)) (Action.ofFaults (asText v)) := by
  refine (failsOnly_asText v).congr fun e => ⟨?_, ?_⟩
  · rintro ⟨overlong, rfl⟩
    exact .digits nofun overlong
  · rintro ⟨-, overlong⟩
    exact ⟨overlong, rfl⟩

theorem failsOnly_texts (v : Value) :
    FailsOnly w (SettingFails w root (.texts, v)) (Action.ofFaults (asTexts v)) := by
  refine (FailsOnly.ofFaults _).congr fun e => ?_
  simp only [asTexts_eq_error, and_assoc, exists_eq_left]
  constructor
  · rintro ⟨⟨vs, rfl, i, mem, overlong⟩, rfl⟩
    exact .item mem overlong
  · rintro (⟨single, -⟩ | ⟨mem, overlong⟩)
    · exact absurd rfl single
    · exact ⟨⟨_, rfl, _, mem, overlong⟩, rfl⟩

theorem failsOnly_pathOf (o : Option Text) : FailsOnly w
    (fun e => ∃ t f, o = some t ∧ t ≠ [] ∧ w.PathFault root (.ofText t) f ∧ e = .fault f)
    (match nonempty? o with
      | some t => do return some (← Action.look fun w => w.resolveFrom root (.ofText t))
      | none => return none : Action (Option Path)) := by
  cases h : nonempty? o with
  | none =>
    refine (FailsOnly.pure _).congr fun e => iff_of_false id ?_
    rintro ⟨t, f, ho, filled, -⟩
    rw [nonempty?_eq_some.2 ⟨ho, filled⟩] at h
    cases h
  | some t =>
    obtain ⟨rfl, filled⟩ := nonempty?_eq_some.1 h
    refine ((FailsOnly.look _).later fun _ => FailsOnly.pure _).congr fun e => ?_
    rw [and_false, or_false]
    constructor
    · rintro ⟨f, hf, rfl⟩
      exact ⟨t, f, rfl, filled, Workspace.resolveFrom_eq_error.1 hf, rfl⟩
    · rintro ⟨_, f, ht, -, fault, rfl⟩
      obtain rfl := Option.some.inj ht
      exact ⟨f, Workspace.resolveFrom_eq_error.2 fault, rfl⟩

theorem failsOnly_path (v : Value) :
    FailsOnly w (SettingFails w root (.path, v)) (asPath root v) := by
  refine ((failsOnly_asText v).bind fun o _ => failsOnly_pathOf o).congr fun e => ?_
  constructor
  · rintro (⟨overlong, rfl⟩ | ⟨o, ho, t, f, rfl, filled, fault, rfl⟩)
    · exact .digits nofun overlong
    · exact .path (outcome_ofFaults_eq_ok.1 ho) filled fault
  · rintro (⟨-, overlong⟩ | _ | _ | _ | ⟨text, filled, fault⟩)
    · exact .inl ⟨overlong, rfl⟩
    · exact .inr ⟨_, outcome_ofFaults_eq_ok.2 text, _, _, rfl, filled, fault, rfl⟩

/-- A value has a text, or none, unless it is overlong. -/
theorem exists_asText_iff : (∃ o, asText v = .ok o) ↔ ¬v.IsOverlong := by
  have herror (f : Fault) : asText v = .error f ↔ f = .badValue ∧ v.IsOverlong := asText_eq_error
  cases h : asText v with
  | ok o =>
    refine iff_of_true ⟨o, rfl⟩ fun hlong => ?_
    have hbad := (herror .badValue).2 ⟨rfl, hlong⟩
    rw [h] at hbad
    cases hbad
  | error f => exact iff_of_false nofun fun hlong => hlong ((herror f).1 h).2

theorem nonempty?_eq_none {o : Option Text} (h : asText v = .ok o) :
    nonempty? o = none ↔ ∀ t, asText v = .ok (some t) → t = [] := by
  simp only [h, Except.ok.injEq, Option.eq_none_iff_forall_ne_some, ne_eq, nonempty?_eq_some,
    not_and_not_right]

/-- A build target with parts fails if one of them is overlong, or if one of the first two is
missing. -/
theorem settingFails_parts : SettingFails w root (.target, .map es) e ↔
    ((∃ key ∈ targetParts, ((Value.map es).get key).IsOverlong) ∧ e = .fault .badValue) ∨
    (∀ key ∈ targetParts, ¬((Value.map es).get key).IsOverlong) ∧
      (∃ key ∈ targetParts.take 2,
        ∀ t, asText ((Value.map es).get key) = .ok (some t) → t = []) ∧
      e = .mistake .targetIncomplete := by
  constructor
  · rintro (⟨-, ⟨⟩⟩ | _ | ⟨mem, overlong⟩ | ⟨readable, mem, missing⟩)
    · exact .inl ⟨⟨_, mem, overlong⟩, rfl⟩
    · exact .inr ⟨readable, ⟨_, mem, missing⟩, rfl⟩
  · rintro (⟨⟨key, mem, overlong⟩, rfl⟩ | ⟨readable, ⟨key, mem, missing⟩, rfl⟩)
    · exact .part mem overlong
    · exact .incomplete readable mem missing

theorem failsOnly_targetOf (p t c : Option Text) : FailsOnly w
    (fun e => (nonempty? p = none ∨ nonempty? t = none) ∧ e = .mistake .targetIncomplete)
    (match nonempty? p, nonempty? t with
      | some p, some t => return some (Text.join ":" ([p, t] ++ (nonempty? c).toList))
      | _, _ => Action.fail .targetIncomplete : Action (Option Text)) := by
  cases nonempty? p with
  | none => exact (FailsOnly.fail _).congr fun e => by simp
  | some p =>
    cases nonempty? t with
    | none => exact (FailsOnly.fail _).congr fun e => by simp
    | some t => exact (FailsOnly.pure _).congr fun e => by simp

theorem failsOnly_parts (es : List (Value × Value)) :
    FailsOnly w (SettingFails w root (.target, .map es)) (asBuildTarget (.map es)) := by
  refine ((failsOnly_asText _).bind fun p hp => (failsOnly_asText _).bind fun t ht =>
    (failsOnly_asText _).bind fun c hc => failsOnly_targetOf p t c).congr fun e => ?_
  have hparts (P : Text → Prop) :
      (∃ key ∈ targetParts, P key) ↔ P "project" ∨ P "target" ∨ P "configuration" := by
    simp [targetParts]
  have hneeded (P : Text → Prop) :
      (∃ key ∈ targetParts.take 2, P key) ↔ P "project" ∨ P "target" := by
    simp [targetParts]
  have hall (P : Text → Prop) :
      (∀ key ∈ targetParts, P key) ↔ P "project" ∧ P "target" ∧ P "configuration" := by
    simp [targetParts]
  simp only [settingFails_parts, hparts, hneeded, hall, outcome_ofFaults_eq_ok]
  generalize (Value.map es).get "project" = project, (Value.map es).get "target" = target,
    (Value.map es).get "configuration" = configuration
  cases hp : asText project with
  | error f => simp [(asText_eq_error.1 hp).2]
  | ok p =>
    have hproject := exists_asText_iff.1 ⟨p, hp⟩
    cases ht : asText target with
    | error f => simp [hproject, (asText_eq_error.1 ht).2]
    | ok t =>
      have htarget := exists_asText_iff.1 ⟨t, ht⟩
      cases hc : asText configuration with
      | error f => simp [hproject, htarget, (asText_eq_error.1 hc).2]
      | ok c =>
        have hconfiguration := exists_asText_iff.1 ⟨c, hc⟩
        rw [← hp, ← ht, ← nonempty?_eq_none hp, ← nonempty?_eq_none ht]
        simp [hp, ht, hproject, htarget, hconfiguration]

theorem failsOnly_target (v : Value) :
    FailsOnly w (SettingFails w root (.target, v)) (asBuildTarget v) := by
  by_cases hmap : ∃ es, v = .map es
  · obtain ⟨es, rfl⟩ := hmap
    exact failsOnly_parts es
  · have hv : asBuildTarget v = Action.ofFaults (asText v) := by
      cases v with
      | map es => exact absurd ⟨es, rfl⟩ hmap
      | _ => rfl
    rw [hv]
    refine (failsOnly_asText v).congr fun e => ⟨?_, ?_⟩
    · rintro ⟨overlong, rfl⟩
      exact .digits nofun overlong
    · rintro (⟨-, overlong⟩ | _ | _ | _ | _)
      · exact ⟨overlong, rfl⟩
      · exact absurd ⟨_, rfl⟩ hmap
      · exact absurd ⟨_, rfl⟩ hmap

end Kinds

/-- The settings of a file that can keep it from being loaded, in the order in which they are
read. -/
def settingRow (data : Value) : List (SettingKind × Value) :=
  [(.texts, data.get "elementOutputs"), (.target, data.get "buildTarget"),
    (.text, data.get "outputHashing"), (.text, data.get "outputFileName"),
    (.path, data.get "browserEntryDir"),
    (.text, (Value.map (asEntries (data.get "discovery"))).get "marker"),
    (.path, data.get "tsconfig"), (.path, data.get "outDir"), (.path, data.get "rootDir"),
    (.text, data.get "importExtension")]

/-- Settings are read without a change, and the first one that fails decides how that ends. -/
theorem Configuration.settings_failsOnly (w : Workspace) (root : Path) (data : Value) :
    FailsOnly w (FirstFails w root (settingRow data)) (settings root data) := by
  refine (failsOnly_texts _).later fun _ => (failsOnly_target _).later fun _ => ?_
  refine (failsOnly_text _).later fun _ => (failsOnly_text _).later fun _ => ?_
  refine (failsOnly_path _).later fun _ => (failsOnly_text _).later fun _ => ?_
  refine (failsOnly_path _).later fun _ => (failsOnly_path _).later fun _ => ?_
  exact (failsOnly_path _).later fun _ => (failsOnly_text _).later fun _ => FailsOnly.pure _

/-! ### Files -/

namespace Configuration

/-- How the text of a file fails to give a value. -/
inductive ContentFails (file : Path) (cs : List Char) : Failure → Prop where
  | json (ending : Text.lower file.suffix = ".json") (filled : Text.isBlank (.ofChars cs) = false)
    (malformed : Json.parse (.ofChars cs) = .error .malformed) :
    ContentFails file cs (.mistake (.configMalformed file.name))
  | digits (ending : Text.lower file.suffix = ".json") (filled : Text.isBlank (.ofChars cs) = false)
    (tooMany : Json.parse (.ofChars cs) = .error .tooManyDigits) :
    ContentFails file cs (.fault .badValue)
  | yaml (ending : Text.lower file.suffix = ".yml" ∨ Text.lower file.suffix = ".yaml")
    (filled : Text.isBlank (.ofChars cs) = false) (malformed : Yaml.read cs = .error .malformed) :
    ContentFails file cs (.mistake (.configMalformed file.name))
  | fault {f : Fault} (ending : Text.lower file.suffix = ".yml" ∨ Text.lower file.suffix = ".yaml")
    (filled : Text.isBlank (.ofChars cs) = false) (fault : Yaml.read cs = .error (.fault f)) :
    ContentFails file cs (.fault f)

/-- How a value of a file fails to be a configuration. -/
inductive ValueFails (w : Workspace) (file : Path) : Value → Failure → Prop where
  | root {v : Value} (other : ∀ es, v ≠ .map es) :
    ValueFails w file v (.mistake (.configNoMapping file.name))
  | elements {es : List (Value × Value)} (other : ¬TakesElements ((Value.map es).get "elements")) :
    ValueFails w file (.map es) (.mistake .elementsNoCollection)
  | setting {es : List (Value × Value)} {e : Failure}
    (taken : TakesElements ((Value.map es).get "elements"))
    (first : FirstFails w file.parent (settingRow (.map es)) e) : ValueFails w file (.map es) e

/-- How a file fails to be loaded, by its contents. -/
inductive LoadFails (w : Workspace) (file : Path) (cs : List Char) : Failure → Prop where
  | content {e : Failure} (fails : ContentFails file cs e) : LoadFails w file cs e
  | value {v : Value} {e : Failure} (value : ((configurationValue file).outcome w).1 = .ok v)
    (fails : ValueFails w file v e) : LoadFails w file cs e

/-- What in the text of a file is a fault: in JSON an integer with too many digits; in YAML a word,
or a part of the tree whose text does not have the form that its tag asks for. -/
inductive FaultyContent (suffix : Text) (cs : List Char) : Fault → Prop where
  | digits (ending : suffix = ".json") (long : Json.HasLongInteger (.ofChars cs)) :
    FaultyContent suffix cs .badValue
  | word {f : Fault} (ending : suffix = ".yml" ∨ suffix = ".yaml") (word : Yaml.FaultyWord cs f) :
    FaultyContent suffix cs f
  | part {f : Fault} {n m : Node} (ending : suffix = ".yml" ∨ suffix = ".yaml")
    (document : Node.ofStream? (.ofChars cs) = .ok (some n))
    (part : ReflTransGen Node.HasPart n m) (misfits : m.Misfits f) : FaultyContent suffix cs f

section Loading

variable {w : Workspace} {p file : Path} {cs : List Char}

theorem not_yaml_of_json (ending : Text.lower file.suffix = ".json") :
    ¬(Text.lower file.suffix = ".yml" ∨ Text.lower file.suffix = ".yaml") := by
  rw [ending]
  decide

theorem contentFails_json (ending : Text.lower file.suffix = ".json")
    (filled : Text.isBlank (.ofChars cs) = false) {e : Failure} : ContentFails file cs e ↔
      (Json.parse (.ofChars cs) = .error .malformed ∧ e = .mistake (.configMalformed file.name)) ∨
      Json.parse (.ofChars cs) = .error .tooManyDigits ∧ e = .fault .badValue := by
  constructor
  · rintro (⟨-, -, malformed⟩ | ⟨-, -, tooMany⟩ | ⟨yaml, -⟩ | ⟨yaml, -⟩)
    · exact .inl ⟨malformed, rfl⟩
    · exact .inr ⟨tooMany, rfl⟩
    · exact absurd yaml (not_yaml_of_json ending)
    · exact absurd yaml (not_yaml_of_json ending)
  · rintro (⟨malformed, rfl⟩ | ⟨tooMany, rfl⟩)
    · exact .json ending filled malformed
    · exact .digits ending filled tooMany

theorem contentFails_yaml
    (ending : Text.lower file.suffix = ".yml" ∨ Text.lower file.suffix = ".yaml")
    (filled : Text.isBlank (.ofChars cs) = false) {e : Failure} : ContentFails file cs e ↔
      (Yaml.read cs = .error .malformed ∧ e = .mistake (.configMalformed file.name)) ∨
      ∃ f, Yaml.read cs = .error (.fault f) ∧ e = .fault f := by
  constructor
  · rintro (⟨json, -⟩ | ⟨json, -⟩ | ⟨-, -, malformed⟩ | ⟨-, -, fault⟩)
    · exact absurd ending (not_yaml_of_json json)
    · exact absurd ending (not_yaml_of_json json)
    · exact .inl ⟨malformed, rfl⟩
    · exact .inr ⟨_, fault, rfl⟩
  · rintro (⟨malformed, rfl⟩ | ⟨f, fault, rfl⟩)
    · exact .yaml ending filled malformed
    · exact .fault ending filled fault

theorem configurationValue_failsOnly (hread : w.readText file = .ok cs)
    (hsuffix : Text.lower file.suffix = ".json" ∨ Text.lower file.suffix = ".yml" ∨
      Text.lower file.suffix = ".yaml") :
    FailsOnly w (ContentFails file cs) (configurationValue file) := by
  rw [configurationValue]
  refine FailsOnly.of_outcome_eq ?_ (outcome_get_bind _ w)
  rw [hread]
  dsimp only
  cases filled : Text.isBlank (.ofChars cs) with
  | true =>
    refine (FailsOnly.pure _).congr fun e => iff_of_false id ?_
    rintro (⟨-, h, -⟩ | ⟨-, h, -⟩ | ⟨-, h, -⟩ | ⟨-, h, -⟩)
    all_goals exact absurd (filled.symm.trans h) (by decide)
  | false =>
    rw [if_neg Bool.false_ne_true]
    rcases hsuffix with ending | ending
    · rw [if_pos ending]
      cases h : Json.parse (.ofChars cs) with
      | ok j => exact (FailsOnly.pure _).congr fun e => by simp [contentFails_json ending filled, h]
      | error r =>
        cases r with
        | malformed =>
          exact (FailsOnly.fail _).congr fun e => by simp [contentFails_json ending filled, h]
        | tooManyDigits =>
          exact (FailsOnly.faulty _).congr fun e => by simp [contentFails_json ending filled, h]
    · have hyaml : (Text.lower file.suffix = (".yml" : Text) ||
          Text.lower file.suffix = (".yaml" : Text)) := by
        simpa using ending
      rw [if_neg fun json => not_yaml_of_json json ending, if_pos hyaml]
      cases h : Yaml.read cs with
      | ok v => exact (FailsOnly.pure _).congr fun e => by simp [contentFails_yaml ending filled, h]
      | error r =>
        cases r with
        | malformed =>
          exact (FailsOnly.fail _).congr fun e => by simp [contentFails_yaml ending filled, h]
        | fault f =>
          exact (FailsOnly.faulty _).congr fun e => by simp [contentFails_yaml ending filled, h]

theorem ofValue_failsOnly (w : Workspace) (file : Path) (v : Value) :
    FailsOnly w (ValueFails w file v) (ofValue file v) := by
  cases v with
  | map es =>
    by_cases taken : TakesElements ((Value.map es).get "elements")
    · rw [ofValue_of_takesElements taken, map_eq_pure_bind]
      refine ((settings_failsOnly w _ _).later fun _ => FailsOnly.pure _).congr fun e => ?_
      rw [and_false, or_false]
      constructor
      · exact .setting taken
      · rintro (other | other | ⟨-, first⟩)
        · exact absurd rfl (other es)
        · exact absurd taken other
        · exact first
    · have helements : ofValue file (.map es) = fail .elementsNoCollection := by
        rw [ofValue]
        generalize (Value.map es).get "elements" = v at taken
        cases v with
        | null => exact absurd .none taken
        | map es => exact absurd (.mapping es) taken
        | list vs => exact absurd (.list vs) taken
        | _ => rfl
      rw [helements]
      refine (FailsOnly.fail _).congr fun e => ⟨?_, ?_⟩
      · rintro rfl
        exact .elements taken
      · rintro (other | _ | ⟨taken', -⟩)
        · exact absurd rfl (other es)
        · rfl
        · exact absurd taken' taken
  | _ =>
    refine (FailsOnly.fail (.configNoMapping file.name)).congr fun e => ⟨?_, ?_⟩
    · rintro rfl
      exact .root fun es h => by cases h
    · rintro ⟨⟩
      rfl

theorem load_failsOnly (hpath : (do w.resolve (← w.expandHome p)) = .ok file)
    (hfile : w.isFile file) (hread : w.readText file = .ok cs)
    (hsuffix : Text.lower file.suffix = ".json" ∨ Text.lower file.suffix = ".yml" ∨
      Text.lower file.suffix = ".yaml") :
    FailsOnly w (LoadFails w file cs) (load p) := by
  have hload := (configurationValue_failsOnly hread hsuffix).bind fun v _ =>
    ofValue_failsOnly w file v
  refine (hload.of_outcome_eq (load_eq_ofValue hpath hfile)).congr fun e => ⟨?_, ?_⟩
  · rintro (fails | ⟨v, value, fails⟩)
    · exact .content fails
    · exact .value value fails
  · rintro (fails | ⟨value, fails⟩)
    · exact .inl fails
    · exact .inr ⟨_, value, fails⟩

/-- A fault of a text has its cause in the text. -/
theorem faultyContent_of_fails {f : Fault} (h : ContentFails file cs (.fault f)) :
    FaultyContent (Text.lower file.suffix) cs f := by
  rcases h with _ | ⟨ending, -, tooMany⟩ | _ | ⟨ending, -, fault⟩
  · exact .digits ending (Json.hasLongInteger_of_parse tooMany)
  · rcases exceptBind_eq_error.1 fault with hdocument | ⟨n, hdocument, hvalue⟩
    · exact .word ending (Node.ofStream?_fault hdocument)
    · cases n with
      | none => cases hvalue
      | some n =>
        obtain ⟨m, part, misfits⟩ := Node.valueAt_fault hvalue
        exact .part ending hdocument part misfits

theorem firstFails_mistake {root : Path} {row : List (SettingKind × Value)} {m : Mistake}
    (h : FirstFails w root row (.mistake m)) : m = .targetIncomplete := by
  induction row with
  | nil => exact h.elim
  | cons s row ih =>
    rcases h with h | ⟨-, h⟩
    · cases h
      rfl
    · exact ih h

end Loading

/-- A setting that looks like a day which the calendar does not have. -/
def missingDayYaml : List Char := "outDir: 2001-02-30".toList

/-- A setting with a path into the home directory of another user. -/
def otherHomeYaml : List Char := "outDir: ~nobody/x".toList

def faultyWorkspace : Workspace := { Workspace.bare with
  files := .dir [("ws", .dir [("day.yml", .file (Bytes.ofChars missingDayYaml)),
    ("home.yml", .file (Bytes.ofChars otherHomeYaml))])] }

/-- What is read from a document, if it is a mapping of one text: its key, and what is under it. -/
def onePair? {ε : Type} : Except ε (Option Node) → Option (Text × Yaml.Tag × Text)
  | .ok (some (.mapping .mapping none [(.scalar .text key, .scalar t v)])) => some (key, t, v)
  | _ => none

theorem eq_of_onePair? {ε : Type} {read : Except ε (Option Node)} {key v : Text} {t : Yaml.Tag}
    (h : onePair? read = some (key, t, v)) :
    read = .ok (some (.mapping .mapping none [(.scalar .text key, .scalar t v)])) := by
  unfold onePair? at h
  split at h
  · cases h
    rfl
  · cases h

end Configuration

end CustomElements
