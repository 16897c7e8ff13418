import CustomElements.Proofs.Component.MissingLists

/-!
# The value of an object literal

The members of an object literal are gone through in order, and later ones override earlier ones.
A spread member gives all entries of what it spreads; a pair, a shorthand and a method give their
key. What names and expressions denote is the choice of a `Scope`.
-/

namespace CustomElements

open TypeScript (Node Lexeme)

namespace TypeScript

/-- The text of the code point with the given hexadecimal number. -/
def codePointText (digits : List Char) : Text :=
  ((hexValue? digits).bind CodePoint.ofNat?).toList

/-- The value of a row of octal digits. -/
def octalValue (digits : List Char) : Nat :=
  digits.foldl (fun n c => n * 8 + (c.toNat - '0'.toNat)) 0

/-- The text that an escape sequence of the language stands for. -/
def escapeText : List Char → Text
  | '\\' :: 'u' :: '{' :: r => codePointText r.dropLast
  | '\\' :: 'u' :: r => codePointText r
  | '\\' :: 'x' :: r => codePointText r
  | '\\' :: 'b' :: _ => "\x08"
  | '\\' :: 't' :: _ => "\t"
  | '\\' :: 'n' :: _ => "\n"
  | '\\' :: 'v' :: _ => "\x0b"
  | '\\' :: 'f' :: _ => "\x0c"
  | '\\' :: 'r' :: _ => "\r"
  | '\\' :: c :: r =>
    if Lexeme.isLineEnd c then []
    else if '0' ≤ c && c ≤ '7' then (CodePoint.ofNat? (octalValue (c :: r))).toList
    else [.scalar c]
  | _ => []

/-- The text of a name, its first `skip` characters being part of an escape sequence. -/
def nameText (skip : Nat) : List Char → Text
  | [] => []
  | c :: r =>
    match skip, Lexeme.nameEscape (c :: r) with
    | k + 1, _ => nameText k r
    | 0, 0 => .scalar c :: nameText 0 r
    | 0, k + 1 => escapeText ((c :: r).take (k + 1)) ++ nameText k r

/-- The text of a string literal, from its fragments and escape sequences. -/
def stringText : List Node → Text
  | [] => []
  | .leaf .fragment s :: r => .ofChars s ++ stringText r
  | .leaf .escape s :: r => escapeText s ++ stringText r
  | _ :: r => stringText r

end TypeScript

/-- What the names and expressions of an object literal denote. -/
structure Scope (V : Type) where
  /-- The entries of what the spread member at a place spreads. -/
  spread : Nat → Node → Text → Option V
  /-- What the member at a place has as its value. -/
  value : Nat → Node → V
  /-- The key that an expression in brackets at a place has as its value. -/
  computed : Nat → Node → Text
  /-- The key that a number is; no number is the name of a metadata list. -/
  numeral : Node → Text
  numeral_not_list : ∀ n, numeral n ∉ metadataLists

namespace Scope

variable {V : Type} (scope : Scope V)

/-- The key of a member with the given name. -/
def nameKey (i : Nat) (name : Node) : Text :=
  match name.kind with
  | .string => TypeScript.stringText name.children
  | .number => scope.numeral name
  | .computedName =>
    match name.parts.head? with
    | some e => if e.kind = .string then TypeScript.stringText e.children else scope.computed i e
    | none => scope.computed i name
  | _ => TypeScript.nameText 0 name.text

/-- The key of a member; a spread member has none. -/
def memberKey (i : Nat) (m : Node) : Option Text :=
  match m.kind with
  | .pair | .method => m.parts.head?.map (scope.nameKey i)
  | .shorthand => some (TypeScript.nameText 0 m.text)
  | _ => none

/-- What the member at a place gives for a key. -/
def entry (key : Text) (i : Nat) (m : Node) : Option V :=
  if m.kind = .spread then scope.spread i m key
  else if scope.memberKey i m = some key then some (scope.value i m) else none

/-- The value for a key after more members, the first of them at place `i`. -/
def valueFrom (key : Text) : Nat → Option V → List Node → Option V
  | _, v, [] => v
  | i, v, m :: ms => valueFrom key (i + 1) ((scope.entry key i m).or v) ms

/-- The value that an object literal with these members has for a key. -/
def valueOf (members : List Node) (key : Text) : Option V := scope.valueFrom key 0 none members

theorem valueFrom_append (key : Text) (i : Nat) (v : Option V) (ms ns : List Node) :
    scope.valueFrom key i v (ms ++ ns) =
      scope.valueFrom key (i + ms.length) (scope.valueFrom key i v ms) ns := by
  induction ms generalizing i v with
  | nil => rfl
  | cons m ms ih =>
    rw [List.cons_append, valueFrom, ih, valueFrom, List.length_cons, Nat.add_right_comm,
      Nat.add_assoc]

/-- Members that do not give a key leave its value as it is. -/
theorem valueFrom_of_none {key : Text} {i : Nat} {ms : List Node} (v : Option V)
    (h : ∀ m ∈ ms, ∀ j, scope.entry key j m = none) : scope.valueFrom key i v ms = v := by
  induction ms generalizing i with
  | nil => rfl
  | cons m ms ih =>
    rw [List.forall_mem_cons] at h
    rw [valueFrom, h.1 i, Option.none_or, ih h.2]

end Scope

/-- A member that gives a key for some choice of what names and expressions denote. -/
def MayGive (key : Text) (m : Node) : Prop :=
  ∃ (scope : Scope Unit) (i : Nat), (scope.entry key i m).isSome

/-- A scope in which nothing is spread. -/
def Scope.bare : Scope Unit where
  spread _ _ _ := none
  value _ _ := ()
  computed _ _ := []
  numeral _ := "0"
  numeral_not_list _ := by decide

variable {V : Type} {key name : Text} {m n : Node}

/-- A spread member may give any key. -/
theorem mayGive_of_spread (h : m.kind = .spread) (key : Text) : MayGive key m := by
  refine ⟨{ Scope.bare with spread := fun _ _ _ => some () }, 0, ?_⟩
  rw [Scope.entry, if_pos h]
  rfl

theorem Scope.memberKey_of_named {scope : Scope V} {i : Nat} (hm : m.kind = .pair ∨ m.kind = .method)
    (hn : m.parts.head? = some n) : scope.memberKey i m = some (scope.nameKey i n) := by
  rcases hm with hm | hm
  · rw [memberKey, hm]
    dsimp only
    rw [hn, Option.map_some]
  · rw [memberKey, hm]
    dsimp only
    rw [hn, Option.map_some]

/-- A member with an expression for its name may give any key. -/
theorem mayGive_of_computed {e : Node} (hm : m.kind = .pair ∨ m.kind = .method)
    (hn : m.parts.head? = some n) (hk : n.kind = .computedName) (he : n.parts.head? = some e)
    (hs : e.kind ≠ .string) (key : Text) : MayGive key m := by
  let scope : Scope Unit := { Scope.bare with computed := fun _ _ => key }
  have hname : scope.nameKey 0 n = key := by
    rw [Scope.nameKey, hk]
    dsimp only
    rw [he]
    exact if_neg hs
  have hspread : m.kind ≠ .spread := by
    intro h
    rw [h] at hm
    rcases hm with hm | hm <;> cases hm
  refine ⟨scope, 0, ?_⟩
  rw [Scope.entry, if_neg hspread, Scope.memberKey_of_named hm hn, hname, if_pos rfl]
  rfl

/-- Any other member may give its key, and nothing else. -/
theorem mayGive_iff_of_fixed (hm : m.kind ≠ .spread)
    (h : ∀ (scope : Scope Unit) i, scope.memberKey i m = some name) :
    MayGive key m ↔ key = name := by
  constructor
  · rintro ⟨scope, i, hsome⟩
    rw [Scope.entry, if_neg hm, h, Option.isSome_ite, Option.some.injEq] at hsome
    exact hsome.symm
  · rintro rfl
    refine ⟨Scope.bare, 0, ?_⟩
    rw [Scope.entry, if_neg hm, if_pos (h _ _)]
    rfl

/-- What a member gives in any scope, it may give. -/
theorem mayGive_of_entry {scope : Scope V} {i : Nat} (h : (scope.entry key i m).isSome) :
    MayGive key m := by
  let unit : Scope Unit := {
    spread := fun i m k => (scope.spread i m k).map fun _ => ()
    value := fun _ _ => ()
    computed := scope.computed
    numeral := scope.numeral
    numeral_not_list := scope.numeral_not_list }
  refine ⟨unit, i, ?_⟩
  have hkey : unit.memberKey i m = scope.memberKey i m := rfl
  rw [Scope.entry] at h ⊢
  by_cases hs : m.kind = .spread
  · rw [if_pos hs] at h ⊢
    change ((scope.spread i m key).map _).isSome
    rw [Option.isSome_map]
    exact h
  · rw [if_neg hs] at h ⊢
    rw [hkey]
    rw [Option.isSome_ite] at h ⊢
    exact h

namespace Scope

/-- The value of every member at a place below `count` is `true`, and that of the others `false`,
where keys are those of another scope. -/
def telling (scope : Scope Unit) (i count : Nat) : Scope Bool where
  spread _ m key := (scope.spread i m key).map fun _ => true
  value j _ := decide (j < count)
  computed _ e := scope.computed i e
  numeral := scope.numeral
  numeral_not_list := scope.numeral_not_list

theorem entry_telling (scope : Scope Unit) (i : Nat) {count j : Nat} (h : j < count) (key : Text)
    (m : Node) : (scope.telling i count).entry key j m =
      (scope.entry key i m).map fun _ => true := by
  have hkey : (scope.telling i count).memberKey j m = scope.memberKey i m := rfl
  rw [entry, entry, hkey]
  split
  · rfl
  · split
    · change some (decide (j < count)) = _
      rw [decide_eq_true h]
      rfl
    · rfl

/-- The old members of a literal tell that they gave a key. -/
theorem valueOf_telling (scope : Scope Unit) (i : Nat) {ms : List Node} (hm : m ∈ ms)
    (h : (scope.entry key i m).isSome) :
    (scope.telling i ms.length).valueOf ms key = some true := by
  have hrow : ∀ (ns : List Node) (j : Nat) (v : Option Bool), j + ns.length ≤ ms.length →
      (v = none ∨ v = some true) → (v = some true ∨ m ∈ ns) →
      (scope.telling i ms.length).valueFrom key j v ns = some true := by
    intro ns
    induction ns with
    | nil =>
      intro j v _ _ hor
      exact hor.resolve_right (by simp)
    | cons n ns ih =>
      intro j v hj hv hor
      rw [List.length_cons] at hj
      rw [valueFrom, entry_telling scope i (by omega)]
      refine ih (j + 1) _ (by omega) ?_ ?_
      · cases scope.entry key i n with
        | none => simpa using hv
        | some u => exact .inr rfl
      · rcases hor with rfl | hmem
        · cases scope.entry key i n with
          | none => exact .inl rfl
          | some u => exact .inl rfl
        · rcases List.mem_cons.1 hmem with rfl | hmem
          · obtain ⟨u, hu⟩ := Option.isSome_iff_exists.1 h
            rw [hu]
            exact .inl rfl
          · exact .inr hmem
  exact hrow ms 0 none (by omega) (.inl rfl) (.inr hm)

end Scope

end CustomElements
