import CustomElements.Build.Target
import CustomElements.Configuration.Reader
import CustomElements.Proofs.Text.Splitting
import CustomElements.Proofs.Workspace.Outcome

/-!
# The forms of a build target

A target is written with colons between its parts. Only the first two parts are told apart: what
follows the second colon is the configuration, with its own colons. So the text of a target is read
as this target again, and a text that is read is the text of what it is read as, up to a colon
behind which no configuration follows. A configuration file may give the parts apart instead;
they are put together in the same form.
-/

namespace CustomElements

namespace BuildTarget

variable {v p t c : Text} {rest : List Text} {b : BuildTarget} {m : Mistake}

/-! ### Reading -/

/-- What is read if there are two parts. -/
theorem parse_of_parts (h : v.splitOn ':' = p :: t :: rest) : parse v =
    if p = [] ∨ t = [] then .error (.targetMalformed v)
    else .ok ⟨p, t, nonempty? (some (Text.join ":" rest))⟩ := by
  have hconfiguration (c : Text) : nonempty? (some c) = if c.isEmpty then none else some c := by
    cases c <;> rfl
  rw [parse, h, hconfiguration]
  simp only [Bool.or_eq_true, List.isEmpty_iff]

theorem parse_of_onePart (h : (v.splitOn ':').length < 2) :
    parse v = .error (.targetMalformed v) := by
  rw [parse]
  split
  · next hparts =>
    rw [hparts, List.length_cons, List.length_cons] at h
    omega
  · rfl

theorem onePart_or_parts (v : Text) :
    (v.splitOn ':').length < 2 ∨ ∃ p t rest, v.splitOn ':' = p :: t :: rest := by
  generalize v.splitOn ':' = parts
  match parts with
  | [] | [_] => exact .inl (by simp)
  | p :: t :: rest => exact .inr ⟨p, t, rest, rfl⟩

theorem parse_eq_ok : parse v = .ok b ↔ ∃ p t rest, v.splitOn ':' = p :: t :: rest ∧ p ≠ [] ∧
    t ≠ [] ∧ b = ⟨p, t, nonempty? (some (Text.join ":" rest))⟩ := by
  constructor
  · intro h
    rcases onePart_or_parts v with hone | ⟨p, t, rest, hparts⟩
    · rw [parse_of_onePart hone] at h
      cases h
    · rw [parse_of_parts hparts] at h
      split at h
      · cases h
      · next hboth =>
        rw [not_or] at hboth
        exact ⟨p, t, rest, hparts, hboth.1, hboth.2, (Except.ok.inj h).symm⟩
  · rintro ⟨p, t, rest, hparts, hp, ht, rfl⟩
    rw [parse_of_parts hparts, if_neg (not_or.2 ⟨hp, ht⟩)]

/-- A text is no target if it has no two parts, or if one of the first two is empty. -/
theorem parse_eq_error : parse v = .error m ↔ m = .targetMalformed v ∧
    ((v.splitOn ':').length < 2 ∨
      ∃ p t rest, v.splitOn ':' = p :: t :: rest ∧ (p = [] ∨ t = [])) := by
  rcases onePart_or_parts v with hone | ⟨p, t, rest, hparts⟩
  · rw [parse_of_onePart hone, Except.error.injEq, eq_comm]
    exact (and_iff_left (.inl hone)).symm
  · have htwo : ¬(v.splitOn ':').length < 2 := by
      rw [hparts]
      simp
    have hempty : (∃ p' t' rest', v.splitOn ':' = p' :: t' :: rest' ∧ (p' = [] ∨ t' = [])) ↔
        p = [] ∨ t = [] := by
      rw [hparts]
      constructor
      · rintro ⟨p', t', rest', heq, h⟩
        cases heq
        exact h
      · exact fun h => ⟨p, t, rest, rfl, h⟩
    rw [parse_of_parts hparts, hempty, or_iff_right htwo]
    split
    · next h => rw [Except.error.injEq, eq_comm, and_iff_left h]
    · next h => exact iff_of_false nofun fun hm => h hm.2

/-! ### Texts -/

variable (hp : .scalar ':' ∉ p) (ht : .scalar ':' ∉ t)

include hp ht

theorem splitOn_two : Text.splitOn ':' (p ++ ":" ++ t) = [p, t] := by
  rw [List.append_assoc]
  exact (Text.splitOn_append hp t).trans (congrArg (p :: ·) (Text.splitOn_of_not_mem ht))

theorem splitOn_three (c : Text) :
    Text.splitOn ':' (p ++ ":" ++ t ++ ":" ++ c) = p :: t :: Text.splitOn ':' c := by
  have hrest := Text.splitOn_append ht c
  simp only [List.append_assoc]
  exact (Text.splitOn_append hp _).trans (congrArg (p :: ·) hrest)

/-- The text of a target is read as this target. -/
theorem parse_text (hpne : p ≠ []) (htne : t ≠ []) (c : Option Text) :
    parse (text ⟨p, t, nonempty? c⟩) = .ok ⟨p, t, nonempty? c⟩ := by
  cases hc : nonempty? c with
  | none => exact parse_eq_ok.2 ⟨p, t, [], splitOn_two hp ht, hpne, htne, rfl⟩
  | some c =>
    have hne := (nonempty?_eq_some.1 hc).2
    have htext : text ⟨p, t, some c⟩ = p ++ ":" ++ t ++ ":" ++ c := by
      simp [text, hne]
    rw [htext]
    refine parse_eq_ok.2 ⟨p, t, _, splitOn_three hp ht c, hpne, htne, ?_⟩
    have hjoin : Text.join ":" (Text.splitOn ':' c) = c := Text.join_splitOn ':' c
    rw [hjoin, nonempty?_eq_some.2 ⟨rfl, hne⟩]

omit hp ht

theorem text_of_some (hc : c ≠ []) : text ⟨p, t, some c⟩ = p ++ ":" ++ t ++ ":" ++ c := by
  simp [text, hc]

/-- A text that is read is the text of the target, unless it ends with a colon behind the names. -/
theorem text_of_parse (h : parse v = .ok b) : b.text =
    if v = b.project ++ ":" ++ b.target ++ ":" then b.project ++ ":" ++ b.target else v := by
  obtain ⟨p, t, rest, hparts, -, -, rfl⟩ := parse_eq_ok.1 h
  have hv : v = Text.join ":" (p :: t :: rest) := by
    rw [← hparts]
    exact (Text.join_splitOn ':' v).symm
  by_cases hrest : rest = []
  · subst hrest
    have hpair : v = p ++ ":" ++ t := hv
    have hother : v ≠ p ++ ":" ++ t ++ ":" := fun heq => by
      have hcolon : (":" : Text) = [] := List.self_eq_append_right.1 (hpair.symm.trans heq)
      cases hcolon
    rw [if_neg hother]
    exact hpair.symm
  · have htriple : v = p ++ ":" ++ t ++ ":" ++ Text.join ":" rest := by
      rw [hv, Text.join_cons_of_ne_nil (List.cons_ne_nil t rest), Text.join_cons_of_ne_nil hrest]
      simp only [List.append_assoc]
    by_cases hc : Text.join ":" rest = []
    · rw [hc, List.append_nil] at htriple
      rw [hc, if_pos htriple]
      rfl
    · have hother : v ≠ p ++ ":" ++ t ++ ":" := fun heq =>
        hc (List.append_right_eq_self.1 (htriple.symm.trans heq))
      rw [if_neg hother, nonempty?_eq_some.2 ⟨rfl, hc⟩, text_of_some hc, htriple]

end BuildTarget

/-! ### Parts of their own -/

open Action BuildTarget

theorem asText_text (t : Text) : asText (.text t) = .ok (some t) := rfl

theorem asText_configuration {v : Value} {c : Option Text}
    (h : v.get? "configuration" = c.map .text) : asText (v.get "configuration") = .ok c := by
  rw [Value.get, h]
  cases c <;> rfl

/-- A target in parts is the text with colons between them. -/
theorem asBuildTarget_parts {es : List (Value × Value)} {p t : Text} {c : Option Text}
    (hproject : (Value.map es).get "project" = .text p)
    (htarget : (Value.map es).get "target" = .text t)
    (hconfiguration : (Value.map es).get? "configuration" = c.map .text)
    (hp : p ≠ []) (ht : t ≠ []) (w : Workspace) :
    (asBuildTarget (.map es)).outcome w = (.ok (some (text ⟨p, t, nonempty? c⟩)), w) := by
  have hgiven {u : Text} (hu : u ≠ []) : nonempty? (some u) = some u :=
    nonempty?_eq_some.2 ⟨rfl, hu⟩
  have hjoin : Text.join ":" ([p, t] ++ (nonempty? c).toList) = text ⟨p, t, nonempty? c⟩ := by
    cases hc : nonempty? c with
    | none => rfl
    | some c =>
      rw [text_of_some (nonempty?_eq_some.1 hc).2]
      simp [Text.join]
  rw [asBuildTarget, hproject, htarget, asText_text, asText_text,
    asText_configuration hconfiguration]
  simp only [ofFaults, pure_bind, hgiven hp, hgiven ht, hjoin, outcome_pure]

/--
A text is no target exactly if it has less than two parts between colons, or if one of the first two
is empty, and the mistake tells the text. What is read has the text that was read, up to a
colon behind both names that nothing follows, and its text is read as the same target. A target
that is given in parts, with names without colons and any configuration, is written so that reading
gives these parts again; an empty configuration is none.
-/
theorem target_forms_agree :
    (∀ v m, parse v = .error m ↔ m = .targetMalformed v ∧
      ((v.splitOn ':').length < 2 ∨
        ∃ p t rest, v.splitOn ':' = p :: t :: rest ∧ (p = [] ∨ t = []))) ∧
    (∀ v b, parse v = .ok b → parse b.text = .ok b ∧ b.text =
      if v = b.project ++ ":" ++ b.target ++ ":" then b.project ++ ":" ++ b.target else v) ∧
    ∀ es p t c w, p ≠ [] → t ≠ [] → .scalar ':' ∉ p → .scalar ':' ∉ t →
      (Value.map es).get "project" = .text p → (Value.map es).get "target" = .text t →
      (Value.map es).get? "configuration" = c.map .text →
      ∃ v, (asBuildTarget (.map es)).outcome w = (.ok (some v), w) ∧
        parse v = .ok ⟨p, t, nonempty? c⟩ := by
  refine ⟨fun v m => parse_eq_error, fun v b h => ⟨?_, text_of_parse h⟩, ?_⟩
  · obtain ⟨p, t, rest, hparts, hp, ht, rfl⟩ := parse_eq_ok.1 h
    have hcolon : ∀ piece ∈ p :: t :: rest, .scalar ':' ∉ piece := fun piece hpiece =>
      Text.not_mem_of_mem_splitOn (hparts ▸ hpiece)
    exact parse_text (hcolon p (by simp)) (hcolon t (by simp)) hp ht _
  · intro es p t c w hp ht hpc htc hproject htarget hconfiguration
    exact ⟨_, asBuildTarget_parts hproject htarget hconfiguration hp ht w,
      parse_text hpc htc hp ht c⟩

/-- A target in parts whose configuration holds colons. -/
def colonParts : List (Value × Value) :=
  [(.text "target", .text "build"), (.text "configuration", .text ":production:"),
    (.text "project", .text "shop")]

theorem target_forms_agree_colonParts :
    (∃ v, (asBuildTarget (.map colonParts)).outcome Workspace.bare =
        (.ok (some v), Workspace.bare) ∧ parse v = .ok ⟨"shop", "build", some ":production:"⟩) ∧
      parse (text ⟨"shop", "build", none⟩) = .ok ⟨"shop", "build", none⟩ := by
  obtain ⟨-, hread, hparts⟩ := target_forms_agree
  constructor
  · exact hparts colonParts "shop" "build" (some ":production:") Workspace.bare
      (by decide) (by decide) (by decide) (by decide) rfl rfl rfl
  · exact (hread "shop:build:" ⟨"shop", "build", none⟩ rfl).1

end CustomElements
