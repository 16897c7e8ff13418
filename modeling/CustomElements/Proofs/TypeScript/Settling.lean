import CustomElements.TypeScript.Rule

/-!
# Matches that a deep search settles

A search that is not deep enough starves, and one that is too shallow for the blanks before a token
may refuse what a deeper one reads. `Settles grammar depth rule s outcome` says that every search of
at least the given depth has the outcome. Each rule settles a little deeper than its parts do.
-/

namespace CustomElements.TypeScript

namespace Rule

variable {N : Type} {grammar : N → Rule N} {rule a b : Rule N} {kind : Kind} {lexeme : Lexeme}
  {depth k : Nat} {s t rest : List Char} {xs ys : List Node} {outcome : Outcome}

/-- Each search of at least this depth matches the rule with this outcome. -/
def Settles (grammar : N → Rule N) (depth : Nat) (rule : Rule N) (s : List Char)
    (outcome : Outcome) : Prop :=
  ∀ fuel, depth ≤ fuel → run grammar fuel rule s = outcome

/-- There is no blank and no comment at the front of the text. -/
def Bare (s : List Char) : Prop := ∀ fuel, trivia fuel s = ([], s)

theorem bare_cons {c : Char} (hblank : Lexeme.isBlank c = false) (hslash : c ≠ '/')
    (r : List Char) : Bare (c :: r) := by
  have hcomment : Lexeme.comment (c :: r) = 0 := by
    unfold Lexeme.comment
    split
    · next h => exact (hslash (List.cons.inj h).1).elim
    · next h => exact (hslash (List.cons.inj h).1).elim
    · rfl
  intro fuel
  cases fuel with
  | zero => rfl
  | succ fuel => simp [trivia, Lexeme.span, hblank, hcomment]

-- One step of a search is one unfolding of `run`.
attribute [local simp] run

/-- Rules in a row are a sequence. -/
theorem append_eq_seq (a b : Rule N) : a ++ b = .seq a b := rfl

namespace Settles

theorem mono {deeper : Nat} (h : Settles grammar depth rule s outcome) (hle : depth ≤ deeper) :
    Settles grammar deeper rule s outcome :=
  fun fuel hfuel => h fuel (Nat.le_trans hle hfuel)

/-- A search one step deeper, if it starts with the same step at every depth. -/
theorem step (h : ∀ fuel, depth ≤ fuel → run grammar (fuel + 1) rule s = outcome) :
    Settles grammar (depth + 1) rule s outcome := by
  intro fuel hfuel
  obtain ⟨fuel, rfl⟩ := Nat.exists_eq_add_of_le' (Nat.le_trans (Nat.le_add_left 1 depth) hfuel)
  exact h fuel (Nat.le_of_succ_le_succ hfuel)

theorem glued (fits : lexeme.measure s = some k) :
    Settles grammar 1 (.glued kind lexeme) s (.read [.leaf kind (s.take k)] (s.drop k)) :=
  step fun fuel _ => by simp [fits]

theorem glued_refused (fits : lexeme.measure s = none) :
    Settles grammar 1 (.glued kind lexeme) s .refused :=
  step fun fuel _ => by simp [fits]

theorem token (bare : Bare s) (fits : lexeme.measure s = some k) :
    Settles grammar 1 (.token kind lexeme) s (.read [.leaf kind (s.take k)] (s.drop k)) :=
  step fun fuel _ => by simp [bare fuel, fits]

theorem token_refused (bare : Bare s) (fits : lexeme.measure s = none) :
    Settles grammar 1 (.token kind lexeme) s .refused :=
  step fun fuel _ => by simp [bare fuel, fits]

theorem seq (first : Settles grammar depth a s (.read xs t))
    (second : Settles grammar depth b t (.read ys rest)) :
    Settles grammar (depth + 1) (a ++ b) s (.read (xs ++ ys) rest) :=
  step fun fuel hfuel => by simp [append_eq_seq, first fuel hfuel, second fuel hfuel]

theorem seq_refused (first : Settles grammar depth a s .refused) :
    Settles grammar (depth + 1) (a ++ b) s .refused :=
  step fun fuel hfuel => by simp [append_eq_seq, first fuel hfuel]

theorem choiceFirst (first : Settles grammar depth a s (.read xs rest)) :
    Settles grammar (depth + 1) (.choice a b) s (.read xs rest) :=
  step fun fuel hfuel => by simp [first fuel hfuel]

theorem choiceSecond (first : Settles grammar depth a s .refused)
    (second : Settles grammar depth b s outcome) :
    Settles grammar (depth + 1) (.choice a b) s outcome :=
  step fun fuel hfuel => by simp [first fuel hfuel, second fuel hfuel]

theorem manyEnd (refused : Settles grammar depth a s .refused) :
    Settles grammar (depth + 1) (.many a) s (.read [] s) :=
  step fun fuel hfuel => by simp [refused fuel hfuel]

theorem manyMore (first : Settles grammar depth a s (.read xs t))
    (others : Settles grammar depth (.many a) t (.read ys rest)) :
    Settles grammar (depth + 1) (.many a) s (.read (xs ++ ys) rest) :=
  step fun fuel hfuel => by simp [first fuel hfuel, others fuel hfuel]

theorem nonterminal {n : N} (byRule : Settles grammar depth (grammar n) s outcome) :
    Settles grammar (depth + 1) (.nonterminal n) s outcome :=
  step fun fuel hfuel => by simp [byRule fuel hfuel]

theorem branch (bare : Bare s) (inner : Settles grammar depth a s (.read xs rest)) :
    Settles grammar (depth + 1) (.branch kind a) s (.read [.branch kind xs] rest) :=
  step fun fuel hfuel => by simp [bare fuel, inner fuel hfuel]

end Settles

end Rule

end CustomElements.TypeScript
