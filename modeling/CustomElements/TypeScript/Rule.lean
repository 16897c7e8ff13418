import CustomElements.TypeScript.Tree
import CustomElements.TypeScript.Lexeme

/-!
# Grammar rules and how they match

A grammar is data: a rule for each of its nonterminals, built by sequence, ordered choice,
repetition and lookahead. One function matches a rule at the front of a text and gives the nodes it
read and what is left; `Reads` tells what a match is made of. Main statement: the text of the nodes
and the rest make up the text (`Reads.text`), so a tree never loses, adds or moves a character,
whatever the grammar is.
-/

namespace CustomElements.TypeScript

inductive Rule (N : Type) where
  /-- Matches nothing. -/
  | empty
  /-- A token after blanks and comments. -/
  | token (kind : Kind) (lexeme : Lexeme)
  /-- A token with nothing before it. -/
  | glued (kind : Kind) (lexeme : Lexeme)
  | seq (first second : Rule N)
  /-- The first rule that matches. -/
  | choice (first second : Rule N)
  /-- As many in a row as possible. -/
  | many (rule : Rule N)
  /-- Matches nothing, if the rule matches here. -/
  | ahead (rule : Rule N)
  /-- Matches nothing, if the rule does not match here. -/
  | notAhead (rule : Rule N)
  | nonterminal (n : N)
  /-- What the rule matches as one branch. -/
  | branch (kind : Kind) (rule : Rule N)
  /-- After `base`, each match of `step` takes in all that was read before it as its first child. -/
  | extend (base step : Rule N)
  /-- Matches nothing, if a line ends before the next token. -/
  | lineBreak
  /-- The blanks and comments up to the end of the text. -/
  | finish
deriving DecidableEq

namespace Rule

variable {N : Type}

instance : Append (Rule N) := ⟨seq⟩

instance : OrElse (Rule N) := ⟨fun a b => choice a (b ())⟩

/-- The rule or nothing. -/
def opt (r : Rule N) : Rule N := choice r empty

def symbol (text : String) : Rule N := token .mark (.symbol text.toList [])

/-- Punctuation, not followed by one of the characters of `notBefore`. -/
def symbolNot (text notBefore : String) : Rule N :=
  token .mark (.symbol text.toList notBefore.toList)

def gluedSymbol (text : String) : Rule N := glued .mark (.symbol text.toList [])

def word (text : String) : Rule N := token .mark (.word text.toList)

def anyWord : List String → Rule N
  | [] => notAhead empty
  | [w] => word w
  | w :: ws => choice (word w) (anyWord ws)

/-- Items with commas between them. -/
def commaRow (r : Rule N) : Rule N := r ++ many (symbol "," ++ r)

/-- Items with commas between them, and maybe one after the last. -/
def commaList (r : Rule N) : Rule N := opt (commaRow r ++ opt (symbol ","))

/-- Matches nothing, if the next token is on this line. -/
def sameLine : Rule N := notAhead lineBreak

inductive Outcome where
  /-- The rule matched: the nodes it read, and the rest. -/
  | read (nodes : List Node) (rest : List Char)
  /-- The rule does not match. -/
  | refused
  /-- The bound on the depth of the search was reached. -/
  | starved

/-- The blanks and comments at the front of a text, and the rest. At most `fuel` of
them are read. -/
def trivia : Nat → List Char → List Node × List Char
  | 0, s => ([], s)
  | fuel + 1, s =>
    match Lexeme.span Lexeme.isBlank s with
    | k + 1 =>
      let next := trivia fuel (s.drop (k + 1))
      (.leaf .blank (s.take (k + 1)) :: next.1, next.2)
    | 0 =>
      match Lexeme.comment s with
      | k + 1 =>
        let next := trivia fuel (s.drop (k + 1))
        (.leaf .comment (s.take (k + 1)) :: next.1, next.2)
      | 0 => ([], s)

/-- The branch at the end of `step` takes in the nodes read before it from the last one
of `base` on. -/
def absorb (base step : List Node) : List Node :=
  match step.getLast? with
  | some (.branch k cs) =>
    base.dropLast ++ [.branch k (base.drop (base.length - 1) ++ step.dropLast ++ cs)]
  | _ => base ++ step

mutual

/-- Matches a rule at the front of a text, with rules for the nonterminals given by `grammar`. -/
def run (grammar : N → Rule N) : Nat → Rule N → List Char → Outcome
  | 0, _, _ => .starved
  | fuel + 1, rule, s =>
    match rule with
    | empty => .read [] s
    | token kind lexeme =>
      let (gap, body) := trivia fuel s
      match lexeme.measure body with
      | some k => .read (gap ++ [.leaf kind (body.take k)]) (body.drop k)
      | none => .refused
    | glued kind lexeme =>
      match lexeme.measure s with
      | some k => .read [.leaf kind (s.take k)] (s.drop k)
      | none => .refused
    | seq a b =>
      match run grammar fuel a s with
      | .read xs s' =>
        match run grammar fuel b s' with
        | .read ys s'' => .read (xs ++ ys) s''
        | .refused => .refused
        | .starved => .starved
      | .refused => .refused
      | .starved => .starved
    | choice a b =>
      match run grammar fuel a s with
      | .read xs s' => .read xs s'
      | .refused => run grammar fuel b s
      | .starved => .starved
    | many a =>
      match run grammar fuel a s with
      | .read xs s' =>
        match run grammar fuel (many a) s' with
        | .read ys s'' => .read (xs ++ ys) s''
        | .refused => .refused
        | .starved => .starved
      | .refused => .read [] s
      | .starved => .starved
    | ahead a =>
      match run grammar fuel a s with
      | .read _ _ => .read [] s
      | .refused => .refused
      | .starved => .starved
    | notAhead a =>
      match run grammar fuel a s with
      | .read _ _ => .refused
      | .refused => .read [] s
      | .starved => .starved
    | nonterminal n => run grammar fuel (grammar n) s
    | branch kind a =>
      let (gap, body) := trivia fuel s
      match run grammar fuel a body with
      | .read xs s' => .read (gap ++ [.branch kind xs]) s'
      | .refused => .refused
      | .starved => .starved
    | extend a step =>
      match run grammar fuel a s with
      | .read xs s' => extendRun grammar fuel step xs s'
      | .refused => .refused
      | .starved => .starved
    | lineBreak =>
      let (gap, _) := trivia fuel s
      if (Node.textOf gap).any Lexeme.isLineEnd then .read [] s else .refused
    | finish =>
      let (gap, body) := trivia fuel s
      if body.isEmpty then .read gap [] else .refused

/-- Matches `step` as often as possible; each match absorbs what was read before it. -/
def extendRun (grammar : N → Rule N) : Nat → Rule N → List Node → List Char → Outcome
  | 0, _, _, _ => .starved
  | fuel + 1, step, xs, s =>
    match run grammar fuel step s with
    | .read ys s' => extendRun grammar fuel step (absorb xs ys) s'
    | .refused => .read xs s
    | .starved => .starved

end

theorem trivia_text (fuel : Nat) (s : List Char) :
    Node.textOf (trivia fuel s).1 ++ (trivia fuel s).2 = s := by
  induction fuel generalizing s with
  | zero => simp [trivia]
  | succ fuel ih =>
    simp only [trivia]
    split
    · simp [ih]
    · split <;> simp [ih]

theorem absorb_text (base step : List Node) :
    Node.textOf (absorb base step) = Node.textOf base ++ Node.textOf step := by
  unfold absorb
  split
  · rename_i k cs h
    have hs : step = step.dropLast ++ [.branch k cs] := by
      rw [List.getLast?_eq_some_iff] at h
      obtain ⟨init, rfl⟩ := h
      simp
    have hb : Node.textOf base
        = Node.textOf base.dropLast ++ Node.textOf (base.drop (base.length - 1)) := by
      rw [← Node.textOf_append, List.dropLast_eq_take, List.take_append_drop]
    have ht : Node.textOf step = Node.textOf step.dropLast ++ Node.textOf cs := by
      conv => lhs; rw [hs]
      simp
    simp [hb, ht, List.append_assoc]
  · simp

/-- What a match of a rule reads at the front of a text, and what it leaves. What was refused
before is not told. -/
inductive Reads (grammar : N → Rule N) : Rule N → List Char → List Node → List Char → Prop where
  | empty {s : List Char} : Reads grammar empty s [] s
  | token {kind : Kind} {lexeme : Lexeme} {s : List Char} {fuel k : Nat}
      (fits : lexeme.measure (trivia fuel s).2 = some k) :
      Reads grammar (token kind lexeme) s
        ((trivia fuel s).1 ++ [.leaf kind ((trivia fuel s).2.take k)])
        ((trivia fuel s).2.drop k)
  | glued {kind : Kind} {lexeme : Lexeme} {s : List Char} {k : Nat}
      (fits : lexeme.measure s = some k) :
      Reads grammar (glued kind lexeme) s [.leaf kind (s.take k)] (s.drop k)
  | seq {a b : Rule N} {s t rest : List Char} {xs ys : List Node}
      (first : Reads grammar a s xs t) (second : Reads grammar b t ys rest) :
      Reads grammar (seq a b) s (xs ++ ys) rest
  | choiceFirst {a b : Rule N} {s rest : List Char} {xs : List Node}
      (first : Reads grammar a s xs rest) : Reads grammar (choice a b) s xs rest
  | choiceSecond {a b : Rule N} {s rest : List Char} {xs : List Node}
      (second : Reads grammar b s xs rest) : Reads grammar (choice a b) s xs rest
  | manyEnd {a : Rule N} {s : List Char} : Reads grammar (many a) s [] s
  | manyMore {a : Rule N} {s t rest : List Char} {xs ys : List Node}
      (first : Reads grammar a s xs t) (others : Reads grammar (many a) t ys rest) :
      Reads grammar (many a) s (xs ++ ys) rest
  | ahead {a : Rule N} {s : List Char} : Reads grammar (ahead a) s [] s
  | notAhead {a : Rule N} {s : List Char} : Reads grammar (notAhead a) s [] s
  | nonterminal {n : N} {s rest : List Char} {xs : List Node}
      (byRule : Reads grammar (grammar n) s xs rest) : Reads grammar (nonterminal n) s xs rest
  | branch {kind : Kind} {a : Rule N} {s rest : List Char} {xs : List Node} {fuel : Nat}
      (inner : Reads grammar a (trivia fuel s).2 xs rest) :
      Reads grammar (branch kind a) s ((trivia fuel s).1 ++ [.branch kind xs]) rest
  | extendBase {a step : Rule N} {s rest : List Char} {xs : List Node}
      (base : Reads grammar a s xs rest) : Reads grammar (extend a step) s xs rest
  | extendStep {a step : Rule N} {s t rest : List Char} {xs ys : List Node}
      (before : Reads grammar (extend a step) s xs t) (last : Reads grammar step t ys rest) :
      Reads grammar (extend a step) s (absorb xs ys) rest
  | lineBreak {s : List Char} : Reads grammar lineBreak s [] s
  | finish {s : List Char} {fuel : Nat} (atEnd : (trivia fuel s).2 = []) :
      Reads grammar finish s (trivia fuel s).1 []

/-- Each match is made up of matches of the parts of its rule. -/
theorem reads_of_run {grammar : N → Rule N} (fuel : Nat) :
    (∀ {rule : Rule N} {s : List Char} {xs : List Node} {rest : List Char},
      run grammar fuel rule s = .read xs rest → Reads grammar rule s xs rest) ∧
    (∀ {a step : Rule N} {s t : List Char} {xs ys : List Node} {rest : List Char},
      Reads grammar (extend a step) s xs t → extendRun grammar fuel step xs t = .read ys rest →
        Reads grammar (extend a step) s ys rest) := by
  induction fuel with
  | zero => constructor <;> intros <;> simp_all [run, extendRun]
  | succ fuel ih =>
    obtain ⟨ihRun, ihExtend⟩ := ih
    constructor
    · intro rule s xs rest h
      cases rule <;> simp only [run] at h
      case empty =>
        cases h
        exact .empty
      case token kind lexeme =>
        split at h
        next hk =>
          cases h
          exact .token hk
        next => cases h
      case glued kind lexeme =>
        split at h
        next hk =>
          cases h
          exact .glued hk
        next => cases h
      case seq a b =>
        split at h
        next hu =>
          split at h
          next hv =>
            cases h
            exact .seq (ihRun hu) (ihRun hv)
          next => cases h
          next => cases h
        next => cases h
        next => cases h
      case choice a b =>
        split at h
        next hu =>
          cases h
          exact .choiceFirst (ihRun hu)
        next => exact .choiceSecond (ihRun h)
        next => cases h
      case many a =>
        split at h
        next hu =>
          split at h
          next hv =>
            cases h
            exact .manyMore (ihRun hu) (ihRun hv)
          next => cases h
          next => cases h
        next =>
          cases h
          exact .manyEnd
        next => cases h
      case ahead a =>
        split at h <;> cases h
        exact .ahead
      case notAhead a =>
        split at h <;> cases h
        exact .notAhead
      case nonterminal n => exact .nonterminal (ihRun h)
      case branch kind a =>
        split at h
        next hu =>
          cases h
          exact .branch (ihRun hu)
        next => cases h
        next => cases h
      case extend a step =>
        split at h
        next hu => exact ihExtend (.extendBase (ihRun hu)) h
        next => cases h
        next => cases h
      case lineBreak =>
        split at h <;> cases h
        exact .lineBreak
      case finish =>
        split at h
        next hb =>
          cases h
          exact .finish (List.isEmpty_iff.1 hb)
        next => cases h
    · intro a step s t xs ys rest hbefore h
      simp only [extendRun] at h
      split at h
      next hu => exact ihExtend (.extendStep hbefore (ihRun hu)) h
      next =>
        cases h
        exact hbefore
      next => cases h

/-- What a match reads and what it leaves make up the text. -/
theorem Reads.text {grammar : N → Rule N} {rule : Rule N} {s rest : List Char} {xs : List Node}
    (h : Reads grammar rule s xs rest) : Node.textOf xs ++ rest = s := by
  induction h with
  | empty | manyEnd | ahead | notAhead | lineBreak => rfl
  | @token kind _ s fuel k _ =>
    have ht := trivia_text fuel s
    simpa [List.append_assoc] using ht
  | glued _ => simp
  | seq _ _ iha ihb | manyMore _ _ iha ihb =>
    rw [Node.textOf_append, List.append_assoc, ihb, iha]
  | choiceFirst _ ih | choiceSecond _ ih | nonterminal _ ih | extendBase _ ih => exact ih
  | @branch _ _ s _ _ fuel _ ih =>
    have ht := trivia_text fuel s
    rw [Node.textOf_append, List.append_assoc]
    simpa [ih] using ht
  | extendStep _ _ iha ihb => rw [absorb_text, List.append_assoc, ihb, iha]
  | @finish s fuel hend =>
    have ht := trivia_text fuel s
    rwa [hend] at ht

end Rule

end CustomElements.TypeScript
