import Mathlib.Data.List.TakeWhile
import CustomElements.TypeScript.Rule

/-!
# Blanks and comments between tokens

`Gap rest n` says that `n` is a blank or a comment as the reader takes it in front of `rest`: a
line comment goes up to a line end, a block comment up to its first closing mark. `Spaced` asks
this of all blanks and comments in a row of nodes. What the reader skips in front of a token is
such a row (`trivia_spaced`).
-/

namespace CustomElements.TypeScript

namespace Lexeme

theorem take_span (p : Char → Bool) (s : List Char) : s.take (span p s) = s.takeWhile p := by
  induction s with
  | nil => rfl
  | cons c r ih =>
    by_cases h : p c
    · simp [span, h, ih]
    · simp [span, h]

theorem drop_span (p : Char → Bool) (s : List Char) : s.drop (span p s) = s.dropWhile p := by
  induction s with
  | nil => rfl
  | cons c r ih =>
    by_cases h : p c
    · simp [span, h, ih]
    · simp [span, h]

theorem blockComment_bounds {s : List Char} {k : Nat} (h : blockComment s = some k) :
    2 ≤ k ∧ k ≤ s.length := by
  fun_induction blockComment s generalizing k with
  | case1 r =>
    obtain rfl := Option.some.inj h
    simp
  | case2 c r hc ih =>
    obtain ⟨n, hn, rfl⟩ := Option.map_eq_some_iff.1 h
    have hr := ih hn
    simp only [List.length_cons]
    omega
  | case3 => cases h

/-- The end of a block comment does not depend on what follows it. -/
theorem blockComment_take_append {s : List Char} {k : Nat} (h : blockComment s = some k)
    (t : List Char) : blockComment (s.take k ++ t) = some k := by
  fun_induction blockComment s generalizing k with
  | case1 r =>
    obtain rfl := Option.some.inj h
    simp [blockComment]
  | case2 c r hc ih =>
    obtain ⟨n, hn, rfl⟩ := Option.map_eq_some_iff.1 h
    have hb := blockComment_bounds hn
    rw [List.take_succ_cons, List.cons_append, blockComment, ih hn]
    · rfl
    · -- no closing mark stands at the front, since the comment goes on after two characters
      intro q hq hs
      obtain ⟨d, u, rfl⟩ := List.exists_cons_of_length_pos (l := r) (by omega)
      obtain ⟨m, rfl⟩ := Nat.exists_eq_succ_of_ne_zero (n := n) (by omega)
      rw [List.take_succ_cons, List.cons_append, List.cons.injEq] at hs
      exact hc u hq (by rw [hs.1])
  | case3 => cases h

end Lexeme

namespace Node

/-- Whether a node is a blank or a comment. -/
def isGap (n : Node) : Bool := decide (n.kind = .blank) || decide (n.kind = .comment)

/-- The nodes of a row other than blanks and comments. -/
def significant (ns : List Node) : List Node := ns.filter fun n => !n.isGap

@[simp] theorem significant_nil : significant [] = [] := rfl

@[simp] theorem significant_append (xs ys : List Node) :
    significant (xs ++ ys) = significant xs ++ significant ys := List.filter_append ..

theorem significant_cons (n : Node) (ns : List Node) :
    significant (n :: ns) = if n.isGap then significant ns else n :: significant ns := by
  cases h : n.isGap <;> simp [significant, h]

theorem significant_of_gaps {ns : List Node} (h : ∀ n ∈ ns, n.isGap) : significant ns = [] := by
  rw [significant, List.filter_eq_nil_iff]
  intro n hn
  simp [h n hn]

/-- A blank or a comment as it is read in front of `rest`. -/
inductive Gap (rest : List Char) : Node → Prop where
  | blank {s : List Char} (nonempty : s ≠ []) (blanks : ∀ c ∈ s, Lexeme.isBlank c) :
      Gap rest (.leaf .blank s)
  | line {s : List Char} (inLine : ∀ c ∈ s, Lexeme.isLineEnd c = false)
      (ends : ∀ c ∈ rest.head?, Lexeme.isLineEnd c) :
      Gap rest (.leaf .comment ('/' :: '/' :: s))
  | block {s : List Char} (closed : Lexeme.blockComment s = some s.length) :
      Gap rest (.leaf .comment ('/' :: '*' :: s))

/-- A gap depends on the first character after it only. -/
theorem Gap.congr {n : Node} {rest rest' : List Char} (h : Gap rest n)
    (hr : rest'.head? = rest.head?) : Gap rest' n := by
  cases h with
  | blank hs hb => exact .blank hs hb
  | line hs he => exact .line hs (hr ▸ he)
  | block hc => exact .block hc

theorem Gap.text_ne_nil {n : Node} {rest : List Char} (h : Gap rest n) : n.text ≠ [] := by
  cases h <;> simp_all

theorem Gap.isGap {n : Node} {rest : List Char} (h : Gap rest n) : n.isGap := by
  cases h <;> rfl

/-- The blanks and comments of a row are those that are read from its text in front of `rest`. -/
def Spaced : List Node → List Char → Prop
  | [], _ => True
  | n :: ns, rest => (n.isGap → Gap (textOf ns ++ rest) n) ∧ Spaced ns rest

theorem spaced_append (xs ys : List Node) (rest : List Char) :
    Spaced (xs ++ ys) rest ↔ Spaced xs (textOf ys ++ rest) ∧ Spaced ys rest := by
  induction xs with
  | nil => simp [Spaced]
  | cons x xs ih => simp [Spaced, ih, and_assoc]

theorem spaced_of_tokens {ns : List Node} (h : ∀ n ∈ ns, n.isGap = false) (rest : List Char) :
    Spaced ns rest := by
  induction ns with
  | nil => trivial
  | cons n ns ih =>
    refine ⟨fun hn => ?_, ih fun m hm => h m (List.mem_cons_of_mem n hm)⟩
    rw [h n List.mem_cons_self] at hn
    cases hn

/-- A gap in a row is read in front of what follows it there. -/
theorem Spaced.gap {xs ys : List Node} {n : Node} {rest : List Char}
    (h : Spaced (xs ++ n :: ys) rest) (hn : n.isGap) : Gap (textOf ys ++ rest) n :=
  ((spaced_append ..).1 h).2.1 hn

theorem Spaced.congr {ns : List Node} {rest rest' : List Char} (h : Spaced ns rest)
    (hr : rest'.head? = rest.head?) : Spaced ns rest' := by
  induction ns with
  | nil => trivial
  | cons n ns ih =>
    refine ⟨fun hn => (h.1 hn).congr ?_, ih h.2⟩
    rw [List.head?_append, List.head?_append, hr]

end Node

open Node

theorem gap_of_span {s : List Char} {k : Nat} (h : Lexeme.span Lexeme.isBlank s = k + 1) :
    Gap (s.drop (k + 1)) (.leaf .blank (s.take (k + 1))) := by
  rw [← h, Lexeme.take_span]
  refine .blank ?_ fun c hc => List.mem_takeWhile_imp hc
  intro hn
  have hl := congrArg List.length (Lexeme.take_span Lexeme.isBlank s)
  rw [hn, h, List.length_take, List.length_nil] at hl
  obtain rfl : s = [] := List.eq_nil_of_length_eq_zero (by omega)
  cases h

theorem gap_of_comment {s : List Char} {k : Nat} (h : Lexeme.comment s = k + 1) :
    Gap (s.drop (k + 1)) (.leaf .comment (s.take (k + 1))) := by
  unfold Lexeme.comment at h
  split at h
  next r =>
    obtain rfl : k = Lexeme.span (fun c => !Lexeme.isLineEnd c) r + 1 := by omega
    rw [List.take_succ_cons, List.take_succ_cons, List.drop_succ_cons, List.drop_succ_cons,
      Lexeme.take_span, Lexeme.drop_span]
    refine .line (fun c hc => by simpa using List.mem_takeWhile_imp hc) fun c hc => ?_
    have hd := List.head?_dropWhile_not (fun c => !Lexeme.isLineEnd c) r
    rw [Option.mem_def] at hc
    rw [hc] at hd
    simpa using hd
  next r =>
    split at h
    next j hj =>
      obtain rfl : k = j + 1 := by omega
      have hb := Lexeme.blockComment_bounds hj
      have ht := Lexeme.blockComment_take_append hj []
      rw [List.append_nil] at ht
      rw [List.take_succ_cons, List.take_succ_cons]
      refine .block ?_
      rw [ht, List.length_take, Nat.min_eq_left hb.2]
    next => cases h
  next => cases h

/-- What is skipped in front of a token is a row of blanks and comments. -/
theorem Rule.trivia_spaced (fuel : Nat) (s : List Char) :
    Spaced (trivia fuel s).1 (trivia fuel s).2 ∧ ∀ n ∈ (trivia fuel s).1, n.isGap := by
  induction fuel generalizing s with
  | zero => exact ⟨trivial, by simp [trivia]⟩
  | succ fuel ih =>
    have hstep (k : Nat) (n : Node) (hg : Gap (s.drop (k + 1)) n) :
        Spaced (n :: (trivia fuel (s.drop (k + 1))).1) (trivia fuel (s.drop (k + 1))).2 ∧
          ∀ m ∈ n :: (trivia fuel (s.drop (k + 1))).1, m.isGap := by
      have hrest := ih (s.drop (k + 1))
      refine ⟨⟨fun _ => ?_, hrest.1⟩, ?_⟩
      · rw [trivia_text]
        exact hg
      · intro m hm
        rcases List.mem_cons.1 hm with rfl | hm
        · exact hg.isGap
        · exact hrest.2 m hm
    simp only [trivia]
    split
    next k hk => exact hstep k _ (gap_of_span hk)
    next =>
      split
      next k hk => exact hstep k _ (gap_of_comment hk)
      next => exact ⟨trivial, by simp⟩

end CustomElements.TypeScript
