import CustomElements.Component.Metadata
import CustomElements.Proofs.TypeScript.ObjectLiteral
import CustomElements.Proofs.TypeScript.Trivia

/-!
# The end of an object literal

`EndsWith` says what stands between the last member of an object literal and its closing brace:
blanks, comments, and the comma of the literal if it has one. The search for a comma goes through
this text. It knows comments by their marks only, and for it a line comment ends at a line feed and
nowhere else.

What it finds is always a comma (`comma_of_throughComma`), but it may be one in a comment. Where each
line comment ends at a line feed, maybe after a carriage return, the search steps over blanks and
comments as the reader does (`throughComma_gaps`), so it finds the comma of the literal or none
(`findsOwnComma_of_feeds`).
-/

/-! ### The search for a comma -/

namespace CustomElements

open TypeScript (Node Lexeme)
open TypeScript.Node (Spaced textOf)

/-- What a search finds is a comma. -/
theorem comma_of_throughComma {state : CommaSearch} {s : List Char} {k : Nat}
    (h : throughComma state s = some k) : ∃ a b, s = a ++ ',' :: b ∧ k = a.length + 1 := by
  have hskip (p : List Char) {r : List Char} {n : Nat}
      (hr : ∃ a b, r = a ++ ',' :: b ∧ n = a.length + 1) :
      ∃ a b, p ++ r = a ++ ',' :: b ∧ n + p.length = a.length + 1 := by
    obtain ⟨a, b, rfl, rfl⟩ := hr
    refine ⟨p ++ a, b, by rw [List.append_assoc], ?_⟩
    rw [List.length_append]
    omega
  fun_induction throughComma state s generalizing k with
  | case1 => cases h
  | case2 r ih =>
    obtain ⟨n, hn, rfl⟩ := Option.map_eq_some_iff.1 h
    exact hskip ['/', '/'] (ih hn)
  | case3 r ih =>
    obtain ⟨n, hn, rfl⟩ := Option.map_eq_some_iff.1 h
    exact hskip ['/', '*'] (ih hn)
  | case4 c r _ _ hc =>
    cases h
    rw [beq_iff_eq] at hc
    exact ⟨[], r, by rw [hc]; rfl, rfl⟩
  | case5 c r _ _ _ ih =>
    obtain ⟨n, hn, rfl⟩ := Option.map_eq_some_iff.1 h
    exact hskip [c] (ih hn)
  | case6 c r ih =>
    obtain ⟨n, hn, rfl⟩ := Option.map_eq_some_iff.1 h
    exact hskip [c] (ih hn)
  | case7 r ih =>
    obtain ⟨n, hn, rfl⟩ := Option.map_eq_some_iff.1 h
    exact hskip ['*', '/'] (ih hn)
  | case8 c r _ ih =>
    obtain ⟨n, hn, rfl⟩ := Option.map_eq_some_iff.1 h
    exact hskip [c] (ih hn)

theorem throughComma_of_ne {c : Char} {t : List Char} (hs : c ≠ '/') (hc : c ≠ ',') :
    throughComma .outside (c :: t) = (throughComma .outside t).map (· + 1) := by
  rw [throughComma, if_neg (by simpa using hc)]
  · intro r h; exact fun _ => hs h
  · intro r h; exact fun _ => hs h

theorem isBlank_ne {c : Char} (h : Lexeme.isBlank c) : c ≠ '/' ∧ c ≠ ',' := by
  constructor
  · rintro rfl; exact absurd h (by decide)
  · rintro rfl; exact absurd h (by decide)

theorem throughComma_blanks {s : List Char} (t : List Char) (hs : ∀ c ∈ s, Lexeme.isBlank c) :
    throughComma .outside (s ++ t) = (throughComma .outside t).map (· + s.length) := by
  induction s with
  | nil => simp
  | cons c s ih =>
    have hc := isBlank_ne (hs c List.mem_cons_self)
    rw [List.cons_append, throughComma_of_ne hc.1 hc.2,
      ih fun d hd => hs d (List.mem_cons_of_mem c hd), Option.map_map]
    rfl

theorem throughComma_inBlock {s : List Char} (t : List Char)
    (h : Lexeme.blockComment s = some s.length) :
    throughComma .inBlock (s ++ t) = (throughComma .outside t).map (· + s.length) := by
  fun_induction Lexeme.blockComment s with
  | case1 r =>
    rw [Option.some.injEq, List.length_cons, List.length_cons] at h
    obtain rfl : r = [] := List.eq_nil_of_length_eq_zero (by omega)
    rfl
  | case2 c r hc ih =>
    obtain ⟨n, hn, hr⟩ := Option.map_eq_some_iff.1 h
    obtain rfl : n = r.length := by rw [List.length_cons] at hr; omega
    have hb := Lexeme.blockComment_bounds hn
    rw [List.cons_append, throughComma, ih hn, Option.map_map]
    · rfl
    · -- the comment goes on after two characters, so none of its ends stands here
      intro q hq hs
      obtain ⟨d, u, rfl⟩ := List.exists_cons_of_length_pos (l := r) (by omega)
      rw [List.cons_append, List.cons.injEq] at hs
      exact hc u hq (by rw [hs.1])
  | case3 => cases h

theorem throughComma_inLine {s : List Char} (t : List Char)
    (hs : ∀ c ∈ s, Lexeme.isLineEnd c = false) :
    throughComma .inLine (s ++ t) = (throughComma .inLine t).map (· + s.length) := by
  induction s with
  | nil => simp
  | cons c s ih =>
    have hc : c ≠ '\n' := by
      rintro rfl
      exact absurd (hs _ List.mem_cons_self) (by decide)
    rw [List.cons_append, throughComma, if_neg (by simpa using hc),
      ih fun d hd => hs d (List.mem_cons_of_mem c hd), Option.map_map]
    rfl

/-- A text starts with a line feed, maybe after a carriage return. -/
def StartsWithFeed (t : List Char) : Prop := ['\n'] <+: t ∨ ['\r', '\n'] <+: t

theorem throughComma_inLine_of_feed {t : List Char} (h : StartsWithFeed t) :
    throughComma .inLine t = throughComma .outside t := by
  rcases h with ⟨r, rfl⟩ | ⟨r, rfl⟩ <;> rfl

namespace TypeScript.Node

/-- A comment that goes up to the end of a line. -/
def IsLineComment (n : Node) : Prop := n.kind = .comment ∧ ['/', '/'] <+: n.text

/-- Blanks and comments hide nothing from a search if their line comments end at line feeds. -/
theorem throughComma_gaps {ns : List Node} {rest t : List Char} (hg : ∀ n ∈ ns, n.isGap)
    (hs : Spaced ns rest)
    (hf : ∀ xs c ys, ns = xs ++ c :: ys → c.IsLineComment → StartsWithFeed (textOf ys ++ t)) :
    throughComma .outside (textOf ns ++ t) =
      (throughComma .outside t).map (· + (textOf ns).length) := by
  induction ns with
  | nil => simp
  | cons n ns ih =>
    have hrest := ih (fun m hm => hg m (List.mem_cons_of_mem n hm)) hs.2
      fun xs c ys h hc => hf (n :: xs) c ys (by rw [h]; rfl) hc
    have hlen (k : Nat) (hk : k = n.text.length)
        (h : throughComma .outside (n.text ++ (textOf ns ++ t)) =
          (throughComma .outside (textOf ns ++ t)).map (· + k)) :
        throughComma .outside (textOf (n :: ns) ++ t) =
          (throughComma .outside t).map (· + (textOf (n :: ns)).length) := by
      rw [textOf_cons, List.append_assoc, h, hrest, Option.map_map, hk]
      congr 1
      funext m
      rw [Function.comp_apply, List.length_append]
      omega
    cases hs.1 (hg n List.mem_cons_self) with
    | @blank s _ hb => exact hlen s.length (by simp) (by rw [text_leaf, throughComma_blanks _ hb])
    | @line s hl _ =>
      have hfeed := hf [] _ ns rfl ⟨rfl, s, by rw [text_leaf]; rfl⟩
      refine hlen (s.length + 2) (by simp) ?_
      rw [text_leaf, List.cons_append, List.cons_append, throughComma, throughComma_inLine _ hl,
        throughComma_inLine_of_feed hfeed, Option.map_map]
      rfl
    | @block s hb =>
      refine hlen (s.length + 2) (by simp) ?_
      rw [text_leaf, List.cons_append, List.cons_append, throughComma, throughComma_inBlock _ hb,
        Option.map_map]
      rfl

end TypeScript.Node

end CustomElements

/-! ### What is behind the last member -/

namespace CustomElements.TypeScript.Node

theorem significant_eq_cons {ns ms : List Node} {m : Node} (h : significant ns = m :: ms) :
    ∃ gap rest, ns = gap ++ m :: rest ∧ (∀ g ∈ gap, g.isGap) ∧ significant rest = ms := by
  obtain ⟨gap, rest, hs, hg, _, hr⟩ := List.filter_eq_cons_iff.1 h
  exact ⟨gap, rest, hs, fun g hgm => by simpa using hg g hgm, hr⟩

/-- A node that is skipped or punctuation is no part. -/
theorem not_part {m : Node} (h : m.isGap ∨ m.kind = .mark) :
    (m.isNamed && decide (m.kind ≠ .comment)) = false := by
  unfold isGap at h
  unfold isNamed
  cases hk : m.kind <;> simp_all

theorem part_of_memberKinds {m : Node} (h : m.kind ∈ memberKinds) :
    (m.isNamed && decide (m.kind ≠ .comment)) = true := by
  unfold isNamed
  cases hk : m.kind <;> simp_all [memberKinds]

namespace ObjectLiteral

variable {n last : Node} {members ms : List Node} {trailing : Bool}

/-- The members of an object literal are its parts. -/
theorem parts_eq (h : n.ObjectLiteral members trailing) : n.parts = members := by
  have hparts : n.parts = (significant n.children).filter fun m => decide (m.kind ≠ .mark) := by
    rw [parts, namedChildren, significant, List.filter_filter, List.filter_filter]
    refine List.filter_congr fun m _ => ?_
    unfold isNamed isGap
    cases m.kind <;> rfl
  have hkeep : ∀ ms : List Node, (∀ m ∈ ms, m.kind ∈ memberKinds) →
      (separated trailing ms).filter (fun m => decide (m.kind ≠ .mark)) = ms := by
    intro ms hms
    have hm (m : Node) (h : m ∈ ms) : m.kind ≠ .mark := by
      intro hk
      have := hms m h
      rw [hk] at this
      exact absurd this (by decide)
    cases ms with
    | nil => cases trailing <;> rfl
    | cons m ms =>
      have htail : ∀ ks : List Node, (∀ k ∈ ks, k.kind ≠ .mark) →
          (ks.flatMap fun k => [mark ',', k]).filter (fun m => decide (m.kind ≠ .mark)) = ks := by
        intro ks hks
        induction ks with
        | nil => rfl
        | cons k ks ih =>
          have hk := hks k List.mem_cons_self
          have := ih fun j hj => hks j (List.mem_cons_of_mem k hj)
          simp_all [mark, kind]
      have := htail ms fun k hk => hm k (List.mem_cons_of_mem m hk)
      have hfirst := hm m List.mem_cons_self
      rw [separated_cons]
      cases trailing <;> simp_all [mark, kind]
  rw [hparts, h.listed, List.filter_append, List.filter_cons, hkeep members h.forms]
  simp [mark, kind]

theorem text_eq (h : n.ObjectLiteral members trailing) : n.text = textOf n.children := by
  cases n with
  | leaf k s => cases h.closed
  | branch k cs => exact text_branch k cs

theorem exists_inner (h : n.ObjectLiteral members trailing) :
    ∃ inner, n.children = inner ++ [mark '}'] ∧
      significant inner = mark '{' :: separated trailing members := by
  obtain ⟨inner, hinner⟩ := List.getLast?_eq_some_iff.1 h.closed
  refine ⟨inner, hinner, ?_⟩
  have hl := h.listed
  rw [hinner, significant_append] at hl
  exact List.append_cancel_right hl

end ObjectLiteral

/-- The last member of an object literal, what stands before it, and what stands between it and the
closing brace. -/
structure EndsWith (n last : Node) (front tail : List Node) (trailing : Bool) : Prop where
  children_eq : n.children = front ++ last :: (tail ++ [mark '}'])
  isMember : last.kind ∈ memberKinds
  listed : significant tail = if trailing then [mark ','] else []

/-- What stands before and after the last member. -/
theorem ObjectLiteral.exists_end {n last : Node} {ms : List Node} {trailing : Bool}
    (h : n.ObjectLiteral (ms ++ [last]) trailing) :
    ∃ front tail, n.EndsWith last front tail trailing ∧
      significant front = mark '{' :: ms.flatMap (fun m => [m, mark ',']) := by
  obtain ⟨inner, hinner, hs⟩ := h.exists_inner
  rw [separated_append, ← List.cons_append] at hs
  obtain ⟨front, rest, rfl, hfront, hrest⟩ := List.filter_eq_append_iff.1 hs
  obtain ⟨gap, tail, rfl, hgap, htail⟩ := significant_eq_cons hrest
  refine ⟨front ++ gap, tail, ⟨?_, h.forms last (by simp), htail⟩, ?_⟩
  · rw [hinner]
    simp
  · rw [significant_append, significant_of_gaps hgap, List.append_nil]
    exact hfront

/-- The children of an object literal between its last member and its closing brace. -/
def afterMembers (n : Node) : List Node :=
  (n.children.reverse.takeWhile fun m => decide (m.kind ∉ memberKinds)).reverse.dropLast

namespace EndsWith

variable {n last : Node} {front tail : List Node} {trailing : Bool}

/-- Behind the last member no child is a part. -/
theorem tail_not_part (h : n.EndsWith last front tail trailing) :
    ∀ m ∈ tail ++ [mark '}'], m.isGap ∨ m.kind = .mark := by
  intro m hm
  rcases List.mem_append.1 hm with hm | hm
  · by_cases hg : m.isGap
    · exact .inl hg
    · have hs : m ∈ significant tail := List.mem_filter.2 ⟨hm, by simpa using hg⟩
      rw [h.listed] at hs
      cases trailing with
      | false => cases hs
      | true =>
        obtain rfl := List.mem_singleton.1 hs
        exact .inr rfl
  · obtain rfl := List.mem_singleton.1 hm
    exact .inr rfl

theorem afterMembers_eq (h : n.EndsWith last front tail trailing) : n.afterMembers = tail := by
  have hrev : n.children.reverse = (tail ++ [mark '}']).reverse ++ last :: front.reverse := by
    rw [h.children_eq]
    simp
  have hno : ∀ m ∈ (tail ++ [mark '}']).reverse, decide (m.kind ∉ memberKinds) = true := by
    intro m hm
    rw [List.mem_reverse] at hm
    rw [decide_eq_true_eq]
    intro hk
    have hp := part_of_memberKinds hk
    rw [not_part (h.tail_not_part m hm)] at hp
    cases hp
  rw [afterMembers, hrev, List.takeWhile_append_of_pos hno,
    List.takeWhile_cons_of_neg (by simpa using h.isMember), List.append_nil, List.reverse_reverse, List.dropLast_concat]

theorem parts_ne_nil (h : n.EndsWith last front tail trailing) : n.parts ≠ [] := by
  have hmem : last ∈ n.parts := by
    rw [parts, namedChildren, List.filter_filter, List.mem_filter, h.children_eq, Bool.and_comm]
    exact ⟨by simp, part_of_memberKinds h.isMember⟩
  exact List.ne_nil_of_mem hmem

theorem tail_spaced {members : List Node} (h : n.EndsWith last front tail trailing)
    (ho : n.ObjectLiteral members trailing) : Spaced tail ['}'] := by
  have hs := ho.spaced
  rw [h.children_eq, List.append_cons, spaced_append] at hs
  simpa [mark] using ((spaced_append ..).1 hs.2).1

end EndsWith

/-- The search for a comma behind the last member finds none but the comma of the literal itself. -/
def FindsOwnComma (n : Node) : Prop :=
  n.parts ≠ [] → ∀ k, throughComma .outside (textOf n.afterMembers) = some k →
    ∃ gap rest, n.afterMembers = gap ++ mark ',' :: rest ∧ k = (textOf gap).length + 1

/-- What the search behind the last member finds ends a child of the literal: its own comma, or a
comment. -/
def FindsEdge (n : Node) : Prop :=
  n.parts ≠ [] → ∀ k, throughComma .outside (textOf n.afterMembers) = some k →
    ∃ found rest, n.afterMembers = found ++ rest ∧ k = (textOf found).length

theorem FindsOwnComma.findsEdge {n : Node} (h : n.FindsOwnComma) : n.FindsEdge := by
  intro hp k hk
  obtain ⟨gap, rest, hs, rfl⟩ := h hp k hk
  refine ⟨gap ++ [mark ','], rest, by rw [hs]; simp, ?_⟩
  rw [textOf_append, List.length_append]
  rfl

theorem findsOwnComma_of_empty {n : Node} {trailing : Bool} (h : n.ObjectLiteral [] trailing) :
    n.FindsOwnComma := fun hp => (hp h.parts_eq).elim

theorem Gap.not_line {c : Node} {d : Char} {rest : List Char} (h : Gap rest c)
    (hd : rest.head? = some d) (hne : Lexeme.isLineEnd d = false) : ¬ c.IsLineComment := by
  rintro ⟨hk, hp⟩
  cases h with
  | blank _ _ => cases hk
  | line _ he =>
    have := he d hd
    rw [hne] at this
    cases this
  | block _ =>
    obtain ⟨t, ht⟩ := hp
    cases ht

theorem blockComment_getLast {s : List Char} (h : Lexeme.blockComment s = some s.length) :
    s.getLast? = some '/' := by
  fun_induction Lexeme.blockComment s with
  | case1 r =>
    rw [Option.some.injEq, List.length_cons, List.length_cons] at h
    obtain rfl : r = [] := List.eq_nil_of_length_eq_zero (by omega)
    rfl
  | case2 c r _ ih =>
    obtain ⟨n, hn, hr⟩ := Option.map_eq_some_iff.1 h
    obtain rfl : n = r.length := by rw [List.length_cons] at hr; omega
    rw [List.getLast?_cons, ih hn]
    rfl
  | case3 => cases h

/-- Of blanks and comments, only a line comment may end with a comma. -/
theorem Gap.line_of_comma {c : Node} {rest : List Char} (h : Gap rest c)
    (hc : c.text.getLast? = some ',') : c.IsLineComment := by
  cases h with
  | @blank s _ hb =>
    have := hb ',' (List.mem_of_getLast? hc)
    exact absurd this (by decide)
  | @line s _ _ => exact ⟨rfl, s, rfl⟩
  | @block s hb =>
    have hs := blockComment_getLast hb
    rw [text_leaf, List.getLast?_cons, List.getLast?_cons, hs] at hc
    cases hc

theorem startsWithFeed_of_append {s t : List Char} {c : Char} (h : StartsWithFeed (s ++ c :: t))
    (hc : Lexeme.isLineEnd c = false) : StartsWithFeed s := by
  rcases h with ⟨r, hr⟩ | ⟨r, hr⟩
  · cases s with
    | nil => cases hr; cases hc
    | cons d s => cases hr; exact .inl ⟨s, rfl⟩
  · match s with
    | [] => cases hr; cases hc
    | [d] => cases hr; cases hc
    | d :: e :: s => cases hr; exact .inr ⟨s, rfl⟩

theorem startsWithFeed_append {s : List Char} (h : StartsWithFeed s) (t : List Char) :
    StartsWithFeed (s ++ t) := by
  rcases h with ⟨r, rfl⟩ | ⟨r, rfl⟩
  · exact .inl ⟨r ++ t, rfl⟩
  · exact .inr ⟨r ++ t, rfl⟩

/-- Where line comments end at line feeds, the search finds the comma of the literal or none. -/
theorem findsOwnComma_of_feeds {n : Node} {members : List Node} {trailing : Bool}
    (h : n.ObjectLiteral members trailing)
    (hf : ∀ xs c ys, n.children = xs ++ c :: ys → c.IsLineComment → StartsWithFeed (textOf ys)) :
    n.FindsOwnComma := by
  rcases List.eq_nil_or_concat members with rfl | ⟨ms, last, rfl⟩
  · exact findsOwnComma_of_empty h
  rw [List.concat_eq_append] at h
  obtain ⟨front, tail, he, _⟩ := h.exists_end
  have htail := he.tail_spaced h
  have hsig := he.listed
  -- what follows a line comment of the tail starts with a line feed before the closing brace
  have hfeed (xs : List Node) (c : Node) (ys : List Node) (hx : tail = xs ++ c :: ys)
      (hc : c.IsLineComment) : StartsWithFeed (textOf ys) := by
    have hy := hf (front ++ last :: xs) c (ys ++ [mark '}']) (by rw [he.children_eq, hx]; simp) hc
    rw [textOf_append] at hy
    exact startsWithFeed_of_append (c := '}') (t := []) (by simpa [mark] using hy) (by decide)
  intro _ k hk
  rw [he.afterMembers_eq] at hk ⊢
  cases trailing with
  | false =>
    have hgaps : ∀ m ∈ tail, m.isGap := by
      intro m hm
      simpa using List.filter_eq_nil_iff.1 hsig m hm
    have hnone := throughComma_gaps (t := []) hgaps htail fun xs c ys hx hc =>
      startsWithFeed_append (hfeed xs c ys hx hc) []
    rw [List.append_nil, hk] at hnone
    cases hnone
  | true =>
    obtain ⟨gap, rest, rfl, hgaps, _⟩ := significant_eq_cons hsig
    have hcomma : textOf (mark ',' :: rest) = ',' :: textOf rest := by simp [mark]
    have hsome := throughComma_gaps (t := ',' :: textOf rest) hgaps ((spaced_append ..).1 htail).1
      fun xs c ys hx hc => by
        have hy := hfeed xs c (ys ++ mark ',' :: rest) (by rw [hx]; simp) hc
        rwa [textOf_append, hcomma] at hy
    rw [textOf_append, hcomma, hsome] at hk
    refine ⟨gap, rest, rfl, ?_⟩
    have hone : throughComma .outside (',' :: textOf rest) = some 1 := rfl
    rw [hone, Option.map_some, Option.some.injEq] at hk
    omega

end CustomElements.TypeScript.Node
