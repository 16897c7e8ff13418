import CustomElements.Proofs.TypeScript.Trivia

/-!
# Where the branches of a tree come from

A tree only shows the kinds of its branches. If a grammar makes all branches of a kind by one rule,
then each such branch, at any depth of any tree, holds what one match of that rule read
(`Reads.madeOnly`). Whether a grammar does so is a computation on its rules.
-/

namespace CustomElements.TypeScript

namespace Node

/-- `P` holds of the node and of all nodes below it. -/
inductive Everywhere (P : Node → Prop) : Node → Prop where
  | leaf {k : Kind} {s : List Char} (here : P (.leaf k s)) : Everywhere P (.leaf k s)
  | branch {k : Kind} {cs : List Node} (here : P (.branch k cs))
      (below : ∀ c ∈ cs, Everywhere P c) : Everywhere P (.branch k cs)

theorem Everywhere.here {P : Node → Prop} {n : Node} (h : Everywhere P n) : P n := by
  cases h with
  | leaf h => exact h
  | branch h _ => exact h

theorem Everywhere.child {P : Node → Prop} {n c : Node} (h : Everywhere P n)
    (hc : c ∈ n.children) : Everywhere P c := by
  cases h with
  | leaf _ => cases hc
  | branch _ hb => exact hb c hc

section

variable {P : Node → Prop} [DecidablePred P]

mutual

def decEverywhere : (n : Node) → Decidable (n.Everywhere P)
  | .leaf k s => decidable_of_iff (P (.leaf k s)) ⟨.leaf, Everywhere.here⟩
  | .branch k cs =>
    match decEverywhereRow cs with
    | isTrue h => decidable_of_iff (P (.branch k cs)) ⟨(.branch · h), Everywhere.here⟩
    | isFalse h => isFalse fun he => h fun _ hc => he.child hc

def decEverywhereRow : (ns : List Node) → Decidable (∀ n ∈ ns, n.Everywhere P)
  | [] => isTrue (List.forall_mem_nil _)
  | n :: ns =>
    match decEverywhere n, decEverywhereRow ns with
    | isTrue h, isTrue h' => isTrue (List.forall_mem_cons.2 ⟨h, h'⟩)
    | isFalse h, _ => isFalse fun hall => h (List.forall_mem_cons.1 hall).1
    | _, isFalse h => isFalse fun hall => h (List.forall_mem_cons.1 hall).2

end

instance : DecidablePred (Everywhere P) := decEverywhere

end

theorem Everywhere.mono {P Q : Node → Prop} {n : Node} (h : Everywhere P n)
    (hpq : ∀ m, P m → Q m) : Everywhere Q n := by
  induction h with
  | leaf hp => exact .leaf (hpq _ hp)
  | branch hp _ ih => exact .branch (hpq _ hp) ih

end Node

namespace Rule

open Node

variable {N : Type}

/-- Whether each match of the rule ends with a branch of another kind. -/
def endsBeside (kind : Kind) : Rule N → Bool
  | branch k _ => decide (k ≠ kind)
  | seq _ b => b.endsBeside kind
  | choice a b => a.endsBeside kind && b.endsBeside kind
  | _ => false

/-- Whether the nodes of the kind that the rule itself makes are branches around `only`. -/
def makesOnly [DecidableEq N] (kind : Kind) (only : Rule N) : Rule N → Bool
  | token k _ | glued k _ => decide (k ≠ kind)
  | seq a b | choice a b => makesOnly kind only a && makesOnly kind only b
  | many a => makesOnly kind only a
  | branch k a => (decide (k ≠ kind) || decide (a = only)) && makesOnly kind only a
  | extend a step =>
    makesOnly kind only a && makesOnly kind only step && step.endsBeside kind
  | empty | ahead _ | notAhead _ | nonterminal _ | lineBreak | finish => true

/-- A node of the kind holds what one match of `only` read. -/
def MadeBy (grammar : N → Rule N) (kind : Kind) (only : Rule N) (n : Node) : Prop :=
  n.kind = kind → ∃ s rest, Reads grammar only s n.children rest

variable {grammar : N → Rule N} {kind : Kind}

theorem Reads.ends_of_endsBeside {rule : Rule N} {s rest : List Char} {xs : List Node}
    (h : Reads grammar rule s xs rest) (hr : rule.endsBeside kind) :
    ∃ init k cs, xs = init ++ [.branch k cs] ∧ k ≠ kind := by
  induction h with
  | branch _ _ => exact ⟨_, _, _, rfl, of_decide_eq_true hr⟩
  | @seq _ _ _ _ _ us _ _ _ _ ih =>
    obtain ⟨init, k, cs, rfl, hk⟩ := ih hr
    exact ⟨us ++ init, k, cs, by rw [List.append_assoc], hk⟩
  | choiceFirst _ ih =>
    rw [endsBeside, Bool.and_eq_true] at hr
    exact ih hr.1
  | choiceSecond _ ih =>
    rw [endsBeside, Bool.and_eq_true] at hr
    exact ih hr.2
  | _ => cases hr

/-- A branch of another kind may take in all that was read before it. -/
theorem everywhere_absorb {P : Node → Prop} (hP : ∀ n : Node, n.kind ≠ kind → P n)
    {base init cs : List Node} {k : Kind} (hk : k ≠ kind) (hb : ∀ x ∈ base, Everywhere P x)
    (hs : ∀ x ∈ init ++ [.branch k cs], Everywhere P x) :
    ∀ x ∈ absorb base (init ++ [.branch k cs]), Everywhere P x := by
  have habsorb : absorb base (init ++ [.branch k cs]) = base.dropLast ++
      [.branch k (base.drop (base.length - 1) ++ init ++ cs)] := by
    unfold absorb
    rw [List.getLast?_concat, List.dropLast_concat]
  intro x hx
  rw [habsorb, List.mem_append, List.mem_singleton] at hx
  rcases hx with hx | rfl
  · exact hb x ((List.dropLast_sublist base).subset hx)
  · refine .branch (hP _ hk) fun c hc => ?_
    rw [List.mem_append, List.mem_append] at hc
    rcases hc with (hc | hc) | hc
    · exact hb c (List.mem_of_mem_drop hc)
    · exact hs c (List.mem_append_left _ hc)
    · exact (hs _ (List.mem_append_right init (List.mem_singleton_self _))).child hc

/-- Blanks and comments are of their own kinds, everywhere. -/
theorem everywhere_trivia {P : Node → Prop} (hblank : kind ≠ .blank) (hcomment : kind ≠ .comment)
    (hP : ∀ n : Node, n.kind ≠ kind → P n) (fuel : Nat) (s : List Char) :
    ∀ x ∈ (trivia fuel s).1, Everywhere P x := by
  intro x hx
  obtain ⟨xs, ys, hsplit⟩ := List.append_of_mem hx
  have hsp := (trivia_spaced fuel s).1
  rw [hsplit] at hsp
  cases hsp.gap ((trivia_spaced fuel s).2 x hx) with
  | blank _ _ => exact .leaf (hP _ hblank.symm)
  | line _ _ => exact .leaf (hP _ hcomment.symm)
  | block _ => exact .leaf (hP _ hcomment.symm)

/-- In what a grammar reads, each node of the kind was made by the one rule for it. -/
theorem Reads.madeOnly [DecidableEq N] {only : Rule N} (hblank : kind ≠ .blank)
    (hcomment : kind ≠ .comment) (hg : ∀ n, makesOnly kind only (grammar n)) {rule : Rule N}
    {s rest : List Char} {xs : List Node} (h : Reads grammar rule s xs rest)
    (hm : makesOnly kind only rule) : ∀ x ∈ xs, Everywhere (MadeBy grammar kind only) x := by
  have hother (n : Node) (hn : n.kind ≠ kind) : MadeBy grammar kind only n :=
    fun h => (hn h).elim
  have hgaps := everywhere_trivia hblank hcomment hother
  induction h with
  | empty | manyEnd | ahead | notAhead | lineBreak => exact nofun
  | token _ =>
    rw [List.forall_mem_append, List.forall_mem_singleton]
    exact ⟨hgaps _ _, .leaf (hother _ (of_decide_eq_true hm))⟩
  | glued _ =>
    rw [List.forall_mem_singleton]
    exact .leaf (hother _ (of_decide_eq_true hm))
  | seq _ _ iha ihb =>
    rw [makesOnly, Bool.and_eq_true] at hm
    rw [List.forall_mem_append]
    exact ⟨iha hm.1, ihb hm.2⟩
  | choiceFirst _ ih =>
    rw [makesOnly, Bool.and_eq_true] at hm
    exact ih hm.1
  | choiceSecond _ ih =>
    rw [makesOnly, Bool.and_eq_true] at hm
    exact ih hm.2
  | manyMore _ _ iha ihb =>
    rw [List.forall_mem_append]
    exact ⟨iha hm, ihb hm⟩
  | nonterminal _ ih => exact ih (hg _)
  | branch inner ih =>
    rw [makesOnly, Bool.and_eq_true, Bool.or_eq_true] at hm
    rw [List.forall_mem_append, List.forall_mem_singleton]
    refine ⟨hgaps _ _, .branch ?_ (ih hm.2)⟩
    rcases hm.1 with hk | ha
    · exact hother _ (of_decide_eq_true hk)
    · obtain rfl := of_decide_eq_true ha
      exact fun _ => ⟨_, _, inner⟩
  | extendBase _ ih =>
    rw [makesOnly, Bool.and_eq_true, Bool.and_eq_true] at hm
    exact ih hm.1.1
  | extendStep _ last ihBefore ihLast =>
    have hparts := hm
    rw [makesOnly, Bool.and_eq_true, Bool.and_eq_true] at hparts
    obtain ⟨init, k, cs, rfl, hk⟩ := last.ends_of_endsBeside hparts.2
    exact everywhere_absorb hother hk (ihBefore hm) (ihLast hparts.1.2)
  | finish _ => exact hgaps _ _

end Rule

end CustomElements.TypeScript
