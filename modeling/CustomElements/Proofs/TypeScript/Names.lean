import CustomElements.Proofs.TypeScript.Branches
import CustomElements.TypeScript.Grammar

/-!
# Which characters names hold

Leaves keep the class of the token that they were read as only through their kind. If a grammar
reads all leaves of a kind by the same few classes, then each leaf of the kind, at any depth of any
tree, is a token of one of them. So no identifier is empty, and none holds a number sign.
-/

namespace CustomElements.TypeScript

namespace Rule

open Node

variable {N : Type}

/-- Whether each node of the kind that the rule itself makes is a token of one of the classes. -/
def readsOnly (kind : Kind) (lexemes : List Lexeme) : Rule N → Bool
  | token k lexeme | glued k lexeme => decide (k ≠ kind) || decide (lexeme ∈ lexemes)
  | seq a b | choice a b | extend a b => readsOnly kind lexemes a && readsOnly kind lexemes b
  | many a => readsOnly kind lexemes a
  | branch k a => decide (k ≠ kind) && readsOnly kind lexemes a
  | empty | ahead _ | notAhead _ | nonterminal _ | lineBreak | finish => true

/-- A node of the kind is a token of one of the classes. -/
def ReadAs (kind : Kind) (lexemes : List Lexeme) (n : Node) : Prop :=
  n.kind = kind → ∃ lexeme ∈ lexemes, ∃ s k, lexeme.measure s = some k ∧ n = .leaf kind (s.take k)

variable {grammar : N → Rule N} {kind : Kind} {lexemes : List Lexeme}

theorem everywhere_token {k : Kind} {lexeme : Lexeme} {s : List Char} {n : Nat}
    (hm : (decide (k ≠ kind) || decide (lexeme ∈ lexemes)) = true)
    (fits : lexeme.measure s = some n) :
    Everywhere (ReadAs kind lexemes) (.leaf k (s.take n)) := by
  rw [Bool.or_eq_true, decide_eq_true_eq, decide_eq_true_eq] at hm
  refine .leaf fun hk => ?_
  rcases hm with hne | hmem
  · exact absurd hk hne
  · obtain rfl : k = kind := hk
    exact ⟨lexeme, hmem, s, n, fits, rfl⟩

/-- In what a grammar reads, each node of the kind is a token of one of the classes. -/
theorem Reads.readOnly (hblank : kind ≠ .blank) (hcomment : kind ≠ .comment)
    (hg : ∀ n, readsOnly kind lexemes (grammar n)) {rule : Rule N} {s rest : List Char}
    {xs : List Node} (h : Reads grammar rule s xs rest) (hm : readsOnly kind lexemes rule) :
    ∀ x ∈ xs, Everywhere (ReadAs kind lexemes) x := by
  have hother (n : Node) (hn : n.kind ≠ kind) : ReadAs kind lexemes n := fun h => (hn h).elim
  have hgaps := everywhere_trivia hblank hcomment hother
  induction h with
  | empty | manyEnd | ahead | notAhead | lineBreak => exact nofun
  | token fits =>
    rw [List.forall_mem_append, List.forall_mem_singleton]
    exact ⟨hgaps _ _, everywhere_token hm fits⟩
  | glued fits =>
    rw [List.forall_mem_singleton]
    exact everywhere_token hm fits
  | seq _ _ iha ihb =>
    rw [readsOnly, Bool.and_eq_true] at hm
    rw [List.forall_mem_append]
    exact ⟨iha hm.1, ihb hm.2⟩
  | choiceFirst _ ih =>
    rw [readsOnly, Bool.and_eq_true] at hm
    exact ih hm.1
  | choiceSecond _ ih =>
    rw [readsOnly, Bool.and_eq_true] at hm
    exact ih hm.2
  | manyMore _ _ iha ihb =>
    rw [List.forall_mem_append]
    exact ⟨iha hm, ihb hm⟩
  | nonterminal _ ih => exact ih (hg _)
  | branch _ ih =>
    rw [readsOnly, Bool.and_eq_true, decide_eq_true_eq] at hm
    rw [List.forall_mem_append, List.forall_mem_singleton]
    exact ⟨hgaps _ _, .branch (hother _ hm.1) (ih hm.2)⟩
  | extendBase _ ih =>
    rw [readsOnly, Bool.and_eq_true] at hm
    exact ih hm.1
  | extendStep _ _ ihBefore ihLast =>
    have hparts := hm
    rw [readsOnly, Bool.and_eq_true] at hparts
    have hlast := ihLast hparts.2
    unfold absorb
    split
    · next k cs hbranch =>
      obtain ⟨init, rfl⟩ := List.getLast?_eq_some_iff.1 hbranch
      have hk : k ≠ kind := by
        -- a branch is no token
        intro hk
        have hread := (hlast _ (List.mem_append_right init (List.mem_singleton_self _))).here
        obtain ⟨_, _, _, _, _, heq⟩ := hread hk
        cases heq
      have habsorb := everywhere_absorb hother hk (ihBefore hm) hlast
      rw [absorb, List.getLast?_concat] at habsorb
      exact habsorb
    · rw [List.forall_mem_append]
      exact ⟨ihBefore hm, hlast⟩
  | finish _ => exact hgaps _ _

end Rule

namespace Lexeme

theorem not_mem_take_span {p : Char → Bool} {c : Char} (hc : p c = false) (s : List Char) :
    c ∉ s.take (span p s) := by
  rw [take_span]
  intro hm
  rw [List.mem_takeWhile_imp hm] at hc
  cases hc

/-- A row of units holds only characters that a unit can hold. -/
theorem not_mem_take_units {unit : List Char → Nat} {c : Char}
    (hunit : ∀ s : List Char, c ∉ s.take (unit s)) {skip : Nat} {s : List Char}
    (hs : c ∉ s.take skip) : c ∉ s.take (units unit skip s) := by
  induction s generalizing skip with
  | nil => exact List.not_mem_nil
  | cons d r ih =>
    have hcons {k : Nat} (h : c ∉ (d :: r).take (k + 1)) :
        c ∉ (d :: r).take (units unit k r + 1) := by
      rw [List.take_succ_cons, List.mem_cons, not_or] at h ⊢
      exact ⟨h.1, ih h.2⟩
    cases skip with
    | succ k => exact hcons hs
    | zero =>
      have hfirst := hunit (d :: r)
      rw [units]
      split
      · exact List.not_mem_nil
      · next k hk =>
        rw [hk] at hfirst
        exact hcons hfirst

theorem not_mem_nameEscape (s : List Char) : '#' ∉ s.take (nameEscape s) := by
  have hhex (r : List Char) := not_mem_take_span (p := isHexDigit) (c := '#') (by decide) r
  unfold nameEscape
  split
  · next r =>
    dsimp only
    split
    · next h =>
      rw [Bool.and_eq_true, beq_iff_eq] at h
      obtain ⟨q, hq⟩ := List.head?_eq_some_iff.1 h.2
      have htake : r.take (span isHexDigit r + 1) = r.take (span isHexDigit r) ++ ['}'] := by
        rw [List.take_add, hq]
        rfl
      have hrest := hhex r
      simp [List.take_succ_cons, htake, hrest]
    · exact List.not_mem_nil
  · next r _ =>
    split
    · next h =>
      have hrest := hhex (r.take 4)
      rw [List.take_of_length_le (by rw [List.length_take]; omega)] at hrest
      simp [List.take_succ_cons, hrest]
    · exact List.not_mem_nil
  · exact List.not_mem_nil

theorem not_mem_take_nameUnit {p : Char → Bool} (hp : p '#' = false) (c : Char) (r : List Char) :
    '#' ∉ (c :: r).take (if p c then 1 else nameEscape (c :: r)) := by
  split
  · next hc =>
    rw [List.take_succ_cons, List.take_zero, List.mem_singleton]
    rintro rfl
    rw [hp] at hc
    cases hc
  · exact not_mem_nameEscape _

theorem not_mem_nameStart (s : List Char) : '#' ∉ s.take (nameStart s) := by
  cases s with
  | nil => exact List.not_mem_nil
  | cons c r => exact not_mem_take_nameUnit (by decide) c r

theorem not_mem_namePart (s : List Char) : '#' ∉ s.take (namePart s) := by
  cases s with
  | nil => exact List.not_mem_nil
  | cons c r => exact not_mem_take_nameUnit (by decide) c r

theorem not_mem_nameLength (s : List Char) : '#' ∉ s.take (nameLength s) := by
  have hstart := not_mem_nameStart s
  have hunits : '#' ∉ (s.drop (nameStart s)).take (units namePart 0 (s.drop (nameStart s))) :=
    not_mem_take_units not_mem_namePart List.not_mem_nil
  unfold nameLength
  split
  · exact List.not_mem_nil
  · rw [List.take_add, List.mem_append, not_or]
    exact ⟨hstart, hunits⟩

/-- The classes of tokens that identifiers are. -/
def ofIdentifiers : List Lexeme := [.identifier, .elementName]

theorem take_ne_nil_of_pos {s : List Char} {k : Nat} (hk : 0 < k) (hs : s ≠ []) :
    s.take k ≠ [] := by
  rw [Ne, List.take_eq_nil_iff]
  rintro (rfl | rfl)
  · omega
  · exact hs rfl

/-- An identifier is not empty and holds no number sign. -/
theorem identifier_text {lexeme : Lexeme} (hl : lexeme ∈ ofIdentifiers) {s : List Char} {k : Nat}
    (h : lexeme.measure s = some k) : s.take k ≠ [] ∧ '#' ∉ s.take k := by
  have hs {n : Nat} (hn : 0 < n) (hlength : n = nameLength s ∨ n = nameStart s) : s ≠ [] := by
    rintro rfl
    rcases hlength with rfl | rfl <;> cases hn
  rw [ofIdentifiers, List.mem_cons, List.mem_singleton] at hl
  rcases hl with rfl | rfl
  · have hname := not_mem_nameLength s
    simp only [measure] at h
    split at h
    · cases h
    · next hk =>
      split at h
      · cases h
      · obtain rfl := Option.some.inj h
        have hpos : 0 < nameLength s := Nat.pos_of_ne_zero hk
        exact ⟨take_ne_nil_of_pos hpos (hs hpos (.inl rfl)), hname⟩
  · have hstart := not_mem_nameStart s
    have hrest := not_mem_take_span (p := fun c => continuesName c || c == '-') (c := '#')
      (by decide) (s.drop (nameStart s))
    simp only [measure] at h
    split at h
    · cases h
    · next hk =>
      obtain rfl := Option.some.inj h
      have hpos : 0 < nameStart s := Nat.pos_of_ne_zero hk
      rw [List.take_add, List.mem_append, not_or]
      refine ⟨?_, hstart, hrest⟩
      exact List.append_ne_nil_of_left_ne_nil (take_ne_nil_of_pos hpos (hs hpos (.inr rfl))) _

end Lexeme

theorem grammar_readsOnly (dialect : Dialect) (n : Nonterminal) :
    (grammar dialect n).readsOnly .identifier Lexeme.ofIdentifiers := by
  cases dialect <;> cases n <;> decide +kernel

/-- In the tree of a file, an identifier is not empty and holds no number sign. -/
theorem identifier_of_parse? {dialect : Dialect} {source : List Char} {tree : Node}
    (h : parse? dialect source = some tree) :
    Node.Everywhere (fun n => n.kind = .identifier → n.text ≠ [] ∧ '#' ∉ n.text) tree := by
  obtain ⟨nodes, rfl, hreads⟩ := reads_of_parse? h
  have hall := hreads.readOnly (by decide) (by decide) (grammar_readsOnly dialect)
    (by decide +kernel)
  refine .branch (fun hk => by cases hk) fun x hx => (hall x hx).mono fun n hn hk => ?_
  obtain ⟨lexeme, hl, s, k, fits, rfl⟩ := hn hk
  rw [Node.text_leaf]
  exact Lexeme.identifier_text hl fits

end CustomElements.TypeScript
