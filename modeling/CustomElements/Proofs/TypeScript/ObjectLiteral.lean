import CustomElements.Proofs.TypeScript.Branches
import CustomElements.TypeScript.Grammar

/-!
# Object literals

`ObjectLiteral n members trailing` says how an object literal reads: without its blanks and
comments it is an opening brace, the members with one comma between two of them, maybe one more
comma, and a closing brace. Each object literal in the tree of a file reads so, for its parts as
members (`objectLiteral_of_parse?`).

Whether each match of a rule reads a character is computed from the rule, given nonterminals of
which this is known. Members of object literals are never empty for this reason.
-/

namespace CustomElements.TypeScript

/-- Tokens of the class are never empty, as far as their class shows it at once. -/
def Lexeme.isSolid : Lexeme → Bool
  | symbol t _ | word t => !t.isEmpty
  | identifier => true
  | _ => false

theorem Lexeme.take_ne_nil {lexeme : Lexeme} {s : List Char} {k : Nat}
    (h : lexeme.measure s = some k) (hs : lexeme.isSolid) : s.take k ≠ [] := by
  have hfront (t : List Char) (ht : !t.isEmpty) (hp : t.isPrefixOf s) :
      s.take t.length ≠ [] := by
    obtain ⟨r, rfl⟩ := List.isPrefixOf_iff_prefix.1 hp
    rw [List.take_left]
    rintro rfl
    cases ht
  cases lexeme with
  | symbol t notBefore =>
    simp only [measure] at h
    split at h
    next hp =>
      obtain rfl : t.length = k := by
        split at h
        · split at h
          · cases h
          · exact Option.some.inj h
        · exact Option.some.inj h
      exact hfront t hs hp
    next => cases h
  | word t =>
    simp only [measure] at h
    split at h
    next hp =>
      split at h
      · obtain rfl := Option.some.inj h
        exact hfront t hs hp
      · cases h
    next => cases h
  | identifier =>
    simp only [measure] at h
    split at h
    next => cases h
    next hk =>
      split at h
      · cases h
      · obtain rfl := Option.some.inj h
        intro hn
        rcases List.take_eq_nil_iff.1 hn with h0 | rfl
        · exact hk h0
        · exact hk rfl
  | _ => cases hs

namespace Rule

open Node

variable {N : Type} {grammar : N → Rule N} {known : N → Bool}

/-- Whether each match of the rule reads a character, if this is so of the known nonterminals. -/
def consumes (known : N → Bool) : Rule N → Bool
  | token _ lexeme | glued _ lexeme => lexeme.isSolid
  | seq a b => a.consumes known || b.consumes known
  | choice a b => a.consumes known && b.consumes known
  | nonterminal n => known n
  | branch _ a => a.consumes known
  | extend a _ => a.consumes known
  | empty | many _ | ahead _ | notAhead _ | lineBreak | finish => false

/-- What is read by a rule that consumes is not empty. -/
theorem Reads.ne_nil (hg : ∀ n, known n → (grammar n).consumes known) {rule : Rule N}
    {s rest : List Char} {xs : List Node} (h : Reads grammar rule s xs rest)
    (hc : rule.consumes known) : textOf xs ≠ [] := by
  induction h with
  | token fits => simp [Lexeme.take_ne_nil fits hc]
  | glued fits => simp [Lexeme.take_ne_nil fits hc]
  | seq _ _ iha ihb =>
    rw [consumes, Bool.or_eq_true] at hc
    rw [textOf_append]
    rcases hc with hc | hc
    · simp [iha hc]
    · simp [ihb hc]
  | choiceFirst _ ih =>
    rw [consumes, Bool.and_eq_true] at hc
    exact ih hc.1
  | choiceSecond _ ih =>
    rw [consumes, Bool.and_eq_true] at hc
    exact ih hc.2
  | nonterminal _ ih => exact ih (hg _ hc)
  | branch _ ih => simp [ih hc]
  | extendBase _ ih => exact ih hc
  | extendStep _ _ ih _ =>
    rw [absorb_text]
    simp [ih hc]
  | empty | manyEnd | manyMore | ahead | notAhead | lineBreak | finish => cases hc

end Rule

/-- The nonterminals that are needed to see that no member of an object literal is empty. -/
def knownToConsume (n : Nonterminal) : Bool := decide (n = .parameters)

theorem grammar_consumes (dialect : Dialect) (n : Nonterminal) (h : knownToConsume n) :
    (grammar dialect n).consumes knownToConsume := by
  rw [knownToConsume, decide_eq_true_eq] at h
  subst h
  cases dialect <;> decide +kernel

namespace Node

/-- A punctuation mark of one character. -/
def mark (c : Char) : Node := .leaf .mark [c]

/-- Nodes with one comma between two of them, and one after the last if `trailing` is set. -/
def separated (trailing : Bool) (ns : List Node) : List Node :=
  ns.intersperse (mark ',') ++ if trailing && !ns.isEmpty then [mark ','] else []

theorem separated_cons (trailing : Bool) (n : Node) (ns : List Node) :
    separated trailing (n :: ns) =
      n :: ns.flatMap (fun m => [mark ',', m]) ++ if trailing then [mark ','] else [] := by
  have hi (n : Node) (ns : List Node) : (n :: ns).intersperse (mark ',') =
      n :: ns.flatMap fun m => [mark ',', m] := by
    induction ns generalizing n with
    | nil => rfl
    | cons m ms ih => rw [List.intersperse_cons_cons, ih m]; rfl
  simp [separated, hi]

theorem separated_cons_of_ne (trailing : Bool) (n : Node) {ns : List Node} (h : ns ≠ []) :
    separated trailing (n :: ns) = n :: mark ',' :: separated trailing ns := by
  obtain ⟨m, ms, rfl⟩ := List.exists_cons_of_ne_nil h
  rw [separated_cons, separated_cons, List.flatMap_cons]
  rfl

/-- More nodes after the last one, each with a comma before it. -/
theorem separated_append (trailing : Bool) (ns ms : List Node) (n : Node) :
    separated trailing (ns ++ n :: ms) = ns.flatMap (fun m => [m, mark ',']) ++
      (n :: ms.flatMap (fun m => [mark ',', m]) ++ if trailing then [mark ','] else []) := by
  induction ns with
  | nil => exact separated_cons trailing n ms
  | cons k ks ih =>
    rw [List.cons_append, separated_cons_of_ne trailing k (by simp), ih]
    rfl

theorem mem_separated {trailing : Bool} {ns : List Node} {n : Node}
    (h : n ∈ separated trailing ns) : n ∈ ns ∨ n = mark ',' := by
  have hcomma : ∀ ms : List Node, n ∈ (ms.flatMap fun m => [mark ',', m]) →
      n ∈ ms ∨ n = mark ',' := by
    intro ms hm
    obtain ⟨m, hmem, hn⟩ := List.mem_flatMap.1 hm
    rcases List.mem_cons.1 hn with rfl | hn
    · exact .inr rfl
    · obtain rfl := List.mem_singleton.1 hn
      exact .inl hmem
  cases ns with
  | nil => cases trailing <;> cases h
  | cons m ms =>
    rw [separated_cons, List.cons_append, List.mem_cons, List.mem_append] at h
    rcases h with rfl | h | h
    · exact .inl List.mem_cons_self
    · exact (hcomma ms h).imp_left (List.mem_cons_of_mem m)
    · cases trailing with
      | false => cases h
      | true => exact .inr (List.mem_singleton.1 h)

/-- The kinds of the members of an object literal. -/
def memberKinds : List Kind := [.spread, .method, .pair, .shorthand]

/-- A node reads as an object literal with the given members. -/
structure ObjectLiteral (n : Node) (members : List Node) (trailing : Bool) : Prop where
  isObject : n.kind = .object
  closed : n.children.getLast? = some (mark '}')
  listed : significant n.children = mark '{' :: separated trailing members ++ [mark '}']
  spaced : Spaced n.children []
  forms : ∀ m ∈ members, m.kind ∈ memberKinds
  solid : ∀ m ∈ members, m.text ≠ []

end Node

namespace Rule

open Node

variable {N : Type} {grammar : N → Rule N}

/-- What the rule reads has its blanks and comments where a reader takes them for such, and
satisfies `Q` without them. -/
def Yields (grammar : N → Rule N) (rule : Rule N) (Q : List Node → Prop) : Prop :=
  ∀ s xs rest, Reads grammar rule s xs rest → Spaced xs rest ∧ Q (significant xs)

namespace Yields

theorem mono {rule : Rule N} {Q R : List Node → Prop} (h : Yields grammar rule Q)
    (hqr : ∀ ys, Q ys → R ys) : Yields grammar rule R :=
  fun s xs rest hreads => ⟨(h s xs rest hreads).1, hqr _ (h s xs rest hreads).2⟩

/-- What is skipped before a single node leaves that node. -/
theorem gap_single (fuel : Nat) {s rest : List Char} {n : Node} (hn : n.isGap = false)
    (ht : n.text ++ rest = (trivia fuel s).2) :
    Spaced ((trivia fuel s).1 ++ [n]) rest ∧ significant ((trivia fuel s).1 ++ [n]) = [n] := by
  have hg := trivia_spaced fuel s
  constructor
  · rw [spaced_append, textOf_cons, textOf_nil, List.append_nil, ht]
    exact ⟨hg.1, spaced_of_tokens (by simpa using hn) rest⟩
  · rw [significant_append, significant_of_gaps hg.2, significant_cons, hn]
    rfl

theorem empty : Yields grammar .empty (· = []) := by
  intro s xs rest h
  cases h
  exact ⟨trivial, rfl⟩

theorem token {k : Kind} {lexeme : Lexeme} (hk : (leaf k []).isGap = false) :
    Yields grammar (.token k lexeme)
      fun ys => ∃ body n, lexeme.measure body = some n ∧ ys = [.leaf k (body.take n)] := by
  intro s xs rest h
  cases h with
  | @token _ _ _ fuel n hn =>
    have hs := gap_single fuel (s := s) (n := .leaf k ((trivia fuel s).2.take n)) hk
      (by rw [text_leaf, List.take_append_drop])
    exact ⟨hs.1, _, n, hn, hs.2⟩

theorem symbol (c : Char) :
    Yields grammar (.token .mark (.symbol [c] [])) (· = [mark c]) := by
  refine (token rfl).mono ?_
  rintro _ ⟨body, n, hn, rfl⟩
  simp only [Lexeme.measure] at hn
  split at hn
  next hp =>
    obtain ⟨t, rfl⟩ := List.isPrefixOf_iff_prefix.1 hp
    have h1 : n = 1 := by
      split at hn
      · simpa using hn.symm
      · simpa using hn.symm
    rw [h1]
    rfl
  next => cases hn

/-- What is read in two parts, one after the other. -/
theorem append {t rest : List Char} {xs ys : List Node} {b : Rule N} (hx : Spaced xs t)
    (hb : Reads grammar b t ys rest) (hy : Spaced ys rest) : Spaced (xs ++ ys) rest := by
  rw [spaced_append, hb.text]
  exact ⟨hx, hy⟩

theorem seq {a b : Rule N} {Q R : List Node → Prop} (ha : Yields grammar a Q)
    (hb : Yields grammar b R) :
    Yields grammar (a ++ b) fun ys => ∃ us vs, Q us ∧ R vs ∧ ys = us ++ vs := by
  intro s xs rest h
  cases h with
  | seq first second =>
    have hua := ha _ _ _ first
    have hvb := hb _ _ _ second
    exact ⟨append hua.1 second hvb.1, _, _, hua.2, hvb.2, significant_append ..⟩

theorem choice {a b : Rule N} {Q : List Node → Prop} (ha : Yields grammar a Q)
    (hb : Yields grammar b Q) : Yields grammar (.choice a b) Q := by
  intro s xs rest h
  cases h with
  | choiceFirst first => exact ha _ _ _ first
  | choiceSecond second => exact hb _ _ _ second

theorem many {a : Rule N} {Q : List Node → Prop} (ha : Yields grammar a Q) :
    Yields grammar (.many a) fun ys => ∃ rows : List (List Node), (∀ r ∈ rows, Q r) ∧
      ys = rows.flatten := by
  intro s xs rest h
  generalize hr : Rule.many a = rule at h
  induction h with
  | manyEnd => exact ⟨trivial, [], by simp, rfl⟩
  | @manyMore _ _ _ _ us _ first others _ ih =>
    cases hr
    have hua := ha _ _ _ first
    obtain ⟨hsp, rows, hrows, hys⟩ := ih rfl
    refine ⟨append hua.1 others hsp, significant us :: rows, ?_, ?_⟩
    · rw [List.forall_mem_cons]
      exact ⟨hua.2, hrows⟩
    · rw [significant_append, hys, List.flatten_cons]
  | _ => cases hr

theorem branch {known : N → Bool} (hg : ∀ n, known n → (grammar n).consumes known) {k : Kind}
    {a : Rule N} (hk : (leaf k []).isGap = false) (ha : a.consumes known) :
    Yields grammar (.branch k a) fun ys => ∃ cs, textOf cs ≠ [] ∧ ys = [.branch k cs] := by
  intro s xs rest h
  cases h with
  | @branch _ _ _ _ us fuel inner =>
    have hs := gap_single fuel (s := s) (n := .branch k us) hk
      (by rw [text_branch]; exact inner.text)
    exact ⟨hs.1, us, inner.ne_nil hg ha, hs.2⟩

theorem nonterminal {n : N} {Q : List Node → Prop} (h : Yields grammar (grammar n) Q) :
    Yields grammar (.nonterminal n) Q := by
  intro s xs rest hreads
  cases hreads with
  | nonterminal byRule => exact h _ _ _ byRule

theorem ahead {a : Rule N} : Yields grammar (.ahead a) (· = []) := by
  intro s xs rest h
  cases h
  exact ⟨trivial, rfl⟩

theorem opt {a : Rule N} {Q : List Node → Prop} (ha : Yields grammar a Q) :
    Yields grammar a.opt fun ys => ys = [] ∨ Q ys :=
  (ha.mono fun _ => .inr).choice (empty.mono fun _ => .inl)

/-- A list of single items reads as these items with commas between them. -/
theorem commaList {a : Rule N} {P : Node → Prop}
    (ha : Yields grammar a fun ys => ∃ m, P m ∧ ys = [m]) :
    Yields grammar a.commaList
      fun ys => ∃ ms trailing, (∀ m ∈ ms, P m) ∧ ys = separated trailing ms := by
  have hcomma : Yields grammar (Rule.symbol ",") (· = [mark ',']) := symbol ','
  have hrow := (ha.seq (hcomma.seq ha).many).seq hcomma.opt
  refine hrow.opt.mono ?_
  rintro _ (rfl | ⟨_, last, ⟨_, _, ⟨m, hm, rfl⟩, ⟨rows, hrows, rfl⟩, rfl⟩, hlast, rfl⟩)
  · exact ⟨[], false, by simp, rfl⟩
  · have hitems : ∃ ms : List Node, (∀ m ∈ ms, P m) ∧ rows.flatten = ms.flatMap fun m => [mark ',', m] := by
      induction rows with
      | nil => exact ⟨[], by simp, rfl⟩
      | cons r rs ih =>
        obtain ⟨ms, hms, hflat⟩ := ih fun q hq => hrows q (List.mem_cons_of_mem r hq)
        obtain ⟨_, _, rfl, ⟨n, hn, rfl⟩, rfl⟩ := hrows r List.mem_cons_self
        refine ⟨n :: ms, ?_, by rw [List.flatten_cons, hflat]; rfl⟩
        intro q hq
        rcases List.mem_cons.1 hq with rfl | hq
        · exact hn
        · exact hms q hq
    obtain ⟨ms, hms, hflat⟩ := hitems
    have hall : ∀ q ∈ m :: ms, P q := by
      intro q hq
      rcases List.mem_cons.1 hq with rfl | hq
      · exact hm
      · exact hms q hq
    rcases hlast with rfl | rfl
    · exact ⟨m :: ms, false, hall, by rw [separated_cons, hflat]; simp⟩
    · exact ⟨m :: ms, true, hall, by rw [separated_cons, hflat]; simp⟩

end Yields

/-- What ends with a token ends with its node. -/
theorem getLast_of_seq_token {a : Rule N} {k : Kind} {lexeme : Lexeme} {s rest : List Char}
    {xs : List Node} (h : Reads grammar (a ++ .token k lexeme) s xs rest) :
    ∃ t, xs.getLast? = some (.leaf k t) := by
  cases h with
  | seq _ second =>
    cases second with
    | token _ => exact ⟨_, by rw [← List.append_assoc, List.getLast?_concat]⟩

end Rule

open Node Rule

theorem Grammar.makesOnly_object (dialect : Dialect) (n : Nonterminal) :
    makesOnly .object objectBody (grammar dialect n) := by
  cases dialect <;> cases n <;> decide +kernel

/-- A member of an object literal is one node. -/
theorem Grammar.objectMember_yields (dialect : Dialect) :
    Yields (grammar dialect) (the .objectMember)
      fun ys => ∃ m, (m.kind ∈ memberKinds ∧ m.text ≠ []) ∧ ys = [m] := by
  have hbranch (k : Kind) (r : Rule Nonterminal) (hg : (leaf k []).isGap = false)
      (hk : k ∈ memberKinds) (hr : r.consumes knownToConsume) :
      Yields (grammar dialect) (.branch k r)
        fun ys => ∃ m, (m.kind ∈ memberKinds ∧ m.text ≠ []) ∧ ys = [m] :=
    (Yields.branch (grammar_consumes dialect) hg hr).mono fun _ ⟨cs, hcs, hys⟩ =>
      ⟨.branch k cs, ⟨hk, by rwa [text_branch]⟩, hys⟩
  have hshort (r : Rule Nonterminal) :
      Yields (grammar dialect) (Rule.token .shorthand .identifier ++ .ahead r)
        fun ys => ∃ m, (m.kind ∈ memberKinds ∧ m.text ≠ []) ∧ ys = [m] := by
    refine ((Yields.token rfl).seq .ahead).mono ?_
    rintro _ ⟨_, _, ⟨body, n, hn, rfl⟩, rfl, rfl⟩
    refine ⟨.leaf .shorthand (body.take n), ⟨by simp [kind, memberKinds], ?_⟩, rfl⟩
    rw [text_leaf]
    exact Lexeme.take_ne_nil hn rfl
  refine .nonterminal ?_
  exact (hbranch .spread _ rfl (by decide) (by decide +kernel)).choice
    ((hbranch .method _ rfl (by decide) (by decide +kernel)).choice
      ((hbranch .pair _ rfl (by decide) (by decide +kernel)).choice (hshort _)))

theorem Grammar.objectBody_yields (dialect : Dialect) :
    Yields (grammar dialect) objectBody fun ys => ∃ ms trailing,
      (∀ m ∈ ms, m.kind ∈ memberKinds ∧ m.text ≠ []) ∧
        ys = mark '{' :: separated trailing ms ++ [mark '}'] := by
  have hopen : Yields (grammar dialect) leftBrace (· = [mark '{']) := .symbol '{'
  have hclose : Yields (grammar dialect) rightBrace (· = [mark '}']) := .symbol '}'
  refine ((hopen.seq (objectMember_yields dialect).commaList).seq hclose).mono ?_
  rintro _ ⟨_, _, ⟨_, _, rfl, ⟨ms, trailing, hms, rfl⟩, rfl⟩, rfl, rfl⟩
  exact ⟨ms, trailing, hms, rfl⟩

/-- What an object literal holds reads as one. -/
theorem objectLiteral_of_reads {dialect : Dialect} {n : Node} (hn : n.kind = .object)
    {s rest : List Char} (h : Reads (grammar dialect) Grammar.objectBody s n.children rest) :
    ∃ members trailing, n.ObjectLiteral members trailing := by
  obtain ⟨hspaced, ms, trailing, hms, hlisted⟩ := Grammar.objectBody_yields dialect _ _ _ h
  obtain ⟨t, hlast⟩ := getLast_of_seq_token h
  obtain ⟨init, hinit⟩ := List.getLast?_eq_some_iff.1 hlast
  have hbrace : Node.leaf .mark t = mark '}' := by
    have hc := congrArg List.getLast? hlisted
    rw [hinit, significant_append, List.getLast?_concat] at hc
    simpa [significant_cons, isGap, kind] using hc
  rw [hbrace] at hlast hinit
  refine ⟨ms, trailing, hn, hlast, hlisted, ?_, fun m hm => (hms m hm).1, fun m hm => (hms m hm).2⟩
  rw [hinit, spaced_append] at hspaced ⊢
  exact ⟨hspaced.1.congr rfl, spaced_of_tokens (by simp [mark, isGap, kind]) []⟩

/-- Each object literal in the tree of a file reads as one. -/
theorem objectLiteral_of_parse? {dialect : Dialect} {source : List Char} {tree : Node}
    (h : parse? dialect source = some tree) :
    tree.Everywhere fun n => n.kind = .object →
      ∃ members trailing, n.ObjectLiteral members trailing := by
  obtain ⟨nodes, rfl, hreads⟩ := reads_of_parse? h
  have hmade := hreads.madeOnly (by decide) (by decide) (Grammar.makesOnly_object dialect)
    (by decide +kernel)
  refine .branch nofun fun c hc => (hmade c hc).mono fun n hn hk => ?_
  obtain ⟨_, _, hobject⟩ := hn hk
  exact objectLiteral_of_reads hk hobject

end CustomElements.TypeScript
