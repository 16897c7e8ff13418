import Mathlib.Data.List.TakeWhile
import CustomElements.Proofs.Json.Quoting

/-!
# Reading a module line by line

A line of a module is code with string literals in between. The reader below knows nothing of how
the line was made: a quote opens a literal, the literal is read as JSON, and what it holds is told
in 16 bit units. From the code it takes the words, and from these the names that the line declares.
-/

namespace CustomElements

/-- A piece of a line: code, or the units that a string literal holds. -/
inductive Segment where
  | code (t : Text)
  | literal (units : List Nat)
deriving DecidableEq

namespace Segment

def isQuote (p : CodePoint) : Bool := decide (p = .scalar '"')

/-- The segments of a line with less than `fuel` literals. A literal that is not closed, or that is
no JSON, makes the line unreadable. -/
def readFrom : Nat → Text → Option (List Segment)
  | 0, _ => none
  | fuel + 1, line =>
    let front := line.takeWhile fun p => !isQuote p
    match line.dropWhile fun p => !isQuote p with
    | [] => some [.code front]
    | _ :: body => do
      let (value, rest) ← Json.stringRest (body.length + 1) body
      let others ← readFrom fuel rest
      return .code front :: .literal value.units :: others

def read (line : Text) : Option (List Segment) := readFrom (line.length + 1) line

def isNamePoint (p : CodePoint) : Bool :=
  p.satisfies fun c => c.isAlphanum || c == '_' || c == '$'

/-- The words of a code, the first of which may have begun before. -/
def wordsFrom (begun : Text) : Text → List Text
  | [] => if begun.isEmpty then [] else [begun]
  | p :: r =>
    if isNamePoint p then wordsFrom (begun ++ [p]) r
    else if begun.isEmpty then wordsFrom [] r
    else begun :: wordsFrom [] r

def words : Segment → List Text
  | code t => wordsFrom [] t
  | literal _ => []

/-- The words right before the name of a declaration. -/
def declaringWords : List Text := ["const", "let", "var", "function", "class"]

/-- The names that a row of words declares: what an import binds, or what stands after a word that
declares. -/
def declared (ws : List Text) : List Text :=
  if ws.head? = some ("import" : Text) then
    (ws.tail.takeWhile fun w => decide (w ≠ ("from" : Text))).filter
      fun w => decide (w ≠ ("as" : Text))
  else (ws.zip ws.tail).filterMap fun w => if declaringWords.contains w.1 then some w.2 else none

/-- The names that a line declares. -/
def declaredIn (line : Text) : List Text :=
  declared (((read line).getD []).flatMap words)

/-- A line made of code with quoted texts in between. -/
def lineOf (front : Text) (parts : List (Text × Text)) : Text :=
  front ++ parts.flatMap fun p => Json.quote p.1 ++ p.2

/-- What a reader should find in such a line. -/
def segmentsOf (front : Text) (parts : List (Text × Text)) : List Segment :=
  .code front :: parts.flatMap fun p => [.literal p.1.units, .code p.2]

theorem lineOf_cons (front : Text) (p : Text × Text) (parts : List (Text × Text)) :
    lineOf front (p :: parts) = front ++ (Json.quote p.1 ++ lineOf p.2 parts) := by
  rw [lineOf, lineOf, List.flatMap_cons, List.append_assoc]

/-- A text that neither opens a literal nor ends a line. -/
def IsCode (t : Text) : Prop := ∀ p ∈ t, p ≠ .scalar '"' ∧ p ≠ .scalar '\n'

instance (t : Text) : Decidable (IsCode t) := inferInstanceAs (Decidable (∀ p ∈ t, _))

theorem IsCode.append {s t : Text} (hs : IsCode s) (ht : IsCode t) : IsCode (s ++ t) :=
  List.forall_mem_append.2 ⟨hs, ht⟩

theorem isCode_of_isWord {t : Text} (h : ∀ p ∈ t, isNamePoint p) : IsCode t := by
  intro p hp
  refine ⟨?_, ?_⟩
  all_goals
    rintro rfl
    cases h _ hp

theorem IsCode.not_isQuote {t : Text} (h : IsCode t) : ∀ p ∈ t, (!isQuote p) = true := by
  intro p hp
  simp [isQuote, (h p hp).1]

/-- A quoted text is one literal, whatever it is made of. -/
theorem readFrom_quote {front : Text} (hfront : IsCode front) (t rest : Text) (fuel : Nat) :
    readFrom (fuel + 1) (front ++ (Json.quote t ++ rest)) = (readFrom fuel rest).map
      fun others => .code front :: .literal t.units :: others := by
  obtain ⟨ps, hquote, hunits⟩ := Json.exists_pieces_quote t
  have hplain := hfront.not_isQuote
  have hline : front ++ (Json.quote t ++ rest) =
      front ++ .scalar '"' :: (Json.piecesText ps ++ .scalar '"' :: rest) := by
    rw [hquote, List.cons_append, List.append_assoc, List.singleton_append]
  have hlength : ps.length < (Json.piecesText ps ++ .scalar '"' :: rest).length + 1 := by
    have hle := Json.length_le_piecesText ps
    rw [List.length_append]
    omega
  have htake : (front ++ .scalar '"' :: (Json.piecesText ps ++ .scalar '"' :: rest)).takeWhile
      (fun p => !isQuote p) = front := by
    rw [List.takeWhile_append_of_pos hplain]
    simp [isQuote]
  have hdrop : (front ++ .scalar '"' :: (Json.piecesText ps ++ .scalar '"' :: rest)).dropWhile
      (fun p => !isQuote p) = .scalar '"' :: (Json.piecesText ps ++ .scalar '"' :: rest) := by
    rw [List.dropWhile_append_of_pos hplain]
    simp [isQuote]
  rw [hline, readFrom]
  simp only [htake, hdrop, Json.stringRest_pieces ps hlength, hunits, Option.bind_eq_bind,
    Option.bind_some]
  cases readFrom fuel rest <;> rfl

theorem readFrom_code {front : Text} (hfront : IsCode front) (fuel : Nat) :
    readFrom (fuel + 1) front = some [.code front] := by
  have hplain := hfront.not_isQuote
  have htake : front.takeWhile (fun p => !isQuote p) = front :=
    List.takeWhile_eq_self_iff.2 hplain
  have hdrop : front.dropWhile (fun p => !isQuote p) = [] := List.dropWhile_eq_nil_iff.2 hplain
  rw [readFrom, hdrop, htake]

theorem length_le_lineOf (front : Text) (parts : List (Text × Text)) :
    parts.length ≤ (lineOf front parts).length := by
  induction parts generalizing front with
  | nil => exact Nat.zero_le _
  | cons p parts ih =>
    have hrest := ih p.2
    have hquote : 0 < (Json.quote p.1).length := by
      obtain ⟨ps, hps, _⟩ := Json.exists_pieces_quote p.1
      rw [hps]
      exact Nat.succ_pos _
    rw [lineOf_cons, List.length_append, List.length_append, List.length_cons]
    omega

/-- A line made of code and quoted texts is read as what it was made of. -/
theorem read_lineOf {front : Text} {parts : List (Text × Text)} (hfront : IsCode front)
    (hparts : ∀ p ∈ parts, IsCode p.2) :
    read (lineOf front parts) = some (segmentsOf front parts) := by
  have hlength : parts.length < (lineOf front parts).length + 1 :=
    Nat.lt_succ_of_le (length_le_lineOf front parts)
  unfold read
  generalize (lineOf front parts).length + 1 = fuel at hlength
  induction parts generalizing front fuel with
  | nil =>
    obtain ⟨fuel, rfl⟩ := Nat.exists_eq_add_one.2 hlength
    rw [lineOf, List.flatMap_nil, List.append_nil]
    exact readFrom_code hfront fuel
  | cons p parts ih =>
    obtain ⟨fuel, rfl⟩ := Nat.exists_eq_add_one.2 (Nat.zero_lt_of_lt hlength)
    rw [List.forall_mem_cons] at hparts
    have hrest := ih hparts.1 hparts.2 fuel (Nat.lt_of_succ_lt_succ hlength)
    rw [lineOf_cons, readFrom_quote hfront, hrest]
    rfl

/-- Such a line is one line. -/
theorem not_mem_lineOf {front : Text} {parts : List (Text × Text)} (hfront : IsCode front)
    (hparts : ∀ p ∈ parts, IsCode p.2) : .scalar '\n' ∉ lineOf front parts := by
  intro hm
  rcases List.mem_append.1 hm with hm | hm
  · exact (hfront _ hm).2 rfl
  · obtain ⟨p, hp, hm⟩ := List.mem_flatMap.1 hm
    rcases List.mem_append.1 hm with hm | hm
    · have hprintable := Json.quote_printable p.1 _ hm
      revert hprintable
      decide
    · exact (hparts p hp _ hm).2 rfl

theorem mem_of_readFrom {fuel : Nat} {line : Text} {segments : List Segment}
    (h : readFrom fuel line = some segments) {t : Text} (ht : .code t ∈ segments) : t ⊆ line := by
  induction fuel generalizing line segments with
  | zero => cases h
  | succ fuel ih =>
    rw [readFrom] at h
    have hfront : (line.takeWhile fun p => !isQuote p) ⊆ line := List.takeWhile_subset _
    split at h
    · cases h
      obtain rfl := Segment.code.inj (List.mem_singleton.1 ht)
      exact hfront
    · next q body hbody =>
      simp only [Option.bind_eq_bind, Option.bind_eq_some_iff] at h
      obtain ⟨⟨value, rest⟩, hv, others, ho, h⟩ := h
      cases h
      have hrest : rest ⊆ line := by
        have hsuffix : q :: body <:+ line := hbody ▸ List.dropWhile_suffix _
        exact ((Json.stringRest_suffix hv).trans ((List.suffix_cons _ _).trans hsuffix)).subset
      rcases List.mem_cons.1 ht with ht | ht
      · obtain rfl := Segment.code.inj ht
        exact hfront
      · rcases List.mem_cons.1 ht with ht | ht
        · cases ht
        · exact List.Subset.trans (ih ho ht) hrest

theorem mem_of_mem_wordsFrom {begun t w : Text} (h : w ∈ wordsFrom begun t) : w ⊆ begun ++ t := by
  induction t generalizing begun with
  | nil =>
    rw [wordsFrom] at h
    split at h
    · cases h
    · rw [List.mem_singleton.1 h, List.append_nil]
      exact List.Subset.refl _
  | cons p t ih =>
    have hdrop {u : Text} (hu : u ⊆ [] ++ t) : u ⊆ begun ++ p :: t :=
      fun x hx => List.mem_append_right _ (List.mem_cons_of_mem _ (hu hx))
    rw [wordsFrom] at h
    split at h
    · have hsub := ih h
      rwa [List.append_assoc] at hsub
    · split at h
      · exact hdrop (ih h)
      · rcases List.mem_cons.1 h with rfl | h
        · exact List.subset_append_left _ _
        · exact hdrop (ih h)

theorem mem_of_mem_declared {ws : List Text} {w : Text} (h : w ∈ declared ws) : w ∈ ws := by
  unfold declared at h
  split at h
  · have htail := (List.takeWhile_subset _) (List.mem_filter.1 h).1
    exact List.mem_of_mem_tail htail
  · obtain ⟨⟨v, x⟩, hpair, hx⟩ := List.mem_filterMap.1 h
    split at hx
    · cases hx
      exact List.mem_of_mem_tail (List.of_mem_zip hpair).2
    · cases hx

/-- A name that a line declares is made of characters of the line. -/
theorem subset_of_mem_declaredIn {line w : Text} (h : w ∈ declaredIn line) : w ⊆ line := by
  obtain ⟨s, hs, hw⟩ := List.mem_flatMap.1 (mem_of_mem_declared h)
  cases hr : read line with
  | none =>
    rw [hr] at hs
    cases hs
  | some segments =>
    rw [hr] at hs
    cases s with
    | literal us => cases hw
    | code t =>
      have hword : w ⊆ t := mem_of_mem_wordsFrom hw
      exact List.Subset.trans hword (mem_of_readFrom hr hs)

end Segment

end CustomElements
