import Mathlib.Data.List.Induction
import Mathlib.Data.List.TakeWhile
import CustomElements.Output.Specifier
import CustomElements.Proofs.Files.NormalPath
import CustomElements.Proofs.Text.Splitting

/-!
# The parts of a module specifier

The way from a directory to a path leads up from what only the directory has, and then down to what
only the path has; whoever follows it arrives at the path. The last name loses its ending, which is
the last dot with what is behind it. No other name does, whatever dots it has.
-/

namespace CustomElements

section Way

variable {directory target init : List Text} {name : Text}

theorem relativeParts_nil (target : List Text) : relativeParts [] target = target := by
  simp [relativeParts, sharedLength]

theorem relativeParts_cons_self (n : Text) (directory target : List Text) :
    relativeParts (n :: directory) (n :: target) = relativeParts directory target := by
  simp [relativeParts, sharedLength]

/-- Without a first name in common the way leads up to the root. -/
theorem relativeParts_cons_of_head?_ne {n : Text} (h : target.head? ≠ some n) :
    relativeParts (n :: directory) target =
      List.replicate (directory.length + 1) (".." : Text) ++ target := by
  have hshared : sharedLength (n :: directory) target = 0 := by
    cases target with
    | nil => rfl
    | cons m target =>
      have hne : n ≠ m := fun heq => h (congrArg some heq.symm)
      rw [sharedLength, if_neg hne]
  rw [relativeParts, hshared]
  rfl

theorem foldl_pushPart_up (shared up : List Text) :
    (List.replicate up.length (".." : Text)).foldl Path.pushPart (shared ++ up) = shared := by
  induction up using List.reverseRecOn with
  | nil => exact List.append_nil shared
  | append_singleton up n ih =>
    have hpush : Path.pushPart (shared ++ (up ++ [n])) (".." : Text) = shared ++ up := by
      rw [Path.pushPart, if_pos rfl, ← List.append_assoc, List.dropLast_concat]
    rw [List.length_append, List.length_singleton, List.replicate_succ, List.foldl_cons, hpush, ih]

/-- The names that only the directory has are left by two dots each, and those that only the target
has are entered. -/
theorem exists_relativeParts (directory target : List Text) : ∃ shared up down,
    directory = shared ++ up ∧ target = shared ++ down ∧
      relativeParts directory target = List.replicate up.length (".." : Text) ++ down := by
  induction directory generalizing target with
  | nil => exact ⟨[], [], target, rfl, rfl, relativeParts_nil target⟩
  | cons n directory ih =>
    by_cases h : target.head? = some n
    · obtain ⟨target, rfl⟩ := List.head?_eq_some_iff.1 h
      obtain ⟨shared, up, down, hd, ht, hway⟩ := ih target
      refine ⟨n :: shared, up, down, congrArg (n :: ·) hd, congrArg (n :: ·) ht, ?_⟩
      rw [relativeParts_cons_self, hway]
    · exact ⟨[], n :: directory, target, rfl, rfl, relativeParts_cons_of_head?_ne h⟩

/-- Following the way leads to the target. -/
theorem foldl_relativeParts (directory : List Text) (h : (".." : Text) ∉ target) :
    (relativeParts directory target).foldl Path.pushPart directory = target := by
  obtain ⟨shared, up, down, hdirectory, rfl, hway⟩ := exists_relativeParts directory target
  have hdown : (".." : Text) ∉ down := fun hm => h (List.mem_append_right _ hm)
  rw [hway, hdirectory, List.foldl_append, foldl_pushPart_up, Path.foldl_pushPart hdown]

/-- Different targets are reached on different ways. -/
theorem relativeParts_injective {other : List Text} (h : (".." : Text) ∉ target)
    (h' : (".." : Text) ∉ other)
    (hway : relativeParts directory target = relativeParts directory other) : target = other := by
  rw [← foldl_relativeParts directory h, hway, foldl_relativeParts directory h']

theorem mem_relativeParts {n : Text} (h : n ∈ relativeParts directory target) :
    n = (".." : Text) ∨ n ∈ target := by
  obtain ⟨shared, up, down, -, rfl, hway⟩ := exists_relativeParts directory target
  rw [hway] at h
  rcases List.mem_append.1 h with h | h
  · exact .inl (List.eq_of_mem_replicate h)
  · exact .inr (List.mem_append_right _ h)

/-- The way to a file that no directory is in is the way to where the file is, and its name. -/
theorem relativeParts_concat (h : ¬init ++ [name] <+: directory) :
    relativeParts directory (init ++ [name]) = relativeParts directory init ++ [name] := by
  induction directory generalizing init with
  | nil => rw [relativeParts_nil, relativeParts_nil]
  | cons n directory ih =>
    cases init with
    | nil =>
      have hname : ([name] : List Text).head? ≠ some n := by
        intro heq
        obtain rfl := Option.some.inj heq
        exact h ⟨directory, rfl⟩
      rw [List.nil_append, relativeParts_cons_of_head?_ne hname,
        relativeParts_cons_of_head?_ne (by simp), List.append_nil]
    | cons m init =>
      by_cases hm : m = n
      · subst hm
        have hrest : ¬init ++ [name] <+: directory :=
          fun hp => h (List.cons_prefix_cons.2 ⟨rfl, hp⟩)
        rw [List.cons_append, relativeParts_cons_self, relativeParts_cons_self, ih hrest]
      · have hne (t : List Text) : (m :: t).head? ≠ some n := fun heq => hm (Option.some.inj heq)
        rw [List.cons_append, relativeParts_cons_of_head?_ne (hne _),
          relativeParts_cons_of_head?_ne (hne _), ← List.cons_append, List.append_assoc]

/-- Down from a directory the way needs no dots. -/
theorem relativeParts_append (directory below : List Text) :
    relativeParts directory (directory ++ below) = below := by
  induction directory with
  | nil => exact relativeParts_nil below
  | cons n directory ih => rw [List.cons_append, relativeParts_cons_self, ih]

/-- Any other way starts with two dots. -/
theorem head?_relativeParts (h : ¬directory <+: target) :
    (relativeParts directory target).head? = some ("..": Text) := by
  obtain ⟨shared, up, down, hdirectory, htarget, hway⟩ := exists_relativeParts directory target
  cases up with
  | nil =>
    refine absurd ⟨down, ?_⟩ h
    rw [hdirectory, htarget, List.append_nil]
  | cons n up =>
    rw [hway]
    rfl

end Way

section Ending

variable {t stem e name : Text}

/-- A dot and something behind it that has neither a dot nor a slash. -/
def IsEnding (e : Text) : Prop := ∃ r, e = .scalar '.' :: r ∧ r ≠ [] ∧
  ∀ p ∈ r, p ≠ .scalar '.' ∧ p ≠ .scalar '/'

/-- What a text is without its ending: what stands before it, or the text if there is none. -/
def HasStem (t stem : Text) : Prop :=
  (∃ e, IsEnding e ∧ t = stem ++ e) ∨ (t = stem ∧ ∀ s e, IsEnding e → t ≠ s ++ e)

theorem takeWhile_ending {r : Text} (hr : ∀ p ∈ r, p ≠ .scalar '.' ∧ p ≠ .scalar '/')
    (stem : Text) :
    (stem ++ .scalar '.' :: r).reverse.takeWhile
      (fun p => decide (p ≠ .scalar '.' ∧ p ≠ .scalar '/')) = r.reverse := by
  have hsplit : (stem ++ .scalar '.' :: r).reverse = r.reverse ++ .scalar '.' :: stem.reverse := by
    simp
  have hkept : ∀ p ∈ r.reverse, decide (p ≠ .scalar '.' ∧ p ≠ .scalar '/') = true :=
    fun p hp => decide_eq_true (hr p (List.mem_reverse.1 hp))
  rw [hsplit, List.takeWhile_append_of_pos hkept, List.takeWhile_cons_of_neg (by decide),
    List.append_nil]

theorem dropEnding_append (h : IsEnding e) : dropEnding (stem ++ e) = stem := by
  obtain ⟨r, rfl, hne, hr⟩ := h
  have hbefore : (stem ++ .scalar '.' :: r).length - r.length = stem.length + 1 := by
    rw [List.length_append, List.length_cons]
    omega
  have htake : (stem ++ .scalar '.' :: r).take (stem.length + 1) = stem ++ [.scalar '.'] := by
    rw [List.take_length_add_append]
    rfl
  have hpos : (r.length == 0) = false := by simpa using hne
  simp only [dropEnding, takeWhile_ending hr, List.length_reverse, hbefore, htake,
    List.getLast?_concat, hpos]
  exact List.take_left

theorem dropEnding_of_none (h : ∀ s e, IsEnding e → t ≠ s ++ e) : dropEnding t = t := by
  unfold dropEnding
  generalize hr : (t.reverse.takeWhile fun p => decide (p ≠ .scalar '.' ∧ p ≠ .scalar '/')) = r
  dsimp only
  split
  · next hdot =>
    split
    · rfl
    · next hpos =>
      -- what is taken off would be an ending
      obtain ⟨s, hs⟩ := List.getLast?_eq_some_iff.1 hdot
      have hprefix : r <+: t.reverse := hr ▸ List.takeWhile_prefix _
      obtain ⟨u, hu⟩ := hprefix
      have ht : t = u.reverse ++ r.reverse := by
        rw [← List.reverse_append, hu, List.reverse_reverse]
      have hlength : t.length - r.length = u.reverse.length := by
        rw [ht, List.length_append, List.length_reverse, List.length_reverse, Nat.add_sub_cancel]
      have htake : t.take (t.length - r.length) = u.reverse := by
        rw [hlength, ht, List.take_left]
      have hending : IsEnding (.scalar '.' :: r.reverse) := by
        refine ⟨_, rfl, by simpa using hpos, fun p hp => ?_⟩
        have hmem : p ∈ t.reverse.takeWhile
            fun p => decide (p ≠ .scalar '.' ∧ p ≠ .scalar '/') := hr ▸ List.mem_reverse.1 hp
        have hkept := List.mem_takeWhile_imp hmem
        exact of_decide_eq_true hkept
      refine absurd ?_ (h s _ hending)
      rw [ht, ← htake, hs, List.append_assoc, List.singleton_append]
  · rfl

theorem HasStem.eq (h : HasStem t stem) : dropEnding t = stem := by
  rcases h with ⟨e, he, rfl⟩ | ⟨rfl, hnone⟩
  · exact dropEnding_append he
  · exact dropEnding_of_none hnone

/-- Every text has a stem, and only one. -/
theorem hasStem_iff : HasStem t stem ↔ dropEnding t = stem := by
  refine ⟨HasStem.eq, ?_⟩
  rintro rfl
  by_cases h : ∃ s e, IsEnding e ∧ t = s ++ e
  · obtain ⟨s, e, he, rfl⟩ := h
    rw [dropEnding_append he]
    exact .inl ⟨e, he, rfl⟩
  · have hnone : ∀ s e, IsEnding e → t ≠ s ++ e := fun s e he heq => h ⟨s, e, he, heq⟩
    rw [dropEnding_of_none hnone]
    exact .inr ⟨rfl, hnone⟩

theorem hasStem_dropEnding (t : Text) : HasStem t (dropEnding t) := hasStem_iff.2 rfl

/-- An ending is that of the last name. -/
theorem dropEnding_slash (front name : Text) :
    dropEnding (front ++ .scalar '/' :: name) = front ++ .scalar '/' :: dropEnding name := by
  refine HasStem.eq ?_
  rcases hasStem_dropEnding name with ⟨e, he, hname⟩ | ⟨hname, hnone⟩
  · refine .inl ⟨e, he, ?_⟩
    rw [List.append_assoc, List.cons_append, ← hname]
  · refine .inr ⟨by rw [← hname], fun s e he heq => ?_⟩
    rcases List.append_eq_append_iff.1 heq with ⟨u, rfl, hu⟩ | ⟨u, -, hu⟩
    · cases u with
      | nil =>
        obtain ⟨r, rfl, -⟩ := he
        cases hu
      | cons p u => exact hnone u e he (List.cons.inj hu).2
    · -- the ending would reach over the slash
      obtain ⟨r, rfl, -, hr⟩ := he
      cases u with
      | nil => cases hu
      | cons p u =>
        have hslash : CodePoint.scalar '/' ∈ r := by
          rw [(List.cons.inj hu).2]
          exact List.mem_append_right _ List.mem_cons_self
        exact (hr _ hslash).2 rfl

/-- Names in a row, each with a slash behind it. -/
def folders (names : List Text) : Text := names.flatMap fun n => n ++ ("/" : Text)

theorem folders_cons (n : Text) (names : List Text) (t : Text) :
    folders (n :: names) ++ t = n ++ .scalar '/' :: (folders names ++ t) := by
  simp [folders, Text.ofString, Text.ofChars]

theorem join_concat (names : List Text) (name : Text) :
    Text.join "/" (names ++ [name]) = folders names ++ name := by
  induction names with
  | nil => rfl
  | cons n names ih =>
    rw [List.cons_append, Text.join_cons_of_ne_nil (by simp), ih, folders, folders,
      List.flatMap_cons, List.append_assoc (n ++ _)]

theorem dropEnding_folders (names : List Text) (name : Text) :
    dropEnding (folders names ++ name) = folders names ++ dropEnding name := by
  induction names with
  | nil => rfl
  | cons n names ih =>
    rw [folders_cons, dropEnding_slash, ih, folders_cons]

/-- Taking off an ending brings no slash into a name. -/
theorem noSlash_dropEnding (h : .scalar '/' ∉ name) : .scalar '/' ∉ dropEnding name := by
  rcases hasStem_dropEnding name with ⟨e, -, hname⟩ | ⟨hname, -⟩
  · exact fun hm => h (hname ▸ List.mem_append_left _ hm)
  · rwa [← hname]

/-- Folders and a last name are told apart again. -/
theorem splitOn_folders {names : List Text} (h : ∀ n ∈ names, .scalar '/' ∉ n)
    (hname : .scalar '/' ∉ name) :
    Text.splitOn '/' (folders names ++ name) = names ++ [name] := by
  rw [← join_concat]
  refine Text.splitOn_join (by simp) fun n hn => ?_
  rcases List.mem_append.1 hn with hn | hn
  · exact h n hn
  · exact List.mem_singleton.1 hn ▸ hname

end Ending

end CustomElements
