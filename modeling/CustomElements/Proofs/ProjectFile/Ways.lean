import CustomElements.Proofs.ProjectFile.Chain

/-!
# Ways through project files

A project file may extend several others, and each of these others again. A way from a file is told
by the position of the base that it goes to at each file. A file may be reached on two ways: because
a way comes back to it, or because two ways part before they come to it.
-/

namespace CustomElements

/-- The relative texts that an `extends` value names, in the order in which they are read. What is
neither a text nor a list names none. -/
inductive Value.NamesBases : Value → List Text → Prop
  | other {v : Value} (hl : v.items? = none) (ht : ∀ t, v ≠ .text t) : NamesBases v []
  | relative {t : Text} (h : Text.startsWith t "." = true) : NamesBases (.text t) [t]
  | none : NamesBases (.list []) []
  | cons {v : Value} {vs : List Value} {ts us : List Text} (first : NamesBases v ts)
      (rest : NamesBases (.list vs) us) : NamesBases (.list (v :: vs)) (ts ++ us)

theorem Value.NamesBases.unique {v : Value} {ts us : List Text} (h : v.NamesBases ts)
    (h' : v.NamesBases us) : ts = us := by
  induction h generalizing us with
  | other hl ht =>
    cases h' with
    | other _ _ => rfl
    | relative _ => exact absurd rfl (ht _)
    | none => cases hl
    | cons _ _ => cases hl
  | relative _ =>
    cases h' with
    | other _ ht => exact absurd rfl (ht _)
    | relative _ => rfl
  | none =>
    cases h' with
    | other hl _ => cases hl
    | none => rfl
  | cons _ _ ihfirst ihrest =>
    cases h' with
    | other hl _ => cases hl
    | cons first' rest' => rw [ihfirst first', ihrest rest']

namespace WrittenFile

variable {w : Workspace} {f g h : WrittenFile} {gs hs : List WrittenFile} {is js : List Nat}

/-- The other file is there, and the text names it. -/
def Names (w : Workspace) (f g : WrittenFile) (t : Text) : Prop :=
  baseFile w f.directory t = .ok g.path ∧ g.Holds w

/-- The file is there, it extends these files and no others, and they are all there. -/
structure Bases (w : Workspace) (f : WrittenFile) (gs : List WrittenFile) : Prop where
  here : f.Holds w
  named : ∃ ts, (f.data.get "extends").NamesBases ts ∧ List.Forall₂ (f.Names w) gs ts

/-- The file that a way leads to. -/
inductive Leads (w : Workspace) : WrittenFile → List Nat → WrittenFile → Prop
  | here {f : WrittenFile} : Leads w f [] f
  | base {f g h : WrittenFile} {gs : List WrittenFile} {i : Nat} {is : List Nat}
      (bases : f.Bases w gs) (found : gs[i]? = some g) (rest : Leads w g is h) :
      Leads w f (i :: is) h

/-- The file that a way leads to if its first step goes to one of these files. -/
def LeadsAmong (w : Workspace) (gs : List WrittenFile) : List Nat → WrittenFile → Prop
  | [], _ => False
  | i :: is, h => ∃ g, gs[i]? = some g ∧ g.Leads w is h

/-- Every file that is led to is there with the files that it extends. -/
def IsReadable (w : Workspace) (f : WrittenFile) : Prop :=
  ∀ is g, f.Leads w is g → ∃ gs, g.Bases w gs

/-- Some file that is led to leads to itself again. -/
def IsCyclic (w : Workspace) (f : WrittenFile) : Prop :=
  ∃ is js h, f.Leads w is h ∧ js ≠ [] ∧ h.Leads w js h

/-- Two ways that part lead to one file. -/
def SharesBase (w : Workspace) (f : WrittenFile) : Prop :=
  ∃ is js h, ¬is <+: js ∧ ¬js <+: is ∧ f.Leads w is h ∧ f.Leads w js h

theorem Bases.unique (hb : f.Bases w gs) (hb' : f.Bases w hs) : gs = hs := by
  obtain ⟨_, ts, hts, hgs⟩ := hb
  obtain ⟨_, us, hus, hhs⟩ := hb'
  obtain rfl := hts.unique hus
  clear hts hus
  induction hgs generalizing hs with
  | nil =>
    cases hhs
    rfl
  | cons hg _ ih =>
    obtain _ | ⟨hg', hrest⟩ := hhs
    have hpath := Except.ok.inj (hg.1.symm.trans hg'.1)
    rw [hg.2.eq hg'.2 hpath, ih hrest]

/-- Files that are named are there, at normal paths. -/
theorem held_of_names {ts : List Text} (hgs : List.Forall₂ (f.Names w) gs ts) :
    ∀ g ∈ gs, g.Holds w ∧ g.path.IsNormal := by
  induction hgs with
  | nil => exact List.forall_mem_nil _
  | cons hfirst _ ih =>
    exact List.forall_mem_cons.2 ⟨⟨hfirst.2, baseFile_isNormal hfirst.1⟩, ih⟩

theorem Bases.held (hb : f.Bases w gs) : ∀ g ∈ gs, g.Holds w ∧ g.path.IsNormal := by
  obtain ⟨_, _, hgs⟩ := hb.named
  exact held_of_names hgs

namespace Leads

/-- A way leads to one file only. -/
theorem unique (hg : f.Leads w is g) (hh : f.Leads w is h) : g = h := by
  induction hg with
  | here =>
    cases hh
    rfl
  | base bases found _ ih =>
    obtain _ | ⟨bases', found', rest'⟩ := hh
    obtain rfl := bases.unique bases'
    obtain rfl := Option.some.inj (found.symm.trans found')
    exact ih rest'

theorem append (hg : f.Leads w is g) (hh : g.Leads w js h) : f.Leads w (is ++ js) h := by
  induction hg with
  | here => exact hh
  | base bases found _ ih => exact .base bases found (ih hh)

theorem exists_of_append (hh : f.Leads w (is ++ js) h) :
    ∃ g, f.Leads w is g ∧ g.Leads w js h := by
  induction is generalizing f with
  | nil => exact ⟨f, .here, hh⟩
  | cons i is ih =>
    obtain _ | ⟨bases, found, rest⟩ := hh
    obtain ⟨g, hg, hh⟩ := ih rest
    exact ⟨g, .base bases found hg, hh⟩

/-- What holds of a file and of all bases of what it holds of, holds of all that is led to. -/
theorem of_closed {P : WrittenFile → Prop}
    (hclosed : ∀ f gs, P f → f.Bases w gs → ∀ g ∈ gs, P g) (hf : P f) (hg : f.Leads w is g) :
    P g := by
  induction hg with
  | here => exact hf
  | base bases found _ ih => exact ih (hclosed _ _ hf bases _ (List.mem_of_getElem? found))

theorem held (hf : f.Holds w ∧ f.path.IsNormal) (hg : f.Leads w is g) :
    g.Holds w ∧ g.path.IsNormal :=
  hg.of_closed (fun _ _ _ hb => hb.held) hf

end Leads

theorem IsReadable.of_base (hf : f.IsReadable w) (hb : f.Bases w gs) (hg : g ∈ gs) :
    g.IsReadable w := by
  obtain ⟨i, hi⟩ := List.mem_iff_getElem?.1 hg
  exact fun is h hh => hf (i :: is) h (.base hb hi hh)

theorem leads_cons_iff (hb : f.Bases w gs) {i : Nat} :
    f.Leads w (i :: is) h ↔ LeadsAmong w gs (i :: is) h := by
  constructor
  · rintro (_ | ⟨bases, found, rest⟩)
    obtain rfl := bases.unique hb
    exact ⟨_, found, rest⟩
  · rintro ⟨g, found, rest⟩
    exact .base hb found rest

/-- A way from a row of files starts in its front or in its end. -/
theorem leadsAmong_append : LeadsAmong w (gs ++ hs) is h ↔
    LeadsAmong w gs is h ∨
      ∃ i js, is = (gs.length + i) :: js ∧ LeadsAmong w hs (i :: js) h := by
  cases is with
  | nil => simp [LeadsAmong]
  | cons i is =>
    by_cases hi : i < gs.length
    · simp only [LeadsAmong, List.getElem?_append_left hi, List.cons.injEq]
      refine ⟨.inl, ?_⟩
      rintro (hleft | ⟨j, js, ⟨rfl, rfl⟩, _⟩)
      · exact hleft
      · omega
    · obtain ⟨j, rfl⟩ := Nat.exists_eq_add_of_le (Nat.le_of_not_lt hi)
      have hright : (gs ++ hs)[gs.length + j]? = hs[j]? := by
        rw [List.getElem?_append_right (Nat.le_add_right _ _), Nat.add_sub_cancel_left]
      simp [LeadsAmong, hright]

/-- One of two different ways to a file comes back to it, or the two part. -/
theorem leads_twice_iff : (∃ is js h, is ≠ js ∧ f.Leads w is h ∧ f.Leads w js h) ↔
    f.IsCyclic w ∨ f.SharesBase w := by
  have hback {is js : List Nat} {h : WrittenFile} (hne : is ≠ js) (hpre : is <+: js)
      (hi : f.Leads w is h) (hj : f.Leads w js h) : f.IsCyclic w := by
    obtain ⟨ks, rfl⟩ := hpre
    obtain ⟨g, hg, hh⟩ := hj.exists_of_append
    obtain rfl := hi.unique hg
    exact ⟨is, ks, h, hi, fun hks => hne (by simp [hks]), hh⟩
  constructor
  · rintro ⟨is, js, h, hne, hi, hj⟩
    by_cases hpre : is <+: js
    · exact .inl (hback hne hpre hi hj)
    · by_cases hpre' : js <+: is
      · exact .inl (hback (Ne.symm hne) hpre' hj hi)
      · exact .inr ⟨is, js, h, hpre, hpre', hi, hj⟩
  · rintro (⟨is, js, h, hi, hne, hj⟩ | ⟨is, js, h, hpre, _, hi, hj⟩)
    · refine ⟨is, is ++ js, h, fun heq => hne ?_, hi, hi.append hj⟩
      exact List.append_cancel_left ((List.append_nil is).trans heq).symm
    · exact ⟨is, js, h, fun heq => hpre (heq ▸ List.prefix_rfl), hi, hj⟩

end WrittenFile

end CustomElements
