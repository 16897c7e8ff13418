import CustomElements.Proofs.Output.ModuleSpecifiers

/-!
# Relative imports

A module specifier should be a relative import, which starts with one or two dots and a slash; any
other one is the name of a package. One dot is taken for enough, though. The way up from a directory
starts with two dots and a slash, but the first name on a way down may have a dot at its front too.
-/

namespace CustomElements

open Path (normal)

section Relative

variable {current : Path} {directory file : Text} {t stem added first : Text}

/-- A specifier that is looked up from the module that it stands in. -/
def IsRelativeImport (t : Text) : Prop := ("./" : Text) <+: t ∨ ("../" : Text) <+: t

instance (t : Text) : Decidable (IsRelativeImport t) := inferInstanceAs (Decidable (_ ∨ _))

/-- Where a name that starts with a dot stays relative all the same: nothing of it is left, or an
extension that starts with a slash follows what is left. -/
def StaysRelative (name added : Text) : Prop :=
  HasStem name [] ∧ added = [] ∨
    (HasStem name [] ∨ HasStem name ".") ∧ ("./" : Text) <+: added

theorem addedEnding_cases (extension : Option Text) : addedEnding extension = [] ∨
    ∃ r, addedEnding extension = .scalar '.' :: r ∧ r.head? ≠ some (.scalar '.') := by
  unfold addedEnding
  split
  · next e =>
    split
    · exact .inl rfl
    · refine .inr ⟨_, rfl, fun hdot => ?_⟩
      have hfirst : (e.dropWhile fun p => decide (p = .scalar '.')).head? = some (.scalar '.') :=
        hdot
      have hkept := List.head?_dropWhile_not (fun p => decide (p = .scalar '.')) e
      rw [hfirst] at hkept
      cases hkept
  · exact .inl rfl

theorem isRelativeImport_dotted :
    IsRelativeImport (dotted t) ↔ t.head? ≠ some (.scalar '.') ∨ IsRelativeImport t := by
  obtain ⟨front, heq, ⟨rfl, hdot⟩ | ⟨rfl, hdot⟩⟩ := dotted_eq t
  · rw [heq, List.nil_append]
    exact (or_iff_right fun hne => hne hdot).symm
  · rw [heq]
    exact iff_of_true (.inl (List.prefix_append _ _)) (.inl hdot)

/-- One dot or two with anything but a slash behind them make no relative import. -/
theorem not_isRelativeImport {c : CodePoint} {r : Text} (hc : c ≠ .scalar '/')
    (hr : c = .scalar '.' → r.head? ≠ some (.scalar '/')) :
    ¬IsRelativeImport (.scalar '.' :: c :: r) := by
  rintro (⟨u, hu⟩ | ⟨u, hu⟩)
  · exact hc (List.cons.inj (List.cons.inj hu).2).1.symm
  · obtain ⟨hdot, hrest⟩ := List.cons.inj (List.cons.inj hu).2
    exact hr hdot.symm (by rw [← hrest]; rfl)

/-- Below a directory with a dot at the front of its name no import is relative. -/
theorem not_isRelativeImport_folder (h : IsPathName first) (hdots : first ≠ ("..": Text))
    (hdot : first.head? = some (.scalar '.')) (t : Text) :
    ¬IsRelativeImport (first ++ .scalar '/' :: t) := by
  obtain ⟨r, rfl⟩ := List.head?_eq_some_iff.1 hdot
  cases r with
  | nil => exact absurd rfl h.noDot
  | cons c r =>
    have hslash := h.noSlash
    simp only [List.mem_cons, not_or] at hslash
    refine not_isRelativeImport (Ne.symm hslash.2.1) ?_
    rintro rfl
    cases r with
    | nil => exact absurd rfl hdots
    | cons d r =>
      intro heq
      obtain rfl := Option.some.inj heq
      exact hslash.2.2 List.mem_cons_self

theorem isRelativeImport_of_added (extension : Option Text) :
    IsRelativeImport (dotted (addedEnding extension)) ↔
      addedEnding extension = [] ∨ ("./" : Text) <+: addedEnding extension := by
  rcases addedEnding_cases extension with hadded | ⟨r, hadded, hr⟩ <;> rw [hadded]
  · exact iff_of_true (by decide) (.inl rfl)
  · have hdots : ¬("../" : Text) <+: .scalar '.' :: r := by
      rintro ⟨u, hu⟩
      exact hr (by rw [← (List.cons.inj hu).2]; rfl)
    rw [isRelativeImport_dotted, or_iff_right (fun hne => hne rfl), IsRelativeImport,
      or_iff_left hdots]
    exact (or_iff_right (List.cons_ne_nil _ _)).symm

theorem isRelativeImport_dot_of_added (extension : Option Text) :
    IsRelativeImport (.scalar '.' :: addedEnding extension) ↔
      ("./" : Text) <+: addedEnding extension := by
  rcases addedEnding_cases extension with hadded | ⟨r, hadded, -⟩ <;> rw [hadded]
  · decide
  · have hone : ¬("./" : Text) <+: .scalar '.' :: .scalar '.' :: r := by
      rintro ⟨u, hu⟩
      exact absurd (List.cons.inj (List.cons.inj hu).2).1 (by decide)
    rw [IsRelativeImport, or_iff_right hone]
    exact List.prefix_cons_inj (CodePoint.scalar '.')

/-- A name with a dot at its front makes a relative import only by what is taken off and added. -/
theorem isRelativeImport_hidden (h : IsPathName first) (hdot : first.head? = some (.scalar '.'))
    (extension : Option Text) :
    IsRelativeImport (dotted (dropEnding first ++ addedEnding extension)) ↔
      StaysRelative first (addedEnding extension) := by
  have hslash := noSlash_dropEnding h.noSlash
  have hfront : dropEnding first = [] ∨ (dropEnding first).head? = some (.scalar '.') := by
    rcases hasStem_dropEnding first with ⟨e, -, hname⟩ | ⟨hname, -⟩
    · cases hs : dropEnding first with
      | nil => exact .inl rfl
      | cons c s =>
        rw [hname, hs] at hdot
        exact .inr hdot
    · rw [← hname]
      exact .inr hdot
  simp only [StaysRelative, hasStem_iff]
  rcases hfront with hnil | hhead
  · rw [hnil, List.nil_append, isRelativeImport_of_added]
    simp
  · obtain ⟨s, hs⟩ := List.head?_eq_some_iff.1 hhead
    rw [hs] at hslash ⊢
    rw [isRelativeImport_dotted, or_iff_right (fun hne => hne rfl)]
    cases s with
    | nil =>
      rw [List.singleton_append, isRelativeImport_dot_of_added]
      constructor
      · exact fun hadded => .inr ⟨.inr rfl, hadded⟩
      · rintro (⟨hnil, -⟩ | ⟨-, hadded⟩)
        · cases hnil
        · exact hadded
    | cons c s =>
      simp only [List.mem_cons, not_or] at hslash
      have hmore : ¬IsRelativeImport (.scalar '.' :: c :: s ++ addedEnding extension) := by
        refine not_isRelativeImport (Ne.symm hslash.2.1) fun _ => ?_
        cases s with
        | nil => rcases addedEnding_cases extension with hadded | ⟨r, hadded, -⟩ <;> simp [hadded]
        | cons d s => exact fun heq => hslash.2.2 (by rw [← Option.some.inj heq]; exact .head _)
      refine iff_of_false hmore ?_
      rintro (⟨hnil, -⟩ | ⟨hnil | hone, -⟩)
      · cases hnil
      · cases hnil
      · cases hone

/-- A name without a dot at its front is kept in part, so that no dot gets to the front. -/
theorem head?_dropEnding_ne (h : IsPathName first) (hdot : first.head? ≠ some (.scalar '.'))
    (added : Text) : (dropEnding first ++ added).head? ≠ some (.scalar '.') := by
  obtain ⟨c, r, rfl⟩ := List.exists_cons_of_ne_nil h.nonempty
  rcases hasStem_dropEnding (c :: r) with ⟨e, ⟨u, rfl, -⟩, hname⟩ | ⟨hname, -⟩
  · cases hs : dropEnding (c :: r) with
    | nil =>
      rw [hs, List.nil_append] at hname
      exact absurd (congrArg List.head? hname) hdot
    | cons d s =>
      rw [hs] at hname
      rw [(List.cons.inj hname).1] at hdot
      exact hdot
  · rw [← hname]
    exact hdot

/-- What makes the specifier of a file in the directory itself a relative import. -/
theorem isRelativeImport_file (h : IsPathName first) (extension : Option Text) :
    IsRelativeImport (dotted (dropEnding first ++ addedEnding extension)) ↔
      first.head? ≠ some (.scalar '.') ∨ StaysRelative first (addedEnding extension) := by
  by_cases hdot : first.head? = some (.scalar '.')
  · rw [isRelativeImport_hidden h hdot, or_iff_right (fun hne => hne hdot)]
  · exact iff_of_true (isRelativeImport_dotted.2 (.inl (head?_dropEnding_ne h hdot _))) (.inl hdot)

/-- What makes the specifier of a file in another directory below a relative import. -/
theorem isRelativeImport_folder (h : IsPathName first) (hdots : first ≠ ("..": Text)) (t : Text) :
    IsRelativeImport (dotted (first ++ .scalar '/' :: t)) ↔ first.head? ≠ some (.scalar '.') := by
  have hhead : (first ++ .scalar '/' :: t).head? = first.head? :=
    List.head?_append_of_ne_nil _ h.nonempty
  rw [isRelativeImport_dotted, hhead]
  exact or_iff_left_of_imp fun himport hdot => not_isRelativeImport_folder h hdots hdot t himport

theorem isRelativeImport_up (t : Text) : IsRelativeImport (dotted (".." ++ .scalar '/' :: t)) :=
  isRelativeImport_dotted.2 (.inr (.inr ⟨t, rfl⟩))

/-- What makes a specifier a relative import is told by the first name below the directory. -/
theorem isRelativeImport_wayStem {D init : List Text} {name : Text}
    (hinit : ∀ n ∈ init, IsPathName n ∧ n ≠ ("..": Text)) (hname : IsPathName name)
    (hdots : name ≠ ("..": Text)) (hnot : ¬init ++ [name] <+: D) (extension : Option Text) :
    IsRelativeImport (dotted (wayStem D init name ++ addedEnding extension)) ↔
      ∀ first rest, init ++ [name] = D ++ first :: rest → first.head? ≠ some (.scalar '.') ∨
        rest = [] ∧ StaysRelative first (addedEnding extension) := by
  have hway := relativeParts_concat hnot
  rw [wayStem]
  by_cases hbelow : D <+: init ++ [name]
  · obtain ⟨below, hbelow⟩ := hbelow
    have hdown : below = relativeParts D init ++ [name] := by
      rw [← hway, ← hbelow, relativeParts_append]
    rw [← hbelow, hdown]
    cases hnames : relativeParts D init with
    | nil =>
      rw [folders, List.flatMap_nil, List.nil_append, List.nil_append,
        isRelativeImport_file hname extension]
      constructor
      · intro hstays first rest heq
        obtain ⟨rfl, rfl⟩ := List.cons.inj (List.append_cancel_left heq)
        exact hstays.imp_right fun hs => ⟨rfl, hs⟩
      · exact fun hall => (hall name [] rfl).imp_right And.right
    | cons first names =>
      have hfirst : first ∈ init := by
        rw [hdown, hnames, ← List.append_assoc] at hbelow
        rw [← (List.append_inj' hbelow rfl).1]
        exact List.mem_append_right _ List.mem_cons_self
      rw [folders_cons, List.append_assoc, List.cons_append,
        isRelativeImport_folder (hinit first hfirst).1 (hinit first hfirst).2]
      constructor
      · intro hhead first' rest heq
        obtain ⟨rfl, -⟩ := List.cons.inj (List.append_cancel_left heq)
        exact .inl hhead
      · intro hall
        refine (hall first (names ++ [name]) rfl).resolve_right ?_
        rintro ⟨hnil, -⟩
        exact List.append_ne_nil_of_right_ne_nil _ (List.cons_ne_nil _ _) hnil
  · have hup := head?_relativeParts hbelow
    rw [hway] at hup
    cases hnames : relativeParts D init with
    | nil =>
      rw [hnames] at hup
      exact absurd (Option.some.inj hup) hdots
    | cons first names =>
      rw [hnames] at hup
      obtain rfl := Option.some.inj hup
      rw [folders_cons, List.append_assoc, List.cons_append]
      refine iff_of_true (isRelativeImport_up _) fun first rest heq => ?_
      exact absurd ⟨first :: rest, heq.symm⟩ hbelow

end Relative

/-- Which module specifiers are relative imports. That of a file that is not below the directory is
one. That of a file below it is one exactly if the first name on the way down has no dot at its
front; only where this is the name of the file may taking off an ending and adding another one still
make a relative import of it. -/
theorem specifier_relative_iff {current : Path} {directory file : Text}
    (h : IsSeenFrom current directory file) (extension : Option Text) :
    ∃ specifier, textSpecifier current file directory extension = .ok specifier ∧
      (IsRelativeImport specifier ↔ ∀ below,
        (normal current (.ofText file)).relativeTo? (normal current (.ofText directory)) =
          some below → ∀ first rest, below.parts = first :: rest →
            first.head? ≠ some (.scalar '.') ∨
              rest = [] ∧ StaysRelative first (addedEnding extension)) := by
  obtain ⟨init, name, hparts, hnot⟩ := h.exists_name
  obtain ⟨hinit, hname, hdots⟩ := h.names hparts
  refine ⟨_, textSpecifier_eq h hparts hnot extension, ?_⟩
  rw [isRelativeImport_wayStem hinit hname hdots hnot extension]
  simp only [Path.relativeTo?_eq_some, hparts]
  constructor
  · rintro hall below ⟨-, names, heq, rfl⟩ first rest rfl
    exact hall first rest heq
  · intro hall first rest heq
    exact hall ⟨.here, first :: rest⟩ ⟨rfl, _, heq, rfl⟩ first rest rfl

/-- A directory that is hidden gives its module the name of a package. -/
theorem specifier_relative_iff_hiddenFolder :
    IsSeenFrom "/ws" "/ws" "/ws/.storybook/card.ts" ∧
      textSpecifier "/ws" "/ws/.storybook/card.ts" "/ws" none = .ok ".storybook/card" ∧
      ¬IsRelativeImport ".storybook/card" := by
  have h : IsSeenFrom "/ws" "/ws" "/ws/.storybook/card.ts" :=
    ⟨by decide, by decide, by decide⟩
  have hspecifier : textSpecifier "/ws" "/ws/.storybook/card.ts" "/ws" none =
      .ok ".storybook/card" := by decide
  obtain ⟨specifier, hs, hrelative⟩ := specifier_relative_iff h none
  obtain rfl := Except.ok.inj (hs.symm.trans hspecifier)
  refine ⟨h, hspecifier, fun himport => ?_⟩
  have hbelow := hrelative.1 himport ".storybook/card.ts" (by decide) ".storybook" ["card.ts"] rfl
  rcases hbelow with hdot | ⟨hnil, -⟩
  · exact hdot rfl
  · cases hnil

end CustomElements
