import CustomElements.Proofs.Files.Contents

/-!
# Proper trees

In a proper tree no two entries of a directory have one name, so an entry is what is found under its
name. All that a run does to the tree of its files keeps it proper.
-/

namespace CustomElements.FileTree

/-- The entries of each directory have names of their own. -/
inductive IsProper : FileTree → Prop
  | file (content : Bytes) : IsProper (file content)
  | dir {es : List (Text × FileTree)} (distinct : (es.map Prod.fst).Nodup)
    (inside : ∀ e ∈ es, IsProper e.2) : IsProper (dir es)

variable {t t' new e : FileTree} {es : List (Text × FileTree)} {name : Text}
variable {place parts : List Text}

theorem IsProper.distinct (h : (FileTree.dir es).IsProper) : (es.map Prod.fst).Nodup := by
  cases h with
  | dir distinct inside => exact distinct

theorem IsProper.inside (h : (FileTree.dir es).IsProper) : ∀ e ∈ es, e.2.IsProper := by
  cases h with
  | dir distinct inside => exact inside

/-- A directory with one entry. -/
theorem IsProper.one (name : Text) (h : e.IsProper) : (FileTree.dir [(name, e)]).IsProper :=
  .dir (List.pairwise_singleton _ name) (List.forall_mem_singleton.2 h)

theorem mem_setEntry {x : Text × FileTree} (h : x ∈ setEntry name e es) :
    x = (name, e) ∨ x ∈ es := by
  induction es with
  | nil => exact .inl (List.mem_singleton.1 h)
  | cons y es ih =>
    rw [setEntry] at h
    split at h
    · exact (List.mem_cons.1 h).imp id (List.mem_cons_of_mem _)
    · rcases List.mem_cons.1 h with rfl | h
      · exact .inr List.mem_cons_self
      · exact (ih h).imp id (List.mem_cons_of_mem _)

theorem nodup_setEntry (hn : (es.map Prod.fst).Nodup) :
    ((setEntry name e es).map Prod.fst).Nodup := by
  induction es with
  | nil => exact List.pairwise_singleton _ _
  | cons x es ih =>
    rw [List.map_cons, List.nodup_cons] at hn
    rw [setEntry]
    split
    · next heq =>
      rw [List.map_cons, List.nodup_cons, ← heq]
      exact hn
    · next hne =>
      rw [List.map_cons, List.nodup_cons]
      refine ⟨fun hm => ?_, ih hn.2⟩
      obtain ⟨y, hy, hfst⟩ := List.mem_map.1 hm
      rcases mem_setEntry hy with rfl | hy
      · exact hne hfst.symm
      · exact hn.1 (hfst ▸ List.mem_map_of_mem hy)

theorem IsProper.setEntry (h : (FileTree.dir es).IsProper) (he : e.IsProper) :
    (FileTree.dir (setEntry name e es)).IsProper := by
  refine .dir (nodup_setEntry h.distinct) fun x hx => ?_
  rcases mem_setEntry hx with rfl | hx
  · exact he
  · exact h.inside x hx

theorem IsProper.put (h : t.IsProper) (hnew : new.IsProper) : (t.put new place).IsProper := by
  induction place generalizing t with
  | nil => exact hnew
  | cons name place ih =>
    cases t with
    | file c => exact h
    | dir es =>
      unfold FileTree.put
      dsimp only
      split
      · exact h.setEntry hnew
      · next e hl => exact h.setEntry (ih (h.inside _ (mem_of_lookup hl)))
      · exact h

theorem IsProper.remove (h : t.IsProper) : (t.remove place).IsProper := by
  induction place generalizing t with
  | nil => exact h
  | cons name place ih =>
    cases t with
    | file c => exact h
    | dir es =>
      unfold FileTree.remove
      dsimp only
      split
      · refine .dir (h.distinct.sublist (List.filter_sublist.map _)) fun x hx => ?_
        exact h.inside x (List.mem_of_mem_filter hx)
      · next e hl => exact h.setEntry (ih (h.inside _ (mem_of_lookup hl)))
      · exact h

theorem IsProper.get? (h : t.IsProper) (hg : t.get? place = some e) : e.IsProper := by
  induction place generalizing t with
  | nil =>
    obtain rfl := Option.some.inj hg
    exact h
  | cons name place ih =>
    obtain ⟨es, d, rfl, hl, hd⟩ := get?_cons_eq_some.1 hg
    exact ih (h.inside _ (mem_of_lookup hl)) hd

theorem IsProper.write {content : Bytes} (h : t.IsProper) (hw : t.write parts content = .ok t') :
    t'.IsProper := by
  obtain ⟨place, -, hw⟩ := exceptBind_eq_ok.1 hw
  split at hw
  · cases hw
  · obtain rfl := Except.ok.inj hw
    exact h.put (.file content)

theorem IsProper.makeDir (h : t.IsProper) (hm : t.makeDir parts = .ok t') : t'.IsProper := by
  obtain ⟨place, -, hm⟩ := exceptBind_eq_ok.1 hm
  split at hm
  · cases hm
  · obtain rfl := Except.ok.inj hm
    exact h.put (.dir List.nodup_nil fun _ he => nomatch he)

theorem IsProper.makeDirs (h : t.IsProper) (parts : List Text) :
    (t.makeDirs parts).1.IsProper := by
  induction parts generalizing t with
  | nil => rwa [FileTree.makeDirs]
  | cons name above ih =>
    rw [FileTree.makeDirs]
    split
    · next hmade => exact h.makeDir hmade
    · have hrest := ih h
      split
      · next hmade => rwa [hmade] at hrest
      · next hmade =>
        rw [hmade] at hrest
        split
        · next hagain => exact hrest.makeDir hagain
        · rwa [makeDirs_settle]
    · rwa [makeDirs_settle]

theorem IsProper.rename {source target : List Text} (h : t.IsProper)
    (hr : t.rename source target = .ok t') : t'.IsProper := by
  obtain ⟨origin, -, hr⟩ := exceptBind_eq_ok.1 hr
  split at hr
  · cases hr
  · next e he =>
    obtain ⟨place, -, hr⟩ := exceptBind_eq_ok.1 hr
    split at hr
    · cases hr
    · obtain rfl := Except.ok.inj hr
      split
      · exact h
      · exact h.remove.put (h.get? he)

end CustomElements.FileTree
