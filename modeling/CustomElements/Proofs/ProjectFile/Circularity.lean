import CustomElements.Proofs.ProjectFile.Reading
import CustomElements.Proofs.ProjectFile.Ways

/-!
# Circular project files

Reading follows all ways from a file, and the files visited so far are never forgotten. So it comes
to an end, and it complains about a file just if there are two ways to it: if a way comes back to
the file, as the message says, but also if two ways part and meet again there.
-/

namespace CustomElements

open WrittenFile

/-- The files visited so far are different files of the workspace, and the fuel is enough for all
others. -/
structure Visited (w : Workspace) (fuel : Nat) (seen : List Path) : Prop where
  nodup : seen.Nodup
  held : ∀ q ∈ seen, q.IsNormal ∧ ∃ g : WrittenFile, g.Holds w ∧ g.path = q
  enough : w.files.files.length < fuel + seen.length

/-- Following the ways visited these files, each of them once and none of those seen before. -/
structure Visits (leads : List Nat → WrittenFile → Prop) (seen visited : List Path) : Prop where
  covered : ∀ is h, leads is h → h.path ∈ visited
  found : ∀ q ∈ visited, ∃ is h, leads is h ∧ h.path = q
  unique : ∀ is js h, leads is h → leads js h → is = js
  nodup : visited.Nodup
  fresh : ∀ q ∈ visited, q ∉ seen

/-- Following the ways comes to a file that was seen before, or to one of them in two ways. -/
def Collides (leads : List Nat → WrittenFile → Prop) (seen : List Path) (q : Path) : Prop :=
  ∃ is h, leads is h ∧ h.path = q ∧ (q ∈ seen ∨ ∃ js, js ≠ is ∧ leads js h)

/-- The step follows the ways to their ends, or up to a file that was visited already. -/
def ReadAction.Follows {α : Type} (x : ReadAction α) (leads : List Nat → WrittenFile → Prop)
    (seen : List Path) (w : Workspace) : Prop :=
  (∃ a visited, x.outcome seen w = (.ok (a, seen ++ visited), w) ∧ Visits leads seen visited) ∨
    ∃ q, x.outcome seen w = (.error (.mistake (.projectCircular q)), w) ∧ Collides leads seen q

variable {w : Workspace} {fuel : Nat} {seen visited : List Path} {f g : WrittenFile}
  {gs hs : List WrittenFile}

namespace Visited

theorem length_le (h : Visited w fuel seen) : seen.length ≤ w.files.files.length :=
  length_le_files h.nodup h.held

theorem exists_fuel (h : Visited w fuel seen) : ∃ k, fuel = k + 1 := by
  have hle := h.length_le
  have henough := h.enough
  exact Nat.exists_eq_add_one.2 (by omega)

/-- A new file takes the fuel for itself. -/
theorem visit (h : Visited w (fuel + 1) seen) (hf : f.Holds w ∧ f.path.IsNormal)
    (hnew : f.path ∉ seen) : Visited w fuel (seen ++ [f.path]) := by
  have henough := h.enough
  constructor
  · exact nodup_append_singleton h.nodup hnew
  · rw [List.forall_mem_append, List.forall_mem_singleton]
    exact ⟨h.held, hf.2, f, hf.1, rfl⟩
  · rw [List.length_append, List.length_singleton]
    omega

/-- What was visited since then needs no more fuel. -/
theorem extend (h : Visited w fuel seen) {leads : List Nat → WrittenFile → Prop}
    (hv : Visits leads seen visited)
    (hheld : ∀ is g, leads is g → g.Holds w ∧ g.path.IsNormal) :
    Visited w fuel (seen ++ visited) := by
  have henough := h.enough
  constructor
  · rw [List.nodup_append]
    exact ⟨h.nodup, hv.nodup, fun a ha b hb heq => hv.fresh b hb (heq ▸ ha)⟩
  · rw [List.forall_mem_append]
    refine ⟨h.held, fun q hq => ?_⟩
    obtain ⟨is, g, hg, rfl⟩ := hv.found q hq
    exact ⟨(hheld is g hg).2, g, (hheld is g hg).1, rfl⟩
  · rw [List.length_append]
    omega

end Visited

theorem leadsAmong_held (hheld : ∀ g ∈ gs, g.Holds w ∧ g.path.IsNormal) (is : List Nat)
    (g : WrittenFile) (hg : LeadsAmong w gs is g) : g.Holds w ∧ g.path.IsNormal := by
  cases is with
  | nil => exact hg.elim
  | cons i is =>
    obtain ⟨first, hfirst, hg⟩ := hg
    exact hg.held (hheld _ (List.mem_of_getElem? hfirst))

theorem leadsAmong_singleton {is : List Nat} {h : WrittenFile} :
    LeadsAmong w [g] is h ↔ ∃ js, is = 0 :: js ∧ g.Leads w js h := by
  rcases is with _ | ⟨_ | i, is⟩ <;> simp [LeadsAmong]

namespace Visits

theorem nil : Visits (LeadsAmong w []) seen [] := by
  have hnone : ∀ is h, ¬LeadsAmong w [] is h := by
    rintro (_ | ⟨i, is⟩) h
    · exact id
    · rintro ⟨g, hg, _⟩
      cases hg
  refine ⟨fun is h hl => (hnone is h hl).elim, fun q hq => ?_, fun is js h hl => ?_,
    List.nodup_nil, fun q hq => ?_⟩
  · cases hq
  · exact (hnone is h hl).elim
  · cases hq

/-- The ways from the files of a row are those from its front and those from its end. -/
theorem append {others : List Path} (hleft : Visits (LeadsAmong w gs) seen visited)
    (hright : Visits (LeadsAmong w hs) (seen ++ visited) others) :
    Visits (LeadsAmong w (gs ++ hs)) seen (visited ++ others) := by
  have hapart : ∀ is js h, LeadsAmong w gs is h → ¬LeadsAmong w hs js h := by
    intro is js h hi hj
    exact hright.fresh _ (hright.covered js h hj)
      (List.mem_append_right _ (hleft.covered is h hi))
  constructor
  · intro is h hl
    rcases leadsAmong_append.1 hl with hl | ⟨i, js, _, hl⟩
    · exact List.mem_append_left _ (hleft.covered is h hl)
    · exact List.mem_append_right _ (hright.covered _ h hl)
  · intro q hq
    rcases List.mem_append.1 hq with hq | hq
    · obtain ⟨is, h, hl, hpath⟩ := hleft.found q hq
      exact ⟨is, h, leadsAmong_append.2 (.inl hl), hpath⟩
    · obtain ⟨_ | ⟨i, is⟩, h, hl, hpath⟩ := hright.found q hq
      · exact hl.elim
      · exact ⟨_, h, leadsAmong_append.2 (.inr ⟨i, is, rfl, hl⟩), hpath⟩
  · intro is js h hi hj
    rcases leadsAmong_append.1 hi with hl | ⟨i, is, rfl, hl⟩ <;>
      rcases leadsAmong_append.1 hj with hm | ⟨j, js, rfl, hm⟩
    · exact hleft.unique is js h hl hm
    · exact (hapart _ _ _ hl hm).elim
    · exact (hapart _ _ _ hm hl).elim
    · obtain ⟨rfl, rfl⟩ := List.cons.inj (hright.unique _ _ h hl hm)
      rfl
  · rw [List.nodup_append]
    refine ⟨hleft.nodup, hright.nodup, fun a ha b hb heq => ?_⟩
    exact hright.fresh b hb (List.mem_append_right _ (heq ▸ ha))
  · intro q hq
    rcases List.mem_append.1 hq with hq | hq
    · exact hleft.fresh q hq
    · exact fun hs => hright.fresh q hq (List.mem_append_left _ hs)

/-- The ways from a file are the empty one and those from its bases. -/
theorem visit (hb : f.Bases w gs) (hnew : f.path ∉ seen)
    (hv : Visits (LeadsAmong w gs) (seen ++ [f.path]) visited) :
    Visits (f.Leads w) seen (f.path :: visited) := by
  have hback : ∀ i is, ¬f.Leads w (i :: is) f := by
    intro i is hl
    exact hv.fresh _ (hv.covered _ _ ((leads_cons_iff hb).1 hl))
      (List.mem_append_right _ List.mem_cons_self)
  constructor
  · rintro (_ | ⟨i, is⟩) h hl
    · cases hl
      exact List.mem_cons_self
    · exact List.mem_cons_of_mem _ (hv.covered _ _ ((leads_cons_iff hb).1 hl))
  · intro q hq
    rcases List.mem_cons.1 hq with rfl | hq
    · exact ⟨[], f, .here, rfl⟩
    · obtain ⟨_ | ⟨i, is⟩, h, hl, hpath⟩ := hv.found q hq
      · exact hl.elim
      · exact ⟨i :: is, h, (leads_cons_iff hb).2 hl, hpath⟩
  · rintro (_ | ⟨i, is⟩) (_ | ⟨j, js⟩) h hi hj
    · rfl
    · cases hi
      exact (hback j js hj).elim
    · cases hj
      exact (hback i is hi).elim
    · exact hv.unique _ _ h ((leads_cons_iff hb).1 hi) ((leads_cons_iff hb).1 hj)
  · rw [List.nodup_cons]
    exact ⟨fun hm => hv.fresh _ hm (List.mem_append_right _ List.mem_cons_self), hv.nodup⟩
  · rw [List.forall_mem_cons]
    exact ⟨hnew, fun q hq hs => hv.fresh q hq (List.mem_append_left _ hs)⟩

end Visits

namespace Collides

variable {q : Path}

theorem append_left (h : Collides (LeadsAmong w gs) seen q) :
    Collides (LeadsAmong w (gs ++ hs)) seen q := by
  obtain ⟨is, g, hg, hpath, hs | ⟨js, hne, hj⟩⟩ := h
  · exact ⟨is, g, leadsAmong_append.2 (.inl hg), hpath, .inl hs⟩
  · exact ⟨is, g, leadsAmong_append.2 (.inl hg), hpath, .inr ⟨js, hne,
      leadsAmong_append.2 (.inl hj)⟩⟩

/-- A file that was visited on a way from the front is reached once more. -/
theorem append_right (hheld : ∀ g ∈ gs ++ hs, g.Holds w ∧ g.path.IsNormal)
    (hv : Visits (LeadsAmong w gs) seen visited)
    (h : Collides (LeadsAmong w hs) (seen ++ visited) q) :
    Collides (LeadsAmong w (gs ++ hs)) seen q := by
  rw [List.forall_mem_append] at hheld
  obtain ⟨_ | ⟨i, is⟩, g, hg, hpath, hagain⟩ := h
  · exact hg.elim
  refine ⟨_, g, leadsAmong_append.2 (.inr ⟨i, is, rfl, hg⟩), hpath, ?_⟩
  rcases hagain with hm | ⟨_ | ⟨j, js⟩, hne, hj⟩
  · rcases List.mem_append.1 hm with hs | hm
    · exact .inl hs
    · obtain ⟨js, g', hg', hpath'⟩ := hv.found q hm
      have hholds := (leadsAmong_held hheld.2 _ g hg).1
      have hholds' := (leadsAmong_held hheld.1 _ g' hg').1
      obtain rfl := hholds'.eq hholds (hpath'.trans hpath.symm)
      refine .inr ⟨js, ?_, leadsAmong_append.2 (.inl hg')⟩
      rintro rfl
      -- the way starts with a position in the front and with one behind it
      obtain ⟨first, hfirst, _⟩ := hg'
      have hlt := (List.getElem?_eq_some_iff.1 hfirst).1
      omega
  · exact hj.elim
  · refine .inr ⟨_, fun heq => hne ?_, leadsAmong_append.2 (.inr ⟨j, js, rfl, hj⟩)⟩
    obtain ⟨hfirst, hrest⟩ := List.cons.inj heq
    rw [hrest, Nat.add_left_cancel hfirst]

theorem visit (hb : f.Bases w gs) (h : Collides (LeadsAmong w gs) (seen ++ [f.path]) q) :
    Collides (f.Leads w) seen q := by
  obtain ⟨_ | ⟨i, is⟩, g, hg, hpath, hagain⟩ := h
  · exact hg.elim
  refine ⟨i :: is, g, (leads_cons_iff hb).2 hg, hpath, ?_⟩
  rcases hagain with hm | ⟨_ | ⟨j, js⟩, hne, hj⟩
  · rcases List.mem_append.1 hm with hs | hm
    · exact .inl hs
    · have hholds := (leadsAmong_held hb.held _ g hg).1
      obtain rfl := hb.here.eq hholds ((List.mem_singleton.1 hm).symm.trans hpath.symm)
      exact .inr ⟨[], List.cons_ne_nil _ _ ∘ Eq.symm, .here⟩
  · exact hj.elim
  · exact .inr ⟨j :: js, hne, (leads_cons_iff hb).2 hj⟩

end Collides

namespace ReadAction.Follows

variable {α β : Type}

theorem pure (a : α) : Follows (Pure.pure a) (LeadsAmong w []) seen w :=
  .inl ⟨a, [], by rw [List.append_nil]; rfl, .nil⟩

/-- Two steps in a row follow the ways from a row of files. -/
theorem bind {x : ReadAction α} {k : α → ReadAction β}
    (hheld : ∀ g ∈ gs ++ hs, g.Holds w ∧ g.path.IsNormal) (hseen : Visited w fuel seen)
    (hx : x.Follows (LeadsAmong w gs) seen w)
    (hk : ∀ a seen', Visited w fuel seen' → (k a).Follows (LeadsAmong w hs) seen' w) :
    (x >>= k).Follows (LeadsAmong w (gs ++ hs)) seen w := by
  rcases hx with ⟨a, visited, hx, hv⟩ | ⟨q, hx, hc⟩
  · have hheld' := leadsAmong_held (List.forall_mem_append.1 hheld).1
    rcases hk a _ (hseen.extend hv hheld') with ⟨b, others, hk, hv'⟩ | ⟨q, hk, hc⟩
    · refine .inl ⟨b, visited ++ others, ?_, hv.append hv'⟩
      rw [outcome_bind_ok hx, hk, List.append_assoc]
    · exact .inr ⟨q, by rw [outcome_bind_ok hx, hk], hc.append_right hheld hv⟩
  · exact .inr ⟨q, outcome_bind_error hx k, hc.append_left⟩

/-- Reading one base follows the ways from it. -/
theorem one {x : ReadAction α} (hx : x.Follows (g.Leads w) seen w) (k : α → β) :
    (do return k (← x)).Follows (LeadsAmong w [g]) seen w := by
  rcases hx with ⟨a, visited, hx, hv⟩ | ⟨q, hx, is, h, hl, hpath, hagain⟩
  · refine .inl ⟨k a, visited, outcome_bind_ok hx _, ?_⟩
    constructor
    · intro is h hl
      obtain ⟨js, rfl, hm⟩ := leadsAmong_singleton.1 hl
      exact hv.covered js h hm
    · intro q hq
      obtain ⟨is, h, hl, hpath⟩ := hv.found q hq
      exact ⟨0 :: is, h, leadsAmong_singleton.2 ⟨is, rfl, hl⟩, hpath⟩
    · intro is js h hi hj
      obtain ⟨is, rfl, hl⟩ := leadsAmong_singleton.1 hi
      obtain ⟨js, rfl, hm⟩ := leadsAmong_singleton.1 hj
      rw [hv.unique is js h hl hm]
    · exact hv.nodup
    · exact hv.fresh
  · refine .inr ⟨q, outcome_bind_error hx _, 0 :: is, h,
      leadsAmong_singleton.2 ⟨is, rfl, hl⟩, hpath, ?_⟩
    rcases hagain with hs | ⟨js, hne, hm⟩
    · exact .inl hs
    · refine .inr ⟨0 :: js, fun heq => hne (List.cons.inj heq).2, ?_⟩
      exact leadsAmong_singleton.2 ⟨js, rfl, hm⟩

end ReadAction.Follows

open ReadAction

/-- Reading what an `extends` value names follows the ways from these files, if reading each of
them does. A list is read on top of what was read before it. -/
theorem baseOf_follows {load : Path → ReadAction ProjectFile} {v : Value} {ts : List Text}
    (hv : v.NamesBases ts) (hgs : List.Forall₂ (f.Names w) gs ts)
    (hload : ∀ g ∈ gs, ∀ seen, Visited w fuel seen → (load g.path).Follows (g.Leads w) seen w) :
    (∀ seen, Visited w fuel seen →
      (baseOf load f.directory v).Follows (LeadsAmong w gs) seen w) ∧
    ∀ vs merged, v = .list vs → ∀ seen, Visited w fuel seen →
      (baseOfList load f.directory merged vs).Follows (LeadsAmong w gs) seen w := by
  induction hv generalizing gs with
  | @other v hl ht =>
    obtain rfl := List.forall₂_nil_right_iff.1 hgs
    refine ⟨fun seen _ => ?_, fun vs merged hvs => by rw [hvs] at hl; cases hl⟩
    cases v with
    | list vs => cases hl
    | text t => exact absurd rfl (ht t)
    | _ =>
      simp only [baseOf]
      exact .pure _
  | @relative t h =>
    obtain ⟨g, rest, ⟨found, _⟩, hrest, rfl⟩ := List.forall₂_cons_right_iff.1 hgs
    obtain rfl := List.forall₂_nil_right_iff.1 hrest
    refine ⟨fun seen hseen => ?_, fun vs merged hvs => by cases hvs⟩
    have hone := Follows.one (hload g List.mem_cons_self seen hseen) some
    unfold Follows
    rw [baseOf_outcome_of_relative load h found seen]
    exact hone
  | none =>
    obtain rfl := List.forall₂_nil_right_iff.1 hgs
    have hlist (seen : List Path) (merged : Option ProjectFile) :
        (baseOfList load f.directory merged []).Follows (LeadsAmong w []) seen w := by
      rw [baseOfList]
      exact .pure merged
    refine ⟨fun seen _ => ?_, fun vs merged hvs seen _ => ?_⟩
    · rw [baseOf]
      exact hlist seen none
    · cases hvs
      exact hlist seen merged
  | @cons v vs ts us _ _ ihfirst ihrest =>
    have hsplit := List.take_append_drop ts.length gs
    have hheld := held_of_names hgs
    rw [← hsplit, List.forall_mem_append] at hload
    have hfirst := (ihfirst (List.forall₂_take_append gs ts us hgs) hload.1).1
    have hrest := (ihrest (List.forall₂_drop_append gs ts us hgs) hload.2).2 vs
    rw [← hsplit] at hheld
    have hlist (merged : Option ProjectFile) (seen : List Path) (hseen : Visited w fuel seen) :
        (baseOfList load f.directory merged (v :: vs)).Follows (LeadsAmong w gs) seen w := by
      rw [baseOfList, ← hsplit]
      refine .bind hheld hseen (hfirst seen hseen) fun base seen' hseen' => ?_
      split
      · exact hrest _ rfl seen' hseen'
      · exact hrest _ rfl seen' hseen'
      · exact hrest _ rfl seen' hseen'
    refine ⟨fun seen hseen => ?_, fun vs' merged hvs seen hseen => ?_⟩
    · rw [baseOf]
      exact hlist none seen hseen
    · cases hvs
      exact hlist merged seen hseen

/-- Reading a file follows all ways from it. -/
theorem loadFrom_follows (hf : f.IsReadable w)
    (hn : ∀ is g, f.Leads w is g → g.IsNameable w) (hheld : f.Holds w ∧ f.path.IsNormal)
    (hseen : Visited w fuel seen) : (loadFrom fuel f.path).Follows (f.Leads w) seen w := by
  induction fuel generalizing f seen with
  | zero =>
    obtain ⟨k, hk⟩ := hseen.exists_fuel
    cases hk
  | succ fuel ih =>
    by_cases hnew : f.path ∈ seen
    · exact .inr ⟨f.path, loadFrom_outcome_of_mem hnew fuel w, [], f, .here, rfl, .inl hnew⟩
    · obtain ⟨gs, hb⟩ := hf [] f .here
      obtain ⟨ts, hts, hgs⟩ := hb.named
      have hload : ∀ g ∈ gs, ∀ seen, Visited w fuel seen →
          (loadFrom fuel g.path).Follows (g.Leads w) seen w := by
        intro g hg seen' hseen'
        obtain ⟨i, hi⟩ := List.mem_iff_getElem?.1 hg
        exact ih (hf.of_base hb hg) (fun is h hl => hn (i :: is) h (.base hb hi hl)) (hb.held g hg)
          hseen'
      unfold Follows
      rw [hheld.1.loadFrom_outcome hnew]
      rcases (baseOf_follows hts hgs hload).1 _ (hseen.visit hheld hnew) with
        ⟨base, visited, hbase, hv⟩ | ⟨q, hbase, hc⟩
      · refine .inl ⟨f.onTopOf w base, f.path :: visited, ?_, hv.visit hb hnew⟩
        have hsettings : settingsOf f.path base f.data w = .ok (f.onTopOf w base) :=
          f.settingsOf_eq_ok.2 ⟨hn [] f .here, rfl⟩
        have hlook : (Action.look (settingsOf f.path base f.data)).outcome w =
            (.ok (f.onTopOf w base), w) := by
          rw [Action.outcome_look, hsettings]
          rfl
        rw [outcome_bind_ok hbase, outcome_lift_ok hlook, List.append_assoc,
          List.singleton_append]
      · exact .inr ⟨q, outcome_bind_error hbase _, hc.visit hb⟩

/-- Reading a file follows all ways from it, and it leaves the workspace as it is. -/
theorem load_follows {p : Path} (hf : f.IsReadable w)
    (hn : ∀ is g, f.Leads w is g → g.IsNameable w)
    (hp : (do w.resolve (← w.expandHome p)) = .ok f.path) :
    (∃ s visited, (ProjectFile.load p).outcome w = (.ok s, w) ∧ Visits (f.Leads w) [] visited) ∨
    ∃ q, (ProjectFile.load p).outcome w = (.error (.mistake (.projectCircular q)), w) ∧
      Collides (f.Leads w) [] q := by
  obtain ⟨_, _, hresolve⟩ := exceptBind_eq_ok.1 hp
  obtain ⟨gs, hb⟩ := hf [] f .here
  have hseen : Visited w (w.files.files.length + 2) [] :=
    ⟨List.nodup_nil, List.forall_mem_nil _, by simp⟩
  rw [ProjectFile.load_outcome hp]
  rcases loadFrom_follows hf hn ⟨hb.here, Workspace.resolve_isNormal hresolve⟩ hseen with
    ⟨s, visited, hload, hv⟩ | ⟨q, hload, hc⟩
  · exact .inl ⟨s, visited, by rw [hload]; rfl, hv⟩
  · exact .inr ⟨q, by rw [hload]; rfl, hc⟩

/-- If all files that a project file leads to are there and name their paths properly, then reading
it has an answer or ends with a complaint about a circle, and leaves the workspace as it is. The
complaint is about a file that is reached in two ways: it comes if some file leads to itself again,
and otherwise just if two files that are read have a base in common. -/
theorem load_circular_iff {p : Path} (hf : f.IsReadable w)
    (hn : ∀ is g, f.Leads w is g → g.IsNameable w)
    (hp : (do w.resolve (← w.expandHome p)) = .ok f.path) :
    ((∃ q, (ProjectFile.load p).outcome w = (.error (.mistake (.projectCircular q)), w)) ↔
      f.IsCyclic w ∨ f.SharesBase w) ∧
    ((∃ s, (ProjectFile.load p).outcome w = (.ok s, w)) ↔ ¬f.IsCyclic w ∧ ¬f.SharesBase w) ∧
    ∀ q, (ProjectFile.load p).outcome w = (.error (.mistake (.projectCircular q)), w) →
      ∃ is js h, is ≠ js ∧ f.Leads w is h ∧ f.Leads w js h ∧ h.path = q := by
  rw [← not_or, ← leads_twice_iff]
  rcases load_follows hf hn hp with ⟨s, visited, hload, hv⟩ | ⟨q, hload, is, h, hl, hpath, hagain⟩
  · rw [hload]
    have hone : ¬∃ is js h, is ≠ js ∧ f.Leads w is h ∧ f.Leads w js h := by
      rintro ⟨is, js, h, hne, hi, hj⟩
      exact hne (hv.unique is js h hi hj)
    refine ⟨iff_of_false ?_ hone, iff_of_true ⟨s, rfl⟩ hone, fun q hq => ?_⟩
    · rintro ⟨q, hq⟩
      cases hq
    · cases hq
  · rw [hload]
    obtain ⟨js, hne, hm⟩ := hagain.resolve_left List.not_mem_nil
    have htwo : ∃ is js h, is ≠ js ∧ f.Leads w is h ∧ f.Leads w js h := ⟨js, is, h, hne, hm, hl⟩
    refine ⟨iff_of_true ⟨q, rfl⟩ htwo, iff_of_false ?_ (not_not_intro htwo), fun q' hq => ?_⟩
    · rintro ⟨s, hs⟩
      cases hs
    · cases hq
      exact ⟨js, is, h, hne, hm, hl, hpath⟩

/-- A project file with two bases that extend one file. -/
def branchingText : List Char := "\x7b\"extends\": [\"./b.json\", \"./c.json\"]\x7d".toList

def branchText : List Char := "\x7b\"extends\": \"./d.json\"\x7d".toList

def branchingWorkspace : Workspace := { Workspace.bare with
  files := .dir [("ws", .dir [
    ("tsconfig.json", .file (Bytes.ofChars branchingText)),
    ("b.json", .file (Bytes.ofChars branchText)),
    ("c.json", .file (Bytes.ofChars branchText)),
    ("d.json", .file (Bytes.ofChars "\x7b\x7d".toList))])] }

def branching : WrittenFile :=
  ⟨"/ws/tsconfig.json", .map [(.text "extends", .list [.text "./b.json", .text "./c.json"])]⟩

def branch (name : Text) : WrittenFile :=
  ⟨(⟨.root, ["ws", name]⟩ : Path), .map [(.text "extends", .text "./d.json")]⟩

def sharedBase : WrittenFile := ⟨"/ws/d.json", .map []⟩

theorem sharedBase_bases : sharedBase.Bases branchingWorkspace [] := by
  have hnone : sharedBase.data.get "extends" = .null := rfl
  refine ⟨.of_read "\x7b\x7d".toList [] rfl ?_ rfl, [], ?_, .nil⟩
  · cbv
  · rw [hnone]
    exact .other rfl fun t h => by cases h

theorem branch_bases {name : Text} (h : name ∈ ([("b.json" : Text), ("c.json" : Text)])) :
    (branch name).Bases branchingWorkspace [sharedBase] := by
  have hread : branchingWorkspace.read (branch name).path = .ok (Bytes.ofChars branchText) := by
    rcases List.mem_pair.1 h with rfl | rfl <;> rfl
  have hfound : baseFile branchingWorkspace (branch name).directory "./d.json" =
      .ok sharedBase.path := by
    rcases List.mem_pair.1 h with rfl | rfl <;> rfl
  refine ⟨.of_read branchText [("extends", .string "./d.json")] hread ?_ rfl,
    ["./d.json"], .relative rfl, .cons ⟨hfound, sharedBase_bases.here⟩ .nil⟩
  cbv

theorem branching_bases :
    branching.Bases branchingWorkspace [branch "b.json", branch "c.json"] := by
  have hb : (branch "b.json").Bases branchingWorkspace [sharedBase] := branch_bases (by decide)
  have hc : (branch "c.json").Bases branchingWorkspace [sharedBase] := branch_bases (by decide)
  refine ⟨.of_read branchingText
    [("extends", .array [.string "./b.json", .string "./c.json"])] rfl ?_ rfl,
    ["./b.json", "./c.json"], ?_, .cons ⟨rfl, hb.here⟩ (.cons ⟨rfl, hc.here⟩ .nil)⟩
  · cbv
  · have hfirst : (Value.text "./b.json").NamesBases ["./b.json"] := .relative rfl
    have hsecond : (Value.text "./c.json").NamesBases ["./c.json"] := .relative rfl
    exact .cons hfirst (.cons hsecond .none)

theorem leads_sharedBase {is : List Nat} {h : WrittenFile}
    (hl : sharedBase.Leads branchingWorkspace is h) : is = [] ∧ h = sharedBase := by
  cases hl with
  | here => exact ⟨rfl, rfl⟩
  | base bases found _ =>
    obtain rfl := bases.unique sharedBase_bases
    cases found

theorem leads_branch {name : Text} (hname : name ∈ [("b.json" : Text), ("c.json" : Text)])
    {is : List Nat} {h : WrittenFile} (hl : (branch name).Leads branchingWorkspace is h) :
    is = [] ∧ h = branch name ∨ h = sharedBase := by
  cases hl with
  | here => exact .inl ⟨rfl, rfl⟩
  | base bases found rest =>
    obtain rfl := bases.unique (branch_bases hname)
    obtain rfl := List.mem_singleton.1 (List.mem_of_getElem? found)
    exact .inr (leads_sharedBase rest).2

theorem leads_branching {is : List Nat} {h : WrittenFile}
    (hl : branching.Leads branchingWorkspace is h) :
    is = [] ∧ h = branching ∨ h = branch "b.json" ∨ h = branch "c.json" ∨ h = sharedBase := by
  cases hl with
  | here => exact .inl ⟨rfl, rfl⟩
  | base bases found rest =>
    obtain rfl := bases.unique branching_bases
    rcases List.mem_pair.1 (List.mem_of_getElem? found) with rfl | rfl
    · rcases leads_branch (by decide) rest with ⟨_, rfl⟩ | rfl <;> simp
    · rcases leads_branch (by decide) rest with ⟨_, rfl⟩ | rfl <;> simp

/-- Two bases share a file and none leads back, and still reading complains about a circle. -/
theorem load_circular_branching : ¬branching.IsCyclic branchingWorkspace ∧
    ∃ q, (ProjectFile.load "tsconfig.json").outcome branchingWorkspace =
      (.error (.mistake (.projectCircular q)), branchingWorkspace) := by
  have hb : (branch "b.json").Bases branchingWorkspace [sharedBase] := branch_bases (by decide)
  have hc : (branch "c.json").Bases branchingWorkspace [sharedBase] := branch_bases (by decide)
  have hreadable : branching.IsReadable branchingWorkspace := by
    intro is g hg
    rcases leads_branching hg with ⟨_, rfl⟩ | rfl | rfl | rfl
    · exact ⟨_, branching_bases⟩
    · exact ⟨_, hb⟩
    · exact ⟨_, hc⟩
    · exact ⟨_, sharedBase_bases⟩
  have hnameable : ∀ is g, branching.Leads branchingWorkspace is g →
      g.IsNameable branchingWorkspace := by
    intro is g hg
    have hnone : g.outPath = none ∧ g.filePaths = none := by
      rcases leads_branching hg with ⟨_, rfl⟩ | rfl | rfl | rfl <;> exact ⟨rfl, rfl⟩
    exact ⟨by simp [hnone.1], by simp [hnone.2]⟩
  have hacyclic : ¬branching.IsCyclic branchingWorkspace := by
    rintro ⟨is, js, h, hl, hne, hback⟩
    have hpath {g g' : WrittenFile} (hp : g.path ≠ g'.path) : g ≠ g' := fun heq => hp (heq ▸ rfl)
    rcases leads_branching hl with ⟨_, rfl⟩ | rfl | rfl | rfl
    · rcases leads_branching hback with ⟨hnil, _⟩ | h | h | h
      · exact hne hnil
      · exact hpath (by decide) h
      · exact hpath (by decide) h
      · exact hpath (by decide) h
    · rcases leads_branch (by decide) hback with ⟨hnil, _⟩ | h
      · exact hne hnil
      · exact hpath (by decide) h
    · rcases leads_branch (by decide) hback with ⟨hnil, _⟩ | h
      · exact hne hnil
      · exact hpath (by decide) h
    · exact hne (leads_sharedBase hback).1
  have hshared : branching.SharesBase branchingWorkspace :=
    ⟨[0, 0], [1, 0], sharedBase, by decide, by decide,
      .base branching_bases rfl (.base hb rfl .here),
      .base branching_bases rfl (.base hc rfl .here)⟩
  exact ⟨hacyclic, (load_circular_iff hreadable hnameable rfl).1.2 (.inr hshared)⟩

end CustomElements
