import CustomElements.Proofs.Generation.BroughtFiles
import CustomElements.Proofs.Generation.UnreadArtifacts

/-!
# The order of the elements

The elements of a configuration may stand in any order as long as each class name that stands alone
finds the same files at its turn. Then a run succeeds in one order exactly if it does in the other,
and every element has the same component. The condition is exact: two runs that succeed and agree on
all components fulfil it.
-/

namespace CustomElements

open CustomElements.Action Workspace

variable {w u v : Workspace} {e d : ElementEntry} {es es' before before' : List ElementEntry}
variable {k k' : Component} {f : SourceFile} {fs : List SourceFile} {name : Text}

section Turns

/-- The entry becomes this component if these entries come before it. -/
def ElementEntry.Becomes (e : ElementEntry) (w : Workspace) (before : List ElementEntry)
    (k : Component) : Prop :=
  ∃ fs, Brought w before fs ∧ ((componentOf e).outcome (w.withSources fs)).1 = .ok k

/-- In both orders the same files that declare a class are brought before an entry that is the name
of the class alone. -/
def SameSights (w : Workspace) (es es' : List ElementEntry) : Prop :=
  ∀ e name f, e.IsBare name → f.declares name →
    ((∃ d, List.Sublist [d, e] es ∧ d.Brings w f) ↔ ∃ d, List.Sublist [d, e] es' ∧ d.Brings w f)

theorem SameSights.symm (h : SameSights w es es') : SameSights w es' es :=
  fun e name f hbare hf => (h e name f hbare hf).symm

/-- The sights are the same if all that brings a file with a class of the name of an entry is before
the entry in both orders. -/
theorem SameSights.of_before (hperm : es.Perm es')
    (h : ∀ e ∈ es, ∀ d ∈ es, ∀ name f, e.IsBare name → d.Brings w f → f.declares name →
      List.Sublist [d, e] es ∧ List.Sublist [d, e] es') : SameSights w es es' := by
  have hmem {ds : List ElementEntry} {d e : ElementEntry} (hd : List.Sublist [d, e] ds) :
      d ∈ ds ∧ e ∈ ds := ⟨hd.subset List.mem_cons_self, hd.subset (List.mem_cons_of_mem _
        List.mem_cons_self)⟩
  intro e name f hbare hf
  constructor
  · rintro ⟨d, hd, hbrings⟩
    exact ⟨d, (h e (hmem hd).2 d (hmem hd).1 name f hbare hbrings hf).2, hbrings⟩
  · rintro ⟨d, hd, hbrings⟩
    have hbefore := h e (hperm.mem_iff.2 (hmem hd).2) d (hperm.mem_iff.2 (hmem hd).1)
    exact ⟨d, (hbefore name f hbare hbrings hf).1, hbrings⟩

/-- In a list without repetitions, what is before an element is in front of its only place. -/
theorem sublist_pair_iff {front back : List ElementEntry} (hn : es.Nodup)
    (hsplit : es = front ++ e :: back) : List.Sublist [d, e] es ↔ d ∈ front := by
  subst hsplit
  constructor
  · intro h
    induction front with
    | nil =>
      have hmem : e ∈ back := by
        cases h with
        | cons _ h => exact h.subset (List.mem_cons_of_mem _ List.mem_cons_self)
        | cons_cons _ h => exact h.subset List.mem_cons_self
      exact absurd hmem (List.nodup_cons.1 hn).1
    | cons x front ih =>
      cases h with
      | cons _ h => exact List.mem_cons_of_mem _ (ih (List.nodup_cons.1 hn).2 h)
      | cons_cons _ h => exact List.mem_cons_self
  · intro h
    exact (List.singleton_sublist.2 h).append (List.singleton_sublist.2 List.mem_cons_self)

theorem becomes_iff (h : Brought w before fs) :
    e.Becomes w before k ↔ ((componentOf e).outcome (w.withSources fs)).1 = .ok k := by
  constructor
  · rintro ⟨fs', h', hk⟩
    rw [componentOf_brought h h' fun _ f _ _ => (h.mem f).trans (h'.mem f).symm]
    exact hk
  · exact fun hk => ⟨fs, h, hk⟩

theorem becomes_congr
    (h : ∀ name f, e.IsBare name → f.declares name →
      ((∃ d ∈ before, d.Brings w f) ↔ ∃ d ∈ before', d.Brings w f)) :
    e.Becomes w before k ↔ e.Becomes w before' k := by
  obtain ⟨fs, hfs⟩ := Brought.exists_brought w before
  obtain ⟨fs', hfs'⟩ := Brought.exists_brought w before'
  rw [becomes_iff hfs, becomes_iff hfs', componentOf_brought hfs hfs' fun name f hbare hf => ?_]
  rw [hfs.mem, hfs'.mem]
  exact h name f hbare hf

/-- The components of a loop are those that its entries become at their turns. -/
theorem mapM_componentOf_iff (hlog : w.logFile = none) (hb : Brought w before fs)
    (hu : ApartFromLog (w.withSources fs) u) (assign : ElementEntry → Component) :
    (∃ u', (es.mapM componentOf).outcome u = (.ok (es.map assign), u')) ↔
      ∀ front e back, es = front ++ e :: back → e.Becomes w (before ++ front) (assign e) := by
  induction es generalizing before fs u with
  | nil =>
    refine iff_of_true ⟨u, rfl⟩ fun front e back h => ?_
    cases front <;> cases h
  | cons e es ih =>
    have hanswer : ((componentOf e).outcome u).1 = ((componentOf e).outcome (w.withSources fs)).1 :=
      ((componentOf_ignoresLog e) _ _ hu).1.eq.symm
    have hleft : ApartFromLog ((componentOf e).outcome (w.withSources fs)).2
        ((componentOf e).outcome u).2 := ((componentOf_ignoresLog e) _ _ hu).2
    have hrest {u' : Workspace} (he : (componentOf e).outcome u = (.ok (assign e), u')) :
        (∃ u'', (es.mapM componentOf).outcome u' = (.ok (es.map assign), u'')) ↔
          ∀ front d back, es = front ++ d :: back →
            d.Becomes w (before ++ [e] ++ front) (assign d) := by
      rw [he] at hanswer hleft
      have hfirst : (componentOf e).outcome (w.withSources fs) =
          (.ok (assign e), ((componentOf e).outcome (w.withSources fs)).2) :=
        Prod.ext hanswer.symm rfl
      obtain ⟨fs', hfs', hapart⟩ := componentOf_concat hlog hb hfirst
      exact ih hfs' (hapart.trans hleft)
    rw [List.mapM_cons]
    constructor
    · rintro ⟨u'', h⟩ front d back hsplit
      obtain ⟨k, u', he, h⟩ := outcome_bind_eq_ok.1 h
      obtain ⟨ks, u'', hks, h⟩ := outcome_bind_eq_ok.1 h
      obtain ⟨rfl, rfl⟩ := List.cons.inj (Except.ok.inj (Prod.mk.inj h).1)
      cases front with
      | nil =>
        obtain ⟨rfl, rfl⟩ := List.cons.inj hsplit
        rw [List.append_nil, becomes_iff hb, ← hanswer, he]
      | cons x front =>
        obtain ⟨rfl, rfl⟩ := List.cons.inj hsplit
        rw [List.append_cons]
        exact (hrest he).1 ⟨u'', hks⟩ front d back rfl
    · intro h
      have he := h [] e es rfl
      rw [List.append_nil, becomes_iff hb, ← hanswer] at he
      have hrun : (componentOf e).outcome u = (.ok (assign e), ((componentOf e).outcome u).2) :=
        Prod.ext he rfl
      obtain ⟨u', hu'⟩ := (hrest hrun).2 fun front d back hsplit => by
        have hd := h (e :: front) d back (congrArg _ hsplit)
        rwa [List.append_cons] at hd
      rw [outcome_bind_ok hrun, outcome_bind_ok hu']
      exact ⟨u', rfl⟩

/-- In another order with the same sights the loop makes the same components. -/
theorem mapM_componentOf_perm (hlog : w.logFile = none) (hu : ApartFromLog w u)
    (hv : ApartFromLog w v) (hperm : es.Perm es') (hn : es.Nodup) (hs : SameSights w es es')
    {assign : ElementEntry → Component}
    (h : ∃ u', (es.mapM componentOf).outcome u = (.ok (es.map assign), u')) :
    ∃ v', (es'.mapM componentOf).outcome v = (.ok (es'.map assign), v') := by
  rw [← withSources_nil w] at hu hv
  rw [mapM_componentOf_iff hlog (Brought.nil w) hu] at h
  rw [mapM_componentOf_iff hlog (Brought.nil w) hv]
  intro front' e back' hsplit'
  have hmem : e ∈ es := hperm.mem_iff.2 (hsplit' ▸ List.mem_append_right _ List.mem_cons_self)
  obtain ⟨front, back, hsplit⟩ := List.append_of_mem hmem
  refine (becomes_congr fun name f hbare hf => ?_).1 (h front e back hsplit)
  have hsight := hs e name f hbare hf
  simp only [sublist_pair_iff hn hsplit, sublist_pair_iff (hperm.nodup_iff.1 hn) hsplit'] at hsight
  exact hsight

/-- A class name alone becomes the component of the only class of this name. -/
theorem componentOf_bare_eq_ok (hbare : e.IsBare name)
    (h : ((componentOf e).outcome u).1 = .ok k) :
    ∃ c, u.project.named name = [c] ∧ k.file = c.file.path := by
  rw [componentOf_eq, hbare] at h
  change ((Project.resolve ⟨name, none⟩ >>= describe e ⟨name, none⟩).outcome u).1 = .ok k at h
  have hresolved := resolve_bare_outcome name u
  generalize u.project.named name = cs at hresolved
  rcases cs with _ | ⟨c, _ | ⟨c', cs⟩⟩
  · rw [outcome_bind_error hresolved] at h
    cases h
  · rw [outcome_bind_ok hresolved] at h
    refine ⟨c, rfl, ?_⟩
    obtain ⟨members, v, -, hk⟩ := outcome_bind_eq_ok.1 (Prod.ext h rfl :
      (describe e ⟨name, none⟩ c).outcome u = (.ok k, _))
    obtain ⟨_, v', -, hend⟩ := outcome_bind_eq_ok.1 hk
    cases hend
    rfl
  · rw [outcome_bind_error hresolved] at h
    cases h

/-- The file that declares the name of an entry is brought before the entry in every order in which
the entry becomes the same component. -/
theorem brought_of_becomes (hbare : e.IsBare name) (hf : f.declares name)
    (hk : e.Becomes w before k) (hk' : e.Becomes w before' k) (hd : ∃ d ∈ before, d.Brings w f) :
    ∃ d ∈ before', d.Brings w f := by
  obtain ⟨fs, hfs, hone⟩ := hk
  obtain ⟨fs', hfs', hone'⟩ := hk'
  obtain ⟨c, hc, hfile⟩ := componentOf_bare_eq_ok hbare hone
  obtain ⟨c', hc', hfile'⟩ := componentOf_bare_eq_ok hbare hone'
  have hmem : f ∈ fs := (hfs.mem f).2 hd
  obtain ⟨d, -, hd⟩ := hd
  -- the class of the first run is the one that `f` declares
  have hclass : f = c.file := by
    obtain ⟨declared, hdeclared, hname⟩ := List.any_eq_true.1 hf
    have hfound : (⟨f, declared⟩ : LocatedClass) ∈ (w.withSources fs).project.named name :=
      List.mem_filter.2 ⟨Project.mem_classes.2 ⟨List.mem_append_right _ hmem, hdeclared⟩, hname⟩
    rw [hc] at hfound
    exact congrArg LocatedClass.file (List.mem_singleton.1 hfound)
  have hloaded : c'.file ∈ w.project.files ++ fs' := by
    have hfound : c' ∈ (w.withSources fs').project.named name := hc' ▸ List.mem_singleton_self c'
    exact (Project.mem_classes.1 (List.mem_of_mem_filter hfound)).1
  have hpath : f.path = c'.file.path := by rw [hclass, ← hfile, hfile']
  rcases List.mem_append.1 hloaded with hold | hnew
  · exact absurd (decide_eq_true hpath.symm) (List.find?_eq_none.1 hd.unloaded _ hold)
  · obtain ⟨d', hd', hbrings⟩ := (hfs'.mem _).1 hnew
    exact ⟨d', hd', hd.eq_of_path hbrings hpath ▸ hbrings⟩

/-- Loops in two orders that make the same components have the same sights. -/
theorem sameSights_of_mapM (hlog : w.logFile = none) (hu : ApartFromLog w u)
    (hv : ApartFromLog w v) (hperm : es.Perm es') (hn : es.Nodup)
    {assign : ElementEntry → Component}
    (h : ∃ u', (es.mapM componentOf).outcome u = (.ok (es.map assign), u'))
    (h' : ∃ v', (es'.mapM componentOf).outcome v = (.ok (es'.map assign), v')) :
    SameSights w es es' := by
  rw [← withSources_nil w] at hu hv
  rw [mapM_componentOf_iff hlog (Brought.nil w) hu] at h
  rw [mapM_componentOf_iff hlog (Brought.nil w) hv] at h'
  intro e name f hbare hf
  by_cases hmem : e ∈ es
  · obtain ⟨front, back, hsplit⟩ := List.append_of_mem hmem
    obtain ⟨front', back', hsplit'⟩ := List.append_of_mem (hperm.mem_iff.1 hmem)
    have hbefore := h front e back hsplit
    have hbefore' := h' front' e back' hsplit'
    simp only [sublist_pair_iff hn hsplit, sublist_pair_iff (hperm.nodup_iff.1 hn) hsplit']
    exact ⟨brought_of_becomes hbare hf hbefore hbefore',
      brought_of_becomes hbare hf hbefore' hbefore⟩
  · have hlast (es : List ElementEntry) (d : ElementEntry) (hd : List.Sublist [d, e] es) : e ∈ es :=
      hd.subset (List.mem_cons_of_mem _ List.mem_cons_self)
    constructor
    · exact fun ⟨d, hd, _⟩ => absurd (hlast _ d hd) hmem
    · exact fun ⟨d, hd, _⟩ => absurd (hperm.mem_iff.2 (hlast _ d hd)) hmem

/-- What is made of the elements of a list without repetitions is a function of the elements. -/
theorem exists_assign {ks : List Component} (hn : es.Nodup) (hlength : es.length = ks.length) :
    ∃ assign, ks = es.map assign := by
  induction es generalizing ks with
  | nil =>
    obtain rfl := List.length_eq_zero_iff.1 hlength.symm
    exact ⟨fun e => ⟨e.tag, [], "", []⟩, rfl⟩
  | cons e es ih =>
    obtain ⟨k, ks, rfl⟩ := List.exists_cons_of_length_eq_add_one hlength.symm
    obtain ⟨he, hn⟩ := List.nodup_cons.1 hn
    obtain ⟨assign, rfl⟩ := ih hn (Nat.succ.inj hlength)
    refine ⟨fun d => if d = e then k else assign d, ?_⟩
    rw [List.map_cons, if_pos rfl]
    refine congrArg _ (List.map_congr_left fun d hd => ?_)
    rw [if_neg fun heq : d = e => he (heq ▸ hd)]

end Turns

section Lists

/-- The same elements in another order. -/
inductive Rearranged : Value → Value → Prop
  | list {vs vs' : List Value} (h : vs.Perm vs') : Rearranged (.list vs) (.list vs')
  | map {ps ps' : List (Value × Value)} (h : ps.Perm ps') : Rearranged (.map ps) (.map ps')

theorem Rearranged.symm {x y : Value} (h : Rearranged x y) : Rearranged y x := by
  cases h with
  | list h => exact .list h.symm
  | map h => exact .map h.symm

theorem elementPairs_rearranged {x y : Value} (h : Rearranged x y) {ps : List (Value × Value)}
    (hps : elementPairs x = .ok ps) : ∃ qs, elementPairs y = .ok qs ∧ ps.Perm qs := by
  cases h with
  | list h =>
    obtain ⟨qs, hqs, hperm⟩ := List.perm_comp_forall₂ h.symm (exceptMapM_eq_ok.1 hps)
    exact ⟨qs, exceptMapM_eq_ok.2 hqs, hperm.symm⟩
  | map h =>
    obtain rfl := Except.ok.inj hps
    exact ⟨_, rfl, h⟩

theorem elementEntries_nodup {x : Value} (h : elementEntries x = .ok es) : es.Nodup := by
  obtain ⟨_, -, hread⟩ := exceptBind_eq_ok.1 h
  exact (entriesFrom_eq_ok_iff.1 hread).distinct.of_map _

/-- Elements in another order are the same entries in another order, and wrong ones are wrong in
every order. -/
theorem elementEntries_rearranged {x y : Value} (h : Rearranged x y)
    (hes : elementEntries x = .ok es) : ∃ es', elementEntries y = .ok es' ∧ es.Perm es' := by
  obtain ⟨ps, hps, hread⟩ := exceptBind_eq_ok.1 hes
  obtain ⟨qs, hqs, hperm⟩ := elementPairs_rearranged h hps
  obtain ⟨rfl, hfilled, hn⟩ := entriesFrom_eq_ok_iff.1 hread
  have hpairs : List.Forall₂ (fun p e => p = ElementEntry.pair e) (es.map ElementEntry.pair) es :=
    List.forall₂_map_left_iff.2 (List.forall₂_same.2 fun _ _ => rfl)
  obtain ⟨es', hes', hperm'⟩ := List.perm_comp_forall₂ hperm.symm hpairs
  have hqs' : qs = es'.map ElementEntry.pair :=
    List.forall₂_eq_eq_eq ▸ List.forall₂_map_right_iff.2 hes'
  refine ⟨es', ?_, hperm'.symm⟩
  rw [elementEntries, hqs]
  exact entriesFrom_eq_ok_iff.2 ⟨hqs', fun e he => hfilled e (hperm'.mem_iff.1 he),
    (hperm'.map _).nodup_iff.2 hn⟩

end Lists

section Run

variable {builder : Builder} {c : Configuration} {outputs : List Text}
variable {target : Option BuildTarget} {r r' : GenerationResult} {left left' : Workspace}
variable {x y : Value} {assign : ElementEntry → Component}

/-- The configuration with these elements. -/
def Configuration.withElements (c : Configuration) (x : Value) : Configuration :=
  { c with elements := some x }

/-- The class names that stand alone have the same sights in both orders, once the sources of the
configuration are loaded. -/
def Configuration.SeesAlike (c : Configuration) (w : Workspace) (x y : Value) : Prop :=
  ∀ es es', elementEntries x = .ok es → elementEntries y = .ok es' →
    SameSights ((loadSources c).outcome w).2 es es'

theorem Configuration.SeesAlike.symm (h : c.SeesAlike w x y) : c.SeesAlike w y x :=
  fun es es' hes hes' => (h es' es hes' hes).symm

theorem emit_components {p : Preparation}
    (h : (emit builder c p).outcome w = (.ok r, left)) : r.components = p.components := by
  obtain ⟨outDir, v₁, -, h⟩ := outcome_bind_eq_ok.1 h
  obtain ⟨manifestPath, v₂, -, h⟩ := outcome_bind_eq_ok.1 h
  obtain ⟨typesPath, v₃, -, h⟩ := outcome_bind_eq_ok.1 h
  obtain ⟨result, v₄, hloop, h⟩ := outcome_bind_eq_ok.1 h
  obtain ⟨_, v₅, -, h⟩ := outcome_bind_eq_ok.1 h
  cases h
  exact foldlM_writeOutput_components hloop

/-- A run with an answer has components and emits them. -/
theorem runFrom_eq_ok : (runFrom builder c outputs target es).outcome w = (.ok r, left) ↔
    ∃ ks v, (es.mapM componentOf).outcome (w.note ⟨.info, loggerRoot ++ "orchestrator",
        "Analyzing " ++ Text.ofNat es.length ++ " component(s)"⟩) = (.ok ks, v) ∧
      (emit builder c ⟨outputs, target, ks⟩).outcome v = (.ok r, left) := by
  rw [runFrom, outcome_bind_ok (outcome_record _ _ _ _), outcome_bind_eq_ok]

/-- What a run does before it comes to its elements. -/
structure Started (c : Configuration) (w : Workspace) (outputs : List Text)
    (target : Option BuildTarget) (loaded : Workspace) : Prop where
  requested : requestedOutputs [] c.outputs = .ok outputs
  parsed : (nonempty? c.build.target).mapM BuildTarget.parse = .ok target
  checked : checkTarget outputs target = .ok ()
  loads : (loadSources c).outcome w = (.ok ⟨⟩, loaded)

theorem generate_withElements_eq_ok :
    (generate builder (c.withElements x)).outcome w = (.ok r, left) ↔
      ∃ outputs target loaded es, Started c w outputs target loaded ∧ elementEntries x = .ok es ∧
        (runFrom builder c outputs target es).outcome loaded = (.ok r, left) := by
  have hlisted : (c.withElements x).elements.mapM elementEntries = some <$> elementEntries x := rfl
  rw [generate_eq, hlisted]
  simp only [outcome_bind_eq_ok, outcome_ofMistakes_eq_ok, exceptMap_eq_ok]
  constructor
  · rintro ⟨outputs, _, ⟨houtputs, rfl⟩, target, _, ⟨htarget, rfl⟩, _, _, ⟨hchecked, rfl⟩, _, _,
      ⟨⟨es, hes, rfl⟩, rfl⟩, _, loaded, hloaded, _, _, hentries, hrun⟩
    cases hentries
    exact ⟨outputs, target, loaded, es, ⟨houtputs, htarget, hchecked, hloaded⟩, hes, hrun⟩
  · rintro ⟨outputs, target, loaded, es, h, hes, hrun⟩
    exact ⟨outputs, w, ⟨h.requested, rfl⟩, target, w, ⟨h.parsed, rfl⟩, ⟨⟩, w, ⟨h.checked, rfl⟩,
      some es, w, ⟨⟨es, hes, rfl⟩, rfl⟩, ⟨⟩, loaded, h.loads, es, loaded, rfl, hrun⟩

/-- In another order with the same sights a run has the same result but for the order of the
components. -/
theorem runFrom_perm (hlog : w.logFile = none) (hn : outputs.Nodup)
    (hb : browserOutput ∈ outputs → builder.IgnoresArtifacts) (hperm : es.Perm es')
    (hes : es.Nodup) (hs : SameSights w es es')
    (h : (runFrom builder c outputs target es).outcome w = (.ok r, left)) :
    ∃ assign left', (∀ e ∈ es, (assign e).tag = e.tag) ∧ r.components = es.map assign ∧
      (runFrom builder c outputs target es').outcome w =
        (.ok { r with components := es'.map assign }, left') := by
  obtain ⟨ks, v, hks, hemit⟩ := runFrom_eq_ok.1 h
  have hmade := outcome_listMapM_eq_ok hks
  obtain ⟨assign, rfl⟩ := exists_assign hes hmade.length_eq
  have htags : ∀ e ∈ es, (assign e).tag = e.tag := by
    rw [List.forall₂_map_right_iff, List.forall₂_same] at hmade
    intro e he
    obtain ⟨_, _, hk⟩ := hmade e he
    exact tag_of_componentOf hk
  have hstart (r : LogRecord) : ApartFromLog w (w.note r) := ApartFromLog.note hlog r
  obtain ⟨v', hks'⟩ := mapM_componentOf_perm hlog (hstart _) (hstart _) hperm hes hs ⟨v, hks⟩
  have hlooks (ds : List ElementEntry) {r : LogRecord} {ks : List Component} {v : Workspace}
      (h : (ds.mapM componentOf).outcome (w.note r) = (.ok ks, v)) : Undisturbed w v := by
    have hleaves := (Within.listMapM componentOf_onlyLooks ds).leaves (w.note r)
    rw [h] at hleaves
    exact trans_of Undisturbed (Reported.undisturbed ⟨[r], rfl⟩) hleaves
  have halike : AlikeButArtifacts v v' :=
    Alike.of_undisturbed hlog (hlooks es hks) (hlooks es' hks')
  obtain ⟨hend, -⟩ := emit_perm (c := c) hn hb (hperm.map assign) target v v' halike
  rw [hemit] at hend
  generalize hemit' : (emit builder c ⟨outputs, target, es'.map assign⟩).outcome v' = a at hend
  obtain ⟨a, left'⟩ := a
  cases hend with
  | answer hr =>
    obtain ⟨hcomponents, rfl⟩ := hr
    exact ⟨assign, left', htags, hcomponents, runFrom_eq_ok.2 ⟨_, v', hks', hemit'⟩⟩

/-- Two runs that make the same components of their elements have the same sights. -/
theorem sameSights_of_runFrom (hlog : w.logFile = none) (hperm : es.Perm es') (hes : es.Nodup)
    (h : (runFrom builder c outputs target es).outcome w = (.ok r, left))
    (h' : (runFrom builder c outputs target es').outcome w = (.ok r', left'))
    (hr : r.components = es.map assign) (hr' : r'.components = es'.map assign) :
    SameSights w es es' := by
  obtain ⟨ks, v, hks, hemit⟩ := runFrom_eq_ok.1 h
  obtain ⟨ks', v', hks', hemit'⟩ := runFrom_eq_ok.1 h'
  obtain rfl : es.map assign = ks := hr.symm.trans (emit_components hemit)
  obtain rfl : es'.map assign = ks' := hr'.symm.trans (emit_components hemit')
  have hstart (r : LogRecord) : ApartFromLog w (w.note r) := ApartFromLog.note hlog r
  exact sameSights_of_mapM hlog (hstart _) (hstart _) hperm hes ⟨v, hks⟩ ⟨v', hks'⟩

theorem Started.outputs_eq {loaded : Workspace} (h : Started c w outputs target loaded) :
    outputs = c.outputs.eraseDups := by
  rw [(requestedOutputs_eq_ok.1 h.requested).2]
  simp

theorem Started.unique {outputs' : List Text} {target' : Option BuildTarget}
    {loaded loaded' : Workspace} (h : Started c w outputs target loaded)
    (h' : Started c w outputs' target' loaded') :
    outputs' = outputs ∧ target' = target ∧ loaded' = loaded :=
  ⟨Except.ok.inj (h'.requested.symm.trans h.requested),
    Except.ok.inj (h'.parsed.symm.trans h.parsed),
    (Prod.mk.inj (h'.loads.symm.trans h.loads)).2⟩

/-- A run with an answer has the same answer in another order with the same sights. -/
theorem generate_perm (hx : Rearranged x y) (hlog : w.logFile = none)
    (hb : browserOutput ∈ c.outputs → builder.IgnoresArtifacts) (hs : c.SeesAlike w x y)
    (h : (generate builder (c.withElements x)).outcome w = (.ok r, left)) :
    ∃ es es' assign left', elementEntries x = .ok es ∧ elementEntries y = .ok es' ∧
      (∀ e ∈ es, (assign e).tag = e.tag) ∧ r.components = es.map assign ∧
      (generate builder (c.withElements y)).outcome w =
        (.ok { r with components := es'.map assign }, left') := by
  obtain ⟨outputs, target, loaded, es, hstarted, hes, hrun⟩ := generate_withElements_eq_ok.1 h
  obtain ⟨es', hes', hperm⟩ := elementEntries_rearranged hx hes
  have hsights := hs es es' hes hes'
  have houtputs := hstarted.outputs_eq
  have hn : outputs.Nodup := houtputs ▸ nodup_eraseDups c.outputs
  have hb' : browserOutput ∈ outputs → builder.IgnoresArtifacts := fun hk =>
    hb (List.mem_eraseDups.1 (houtputs ▸ hk))
  rw [hstarted.loads] at hsights
  obtain ⟨assign, left', htags, hcomponents, hrun'⟩ := runFrom_perm
    ((loadSources_logFile hstarted.loads).trans hlog) hn hb' hperm (elementEntries_nodup hes)
    hsights hrun
  exact ⟨es, es', assign, left', hes, hes', htags, hcomponents,
    generate_withElements_eq_ok.2 ⟨outputs, target, loaded, es', hstarted, hes', hrun'⟩⟩

/--
Runs that have the same elements in different orders. If the class names that stand alone have the
same sights in both orders, then one run has an answer exactly if the other one has. Two answers
tell the same but for the order of the components, with one component for each element, exactly if
these sights are the same.
-/
theorem generate_rearranged (hx : Rearranged x y) (hlog : w.logFile = none)
    (hb : browserOutput ∈ c.outputs → builder.IgnoresArtifacts) :
    (c.SeesAlike w x y →
      (((generate builder (c.withElements x)).outcome w).1.toOption.isSome ↔
        ((generate builder (c.withElements y)).outcome w).1.toOption.isSome)) ∧
    ∀ r r' left left', (generate builder (c.withElements x)).outcome w = (.ok r, left) →
      (generate builder (c.withElements y)).outcome w = (.ok r', left') →
      (c.SeesAlike w x y ↔ ∃ es es' assign, elementEntries x = .ok es ∧ elementEntries y = .ok es' ∧
        (∀ e ∈ es, (assign e).tag = e.tag) ∧ r.components = es.map assign ∧
        r' = { r with components := es'.map assign }) := by
  have hiff {x y : Value} (hx : Rearranged x y) (hs : c.SeesAlike w x y)
      (h : ((generate builder (c.withElements x)).outcome w).1.toOption.isSome) :
      ((generate builder (c.withElements y)).outcome w).1.toOption.isSome := by
    obtain ⟨r, left, h⟩ := exists_outcome_of_isSome h
    obtain ⟨_, _, _, _, -, -, -, -, h'⟩ := generate_perm hx hlog hb hs h
    rw [h']
    rfl
  refine ⟨fun hs => ⟨hiff hx hs, hiff hx.symm hs.symm⟩, fun r r' left left' h h' => ⟨?_, ?_⟩⟩
  · intro hs
    obtain ⟨es, es', assign, _, hes, hes', htags, hr, hother⟩ := generate_perm hx hlog hb hs h
    rw [h'] at hother
    exact ⟨es, es', assign, hes, hes', htags, hr, Except.ok.inj (Prod.mk.inj hother).1⟩
  · rintro ⟨es, es', assign, hes, hes', -, hr, hr'⟩ ds ds' hds hds'
    obtain rfl := Except.ok.inj (hes.symm.trans hds)
    obtain rfl := Except.ok.inj (hes'.symm.trans hds')
    obtain ⟨outputs, target, loaded, _, hstarted, hread, hrun⟩ := generate_withElements_eq_ok.1 h
    obtain ⟨_, _, _, _, hstarted', hread', hrun'⟩ := generate_withElements_eq_ok.1 h'
    obtain ⟨rfl, rfl, rfl⟩ := hstarted.unique hstarted'
    obtain rfl := Except.ok.inj (hes.symm.trans hread)
    obtain rfl := Except.ok.inj (hes'.symm.trans hread')
    obtain ⟨_, hother, hperm⟩ := elementEntries_rearranged hx hes
    obtain rfl := Except.ok.inj (hes'.symm.trans hother)
    rw [hstarted.loads]
    exact sameSights_of_runFrom ((loadSources_logFile hstarted.loads).trans hlog) hperm
      (elementEntries_nodup hes) hrun hrun' hr (hr' ▸ rfl)

/-- The list of these elements. -/
def listOf (es : List ElementEntry) : Value := .list (es.map ElementEntry.listed)

/-- An element of a class with its file, one of the class by its name alone, and one of another
file. -/
def pathEntry : ElementEntry := ⟨"x-a", "a.ts#A"⟩

def nameEntry : ElementEntry := ⟨"x-b", "A"⟩

def otherEntry : ElementEntry := ⟨"x-c", "b.ts#B"⟩

/-- Two files with a class each, neither of which is loaded from the start. -/
def twoFiles : Workspace :=
  { Workspace.bare with
    files := .dir [("ws", .dir [("a.ts", classFile),
      ("b.ts", .file (.ofChars "class B\x7b\x7d".toList))])] }

/-- A request for the manifest. -/
def plainRequest : Configuration where
  root := "/ws"

theorem generate_rearranged_twoFiles : ∃ r r' left left' assign,
    (generate failingBuilder (plainRequest.withElements
      (listOf [pathEntry, nameEntry, otherEntry]))).outcome twoFiles = (.ok r, left) ∧
    (generate failingBuilder (plainRequest.withElements
      (listOf [otherEntry, pathEntry, nameEntry]))).outcome twoFiles = (.ok r', left') ∧
    r.components = [pathEntry, nameEntry, otherEntry].map assign ∧
    r'.components = [otherEntry, pathEntry, nameEntry].map assign := by
  have hread (es : List ElementEntry) (hes : es ⊆ [pathEntry, nameEntry, otherEntry])
      (hn : (es.map ElementEntry.tag).Nodup) : elementEntries (listOf es) = .ok es := by
    have hfilled : ∀ e ∈ [pathEntry, nameEntry, otherEntry],
        Text.isBlank e.tag = false ∧ Text.isBlank e.component = false := by decide
    exact elementEntries_listed (fun e he => (hfilled e (hes he)).1)
      (fun e he => (hfilled e (hes he)).2) hn
  have hfirst := hread [pathEntry, nameEntry, otherEntry] (List.Subset.refl _) (by decide)
  have hsecond := hread [otherEntry, pathEntry, nameEntry] (by decide) (by decide)
  have hbare : ∀ e ∈ [pathEntry, nameEntry, otherEntry], ∀ name, e.IsBare name →
      e = nameEntry ∧ name = "A" := by
    intro e he name h
    simp only [List.mem_cons, List.not_mem_nil, or_false] at he
    rcases he with rfl | rfl | rfl
    · cases h
    · cases h
      exact ⟨rfl, rfl⟩
    · cases h
  have hbrings : ∀ d ∈ [nameEntry, otherEntry],
      (d.brought? ((loadSources plainRequest).outcome twoFiles).2).all
        fun f => !f.declares "A" := by decide +kernel
  have hsights : plainRequest.SeesAlike twoFiles (listOf [pathEntry, nameEntry, otherEntry])
      (listOf [otherEntry, pathEntry, nameEntry]) := by
    intro es es' hes hes'
    obtain rfl := Except.ok.inj (hfirst.symm.trans hes)
    obtain rfl := Except.ok.inj (hsecond.symm.trans hes')
    refine SameSights.of_before (by decide) fun e he d hd name f hname hf hdeclares => ?_
    obtain ⟨rfl, rfl⟩ := hbare e he name hname
    rcases List.mem_cons.1 hd with rfl | hd
    · decide
    · have hnone := hbrings d hd
      rw [hf, Option.all_some, hdeclares] at hnone
      cases hnone
  have hanswers : ((generate failingBuilder (plainRequest.withElements
      (listOf [pathEntry, nameEntry, otherEntry]))).outcome twoFiles).1.toOption.isSome := by
    decide +kernel
  have hb : failingBuilder.IgnoresArtifacts := fun _ =>
    (Parallel.pure rfl).mono (fun _ _ h => h.forget) le_rfl
  have hperm : Rearranged (listOf [pathEntry, nameEntry, otherEntry])
      (listOf [otherEntry, pathEntry, nameEntry]) :=
    .list (List.Perm.map _ (by decide : List.Perm [pathEntry, nameEntry, otherEntry] _))
  obtain ⟨hiff, hsame⟩ := generate_rearranged (c := plainRequest) hperm
    (rfl : twoFiles.logFile = none) fun _ => hb
  obtain ⟨r, left, h⟩ := exists_outcome_of_isSome hanswers
  obtain ⟨r', left', h'⟩ := exists_outcome_of_isSome ((hiff hsights).1 hanswers)
  obtain ⟨es, es', assign, hes, hes', -, hr, rfl⟩ := (hsame r r' left left' h h').1 hsights
  obtain rfl := Except.ok.inj (hfirst.symm.trans hes)
  obtain rfl := Except.ok.inj (hsecond.symm.trans hes')
  exact ⟨r, _, left, left', assign, h, h', hr, rfl⟩

/-- A class name that stands alone before the file of the class is loaded means no class; behind the
element that loads the file it does. -/
theorem generate_order_counts :
    Rearranged (listOf [nameEntry, pathEntry]) (listOf [pathEntry, nameEntry]) ∧
    ((generate failingBuilder (plainRequest.withElements
      (listOf [nameEntry, pathEntry]))).outcome twoFiles).1.toOption.isSome = false ∧
    ((generate failingBuilder (plainRequest.withElements
      (listOf [pathEntry, nameEntry]))).outcome twoFiles).1.toOption.isSome := by
  refine ⟨.list (List.Perm.swap _ _ _), ?_, ?_⟩
  · decide +kernel
  · decide +kernel

end Run

end CustomElements
