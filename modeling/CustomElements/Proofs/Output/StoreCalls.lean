import CustomElements.Proofs.Workspace.Storing

/-!
# Calls of the artifact store

A call that writes an artifact may fail, and the calls after it go on from what it left. The store
keeps the paths of the calls that returned. A file holds what was left there by the last call that
opened it: the text of a call that returned, and nothing where a text turned out to have no encoding
when its file was open. A call that fails before that changes no file.
-/

namespace CustomElements

/-- Whether a fault says what is in the way of a path in a file tree. -/
def Fault.isOfTree : Fault → Bool
  | noSuchFile | fileExists | isDirectory | notDirectory => true
  | _ => false

namespace FileTree

variable {t : FileTree} {parts current names : List Text} {f : Fault}

theorem isOfTree_of_walk (h : t.walk current names = .error f) : f.isOfTree := by
  induction names generalizing current with
  | nil => cases h
  | cons name names ih =>
    rw [walk] at h
    split at h
    · cases h
      rfl
    · cases h
      rfl
    · split at h
      · exact ih h
      · split at h
        · exact ih h
        · cases h
          rfl

theorem isOfTree_of_read (h : t.read parts = .error f) : f.isOfTree := by
  rcases exceptBind_eq_error.1 h with hstat | ⟨e, -, h⟩
  · rcases exceptBind_eq_error.1 hstat with hwalk | ⟨place, -, h⟩
    · exact isOfTree_of_walk hwalk
    · split at h
      · cases h
      · cases h
        rfl
  · split at h
    · cases h
    · cases h
      rfl

theorem isOfTree_of_locate (h : t.locate parts = .error f) : f.isOfTree := by
  unfold locate at h
  split at h
  · cases h
  · split at h
    · exact isOfTree_of_walk h
    · rcases exceptBind_eq_error.1 h with hwalk | ⟨parent, -, h⟩
      · exact isOfTree_of_walk hwalk
      · split at h
        · cases h
        · cases h
          rfl
        · cases h
          rfl

theorem isOfTree_of_write {content : Bytes} (h : t.write parts content = .error f) :
    f.isOfTree := by
  rcases exceptBind_eq_error.1 h with hlocate | ⟨place, -, h⟩
  · exact isOfTree_of_locate hlocate
  · split at h
    · cases h
      rfl
    · cases h

theorem isOfTree_of_makeDir (h : t.makeDir parts = .error f) : f.isOfTree := by
  rcases exceptBind_eq_error.1 h with hlocate | ⟨place, -, h⟩
  · exact isOfTree_of_locate hlocate
  · split at h
    · cases h
      rfl
    · cases h

theorem eq_of_settle {g : Fault} (h : (makeDirs.settle t parts f).2 = some g) : g = f := by
  unfold makeDirs.settle at h
  split at h
  · cases h
  · exact (Option.some.inj h).symm

theorem isOfTree_of_makeDirs (h : (t.makeDirs parts).2 = some f) : f.isOfTree := by
  induction parts generalizing t f with
  | nil => cases h
  | cons name above ih =>
    rw [makeDirs] at h
    split at h
    · cases h
    · split at h
      · next hmade => exact ih (congrArg Prod.snd hmade ▸ h)
      · split at h
        · cases h
        · next hagain => exact eq_of_settle h ▸ isOfTree_of_makeDir hagain
    · next hmade => exact eq_of_settle h ▸ isOfTree_of_makeDir hmade

end FileTree

open CustomElements.Action Workspace

/-- The ways in which writing a text to a path fails, and what they leave. -/
inductive FailedWrite (w : Workspace) (p : Path) (text : Text) : Failure → Workspace → Prop where
  /-- No file can have the path, or something in the file tree is in its way. No file is changed. -/
  | unopened {t : FileTree} {f : Fault} (fault : (∀ parts, w.place p ≠ .ok parts) ∨ f.isOfTree)
      (same : ∀ names, t.contentAt names = w.files.contentAt names) :
      FailedWrite w p text (.fault f) { w with files := t }
  /-- The file is open when it turns out that the text has no encoding. -/
  | emptied {t : FileTree} {parts : List Text} (place : w.place p = .ok parts)
      (noBytes : Bytes.ofText? text = none)
      (held : t.contentAt (w.placeOf p) = some ByteArray.empty)
      (others : ∀ names, names ≠ w.placeOf p → t.contentAt names = w.files.contentAt names) :
      FailedWrite w p text (.fault .unencodable) { w with files := t }

section Failing

variable {w w' : Workspace} {p : Path} {text : Text} {e : Failure}

/-- The names of the parent of a path are names of the path. -/
theorem place_parent {parts : List Text} (h : w.place p = .ok parts) :
    ∃ above, w.place p.parent = .ok above := by
  obtain ⟨haccepted, -⟩ := place_eq_ok.1 h
  have hsubset : (w.current.join p.parent).parts ⊆ (w.current.join p).parts := by
    have hlast : p.parts.dropLast ⊆ p.parts := List.dropLast_subset _
    unfold Path.join
    cases hp : p.isAbsolute with
    | true =>
      rw [if_pos (show p.parent.isAbsolute from hp), if_pos rfl]
      exact hlast
    | false =>
      rw [if_neg (by rw [show p.parent.isAbsolute = false from hp]; decide), if_neg (by decide)]
      exact List.append_subset.2 ⟨List.subset_append_left _ _,
        List.Subset.trans hlast (List.subset_append_right _ _)⟩
  exact ⟨_, place_eq_ok.2 ⟨fun name hname => haccepted name (hsubset hname), rfl⟩⟩

theorem makeDirs_eq_error (h : (makeDirs p).outcome w = (.error e, w')) :
    ∃ t f, e = .fault f ∧ ((∀ parts, w.place p ≠ .ok parts) ∨ f.isOfTree) ∧
      (∀ names, t.contentAt names = w.files.contentAt names) ∧ w' = { w with files := t } := by
  unfold makeDirs at h
  rw [outcome_bind, outcome_look] at h
  cases hplace : w.place p with
  | error f =>
    rw [hplace] at h
    cases h
    exact ⟨w.files, f, rfl, .inl nofun, fun _ => rfl, rfl⟩
  | ok parts =>
    rw [hplace] at h
    dsimp only [Except.mapError] at h
    rw [outcome_get_bind, outcome_bind_ok (outcome_modify _ w)] at h
    split at h
    · next f hf =>
      cases h
      exact ⟨_, f, rfl, .inr (FileTree.isOfTree_of_makeDirs hf),
        FileTree.contentAt_makeDirs w.files parts.reverse, rfl⟩
    · cases h

/-- Bytes that are not written were in the way of something. -/
theorem writeBytes_eq_error {content : Bytes}
    (h : (writeBytes p content).outcome w = (.error e, w')) : FailedWrite w p text e w' := by
  rw [writeBytes, outcome_change] at h
  split at h
  · cases h
  · next f hf =>
    cases h
    refine .unopened (t := w.files) ?_ fun _ => rfl
    rcases exceptBind_eq_error.1 hf with hplace | ⟨parts, -, hwrite⟩
    · exact .inl fun parts hparts => nomatch hplace.symm.trans hparts
    · exact .inr (FileTree.isOfTree_of_write hwrite)

theorem writeText_eq_error (h : (writeText p text).outcome w = (.error e, w')) :
    FailedWrite w p text e w' := by
  unfold writeText at h
  split at h
  · exact writeBytes_eq_error h
  · next hnone =>
    rw [outcome_bind] at h
    split at h
    · next v hwrite =>
      obtain ⟨t, ht, rfl⟩ := change_eq_ok.1 hwrite
      obtain ⟨parts, hparts, hwrite⟩ := exceptBind_eq_ok.1 ht
      obtain ⟨hheld, hothers⟩ := FileTree.contentAt_write hwrite
      cases h
      rw [(place_eq_ok.1 hparts).2] at hheld hothers
      exact .emptied hparts hnone hheld hothers
    · next hwrite =>
      cases h
      exact writeBytes_eq_error hwrite

/-- Writing an artifact fails like writing its text, or before that at its directory. -/
theorem writeArtifact_eq_error (h : (writeArtifact p text).outcome w = (.error e, w')) :
    FailedWrite w p text e w' := by
  unfold writeArtifact at h
  rw [outcome_bind] at h
  split at h
  · next v hdirs =>
    obtain ⟨t, hsame, rfl⟩ := makeDirs_eq_ok hdirs
    rw [outcome_bind] at h
    split at h
    · cases h
    · next hwrite =>
      cases h
      cases writeText_eq_error hwrite with
      | unopened hfault hsame' =>
        exact .unopened hfault fun names => (hsame' names).trans (hsame names)
      | emptied hplace hnone hheld hothers =>
        exact .emptied hplace hnone hheld fun names hne => (hothers names hne).trans (hsame names)
  · next hdirs =>
    cases h
    obtain ⟨t, f, rfl, hfault, hsame, rfl⟩ := makeDirs_eq_error hdirs
    refine .unopened (hfault.imp_left fun hparent parts hplace => ?_) hsame
    obtain ⟨above, habove⟩ := place_parent hplace
    exact hparent above habove

end Failing

/-- A call of the store: the artifact, and the workspace that it finds. -/
structure StoreCall where
  path : Path
  text : Text
  before : Workspace

namespace StoreCall

/-- The answer of the call, or the failure that it ends in. -/
def answer (c : StoreCall) : Except Failure Path :=
  ((writeArtifact c.path c.text).outcome c.before).1

/-- The workspace that the call leaves, however it ends. -/
def after (c : StoreCall) : Workspace := ((writeArtifact c.path c.text).outcome c.before).2

def returns (c : StoreCall) : Bool := c.answer.toOption.isSome

/-- The call fails because its text has no encoding, and not because its path has none. -/
def FailsToEncode (c : StoreCall) : Prop :=
  c.answer = .error (.fault .unencodable) ∧ ∃ parts, c.before.place c.path = .ok parts

/-- The call opens its file: it returns, or it fails with the file open. -/
def Opens (c : StoreCall) : Prop := c.returns ∨ c.FailsToEncode

/-- Where the file of the call is. -/
def place (c : StoreCall) : List Text := c.before.placeOf c.path

/-- What a call that opens its file leaves in it. -/
def content (c : StoreCall) : Bytes := (Bytes.ofText? c.text).getD ByteArray.empty

variable {c : StoreCall} {names : List Text}

theorem outcome_eq (c : StoreCall) :
    (writeArtifact c.path c.text).outcome c.before = (c.answer, c.after) := rfl

/-- A call that returns stores its artifact. -/
theorem stored (h : c.returns) : Stored c.before [(c.path, c.text)] c.after := by
  obtain ⟨p, hp⟩ := exists_eq_ok_iff_isSome.2 h
  exact (writeArtifact_stored (hp ▸ c.outcome_eq)).2

theorem FailsToEncode.returns_eq (h : c.FailsToEncode) : c.returns = false := by
  rw [returns, h.1]
  rfl

/-- What a failed call leaves: other contents in its file if it fails to encode, and else the same
contents everywhere. -/
theorem after_of_failed (h : c.returns = false) : ∃ t : FileTree,
    c.after = { c.before with files := t } ∧
    (c.FailsToEncode → Bytes.ofText? c.text = none ∧
      t.contentAt c.place = some ByteArray.empty) ∧
    ∀ names, (c.FailsToEncode → names ≠ c.place) →
      t.contentAt names = c.before.files.contentAt names := by
  have hend := c.outcome_eq
  cases hanswer : c.answer with
  | ok p =>
    rw [returns, hanswer] at h
    cases h
  | error e =>
    rw [hanswer] at hend
    generalize hafter : c.after = w' at hend ⊢
    have hfailed := writeArtifact_eq_error hend
    cases hfailed with
    | @unopened t f hfault hsame =>
      refine ⟨t, rfl, fun hfails => ?_, fun names _ => hsame names⟩
      obtain ⟨hunencodable, parts, hplace⟩ := hfails
      obtain rfl : f = .unencodable := by
        rw [hanswer] at hunencodable
        cases hunencodable
        rfl
      rcases hfault with hfault | hfault
      · exact absurd hplace (hfault parts)
      · cases hfault
    | @emptied t parts hplace hnone hheld hothers =>
      exact ⟨t, rfl, fun _ => ⟨hnone, hheld⟩,
        fun names hne => hothers names (hne ⟨hanswer, _, hplace⟩)⟩

theorem FailsToEncode.content_eq (h : c.FailsToEncode) : c.content = ByteArray.empty := by
  obtain ⟨t, -, hemptied, -⟩ := after_of_failed h.returns_eq
  rw [content, (hemptied h).1]
  rfl

theorem FailsToEncode.contentOf_after (h : c.FailsToEncode) :
    c.after.contentOf c.path = some ByteArray.empty := by
  obtain ⟨t, hafter, hemptied, -⟩ := after_of_failed h.returns_eq
  rw [hafter]
  exact (hemptied h).2

theorem contentAt_after_of_failed (h : c.returns = false)
    (hne : c.FailsToEncode → names ≠ c.place) :
    c.after.files.contentAt names = c.before.files.contentAt names := by
  obtain ⟨t, hafter, -, hothers⟩ := after_of_failed h
  rw [hafter]
  exact hothers names hne

theorem after_written (c : StoreCall) :
    c.after.written = c.before.written ++ if c.returns then [c.path] else [] := by
  cases h : c.returns with
  | true => exact (stored h).written
  | false =>
    obtain ⟨t, hafter, -⟩ := after_of_failed h
    rw [hafter]
    exact (List.append_nil _).symm

theorem after_current (c : StoreCall) : c.after.current = c.before.current := by
  cases h : c.returns with
  | true => exact (stored h).current
  | false =>
    obtain ⟨t, hafter, -⟩ := after_of_failed h
    rw [hafter]

theorem after_logFile (c : StoreCall) : c.after.logFile = c.before.logFile := by
  cases h : c.returns with
  | true => exact (stored h).logFile
  | false =>
    obtain ⟨t, hafter, -⟩ := after_of_failed h
    rw [hafter]

theorem logsTo_after_iff (c : StoreCall) (names : List Text) :
    c.after.LogsTo names ↔ c.before.LogsTo names :=
  logsTo_iff_of_eq c.after_current c.after_logFile names

/-- A call changes no other file than the one it opens. -/
theorem contentAt_after_of_ne (hne : c.Opens → names ≠ c.place) (hlog : ¬c.before.LogsTo names) :
    c.after.files.contentAt names = c.before.files.contentAt names := by
  cases h : c.returns with
  | true =>
    refine (stored h).others names (List.forall_mem_singleton.2 ?_) hlog
    exact hne (.inl h)
  | false => exact contentAt_after_of_failed h fun hfails => hne (.inr hfails)

theorem contentAt_place (h : c.Opens) (hlog : ¬c.before.LogsTo c.place) :
    c.after.files.contentAt c.place = some c.content := by
  rcases h with h | h
  · obtain ⟨content, hcontent, hheld⟩ := (stored h).holds _ List.mem_cons_self
    rw [StoreCall.content, show Bytes.ofText? c.text = some content from hcontent]
    exact hheld hlog
  · obtain ⟨t, hafter, hemptied, -⟩ := after_of_failed h.returns_eq
    rw [hafter, h.content_eq]
    exact (hemptied h).2

end StoreCall

/-- The calls of the store for these artifacts in a row, whether they fail or not. -/
def storeCalls (w : Workspace) : List (Path × Text) → List StoreCall
  | [] => []
  | (p, text) :: rest =>
    let c : StoreCall := ⟨p, text, w⟩
    c :: storeCalls c.after rest

/-- What calls in a row leave of a workspace. -/
def leftBy (w : Workspace) : List StoreCall → Workspace
  | [] => w
  | c :: rest => leftBy c.after rest

section Rows

variable {w : Workspace} {artifacts : List (Path × Text)} {c : StoreCall} {names : List Text}

theorem current_leftBy (w : Workspace) (artifacts : List (Path × Text)) :
    (leftBy w (storeCalls w artifacts)).current = w.current := by
  induction artifacts generalizing w with
  | nil => rfl
  | cons a rest ih => exact (ih _).trans (StoreCall.after_current _)

theorem storeCalls_settings (w : Workspace) (artifacts : List (Path × Text)) :
    ∀ c ∈ storeCalls w artifacts, c.before.current = w.current ∧ c.before.logFile = w.logFile := by
  induction artifacts generalizing w with
  | nil => exact List.forall_mem_nil _
  | cons a rest ih =>
    obtain ⟨p, text⟩ := a
    refine List.forall_mem_cons.2 ⟨⟨rfl, rfl⟩, fun c hc => ?_⟩
    obtain ⟨hcurrent, hlog⟩ := ih _ c hc
    exact ⟨hcurrent.trans (StoreCall.after_current _), hlog.trans (StoreCall.after_logFile _)⟩

theorem map_storeCalls (w : Workspace) (artifacts : List (Path × Text)) :
    (storeCalls w artifacts).map (fun c => (c.path, c.text)) = artifacts := by
  induction artifacts generalizing w with
  | nil => rfl
  | cons a rest ih => exact congrArg (a :: ·) (ih _)

/-- The store keeps the paths of the calls that returned. -/
theorem written_leftBy (w : Workspace) (artifacts : List (Path × Text)) :
    (leftBy w (storeCalls w artifacts)).written =
      w.written ++ ((storeCalls w artifacts).filter StoreCall.returns).map StoreCall.path := by
  induction artifacts generalizing w with
  | nil => exact (List.append_nil _).symm
  | cons a rest ih =>
    obtain ⟨p, text⟩ := a
    let c : StoreCall := ⟨p, text, w⟩
    change (leftBy c.after (storeCalls c.after rest)).written =
      c.before.written ++
        ((c :: storeCalls c.after rest).filter StoreCall.returns).map StoreCall.path
    rw [ih, c.after_written, List.append_assoc, List.filter_cons]
    cases c.returns <;> rfl

/-- A file that no call opens stays as it is. -/
theorem contentAt_leftBy (hlog : ¬w.LogsTo names)
    (hne : ∀ c ∈ storeCalls w artifacts, c.Opens → names ≠ c.place) :
    (leftBy w (storeCalls w artifacts)).files.contentAt names = w.files.contentAt names := by
  induction artifacts generalizing w with
  | nil => rfl
  | cons a rest ih =>
    obtain ⟨p, text⟩ := a
    let c : StoreCall := ⟨p, text, w⟩
    obtain ⟨hfirst, hrest⟩ := List.forall_mem_cons.1 hne
    have hlog' : ¬c.after.LogsTo names := mt (c.logsTo_after_iff names).1 hlog
    exact (ih hlog' hrest).trans (c.contentAt_after_of_ne hfirst hlog)

/-- A file that is opened, and only by calls that leave the same in it, holds that. -/
theorem contentAt_leftBy_of_same {content : Bytes} (hlog : ¬w.LogsTo names)
    (hsame : ∀ c ∈ storeCalls w artifacts, c.Opens → c.place = names → c.content = content)
    (h : w.files.contentAt names = some content ∨
      ∃ c ∈ storeCalls w artifacts, c.Opens ∧ c.place = names) :
    (leftBy w (storeCalls w artifacts)).files.contentAt names = some content := by
  induction artifacts generalizing w with
  | nil => exact h.elim id fun ⟨_, hc, _⟩ => nomatch hc
  | cons a rest ih =>
    obtain ⟨p, text⟩ := a
    let c : StoreCall := ⟨p, text, w⟩
    obtain ⟨hfirst, hrest⟩ := List.forall_mem_cons.1 hsame
    have hlog' : ¬c.after.LogsTo names := mt (c.logsTo_after_iff names).1 hlog
    refine ih hlog' hrest ?_
    by_cases hopens : c.Opens ∧ c.place = names
    · obtain ⟨hopens, rfl⟩ := hopens
      exact .inl (hfirst hopens rfl ▸ c.contentAt_place hopens hlog)
    · rcases h with h | ⟨d, hd, hopened⟩
      · refine .inl ((c.contentAt_after_of_ne (fun ho heq => ?_) hlog).trans h)
        exact hopens ⟨ho, heq.symm⟩
      · rcases List.mem_cons.1 hd with rfl | hd
        · exact absurd hopened hopens
        · exact .inr ⟨d, hd, hopened⟩

/-- The calls after a call go on from what it left. -/
theorem exists_storeCalls_of_split {before after : List StoreCall}
    (h : storeCalls w artifacts = before ++ c :: after) :
    ∃ rest, after = storeCalls c.after rest ∧
      leftBy w (storeCalls w artifacts) = leftBy c.after after := by
  induction before generalizing w artifacts with
  | nil =>
    cases artifacts with
    | nil => cases h
    | cons a rest =>
      obtain ⟨p, text⟩ := a
      obtain ⟨rfl, rfl⟩ := List.cons.inj h
      exact ⟨rest, rfl, rfl⟩
  | cons d before ih =>
    cases artifacts with
    | nil => cases h
    | cons a rest =>
      obtain ⟨p, text⟩ := a
      obtain ⟨rfl, hrest⟩ := List.cons.inj h
      obtain ⟨rest', hafter, hleft⟩ := ih hrest
      exact ⟨rest', hafter, hleft⟩

/-- The file of a call that is the last one to return with it holds the text of that call, or it is
empty if a later call with this file fails to encode its text. -/
theorem contentOf_last_returned {before after : List StoreCall}
    (hsplit : storeCalls w artifacts = before ++ c :: after) (hreturns : c.returns)
    (hlast : ∀ d ∈ after, d.returns → d.place ≠ c.place) (hlog : ¬w.LogsTo c.place) :
    let w' := leftBy w (storeCalls w artifacts)
    ∃ content, Bytes.ofText? c.text = some content ∧
      ((∀ d ∈ after, d.FailsToEncode → d.place ≠ c.place) →
        w'.contentOf c.path = some content) ∧
      ((∃ d ∈ after, d.FailsToEncode ∧ d.place = c.place) →
        w'.contentOf c.path = some ByteArray.empty) := by
  intro w'
  have hmem : c ∈ storeCalls w artifacts := hsplit ▸ List.mem_append_right _ List.mem_cons_self
  obtain ⟨hcurrent, hlogFile⟩ := storeCalls_settings w artifacts c hmem
  obtain ⟨rest, rfl, hleft⟩ := exists_storeCalls_of_split hsplit
  obtain ⟨content, hcontent, -⟩ := (StoreCall.stored hreturns).holds _ List.mem_cons_self
  have hplace : w'.placeOf c.path = c.place :=
    placeOf_congr ((current_leftBy w artifacts).trans hcurrent.symm) c.path
  have hlogBefore : ¬c.before.LogsTo c.place := mt (logsTo_iff_of_eq hcurrent hlogFile _).1 hlog
  have hlogAfter : ¬c.after.LogsTo c.place := mt (c.logsTo_after_iff _).1 hlogBefore
  have hheld : c.after.files.contentAt c.place = some content := by
    rw [c.contentAt_place (.inl hreturns) hlogBefore, StoreCall.content,
      show Bytes.ofText? c.text = some content from hcontent]
    rfl
  rw [contentOf, hplace, show w' = leftBy c.after (storeCalls c.after rest) from hleft]
  refine ⟨content, hcontent, fun hnone => ?_, fun ⟨d, hd, hfails, heq⟩ => ?_⟩
  · refine (contentAt_leftBy hlogAfter fun d hd hopens => ?_).trans hheld
    exact (hopens.elim (hlast d hd) (hnone d hd)).symm
  · refine contentAt_leftBy_of_same hlogAfter (fun d hd hopens heq => ?_)
      (.inr ⟨d, hd, .inr hfails, heq⟩)
    have hnot : ¬d.returns := fun hd' => hlast d hd hd' heq
    exact (hopens.resolve_left hnot).content_eq

end Rows

/--
Any row of calls, each of which may fail. The store keeps the paths of the calls that returned, in
order. A call that fails because its text has no encoding leaves its file empty, so that it keeps
the previous contents exactly if there was an empty file before; any other failed call changes no
file. So the file of a call that returned holds its text until another call with the same file
returns, or fails to encode and leaves the file empty.
-/
theorem stored_until_emptied (w : Workspace) (artifacts : List (Path × Text)) :
    let calls := storeCalls w artifacts
    let w' := leftBy w calls
    calls.map (fun c => (c.path, c.text)) = artifacts ∧
    w'.written = w.written ++ (calls.filter StoreCall.returns).map StoreCall.path ∧
    (∀ c ∈ calls, c.FailsToEncode →
      c.after.contentOf c.path = some ByteArray.empty ∧
      (c.after.contentOf c.path = c.before.contentOf c.path ↔
        c.before.contentOf c.path = some ByteArray.empty) ∧
      ∀ names, names ≠ c.place →
        c.after.files.contentAt names = c.before.files.contentAt names) ∧
    (∀ c ∈ calls, c.returns = false → ¬c.FailsToEncode →
      ∀ names, c.after.files.contentAt names = c.before.files.contentAt names) ∧
    ∀ before c after, calls = before ++ c :: after → c.returns →
      (∀ d ∈ after, d.returns → d.place ≠ c.place) → ¬w.LogsTo c.place →
      ∃ content, Bytes.ofText? c.text = some content ∧
        ((∀ d ∈ after, d.FailsToEncode → d.place ≠ c.place) →
          w'.contentOf c.path = some content) ∧
        ((∃ d ∈ after, d.FailsToEncode ∧ d.place = c.place) →
          w'.contentOf c.path = some ByteArray.empty) := by
  intro calls w'
  refine ⟨map_storeCalls w artifacts, written_leftBy w artifacts, fun c _ hfails => ?_,
    fun c _ hfailed hnot names => ?_, fun before c after => contentOf_last_returned⟩
  · have hempty := hfails.contentOf_after
    refine ⟨hempty, ?_, fun names hne =>
      StoreCall.contentAt_after_of_failed hfails.returns_eq fun _ => hne⟩
    rw [hempty]
    exact eq_comm
  · exact StoreCall.contentAt_after_of_failed hfailed fun hfails => absurd hfails hnot

/-- Two calls with one path, the second with a text that has no encoding. -/
def replacedArtifact : List (Path × Text) := [("/ws/a", "x"), ("/ws/a", [.surrogate (Fin.last 0x7FF)])]

/-- A call that fails to encode its text takes the contents of an artifact that was stored, whose
path the store keeps. -/
theorem stored_artifact_emptied :
    let calls := storeCalls Workspace.bare replacedArtifact
    let w' := leftBy Workspace.bare calls
    calls.map StoreCall.returns = [true, false] ∧
    w'.written = ["/ws/a"] ∧
    (∃ content, Bytes.ofText? "x" = some content ∧ w'.contentOf "/ws/a" ≠ some content) ∧
    ∃ c ∈ calls, c.FailsToEncode ∧ c.after.contentOf c.path ≠ c.before.contentOf c.path := by
  refine ⟨by decide +kernel, by decide +kernel, ⟨Bytes.ofChars ['x'], rfl, by decide +kernel⟩,
    (storeCalls Workspace.bare replacedArtifact)[1], List.getElem_mem _, ⟨rfl, _, rfl⟩, ?_⟩
  decide +kernel

end CustomElements
