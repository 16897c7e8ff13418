import Mathlib.Data.List.Perm.Basic
import CustomElements.Proofs.Answers
import CustomElements.Proofs.Build.FlagNames
import CustomElements.Proofs.Value.TextKeys

/-!
# The arguments of a build

Each option with a value becomes one flag, in the order of the options, and the options of the build
at hand have their own values in place of given ones. But they only take the place of options with
the same key. An option whose key is another spelling of theirs gets a second flag of the same name.
-/

namespace CustomElements

/-- The options that are always those of the build at hand. -/
def BuildRequest.ownOptions (r : BuildRequest) : List (Text × Value) :=
  [("browser", .text (r.entry.textFrom r.directory)),
    ("outputPath", .text (r.outputPath.textFrom r.directory)), ("deleteOutputPath", .bool false)]

/-- The keys of these options. -/
def ownKeys : List Text := ["browser", "outputPath", "deleteOutputPath"]

/-- The keys of these options with the texts of their values. -/
def BuildRequest.ownRows (r : BuildRequest) : List (Text × Text) :=
  [("browser", r.entry.textFrom r.directory), ("outputPath", r.outputPath.textFrom r.directory),
    ("deleteOutputPath", "false")]

def Value.isNull : Value → Bool
  | .null => true
  | _ => false

/-- The values that flags show as JSON. -/
def Value.isContainer : Value → Bool
  | .list _ | .map _ => true
  | _ => false

/-- The flag of a key and the text of a value. -/
def flagText (row : Text × Text) : Text := "--" ++ flagName row.1 ++ "=" ++ row.2

/-- The key of an option with the text of its value. -/
def IsRow (o : Text × Value) (row : Text × Text) : Prop := row.1 = o.1 ∧ flagValue o.2 = .ok row.2

/-- The name of the flag that an argument is, if it is one. -/
def flagRead? : Text → Option Text
  | .scalar '-' :: .scalar '-' :: t => some (readName t)
  | _ => none

section Flags

variable {r : BuildRequest} {os : List (Text × Value)} {rows : List (Text × Text)}
variable {command args : List Text} {fs : List (Option Text)} {key n : Text} {v : Value}

theorem flag?_of_not_isNull (h : v.isNull = false) : flag? (.text key, v) =
    (flagValue v >>= fun t => .ok (some (flagText (key, t)))) := by
  cases v with
  | null => cases h
  | _ => rfl

theorem flag?_of_isNull {k : Value} (h : v.isNull) : flag? (k, v) = .ok none := by
  cases v with
  | null => rfl
  | _ => cases h

theorem flagValue_of_isContainer (h : v.isContainer) : flagValue v =
    v.json?.elim (.error .wrongType) fun j => .ok (Json.render .compact j) := by
  cases v with
  | list vs =>
    rw [flagValue]
    cases (Value.list vs).json? <;> rfl
  | map es =>
    rw [flagValue]
    cases (Value.map es).json? <;> rfl
  | _ => cases h

/-- The only values without a text are lists and mappings without a JSON form. -/
theorem exists_flagValue_iff :
    (∃ t, flagValue v = .ok t) ↔ (v.isContainer → v.json?.isSome) := by
  by_cases hc : v.isContainer
  · rw [forall_prop_of_true hc, flagValue_of_isContainer hc]
    cases v.json? with
    | some j => exact iff_of_true ⟨_, rfl⟩ rfl
    | none =>
      refine iff_of_false ?_ Bool.false_ne_true
      rintro ⟨t, ht⟩
      cases ht
  · refine iff_of_true ?_ fun h => absurd h hc
    cases v with
    | list vs => exact absurd rfl hc
    | map es => exact absurd rfl hc
    | _ => exact ⟨_, rfl⟩

/-- Only an option whose value has no text keeps the others from becoming flags. -/
theorem exists_flag?_iff :
    (∃ f, flag? (.text key, v) = .ok f) ↔ (v.isContainer → v.json?.isSome) := by
  rw [← exists_flagValue_iff]
  cases h : v.isNull with
  | true =>
    refine iff_of_true ⟨none, flag?_of_isNull h⟩ ?_
    cases v with
    | null => exact ⟨_, rfl⟩
    | _ => cases h
  | false =>
    rw [flag?_of_not_isNull h]
    constructor
    · rintro ⟨f, hf⟩
      obtain ⟨t, ht, -⟩ := exceptBind_eq_ok.1 hf
      exact ⟨t, ht⟩
    · rintro ⟨t, ht⟩
      exact ⟨_, exceptBind_eq_ok.2 ⟨t, ht, rfl⟩⟩

/-- The flags of options are those of the rows of the options with a value. -/
theorem exists_rows (h : (os.map fun o => (.text o.1, o.2)).mapM flag? = .ok fs) :
    ∃ rows, List.Forall₂ IsRow (os.filter fun o => !o.2.isNull) rows ∧
      fs.filterMap id = rows.map flagText := by
  rw [exceptMapM_eq_ok, List.forall₂_map_left_iff] at h
  induction h with
  | nil => exact ⟨[], .nil, rfl⟩
  | @cons o f os fs hf _ ih =>
    obtain ⟨rows, hrows, hfs⟩ := ih
    cases hnull : o.2.isNull with
    | true =>
      rw [flag?_of_isNull hnull] at hf
      obtain rfl := Except.ok.inj hf
      refine ⟨rows, ?_, hfs⟩
      rwa [List.filter_cons_of_neg (by rw [hnull]; decide)]
    | false =>
      rw [flag?_of_not_isNull hnull] at hf
      obtain ⟨t, ht, hf⟩ := exceptBind_eq_ok.1 hf
      obtain rfl := Except.ok.inj hf
      refine ⟨(o.1, t) :: rows, ?_, ?_⟩
      · rw [List.filter_cons_of_pos (by rw [hnull]; rfl)]
        exact .cons ⟨rfl, ht⟩ hrows
      · rw [List.filterMap_cons, List.map_cons, hfs]
        rfl

theorem nodup_ownOptions (r : BuildRequest) : (r.ownOptions.map Prod.fst).Nodup :=
  show ownKeys.Nodup by decide

/-- The options of a build with the values of its own ones. -/
theorem allOptions_eq (hoptions : r.options = os.map fun o => (.text o.1, o.2))
    (hkeys : (os.map Prod.fst).Nodup) :
    r.allOptions = (Value.overriding r.ownOptions os).map fun o => (.text o.1, o.2) := by
  rw [BuildRequest.allOptions, hoptions]
  exact Value.foldl_assign_texts hkeys (nodup_ownOptions r)

/-- The flags of a build are those of the rows of its options with a value, in their order. -/
theorem exists_rows_of_buildArguments (hoptions : r.options = os.map fun o => (.text o.1, o.2))
    (hkeys : (os.map Prod.fst).Nodup) (h : buildArguments command r = .ok args) :
    ∃ rows, List.Forall₂ IsRow
        ((Value.overriding r.ownOptions os).filter fun o => !o.2.isNull) rows ∧
      args = command ++ ([("run" : Text), r.target.text] : List Text) ++ rows.map flagText := by
  obtain ⟨fs, hfs, hargs⟩ := exceptBind_eq_ok.1 h
  rw [allOptions_eq hoptions hkeys] at hfs
  obtain ⟨rows, hrows, hflags⟩ := exists_rows hfs
  refine ⟨rows, hrows, ?_⟩
  rw [← hflags]
  exact (Except.ok.inj hargs).symm

/-- A build has arguments if all lists and mappings that are not overridden have a JSON form. -/
theorem exists_buildArguments_iff (hoptions : r.options = os.map fun o => (.text o.1, o.2))
    (hkeys : (os.map Prod.fst).Nodup) : (∃ args, buildArguments command r = .ok args) ↔
      ∀ o ∈ os, o.1 ∉ ownKeys → o.2.isContainer → o.2.json?.isSome := by
  have hanswer : (∃ args, buildArguments command r = .ok args) ↔
      ∃ fs, r.allOptions.mapM flag? = .ok fs := by
    simp [buildArguments, exceptBind_eq_ok, pure, Except.pure]
  rw [hanswer, allOptions_eq hoptions hkeys, exceptMapM_ok_iff, List.forall_mem_map]
  simp only [exists_flag?_iff, Value.mem_overriding_iff (nodup_ownOptions r)]
  constructor
  · exact fun h o ho hkey => h o (.inr ⟨ho, hkey⟩)
  · rintro h o (ho | ⟨ho, hkey⟩)
    · simp only [BuildRequest.ownOptions, List.mem_cons, List.not_mem_nil, or_false] at ho
      rcases ho with rfl | rfl | rfl
      · exact nofun
      · exact nofun
      · exact nofun
    · exact h o ho hkey

theorem map_fst_of_isRow (h : List.Forall₂ IsRow os rows) :
    rows.map Prod.fst = os.map Prod.fst := by
  induction h with
  | nil => rfl
  | cons hrow _ ih => rw [List.map_cons, List.map_cons, hrow.1, ih]

end Flags

/-- Keys with texts are those of a build with certain options: its own ones in any order, and in the
order of the options those of all further ones that have a value. -/
structure BuildRequest.HasRows (r : BuildRequest) (os : List (Text × Value))
    (rows : List (Text × Text)) : Prop where
  own : (rows.filter fun row => row.1 ∈ ownKeys).Perm r.ownRows
  others : List.Forall₂ IsRow (os.filter fun o => decide (o.1 ∉ ownKeys) && !o.2.isNull)
    (rows.filter fun row => row.1 ∉ ownKeys)
  distinct : (rows.map Prod.fst).Nodup

section Rows

variable {r : BuildRequest} {os : List (Text × Value)} {rows : List (Text × Text)}
variable {command args : List Text} {row : Text × Text} {key : Text}

theorem rightUnique_isRow : Relator.RightUnique IsRow := fun _ _ _ h h' =>
  Prod.ext (h.1.trans h'.1.symm) (Except.ok.inj (h.2.symm.trans h'.2))

theorem isRow_ownRows : List.Forall₂ IsRow r.ownOptions r.ownRows :=
  .cons ⟨rfl, rfl⟩ (.cons ⟨rfl, rfl⟩ (.cons ⟨rfl, rfl⟩ .nil))

/-- The options with the keys of a build's own ones are these. -/
theorem filter_own_perm (hkeys : (os.map Prod.fst).Nodup) :
    ((Value.overriding r.ownOptions os).filter fun o =>
      decide (o.1 ∈ ownKeys) && !o.2.isNull).Perm r.ownOptions := by
  have hnull : ∀ o ∈ r.ownOptions, o.2.isNull = false := by
    simp [BuildRequest.ownOptions, Value.isNull]
  refine (List.perm_ext_iff_of_nodup ?_ (.of_map _ (nodup_ownOptions r))).2 fun o => ?_
  · exact (List.Nodup.of_map _ (Value.nodup_overriding hkeys (nodup_ownOptions r))).filter _
  · rw [List.mem_filter, Value.mem_overriding_iff (nodup_ownOptions r), Bool.and_eq_true,
      decide_eq_true_iff, Bool.not_eq_true']
    constructor
    · rintro ⟨ho | ⟨-, hother⟩, hkey, -⟩
      · exact ho
      · exact absurd hkey hother
    · exact fun ho => ⟨.inl ho, List.mem_map_of_mem ho, hnull o ho⟩

theorem hasRows_of_overriding (hkeys : (os.map Prod.fst).Nodup)
    (h : List.Forall₂ IsRow
      ((Value.overriding r.ownOptions os).filter fun o => !o.2.isNull) rows) :
    r.HasRows os rows := by
  have hfilter {P : Text → Bool} : List.Forall₂ IsRow
      ((Value.overriding r.ownOptions os).filter fun o => P o.1 && !o.2.isNull)
      (rows.filter fun row => P row.1) := by
    have hrel := List.rel_filter (p := fun o => P o.1) (q := fun row => P row.1)
      (fun o row (hrow : IsRow o row) => iff_of_eq (congrArg (P · = true) hrow.1.symm)) h
    rwa [List.filter_filter] at hrel
  constructor
  · obtain ⟨rows', hrows', hperm⟩ :=
      List.perm_comp_forall₂ (filter_own_perm hkeys).symm (hfilter (P := (decide <| · ∈ ownKeys)))
    rw [List.right_unique_forall₂' rightUnique_isRow isRow_ownRows hrows']
    exact hperm.symm
  · have hothers := hfilter (P := (decide <| · ∉ ownKeys))
    rwa [Value.filter_overriding fun o ho => ?_] at hothers
    exact of_decide_eq_true (Bool.and_eq_true_iff.1 ho).1
  · rw [map_fst_of_isRow h]
    exact (Value.nodup_overriding hkeys (nodup_ownOptions r)).sublist (List.filter_sublist.map _)

/-! ### Which flags there are once -/

theorem readName_append_equals (n t : Text) : readName (n ++ .scalar '=' :: t) = readName n := by
  induction n with
  | nil => rfl
  | cons p n ih =>
    rw [List.cons_append]
    by_cases hp : p = .scalar '='
    · rw [hp, readName_equals, readName_equals]
    · rw [readName_cons_of_ne hp, readName_cons_of_ne hp, ih]

theorem flagRead?_flagText (row : Text × Text) :
    flagRead? (flagText row) = some (readName (flagName row.1)) := by
  have hform : flagText row =
      .scalar '-' :: .scalar '-' :: (flagName row.1 ++ .scalar '=' :: row.2) :=
    List.append_assoc _ _ _
  rw [hform, flagRead?, readName_append_equals]

/-- A property is true of one member only if no other one has it. -/
theorem countP_eq_one_iff {α : Type} {l : List α} {P : α → Bool} {x : α} (hl : l.Nodup)
    (hx : x ∈ l) (hP : P x) : l.countP P = 1 ↔ ∀ y ∈ l, P y → y = x := by
  have hmem := List.mem_filter.2 ⟨hx, hP⟩
  rw [List.countP_eq_length_filter, List.length_eq_one_iff]
  constructor
  · rintro ⟨a, ha⟩ y hy hPy
    have hone := List.mem_filter.2 ⟨hy, hPy⟩
    rw [ha, List.mem_singleton] at hone hmem
    rw [hone, hmem]
  · refine fun h => ⟨x, List.perm_singleton.1 ?_⟩
    refine (List.perm_ext_iff_of_nodup (hl.filter _) (List.nodup_singleton x)).2 fun y => ?_
    rw [List.mem_singleton, List.mem_filter]
    constructor
    · exact fun hy => h y hy.1 hy.2
    · rintro rfl
      exact ⟨hx, hP⟩

theorem flagName_ownKeys : ownKeys.map flagName =
    [("browser" : Text), "output-path", "delete-output-path"] := by
  decide +kernel

/-- The names of these flags are told apart, and they are made of small letters and hyphens. -/
theorem flagName_own : ∀ key ∈ ownKeys, readName (flagName key) = flagName key ∧
    (∀ q ∈ flagName key, IsFlagPoint q) ∧
    ∀ other ∈ ownKeys, flagName other = flagName key → other = key := by
  have hnames : ∀ n ∈ ownKeys.map flagName, readName n = n ∧ ∀ q ∈ n, IsFlagPoint q := by
    rw [flagName_ownKeys]
    decide +kernel
  have hdistinct : (ownKeys.map flagName).Nodup := by
    rw [flagName_ownKeys]
    decide +kernel
  intro key hkey
  obtain ⟨hread, hpoints⟩ := hnames _ (List.mem_map_of_mem hkey)
  exact ⟨hread, hpoints, fun other hother => List.inj_on_of_nodup_map hdistinct hother hkey⟩

/-- The keys of the rows that are not a build's own are those of other options with a value. -/
theorem mem_other_keys_iff (h : r.HasRows os rows) (k : Text) :
    (∃ row ∈ rows, row.1 ∉ ownKeys ∧ row.1 = k) ↔
      ∃ o ∈ os, (o.1 ∉ ownKeys ∧ o.2.isNull = false) ∧ o.1 = k := by
  have hkeys := congrArg (k ∈ ·) (map_fst_of_isRow h.others)
  simpa [and_assoc] using hkeys

/-- Only a row with the key itself has its flag if no other option with a value has. -/
theorem forall_rows_iff (h : r.HasRows os rows) (hkey : key ∈ ownKeys) :
    (∀ row ∈ rows, readName (flagName row.1) = flagName key → row.1 = key) ↔
      ∀ o ∈ os, o.1 ∉ ownKeys → o.2.isNull = false →
        readName o.1 ∉ spellings (flagName key) := by
  obtain ⟨-, hpoints, hapart⟩ := flagName_own key hkey
  constructor
  · intro hrows o ho hother hnull hspelled
    obtain ⟨row, hrow, hnot, heq⟩ := (mem_other_keys_iff h o.1).2 ⟨o, ho, ⟨hother, hnull⟩, rfl⟩
    rw [← heq, ← readName_flagName_eq_iff hpoints] at hspelled
    exact hnot (hrows row hrow hspelled ▸ hkey)
  · intro hothers row hrow hname
    by_cases hrowKey : row.1 ∈ ownKeys
    · exact hapart row.1 hrowKey ((flagName_own row.1 hrowKey).1.symm.trans hname)
    · obtain ⟨o, ho, ⟨hother, hnull⟩, heq⟩ :=
        (mem_other_keys_iff h row.1).1 ⟨row, hrow, hrowKey, rfl⟩
      rw [readName_flagName_eq_iff hpoints, ← heq] at hname
      exact absurd hname (hothers o ho hother hnull)

theorem exists_own_row (h : r.HasRows os rows) (hkey : key ∈ ownKeys) :
    ∃ row ∈ rows, row.1 = key := by
  have hmem : key ∈ r.ownRows.map Prod.fst := hkey
  obtain ⟨row, hrow, heq⟩ := List.mem_map.1 hmem
  exact ⟨row, List.mem_of_mem_filter (h.own.mem_iff.2 hrow), heq⟩

theorem flagRead?_own (hkey : row.1 ∈ ownKeys) :
    flagRead? (flagText row) = some (flagName row.1) := by
  rw [flagRead?_flagText, (flagName_own row.1 hkey).1]

/-- A flag of a build's own option is the only one with its name if no other option with a value has
a spelling of that name as its key. -/
theorem countP_flags_eq_one_iff (h : r.HasRows os rows) (hkey : key ∈ ownKeys) :
    (rows.map flagText).countP (fun a => flagRead? a = some (flagName key)) = 1 ↔
      ∀ o ∈ os, o.1 ∉ ownKeys → o.2.isNull = false →
        readName o.1 ∉ spellings (flagName key) := by
  obtain ⟨row, hrow, rfl⟩ := exists_own_row h hkey
  rw [← forall_rows_iff h hkey, List.countP_map,
    countP_eq_one_iff (.of_map _ h.distinct) hrow (decide_eq_true (flagRead?_own hkey))]
  refine forall₂_congr fun other hother => ?_
  rw [Function.comp_apply, decide_eq_true_iff, flagRead?_flagText, Option.some.injEq]
  refine forall_congr' fun _ => ⟨congrArg Prod.fst, fun heq => ?_⟩
  exact List.inj_on_of_nodup_map h.distinct hother hrow heq

/-- Before the flags, there may be an argument that reads as one of them. -/
theorem countP_before_eq_zero_iff {target : Text} :
    (command ++ ([("run" : Text), target] : List Text)).countP
      (fun a => flagRead? a = some key) = 0 ↔
        ∀ a ∈ command ++ [target], flagRead? a ≠ some key := by
  have hrun : flagRead? "run" ≠ some key := nofun
  simp [List.countP_eq_zero, or_imp, forall_and, hrun]

end Rows

/-- Options with one for the folder that a build writes to, spelled with a capital. -/
def capitalOptions : List (Text × Value) := [("OutputPath", .text "elsewhere"), ("baseHref", .null)]

def capitalRequest : BuildRequest where
  target := ⟨"shop", "build", none⟩
  entry := "/ws/src/elements.ts"
  outputPath := "/ws/dist"
  options := capitalOptions.map fun o => (.text o.1, o.2)
  directory := "/ws"

end CustomElements
