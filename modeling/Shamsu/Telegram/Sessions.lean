import Shamsu.Py.Text

/-!
# Active sessions

`shamsu/integrations/telegram/storage.py`: the table `active_sessions`, of which
two shapes are on disk. Version 1 has one row a user; version 2 has a column for
the workspace, and one row a user and workspace. Opening gives a version-1 table
the column but not the key (`initDb`), and the upsert of `setActiveSession` names
the key of version 2 as its conflict target.
-/

namespace Shamsu.Telegram

open Shamsu.Py

/-- A row of `active_sessions`. -/
structure SessionRow where
  userId : Int
  workspace : Text
  sessionId : Text
  deriving DecidableEq, Repr

/-- The primary key of the table on disk. -/
inductive SessionKey where
  | user | userAndWorkspace
  deriving DecidableEq, Repr

/-- Whether two rows are one by the key. -/
def SessionKey.same : SessionKey → SessionRow → SessionRow → Bool
  | .user, a, b => a.userId == b.userId
  | .userAndWorkspace, a, b => a.userId == b.userId && a.workspace == b.workspace

/-- The table. Without the column every workspace is its later default. -/
structure SessionTable where
  key : SessionKey
  hasWorkspace : Bool
  rows : List SessionRow
  unique : rows.Pairwise fun a b => key.same a b = false
  blank : hasWorkspace = false → ∀ row ∈ rows, row.workspace = []

/-- A `workspace_key`: an absolute path, so not empty. -/
abbrev Workspace := { w : Text // w ≠ [] }

namespace SessionTable

/-- What version 2 creates. -/
def created : SessionTable := ⟨.userAndWorkspace, true, [], List.Pairwise.nil, fun h => by cases h⟩

/-- A table of version 1, by user. -/
def version1 (sessions : AList fun _ : Int => Text) : SessionTable where
  key := .user
  hasWorkspace := false
  rows := sessions.entries.map fun e => ⟨e.1, [], e.2⟩
  unique := by
    rw [List.pairwise_map]
    have hnodup := sessions.nodupKeys
    unfold List.NodupKeys List.keys List.Nodup at hnodup
    rw [List.pairwise_map] at hnodup
    refine hnodup.imp fun {a b} h => ?_
    exact beq_eq_false_iff_ne.mpr h
  blank := by
    intro _ row hrow
    obtain ⟨_, _, rfl⟩ := List.mem_map.mp hrow
    rfl

/-- `_add_missing_columns`. -/
def addMissingColumns (t : SessionTable) : SessionTable :=
  { t with hasWorkspace := true, blank := fun h => by cases h }

/-- `_init_db`, on the table that is there. -/
def initDb : Option SessionTable → SessionTable
  | none => created.addMissingColumns
  | some t => t.addMissingColumns

/-- The rows after an upsert: the row of the key is overwritten, or a new one added. -/
def upserted (t : SessionTable) (new : SessionRow) : List SessionRow :=
  if t.rows.any (t.key.same new) then
    t.rows.map fun row => if t.key.same new row then { row with sessionId := new.sessionId } else row
  else t.rows ++ [new]

theorem same_sessionId (key : SessionKey) (a b : SessionRow) (s s' : Text) :
    key.same { a with sessionId := s } { b with sessionId := s' } = key.same a b := by
  cases key <;> rfl

theorem same_comm (key : SessionKey) (a b : SessionRow) : key.same a b = key.same b a := by
  cases key
  · exact Bool.beq_comm
  · show (_ && _) = (_ && _)
    rw [Bool.beq_comm, @Bool.beq_comm _ _ _ _ a.workspace]

theorem unique_upserted (t : SessionTable) (new : SessionRow) :
    (t.upserted new).Pairwise fun a b => t.key.same a b = false := by
  unfold upserted
  split
  next =>
    rw [List.pairwise_map]
    refine t.unique.imp fun {a b} h => ?_
    rw [← h]
    split <;> split
    · exact same_sessionId _ a b _ _
    · exact same_sessionId _ a b _ b.sessionId
    · exact same_sessionId _ a b a.sessionId _
    · rfl
  next hnew =>
    rw [List.pairwise_append]
    refine ⟨t.unique, List.pairwise_singleton _ _, fun a ha b hb => ?_⟩
    rw [List.mem_singleton.mp hb, same_comm]
    simp only [List.any_eq_true, not_exists, not_and, Bool.not_eq_true] at hnew
    exact hnew a ha

/-- `set_active_session`: an error when the conflict target is not the key. -/
def setActiveSession (t : SessionTable) (workspace : Workspace) (userId : Int) (sessionId : Text) :
    Option SessionTable :=
  if h : t.hasWorkspace = true ∧ t.key = .userAndWorkspace then
    some { t with
      rows := t.upserted ⟨userId, workspace, sessionId⟩
      unique := t.unique_upserted _
      blank := fun hno => by rw [h.1] at hno; cases hno }
  else none

/-- `active_session_for`: of the rows for this workspace or none, the last by
workspace. -/
def activeSessionFor (t : SessionTable) (workspace : Workspace) (userId : Int) : Text :=
  let rows := t.rows.filter fun row =>
    row.userId == userId && (row.workspace == workspace.1 || row.workspace == [])
  match (rows.mergeSort fun a b => decide (b.workspace ≤ a.workspace)).head? with
  | some row => row.sessionId
  | none => []

/-! ## What is read -/

/-- The row of a user and a workspace. -/
def sessionAt (t : SessionTable) (workspace : Text) (userId : Int) : Option SessionRow :=
  t.rows.find? fun row => row.userId == userId && row.workspace == workspace

variable {t : SessionTable} {workspace : Text} {userId : Int} {row row' : SessionRow}

theorem eq_of_same (h : row ∈ t.rows) (h' : row' ∈ t.rows) (hsame : t.key.same row row' = true) :
    row = row' := by
  by_contra hne
  have : Std.Symm fun a b => t.key.same a b = false := ⟨fun a b hab => by rwa [same_comm]⟩
  rw [t.unique.forall h h' hne] at hsame
  cases hsame

theorem same_of_eq (key : SessionKey) (huser : row.userId = row'.userId)
    (hworkspace : row.workspace = row'.workspace) : key.same row row' = true := by
  cases key
  · exact beq_iff_eq.mpr huser
  · show (_ && _) = true
    rw [huser, hworkspace, beq_self_eq_true, beq_self_eq_true]
    rfl

/-- There is one such row at most, by either key. -/
theorem sessionAt_eq_some : t.sessionAt workspace userId = some row ↔
    row ∈ t.rows ∧ row.userId = userId ∧ row.workspace = workspace := by
  have found : ∀ {r}, t.sessionAt workspace userId = some r →
      r ∈ t.rows ∧ r.userId = userId ∧ r.workspace = workspace :=
    fun h => ⟨List.mem_of_find?_eq_some h, by simpa using List.find?_some h⟩
  refine ⟨found, fun ⟨hmem, huser, hworkspace⟩ => ?_⟩
  cases hrow : t.sessionAt workspace userId with
  | none =>
    have := List.find?_eq_none.mp hrow row hmem
    simp [huser, hworkspace] at this
  | some r =>
    obtain ⟨hr, hruser, hrworkspace⟩ := found hrow
    exact congrArg some (eq_of_same hr hmem (same_of_eq t.key (hruser.trans huser.symm)
      (hrworkspace.trans hworkspace.symm)))

theorem sessionAt_eq_none : t.sessionAt workspace userId = none ↔
    ∀ row ∈ t.rows, row.userId = userId → row.workspace ≠ workspace := by
  unfold sessionAt
  simp

/-- **What is read**: the session of this workspace, or else the one of none. -/
theorem activeSessionFor_eq (t : SessionTable) (workspace : Workspace) (userId : Int) :
    t.activeSessionFor workspace userId =
      match t.sessionAt workspace userId, t.sessionAt [] userId with
      | some row, _ | none, some row => row.sessionId
      | none, none => [] := by
  have hsel : ∀ row, row ∈ (t.rows.filter fun row => row.userId == userId &&
      (row.workspace == workspace.1 || row.workspace == [])) ↔
      t.sessionAt workspace userId = some row ∨ t.sessionAt [] userId = some row := by
    intro row
    rw [List.mem_filter, sessionAt_eq_some, sessionAt_eq_some]
    simp only [Bool.and_eq_true, Bool.or_eq_true, beq_iff_eq]
    tauto
  unfold activeSessionFor
  dsimp only
  generalize (t.rows.filter fun row => row.userId == userId &&
      (row.workspace == workspace.1 || row.workspace == [])) = rows at hsel ⊢
  cases hhead : (rows.mergeSort fun a b => decide (b.workspace ≤ a.workspace)).head? with
  | none =>
    have hempty : ∀ row, row ∉ rows := by
      intro row hrow
      rw [List.head?_eq_none_iff] at hhead
      rw [← List.mem_mergeSort, hhead] at hrow
      cases hrow
    have hws : t.sessionAt workspace userId = none :=
      Option.eq_none_iff_forall_ne_some.mpr fun row h => hempty row ((hsel row).mpr (Or.inl h))
    have hno : t.sessionAt [] userId = none :=
      Option.eq_none_iff_forall_ne_some.mpr fun row h => hempty row ((hsel row).mpr (Or.inr h))
    rw [hws, hno]
  | some first =>
    have hsorted : (rows.mergeSort fun a b => decide (b.workspace ≤ a.workspace)).Pairwise
        fun a b => decide (b.workspace ≤ a.workspace) = true := by
      refine List.pairwise_mergeSort (fun a b c h h' => ?_) (fun a b => ?_) rows
      · simp only [decide_eq_true_eq] at h h' ⊢
        exact h'.trans h
      · simp only [Bool.or_eq_true, decide_eq_true_eq]
        exact le_total _ _
    have hmem : first ∈ rows := List.mem_mergeSort.mp (List.mem_of_head? hhead)
    -- no other row comes later in the order
    have hlast : ∀ row ∈ rows, row = first ∨ row.workspace ≤ first.workspace := by
      intro row hrow
      rw [← List.mem_mergeSort] at hrow
      obtain ⟨rest, hrest⟩ := List.head?_eq_some_iff.mp hhead
      rw [hrest] at hrow hsorted
      rcases List.mem_cons.mp hrow with rfl | hrow
      · exact Or.inl rfl
      · exact Or.inr (by simpa using (List.pairwise_cons.mp hsorted).1 row hrow)
    cases hws : t.sessionAt workspace userId with
    | some row =>
      rcases (hsel first).mp hmem with h | h
      · rw [h] at hws
        rw [Option.some.inj hws]
      · exfalso
        have hworkspace := (sessionAt_eq_some.mp hws).2.2
        have hfirst := (sessionAt_eq_some.mp h).2.2
        rcases hlast row ((hsel row).mpr (Or.inl hws)) with rfl | hle
        · exact workspace.2 (hworkspace.symm.trans hfirst)
        · rw [hworkspace, hfirst] at hle
          obtain ⟨c, cs, hcons⟩ := List.exists_cons_of_ne_nil workspace.2
          rw [hcons] at hle
          exact absurd (List.nil_lt_cons c cs) (not_lt.mpr hle)
    | none =>
      rcases (hsel first).mp hmem with h | h
      · rw [hws] at h
        cases h
      · rw [h]

/-! ## What is written -/

theorem setActiveSession_isSome {sessionId : Text} {workspace : Workspace} :
    (t.setActiveSession workspace userId sessionId).isSome = true ↔
      t.hasWorkspace = true ∧ t.key = .userAndWorkspace := by
  unfold setActiveSession
  split
  next h => exact ⟨fun _ => h, fun _ => rfl⟩
  next h => exact ⟨fun he => (by cases he), fun he => absurd he h⟩

/-! ## Sequences of writes -/

/-- A `set_active_session` of a store of this workspace. -/
structure SetCall where
  workspace : Workspace
  userId : Int
  sessionId : Text

/-- Each store opens the table, and writes. -/
def setAll (t : SessionTable) : List SetCall → Option SessionTable
  | [] => some t
  | c :: cs =>
    ((initDb (some t)).setActiveSession c.workspace c.userId c.sessionId).bind fun t' => t'.setAll cs

/-- The session last set. -/
def lastSet : List SetCall → Workspace → Int → Option Text
  | [], _, _ => none
  | c :: cs, workspace, userId =>
    match lastSet cs workspace userId with
    | some sessionId => some sessionId
    | none => if workspace = c.workspace ∧ userId = c.userId then some c.sessionId else none

/-! ## The migration -/

/-- All writes after the migration of this version-1 table succeed, and what is
read is the session last set, or the migrated one. -/
def MigrationKeeps (sessions : AList fun _ : Int => Text) (cs : List SetCall) : Prop :=
  ∃ t, (initDb (some (version1 sessions))).setAll cs = some t ∧ ∀ workspace userId,
    t.activeSessionFor workspace userId =
      (lastSet cs workspace userId).getD ((sessions.lookup userId).getD [])

/-- The migrated session is read in every workspace. -/
theorem activeSessionFor_version1 (sessions : AList fun _ : Int => Text) (workspace : Workspace)
    (userId : Int) : (initDb (some (version1 sessions))).activeSessionFor workspace userId =
      (sessions.lookup userId).getD [] := by
  have hws : (initDb (some (version1 sessions))).sessionAt workspace userId = none := by
    rw [sessionAt_eq_none]
    intro row hrow _ hworkspace
    exact workspace.2 (hworkspace.symm.trans ((version1 sessions).blank rfl row hrow))
  rw [activeSessionFor_eq, hws]
  cases hlookup : sessions.lookup userId with
  | some sessionId =>
    have : (initDb (some (version1 sessions))).sessionAt [] userId
        = some ⟨userId, [], sessionId⟩ :=
      sessionAt_eq_some.mpr ⟨List.mem_map.mpr
        ⟨⟨userId, sessionId⟩, AList.mem_lookup_iff.mp hlookup, rfl⟩, rfl, rfl⟩
    rw [this]
    rfl
  | none =>
    have : (initDb (some (version1 sessions))).sessionAt [] userId = none := by
      rw [sessionAt_eq_none]
      intro row hrow huser
      obtain ⟨e, he, rfl⟩ := List.mem_map.mp hrow
      have hsome : sessions.lookup e.1 = some e.2 := AList.mem_lookup_iff.mpr he
      rw [show e.1 = userId from huser, hlookup] at hsome
      cases hsome
    rw [this]
    rfl

/-- **The migration**: a version-1 table keeps its key, so it serves as long as
nothing is written. -/
theorem migrationKeeps_iff (sessions : AList fun _ : Int => Text) (cs : List SetCall) :
    MigrationKeeps sessions cs ↔ cs = [] := by
  constructor
  · intro h
    obtain ⟨t, ht, _⟩ := h
    cases cs with
    | nil => rfl
    | cons c cs =>
      obtain ⟨t₁, ht₁, _⟩ := Option.bind_eq_some_iff.mp ht
      have := setActiveSession_isSome.mp (Option.isSome_iff_exists.mpr ⟨t₁, ht₁⟩)
      cases this.2
  · intro heq
    subst heq
    exact ⟨_, rfl, fun workspace userId => activeSessionFor_version1 sessions workspace userId⟩

/-- The table of the migration test, and a message to its user. -/
theorem migrated_write_fails : ¬ MigrationKeeps (AList.insert 7 "old-session".toList ∅)
    [⟨⟨"/w".toList, by decide⟩, 7, "new-session".toList⟩] := by
  intro h
  obtain ⟨t, ht, _⟩ := h
  cases ht

end SessionTable

end Shamsu.Telegram
