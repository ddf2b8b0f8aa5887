import Shamsu.Control.Store

/-!
# The Telegram store: pairing codes and authorizations

Each function is one transaction on one table. The rule for pairing codes is
`Keeps`: a row stays, under its hash, and a code that is consumed stays consumed.
-/

namespace Shamsu.Telegram

open Shamsu.Py Shamsu.Control

/-- A row of `pairing_codes`. -/
structure PairingRow where
  codeHash : Text
  installationId : Text
  expiresAt : Time
  consumedAt : Option Time
  attempts : Nat
  deriving DecidableEq, Repr

/-- The table, by `pairing_id`. -/
abbrev PairingRows := AList fun _ : Text => PairingRow

inductive PermissionLevel where
  | owner | operator | viewer
  deriving DecidableEq, Repr

inductive AuthorizationStatus where
  | active | disconnected
  deriving DecidableEq, Repr

/-- A row of `authorized_users`. -/
structure Authorization where
  chatId : Int
  installationId : Text
  displayName : Text
  permissionLevel : PermissionLevel
  status : AuthorizationStatus
  deriving DecidableEq, Repr

/-- The table, by `telegram_user_id`. -/
abbrev Authorizations := AList fun _ : Int => Authorization

namespace PairingRows

variable {t t' : PairingRows} {id : Text} {row : PairingRow}

/-- `find_pairing_by_hash`. -/
def findByHash (t : PairingRows) (codeHash : Text) : Option (Text × PairingRow) :=
  (t.entries.find? fun e => e.2.codeHash == codeHash).map fun e => (e.1, e.2)

/-- `create_pairing_code`: `none` when the id or the hash is taken (the insert
fails). -/
def createPairingCode (t : PairingRows) (id codeHash installationId : Text) (expiresAt : Time) :
    Option PairingRows :=
  if (t.lookup id).isSome || (t.findByHash codeHash).isSome then none
  else some (t.insert id
    { codeHash := codeHash, installationId := installationId, expiresAt := expiresAt
      consumedAt := none, attempts := 0 })

/-- `increment_pairing_attempts`: the number after it. -/
def incrementAttempts (t : PairingRows) (id : Text) : Nat × PairingRows :=
  match t.lookup id with
  | some row => (row.attempts + 1, t.insert id { row with attempts := row.attempts + 1 })
  | none => (0, t)

/-- `consume_pairing`. -/
def consumePairing (t : PairingRows) (id : Text) (now : Time) : PairingRows :=
  match t.lookup id with
  | some row =>
    if row.consumedAt.isNone then t.insert id { row with consumedAt := some now } else t
  | none => t

/-- Rows stay under their hash, and a consumed code stays consumed. -/
def Keeps (t t' : PairingRows) : Prop :=
  ∀ id row, t.lookup id = some row → ∃ row', t'.lookup id = some row' ∧
    row'.codeHash = row.codeHash ∧ (row.consumedAt.isSome = true → row'.consumedAt.isSome = true)

theorem Keeps.refl (t : PairingRows) : Keeps t t := fun _ row h => ⟨row, h, rfl, id⟩

/-- A row of the same hash, as consumed as before, may be put in place. -/
theorem keeps_insert {new : PairingRow}
    (h : ∀ row, t.lookup id = some row → new.codeHash = row.codeHash ∧
      (row.consumedAt.isSome = true → new.consumedAt.isSome = true)) :
    Keeps t (t.insert id new) := by
  intro k row hk
  by_cases hkid : k = id
  · subst hkid
    exact ⟨new, AList.lookup_insert _, h row hk⟩
  · exact ⟨row, by rw [AList.lookup_insert_ne hkid]; exact hk, rfl, fun hc => hc⟩

theorem createPairingCode_keeps {codeHash installationId : Text} {expiresAt : Time}
    (h : t.createPairingCode id codeHash installationId expiresAt = some t') : Keeps t t' := by
  unfold createPairingCode at h
  split at h
  · cases h
  next hfree =>
    cases h
    refine keeps_insert fun row hrow => ?_
    rw [hrow] at hfree
    simp at hfree

theorem incrementAttempts_keeps (t : PairingRows) (id : Text) :
    Keeps t (t.incrementAttempts id).2 := by
  unfold incrementAttempts
  split
  next row hrow =>
    refine keeps_insert fun row' hrow' => ?_
    obtain rfl := Option.some.inj (hrow.symm.trans hrow')
    exact ⟨rfl, fun hc => hc⟩
  next => exact .refl t

theorem consumePairing_keeps (t : PairingRows) (id : Text) (now : Time) :
    Keeps t (t.consumePairing id now) := by
  unfold consumePairing
  split
  next row hrow =>
    split
    · refine keeps_insert fun row' hrow' => ?_
      obtain rfl := Option.some.inj (hrow.symm.trans hrow')
      exact ⟨rfl, fun _ => rfl⟩
    · exact .refl t
  next => exact .refl t

/-- A code is consumed once it has been consumed. -/
theorem consumed_consumePairing {now : Time} (h : t.lookup id = some row) :
    ∃ row', (t.consumePairing id now).lookup id = some row' ∧ row'.consumedAt.isSome = true := by
  unfold consumePairing
  rw [h]
  dsimp only
  split
  · exact ⟨_, AList.lookup_insert _, rfl⟩
  next hsome => exact ⟨row, h, by simpa [Option.isSome_iff_ne_none] using hsome⟩

theorem findByHash_lookup {codeHash : Text} (h : t.findByHash codeHash = some (id, row)) :
    t.lookup id = some row ∧ row.codeHash = codeHash := by
  unfold findByHash at h
  obtain ⟨e, he, hpair⟩ := Option.map_eq_some_iff.mp h
  cases hpair
  have hmem := List.mem_of_find?_eq_some he
  exact ⟨AList.mem_lookup_iff.mpr hmem, by simpa using List.find?_some he⟩

end PairingRows

namespace Authorizations

/-- `authorize_user`. -/
def authorizeUser (t : Authorizations) (userId chatId : Int) (installationId displayName : Text)
    (permissionLevel : PermissionLevel) : Authorizations :=
  t.insert userId
    { chatId := chatId, installationId := installationId, displayName := displayName
      permissionLevel := permissionLevel, status := .active }

/-- `authorization_for`: an active row. -/
def authorizationFor (t : Authorizations) (userId : Int) : Option Authorization :=
  (t.lookup userId).filter fun row => row.status == .active

/-- `disconnect_user`. -/
def disconnectUser (t : Authorizations) (userId : Int) : Authorizations :=
  match t.lookup userId with
  | some row => t.insert userId { row with status := .disconnected }
  | none => t

/-- `_insert_row` of a legacy row: `INSERT OR IGNORE`. -/
def insertOrIgnore (t : Authorizations) (userId : Int) (row : Authorization) : Authorizations :=
  if (t.lookup userId).isSome then t else t.insert userId row

end Authorizations

end Shamsu.Telegram
