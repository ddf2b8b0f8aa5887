import Shamsu.Patch.Running

/-!
# A change request can be rolled back

The transaction of a request begins with an empty manifest, which tracks the
disk it begins on; the diff and the operations keep it tracking (the run lemmas
of `Shamsu.Patch.Running`), and the last steps only add a verification and a
status. So a rollback finds every touched path recoverable
(`Tracked.recoverable`) and puts the files back.

**`executeChangeRequest_rollback_restores`** says so for every request whose
steps are safe. The source takes requests that are not:
`executeChangeRequest_rollback_loses` deletes a directory.
-/

namespace Shamsu.Patch

open Shamsu.Lib Shamsu.Py Shamsu.Safety

/-- A new transaction id: no manifest has it, and nothing is in its directory. -/
def IsFresh (engine : Engine) (id : Text) (w : World) : Prop :=
  findManifest w id = none ∧ w.disk.present (transactionDir engine.root id) = false

/-- The formatter and the verification command write nothing. -/
structure Engine.IsQuiet (engine : Engine) : Prop where
  format : ∀ files d p, (engine.format files d).get p = d.get p
  verify : ∀ command d p, (engine.verify command d).2.get p = d.get p

/-- The diff and the operations of a request are safe, from the state its
transaction begins in. -/
def RequestSafe (engine : Engine) (id : Text) (plan : ChangePlan) (patchText : Text)
    (w : World) : Prop :=
  ∀ patches, requestPatches engine patchText = .ok patches →
    FilePatchesSafe engine id patches w ∧
    ∀ touched w', applyFilePatchesTx engine id patches w = (.ok touched, w') →
      OperationsSafe engine id (patches.map FilePatch.displayPath) plan.operations w'

/-- The manifest of `id` tracks its transaction, which is not rolled back. -/
def IsRecorded (engine : Engine) (id : Text) (d₀ : FS) (w : World) : Prop :=
  ∃ m, findManifest w id = some m ∧ m.status ≠ .rolledBack ∧ Tracked engine.root id d₀ m w.disk

section Undo

variable {engine : Engine} {id : Text} {d₀ : FS} {w w' : World}

theorem IsRunning.recorded (h : IsRunning engine id d₀ w) : IsRecorded engine id d₀ w := by
  obtain ⟨m, h⟩ := h
  exact ⟨m, h.found, by rw [h.pending]; simp, h.tracked⟩

/-- **A recorded transaction can be rolled back**: every user file is as in `d₀`. -/
theorem IsRecorded.rollback (h : IsRecorded engine id d₀ w) :
    ∃ message w', rollbackTransaction engine id w = (.ok (true, message), w') ∧
      ∀ p, IsUserPath engine.root p → w'.disk.content p = d₀.content p := by
  obtain ⟨m, hm, hopen, hT⟩ := h
  obtain ⟨message, d, hrun, hc, _⟩ := rollbackTransaction_restores (f := d₀.content) hm hopen
    (fun k hk => hT.recoverable hk) (spread_content d₀ engine.root m.touchedFiles)
  refine ⟨message, _, hrun, fun p hp => ?_⟩
  show d.content p = _
  rw [hc]
  split
  next => rfl
  next hnt => exact hT.untouched p hp hnt

/-- An empty manifest tracks the disk it is begun on. -/
theorem tracked_new {root : Path} {stamp : Stamp} {reason : Text} {operations : List Operation}
    {destructive : Bool} {d : FS} (hc : d.isClear (transactionDir root stamp.id) = true)
    (hfresh : d.present (transactionDir root stamp.id) = false) :
    Tracked root stamp.id (d.mkdirs _ hc) (newManifest stamp reason operations destructive)
      (d.mkdirs _ hc) := by
  refine ⟨rfl, by simp [newManifest], fun _ _ _ => rfl, fun _ h => h, ?_, ?_⟩
  · rw [Disk.isDir_iff, Disk.get_mkdirs, if_pos (List.prefix_refl _)]
  · -- nothing is under a new directory
    intro s _ hp
    have hbelow : ¬ backupsDir root stamp.id ++ s <+: transactionDir root stamp.id := by
      intro hpre
      have hle := hpre.length_le
      simp only [backupsDir, List.length_append, List.length_cons] at hle
      omega
    have hnone : d.get (backupsDir root stamp.id ++ s) = none := by
      refine Disk.get_eq_none_below (p := transactionDir root stamp.id) ?_ ?_ ?_
      · simp [backupsDir]
      · simp [backupsDir]
      · exact Disk.isDir_eq_false.mpr (by rw [Disk.present_eq_false.mp hfresh]; simp)
    rw [Disk.present, Disk.get_mkdirs, if_neg hbelow, hnone] at hp
    simp at hp

/-- A transaction begins with a manifest that tracks the disk. -/
theorem beginTransaction_running {stamp : Stamp} {reason : Text} {operations : List Operation}
    {destructive : Bool} (hfresh : IsFresh engine stamp.id w)
    (hrun : beginTransaction engine stamp reason operations destructive w = (.ok (), w')) :
    IsRunning engine stamp.id w'.disk w' ∧ ∀ p, w'.disk.content p = w.disk.content p := by
  obtain ⟨hc, rfl⟩ := beginTransaction_ok hrun
  refine ⟨⟨newManifest stamp reason operations destructive, ?_, rfl, tracked_new hc hfresh.2⟩,
    fun p => Disk.content_mkdirs _ _ _ hc⟩
  have hnone : (w.transactions.find? fun m => decide (m.transactionId = stamp.id)) = none :=
    hfresh.1
  show (w.transactions ++ _).find? _ = _
  rw [List.find?_append, hnone]
  simp [newManifest]

/-- The diff and the operations keep the record. -/
theorem applyRequest_running {plan : ChangePlan} {patchText : Text}
    {r : Except Exn (List Text)} (h : IsRunning engine id d₀ w)
    (hsafe : RequestSafe engine id plan patchText w)
    (hrun : applyRequest engine id plan patchText w = (r, w')) : IsRunning engine id d₀ w' := by
  rcases Prog.ofExcept_bind hrun with ⟨_, _, _, rfl⟩ | ⟨patches, hpatches, hrun⟩
  · exact h
  obtain ⟨hsafe₁, hsafe₂⟩ := hsafe patches hpatches
  have hpaths : ∀ patch ∈ patches,
      IsHeaderPath engine.root patch.oldPath ∧ IsHeaderPath engine.root patch.newPath := by
    intro patch hp
    unfold requestPatches at hpatches
    split at hpatches
    · cases hpatches; simp at hp
    · exact parseFilePatches_ok hpatches hp
  dsimp only at hrun
  rcases Prog.ofExcept_bind hrun with ⟨_, _, _, rfl⟩ | ⟨_, _, hrun⟩
  · exact h
  rcases Prog.bind_cases hrun with ⟨e, hp, rfl⟩ | ⟨patched, w₁, hp, hrun⟩
  · exact applyFilePatchesTx_running h hpaths hsafe₁ hp
  have h₁ := applyFilePatchesTx_running h hpaths hsafe₁ hp
  rcases Prog.bind_cases hrun with ⟨e, ho, rfl⟩ | ⟨touched, w₂, ho, hrun⟩
  · exact runOperations_running h₁ (hsafe₂ _ _ hp) ho
  · cases hrun
    exact runOperations_running h₁ (hsafe₂ _ _ hp) ho

/-- A disk that reads the same is tracked the same. -/
theorem Tracked.congr {root : Path} {m : Manifest} {d d' : FS} (h : Tracked root id d₀ m d)
    (hget : ∀ p, d'.get p = d.get p) : Tracked root id d₀ m d' :=
  h.frame (fun p _ _ => Disk.content_congr (hget p)) (fun _ => hget _)
    (fun p hp => by rw [Disk.isDir_congr (hget p)]; exact hp)
    (fun k hk hsome => by
      obtain ⟨a, _, he⟩ := h.entry hk
      rw [Disk.isDir_congr (hget _)]; exact he.free hsome)

/-- Setting the status of a recorded transaction. -/
theorem IsRecorded.finalize {status : TransactionStatus} {error : String}
    {r : Except Exn Manifest} (h : IsRecorded engine id d₀ w) (hstatus : status ≠ .rolledBack)
    (hrun : finalize id status error w = (r, w')) : IsRecorded engine id d₀ w' := by
  obtain ⟨m, hm, _, hT⟩ := h
  have hid : m.transactionId = id := transactionId_of_findManifest hm
  unfold Patch.finalize at hrun
  rw [Prog.bind_of_ok (loadManifest_eq hm)] at hrun
  obtain ⟨_, rfl⟩ := Prod.mk.inj hrun
  exact ⟨_, findManifest_write hm hid, hstatus, hT.of_record rfl rfl rfl⟩

theorem IsRecorded.saveVerification {v : VerificationOutcome} {r : Except Exn Unit}
    (h : IsRecorded engine id d₀ w) (hrun : saveVerification id v w = (r, w')) :
    IsRecorded engine id d₀ w' := by
  obtain ⟨m, hm, hopen, hT⟩ := h
  have hid : m.transactionId = id := transactionId_of_findManifest hm
  unfold Patch.saveVerification at hrun
  rw [Prog.bind_of_ok (loadManifest_eq hm)] at hrun
  obtain ⟨_, rfl⟩ := Prod.mk.inj hrun
  exact ⟨_, findManifest_write hm hid, hopen, hT.of_record rfl rfl rfl⟩

theorem IsRecorded.congr {d : FS} (h : IsRecorded engine id d₀ w)
    (hget : ∀ p, d.get p = w.disk.get p) : IsRecorded engine id d₀ { w with disk := d } := by
  obtain ⟨m, hm, hopen, hT⟩ := h
  exact ⟨m, hm, hopen, hT.congr hget⟩

/-- The last steps keep the record, if the formatter and the command are quiet. -/
theorem concludeRequest_recorded {plan : ChangePlan} {touched : List Text}
    {result : MutationResult} (hquiet : engine.IsQuiet) (h : IsRecorded engine id d₀ w)
    (hrun : concludeRequest engine id plan touched w = (.ok result, w')) :
    IsRecorded engine id d₀ w' ∧ result.transactionId = id := by
  obtain ⟨_, w₁, hf, hrun⟩ := Prog.bind_ok.mp hrun
  obtain ⟨d₁, hd₁, rfl⟩ := onDisk_cases hf
  cases hd₁
  have h₁ := h.congr (hquiet.format touched w.disk)
  obtain ⟨v, w₂, hv, hrun⟩ := Prog.bind_ok.mp hrun
  have h₂ : IsRecorded engine id d₀ w₂ := by
    unfold runVerification at hv
    split at hv
    · cases hv; exact h₁
    · obtain ⟨d₂, hd₂, rfl⟩ := onDisk_cases hv
      cases hd₂
      exact h₁.congr (hquiet.verify _ _)
  obtain ⟨_, w₃, hs, hrun⟩ := Prog.bind_ok.mp hrun
  have h₃ := h₂.saveVerification hs
  obtain ⟨m, w₄, hfin, hrun⟩ := Prog.bind_ok.mp hrun
  have h₄ := h₃.finalize (by split <;> simp) hfin
  cases hrun
  exact ⟨h₄, rfl⟩

/-- However the transaction ends, it is recorded. -/
theorem runRequest_recorded {plan : ChangePlan} {patchText : Text} {result : MutationResult}
    (hquiet : engine.IsQuiet) (h : IsRunning engine id d₀ w)
    (hsafe : RequestSafe engine id plan patchText w)
    (hrun : runRequest engine id plan patchText w = (.ok result, w')) :
    IsRecorded engine id d₀ w' ∧ result.transactionId = id := by
  unfold runRequest at hrun
  split at hrun
  next touched w₁ happly =>
    exact concludeRequest_recorded hquiet (applyRequest_running h hsafe happly).recorded hrun
  next e w₁ happly =>
    split at hrun
    · obtain ⟨m, w₂, hfin, hrun⟩ := Prog.bind_ok.mp hrun
      have h₂ := (applyRequest_running h hsafe happly).recorded.finalize (by simp) hfin
      cases hrun
      exact ⟨h₂, rfl⟩
    · cases hrun

end Undo

/-- Every step of the execution is safe in the state before it. -/
def ExecutionSafe (engine : Engine) (stamp : Stamp) (request : ChangeRequest) (w : World) : Prop :=
  ∀ r w' w₁ w₂, Approved engine stamp request w r w' w₁ w₂ →
    RequestSafe engine stamp.id request.changePlan (engine.sanitize request.patch) w₂

/-- **An executed request can be rolled back**: when its steps are safe and it
ends as applied, failed or with a failed verification, rolling back its
transaction right away succeeds and every user file has the existence and the
bytes it had before the request. -/
theorem executeChangeRequest_rollback_restores {engine : Engine} {stamp : Stamp} {payload : Value}
    {w w' : World} {result : MutationResult} (hquiet : engine.IsQuiet)
    (hfresh : IsFresh engine stamp.id w)
    (hrun : executeChangeRequest engine stamp payload w = (.ok result, w'))
    (hended : result.status ∈
      [.applied, .verified, .appliedUnverified, .verificationFailed, .applyFailed])
    (hsafe : ∀ request, parseChangeRequest payload = .ok request →
      ExecutionSafe engine stamp request w) :
    ∃ message w'', rollbackTransaction engine result.transactionId w' =
        (.ok (true, message), w'') ∧
      ∀ p, IsUserPath engine.root p → w''.disk.content p = w.disk.content p := by
  rcases executeChangeRequest_cases hrun with ⟨_, _, hs⟩ | ⟨request, w₁, w₂, hparse, ha⟩
  · rcases hs result rfl with hs | hs <;> (rw [hs] at hended; simp at hended)
  have hw₁ := askApproval_world ha.asked
  have hfresh₁ : IsFresh engine stamp.id w₁ := by
    unfold IsFresh findManifest
    rw [hw₁.1, hw₁.2]; exact hfresh
  obtain ⟨hrunning, hsame⟩ := beginTransaction_running hfresh₁ ha.begun
  obtain ⟨hrecorded, hid⟩ := runRequest_recorded hquiet hrunning
    (hsafe request hparse _ w' w₁ w₂ ha) ha.ran
  obtain ⟨message, w'', hroll, hc⟩ := hrecorded.rollback
  exact ⟨message, w'', hid ▸ hroll, fun p hp => by rw [hc p hp, hsame, hw₁.1]⟩

/-! ## Two runs -/

/-- Edit one file and delete another. -/
def editAndDelete : Value := requestOf
  [[("op", "edit_file"), ("path", "a.txt"), ("content", "new\n")],
   [("op", "delete_file"), ("path", "b.txt")]] ""

def editAndDeleteWorkspace : World := .ofFiles [("a.txt", "x\n"), ("b.txt", "y\n")]

theorem agreeable_isQuiet : Engine.agreeable.IsQuiet := ⟨fun _ _ _ => rfl, fun _ _ _ => rfl⟩

/-- The theorem on a run: both files are back. -/
theorem executeChangeRequest_rollback_restores_editAndDelete :
    ∃ result w', executeChangeRequest .agreeable ⟨"t1".toList, "2024".toList⟩ editAndDelete
        editAndDeleteWorkspace = (.ok result, w') ∧
      w'.disk.content ["ws".toList, "b.txt".toList] = none ∧
      ∃ message w'', rollbackTransaction .agreeable result.transactionId w' =
          (.ok (true, message), w'') ∧
        ∀ p, IsUserPath ["ws".toList] p →
          w''.disk.content p = editAndDeleteWorkspace.disk.content p := by
  have hrun : Prog.returns (fun r w' => r.status == .appliedUnverified &&
      w'.disk.content ["ws".toList, "b.txt".toList] == none)
      (executeChangeRequest .agreeable ⟨"t1".toList, "2024".toList⟩ editAndDelete
        editAndDeleteWorkspace) = true := by decide +kernel
  obtain ⟨result, w', hrun, hs⟩ := Prog.returns_iff.mp hrun
  simp only [Bool.and_eq_true, beq_iff_eq] at hs
  refine ⟨result, w', hrun, hs.2, executeChangeRequest_rollback_restores agreeable_isQuiet
    ⟨rfl, by decide⟩ hrun (by rw [hs.1]; decide) fun request hparse => ?_⟩
  have hparse' : parseChangeRequest editAndDelete = .ok ⟨⟨"tidy up".toList,
      [⟨.editFile, "a.txt".toList, [], [], "new\n".toList⟩,
       ⟨.deleteFile, "b.txt".toList, [], [], []⟩], [], true⟩, []⟩ := by decide
  obtain rfl := Except.ok.inj (hparse'.symm.trans hparse)
  have hsnd : ∀ {α : Type} {x : Except Exn α × World} {r s}, x = (r, s) → s = x.2 :=
    fun h => by rw [h]
  intro _ _ w₁ w₂ ha patches hpatches
  have hpatches' : requestPatches .agreeable [] = .ok [] := by decide
  obtain rfl := Except.ok.inj (hpatches'.symm.trans hpatches)
  have hw₂ := hsnd ha.begun
  rw [hsnd ha.asked] at hw₂
  refine ⟨trivial, fun _ w₃ h₃ => ?_⟩
  cases h₃
  subst hw₂
  refine ⟨?_, fun _ w₄ h₄ => ⟨?_, fun _ _ _ => trivial⟩⟩
  · show ∀ m ∈ findManifest _ _, KeySafe _ m _
    decide
  · rw [hsnd h₄]
    show ∀ m ∈ findManifest _ _, KeySafe _ m _ ∧ _ = false
    decide

/-- Delete a directory. -/
def deleteDirectory : Value := requestOf [[("op", "delete_file"), ("path", "d")]] ""

/-- Without the condition it fails: nothing of the directory is recorded, so the
rollback reports success and the file in it is gone. -/
theorem executeChangeRequest_rollback_loses :
    ¬ ∀ (engine : Engine) (stamp : Stamp) (payload : Value) (w w' : World)
      (result : MutationResult), engine.IsQuiet → IsFresh engine stamp.id w →
      executeChangeRequest engine stamp payload w = (.ok result, w') →
      result.status ∈ [.applied, .verified, .appliedUnverified, .verificationFailed, .applyFailed] →
      ∃ message w'', rollbackTransaction engine result.transactionId w' =
          (.ok (true, message), w'') ∧
        ∀ p, IsUserPath engine.root p → w''.disk.content p = w.disk.content p := by
  intro h
  have hrun : Prog.returns (fun r w' => r.status == .appliedUnverified &&
      (rollbackTransaction .agreeable r.transactionId w').2.disk.content
        ["ws".toList, "d".toList, "f".toList] == none)
      (executeChangeRequest .agreeable ⟨"t1".toList, "2024".toList⟩ deleteDirectory
        (.ofFiles [("d/f", "x\n")])) = true := by decide +kernel
  obtain ⟨result, w', hrun, hs⟩ := Prog.returns_iff.mp hrun
  simp only [Bool.and_eq_true, beq_iff_eq] at hs
  obtain ⟨message, w'', hroll, hsame⟩ := h _ _ _ _ _ _ agreeable_isQuiet ⟨rfl, by decide⟩
    hrun (by rw [hs.1]; decide)
  have hf := hsame ["ws".toList, "d".toList, "f".toList] (by decide)
  rw [hroll] at hs
  rw [hs.2] at hf
  exact absurd hf (by decide)

end Shamsu.Patch
