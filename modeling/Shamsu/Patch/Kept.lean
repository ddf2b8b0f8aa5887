import Shamsu.Patch.Beside

/-!
# What a finished transaction can put back

`Tracked` is the record of a transaction that runs. What is needed of it later,
when others have come and gone, is less: the entries of its manifest with their
backups (`Undo.Kept`), and that it changed nothing else (`Undo.Left`). A deleted
directory without files leaves that much too (`deleteFile_directory`), and so does
each operation on one file (`runFileOperation_kept`).
-/

namespace Shamsu.Patch

open Shamsu.Lib Shamsu.Py Shamsu.Safety

/-- A transaction as its manifest has it, and the disk it began on. -/
structure Undo where
  manifest : Manifest
  before : FS

/-- Every touched key has its entry, and `d` has the backup and room for it. -/
def Undo.Kept (root : Path) (u : Undo) (d : FS) : Prop :=
  ∀ k ∈ u.manifest.touchedFiles, ∃ h, u.manifest.beforeHashes.lookup k = some h ∧
    Entry root u.manifest.transactionId u.before u.manifest d k h

/-- The transaction left the files `f`: it changed the touched ones only, and put
no file above one that it has to bring back. -/
structure Undo.Left (root : Path) (u : Undo) (f : Files) : Prop where
  above : ∀ k ∈ u.manifest.touchedFiles, (u.before.content (root ++ parts k)).isSome = true →
    ∀ q, IsUserPath root q → q <+: root ++ parts k → q ≠ root ++ parts k → f q = none
  rest : ∀ p, IsUserPath root p → ¬ IsTouched root u.manifest.touchedFiles p →
    f p = u.before.content p

/-- The transaction `id` is on record, not rolled back, and can be put back. -/
def IsKept (engine : Engine) (id : Text) (d₀ : FS) (w : World) : Prop :=
  ∃ m, findManifest w id = some m ∧ m.status ≠ .rolledBack ∧
    (Undo.mk m d₀).Kept engine.root w.disk ∧ (Undo.mk m d₀).Left engine.root w.disk.content

section Kept

variable {engine : Engine} {id : Text} {d₀ : FS} {w w' : World}

theorem IsRecorded.isKept (h : IsRecorded engine id d₀ w) : IsKept engine id d₀ w := by
  obtain ⟨m, hm, hopen, hT⟩ := h
  have hid : m.transactionId = id := transactionId_of_findManifest hm
  refine ⟨m, hm, hopen, fun k hk => ?_, fun k hk hsome q _ hq hne => ?_, hT.untouched⟩
  · obtain ⟨a, hl, he⟩ := hT.entry hk
    exact ⟨a, hl, hid ▸ he⟩
  · obtain ⟨b, hb⟩ := Option.isSome_iff_exists.mp hsome
    have hpres := Disk.present_of_isFile (Disk.isFile_iff.mpr ⟨b, hb⟩)
    exact Disk.content_eq_none_of_isDir (hT.dirs q (Disk.isDir_above hq hne hpres))

/-- Only the id, the keys, the hashes and the backups of the manifest matter. -/
theorem Undo.Kept.of_record {root : Path} {m m' : Manifest} {d : FS}
    (h : (Undo.mk m d₀).Kept root d) (hid : m'.transactionId = m.transactionId)
    (hkeys : m'.touchedFiles = m.touchedFiles) (hhashes : m'.beforeHashes = m.beforeHashes)
    (hbackups : m'.backups = m.backups) : (Undo.mk m' d₀).Kept root d := by
  intro k hk
  obtain ⟨a, hl, he⟩ := h k (hkeys ▸ hk)
  refine ⟨a, hhashes ▸ hl, he.clean, he.leads, he.user, he.hash, fun b hb => ?_, he.free⟩
  show m'.backups.lookup k = some (backupsDir root m'.transactionId ++ parts k) ∧
    d.content (backupsDir root m'.transactionId ++ parts k) = some b
  rw [hbackups, hid]
  exact he.kept b hb

theorem Undo.Left.of_record {root : Path} {m m' : Manifest} {f : Files}
    (h : (Undo.mk m d₀).Left root f) (hkeys : m'.touchedFiles = m.touchedFiles) :
    (Undo.mk m' d₀).Left root f :=
  ⟨fun k hk => h.above k (hkeys ▸ hk), fun p hu hnt => h.rest p hu (hkeys ▸ hnt)⟩

/-- Writing a manifest with the same keys, hashes and backups. -/
theorem IsKept.write {m m' : Manifest} {d : FS} (hm : findManifest w id = some m)
    (hkept : (Undo.mk m d₀).Kept engine.root d) (hleft : (Undo.mk m d₀).Left engine.root d.content)
    (hid : m'.transactionId = m.transactionId) (hopen : m'.status ≠ .rolledBack)
    (hkeys : m'.touchedFiles = m.touchedFiles) (hhashes : m'.beforeHashes = m.beforeHashes)
    (hbackups : m'.backups = m.backups) (hd : w.disk = d) :
    IsKept engine id d₀ (writeManifest m' w).2 := by
  subst hd
  have hid' : m'.transactionId = id := hid.trans (transactionId_of_findManifest hm)
  exact ⟨m', findManifest_write hm hid', hopen, hkept.of_record hid hkeys hhashes hbackups,
    hleft.of_record hkeys⟩

theorem IsKept.finalize {status : TransactionStatus} {error : String} {r : Except Exn Manifest}
    (h : IsKept engine id d₀ w) (hstatus : status ≠ .rolledBack)
    (hrun : finalize id status error w = (r, w')) : IsKept engine id d₀ w' := by
  obtain ⟨m, hm, _, hkept, hleft⟩ := h
  unfold Patch.finalize at hrun
  rw [Prog.bind_of_ok (loadManifest_eq hm)] at hrun
  obtain ⟨_, rfl⟩ := Prod.mk.inj hrun
  exact IsKept.write hm hkept hleft rfl hstatus rfl rfl rfl rfl

theorem IsKept.saveVerification {v : VerificationOutcome} {r : Except Exn Unit}
    (h : IsKept engine id d₀ w) (hrun : saveVerification id v w = (r, w')) :
    IsKept engine id d₀ w' := by
  obtain ⟨m, hm, hopen, hkept, hleft⟩ := h
  unfold Patch.saveVerification at hrun
  rw [Prog.bind_of_ok (loadManifest_eq hm)] at hrun
  obtain ⟨_, rfl⟩ := Prod.mk.inj hrun
  exact IsKept.write hm hkept hleft rfl hopen rfl rfl rfl rfl

theorem IsKept.congr {d : FS} (h : IsKept engine id d₀ w) (hget : ∀ p, d.get p = w.disk.get p) :
    IsKept engine id d₀ { w with disk := d } := by
  obtain ⟨m, hm, hopen, hkept, hleft⟩ := h
  refine ⟨m, hm, hopen, fun k hk => ?_, ?_⟩
  · obtain ⟨a, hl, he⟩ := hkept k hk
    refine ⟨a, hl, he.clean, he.leads, he.user, he.hash, fun b hb => ⟨(he.kept b hb).1, ?_⟩,
      fun hs => ?_⟩
    · show d.content _ = some b
      rw [Disk.content_congr (hget _)]; exact (he.kept b hb).2
    · show d.isDir _ = false
      rw [Disk.isDir_congr (hget _)]; exact he.free hs
  · have hsame : d.content = w.disk.content := funext fun p => Disk.content_congr (hget p)
    show (Undo.mk m d₀).Left engine.root d.content
    rw [hsame]; exact hleft

/-- Noting what was left changes no key that is there. -/
theorem IsKept.recordAfter {k : Text} {r : Except Exn Unit} {m : Manifest}
    (hm : findManifest w id = some m) (hopen : m.status ≠ .rolledBack)
    (hkept : (Undo.mk m d₀).Kept engine.root w.disk)
    (hleft : (Undo.mk m d₀).Left engine.root w.disk.content) (hk : k ∈ m.touchedFiles)
    (hrun : recordAfter engine id k w = (r, w')) : IsKept engine id d₀ w' := by
  unfold Patch.recordAfter at hrun
  rw [Prog.bind_of_ok (loadManifest_eq hm), Prog.bind_of_ok (Prog.gets_apply _ w)] at hrun
  obtain ⟨_, rfl⟩ := Prod.mk.inj hrun
  exact IsKept.write hm hkept hleft rfl hopen (if_pos hk) rfl rfl rfl

/-- The last steps keep it, if the formatter and the command are quiet. -/
theorem concludeRequest_kept {plan : ChangePlan} {touched : List Text}
    {r : Except Exn MutationResult} (hquiet : engine.IsQuiet) (h : IsKept engine id d₀ w)
    (hrun : concludeRequest engine id plan touched w = (r, w')) : IsKept engine id d₀ w' := by
  unfold concludeRequest at hrun
  rcases Prog.bind_cases hrun with ⟨e, hf, rfl⟩ | ⟨_, w₁, hf, hrun⟩
  · obtain ⟨d, hd, rfl⟩ := onDisk_cases hf
    cases hd
  obtain ⟨d₁, hd₁, rfl⟩ := onDisk_cases hf
  cases hd₁
  have h₁ := h.congr (hquiet.format touched w.disk)
  have hverified : ∀ {v w₂}, runVerification engine plan.verificationCommand
      { w with disk := engine.format touched w.disk } = (v, w₂) → IsKept engine id d₀ w₂ := by
    intro v w₂ hv
    unfold runVerification at hv
    split at hv
    · cases hv; exact h₁
    · obtain ⟨d₂, hd₂, rfl⟩ := onDisk_cases hv
      cases hd₂
      exact h₁.congr (hquiet.verify _ _)
  rcases Prog.bind_cases hrun with ⟨e, hv, rfl⟩ | ⟨v, w₂, hv, hrun⟩
  · exact hverified hv
  have h₂ := hverified hv
  rcases Prog.bind_cases hrun with ⟨e, hs, rfl⟩ | ⟨_, w₃, hs, hrun⟩
  · exact h₂.saveVerification hs
  have h₃ := h₂.saveVerification hs
  have hstatus : (if isBlank plan.verificationCommand || v.passed then
      TransactionStatus.applied else .verificationFailed) ≠ .rolledBack := by split <;> simp
  rcases Prog.bind_cases hrun with ⟨e, hfin, rfl⟩ | ⟨m, w₄, hfin, hrun⟩
  · exact h₃.finalize hstatus hfin
  · cases hrun; exact h₃.finalize hstatus hfin

/-! ## One operation -/

/-- Deleting a directory with no file in it: nothing has to be brought back. -/
theorem deleteFile_directory {op : Operation} {m : Manifest} {r : Except Exn MutationOutcome}
    (h : Running engine id d₀ w m) (hnone : m.touchedFiles = []) (hroot : w.disk.isDir engine.root)
    (hu : IsUserPath engine.root (op.target engine.root))
    (hdir : d₀.isDir (op.target engine.root) = true)
    (hbare : ∀ p, op.target engine.root <+: p → d₀.content p = none)
    (hrun : deleteFile engine id op.path w = (r, w')) : IsKept engine id d₀ w' := by
  have hrecorded : ∀ {w m}, Running engine id d₀ w m → IsKept engine id d₀ w :=
    fun h => (IsRunning.recorded ⟨_, h⟩).isKept
  rcases withTargets_cases hrun with rfl | ⟨t, hv, hrun⟩
  · exact hrecorded h
  obtain ⟨rfl, hclean⟩ := target_of_mutation hv
  obtain ⟨_, hleads, _⟩ := cleanKey_of_mutation hv
  have hkey : KeySafe engine.root m op.path := fun t ht => by
    rw [hleads] at ht
    cases ht
    exact ⟨hu, fun k' hk' => by rw [hnone] at hk'; simp at hk'⟩
  rw [Prog.bind_of_ok (Prog.gets_apply _ w)] at hrun
  split at hrun
  swap
  · cases hrun; exact hrecorded h
  rcases Prog.bind_cases hrun with ⟨e, hs, rfl⟩ | ⟨_, w₁, hs, hrun⟩
  · obtain ⟨m₁, hs₁, _⟩ := snapshot_running h hclean hkey hs
    exact hrecorded hs₁.running
  obtain ⟨m₁, hs₁, hk₁⟩ := snapshot_running h hclean hkey hs
  have hspares : Spares engine.root id op w.disk w₁.disk := (snapshot_spares hclean).of_run hs
  have hroot₁ := hspares hroot
  have hT := hs₁.running.tracked
  have htouched : IsTouched engine.root m₁.touchedFiles (op.target engine.root) :=
    ⟨op.path, hk₁ rfl, hleads⟩
  have hmissing : d₀.content (op.target engine.root) = none := Disk.content_eq_none_of_isDir hdir
  have honly : ∀ k ∈ m₁.touchedFiles, k = op.path := fun k hk => by
    rcases hs₁.only k hk with hk | rfl
    · rw [hnone] at hk; simp at hk
    · rfl
  -- however the move ends, the record is as the snapshot left it
  have hmoved : ∀ {r₂ w₂}, moveToTrash engine id (op.target engine.root) op.path w₁ = (r₂, w₂) →
      findManifest w₂ id = some m₁ ∧ (Undo.mk m₁ d₀).Kept engine.root w₂.disk ∧
        (Undo.mk m₁ d₀).Left engine.root w₂.disk.content := by
    intro r₂ w₂ hm
    have hbeside := (moveToTrash_spares hu hclean).of_run hm hroot₁.stays
    have hsame : w₂.transactions = w₁.transactions := by
      unfold moveToTrash at hm
      split at hm
      · rcases Prog.bind_cases hm with ⟨e, h₁, rfl⟩ | ⟨_, w₁', h₁, h₂⟩
        · obtain ⟨d, _, rfl⟩ := onDisk_cases h₁; rfl
        · obtain ⟨d, _, rfl⟩ := onDisk_cases h₁
          obtain ⟨d', _, rfl⟩ := onDisk_cases h₂; rfl
      · cases hm; rfl
    refine ⟨?_, fun k hk => ?_, fun k hk hsome => ?_, fun p hp hnt => ?_⟩
    · rw [findManifest, hsame]; exact hs₁.running.found
    · obtain rfl := honly k hk
      obtain ⟨a, hl, he⟩ := hT.entry hk
      refine ⟨a, hl, he.clean, he.leads, he.user, he.hash, fun b hb => ?_, fun hsome => ?_⟩
      · exact absurd (hb.symm.trans hmissing) (by simp)
      · exact absurd (hsome.symm.trans (congrArg Option.isSome hmissing)) (by simp)
    · obtain rfl := honly k hk
      exact absurd (hsome.symm.trans (congrArg Option.isSome hmissing)) (by simp)
    · have hne : p ≠ op.target engine.root := fun e => hnt (e ▸ htouched)
      have hold := hT.untouched p hp hnt
      rcases hbeside.content p hp hne with hc | ⟨hpre, hc⟩
      · exact hc.trans hold
      · exact hc.trans (hbare p hpre).symm
  have hopen : m₁.status ≠ .rolledBack := by rw [hs₁.running.pending]; simp
  rcases Prog.bind_cases hrun with ⟨e, hm, rfl⟩ | ⟨_, w₂, hm, hrun⟩
  · obtain ⟨hm₁, hkept, hleft⟩ := hmoved hm
    exact ⟨m₁, hm₁, hopen, hkept, hleft⟩
  obtain ⟨hm₁, hkept, hleft⟩ := hmoved hm
  rcases Prog.bind_cases hrun with ⟨e, hn, rfl⟩ | ⟨_, w₃, hn, hrun⟩
  · exact IsKept.recordAfter hm₁ hopen hkept hleft (hk₁ rfl) hn
  · cases hrun
    exact IsKept.recordAfter hm₁ hopen hkept hleft (hk₁ rfl) hn

/-- The operation is about a path of the user, and deletes no directory with a
file in it. -/
structure Operation.IsTidy (root : Path) (op : Operation) (d : FS) : Prop where
  user : IsUserPath root (op.target root)
  bare : op.op = .deleteFile → d.isDir (op.target root) = true →
    ∀ p, op.target root <+: p → d.content p = none

/-- **Step lemma**: one operation of a new transaction can be put back. -/
theorem runFileOperation_kept {op : Operation} {m : Manifest} {r : Except Exn MutationOutcome}
    (h : Running engine id w.disk w m) (hnone : m.touchedFiles = [])
    (hroot : w.disk.isDir engine.root) (hkind : op.IsFileChange)
    (htidy : op.IsTidy engine.root w.disk)
    (hrun : runFileOperation engine id op w = (r, w')) : IsKept engine id w.disk w' := by
  by_cases hd : op.op = .deleteFile ∧ w.disk.isDir (op.target engine.root) = true
  · unfold runFileOperation at hrun
    rw [hd.1] at hrun
    exact deleteFile_directory h hnone hroot htidy.user hd.2 (htidy.bare hd.1 hd.2) hrun
  -- a path that fails the checks changes nothing
  have hvalid : w' = w ∨ ∃ t, validateMutationPath engine.root op.path = .ok t := by
    unfold runFileOperation at hrun
    rcases hkind with hk | hk | hk <;>
      (rw [hk] at hrun; exact (withTargets_cases hrun).imp_right fun ⟨t, ht, _⟩ => ⟨t, ht⟩)
  rcases hvalid with rfl | ⟨t, hv⟩
  · exact (IsRunning.recorded ⟨m, h⟩).isKept
  obtain ⟨_, hleads, _⟩ := cleanKey_of_mutation hv
  have hkey : KeySafe engine.root m op.path := fun t ht => by
    rw [hleads] at ht
    cases ht
    exact ⟨htidy.user, fun k' hk' => by rw [hnone] at hk'; simp at hk'⟩
  have hsafe : OperationSafe engine.root m w.disk op := by
    unfold OperationSafe
    rcases hkind with hk | hk | hk
    · rw [hk]
      exact ⟨hkey, fun k hm => by rw [hnone] at hm; simp at hm⟩
    · rw [hk]; exact hkey
    · rw [hk]
      refine ⟨hkey, ?_⟩
      cases hdir : w.disk.isDir (engine.root ++ parts op.path) with
      | false => rfl
      | true => exact absurd ⟨hk, hdir⟩ hd
  exact (IsRunning.recorded (runFileOperation_running h hsafe hrun)).isKept

end Kept

end Shamsu.Patch
