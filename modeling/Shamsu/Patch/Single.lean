import Shamsu.Patch.Kept

/-!
# A transaction with one operation

The diff of the request is empty, so its transaction is the operation and the last
steps (`runRequest_single`). Two things are carried through them: the store has one
manifest more, under the id and the time the transaction was begun with
(`StoreKeeps`), and the disk is as `Beside` says (`concludeRequest_spares`).
-/

namespace Shamsu.Patch

open Shamsu.Lib Shamsu.Py Shamsu.Safety

/-! ## The store -/

/-- The manifests are `older` and, last, the one begun with `stamp`. -/
def Extends (older : List Manifest) (stamp : Stamp) (w : World) : Prop :=
  ∃ m, w.transactions = older ++ [m] ∧ m.transactionId = stamp.id ∧ m.createdAt = stamp.createdAt

/-- `x` writes no manifest but the last, and that under its id and time. -/
def StoreKeeps {α : Type} (older : List Manifest) (stamp : Stamp) (x : Prog Exn World α) : Prop :=
  Prog.Keeps (fun w w' => Extends older stamp w → Extends older stamp w') x

/-- The manifest begun last is the one with its id. -/
theorem findManifest_last {older : List Manifest} {stamp : Stamp} {w : World} {m : Manifest}
    (hnew : ∀ m ∈ older, m.transactionId ≠ stamp.id) (hts : w.transactions = older ++ [m])
    (hid : m.transactionId = stamp.id) : findManifest w stamp.id = some m := by
  have hnone : older.find? (fun m => decide (m.transactionId = stamp.id)) = none :=
    List.find?_eq_none.mpr fun m hm => by simpa using hnew m hm
  unfold findManifest
  rw [hts, List.find?_append, hnone]
  simp [hid]

namespace StoreKeeps

variable {α β : Type} {older : List Manifest} {stamp : Stamp}

theorem bind {x : Prog Exn World α} {f : α → Prog Exn World β} (hx : StoreKeeps older stamp x)
    (hf : ∀ a, StoreKeeps older stamp (f a)) : StoreKeeps older stamp (x >>= f) :=
  Prog.Keeps.bind (fun _ _ _ h₁ h₂ h => h₂ (h₁ h)) hx hf

theorem of_run {x : Prog Exn World α} (h : StoreKeeps older stamp x) {w w' : World}
    {r : Except Exn α} (hw : Extends older stamp w) (hrun : x w = (r, w')) :
    Extends older stamp w' := by
  have := h w hw
  rw [hrun] at this
  exact this

/-- A program that writes no manifest. -/
theorem still {x : Prog Exn World α} (h : ∀ w, (x w).2.transactions = w.transactions) :
    StoreKeeps older stamp x := by
  intro w hw
  unfold Extends
  rw [h w]
  exact hw

theorem disk (x : FSProg α) : StoreKeeps older stamp (onDisk x) := still fun _ => rfl

theorem pure (a : α) : StoreKeeps older stamp (Pure.pure a : Prog Exn World α) := still fun _ => rfl

theorem gets (f : World → α) : StoreKeeps older stamp (Prog.gets f) := still fun _ => rfl

theorem ofExcept (r : Except Exn α) : StoreKeeps older stamp (Prog.ofExcept r) :=
  still fun _ => rfl

variable (hnew : ∀ m ∈ older, m.transactionId ≠ stamp.id)
include hnew

theorem write {m : Manifest} (hid : m.transactionId = stamp.id)
    (hcreated : m.createdAt = stamp.createdAt) : StoreKeeps older stamp (writeManifest m) := by
  intro w h
  obtain ⟨m₀, hts, hid₀, _⟩ := h
  refine ⟨m, ?_, hid, hcreated⟩
  have hsame : older.map (fun m' => if m'.transactionId = m.transactionId then m else m') = older :=
    (List.map_congr_left fun m' hm' => if_neg (by rw [hid]; exact hnew m' hm')).trans
      (List.map_id' older)
  show w.transactions.map _ = _
  rw [hts, List.map_append, hsame]
  simp [hid₀, hid]

/-- What is written with the manifest that is on record. -/
theorem load {f : Manifest → Prog Exn World α}
    (h : ∀ m, m.transactionId = stamp.id → m.createdAt = stamp.createdAt →
      StoreKeeps older stamp (f m)) : StoreKeeps older stamp (loadManifest stamp.id >>= f) := by
  intro w hw
  obtain ⟨m, hts, hid, hcreated⟩ := hw
  rw [Prog.bind_of_ok (loadManifest_eq (findManifest_last hnew hts hid))]
  exact h m hid hcreated w ⟨m, hts, hid, hcreated⟩

theorem snapshot (engine : Engine) (k : Text) :
    StoreKeeps older stamp (Patch.snapshot engine stamp.id k) := by
  refine load hnew fun m hid hcreated => ?_
  split
  · exact pure ()
  · refine bind (ofExcept _) fun t => bind (gets _) fun _ => bind ?_ fun _ =>
      write hnew hid hcreated
    exact Prog.Keeps.whenever (fun _ h => h) (bind (disk _) fun _ => disk _)

theorem recordAfter (engine : Engine) (k : Text) :
    StoreKeeps older stamp (Patch.recordAfter engine stamp.id k) :=
  load hnew fun _ hid hcreated => bind (gets _) fun _ => write hnew hid hcreated

theorem finalize (status : TransactionStatus) (error : String) :
    StoreKeeps older stamp (Patch.finalize stamp.id status error) :=
  load hnew fun _ hid hcreated => bind (write hnew hid hcreated) fun _ => pure _

theorem saveVerification (v : VerificationOutcome) :
    StoreKeeps older stamp (Patch.saveVerification stamp.id v) :=
  load hnew fun _ hid hcreated => write hnew hid hcreated

omit hnew in
theorem withTargets {targets : Except Exn α} {refusal : String → MutationOutcome}
    {body : α → Prog Exn World MutationOutcome} (h : ∀ a, StoreKeeps older stamp (body a)) :
    StoreKeeps older stamp (Patch.withTargets targets refusal body) := by
  unfold Patch.withTargets
  cases targets with
  | ok a => exact h a
  | error e =>
    dsimp only
    split
    · exact pure _
    · exact still fun _ => rfl

theorem runFileOperation (engine : Engine) {op : Operation} (hop : op.IsFileChange) :
    StoreKeeps older stamp (Patch.runFileOperation engine stamp.id op) := by
  unfold Patch.runFileOperation
  rcases hop with h | h | h <;> rw [h]
  · refine withTargets fun t => bind (gets _) fun _ => ?_
    split
    · exact pure _
    · exact bind (snapshot hnew engine _) fun _ => bind (disk _) fun _ => bind (disk _) fun _ =>
        bind (recordAfter hnew engine _) fun _ => pure _
  · refine withTargets fun t => bind (gets _) fun _ => ?_
    split
    · exact bind (snapshot hnew engine _) fun _ => bind (disk _) fun _ =>
        bind (recordAfter hnew engine _) fun _ => pure _
    · exact pure _
  · refine withTargets fun t => bind (gets _) fun _ => ?_
    split
    · refine bind (snapshot hnew engine _) fun _ => bind ?_ fun _ =>
        bind (recordAfter hnew engine _) fun _ => pure _
      unfold moveToTrash
      dsimp only
      split
      · exact bind (disk _) fun _ => disk _
      · exact still fun _ => rfl
    · exact pure _

theorem concludeRequest (engine : Engine) (plan : ChangePlan) (touched : List Text) :
    StoreKeeps older stamp (Patch.concludeRequest engine stamp.id plan touched) := by
  refine bind (disk _) fun _ => bind ?_ fun v => bind (saveVerification hnew v) fun _ =>
    bind (finalize hnew _ _) fun _ => pure _
  unfold runVerification
  split
  · exact pure _
  · exact disk _

end StoreKeeps

/-! ## A request with one operation -/

section Request

variable {engine : Engine} {id : Text} {op : Operation} {plan : ChangePlan} {patchText : Text}

theorem applyRequest_single {w w' : World} {r : Except Exn (List Text)}
    (hops : plan.operations = [op]) (hkind : op.IsFileChange) (hblank : isBlank patchText = true)
    (hrun : applyRequest engine id plan patchText w = (r, w')) :
    w' = w ∨ ∃ r', runFileOperation engine id op w = (r', w') := by
  have hpatches : requestPatches engine patchText = .ok [] := if_pos hblank
  have hdone : isDoneByDiff [] op = false := by
    unfold isDoneByDiff
    rcases hkind with h | h | h <;> simp [h]
  unfold applyRequest at hrun
  rw [hpatches] at hrun
  rcases Prog.ofExcept_bind hrun with ⟨_, h, _⟩ | ⟨patches, h, hrun⟩
  · cases h
  cases h
  dsimp only at hrun
  rcases Prog.ofExcept_bind hrun with ⟨_, _, _, rfl⟩ | ⟨_, _, hrun⟩
  · exact Or.inl rfl
  have hoperations : ∀ {r₁ w₁}, runOperations engine id [] plan.operations w = (r₁, w₁) →
      ∃ r', runFileOperation engine id op w = (r', w₁) := by
    intro r₁ w₁ h
    rw [hops] at h
    unfold runOperations at h
    rw [if_neg (by simp [hdone])] at h
    rcases Prog.bind_cases h with ⟨e, ho, rfl⟩ | ⟨outcome, w₂, ho, h⟩
    · exact ⟨_, ho⟩
    refine ⟨.ok outcome, ?_⟩
    split at h
    · cases h; exact ho
    · cases h; exact ho
  rcases Prog.bind_cases hrun with ⟨e, hp, rfl⟩ | ⟨patched, w₁, hp, hrun⟩
  · cases hp
  cases hp
  rcases Prog.bind_cases hrun with ⟨e, ho, rfl⟩ | ⟨touched, w₂, ho, hrun⟩
  · exact Or.inr (hoperations ho)
  · cases hrun; exact Or.inr (hoperations ho)

/-- What the operation and the last steps keep, the transaction keeps. -/
theorem runRequest_single {P : World → Prop} {w w' : World} {r : Except Exn MutationResult}
    (hops : plan.operations = [op]) (hkind : op.IsFileChange) (hblank : isBlank patchText = true)
    (hw : P w) (hop : ∀ r₁ w₁, runFileOperation engine id op w = (r₁, w₁) → P w₁)
    (hfail : ∀ error r₁ w₁ w₂, P w₁ → finalize id .failed error w₁ = (r₁, w₂) → P w₂)
    (hconclude : ∀ touched r₁ w₁ w₂, P w₁ →
      concludeRequest engine id plan touched w₁ = (r₁, w₂) → P w₂)
    (hrun : runRequest engine id plan patchText w = (r, w')) : P w' := by
  have happlied : ∀ {r₁ w₁}, applyRequest engine id plan patchText w = (r₁, w₁) → P w₁ := by
    intro r₁ w₁ h
    rcases applyRequest_single hops hkind hblank h with rfl | ⟨r', h⟩
    · exact hw
    · exact hop r' w₁ h
  unfold runRequest at hrun
  split at hrun
  next touched w₁ happly => exact hconclude _ _ _ _ (happlied happly) hrun
  next e w₁ happly =>
    split at hrun
    · rcases Prog.bind_cases hrun with ⟨_, hfin, _⟩ | ⟨m, w₂, hfin, hrun⟩
      · exact hfail _ _ _ _ (happlied happly) hfin
      · cases hrun; exact hfail _ _ _ _ (happlied happly) hfin
    · cases hrun; exact happlied happly

theorem concludeRequest_spares {touched : List Text} (hquiet : engine.IsQuiet) :
    DiskKeeps (Spares engine.root id op) (concludeRequest engine id plan touched) := by
  have hsame : ∀ {d d' : FS}, (∀ p, d'.get p = d.get p) → Spares engine.root id op d d' :=
    fun hget hroot => ⟨by rw [Disk.isDir_congr (hget _)]; exact hroot,
      fun p _ _ => Or.inl (Disk.content_congr (hget p)), fun _ _ _ => Disk.content_congr (hget _),
      fun p _ hp => Or.inl (by rw [← Disk.isDir_congr (hget p)]; exact hp)⟩
  unfold concludeRequest
  refine DiskKeeps.bind (DiskKeeps.disk fun d => hsame (hquiet.format _ d)) fun _ =>
    DiskKeeps.bind ?_ fun v => DiskKeeps.bind ?_ fun _ => DiskKeeps.bind ?_ fun _ =>
    DiskKeeps.pure _
  · unfold runVerification
    split
    · exact DiskKeeps.pure _
    · exact DiskKeeps.disk fun d => hsame (hquiet.verify _ d)
  · exact DiskKeeps.bind (DiskKeeps.loadManifest _) fun _ => DiskKeeps.writeManifest _
  · exact DiskKeeps.bind (DiskKeeps.loadManifest _) fun _ =>
      DiskKeeps.bind (DiskKeeps.writeManifest _) fun _ => DiskKeeps.pure _

end Request

/-! ## The transaction, from the approval to its end -/

/-- What is known of the transaction with the one operation `op`, begun with `stamp`
in `w`, when it has ended in `w'`: its manifest `m`, and the disk `d₀` it ran on. -/
structure Settled (engine : Engine) (stamp : Stamp) (op : Operation) (w w' : World) (d₀ : FS)
    (m : Manifest) : Prop where
  store : w'.transactions = w.transactions ++ [m]
  id : m.transactionId = stamp.id
  created : m.createdAt = stamp.createdAt
  status : m.status ≠ .rolledBack
  user : ∀ p, IsUserPath engine.root p → d₀.get p = w.disk.get p
  kept : (Undo.mk m d₀).Kept engine.root w'.disk
  left : (Undo.mk m d₀).Left engine.root w'.disk.content
  beside : Beside engine.root stamp.id op w.disk w'.disk

/-- The request has one operation on a file and no diff. -/
structure ChangeRequest.IsSingle (engine : Engine) (request : ChangeRequest) (op : Operation) :
    Prop where
  noDiff : isBlank (engine.sanitize request.patch) = true
  operation : request.changePlan.operations = [op]
  kind : op.IsFileChange

section Approved

variable {engine : Engine} {stamp : Stamp} {request : ChangeRequest} {op : Operation}
  {w w' w₁ w₂ : World} {r : Except Exn MutationResult}

/-- The ids on record are other ones. -/
theorem IsFresh.ne {id : Text} (h : IsFresh engine id w) :
    ∀ m ∈ w.transactions, m.transactionId ≠ id := fun m hm => by
  simpa using List.find?_eq_none.mp h.1 m hm

namespace Approved

/-- The beginning makes one directory, of the program's own. -/
theorem begun_keeps {R : FS → FS → Prop} [Std.Refl R] [IsTrans FS R]
    (ha : Approved engine stamp request w r w' w₁ w₂)
    (hR : Prog.Keeps R (mkdirP (transactionDir engine.root stamp.id))) : R w.disk w₂.disk := by
  have hbegin := (DiskKeeps.bind (DiskKeeps.disk hR) fun _ => DiskKeeps.still fun _ => rfl).of_run
    ha.begun
  rw [(askApproval_world ha.asked).1] at hbegin
  exact hbegin

theorem transactionDir_own (root : Path) (id : Text) : IsOwnPath root (transactionDir root id) :=
  ⟨["mutations".toList, id], by simp [transactionDir]⟩

theorem begun_store (ha : Approved engine stamp request w r w' w₁ w₂) :
    w₂.transactions = w.transactions ++ [newManifest stamp request.changePlan.reason
      request.changePlan.operations request.changePlan.destructive] := by
  obtain ⟨hc, hw₂⟩ := beginTransaction_ok ha.begun
  rw [hw₂, (askApproval_world ha.asked).2]

/-- It runs with an empty manifest, on the files there were. -/
theorem running (ha : Approved engine stamp request w r w' w₁ w₂)
    (hfresh : IsFresh engine stamp.id w) :
    (∃ m, Running engine stamp.id w₂.disk w₂ m ∧ m.touchedFiles = []) ∧
      ∀ p, w₂.disk.content p = w.disk.content p := by
  obtain ⟨hd₁, hts₁⟩ := askApproval_world ha.asked
  have hfresh₁ : IsFresh engine stamp.id w₁ := by
    unfold IsFresh findManifest
    rw [hd₁, hts₁]; exact hfresh
  obtain ⟨⟨m, hrunning⟩, hsame⟩ := beginTransaction_running hfresh₁ ha.begun
  refine ⟨⟨m, hrunning, ?_⟩, fun p => by rw [hsame, hd₁]⟩
  obtain rfl := Option.some_inj.mp
    (hrunning.found.symm.trans (findManifest_last hfresh.ne ha.begun_store rfl))
  rfl

variable (hsingle : request.IsSingle engine op)
include hsingle

theorem extendsStore (ha : Approved engine stamp request w r w' w₁ w₂)
    (hfresh : IsFresh engine stamp.id w) : Extends w.transactions stamp w' := by
  have hbegun : Extends w.transactions stamp w₂ := ⟨_, ha.begun_store, rfl, rfl⟩
  exact runRequest_single hsingle.operation hsingle.kind hsingle.noDiff hbegun
    (fun _ _ hop => (StoreKeeps.runFileOperation hfresh.ne engine hsingle.kind).of_run hbegun hop)
    (fun _ _ _ _ hw hfail => (StoreKeeps.finalize hfresh.ne _ _).of_run hw hfail)
    (fun _ _ _ _ hw hend => (StoreKeeps.concludeRequest hfresh.ne engine _ _).of_run hw hend) ha.ran

theorem isKept (ha : Approved engine stamp request w r w' w₁ w₂) (hquiet : engine.IsQuiet)
    (hfresh : IsFresh engine stamp.id w) (hroot : w₂.disk.isDir engine.root = true)
    (htidy : op.IsTidy engine.root w₂.disk) : IsKept engine stamp.id w₂.disk w' := by
  obtain ⟨⟨m, hrunning, hnone⟩, _⟩ := ha.running hfresh
  exact runRequest_single hsingle.operation hsingle.kind hsingle.noDiff
    (IsRunning.recorded ⟨m, hrunning⟩).isKept
    (fun _ _ hop => runFileOperation_kept hrunning hnone hroot hsingle.kind htidy hop)
    (fun _ _ _ _ hw hfail => hw.finalize (by simp) hfail)
    (fun _ _ _ _ hw hend => concludeRequest_kept hquiet hw hend) ha.ran

theorem spares (ha : Approved engine stamp request w r w' w₁ w₂) (hquiet : engine.IsQuiet)
    (hu : IsUserPath engine.root (op.target engine.root)) :
    Spares engine.root stamp.id op w.disk w'.disk := by
  have hbegin : Spares engine.root stamp.id op w.disk w₂.disk :=
    ha.begun_keeps (mkdirP_own_spares (transactionDir_own _ _))
  refine hbegin.trans ?_
  exact runRequest_single (P := fun w₃ => Spares engine.root stamp.id op w₂.disk w₃.disk)
    hsingle.operation hsingle.kind hsingle.noDiff (Spares.refl _)
    (fun _ _ hop => (runFileOperation_spares hsingle.kind hu).of_run hop)
    (fun _ _ _ _ hw hfail => hw.trans ((DiskKeeps.bind (DiskKeeps.loadManifest _) fun _ =>
      DiskKeeps.bind (DiskKeeps.writeManifest _) fun _ => DiskKeeps.pure _).of_run hfail))
    (fun _ _ _ _ hw hend => hw.trans ((concludeRequest_spares hquiet).of_run hend)) ha.ran

/-- **How a transaction with one tidy operation ends.** -/
theorem settled (ha : Approved engine stamp request w r w' w₁ w₂) (hquiet : engine.IsQuiet)
    (hfresh : IsFresh engine stamp.id w) (hroot : w.disk.isDir engine.root = true)
    (htidy : op.IsTidy engine.root w.disk) :
    ∃ m, Settled engine stamp op w w' w₂.disk m := by
  obtain ⟨hroot₂, huser⟩ := ha.begun_keeps (R := OwnOnly engine.root)
    (mkdirP_ownOnly (transactionDir_own _ _)) hroot
  have htidy₂ : op.IsTidy engine.root w₂.disk := by
    refine ⟨htidy.user, fun hdelete hdir p hp => ?_⟩
    rw [(ha.running hfresh).2]
    rw [Disk.isDir_congr (huser _ htidy.user)] at hdir
    exact htidy.bare hdelete hdir p hp
  obtain ⟨m, hm, hopen, hkept, hleft⟩ := ha.isKept hsingle hquiet hfresh hroot₂ htidy₂
  obtain ⟨m', hts, hid, hcreated⟩ := ha.extendsStore hsingle hfresh
  obtain rfl : m = m' := Option.some_inj.mp
    (hm.symm.trans (findManifest_last hfresh.ne hts hid))
  exact ⟨m, hts, hid, hcreated, hopen, huser, hkept, hleft,
    ha.spares hsingle hquiet htidy.user hroot⟩

end Approved

end Approved

end Shamsu.Patch
