import Shamsu.Patch.Single
import Shamsu.Repair.Loop

/-!
# What the repair loop leaves

The attempts that are kept have written their patches over the workspace, one after the other, and
nothing else has changed: a rejected attempt is rolled back to the files it began with
(`GoesBack`). Success is what the last verification said of the workspace as it is left:
`run_leaves`.

A patch may be of a file of the program's own. Then no user file changes.
-/

namespace Shamsu.Repair

open Shamsu.Lib Shamsu.Py Shamsu.Safety Shamsu.Patch
open Shamsu.Tools (posix relativeTo IsName)

/-! ## The files -/

/-- The user's files are the same. -/
def SameUser (root : Path) (f g : Files) : Prop := ∀ p, IsUserPath root p → f p = g p

/-- A patch applied to the files. -/
def patched (root : Path) (f : Files) (plan : RepairPlan) : Files := fun p =>
  if p = root ++ parts plan.targetFile then
    match plan.newContent (f p) with
    | some content => some (encodeUtf8 content)
    | none => f p
  else f p

/-- The patches of the attempts that are kept. -/
def keptPlans (attempts : List RepairAttemptRecord) : List RepairPlan :=
  (attempts.filter fun a => a.kept).map fun a => a.plan

section Files

variable {root : Path} {f g h : Files}

theorem SameUser.refl (f : Files) : SameUser root f f := fun _ _ => rfl

theorem SameUser.trans (hfg : SameUser root f g) (hgh : SameUser root g h) : SameUser root f h :=
  fun p hp => (hfg p hp).trans (hgh p hp)

theorem SameUser.patched (hfg : SameUser root f g) (plan : RepairPlan) :
    SameUser root (patched root f plan) (Repair.patched root g plan) := by
  intro p hp
  unfold Repair.patched
  rw [hfg p hp]

/-- A patch of one of the program's own files. -/
theorem patched_own {plan : RepairPlan} (hown : IsOwnPath root (root ++ parts plan.targetFile)) :
    SameUser root (patched root f plan) f := by
  intro p hp
  exact if_neg fun he : p = _ => hp.2 (he ▸ hown)

end Files

/-! ## The file of a plan -/

/-- The text names a file that is there. -/
def IsTarget (root : Path) (d : FS) (k : Text) : Prop :=
  ∃ names, (∀ n ∈ names, IsName n) ∧ k = posix names ∧ d.isFile (root ++ names) = true

namespace IsTarget

variable {root : Path} {d : FS} {k : Text}

theorem clean (h : IsTarget root d k) : CleanKey k := by
  obtain ⟨names, hnames, rfl, _⟩ := h
  refine ⟨Tools.isAbsolute_posix hnames, ?_⟩
  rw [Tools.parts_posix hnames]
  exact fun hm => (hnames _ hm).2.2.1 rfl

theorem isFile (h : IsTarget root d k) : d.isFile (root ++ parts k) = true := by
  obtain ⟨names, hnames, rfl, hfile⟩ := h
  rw [Tools.parts_posix hnames]
  exact hfile

theorem leads (h : IsTarget root d k) : validate root k = .ok (root ++ parts k) := by
  have hlocate : locate root k = root ++ parts k := locate_clean h.clean
  obtain ⟨names, hnames, rfl, _⟩ := h
  refine validate_ok.mpr ⟨?_, List.prefix_append .., hlocate⟩
  exact Tools.not_mem_posix (fun n hn => (hnames n hn).2.2.2.2) (by decide) (by decide)

/-- The file is the user's, or one of the program's own in a workspace that is there. -/
theorem user_or_own (h : IsTarget root d k) :
    IsUserPath root (root ++ parts k) ∨
      (IsOwnPath root (root ++ parts k) ∧ d.isDir root = true) := by
  by_cases hown : IsOwnPath root (root ++ parts k)
  · refine .inr ⟨hown, Disk.isDir_above (List.prefix_append ..) (fun he => ?_)
      (Disk.present_of_isFile h.isFile)⟩
    have hlength := hown.length_le
    rw [← he, List.length_append, List.length_singleton] at hlength
    omega
  · exact .inl ⟨List.prefix_append .., hown⟩

end IsTarget

section Programs

variable {engine : Engine} {id k : Text} {d₀ : FS} {w w' w₁ w₂ w₃ : World} {plan : RepairPlan}
  {changed : List Text}

/-- What is written, if anything is. -/
theorem applyPlan_ok (hleads : validate engine.root plan.targetFile =
      .ok (engine.root ++ parts plan.targetFile))
    (hrun : applyPlan engine.root plan w = (.ok changed, w')) :
    (changed = [] ∧ w' = w ∧
      plan.newContent (w.disk.content (engine.root ++ parts plan.targetFile)) = none) ∨
    (changed = [plan.targetFile] ∧ ∃ content w₁,
      plan.newContent (w.disk.content (engine.root ++ parts plan.targetFile)) = some content ∧
      onDisk (mkdirP (Path.parent (engine.root ++ parts plan.targetFile))) w = (.ok (), w₁) ∧
      onDisk (writeText (engine.root ++ parts plan.targetFile) content) w₁ = (.ok (), w')) := by
  unfold applyPlan at hrun
  rw [hleads] at hrun
  rw [Prog.bind_of_ok (Prog.ofExcept_apply _ w), Prog.bind_of_ok (Prog.gets_apply _ w)] at hrun
  cases hnew : plan.newContent (w.disk.content (engine.root ++ parts plan.targetFile)) with
  | none =>
    rw [hnew] at hrun
    cases hrun
    exact .inl ⟨rfl, rfl, rfl⟩
  | some content =>
    rw [hnew] at hrun
    obtain ⟨_, w₁, hmk, hrun⟩ := Prog.bind_ok.mp hrun
    obtain ⟨_, w₂, hwrite, hrun⟩ := Prog.bind_ok.mp hrun
    cases hrun
    exact .inr ⟨rfl, content, w₁, rfl, hmk, hwrite⟩

theorem content_mkdirP {p : Path} (hrun : onDisk (mkdirP p) w = (.ok (), w')) :
    ∀ q, w'.disk.content q = w.disk.content q := by
  obtain ⟨d, hd, rfl⟩ := onDisk_cases hrun
  rcases mkdirP_cases p w.disk with ⟨hc, hok⟩ | ⟨_, e, herr⟩
  · rw [hok] at hd
    cases hd
    exact fun q => Disk.content_mkdirs _ _ _ hc
  · rw [herr] at hd
    cases hd

theorem content_writeText {p : Path} {text : Text}
    (hrun : onDisk (writeText p text) w = (.ok (), w')) :
    ∀ q, w'.disk.content q = if q = p then some (encodeUtf8 text) else w.disk.content q := by
  obtain ⟨d, hd, rfl⟩ := onDisk_cases hrun
  unfold writeText at hd
  rcases writeBytes_cases p (encodeUtf8 text) w.disk with ⟨hp, hok⟩ | ⟨_, e, herr⟩
  · rw [hok] at hd
    cases hd
    exact fun q => Disk.content_put _ _ _ _ hp
  · rw [herr] at hd
    cases hd

/-- The files after a plan was applied. -/
theorem applyPlan_content (hleads : validate engine.root plan.targetFile =
      .ok (engine.root ++ parts plan.targetFile))
    (hrun : applyPlan engine.root plan w = (.ok changed, w')) :
    (changed = [] ∧ w' = w) ∨
      (changed = [plan.targetFile] ∧
        ∀ p, w'.disk.content p = patched engine.root w.disk.content plan p) := by
  rcases applyPlan_ok hleads hrun with ⟨hchanged, hw, _⟩ | ⟨hchanged, content, w₁, hnew, hmk, hwrite⟩
  · exact .inl ⟨hchanged, hw⟩
  · refine .inr ⟨hchanged, fun p => ?_⟩
    rw [content_writeText hwrite, content_mkdirP hmk, patched]
    by_cases hp : p = engine.root ++ parts plan.targetFile
    · rw [if_pos hp, if_pos hp, hp, hnew]
    · rw [if_neg hp, if_neg hp]

/-- Rolling the transaction back gives the user's files as they were in `f`. -/
def GoesBack (engine : Engine) (id : Text) (f : Files) (w : World) : Prop :=
  ∀ answer w', rollbackTransaction engine id w = (.ok answer, w') →
    SameUser engine.root w'.disk.content f

theorem goesBack_of_recorded (h : IsRecorded engine id d₀ w) :
    GoesBack engine id d₀.content w := by
  intro answer w' hrun
  obtain ⟨message, w₁, hback, hsame⟩ := h.rollback
  rw [hback] at hrun
  cases hrun
  exact hsame

/-! ## A file of the user's -/

/-- A transaction begins with an empty manifest, on the files there are. -/
theorem begin_running {stamp : Stamp} {reason : Text} {operations : List Operation}
    (hfresh : IsFresh engine stamp.id w)
    (hrun : beginTransaction engine stamp reason operations false w = (.ok (), w')) :
    (∃ m, Running engine stamp.id w'.disk w' m ∧ m.touchedFiles = []) ∧
      ∀ p, w'.disk.content p = w.disk.content p := by
  obtain ⟨⟨m, hm⟩, hsame⟩ := beginTransaction_running hfresh hrun
  refine ⟨⟨m, hm, ?_⟩, hsame⟩
  obtain ⟨hc, rfl⟩ := beginTransaction_ok hrun
  obtain rfl := Option.some_inj.mp (hm.found.symm.trans (findManifest_last hfresh.ne rfl rfl))
  rfl

/-- With its file on record, the plan is applied and the record stays. -/
theorem applyPlan_running {m : Manifest} (h : Running engine id d₀ w m)
    (hleads : validate engine.root plan.targetFile =
      .ok (engine.root ++ parts plan.targetFile))
    (huser : IsUserPath engine.root (engine.root ++ parts plan.targetFile))
    (hnote : plan.targetFile ∈ m.touchedFiles)
    (honly : ∀ k' ∈ m.touchedFiles, k' = plan.targetFile)
    (hrun : applyPlan engine.root plan w = (.ok changed, w')) : Running engine id d₀ w' m := by
  rcases applyPlan_ok hleads hrun with ⟨_, rfl, _⟩ | ⟨_, content, w₁, _, hmk, hwrite⟩
  · exact h
  · have hsolid : Solid d₀ engine.root m w.disk
        (Path.parent (engine.root ++ parts plan.targetFile)) := by
      intro k' hk' hsome hp
      rw [honly k' hk'] at hp hsome
      obtain ⟨a, _, he⟩ := h.tracked.entry hnote
      exact absurd hp (not_prefix_parent (Disk.ne_nil_of_isDir_eq_false (he.free hsome)))
    exact (h.mkdirParent huser hsolid hmk).writeText huser ⟨_, hnote, hleads⟩ hwrite

theorem recordAfter_running {m : Manifest} (h : Running engine id d₀ w m)
    (hk : k ∈ m.touchedFiles)
    (hrun : Prog.forEach [k] (recordAfter engine id) w = (.ok (), w')) :
    IsRunning engine id d₀ w' := by
  rw [Prog.forEach_cons] at hrun
  obtain ⟨_, w₁, hrecord, hrun⟩ := Prog.bind_ok.mp hrun
  obtain ⟨m', hm', _⟩ := h.recordAfter hk hrecord
  cases hrun
  exact ⟨m', hm'⟩

/-! ## A file of the program's own -/

/-- No other file is on record. -/
def KeysOnly (id k : Text) (w : World) : Prop :=
  ∀ m, findManifest w id = some m → ∀ k' ∈ m.touchedFiles, k' = k

theorem removeNew_ownOnly {root t : Path} (ht : IsOwnPath root t) :
    Prog.Keeps (OwnOnly root) (removeNew t) := by
  have hne : ∀ q, IsUserPath root q → q ≠ t := fun q hq he => hq.2 (he ▸ ht)
  have hroot := root_ne_own ht
  intro d hd
  unfold removeNew
  split
  case isTrue hf =>
    rw [unlink_eq hf]
    refine ⟨?_, fun q hq => by rw [Disk.get_drop, if_neg (hne q hq)]⟩
    rw [Disk.isDir_iff, Disk.get_drop, if_neg hroot]
    exact Disk.isDir_iff.mp hd
  case isFalse =>
    split
    case isTrue hr =>
      rw [rmdir_eq hr]
      refine ⟨?_, fun q hq => by rw [Disk.get_rmdir, if_neg (hne q hq)]⟩
      rw [Disk.isDir_iff, Disk.get_rmdir, if_neg hroot]
      exact Disk.isDir_iff.mp hd
    case isFalse => exact ⟨hd, fun _ _ => rfl⟩

/-- The directories above one of the program's own files. -/
theorem mkdirParent_ownOnly {root t : Path} (ht : IsOwnPath root t) :
    Prog.Keeps (OwnOnly root) (mkdirP t.parent) := by
  obtain ⟨s, rfl⟩ := ht
  cases s using List.reverseRecOn with
  | nil =>
    -- the workspace itself is there
    have hparent : Path.parent (root ++ [dotShamsu] ++ []) = root := by
      unfold Path.parent
      rw [List.append_nil, List.dropLast_concat]
    rw [hparent]
    refine mkdirP_keeps fun d hc hd => ?_
    have hget : ∀ q, (d.mkdirs root hc).get q = d.get q := by
      intro q
      rw [Disk.get_mkdirs]
      split
      case isTrue hq =>
        by_cases he : q = root
        · rw [he, Disk.isDir_iff.mp hd]
        · exact (Disk.isDir_iff.mp (Disk.isDir_above hq he (Disk.present_of_isDir hd))).symm
      case isFalse => rfl
    exact ⟨by rw [Disk.isDir_congr (hget root)]; exact hd, fun q _ => hget q⟩
  | append_singleton s n _ =>
    refine mkdirP_ownOnly ?_
    refine ⟨s, ?_⟩
    unfold Path.parent
    rw [← List.append_assoc, List.dropLast_concat]

theorem writeText_ownOnly {root t : Path} {text : Text} (ht : IsOwnPath root t) :
    Prog.Keeps (OwnOnly root) (writeText t text) :=
  writeText_keeps fun _ hp => put_ownOnly ht hp

theorem rollbackFile_ownOnly {m : Manifest} (hk : IsOwnPath engine.root (locate engine.root k)) :
    DiskKeeps (OwnOnly engine.root) (rollbackFile engine m k) := by
  unfold rollbackFile
  cases hv : validate engine.root k with
  | error e =>
    dsimp only
    split
    · exact DiskKeeps.pure _
    · exact DiskKeeps.raise e
  | ok target =>
    obtain ⟨_, _, rfl⟩ := validate_ok.mp hv
    dsimp only
    split
    · exact DiskKeeps.bind (DiskKeeps.disk (removeNew_ownOnly hk)) fun _ => DiskKeeps.pure _
    · split
      · exact DiskKeeps.pure _
      · refine DiskKeeps.branch (fun w _ => ?_) fun w _ => Std.Refl.refl _
        refine DiskKeeps.bind (DiskKeeps.disk ?_) (fun _ => DiskKeeps.pure _) w
        exact Prog.Keeps.bind (fun _ _ _ => IsTrans.trans _ _ _) (mkdirParent_ownOnly hk) fun _ =>
          copy2_ownOnly hk

theorem rollbackFiles_ownOnly {m : Manifest} {keys : List Text}
    (hkeys : ∀ k ∈ keys, IsOwnPath engine.root (locate engine.root k)) :
    DiskKeeps (OwnOnly engine.root) (rollbackFiles engine m keys) := by
  induction keys with
  | nil => exact DiskKeeps.pure _
  | cons k keys ih =>
    refine DiskKeeps.bind (rollbackFile_ownOnly (hkeys k (List.mem_cons_self ..))) fun message => ?_
    cases message with
    | none => exact ih fun k' hk' => hkeys k' (List.mem_cons_of_mem _ hk')
    | some message => exact DiskKeeps.pure _

theorem rollback_own (hkeys : KeysOnly id k w)
    (hk : IsOwnPath engine.root (locate engine.root k)) (hroot : w.disk.isDir engine.root = true)
    {answer : Bool × String} (hrun : rollbackTransaction engine id w = (.ok answer, w')) :
    SameUser engine.root w'.disk.content w.disk.content := by
  suffices hdisk : OwnOnly engine.root w.disk w'.disk from
    fun p hp => Disk.content_congr ((hdisk hroot).2 p hp)
  unfold rollbackTransaction at hrun
  rw [Prog.bind_of_ok (Prog.gets_apply _ w)] at hrun
  cases hm : findManifest w id with
  | none =>
    rw [hm] at hrun
    cases hrun
    exact Std.Refl.refl _
  | some m =>
    rw [hm] at hrun
    dsimp only at hrun
    split at hrun
    · cases hrun
      exact Std.Refl.refl _
    · have hown : ∀ k' ∈ m.touchedFiles, IsOwnPath engine.root (locate engine.root k') :=
        fun k' hk' => by rw [hkeys m hm k' hk']; exact hk
      refine (DiskKeeps.bind (rollbackFiles_ownOnly hown) fun message => ?_).of_run hrun
      cases message with
      | none =>
        exact DiskKeeps.bind (DiskKeeps.bind (DiskKeeps.loadManifest _) fun _ =>
          DiskKeeps.bind (DiskKeeps.writeManifest _) fun _ => DiskKeeps.pure _) fun _ =>
            DiskKeeps.pure _
      | some message => exact DiskKeeps.pure _

theorem mem_noteFile {files : List Text} {k k' : Text} (h : k' ∈ noteFile files k) :
    k' ∈ files ∨ k' = k := by
  unfold noteFile at h
  split at h
  · exact .inl h
  · rw [List.mem_append, List.mem_singleton] at h
    exact h

/-- A manifest is written in which at most `k` is noted. -/
theorem KeysOnly.write {m m' : Manifest} (h : KeysOnly id k w) (hm : findManifest w id = some m)
    (hid : m'.transactionId = id) (hnote : m'.touchedFiles = noteFile m.touchedFiles k) :
    KeysOnly id k (writeManifest m' w).2 := by
  intro m₁ hm₁ k' hk'
  rw [findManifest_write hm hid] at hm₁
  cases hm₁
  rw [hnote] at hk'
  exact (mem_noteFile hk').elim (h m hm k') fun he => he

theorem KeysOnly.onDisk {α : Type} {x : FSProg α} {r : Except Exn α} (h : KeysOnly id k w)
    (hrun : Patch.onDisk x w = (r, w')) : KeysOnly id k w' := by
  obtain ⟨d, _, rfl⟩ := onDisk_cases hrun
  exact h

theorem loadManifest_ok {m : Manifest} (hload : loadManifest id w = (.ok m, w')) :
    findManifest w id = some m ∧ w' = w := by
  cases hm : findManifest w id with
  | none =>
    rw [loadManifest, Prog.read_apply, hm] at hload
    cases hload
  | some m₁ =>
    rw [loadManifest_eq hm] at hload
    cases hload
    exact ⟨rfl, rfl⟩

theorem KeysOnly.snapshot (h : KeysOnly id k w)
    (hrun : Patch.snapshot engine id k w = (.ok (), w')) : KeysOnly id k w' := by
  obtain ⟨m, w₁, hload, hafter⟩ := Prog.bind_ok.mp hrun
  obtain ⟨hm, rfl⟩ := loadManifest_ok hload
  split at hafter
  · cases hafter
    exact h
  · rcases Prog.ofExcept_bind hafter with ⟨_, _, hr, _⟩ | ⟨t, _, hafter⟩
    · cases hr
    · rw [Prog.bind_of_ok (Prog.gets_apply _ _)] at hafter
      obtain ⟨_, w₂, hcopy, hafter⟩ := Prog.bind_ok.mp hafter
      -- the copy is a matter of the disk: the manifests stay as they are
      have hsame : w₂.transactions = w₁.transactions := by
        rcases Prog.whenever_cases hcopy with ⟨_, hcopy⟩ | ⟨_, _, rfl⟩
        · obtain ⟨_, w₃, hmk, hcopy⟩ := Prog.bind_ok.mp hcopy
          obtain ⟨_, _, rfl⟩ := onDisk_cases hmk
          obtain ⟨_, _, rfl⟩ := onDisk_cases hcopy
          rfl
        · rfl
      have hm₂ : findManifest w₂ id = some m := by
        unfold findManifest
        rw [hsame]
        exact hm
      have h₂ : KeysOnly id k w₂ := by
        intro m' hm'
        rw [hm₂] at hm'
        cases hm'
        exact h m hm
      obtain ⟨_, rfl⟩ := Prod.mk.inj hafter
      have hid : m.transactionId = id := transactionId_of_findManifest hm
      exact h₂.write hm₂ hid rfl

theorem KeysOnly.recordAfter (h : KeysOnly id k w)
    (hrun : Patch.recordAfter engine id k w = (.ok (), w')) : KeysOnly id k w' := by
  obtain ⟨m, w₁, hload, hafter⟩ := Prog.bind_ok.mp hrun
  obtain ⟨hm, rfl⟩ := loadManifest_ok hload
  rw [Prog.bind_of_ok (Prog.gets_apply _ _)] at hafter
  obtain ⟨_, rfl⟩ := Prod.mk.inj hafter
  have hid : m.transactionId = id := transactionId_of_findManifest hm
  exact h.write hm hid rfl

theorem KeysOnly.applyPlan (h : KeysOnly id k w)
    (hleads : validate engine.root plan.targetFile = .ok (engine.root ++ parts plan.targetFile))
    (hrun : Repair.applyPlan engine.root plan w = (.ok changed, w')) : KeysOnly id k w' := by
  rcases applyPlan_ok hleads hrun with ⟨_, rfl, _⟩ | ⟨_, content, w₁, _, hmk, hwrite⟩
  · exact h
  · exact (h.onDisk hmk).onDisk hwrite

/-! ## An attempt -/

/-- A file is noted, and nothing is written to the disk. -/
theorem recordAfter_single (hrun : Prog.forEach [k] (recordAfter engine id) w = (.ok (), w')) :
    recordAfter engine id k w = (.ok (), w') ∧ w'.disk = w.disk := by
  rw [Prog.forEach_cons] at hrun
  obtain ⟨_, w₁, hrecord, hrun⟩ := Prog.bind_ok.mp hrun
  cases hrun
  exact ⟨hrecord, ((DiskKeeps.recordAfter (R := Eq) engine id k).of_run hrecord).symm⟩

/-- How a plan leaves the files, and that it can be taken back. -/
structure Tried (engine : Engine) (id : Text) (plan : RepairPlan) (w w' : World)
    (changed : List Text) : Prop where
  files : (changed = [] ∧ SameUser engine.root w'.disk.content w.disk.content) ∨
    (changed = [plan.targetFile] ∧
      SameUser engine.root w'.disk.content (patched engine.root w.disk.content plan))
  back : GoesBack engine id w.disk.content w'
  noted : ∀ w'', Prog.forEach [plan.targetFile] (recordAfter engine id) w' = (.ok (), w'') →
    GoesBack engine id w.disk.content w''

theorem tried_user {stamp : Stamp} {reason : Text} {operations : List Operation}
    (ht : IsTarget engine.root w.disk plan.targetFile)
    (huser : IsUserPath engine.root (engine.root ++ parts plan.targetFile))
    (hfresh : IsFresh engine stamp.id w)
    (hbegin : beginTransaction engine stamp reason operations false w = (.ok (), w₁))
    (hsnap : snapshot engine stamp.id plan.targetFile w₁ = (.ok (), w₂))
    (happly : applyPlan engine.root plan w₂ = (.ok changed, w₃)) :
    Tried engine stamp.id plan w w₃ changed := by
  obtain ⟨⟨m, hm, hnone⟩, hsame₁⟩ := begin_running hfresh hbegin
  have hkey : KeySafe engine.root m plan.targetFile := by
    intro t hv
    obtain rfl := Except.ok.inj (ht.leads.symm.trans hv)
    exact ⟨huser, fun k' hk' => by rw [hnone] at hk'; cases hk'⟩
  obtain ⟨m₂, hs, hk⟩ := snapshot_running hm ht.clean hkey hsnap
  have honly : ∀ k' ∈ m₂.touchedFiles, k' = plan.targetFile := by
    intro k' hk'
    refine (hs.only k' hk').resolve_left fun h => ?_
    rw [hnone] at h
    cases h
  have h₃ := applyPlan_running hs.running ht.leads huser (hk rfl) honly happly
  have hback : ∀ {w'}, IsRunning engine stamp.id w₁.disk w' →
      GoesBack engine stamp.id w.disk.content w' := fun hr answer w'' hrun =>
    (goesBack_of_recorded hr.recorded answer w'' hrun).trans fun p _ => hsame₁ p
  have hsame₂ : SameUser engine.root w₂.disk.content w.disk.content := fun p hp =>
    (Disk.content_congr (hs.user p hp)).trans (hsame₁ p)
  refine ⟨?_, hback ⟨m₂, h₃⟩, fun w'' hnoted => hback (recordAfter_running h₃ (hk rfl) hnoted)⟩
  rcases applyPlan_content ht.leads happly with ⟨hc, rfl⟩ | ⟨hc, hpatched⟩
  · exact .inl ⟨hc, hsame₂⟩
  · exact .inr ⟨hc, SameUser.trans (fun p _ => hpatched p) (hsame₂.patched plan)⟩

theorem tried_own {stamp : Stamp} {reason : Text} {operations : List Operation}
    (ht : IsTarget engine.root w.disk plan.targetFile)
    (hown : IsOwnPath engine.root (engine.root ++ parts plan.targetFile))
    (hroot : w.disk.isDir engine.root = true) (hfresh : IsFresh engine stamp.id w)
    (hbegin : beginTransaction engine stamp reason operations false w = (.ok (), w₁))
    (hsnap : snapshot engine stamp.id plan.targetFile w₁ = (.ok (), w₂))
    (happly : applyPlan engine.root plan w₂ = (.ok changed, w₃)) :
    Tried engine stamp.id plan w w₃ changed := by
  have hlocate : IsOwnPath engine.root (locate engine.root plan.targetFile) := by
    rw [locate_clean ht.clean]
    exact hown
  have hdir : IsOwnPath engine.root (transactionDir engine.root stamp.id) :=
    Approved.transactionDir_own _ _
  -- up to the patch, only the program's own files are written
  have hdisk₁ : OwnOnly engine.root w.disk w₁.disk :=
    (DiskKeeps.bind (DiskKeeps.disk (mkdirP_ownOnly hdir)) fun _ =>
      DiskKeeps.still fun _ => rfl).of_run hbegin
  have hdisk₂ : OwnOnly engine.root w.disk w₂.disk :=
    IsTrans.trans _ _ _ hdisk₁ ((snapshot_ownOnly ht.clean).of_run hsnap)
  have hsame₂ : SameUser engine.root w₂.disk.content w.disk.content := fun p hp =>
    Disk.content_congr ((hdisk₂ hroot).2 p hp)
  -- so a rollback has no user file on record: the manifest names the plan's file alone
  have hkeys : KeysOnly stamp.id plan.targetFile w₁ := by
    obtain ⟨⟨m, hm, hnone⟩, _⟩ := begin_running hfresh hbegin
    intro m' hm' k' hk'
    rw [hm.found] at hm'
    cases hm'
    rw [hnone] at hk'
    cases hk'
  have hkeys₃ := (hkeys.snapshot hsnap).applyPlan ht.leads happly
  have hsame₃ : SameUser engine.root w₃.disk.content w.disk.content ∧
      w₃.disk.isDir engine.root = true := by
    rcases applyPlan_ok ht.leads happly with ⟨_, rfl, _⟩ | ⟨_, content, w₄, _, hmk, hwrite⟩
    · exact ⟨hsame₂, (hdisk₂ hroot).1⟩
    · have hdisk₃ : OwnOnly engine.root w.disk w₃.disk :=
        IsTrans.trans _ _ _ hdisk₂ (IsTrans.trans _ _ _
          ((DiskKeeps.disk (mkdirParent_ownOnly hown)).of_run hmk)
          ((DiskKeeps.disk (writeText_ownOnly hown)).of_run hwrite))
      exact ⟨fun p hp => Disk.content_congr ((hdisk₃ hroot).2 p hp), (hdisk₃ hroot).1⟩
  refine ⟨?_, fun answer w₄ hrun => ?_, fun w₄ hnoted answer w₅ hrun => ?_⟩
  · rcases applyPlan_content ht.leads happly with ⟨hc, _⟩ | ⟨hc, _⟩
    · exact .inl ⟨hc, hsame₃.1⟩
    · exact .inr ⟨hc, hsame₃.1.trans fun p hp => (patched_own hown p hp).symm⟩
  · exact (rollback_own hkeys₃ hlocate hsame₃.2 hrun).trans hsame₃.1
  · obtain ⟨hrecord, hdisk⟩ := recordAfter_single hnoted
    refine (rollback_own (hkeys₃.recordAfter hrecord) hlocate ?_ hrun).trans ?_
    · rw [hdisk]
      exact hsame₃.2
    · rw [hdisk]
      exact hsame₃.1

/-- **A plan is tried**: its patch is what has changed, and it can be taken back. -/
theorem tried {stamp : Stamp} {reason : Text} {operations : List Operation}
    (ht : IsTarget engine.root w.disk plan.targetFile) (hfresh : IsFresh engine stamp.id w)
    (hbegin : beginTransaction engine stamp reason operations false w = (.ok (), w₁))
    (hsnap : snapshot engine stamp.id plan.targetFile w₁ = (.ok (), w₂))
    (happly : applyPlan engine.root plan w₂ = (.ok changed, w₃)) :
    Tried engine stamp.id plan w w₃ changed := by
  rcases ht.user_or_own with huser | ⟨hown, hroot⟩
  · exact tried_user ht huser hfresh hbegin hsnap happly
  · exact tried_own ht hown hroot hfresh hbegin hsnap happly

end Programs

/-! ## The loop -/

/-- What some attempts have done: they are recorded, and the patches of those that are kept are
what has changed. -/
structure Leaves (root : Path) (f : Files) (s : LoopState) (f' : Files) (s' : LoopState) :
    Prop where
  grows : ∃ added, s'.attempts = s.attempts ++ added ∧
    (∀ a ∈ added, a.kept = a.outcome.isProgress) ∧
    SameUser root f' ((keptPlans added).foldl (patched root) f)
  verified : s.verifications ≤ s'.verifications

/-- The last verification was of these files, and passed. -/
def LastPassed (r : RepairLoop) (verifications : Nat) (d : FS) : Prop :=
  0 < verifications ∧ (r.verify (verifications - 1) d).passed = true

section Loop

variable {root : Path} {f f' f'' : Files} {s s' s'' : LoopState}

theorem foldl_patched (hfg : SameUser root f f') (plans : List RepairPlan) :
    SameUser root (plans.foldl (patched root) f) (plans.foldl (patched root) f') := by
  induction plans generalizing f f' with
  | nil => exact hfg
  | cons plan plans ih => exact ih (hfg.patched plan)

theorem keptPlans_append (l₁ l₂ : List RepairAttemptRecord) :
    keptPlans (l₁ ++ l₂) = keptPlans l₁ ++ keptPlans l₂ := by
  unfold keptPlans
  rw [List.filter_append, List.map_append]

theorem Leaves.refl (f : Files) (s : LoopState) : Leaves root f s f s :=
  ⟨⟨[], (List.append_nil _).symm, nofun, SameUser.refl f⟩, Nat.le_refl _⟩

theorem Leaves.trans (h₁ : Leaves root f s f' s') (h₂ : Leaves root f' s' f'' s'') :
    Leaves root f s f'' s'' := by
  obtain ⟨⟨l₁, hl₁, hk₁, hf₁⟩, hv₁⟩ := h₁
  obtain ⟨⟨l₂, hl₂, hk₂, hf₂⟩, hv₂⟩ := h₂
  refine ⟨⟨l₁ ++ l₂, ?_, ?_, ?_⟩, hv₁.trans hv₂⟩
  · rw [hl₂, hl₁, List.append_assoc]
  · exact fun a ha => (List.mem_append.mp ha).elim (hk₁ a) (hk₂ a)
  · rw [keptPlans_append, List.foldl_append]
    exact hf₂.trans (foldl_patched hf₁ _)

/-- An attempt that is not kept. -/
theorem Leaves.rejected {a : RepairAttemptRecord} (hs : s'.attempts = s.attempts ++ [a])
    (hkept : a.kept = a.outcome.isProgress) (hno : a.kept = false)
    (hv : s.verifications ≤ s'.verifications) (hf : SameUser root f' f) :
    Leaves root f s f' s' := by
  refine ⟨⟨[a], hs, fun b hb => by cases List.mem_singleton.mp hb; exact hkept, ?_⟩, hv⟩
  have : keptPlans [a] = [] := by
    unfold keptPlans
    rw [List.filter_cons_of_neg (by rw [hno]; exact Bool.false_ne_true)]
    rfl
  rw [this]
  exact hf

/-- An attempt that is kept. -/
theorem Leaves.kept {a : RepairAttemptRecord} (hs : s'.attempts = s.attempts ++ [a])
    (hkept : a.kept = a.outcome.isProgress) (hyes : a.kept = true)
    (hv : s.verifications ≤ s'.verifications) (hf : SameUser root f' (patched root f a.plan)) :
    Leaves root f s f' s' := by
  refine ⟨⟨[a], hs, fun b hb => by cases List.mem_singleton.mp hb; exact hkept, ?_⟩, hv⟩
  have : keptPlans [a] = [a.plan] := by
    unfold keptPlans
    rw [List.filter_cons_of_pos hyes]
    rfl
  rw [this]
  exact hf

/-- What is solved has passed. -/
theorem passed_of_solved {lower : Text → Text} {before : List RepairError} {p : ErrorPacket}
    (h : compare lower before p.errors p.exitCode = .solved) : p.passed = true := by
  unfold compare at h
  split at h
  case isTrue hsolved =>
    obtain ⟨hexit, herrors⟩ := hsolved
    obtain ⟨hroot, _⟩ := List.append_eq_nil_iff.mp herrors
    unfold ErrorPacket.passed
    rw [hexit, hroot]
    rfl
  case isFalse => split_ifs at h

variable {r : RepairLoop} {w w' : World} {index : Nat} {primary : RepairError} {plan : RepairPlan}
  {ending : Ending}

/-- The files are on the disk, a manifest is written beside them. -/
theorem disk_of_still {α β : Type} {x : Prog Exn World α} {y : α → Prog Exn World β}
    (hx : DiskKeeps Eq x) (hy : ∀ a, DiskKeeps Eq (y a)) {result : Except Exn β}
    (hrun : (x >>= y) w = (result, w')) : w'.disk = w.disk :=
  ((DiskKeeps.bind hx hy).of_run hrun).symm

/-- **One attempt with a plan for a file that is there.** -/
theorem applyAttempt_leaves (hnew : ∀ w, IsFresh r.engine (r.newStamp w).id w)
    (ht : IsTarget r.engine.root w.disk plan.targetFile)
    (hrun : r.applyAttempt index primary plan s w = (.ok (ending, s'), w')) :
    Leaves r.engine.root w.disk.content s w'.disk.content s' ∧
      (ending = .solved → LastPassed r s'.verifications w'.disk) := by
  unfold RepairLoop.applyAttempt at hrun
  dsimp only at hrun
  split at hrun
  · cases hrun
    exact ⟨Leaves.refl _ _, nofun⟩
  · rw [Prog.bind_of_ok (Prog.gets_apply _ w)] at hrun
    obtain ⟨_, w₁, hbegin, hrun⟩ := Prog.bind_ok.mp hrun
    obtain ⟨_, w₂, hsnap, hrun⟩ := Prog.bind_ok.mp hrun
    obtain ⟨changed, w₃, happly, hrun⟩ := Prog.bind_ok.mp hrun
    have htried := tried ht (hnew w) hbegin hsnap happly
    split at hrun
    case isTrue hnone =>
      -- the patch changed nothing: rolled back, and no verification is run
      obtain ⟨answer, w₄, hback, hrun⟩ := Prog.bind_ok.mp hrun
      cases hrun
      refine ⟨Leaves.rejected rfl rfl rfl (Nat.le_refl _) (htried.back _ _ hback), nofun⟩
    case isFalse hsome =>
      obtain ⟨hchanged, hfiles⟩ := htried.files.resolve_left fun h => hsome h.1
      subst hchanged
      obtain ⟨_, w₄, hnote, hrun⟩ := Prog.bind_ok.mp hrun
      obtain ⟨_, hdisk₄⟩ := recordAfter_single hnote
      rw [Prog.bind_of_ok (Prog.gets_apply _ w₄)] at hrun
      split at hrun
      case isTrue hprogress =>
        -- kept: the manifest is written twice more, neither time a file of the user
        obtain ⟨_, w₅, hsave, hrun⟩ := Prog.bind_ok.mp hrun
        obtain ⟨_, w₆, hfinal, hrun⟩ := Prog.bind_ok.mp hrun
        have hdisk₅ : w₅.disk = w₄.disk :=
          disk_of_still (DiskKeeps.loadManifest _) (fun _ => DiskKeeps.writeManifest _) hsave
        have hdisk₆ : w₆.disk = w₅.disk :=
          disk_of_still (DiskKeeps.loadManifest _) (fun _ =>
            DiskKeeps.bind (DiskKeeps.writeManifest _) fun _ => DiskKeeps.pure _) hfinal
        have hsame : w₆.disk = w₃.disk := hdisk₆.trans (hdisk₅.trans hdisk₄)
        split at hrun
        case isTrue hsolved =>
          cases hrun
          refine ⟨Leaves.kept rfl rfl hprogress (Nat.le_succ _) (hsame ▸ hfiles), fun _ => ?_⟩
          refine ⟨Nat.succ_pos _, ?_⟩
          show (r.verify s.verifications w'.disk).passed = true
          rw [hdisk₆, hdisk₅]
          exact passed_of_solved hsolved
        case isFalse =>
          cases hrun
          exact ⟨Leaves.kept rfl rfl hprogress (Nat.le_succ _) (hsame ▸ hfiles), nofun⟩
      case isFalse hprogress =>
        obtain ⟨answer, w₅, hback, hrun⟩ := Prog.bind_ok.mp hrun
        cases hrun
        exact ⟨Leaves.rejected rfl rfl (Bool.eq_false_iff.mpr hprogress) (Nat.le_succ _)
          (htried.noted _ hnote _ _ hback), nofun⟩

/-- A file that was inspected is there. -/
theorem isTarget_of_inspected (hroot : ∀ n ∈ r.engine.root, IsName n) {d : FS} {k : Text}
    {history : List PreviousAttempt} (hk : k ∈ (r.buildContext d primary history).inspected) :
    IsTarget r.engine.root d k := by
  obtain ⟨file, _, hread⟩ := List.mem_filterMap.mp (List.mem_dedup.mp hk)
  unfold RepairLoop.readWindow at hread
  dsimp only at hread
  split at hread
  case isTrue hfile =>
    obtain ⟨hnul, hinside, hisFile⟩ := hfile
    cases hread
    obtain ⟨names, hnames⟩ := hinside
    have hrelative : relativeTo r.engine.root (locate r.engine.root file) = names := by
      rw [← hnames, Tools.relativeTo_append]
    refine ⟨names, ?_, by rw [hrelative], by rw [hnames]; exact hisFile⟩
    have hbase : ∀ n ∈ (if isAbsolute file then [] else r.engine.root : Path), IsName n := by
      intro n hn
      split at hn
      · cases hn
      · exact hroot n hn
    have hall := Tools.isName_resolveFrom hbase fun n hn => Tools.of_mem_parts hn hnul
    intro n hn
    refine hall n ?_
    show n ∈ locate r.engine.root file
    rw [← hnames]
    exact List.mem_append_right _ hn
  case isFalse => cases hread

/-- A plan that is applied is for a file that was inspected. -/
theorem inspected_of_apply {d : FS} (h : r.decision d index s = .apply primary plan) :
    ∃ primary, plan.targetFile ∈ (r.buildContext d primary s.history).inspected := by
  unfold RepairLoop.decision at h
  split at h
  · cases h
  · dsimp only at h
    split at h
    · cases h
    · split_ifs at h with hedit htarget hinspected heditable herror
      · cases h
        exact ⟨_, hinspected⟩
      · split at h
        · cases h
          exact ⟨_, hinspected⟩
        · cases h

/-- **Step lemma**: one attempt. -/
theorem attempt_leaves (hroot : ∀ n ∈ r.engine.root, IsName n)
    (hnew : ∀ w, IsFresh r.engine (r.newStamp w).id w)
    (hrun : r.attempt index s w = (.ok (ending, s'), w')) :
    Leaves r.engine.root w.disk.content s w'.disk.content s' ∧
      (ending = .solved → LastPassed r s'.verifications w'.disk) := by
  unfold RepairLoop.attempt at hrun
  rw [Prog.bind_of_ok (Prog.gets_apply _ w)] at hrun
  cases hdecision : r.decision w.disk index s with
  | stop reason =>
    rw [hdecision] at hrun
    cases hrun
    exact ⟨Leaves.refl _ _, nofun⟩
  | reject primary plan error =>
    rw [hdecision] at hrun
    cases hrun
    exact ⟨Leaves.rejected rfl rfl rfl (Nat.le_refl _) (SameUser.refl _), nofun⟩
  | apply primary plan =>
    rw [hdecision] at hrun
    obtain ⟨primary', hinspected⟩ := inspected_of_apply hdecision
    exact applyAttempt_leaves hnew (isTarget_of_inspected hroot hinspected) hrun

/-- **Run lemma**: the attempts. -/
theorem attempts_leave (hroot : ∀ n ∈ r.engine.root, IsName n)
    (hnew : ∀ w, IsFresh r.engine (r.newStamp w).id w) {left : Nat}
    (hrun : r.attempts left index s w = (.ok (ending, s'), w')) :
    Leaves r.engine.root w.disk.content s w'.disk.content s' ∧ ending ≠ .continues ∧
      (ending = .solved → LastPassed r s'.verifications w'.disk) := by
  induction left generalizing index s w with
  | zero =>
    cases hrun
    exact ⟨Leaves.refl _ _, nofun, nofun⟩
  | succ left ih =>
    obtain ⟨⟨ending₁, s₁⟩, w₁, hfirst, hrun⟩ := Prog.bind_ok.mp hrun
    obtain ⟨hleaves, hsolved⟩ := attempt_leaves hroot hnew hfirst
    dsimp only at hrun
    split at hrun
    case isTrue hcontinues =>
      obtain ⟨hrest, hends, hsolved'⟩ := ih hrun
      exact ⟨hleaves.trans hrest, hends, hsolved'⟩
    case isFalse hends =>
      cases hrun
      exact ⟨hleaves, hends, hsolved⟩

end Loop

/-- **What the loop leaves**: the user's files as they were, with the patches of the kept attempts
applied in order, and success only if the last verification, of these files, has passed. -/
theorem run_leaves (r : RepairLoop) (hroot : ∀ n ∈ r.engine.root, IsName n)
    (hnew : ∀ w, IsFresh r.engine (r.newStamp w).id w) {w w' : World} {result : RepairResult}
    (hrun : r.run w = (.ok result, w')) :
    SameUser r.engine.root w'.disk.content
        ((keptPlans result.attempts).foldl (patched r.engine.root) w.disk.content) ∧
      (∀ a ∈ result.attempts, a.kept = a.outcome.isProgress) ∧
      (result.success = true → LastPassed r result.verifications w'.disk) := by
  unfold RepairLoop.run at hrun
  rw [Prog.bind_of_ok (Prog.gets_apply _ w)] at hrun
  split at hrun
  case isTrue hpassed =>
    cases hrun
    exact ⟨SameUser.refl _, nofun, fun _ => ⟨Nat.one_pos, hpassed⟩⟩
  case isFalse =>
    obtain ⟨⟨ending, s⟩, w₁, hattempts, hrun⟩ := Prog.bind_ok.mp hrun
    obtain ⟨⟨⟨added, hadded, hkept, hfiles⟩, _⟩, hends, hsolved⟩ :=
      attempts_leave hroot hnew hattempts
    have hadded : s.attempts = added := hadded
    cases ending with
    | continues => exact absurd rfl hends
    | solved =>
      cases hrun
      exact ⟨hadded ▸ hfiles, hadded ▸ hkept, fun _ => hsolved rfl⟩
    | stops reason =>
      cases hrun
      exact ⟨hadded ▸ hfiles, hadded ▸ hkept, fun hpassed => ⟨Nat.succ_pos _, hpassed⟩⟩

/-- An id that is longer than all that is there. -/
def freshId (w : World) : Text :=
  List.replicate (((w.transactions.map fun m => m.transactionId.length).sum +
    (w.disk.support.map fun p => (p.map List.length).sum).sum) + 1) 'x'

theorem isFresh_freshId (engine : Engine) (w : World) : IsFresh engine (freshId w) w := by
  have hlength : (freshId w).length = ((w.transactions.map fun m => m.transactionId.length).sum +
      (w.disk.support.map fun p => (p.map List.length).sum).sum) + 1 := List.length_replicate
  constructor
  · refine List.find?_eq_none.mpr fun m hm => ?_
    have hle := List.le_sum_of_mem (List.mem_map_of_mem (f := fun m => m.transactionId.length) hm)
    rw [decide_eq_true_eq]
    intro hid
    rw [hid] at hle
    omega
  · rw [Disk.present_eq_false]
    by_contra hne
    have hsupport := w.disk.mem_support _ (Option.isSome_iff_ne_none.mpr hne)
    have hle : ((transactionDir engine.root (freshId w)).map List.length).sum ≤
        (w.disk.support.map fun p => (p.map List.length).sum).sum :=
      List.le_sum_of_mem (List.mem_map_of_mem (f := fun p => (p.map List.length).sum) hsupport)
    have hlast : (freshId w).length ≤
        ((transactionDir engine.root (freshId w)).map List.length).sum := by
      refine List.le_sum_of_mem (List.mem_map_of_mem ?_)
      simp [transactionDir]
    rw [hlength] at hlast
    omega

/-- A file with a wrong number, and a proposer that corrects it. -/
def fixLoop : RepairLoop where
  engine := Engine.agreeable
  newStamp w := ⟨freshId w, []⟩
  lower t := t
  verify _ d :=
    if d.content ["ws".toList, "a.py".toList] = some (encodeUtf8 "x = 2".toList) then ⟨0, [], []⟩
    else ⟨1, [⟨.unknown, "a.py".toList, some 1, [], [], "x is 1".toList, false⟩], []⟩
  propose _ _ := some
    { rootCause := "a typo".toList, targetFile := "a.py".toList, search := "1".toList
      replacement := "2".toList }
  filesToInspect _ e := [e.file]
  editableFiles := none
  relevanceError _ _ := []
  deterministicPlan _ _ _ := none
  maxAttempts := 1

def fixWorld : World := World.ofFiles [("a.py", "x = 1")]

/-- The patch is kept, and the loop succeeds. -/
theorem run_leaves_fix : ∃ result w', fixLoop.run fixWorld = (.ok result, w') ∧
    result.success = true ∧ keptPlans result.attempts ≠ [] ∧
    SameUser fixLoop.engine.root w'.disk.content
      ((keptPlans result.attempts).foldl (patched fixLoop.engine.root) fixWorld.disk.content) ∧
    LastPassed fixLoop result.verifications w'.disk := by
  have hok : ∃ result, (fixLoop.run fixWorld).1 = .ok result ∧ result.success = true ∧
      keptPlans result.attempts ≠ [] := ⟨_, rfl, rfl, by decide⟩
  obtain ⟨result, hresult, hsuccess, hkept⟩ := hok
  have hrun : fixLoop.run fixWorld = (.ok result, (fixLoop.run fixWorld).2) :=
    Prod.ext hresult rfl
  obtain ⟨hfiles, _, hpassed⟩ := run_leaves fixLoop (by decide)
    (fun w => isFresh_freshId fixLoop.engine w) hrun
  exact ⟨result, _, hrun, hsuccess, hkept, hfiles, hpassed hsuccess⟩

end Shamsu.Repair
