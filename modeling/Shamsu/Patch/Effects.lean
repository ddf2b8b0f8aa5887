import Shamsu.Patch.Running

/-!
# Which files an execution writes and removes

The disk logs every file that is put or dropped (`Disk.Footprint`). Here each
operation and each file patch is given the paths it may put and drop, as keys
(`Operation.puts`, `FilePatch.drops`, ...), and shown to put and drop nothing
else but the program's own files: `StaysIn root A x` says that `x` does only
effects in `A` and leaves the workspace where it is.

A file patch that is applied to its end does all its effects (`Emits`), so the
keys are exact there.
-/

namespace Shamsu.Patch

open Shamsu.Lib Shamsu.Py Shamsu.Safety

/-! ## Staying inside -/

/-- From a disk with the workspace on it, only effects in `A` happen and the
workspace is still there. -/
def Confined (root : Path) (A : Effect Text → Prop) (d d' : FS) : Prop :=
  d.isDir root = true → d'.isDir root = true ∧ Disk.Footprint A d d'

theorem Confined.refl {root : Path} {A : Effect Text → Prop} (d : FS) : Confined root A d d :=
  fun h => ⟨h, Disk.Footprint.refl d⟩

theorem Confined.trans {root : Path} {A : Effect Text → Prop} {a b c : FS}
    (h₁ : Confined root A a b) (h₂ : Confined root A b c) : Confined root A a c := by
  intro ha
  obtain ⟨hb, f₁⟩ := h₁ ha
  obtain ⟨hc, f₂⟩ := h₂ hb
  exact ⟨hc, f₁.trans f₂⟩

instance (root : Path) (A : Effect Text → Prop) : Std.Refl (Confined root A) := ⟨Confined.refl⟩

instance (root : Path) (A : Effect Text → Prop) : IsTrans FS (Confined root A) :=
  ⟨fun _ _ _ => Confined.trans⟩

section Files

variable {root : Path} {A : Effect Text → Prop}

theorem confined_put {d : FS} {p : Path} {b : Bytes} (h : d.canPut p = true)
    (hA : A (.put p)) : Confined root A d (d.put p b h) := by
  exact fun hroot => ⟨Disk.isDir_put h hroot, Disk.Footprint.put d p b h hA⟩

theorem confined_drop {d : FS} {p : Path} (h : d.isFile p = true) (hA : A (.drop p)) :
    Confined root A d (d.drop p h) := by
  intro hroot
  refine ⟨?_, Disk.Footprint.drop d p h hA⟩
  rw [Disk.isDir_iff, Disk.get_drop, if_neg, Disk.isDir_iff.mp hroot]
  intro e
  rw [← e, Disk.isFile_eq_false_of_isDir hroot] at h
  simp at h

theorem confined_mkdirs {d : FS} {p : Path} (h : d.isClear p = true) :
    Confined root A d (d.mkdirs p h) := by
  exact fun hroot => ⟨Disk.isDir_mkdirs h hroot, Disk.Footprint.mkdirs d p h⟩

theorem confined_graft {d : FS} {src dst : Path} (h : d.canGraft src dst = true)
    (hs : A (.drop src)) (hd : A (.put dst)) (hsr : root <+: src) (hdr : root <+: dst) :
    Confined root A d (d.graft src dst h) := by
  intro hroot
  refine ⟨?_, Disk.Footprint.graft d src dst h hs hd⟩
  -- neither tree reaches up to the workspace
  obtain ⟨hsd, hdd⟩ := Disk.of_canGraft h
  have hs' : ¬ src <+: root := by
    intro hp
    have e : src = root := hp.eq_of_length_le hsr.length_le
    exact hsd (e ▸ hdr)
  have hd' : ¬ dst <+: root := by
    intro hp
    have e : dst = root := hp.eq_of_length_le hdr.length_le
    rw [e, hroot] at hdd
    simp at hdd
  rw [Disk.isDir_congr (Disk.get_graft_elsewhere d _ hs' hd')]
  exact hroot

theorem writeText_confined {p : Path} {t : Text} (hA : A (.put p)) :
    Prog.Keeps (Confined root A) (writeText p t) :=
  writeText_keeps fun _ hp => confined_put hp hA

theorem unlink_confined {p : Path} (hA : A (.drop p)) :
    Prog.Keeps (Confined root A) (unlink p) :=
  unlink_keeps fun _ hf => confined_drop hf hA

theorem mkdirP_confined (p : Path) : Prog.Keeps (Confined root A) (mkdirP p) :=
  mkdirP_keeps fun _ hc => confined_mkdirs hc

theorem copy2_confined {src dst : Path} (hA : ∀ s, A (.put (dst ++ s))) :
    Prog.Keeps (Confined root A) (copy2 src dst) :=
  copy2_keeps fun _ s _ hp => confined_put hp (hA s)

theorem moveInto_confined {src dst : Path} (hs : A (.drop src)) (hd : ∀ s, A (.put (dst ++ s)))
    (hsr : root <+: src) (hdr : root <+: dst) : Prog.Keeps (Confined root A) (move src dst) :=
  move_keeps fun _ s hg => confined_graft hg hs (hd s) hsr (hdr.trans (List.prefix_append ..))

/-- A move to where no directory is. -/
theorem move_confined {src dst : Path} {d d' : FS} {r : Except Exn Unit} (hs : A (.drop src))
    (hd : A (.put dst)) (hsr : root <+: src) (hdr : root <+: dst) (hfree : d.isDir dst = false)
    (hrun : move src dst d = (r, d')) : Confined root A d d' := by
  have htarget : moveTarget d src dst = dst := by
    unfold moveTarget
    rw [if_neg (by rw [hfree]; simp)]
  rcases move_cases src dst d with ⟨_, hok⟩ | ⟨hg, _, _, hok⟩ | ⟨e, herr⟩
  · rw [hok] at hrun; cases hrun; exact Confined.refl d
  · simp only [htarget] at hg hok
    rw [hok] at hrun; cases hrun
    exact confined_graft hg hs hd hsr hdr
  · rw [herr] at hrun; cases hrun; exact Confined.refl d

end Files

/-! ## What a program does to the disk -/

/-- Whatever the outcome, the disk `x` leaves is `R`-related to the one it found. -/
def DiskKeeps {α : Type} (R : FS → FS → Prop) (x : Prog Exn World α) : Prop :=
  Prog.Keeps (fun w w' => R w.disk w'.disk) x

namespace DiskKeeps

variable {α β : Type} {R : FS → FS → Prop}

theorem disk {x : FSProg α} (h : Prog.Keeps R x) : DiskKeeps R (onDisk x) :=
  Prog.Keeps.zoom (P := World.diskPart) h

theorem of_run {x : Prog Exn World α} (h : DiskKeeps R x) {w w' : World} {r : Except Exn α}
    (hrun : x w = (r, w')) : R w.disk w'.disk := by
  have := h w
  rw [hrun] at this
  exact this

theorem bind [IsTrans FS R] {x : Prog Exn World α} {f : α → Prog Exn World β}
    (hx : DiskKeeps R x) (hf : ∀ a, DiskKeeps R (f a)) : DiskKeeps R (x >>= f) :=
  Prog.Keeps.bind (R := fun w w' : World => R w.disk w'.disk)
    (fun _ _ _ => IsTrans.trans _ _ _) hx hf

/-- Two ways on, each from the states that take it. -/
theorem branch {c : World → Bool} {x y : Prog Exn World α}
    (hx : ∀ w, c w = true → R w.disk (x w).2.disk)
    (hy : ∀ w, c w = false → R w.disk (y w).2.disk) :
    DiskKeeps R (do if ← Prog.gets c then x else y) := by
  intro w
  show R w.disk ((if c w = true then x else y) w).2.disk
  cases hc : c w with
  | true => exact hx w hc
  | false => exact hy w hc

variable [Std.Refl R]

/-- A program that leaves the disk alone. -/
theorem still {x : Prog Exn World α} (h : ∀ w, (x w).2.disk = w.disk) : DiskKeeps R x := by
  intro w
  show R w.disk (x w).2.disk
  rw [h w]
  exact Std.Refl.refl _

theorem whenever {c : World → Bool} {x : Prog Exn World Unit} (hx : DiskKeeps R x) :
    DiskKeeps R (Prog.whenever c x) :=
  Prog.Keeps.whenever (fun w => Std.Refl.refl w.disk) hx

theorem ensure (c : World → Bool) (e : Exn) : DiskKeeps R (Prog.ensure c e) :=
  Prog.Keeps.ensure (fun w => Std.Refl.refl w.disk) c e

theorem ofExcept (r : Except Exn α) : DiskKeeps R (Prog.ofExcept r) := still fun _ => rfl

theorem raise (e : Exn) : DiskKeeps R (Prog.raise e : Prog Exn World α) := still fun _ => rfl

theorem pure (a : α) : DiskKeeps R (Pure.pure a : Prog Exn World α) := still fun _ => rfl

theorem gets (f : World → α) : DiskKeeps R (Prog.gets f) := still fun _ => rfl

theorem loadManifest (id : Text) : DiskKeeps R (Patch.loadManifest id) := still fun _ => rfl

theorem writeManifest (m : Manifest) : DiskKeeps R (Patch.writeManifest m) := still fun _ => rfl

theorem recordAfter [IsTrans FS R] (engine : Engine) (id k : Text) :
    DiskKeeps R (Patch.recordAfter engine id k) :=
  bind (loadManifest id) fun _ => bind (gets _) fun _ => writeManifest _

/-- A check, and what goes on with its value. -/
theorem ofExcept_bind {r : Except Exn α} {f : α → Prog Exn World β}
    (h : ∀ a, r = .ok a → DiskKeeps R (f a)) : DiskKeeps R (Prog.ofExcept r >>= f) := by
  cases r with
  | ok a => exact h a rfl
  | error e => exact raise e

theorem withTargets {targets : Except Exn α} {refusal : String → MutationOutcome}
    {body : α → Prog Exn World MutationOutcome}
    (h : ∀ a, targets = .ok a → DiskKeeps R (body a)) :
    DiskKeeps R (Patch.withTargets targets refusal body) := by
  unfold Patch.withTargets
  cases targets with
  | ok a => exact h a rfl
  | error e =>
    dsimp only
    split
    · exact pure _
    · exact raise _

end DiskKeeps

/-- `x` does only effects in `A`. -/
abbrev StaysIn {α : Type} (root : Path) (A : Effect Text → Prop) (x : Prog Exn World α) : Prop :=
  DiskKeeps (Confined root A) x

/-- The workspace stays, and no user path changes. -/
def OwnOnly (root : Path) (d d' : FS) : Prop :=
  d.isDir root = true → d'.isDir root = true ∧ ∀ p, IsUserPath root p → d'.get p = d.get p

instance (root : Path) : Std.Refl (OwnOnly root) := ⟨fun _ h => ⟨h, fun _ _ => rfl⟩⟩

instance (root : Path) : IsTrans FS (OwnOnly root) := ⟨fun a b c h₁ h₂ h => by
  obtain ⟨hb, g₁⟩ := h₁ h
  obtain ⟨hc, g₂⟩ := h₂ hb
  exact ⟨hc, fun p hp => (g₂ p hp).trans (g₁ p hp)⟩⟩

/-- A path of the program's own. -/
def IsOwnPath (root p : Path) : Prop := root ++ [dotShamsu] <+: p

theorem IsOwnPath.append {root p : Path} (h : IsOwnPath root p) (s : Path) :
    IsOwnPath root (p ++ s) := h.trans (List.prefix_append ..)

theorem mkdirP_ownOnly {root p : Path} (hp : IsOwnPath root p) :
    Prog.Keeps (OwnOnly root) (mkdirP p) := by
  refine mkdirP_keeps fun d hc hroot => ⟨Disk.isDir_mkdirs hc hroot, fun q hq => ?_⟩
  rw [Disk.get_mkdirs]
  split
  next hqp =>
    -- above an own path a user path is at or above the workspace
    rcases List.prefix_or_prefix_of_prefix hqp hp with hle | hle
    · rcases List.prefix_concat_iff.mp hle with he | hle
      · exact absurd (he ▸ List.prefix_refl _) hq.2
      · have he : q = root := hle.eq_of_length_le hq.1.length_le
        rw [he, Disk.isDir_iff.mp hroot]
    · exact absurd hle hq.2
  next => rfl

/-- The workspace is no file of the program's own. -/
theorem root_ne_own {root t : Path} (ht : IsOwnPath root t) : root ≠ t := by
  rintro rfl
  have := ht.length_le
  rw [List.length_append, List.length_singleton] at this
  omega

theorem put_ownOnly {root p : Path} (hown : IsOwnPath root p) {d : FS} {b : Bytes}
    (hp : d.canPut p = true) : OwnOnly root d (d.put p b hp) := by
  refine fun hroot => ⟨Disk.isDir_put hp hroot, fun q hq => ?_⟩
  rw [Disk.get_put, if_neg fun he : q = p => hq.2 (he ▸ hown)]

theorem copy2_ownOnly {root src dst : Path} (hd : IsOwnPath root dst) :
    Prog.Keeps (OwnOnly root) (copy2 src dst) :=
  copy2_keeps fun _ s _ hp => put_ownOnly (hd.append s) hp

/-! ## The keys an operation or a file patch is about -/

/-- The keys whose files the operation writes. -/
def Operation.puts (op : Operation) : List Text :=
  match op.op with
  | .createFile | .editFile => [op.path]
  | .renameFile | .moveFile => [op.destPath]
  | _ => []

/-- The keys whose files the operation removes. -/
def Operation.drops (op : Operation) : List Text :=
  match op.op with
  | .renameFile | .moveFile | .deleteFile => [op.path]
  | _ => []

/-- The keys whose files the file patch writes. -/
def FilePatch.puts (patch : FilePatch) : List Text :=
  if patch.newPath = devNull then [] else [patch.newPath]

/-- The keys whose files the file patch removes. -/
def FilePatch.drops (root : Path) (patch : FilePatch) : List Text :=
  if patch.oldPath = devNull then []
  else if patch.newPath = devNull then [patch.oldPath]
  else if locate root patch.oldPath = locate root patch.newPath then []
  else [patch.oldPath]

/-- What the file patch does, when it is applied to its end. -/
def FilePatch.effects (root : Path) (patch : FilePatch) : List (Effect Text) :=
  patch.puts.map (fun k => .put (locate root k)) ++
    (patch.drops root).map fun k => .drop (locate root k)

section Effects

variable {root : Path} {patch : FilePatch}

theorem effects_create (ho : patch.oldPath = devNull) (hn : patch.newPath ≠ devNull) :
    patch.effects root = [.put (locate root patch.newPath)] := by
  simp [FilePatch.effects, FilePatch.puts, FilePatch.drops, ho, hn]

theorem effects_delete (ho : patch.oldPath ≠ devNull) (hn : patch.newPath = devNull) :
    patch.effects root = [.drop (locate root patch.oldPath)] := by
  simp [FilePatch.effects, FilePatch.puts, FilePatch.drops, ho, hn]

theorem effects_edit (ho : patch.oldPath ≠ devNull) (hn : patch.newPath ≠ devNull) :
    patch.effects root = .put (locate root patch.newPath) ::
      if locate root patch.oldPath = locate root patch.newPath then []
      else [.drop (locate root patch.oldPath)] := by
  simp only [FilePatch.effects, FilePatch.puts, FilePatch.drops, if_neg ho, if_neg hn]
  split <;> rfl

end Effects

section Steps

variable {engine : Engine} {id : Text} {A : Effect Text → Prop}

/-- Where a clean key leads. -/
theorem locate_clean {root : Path} {k : Text} (h : CleanKey k) : locate root k = root ++ parts k := by
  unfold locate
  rw [if_neg (by rw [h.1]; simp), resolveFrom_eq_append h.2]

/-- The backup of a clean key is the program's own. -/
theorem transactionBackup_own {root : Path} {k : Text} (hclean : CleanKey k) :
    IsOwnPath root (transactionBackup root id k) := by
  rw [transactionBackup_clean hclean]
  exact ⟨"mutations".toList :: id :: "backups".toList :: parts k,
    by simp [backupsDir, transactionDir]⟩

theorem transactionBackup_parent_own {root : Path} {k : Text} (hclean : CleanKey k) :
    IsOwnPath root (transactionBackup root id k).parent := by
  rw [transactionBackup_clean hclean]
  refine ⟨("mutations".toList :: id :: "backups".toList :: parts k).dropLast, ?_⟩
  unfold Path.parent
  rw [← List.dropLast_append_of_ne_nil (by simp)]
  simp [backupsDir, transactionDir]

/-- A snapshot makes directories and a copy. -/
theorem snapshot_diskKeeps {R : FS → FS → Prop} [Std.Refl R] [IsTrans FS R] {k : Text}
    (hmkdir : Prog.Keeps R (mkdirP (transactionBackup engine.root id k).parent))
    (hcopy : ∀ t, Prog.Keeps R (copy2 t (transactionBackup engine.root id k))) :
    DiskKeeps R (snapshot engine id k) := by
  unfold snapshot
  refine DiskKeeps.bind (DiskKeeps.loadManifest id) fun m => ?_
  split
  · exact DiskKeeps.pure ()
  · refine DiskKeeps.bind (DiskKeeps.ofExcept _) fun t => DiskKeeps.bind (DiskKeeps.gets _) fun _ =>
      DiskKeeps.bind (DiskKeeps.whenever ?_) fun _ => DiskKeeps.writeManifest _
    exact DiskKeeps.bind (DiskKeeps.disk hmkdir) fun _ => DiskKeeps.disk (hcopy t)

theorem snapshot_staysIn {k : Text} (hown : ∀ p, IsOwnPath engine.root p → A (.put p))
    (hclean : CleanKey k) : StaysIn engine.root A (snapshot engine id k) :=
  snapshot_diskKeeps (mkdirP_confined _) fun _ =>
    copy2_confined fun s => hown _ ((transactionBackup_own hclean).append s)

theorem snapshot_ownOnly {k : Text} (hclean : CleanKey k) :
    DiskKeeps (OwnOnly engine.root) (snapshot engine id k) :=
  snapshot_diskKeeps (mkdirP_ownOnly (transactionBackup_parent_own hclean)) fun _ =>
    copy2_ownOnly (transactionBackup_own hclean)

theorem moveToTrash_staysIn {k : Text} {t : Path}
    (hown : ∀ p, IsOwnPath engine.root p → A (.put p)) (hclean : CleanKey k)
    (ht : engine.root <+: t) (hA : A (.drop t)) :
    StaysIn engine.root A (moveToTrash engine id t k) := by
  unfold moveToTrash
  simp only [trashPath_clean engine.root id hclean]
  rw [if_pos (List.prefix_append ..)]
  refine DiskKeeps.bind (DiskKeeps.disk (mkdirP_confined _)) fun _ =>
    DiskKeeps.disk (moveInto_confined hA (fun s => hown _ ?_) ht (List.prefix_append ..))
  exact ⟨"trash".toList :: id :: (parts k ++ s), by simp⟩

/-! ## The operations -/

section

variable {R : FS → FS → Prop} [Std.Refl R] [IsTrans FS R] {k content : Text}

theorem createFile_diskKeeps (hsnap : CleanKey k → DiskKeeps R (snapshot engine id k))
    (hmkdir : ∀ t, validateMutationPath engine.root k = .ok t → Prog.Keeps R (mkdirP t.parent))
    (hwrite : ∀ t, validateMutationPath engine.root k = .ok t →
      Prog.Keeps R (writeText t content)) : DiskKeeps R (createFile engine id k content) := by
  refine DiskKeeps.withTargets fun t hv => DiskKeeps.bind (DiskKeeps.gets _) fun found => ?_
  split
  · exact DiskKeeps.pure _
  · exact DiskKeeps.bind (hsnap (cleanKey_of_mutation hv).1) fun _ =>
      DiskKeeps.bind (DiskKeeps.disk (hmkdir t hv)) fun _ =>
      DiskKeeps.bind (DiskKeeps.disk (hwrite t hv)) fun _ =>
      DiskKeeps.bind (DiskKeeps.recordAfter _ _ _) fun _ => DiskKeeps.pure _

theorem editFile_diskKeeps (hsnap : CleanKey k → DiskKeeps R (snapshot engine id k))
    (hwrite : ∀ t, validateMutationPath engine.root k = .ok t →
      Prog.Keeps R (writeText t content)) : DiskKeeps R (editFile engine id k content) := by
  refine DiskKeeps.withTargets fun t hv => DiskKeeps.bind (DiskKeeps.gets _) fun found => ?_
  split
  · exact DiskKeeps.bind (hsnap (cleanKey_of_mutation hv).1) fun _ =>
      DiskKeeps.bind (DiskKeeps.disk (hwrite t hv)) fun _ =>
      DiskKeeps.bind (DiskKeeps.recordAfter _ _ _) fun _ => DiskKeeps.pure _
  · exact DiskKeeps.pure _

theorem deleteFile_diskKeeps (hsnap : CleanKey k → DiskKeeps R (snapshot engine id k))
    (htrash : ∀ t, validateMutationPath engine.root k = .ok t → CleanKey k →
      DiskKeeps R (moveToTrash engine id t k)) : DiskKeeps R (deleteFile engine id k) := by
  refine DiskKeeps.withTargets fun t hv => DiskKeeps.bind (DiskKeeps.gets _) fun found => ?_
  have hclean := (cleanKey_of_mutation hv).1
  split
  · exact DiskKeeps.bind (hsnap hclean) fun _ => DiskKeeps.bind (htrash t hv hclean) fun _ =>
      DiskKeeps.bind (DiskKeeps.recordAfter _ _ _) fun _ => DiskKeeps.pure _
  · exact DiskKeeps.pure _

end

variable (hown : ∀ p, IsOwnPath engine.root p → A (.put p))
include hown

theorem createFile_staysIn {k content : Text}
    (hA : ∀ t, validateMutationPath engine.root k = .ok t → A (.put t)) :
    StaysIn engine.root A (createFile engine id k content) :=
  createFile_diskKeeps (snapshot_staysIn hown) (fun _ _ => mkdirP_confined _)
    fun t hv => writeText_confined (hA t hv)

theorem editFile_staysIn {k content : Text}
    (hA : ∀ t, validateMutationPath engine.root k = .ok t → A (.put t)) :
    StaysIn engine.root A (editFile engine id k content) :=
  editFile_diskKeeps (snapshot_staysIn hown) fun t hv => writeText_confined (hA t hv)

theorem createDirectory_staysIn {k : Text} :
    StaysIn engine.root A (createDirectory engine id k) := by
  refine DiskKeeps.withTargets fun t hv => ?_
  obtain ⟨hclean, _, _⟩ := cleanKey_of_mutation hv
  exact DiskKeeps.bind (snapshot_staysIn hown hclean) fun _ =>
    DiskKeeps.bind (DiskKeeps.disk (mkdirP_confined _)) fun _ =>
    DiskKeeps.bind (DiskKeeps.recordAfter _ _ _) fun _ => DiskKeeps.pure _

theorem deleteFile_staysIn {k : Text}
    (hA : ∀ t, validateMutationPath engine.root k = .ok t → A (.drop t)) :
    StaysIn engine.root A (deleteFile engine id k) :=
  deleteFile_diskKeeps (snapshot_staysIn hown) fun t hv hclean =>
    moveToTrash_staysIn hown hclean
      ((validateMutationPath_ok hv).2.1 ▸ List.prefix_append ..) (hA t hv)

/-- Where nothing is at the destination, nothing is there until the move. -/
theorem relocateTo_confined {k k' : Text} {src dst : Path} {w w' : World} {r : Except Exn Unit}
    (hclean : CleanKey k) (hclean' : CleanKey k') (hsr : engine.root <+: src)
    (hdr : engine.root <+: dst) (hs : A (.drop src)) (hd : A (.put dst))
    (hfree : w.disk.present dst = false)
    (hrun : relocateTo engine id k k' src dst w = (r, w')) :
    Confined engine.root A w.disk w'.disk := by
  intro hroot
  rcases Prog.bind_cases hrun with ⟨e, h₁, rfl⟩ | ⟨_, w₁, h₁, hrun⟩
  · exact (snapshot_staysIn hown hclean).of_run h₁ hroot
  have c₁ := (snapshot_staysIn hown hclean).of_run h₁
  obtain ⟨hroot₁, g₁⟩ := (snapshot_ownOnly hclean).of_run h₁ hroot
  rcases Prog.bind_cases hrun with ⟨e, h₂, rfl⟩ | ⟨_, w₂, h₂, hrun⟩
  · exact c₁.trans ((snapshot_staysIn hown hclean').of_run h₂) hroot
  have c₂ := c₁.trans ((snapshot_staysIn hown hclean').of_run h₂)
  obtain ⟨hroot₂, g₂⟩ := (snapshot_ownOnly hclean').of_run h₂ hroot₁
  rcases Prog.bind_cases hrun with ⟨e, h₃, rfl⟩ | ⟨_, w₃, h₃, hrun⟩
  · exact c₂.trans ((DiskKeeps.disk (mkdirP_confined _)).of_run h₃) hroot
  have c₃ := c₂.trans ((DiskKeeps.disk (mkdirP_confined _)).of_run h₃)
  -- the move, to a user path that is free or to one of the program's own
  have hmove : ∀ {r w₄}, onDisk (move src dst) w₃ = (r, w₄) →
      Confined engine.root A w₃.disk w₄.disk := by
    intro r w₄ h₄
    by_cases huser : IsUserPath engine.root dst
    · have hdst₂ : w₂.disk.isDir dst = false := by
        rw [Disk.isDir_eq_false, g₂ dst huser, g₁ dst huser, Disk.present_eq_false.mp hfree]
        simp
      obtain ⟨d, hd₄, rfl⟩ := onDisk_cases h₄
      exact move_confined hs hd hsr hdr (isDir_mkdirParent h₃ hdst₂) hd₄
    · have hdst : IsOwnPath engine.root dst := by
        by_contra hn
        exact huser ⟨hdr, hn⟩
      exact (DiskKeeps.disk (moveInto_confined hs (fun s => hown _ (hdst.append s)) hsr hdr)).of_run
        h₄
  rcases Prog.bind_cases hrun with ⟨e, h₄, rfl⟩ | ⟨_, w₄, h₄, hrun⟩
  · exact c₃.trans (hmove h₄) hroot
  have hrecord : StaysIn engine.root A (do
      recordAfter engine id k
      recordAfter engine id k' : Prog Exn World Unit) :=
    DiskKeeps.bind (DiskKeeps.recordAfter _ _ _) fun _ => DiskKeeps.recordAfter _ _ _
  exact (c₃.trans (hmove h₄)).trans (hrecord.of_run hrun) hroot

theorem relocate_staysIn {op : OperationKind} {k k' : Text}
    (hs : ∀ t, validateMutationPath engine.root k = .ok t → A (.drop t))
    (hd : ∀ t, validateMutationPath engine.root k' = .ok t → A (.put t)) :
    StaysIn engine.root A (relocate engine id op k k') := by
  refine DiskKeeps.withTargets fun ⟨src, dst⟩ hv => ?_
  obtain ⟨hvs, hvd⟩ := relocate_targets hv
  obtain ⟨hclean, _, hsrc⟩ := cleanKey_of_mutation hvs
  obtain ⟨hclean', _, hdst⟩ := cleanKey_of_mutation hvd
  have hsr : engine.root <+: src := hsrc ▸ List.prefix_append ..
  have hdr : engine.root <+: dst := hdst ▸ List.prefix_append ..
  refine DiskKeeps.bind (DiskKeeps.gets _) fun missing => ?_
  split
  · exact DiskKeeps.pure _
  refine DiskKeeps.branch (fun w _ => Confined.refl _) fun w hfree => ?_
  generalize hrun : (do
    relocateTo engine id k k' src dst
    pure ({ ok := true, op, path := k, destPath := k' } : MutationOutcome)) w = outcome
  obtain ⟨r, w'⟩ := outcome
  rcases Prog.bind_cases hrun with ⟨e, hr, _⟩ | ⟨_, w₁, hr, hrun⟩
  · exact relocateTo_confined hown hclean hclean' hsr hdr (hs src hvs) (hd dst hvd) hfree hr
  · cases hrun
    exact relocateTo_confined hown hclean hclean' hsr hdr (hs src hvs) (hd dst hvd) hfree hr

/-- **Step lemma**: an operation puts and drops its keys only. -/
theorem runFileOperation_staysIn {op : Operation}
    (hputs : ∀ k ∈ op.puts, ∀ t, validateMutationPath engine.root k = .ok t → A (.put t))
    (hdrops : ∀ k ∈ op.drops, ∀ t, validateMutationPath engine.root k = .ok t → A (.drop t)) :
    StaysIn engine.root A (runFileOperation engine id op) := by
  unfold runFileOperation
  unfold Operation.puts at hputs
  unfold Operation.drops at hdrops
  cases hop : op.op with
  | createFile =>
    rw [hop] at hputs
    exact createFile_staysIn hown (hputs _ (by simp))
  | editFile =>
    rw [hop] at hputs
    exact editFile_staysIn hown (hputs _ (by simp))
  | applyPatch => exact DiskKeeps.raise _
  | renameFile =>
    rw [hop] at hputs hdrops
    exact relocate_staysIn hown (hdrops _ (by simp)) (hputs _ (by simp))
  | moveFile =>
    rw [hop] at hputs hdrops
    exact relocate_staysIn hown (hdrops _ (by simp)) (hputs _ (by simp))
  | deleteFile =>
    rw [hop] at hdrops
    exact deleteFile_staysIn hown (hdrops _ (by simp))
  | createDirectory => exact createDirectory_staysIn hown

/-! ## The file patches -/

theorem createPatchedTx_staysIn {patch : FilePatch} {t : Path} (hclean : CleanKey patch.newPath)
    (hA : A (.put t)) : StaysIn engine.root A (createPatchedTx engine id patch t) :=
  DiskKeeps.bind (DiskKeeps.ensure _ _) fun _ =>
    DiskKeeps.bind (snapshot_staysIn hown hclean) fun _ =>
    DiskKeeps.bind (DiskKeeps.ofExcept _) fun _ =>
    DiskKeeps.bind (DiskKeeps.disk (mkdirP_confined _)) fun _ =>
    DiskKeeps.bind (DiskKeeps.disk (writeText_confined hA)) fun _ => DiskKeeps.recordAfter _ _ _

theorem patchedLinesTx_staysIn {patch : FilePatch} {t : Path} (hclean : CleanKey patch.oldPath) :
    StaysIn engine.root A (patchedLinesTx engine id patch t) := by
  have hread : Prog.Keeps (Confined engine.root A) (readText t) :=
    Prog.Keeps.read (fun d => Confined.refl d) _
  exact DiskKeeps.bind (DiskKeeps.ensure _ _) fun _ =>
    DiskKeeps.bind (snapshot_staysIn hown hclean) fun _ =>
    DiskKeeps.bind (DiskKeeps.disk hread) fun _ => DiskKeeps.ofExcept _

theorem writePatchedTx_staysIn {patch : FilePatch} {old new : Path} {lines : List Text}
    (hclean : CleanKey patch.newPath) (hput : A (.put new)) (hdrop : old ≠ new → A (.drop old)) :
    StaysIn engine.root A (writePatchedTx engine id patch old new lines) := by
  unfold writePatchedTx
  split
  · exact DiskKeeps.bind (DiskKeeps.disk (writeText_confined hput)) fun _ =>
      DiskKeeps.recordAfter _ _ _
  next hne =>
    exact DiskKeeps.bind (snapshot_staysIn hown hclean) fun _ =>
      DiskKeeps.bind (DiskKeeps.disk (mkdirP_confined _)) fun _ =>
      DiskKeeps.bind (DiskKeeps.disk (unlink_confined (hdrop hne))) fun _ =>
      DiskKeeps.bind (DiskKeeps.disk (writeText_confined hput)) fun _ =>
      DiskKeeps.bind (DiskKeeps.recordAfter _ _ _) fun _ => DiskKeeps.recordAfter _ _ _

/-- **Step lemma**: a file patch does its effects only. -/
theorem applyFilePatchTx_staysIn {patch : FilePatch}
    (hpaths : IsHeaderPath engine.root patch.oldPath ∧ IsHeaderPath engine.root patch.newPath)
    (hA : ∀ e ∈ patch.effects engine.root, A e) :
    StaysIn engine.root A (applyFilePatchTx engine id patch) := by
  unfold applyFilePatchTx
  refine DiskKeeps.ofExcept_bind fun old hold => DiskKeeps.ofExcept_bind fun new hnew => ?_
  rcases patchTarget_cases hpaths.1 hold with ⟨ho, rfl⟩ | ⟨ho, rfl, hclean, _⟩
  · rcases patchTarget_cases hpaths.2 hnew with ⟨hn, rfl⟩ | ⟨hn, rfl, hclean', _⟩
    · exact DiskKeeps.raise _
    · rw [effects_create ho hn, locate_clean hclean'] at hA
      exact DiskKeeps.bind (createPatchedTx_staysIn hown hclean' (hA _ (by simp))) fun _ =>
        DiskKeeps.pure _
  rcases patchTarget_cases hpaths.2 hnew with ⟨hn, rfl⟩ | ⟨hn, rfl, hclean', _⟩
  · rw [effects_delete ho hn, locate_clean hclean] at hA
    exact DiskKeeps.bind (patchedLinesTx_staysIn hown hclean) fun _ =>
      DiskKeeps.bind (DiskKeeps.disk (unlink_confined (hA _ (by simp)))) fun _ =>
      DiskKeeps.bind (DiskKeeps.recordAfter _ _ _) fun _ => DiskKeeps.pure _
  · rw [effects_edit ho hn, locate_clean hclean, locate_clean hclean'] at hA
    have hdrop : engine.root ++ parts patch.oldPath ≠ engine.root ++ parts patch.newPath →
        A (.drop (engine.root ++ parts patch.oldPath)) := by
      intro hne
      rw [if_neg hne] at hA
      exact hA _ (by simp)
    exact DiskKeeps.bind (patchedLinesTx_staysIn hown hclean) fun _ =>
      DiskKeeps.bind (writePatchedTx_staysIn hown hclean' (hA _ (by simp)) hdrop) fun _ =>
      DiskKeeps.pure _

/-! ## Runs -/

/-- **Run lemma** of the diff. -/
theorem applyFilePatchesTx_staysIn : ∀ {patches : List FilePatch},
    (∀ patch ∈ patches,
      IsHeaderPath engine.root patch.oldPath ∧ IsHeaderPath engine.root patch.newPath) →
    (∀ patch ∈ patches, ∀ e ∈ patch.effects engine.root, A e) →
    StaysIn engine.root A (applyFilePatchesTx engine id patches)
  | [], _, _ => DiskKeeps.pure _
  | patch :: patches, hpaths, hA => by
    have hrest : StaysIn engine.root A (applyFilePatchesTx engine id patches) :=
      applyFilePatchesTx_staysIn (fun q hq => hpaths q (List.mem_cons_of_mem _ hq))
        (fun q hq => hA q (List.mem_cons_of_mem _ hq))
    exact DiskKeeps.bind (applyFilePatchTx_staysIn hown (hpaths patch (List.mem_cons_self ..))
        (hA patch (List.mem_cons_self ..))) fun _ =>
      DiskKeeps.bind hrest fun _ => DiskKeeps.pure _

/-- **Run lemma** of the operations. -/
theorem runOperations_staysIn {diffPaths : List Text} : ∀ {ops : List Operation},
    (∀ op ∈ ops, ∀ k ∈ op.puts, ∀ t, validateMutationPath engine.root k = .ok t → A (.put t)) →
    (∀ op ∈ ops, ∀ k ∈ op.drops, ∀ t, validateMutationPath engine.root k = .ok t → A (.drop t)) →
    StaysIn engine.root A (runOperations engine id diffPaths ops)
  | [], _, _ => DiskKeeps.pure _
  | op :: ops, hputs, hdrops => by
    have hmem := List.mem_cons_self (a := op) (l := ops)
    have hrest : StaysIn engine.root A (runOperations engine id diffPaths ops) :=
      runOperations_staysIn
      (fun q hq => hputs q (List.mem_cons_of_mem _ hq))
      (fun q hq => hdrops q (List.mem_cons_of_mem _ hq))
    unfold runOperations
    split
    · exact hrest
    · refine DiskKeeps.bind (runFileOperation_staysIn hown (hputs op hmem) (hdrops op hmem))
        fun outcome => ?_
      split
      · exact DiskKeeps.bind hrest fun _ => DiskKeeps.pure _
      · exact DiskKeeps.raise _

end Steps

/-! ## What a completed file patch has done -/

/-- Between the two disks the effect `e` happened. -/
def Happened (e : Effect Text) (d d' : FS) : Prop := ∃ l, d'.log = d.log ++ l ∧ e ∈ l

/-- Any effect is allowed. -/
abbrev Anything : Effect Text → Prop := fun _ => True

theorem Happened.before {e : Effect Text} {a b c : FS} (h : Disk.Footprint Anything a b)
    (he : Happened e b c) : Happened e a c := by
  obtain ⟨l₁, e₁, _⟩ := h
  obtain ⟨l₂, e₂, hm⟩ := he
  exact ⟨l₁ ++ l₂, by rw [e₂, e₁, List.append_assoc], List.mem_append_right _ hm⟩

theorem Happened.after {e : Effect Text} {a b c : FS} (he : Happened e a b)
    (h : Disk.Footprint Anything b c) : Happened e a c := by
  obtain ⟨l₁, e₁, hm⟩ := he
  obtain ⟨l₂, e₂, _⟩ := h
  exact ⟨l₁ ++ l₂, by rw [e₂, e₁, List.append_assoc], List.mem_append_left _ hm⟩

/-- When `x` returns, the effect `e` happened. -/
def Emits {α : Type} (root : Path) (e : Effect Text) (x : Prog Exn World α) : Prop :=
  ∀ w w' a, w.disk.isDir root = true → x w = (.ok a, w') → Happened e w.disk w'.disk

section Emits

variable {α β : Type} {root : Path} {e : Effect Text}

theorem Emits.first {x : Prog Exn World α} {f : α → Prog Exn World β} (hx : Emits root e x)
    (hs : StaysIn root Anything x) (hf : ∀ a, StaysIn root Anything (f a)) :
    Emits root e (x >>= f) := by
  intro w w' b hroot hrun
  obtain ⟨a, w₁, h₁, hrun⟩ := Prog.bind_ok.mp hrun
  obtain ⟨hroot₁, _⟩ := hs.of_run h₁ hroot
  exact (hx w w₁ a hroot h₁).after ((hf a).of_run hrun hroot₁).2

theorem Emits.next {x : Prog Exn World α} {f : α → Prog Exn World β}
    (hs : StaysIn root Anything x) (hf : ∀ a, Emits root e (f a)) : Emits root e (x >>= f) := by
  intro w w' b hroot hrun
  obtain ⟨a, w₁, h₁, hrun⟩ := Prog.bind_ok.mp hrun
  obtain ⟨hroot₁, f₁⟩ := hs.of_run h₁ hroot
  exact (hf a w₁ w' b hroot₁ hrun).before f₁

theorem Emits.ofExcept_bind {r : Except Exn α} {f : α → Prog Exn World β}
    (h : ∀ a, r = .ok a → Emits root e (f a)) : Emits root e (Prog.ofExcept r >>= f) := by
  intro w w' b hroot hrun
  rcases Prog.ofExcept_bind hrun with ⟨e', _, he', _⟩ | ⟨a, ha, hrun⟩
  · cases he'
  · exact h a ha w w' b hroot hrun

theorem unlink_emits {p : Path} : Emits root (.drop p) (onDisk (unlink p)) := by
  intro w w' a _ hrun
  obtain ⟨d, hd, rfl⟩ := onDisk_cases hrun
  rcases unlink_cases p w.disk with ⟨hf, hok⟩ | ⟨_, e, herr⟩
  · rw [hok] at hd; cases hd
    exact ⟨[.drop p], Disk.log_drop _ _ hf, List.mem_singleton_self _⟩
  · rw [herr] at hd; cases hd

theorem writeText_emits {p : Path} {t : Text} : Emits root (.put p) (onDisk (writeText p t)) := by
  intro w w' a _ hrun
  obtain ⟨d, hd, rfl⟩ := onDisk_cases hrun
  unfold writeText at hd
  rcases writeBytes_cases p (encodeUtf8 t) w.disk with ⟨hp, hok⟩ | ⟨_, e, herr⟩
  · rw [hok] at hd; cases hd
    exact ⟨[.put p], Disk.log_put _ _ _ hp, List.mem_singleton_self _⟩
  · rw [herr] at hd; cases hd

end Emits

section Completed

variable {engine : Engine} {id : Text}

theorem ownAnything {root : Path} : ∀ p, IsOwnPath root p → Anything (.put p) :=
  fun _ _ => trivial

theorem createPatchedTx_emits {patch : FilePatch} {t : Path} (hclean : CleanKey patch.newPath) :
    Emits engine.root (.put t) (createPatchedTx engine id patch t) :=
  Emits.next (DiskKeeps.ensure _ _) fun _ =>
    Emits.next (snapshot_staysIn ownAnything hclean) fun _ =>
    Emits.next (DiskKeeps.ofExcept _) fun _ =>
    Emits.next (DiskKeeps.disk (mkdirP_confined _)) fun _ =>
    Emits.first writeText_emits (DiskKeeps.disk (writeText_confined trivial)) fun _ =>
      DiskKeeps.recordAfter _ _ _

theorem writePatchedTx_emits_put {patch : FilePatch} {old new : Path} {lines : List Text}
    (hclean : CleanKey patch.newPath) :
    Emits engine.root (.put new) (writePatchedTx engine id patch old new lines) := by
  have hwrite : StaysIn engine.root Anything (onDisk (writeLines new lines)) :=
    DiskKeeps.disk (writeText_confined trivial)
  unfold writePatchedTx
  split
  · exact Emits.first writeText_emits hwrite fun _ => DiskKeeps.recordAfter _ _ _
  · exact Emits.next (snapshot_staysIn ownAnything hclean) fun _ =>
      Emits.next (DiskKeeps.disk (mkdirP_confined _)) fun _ =>
      Emits.next (DiskKeeps.disk (unlink_confined trivial)) fun _ =>
      Emits.first writeText_emits hwrite fun _ =>
        DiskKeeps.bind (DiskKeeps.recordAfter _ _ _) fun _ => DiskKeeps.recordAfter _ _ _

theorem writePatchedTx_emits_drop {patch : FilePatch} {old new : Path} {lines : List Text}
    (hclean : CleanKey patch.newPath) (hne : old ≠ new) :
    Emits engine.root (.drop old) (writePatchedTx engine id patch old new lines) := by
  have hwrite : StaysIn engine.root Anything (onDisk (writeLines new lines)) :=
    DiskKeeps.disk (writeText_confined trivial)
  unfold writePatchedTx
  rw [if_neg hne]
  exact Emits.next (snapshot_staysIn ownAnything hclean) fun _ =>
    Emits.next (DiskKeeps.disk (mkdirP_confined _)) fun _ =>
    Emits.first unlink_emits (DiskKeeps.disk (unlink_confined trivial)) fun _ =>
      DiskKeeps.bind hwrite fun _ =>
      DiskKeeps.bind (DiskKeeps.recordAfter _ _ _) fun _ => DiskKeeps.recordAfter _ _ _

/-- **Step lemma**: a file patch that returns has done all its effects. -/
theorem applyFilePatchTx_emits {patch : FilePatch}
    (hpaths : IsHeaderPath engine.root patch.oldPath ∧ IsHeaderPath engine.root patch.newPath)
    {e : Effect Text} (he : e ∈ patch.effects engine.root) :
    Emits engine.root e (applyFilePatchTx engine id patch) := by
  unfold applyFilePatchTx
  refine Emits.ofExcept_bind fun old hold => Emits.ofExcept_bind fun new hnew => ?_
  rcases patchTarget_cases hpaths.1 hold with ⟨ho, rfl⟩ | ⟨ho, rfl, hclean, _⟩
  · rcases patchTarget_cases hpaths.2 hnew with ⟨hn, rfl⟩ | ⟨hn, rfl, hclean', _⟩
    · intro _ _ _ _ hrun; cases hrun
    · rw [effects_create ho hn, locate_clean hclean', List.mem_singleton] at he
      subst he
      exact Emits.first (createPatchedTx_emits hclean')
        (createPatchedTx_staysIn ownAnything hclean' trivial) fun _ => DiskKeeps.pure _
  have hlines : ∀ t, StaysIn engine.root Anything (patchedLinesTx engine id patch t) := fun _ =>
    patchedLinesTx_staysIn ownAnything hclean
  rcases patchTarget_cases hpaths.2 hnew with ⟨hn, rfl⟩ | ⟨hn, rfl, hclean', _⟩
  · rw [effects_delete ho hn, locate_clean hclean, List.mem_singleton] at he
    subst he
    exact Emits.next (hlines _) fun _ =>
      Emits.first unlink_emits (DiskKeeps.disk (unlink_confined trivial)) fun _ =>
        DiskKeeps.bind (DiskKeeps.recordAfter _ _ _) fun _ => DiskKeeps.pure _
  · have hwrite : ∀ lines, StaysIn engine.root Anything (writePatchedTx engine id patch
        (engine.root ++ parts patch.oldPath) (engine.root ++ parts patch.newPath) lines) :=
      fun _ => writePatchedTx_staysIn ownAnything hclean' trivial fun _ => trivial
    rw [effects_edit ho hn, locate_clean hclean, locate_clean hclean'] at he
    refine Emits.next (hlines _) fun lines => Emits.first ?_ (hwrite lines) fun _ =>
      DiskKeeps.pure _
    rcases List.mem_cons.mp he with rfl | he
    · exact writePatchedTx_emits_put hclean'
    · split at he
      · simp at he
      next hne =>
        rw [List.mem_singleton] at he
        subst he
        exact writePatchedTx_emits_drop hclean' hne

/-- **Run lemma**: a diff that is applied to its end has done every effect. -/
theorem applyFilePatchesTx_emits {e : Effect Text} : ∀ {patches : List FilePatch},
    (∀ patch ∈ patches,
      IsHeaderPath engine.root patch.oldPath ∧ IsHeaderPath engine.root patch.newPath) →
    (∃ patch ∈ patches, e ∈ patch.effects engine.root) →
    Emits engine.root e (applyFilePatchesTx engine id patches)
  | [], _, he => by simp at he
  | patch :: patches, hpaths, he => by
    have hstep : StaysIn engine.root Anything (applyFilePatchTx engine id patch) :=
      applyFilePatchTx_staysIn ownAnything (hpaths patch (List.mem_cons_self ..)) fun _ _ => trivial
    have hpaths' : ∀ patch ∈ patches, _ := fun q hq => hpaths q (List.mem_cons_of_mem _ hq)
    have hrest : StaysIn engine.root Anything (applyFilePatchesTx engine id patches) :=
      applyFilePatchesTx_staysIn ownAnything hpaths' fun _ _ _ _ => trivial
    obtain ⟨q, hq, he⟩ := he
    rcases List.mem_cons.mp hq with rfl | hq
    · exact Emits.first (applyFilePatchTx_emits (hpaths q (List.mem_cons_self ..)) he) hstep
        fun _ => DiskKeeps.bind hrest fun _ => DiskKeeps.pure _
    · exact Emits.next hstep fun _ =>
        Emits.first (applyFilePatchesTx_emits hpaths' ⟨q, hq, he⟩) hrest fun _ => DiskKeeps.pure _

end Completed

end Shamsu.Patch
