import Shamsu.Patch.ChangeRequest
import Shamsu.Patch.Tracked

/-!
# What the mutations keep

Every mutation of a running transaction snapshots the paths it is about to
change, changes them, and notes what it left. Here each of them, and each file
patch of a diff, is shown to keep the manifest a faithful record (`Running`),
however it ends, on three conditions on the state before it:

- a new key leads to a path no other key leads to (`KeySafe`);
- what is deleted or moved is not a directory;
- no directory is made where a recorded file is missing (`Roomy`).

The source checks none of them. The run lemmas at the end carry the record
through the diff and the operations of a request.
-/

namespace Shamsu.Patch

open Shamsu.Lib Shamsu.Py Shamsu.Safety

/-- No directory made on the way to `p` takes the place of a file that is
recorded and missing. -/
def Roomy (root : Path) (m : Manifest) (d : FS) (p : Path) : Prop :=
  ∀ k ∈ m.touchedFiles, (m.beforeHashes.lookup k).join.isSome = true →
    root ++ parts k <+: p → d.present (root ++ parts k) = true

/-- The conditions on an operation, in the state before it. -/
def OperationSafe (root : Path) (m : Manifest) (d : FS) (op : Operation) : Prop :=
  match op.op with
  | .createFile => KeySafe root m op.path ∧ Roomy root m d (Path.parent (root ++ parts op.path))
  | .editFile => KeySafe root m op.path
  | .createDirectory => KeySafe root m op.path ∧ Roomy root m d (root ++ parts op.path)
  | .deleteFile => KeySafe root m op.path ∧ d.isDir (root ++ parts op.path) = false
  | .renameFile | .moveFile =>
    KeySafe root m op.path ∧ KeySafe root m op.destPath ∧
      d.isDir (root ++ parts op.path) = false ∧
      Roomy root m d (Path.parent (root ++ parts op.destPath))
  | .applyPatch => True

/-- The conditions on a file patch, in the state before it. -/
def FilePatchSafe (root : Path) (m : Manifest) (d : FS) (patch : FilePatch) : Prop :=
  (patch.oldPath ≠ devNull → KeySafe root m patch.oldPath) ∧
  (patch.newPath ≠ devNull → patch.oldPath = devNull ∨
      parts patch.oldPath ≠ parts patch.newPath →
    KeySafe root m patch.newPath ∧ Roomy root m d (Path.parent (root ++ parts patch.newPath)))

section Steps

variable {engine : Engine} {id : Text} {d₀ : FS} {w w' : World} {m : Manifest}

/-! ## File operations -/

/-- The files to come back that lie on the way to `p` are there. -/
def Solid (d₀ : FS) (root : Path) (m : Manifest) (d : FS) (p : Path) : Prop :=
  ∀ k ∈ m.touchedFiles, (d₀.content (root ++ parts k)).isSome = true →
    root ++ parts k <+: p → d.present (root ++ parts k) = true

theorem Roomy.solid {root : Path} {d : FS} {p : Path} (h : Roomy root m d p)
    (ht : Tracked root id d₀ m d) : Solid d₀ root m d p := by
  intro k hk hsome hp
  obtain ⟨a, hl, he⟩ := ht.entry hk
  refine h k hk ?_ hp
  rw [hl]
  show a.isSome = true
  rw [he.hash, hsome]

/-- On the way to one of the program's own paths there is no file to come back. -/
theorem Tracked.solid_own {root : Path} {d : FS} {p : Path} (h : Tracked root id d₀ m d)
    (hp : root ++ [dotShamsu] <+: p) : Solid d₀ root m d p := by
  intro k hk _ hkp
  obtain ⟨a, _, he⟩ := h.entry hk
  exact Disk.present_of_isDir (h.isDir_above_own he.user hkp hp)

/-- A new key leads to a file that is there. -/
theorem Solid.snapped {k : Text} {p : Path} {m' : Manifest} (h : Solid d₀ engine.root m w.disk p)
    (hr : Running engine id d₀ w m) (hsafe : KeySafe engine.root m k)
    (hs : Snapped engine id d₀ k w w' m m') : Solid d₀ engine.root m' w'.disk p := by
  intro k' hk' hsome hp
  obtain ⟨a, _, he⟩ := hs.running.tracked.entry hk'
  unfold Disk.present
  rw [hs.user _ he.user]
  by_cases hold : k' ∈ m.touchedFiles
  · exact h k' hold hsome hp
  · obtain rfl := (hs.only k' hk').resolve_left hold
    have hsame := hr.tracked.untouched _ he.user fun ⟨k₁, hk₁, hl⟩ =>
      hold ((hsafe _ he.leads).2 k₁ hk₁ hl ▸ hk₁)
    exact Disk.present_of_isFile (by unfold Disk.isFile; rw [hsame]; exact hsome)

/-- A new directory is on the way, and no file was there. -/
theorem isDir_of_mkdirP {p q : Path} {r : Except Exn Unit}
    (hrun : onDisk (Py.mkdirP p) w = (r, w')) (hq : w'.disk.isDir q = true) :
    w.disk.isDir q = true ∨ (q <+: p ∧ w.disk.isFile q = false) := by
  obtain ⟨d, hd, rfl⟩ := onDisk_cases hrun
  rcases mkdirP_cases p w.disk with ⟨hc, hok⟩ | ⟨_, e, herr⟩
  · rw [hok] at hd; cases hd
    by_cases hp : q <+: p
    · exact Or.inr ⟨hp, Disk.isClear_iff.mp hc q hp⟩
    · refine Or.inl ?_
      rw [← hq]
      refine (Disk.isDir_congr ?_).symm
      show (w.disk.mkdirs p hc).get q = _
      rw [Disk.get_mkdirs, if_neg hp]
  · rw [herr] at hd; cases hd; exact Or.inl hq

namespace Running

theorem withDisk (h : Running engine id d₀ w m) {d : FS} (ht : Tracked engine.root id d₀ m d) :
    Running engine id d₀ { w with disk := d } m := ⟨h.found, h.pending, ht⟩

theorem writeText {t : Path} {text : Text} {r : Except Exn Unit} (h : Running engine id d₀ w m)
    (hu : IsUserPath engine.root t) (ht : IsTouched engine.root m.touchedFiles t)
    (hrun : onDisk (Py.writeText t text) w = (r, w')) : Running engine id d₀ w' m := by
  obtain ⟨d, hd, rfl⟩ := onDisk_cases hrun
  unfold Py.writeText at hd
  rcases writeBytes_cases t (encodeUtf8 text) w.disk with ⟨hp, hok⟩ | ⟨_, e, herr⟩
  · rw [hok] at hd; cases hd
    exact h.withDisk (h.tracked.put hu ht hp)
  · rw [herr] at hd; cases hd; exact h

theorem unlink {t : Path} {r : Except Exn Unit} (h : Running engine id d₀ w m)
    (hu : IsUserPath engine.root t) (ht : IsTouched engine.root m.touchedFiles t)
    (hrun : onDisk (Py.unlink t) w = (r, w')) : Running engine id d₀ w' m := by
  obtain ⟨d, hd, rfl⟩ := onDisk_cases hrun
  rcases unlink_cases t w.disk with ⟨hf, hok⟩ | ⟨_, e, herr⟩
  · rw [hok] at hd; cases hd
    exact h.withDisk (h.tracked.drop hu ht hf)
  · rw [herr] at hd; cases hd; exact h

/-- Making directories: paths that are not on the way stay as they are. -/
theorem mkdirP {p : Path} {r : Except Exn Unit} (h : Running engine id d₀ w m)
    (harea : ∀ s, ¬ backupsDir engine.root id ++ s <+: p)
    (hsolid : Solid d₀ engine.root m w.disk p)
    (hrun : onDisk (Py.mkdirP p) w = (r, w')) :
    Running engine id d₀ w' m ∧ ∀ q, ¬ q <+: p → w'.disk.get q = w.disk.get q := by
  obtain ⟨d, hd, rfl⟩ := onDisk_cases hrun
  rcases mkdirP_cases p w.disk with ⟨hc, hok⟩ | ⟨_, e, herr⟩
  · rw [hok] at hd; cases hd
    exact ⟨h.withDisk (h.tracked.mkdirs hc harea hsolid), fun q hq => by
      show (w.disk.mkdirs p hc).get q = _
      rw [Disk.get_mkdirs, if_neg hq]⟩
  · rw [herr] at hd; cases hd; exact ⟨h, fun _ _ => rfl⟩

/-- The parents of a user path are not in the area. -/
theorem not_area_above {root t : Path} (hu : IsUserPath root t) (id : Text) {p : Path}
    (hp : p <+: t) (s : Path) : ¬ backupsDir root id ++ s <+: p := by
  intro h
  refine hu.2 (List.IsPrefix.trans ?_ (h.trans hp))
  simp [backupsDir, transactionDir]

/-- A touched file moved to where nothing of the record is in the way. -/
theorem graft {src dst : Path} (h : Running engine id d₀ w m)
    (hg : w.disk.canGraft src dst = true) (hsd : w.disk.isDir src = false)
    (hdd : w.disk.isDir dst = false) (hu : IsUserPath engine.root src)
    (ht : IsTouched engine.root m.touchedFiles src)
    (hd : IsUserPath engine.root dst → IsTouched engine.root m.touchedFiles dst)
    (harea : ∀ s, backupsDir engine.root id ++ s ≠ dst) :
    Running engine id d₀ { w with disk := w.disk.graft src dst hg } m :=
  h.withDisk (h.tracked.graftFile hg hsd hdd ⟨hu, ht⟩ hd harea)

/-- A touched file moved to another touched path. -/
theorem move {src dst : Path} {r : Except Exn Unit} (h : Running engine id d₀ w m)
    (hsd : w.disk.isDir src = false) (hu : IsUserPath engine.root src)
    (ht : IsTouched engine.root m.touchedFiles src)
    (htd : IsTouched engine.root m.touchedFiles dst) (hdd : w.disk.isDir dst = false)
    (harea : ∀ s, backupsDir engine.root id ++ s ≠ dst)
    (hrun : onDisk (Py.move src dst) w = (r, w')) : Running engine id d₀ w' m := by
  obtain ⟨d, hm, rfl⟩ := onDisk_cases hrun
  have htarget : moveTarget w.disk src dst = dst := by
    unfold moveTarget; rw [if_neg (by rw [hdd]; simp)]
  rcases move_cases src dst w.disk with ⟨_, hok⟩ | ⟨hg, _, _, hok⟩ | ⟨e, herr⟩
  · rw [hok] at hm; cases hm; exact h
  · simp only [htarget] at hg hok
    rw [hok] at hm; cases hm
    exact h.graft hg hsd hdd hu ht (fun _ => htd) harea
  · rw [herr] at hm; cases hm; exact h

/-- A touched file moved to, or into, a path of the program's own. -/
theorem moveOut {src dst : Path} {r : Except Exn Unit} (h : Running engine id d₀ w m)
    (hsd : w.disk.isDir src = false) (hu : IsUserPath engine.root src)
    (ht : IsTouched engine.root m.touchedFiles src)
    (hown : ∀ s, ¬ IsUserPath engine.root (dst ++ s))
    (harea : ∀ s s', backupsDir engine.root id ++ s ≠ dst ++ s')
    (hrun : onDisk (Py.move src dst) w = (r, w')) : Running engine id d₀ w' m := by
  obtain ⟨d, hm, rfl⟩ := onDisk_cases hrun
  rcases move_cases src dst w.disk with ⟨_, hok⟩ | ⟨hg, _, hnew, hok⟩ | ⟨e, herr⟩
  · rw [hok] at hm; cases hm; exact h
  · rw [hok] at hm; cases hm
    have hdd : w.disk.isDir (moveTarget w.disk src dst) = false := by
      cases hdst : w.disk.isDir dst with
      | true => exact Disk.isDir_eq_false.mpr (by rw [Disk.present_eq_false.mp (hnew hdst)]; simp)
      | false => unfold moveTarget; rw [if_neg (by rw [hdst]; simp)]; exact hdst
    obtain ⟨s, hs⟩ := moveTarget_eq w.disk src dst
    exact h.graft hg hsd hdd hu ht (fun huser => absurd (hs ▸ huser) (hown s))
      (fun s₁ => hs ▸ harea s₁ s)
  · rw [herr] at hm; cases hm; exact h

/-- Noting what was left changes no key. -/
theorem recordAfter {k : Text} {r : Except Exn Unit} (h : Running engine id d₀ w m)
    (hk : k ∈ m.touchedFiles) (hrun : Patch.recordAfter engine id k w = (r, w')) :
    ∃ m', Running engine id d₀ w' m' ∧ m'.touchedFiles = m.touchedFiles := by
  have hid : m.transactionId = id := transactionId_of_findManifest h.found
  have hnote : noteFile m.touchedFiles k = m.touchedFiles := if_pos hk
  unfold Patch.recordAfter at hrun
  rw [Prog.bind_of_ok (loadManifest_eq h.found), Prog.bind_of_ok (Prog.gets_apply _ w)] at hrun
  obtain ⟨_, rfl⟩ := Prod.mk.inj hrun
  exact ⟨_, ⟨findManifest_write h.found hid, h.pending,
    h.tracked.of_record hnote rfl rfl⟩, hnote⟩

end Running

/-! ## The operations -/

/-- A path check that fails changes nothing. -/
theorem withTargets_cases {α : Type} {targets : Except Exn α} {refusal : String → MutationOutcome}
    {body : α → Prog Exn World MutationOutcome} {r : Except Exn MutationOutcome}
    (hrun : withTargets targets refusal body w = (r, w')) :
    w' = w ∨ ∃ a, targets = .ok a ∧ body a w = (r, w') := by
  unfold withTargets at hrun
  cases targets with
  | ok a => exact Or.inr ⟨a, rfl, hrun⟩
  | error e =>
    simp only at hrun
    split at hrun <;> (cases hrun; exact Or.inl rfl)

/-- The key of a mutation path. -/
theorem cleanKey_of_mutation {root : Path} {k : Text} {t : Path}
    (h : validateMutationPath root k = .ok t) :
    CleanKey k ∧ validate root k = .ok (root ++ parts k) ∧ t = root ++ parts k := by
  obtain ⟨hv, ht, _⟩ := validateMutationPath_ok h
  subst ht
  refine ⟨?_, hv, rfl⟩
  unfold validateMutationPath at h
  cases hu : rejectUnsafeRelativePath k with
  | error e => rw [hu] at h; simp [bind, Except.bind] at h
  | ok u => exact rejectUnsafeRelativePath_ok hu

/-- The last step of a mutation: note what was left, and return. -/
theorem Running.noted {α : Type} {k : Text} {a : α} {r : Except Exn α}
    (h : Running engine id d₀ w m) (hk : k ∈ m.touchedFiles)
    (hrun : (do Patch.recordAfter engine id k; pure a : Prog Exn World α) w = (r, w')) :
    ∃ m', Running engine id d₀ w' m' := by
  rcases Prog.bind_cases hrun with ⟨e, hn, rfl⟩ | ⟨_, w₁, hn, hrun⟩
  · obtain ⟨m₁, h₁, _⟩ := h.recordAfter hk hn
    exact ⟨m₁, h₁⟩
  · obtain ⟨m₁, h₁, _⟩ := h.recordAfter hk hn
    cases hrun
    exact ⟨m₁, h₁⟩

/-- After a snapshot the key is in the record. -/
theorem snapshot_then {α : Type} {k : Text} {go : Unit → Prog Exn World α} {r : Except Exn α}
    (h : Running engine id d₀ w m) (hclean : CleanKey k) (hkey : KeySafe engine.root m k)
    (hrun : (snapshot engine id k >>= go) w = (r, w')) :
    (∃ m', Running engine id d₀ w' m') ∨ ∃ w₁ m₁, Snapped engine id d₀ k w w₁ m m₁ ∧
      k ∈ m₁.touchedFiles ∧ go () w₁ = (r, w') := by
  rcases Prog.bind_cases hrun with ⟨e, hs, rfl⟩ | ⟨_, w₁, hs, hrun⟩
  · obtain ⟨m₁, hs₁, _⟩ := snapshot_running h hclean hkey hs
    exact Or.inl ⟨m₁, hs₁.running⟩
  · obtain ⟨m₁, hs₁, hk₁⟩ := snapshot_running h hclean hkey hs
    exact Or.inr ⟨w₁, m₁, hs₁, hk₁ rfl, hrun⟩

/-- The path of a user path's parent is not the path itself. -/
theorem not_prefix_parent {t : Path} (h : t ≠ []) : ¬ t <+: t.parent :=
  fun hp => Path.ne_of_prefix_parent h hp rfl

theorem editFile_running {k content : Text} {r : Except Exn MutationOutcome}
    (h : Running engine id d₀ w m) (hkey : KeySafe engine.root m k)
    (hrun : editFile engine id k content w = (r, w')) : ∃ m', Running engine id d₀ w' m' := by
  rcases withTargets_cases hrun with rfl | ⟨t, hv, hrun⟩
  · exact ⟨m, h⟩
  obtain ⟨hclean, hleads, rfl⟩ := cleanKey_of_mutation hv
  have hu := (hkey _ hleads).1
  rw [Prog.bind_of_ok (Prog.gets_apply _ w)] at hrun
  split at hrun
  swap
  · cases hrun; exact ⟨m, h⟩
  rcases snapshot_then h hclean hkey hrun with hdone | ⟨w₁, m₁, hs₁, hk₁, hrun⟩
  · exact hdone
  have ht : IsTouched engine.root m₁.touchedFiles (engine.root ++ parts k) := ⟨k, hk₁, hleads⟩
  rcases Prog.bind_cases hrun with ⟨e, hw, rfl⟩ | ⟨_, w₂, hw, hrun⟩
  · exact ⟨m₁, hs₁.running.writeText hu ht hw⟩
  · exact (hs₁.running.writeText hu ht hw).noted hk₁ hrun

/-- Making the parents of a user path `t`: the record stays, and so does `t`. -/
theorem Running.mkdirParent {t : Path} {r : Except Exn Unit} (h : Running engine id d₀ w m)
    (hu : IsUserPath engine.root t) (hsolid : Solid d₀ engine.root m w.disk t.parent)
    (hrun : onDisk (Py.mkdirP t.parent) w = (r, w')) : Running engine id d₀ w' m :=
  (h.mkdirP (Running.not_area_above hu id (List.dropLast_prefix t)) hsolid hrun).1

theorem createFile_running {k content : Text} {r : Except Exn MutationOutcome}
    (h : Running engine id d₀ w m) (hkey : KeySafe engine.root m k)
    (hroomy : Roomy engine.root m w.disk (Path.parent (engine.root ++ parts k)))
    (hrun : createFile engine id k content w = (r, w')) : ∃ m', Running engine id d₀ w' m' := by
  rcases withTargets_cases hrun with rfl | ⟨t, hv, hrun⟩
  · exact ⟨m, h⟩
  obtain ⟨hclean, hleads, rfl⟩ := cleanKey_of_mutation hv
  have hu := (hkey _ hleads).1
  rw [Prog.bind_of_ok (Prog.gets_apply _ w)] at hrun
  split at hrun
  · cases hrun; exact ⟨m, h⟩
  rcases snapshot_then h hclean hkey hrun with hdone | ⟨w₁, m₁, hs₁, hk₁, hrun⟩
  · exact hdone
  have ht : IsTouched engine.root m₁.touchedFiles (engine.root ++ parts k) := ⟨k, hk₁, hleads⟩
  have hsolid := (hroomy.solid h.tracked).snapped h hkey hs₁
  rcases Prog.bind_cases hrun with ⟨e, hm, rfl⟩ | ⟨_, w₂, hm, hrun⟩
  · exact ⟨m₁, hs₁.running.mkdirParent hu hsolid hm⟩
  have h₂ := hs₁.running.mkdirParent hu hsolid hm
  rcases Prog.bind_cases hrun with ⟨e, hw, rfl⟩ | ⟨_, w₃, hw, hrun⟩
  · exact ⟨m₁, h₂.writeText hu ht hw⟩
  · exact (h₂.writeText hu ht hw).noted hk₁ hrun

theorem createDirectory_running {k : Text} {r : Except Exn MutationOutcome}
    (h : Running engine id d₀ w m) (hkey : KeySafe engine.root m k)
    (hroomy : Roomy engine.root m w.disk (engine.root ++ parts k))
    (hrun : createDirectory engine id k w = (r, w')) : ∃ m', Running engine id d₀ w' m' := by
  rcases withTargets_cases hrun with rfl | ⟨t, hv, hrun⟩
  · exact ⟨m, h⟩
  obtain ⟨hclean, hleads, rfl⟩ := cleanKey_of_mutation hv
  have hu := (hkey _ hleads).1
  rcases snapshot_then h hclean hkey hrun with hdone | ⟨w₁, m₁, hs₁, hk₁, hrun⟩
  · exact hdone
  have hsolid := (hroomy.solid h.tracked).snapped h hkey hs₁
  have harea := Running.not_area_above hu id (List.prefix_refl _)
  rcases Prog.bind_cases hrun with ⟨e, hm, rfl⟩ | ⟨_, w₂, hm, hrun⟩
  · exact ⟨m₁, (hs₁.running.mkdirP harea hsolid hm).1⟩
  · exact (hs₁.running.mkdirP harea hsolid hm).1.noted hk₁ hrun

/-- The trash of a transaction is the program's own and not in the area. -/
theorem trashPath_clean (root : Path) (id : Text) {k : Text} (h : CleanKey k) :
    trashPath root id k = root ++ dotShamsu :: "trash".toList :: id :: parts k := by
  unfold trashPath
  rw [if_neg (by rw [h.1]; simp), resolveFrom_eq_append h.2]
  simp

theorem Running.moveToTrash {k : Text} {t : Path} {r : Except Exn Unit}
    (h : Running engine id d₀ w m) (hclean : CleanKey k) (hu : IsUserPath engine.root t)
    (ht : IsTouched engine.root m.touchedFiles t) (hfile : w.disk.isDir t = false)
    (hrun : Patch.moveToTrash engine id t k w = (r, w')) : Running engine id d₀ w' m := by
  unfold Patch.moveToTrash at hrun
  simp only [trashPath_clean engine.root id hclean] at hrun
  rw [if_pos (List.prefix_append ..)] at hrun
  -- no directory of the way is the user's or in the area
  have hparent : Path.parent (engine.root ++ dotShamsu :: "trash".toList :: id :: parts k) <+:
      engine.root ++ dotShamsu :: "trash".toList :: id :: parts k := List.dropLast_prefix _
  have hown : engine.root ++ [dotShamsu] <+:
      Path.parent (engine.root ++ dotShamsu :: "trash".toList :: id :: parts k) := by
    unfold Path.parent
    rw [List.dropLast_append_of_ne_nil (by simp), List.prefix_append_right_inj]
    cases hp : parts k with
    | nil => simp
    | cons n ns => simp
  have harea : ∀ s s', backupsDir engine.root id ++ s ≠
      (engine.root ++ dotShamsu :: "trash".toList :: id :: parts k) ++ s' := by
    intro s s' e
    simp only [backupsDir, transactionDir, List.append_assoc, List.append_cancel_left_eq,
      List.cons_append, List.cons.injEq] at e
    exact absurd e.2.1 (by decide)
  have harea' : ∀ s, ¬ backupsDir engine.root id ++ s <+:
      Path.parent (engine.root ++ dotShamsu :: "trash".toList :: id :: parts k) := by
    intro s hp
    obtain ⟨s', hs'⟩ := hp.trans hparent
    exact harea (s ++ s') [] (by rw [List.append_nil, ← hs', List.append_assoc])
  rcases Prog.bind_cases hrun with ⟨e, hm, rfl⟩ | ⟨_, w₁, hm, hrun⟩
  · exact (h.mkdirP harea' (h.tracked.solid_own hown) hm).1
  obtain ⟨h₁, hget⟩ := h.mkdirP harea' (h.tracked.solid_own hown) hm
  have hsd : w₁.disk.isDir t = false := by
    cases hd : w₁.disk.isDir t with
    | false => rfl
    | true =>
      by_cases hp : t <+: Path.parent (engine.root ++ dotShamsu :: "trash".toList :: id :: parts k)
      · rw [h.tracked.isDir_above_own hu hp hown] at hfile; simp at hfile
      · rw [Disk.isDir_congr (hget t hp), hfile] at hd; exact hd.symm
  refine h₁.moveOut hsd hu ht (fun s => ?_) harea hrun
  simpa using not_isUserPath_dotShamsu engine.root ("trash".toList :: id :: parts k ++ s)

theorem deleteFile_running {k : Text} {r : Except Exn MutationOutcome}
    (h : Running engine id d₀ w m) (hkey : KeySafe engine.root m k)
    (hfile : w.disk.isDir (engine.root ++ parts k) = false)
    (hrun : deleteFile engine id k w = (r, w')) : ∃ m', Running engine id d₀ w' m' := by
  rcases withTargets_cases hrun with rfl | ⟨t, hv, hrun⟩
  · exact ⟨m, h⟩
  obtain ⟨hclean, hleads, rfl⟩ := cleanKey_of_mutation hv
  have hu := (hkey _ hleads).1
  rw [Prog.bind_of_ok (Prog.gets_apply _ w)] at hrun
  split at hrun
  swap
  · cases hrun; exact ⟨m, h⟩
  rcases snapshot_then h hclean hkey hrun with hdone | ⟨w₁, m₁, hs₁, hk₁, hrun⟩
  · exact hdone
  have ht : IsTouched engine.root m₁.touchedFiles (engine.root ++ parts k) := ⟨k, hk₁, hleads⟩
  have hfile₁ : w₁.disk.isDir (engine.root ++ parts k) = false := by
    rw [← hfile]; exact Disk.isDir_congr (hs₁.user _ hu)
  rcases Prog.bind_cases hrun with ⟨e, hm, rfl⟩ | ⟨_, w₂, hm, hrun⟩
  · exact ⟨m₁, hs₁.running.moveToTrash hclean hu ht hfile₁ hm⟩
  · exact (hs₁.running.moveToTrash hclean hu ht hfile₁ hm).noted hk₁ hrun

/-- A second key is safe after the snapshot of the first, if they lead to
different paths. -/
theorem KeySafe.snapped {k k' : Text} {m' : Manifest} (h : KeySafe engine.root m k')
    (hs : Snapped engine id d₀ k w w' m m') (hk : validate engine.root k = .ok (engine.root ++ parts k))
    (hne : parts k ≠ parts k') (hclean : CleanKey k') : KeySafe engine.root m' k' := by
  intro t hv
  obtain ⟨hu, halias⟩ := h t hv
  refine ⟨hu, fun k₁ hk₁ hl => ?_⟩
  rcases hs.only k₁ hk₁ with hold | rfl
  · exact halias k₁ hold hl
  · have ht := validate_relative hv hclean.1 hclean.2
    rw [hk, ht] at hl
    exact absurd (List.append_cancel_left (Except.ok.inj hl)) hne

/-- Both paths of a relocation are checked. -/
theorem relocate_targets {root : Path} {k k' : Text} {src dst : Path}
    (h : (do
      let source ← validateMutationPath root k
      let destination ← validateMutationPath root k'
      .ok (source, destination) : Except Exn (Path × Path)) = .ok (src, dst)) :
    validateMutationPath root k = .ok src ∧ validateMutationPath root k' = .ok dst := by
  cases h₁ : validateMutationPath root k with
  | error e => rw [h₁] at h; simp [bind, Except.bind] at h
  | ok s =>
    cases h₂ : validateMutationPath root k' with
    | error e => rw [h₁, h₂] at h; simp [bind, Except.bind] at h
    | ok d =>
      rw [h₁, h₂] at h
      obtain ⟨rfl, rfl⟩ := Prod.mk.inj (Except.ok.inj h)
      exact ⟨rfl, rfl⟩

/-- Making the parents of `t` makes no directory of `t`. -/
theorem isDir_mkdirParent {t : Path} {r : Except Exn Unit}
    (hrun : onDisk (mkdirP t.parent) w = (r, w')) (h : w.disk.isDir t = false) :
    w'.disk.isDir t = false := by
  by_contra hd
  rcases isDir_of_mkdirP hrun (by simpa using hd) with hd | ⟨hd, _⟩
  · rw [h] at hd; simp at hd
  · exact not_prefix_parent (Disk.ne_nil_of_isDir_eq_false h) hd

theorem relocateTo_running {k k' : Text} {r : Except Exn Unit}
    (h : Running engine id d₀ w m) (hclean : CleanKey k) (hclean' : CleanKey k')
    (hleads : validate engine.root k = .ok (engine.root ++ parts k))
    (hleads' : validate engine.root k' = .ok (engine.root ++ parts k'))
    (hkey : KeySafe engine.root m k) (hkey' : KeySafe engine.root m k')
    (hfile : w.disk.isFile (engine.root ++ parts k) = true)
    (hfree : w.disk.present (engine.root ++ parts k') = false)
    (hroomy : Roomy engine.root m w.disk (Path.parent (engine.root ++ parts k')))
    (hrun : relocateTo engine id k k' (engine.root ++ parts k) (engine.root ++ parts k') w =
      (r, w')) : ∃ m', Running engine id d₀ w' m' := by
  have hu := (hkey _ hleads).1
  have hu' := (hkey' _ hleads').1
  have hne : parts k ≠ parts k' := by
    intro e
    rw [e] at hfile
    rw [Disk.present_of_isFile hfile] at hfree
    simp at hfree
  rcases snapshot_then h hclean hkey hrun with hdone | ⟨w₁, m₁, hs₁, hk₁, hrun⟩
  · exact hdone
  have hkey₁ := hkey'.snapped hs₁ hleads hne hclean'
  rcases snapshot_then hs₁.running hclean' hkey₁ hrun with hdone | ⟨w₂, m₂, hs₂, hk₂, hrun⟩
  · exact hdone
  have hget : ∀ p, IsUserPath engine.root p → w₂.disk.get p = w.disk.get p := fun p hp =>
    (hs₂.user p hp).trans (hs₁.user p hp)
  have hsolid := ((hroomy.solid h.tracked).snapped h hkey hs₁).snapped hs₁.running hkey₁ hs₂
  have hkm : k ∈ m₂.touchedFiles := hs₂.mono k hk₁
  rcases Prog.bind_cases hrun with ⟨e, hm, rfl⟩ | ⟨_, w₃, hm, hrun⟩
  · exact ⟨m₂, hs₂.running.mkdirParent hu' hsolid hm⟩
  have h₃ := hs₂.running.mkdirParent hu' hsolid hm
  -- the source is a file still, and nothing is at the destination
  have hsrc₃ : w₃.disk.isDir (engine.root ++ parts k) = false := by
    have hfile₂ : w₂.disk.isFile (engine.root ++ parts k) = true := by
      unfold Disk.isFile at hfile ⊢
      rw [Disk.content_congr (hget _ hu)]; exact hfile
    by_contra hd
    rcases isDir_of_mkdirP hm (by simpa using hd) with hd | ⟨_, hd⟩
    · rw [Disk.isFile_eq_false_of_isDir hd] at hfile₂; simp at hfile₂
    · rw [hd] at hfile₂; simp at hfile₂
  have hdst₃ : w₃.disk.isDir (engine.root ++ parts k') = false := by
    refine isDir_mkdirParent hm ?_
    rw [Disk.isDir_congr (hget _ hu'), Disk.isDir_eq_false, Disk.present_eq_false.mp hfree]
    simp
  have hmoved : ∀ {r w₄}, onDisk (Py.move (engine.root ++ parts k) (engine.root ++ parts k')) w₃ =
      (r, w₄) → Running engine id d₀ w₄ m₂ := fun hmv =>
    h₃.move hsrc₃ hu ⟨k, hkm, hleads⟩ ⟨k', hk₂, hleads'⟩ hdst₃
      (fun s e => not_isUserPath_backupsDir engine.root id s (e ▸ hu')) hmv
  rcases Prog.bind_cases hrun with ⟨e, hmv, rfl⟩ | ⟨_, w₄, hmv, hrun⟩
  · exact ⟨m₂, hmoved hmv⟩
  rcases Prog.bind_cases hrun with ⟨e, hn, rfl⟩ | ⟨_, w₅, hn, hrun⟩
  · obtain ⟨m₅, h₅, _⟩ := (hmoved hmv).recordAfter hkm hn
    exact ⟨m₅, h₅⟩
  · obtain ⟨m₅, h₅, hsame⟩ := (hmoved hmv).recordAfter hkm hn
    obtain ⟨m₆, h₆, _⟩ := h₅.recordAfter (hsame ▸ hk₂) hrun
    exact ⟨m₆, h₆⟩

theorem relocate_running {op : OperationKind} {k k' : Text} {r : Except Exn MutationOutcome}
    (h : Running engine id d₀ w m) (hkey : KeySafe engine.root m k)
    (hkey' : KeySafe engine.root m k') (hfile : w.disk.isDir (engine.root ++ parts k) = false)
    (hroomy : Roomy engine.root m w.disk (Path.parent (engine.root ++ parts k')))
    (hrun : relocate engine id op k k' w = (r, w')) : ∃ m', Running engine id d₀ w' m' := by
  rcases withTargets_cases hrun with rfl | ⟨⟨src, dst⟩, hv, hrun⟩
  · exact ⟨m, h⟩
  have hvs := relocate_targets hv
  obtain ⟨hclean, hleads, rfl⟩ := cleanKey_of_mutation hvs.1
  obtain ⟨hclean', hleads', rfl⟩ := cleanKey_of_mutation hvs.2
  dsimp only at hrun
  rw [Prog.bind_of_ok (Prog.gets_apply _ w)] at hrun
  split at hrun
  · cases hrun; exact ⟨m, h⟩
  next hsrc =>
  rw [Prog.bind_of_ok (Prog.gets_apply _ w)] at hrun
  split at hrun
  · cases hrun; exact ⟨m, h⟩
  next hdst =>
  have hsrc : w.disk.present (engine.root ++ parts k) = true := by simpa using hsrc
  have hrelocate : ∀ {r w₁}, relocateTo engine id k k' (engine.root ++ parts k)
      (engine.root ++ parts k') w = (r, w₁) → ∃ m', Running engine id d₀ w₁ m' := fun hr =>
    relocateTo_running h hclean hclean' hleads hleads' hkey hkey'
      (Disk.isFile_of_present hsrc hfile) (by simpa using hdst) hroomy hr
  rcases Prog.bind_cases hrun with ⟨e, hr, rfl⟩ | ⟨_, w₁, hr, hrun⟩
  · exact hrelocate hr
  · cases hrun; exact hrelocate hr

/-- **Step lemma**: a safe operation keeps the record, however it ends. -/
theorem runFileOperation_running {op : Operation} {r : Except Exn MutationOutcome}
    (h : Running engine id d₀ w m) (hsafe : OperationSafe engine.root m w.disk op)
    (hrun : runFileOperation engine id op w = (r, w')) : ∃ m', Running engine id d₀ w' m' := by
  unfold runFileOperation at hrun
  unfold OperationSafe at hsafe
  cases hop : op.op with
  | createFile =>
    simp only [hop] at hrun hsafe
    exact createFile_running h hsafe.1 hsafe.2 hrun
  | editFile =>
    simp only [hop] at hrun hsafe
    exact editFile_running h hsafe hrun
  | applyPatch =>
    simp only [hop] at hrun
    cases hrun; exact ⟨m, h⟩
  | renameFile =>
    simp only [hop] at hrun hsafe
    exact relocate_running h hsafe.1 hsafe.2.1 hsafe.2.2.1 hsafe.2.2.2 hrun
  | moveFile =>
    simp only [hop] at hrun hsafe
    exact relocate_running h hsafe.1 hsafe.2.1 hsafe.2.2.1 hsafe.2.2.2 hrun
  | deleteFile =>
    simp only [hop] at hrun hsafe
    exact deleteFile_running h hsafe.1 hsafe.2 hrun
  | createDirectory =>
    simp only [hop] at hrun hsafe
    exact createDirectory_running h hsafe.1 hsafe.2 hrun

/-! ## The file patches -/

/-- A side of a file patch of an accepted diff. -/
theorem patchTarget_cases {root : Path} {path : Text} {t : Option Path}
    (hpath : IsHeaderPath root path) (h : patchTarget root path = .ok t) :
    (path = devNull ∧ t = none) ∨
    (path ≠ devNull ∧ t = some (root ++ parts path) ∧ CleanKey path ∧
      validate root path = .ok (root ++ parts path)) := by
  unfold patchTarget at h
  by_cases hn : path = devNull
  · rw [if_pos hn] at h; exact Or.inl ⟨hn, (Except.ok.inj h).symm⟩
  · obtain ⟨ha, hd, hv⟩ := hpath.resolve_left hn
    rw [if_neg hn, hv] at h
    exact Or.inr ⟨hn, (Except.ok.inj h).symm, ⟨ha, hd⟩, hv⟩

theorem Running.writeLines {t : Path} {lines : List Text} {r : Except Exn Unit}
    (h : Running engine id d₀ w m) (hu : IsUserPath engine.root t)
    (ht : IsTouched engine.root m.touchedFiles t)
    (hrun : onDisk (Patch.writeLines t lines) w = (r, w')) : Running engine id d₀ w' m :=
  h.writeText hu ht hrun

theorem createPatchedTx_running {patch : FilePatch} {r : Except Exn Unit}
    (h : Running engine id d₀ w m) (hclean : CleanKey patch.newPath)
    (hleads : validate engine.root patch.newPath = .ok (engine.root ++ parts patch.newPath))
    (hkey : KeySafe engine.root m patch.newPath)
    (hroomy : Roomy engine.root m w.disk (Path.parent (engine.root ++ parts patch.newPath)))
    (hrun : createPatchedTx engine id patch (engine.root ++ parts patch.newPath) w = (r, w')) :
    ∃ m', Running engine id d₀ w' m' := by
  have hu := (hkey _ hleads).1
  rcases Prog.ensure_bind hrun with ⟨_, _, rfl⟩ | ⟨_, hrun⟩
  · exact ⟨m, h⟩
  rcases snapshot_then h hclean hkey hrun with hdone | ⟨w₁, m₁, hs₁, hk₁, hrun⟩
  · exact hdone
  have ht : IsTouched engine.root m₁.touchedFiles (engine.root ++ parts patch.newPath) :=
    ⟨_, hk₁, hleads⟩
  have hsolid := (hroomy.solid h.tracked).snapped h hkey hs₁
  rcases Prog.ofExcept_bind hrun with ⟨_, _, _, rfl⟩ | ⟨lines, _, hrun⟩
  · exact ⟨m₁, hs₁.running⟩
  rcases Prog.bind_cases hrun with ⟨e, hm, rfl⟩ | ⟨_, w₂, hm, hrun⟩
  · exact ⟨m₁, hs₁.running.mkdirParent hu hsolid hm⟩
  have h₂ := hs₁.running.mkdirParent hu hsolid hm
  rcases Prog.bind_cases hrun with ⟨e, hw, rfl⟩ | ⟨_, w₃, hw, hrun⟩
  · exact ⟨m₁, h₂.writeLines hu ht hw⟩
  · obtain ⟨m₃, h₃, _⟩ := (h₂.writeLines hu ht hw).recordAfter hk₁ hrun
    exact ⟨m₃, h₃⟩

/-- The file is snapshotted and its new lines are computed. -/
theorem patchedLinesTx_running {patch : FilePatch} {t : Path} {r : Except Exn (List Text)}
    (h : Running engine id d₀ w m) (hclean : CleanKey patch.oldPath)
    (hkey : KeySafe engine.root m patch.oldPath)
    (hrun : patchedLinesTx engine id patch t w = (r, w')) :
    ∃ m', Snapped engine id d₀ patch.oldPath w w' m m' ∧
      (∀ lines, r = .ok lines → patch.oldPath ∈ m'.touchedFiles ∧ w.disk.isFile t = true) := by
  rcases Prog.ensure_bind hrun with ⟨_, rfl, rfl⟩ | ⟨hf, hrun⟩
  · exact ⟨m, Snapped.refl h, by simp⟩
  rcases Prog.bind_cases hrun with ⟨e, hs, rfl⟩ | ⟨_, w₁, hs, hrun⟩
  · obtain ⟨m₁, hs₁, _⟩ := snapshot_running h hclean hkey hs
    exact ⟨m₁, hs₁, by simp⟩
  obtain ⟨m₁, hs₁, hk₁⟩ := snapshot_running h hclean hkey hs
  rw [onDisk, readText, Prog.zoom_read] at hrun
  rcases Prog.read_bind hrun with ⟨e, _, rfl, rfl⟩ | ⟨text, _, hrun⟩
  · exact ⟨m₁, hs₁, by simp⟩
  · obtain ⟨_, rfl⟩ := Prod.mk.inj hrun
    exact ⟨m₁, hs₁, fun _ _ => ⟨hk₁ rfl, hf⟩⟩

theorem writePatchedTx_running {patch : FilePatch} {lines : List Text} {r : Except Exn Unit}
    (h : Running engine id d₀ w m) (hold : patch.oldPath ∈ m.touchedFiles)
    (hleads : validate engine.root patch.oldPath = .ok (engine.root ++ parts patch.oldPath))
    (hclean' : CleanKey patch.newPath)
    (hleads' : validate engine.root patch.newPath = .ok (engine.root ++ parts patch.newPath))
    (hu : IsUserPath engine.root (engine.root ++ parts patch.oldPath))
    (hsafe : parts patch.oldPath ≠ parts patch.newPath → KeySafe engine.root m patch.newPath ∧
      Solid d₀ engine.root m w.disk (Path.parent (engine.root ++ parts patch.newPath)))
    (hrun : writePatchedTx engine id patch (engine.root ++ parts patch.oldPath)
      (engine.root ++ parts patch.newPath) lines w = (r, w')) :
    ∃ m', Running engine id d₀ w' m' := by
  unfold writePatchedTx at hrun
  have ht : IsTouched engine.root m.touchedFiles (engine.root ++ parts patch.oldPath) :=
    ⟨_, hold, hleads⟩
  by_cases heq : engine.root ++ parts patch.oldPath = engine.root ++ parts patch.newPath
  · rw [if_pos heq, ← heq] at hrun
    rcases Prog.bind_cases hrun with ⟨e, hw, rfl⟩ | ⟨_, w₁, hw, hrun⟩
    · exact ⟨m, h.writeLines hu ht hw⟩
    · obtain ⟨m₂, h₂, _⟩ := (h.writeLines hu ht hw).recordAfter hold hrun
      exact ⟨m₂, h₂⟩
  rw [if_neg heq] at hrun
  have hne : parts patch.oldPath ≠ parts patch.newPath := fun e => heq (by rw [e])
  obtain ⟨hkey, hsolid⟩ := hsafe hne
  have hu' := (hkey _ hleads').1
  rcases snapshot_then h hclean' hkey hrun with hdone | ⟨w₁, m₁, hs₁, hk₁, hrun⟩
  · exact hdone
  have hold₁ := hs₁.mono _ hold
  have ht₁ : IsTouched engine.root m₁.touchedFiles (engine.root ++ parts patch.oldPath) :=
    ⟨_, hold₁, hleads⟩
  have ht₁' : IsTouched engine.root m₁.touchedFiles (engine.root ++ parts patch.newPath) :=
    ⟨_, hk₁, hleads'⟩
  have hsolid₁ := hsolid.snapped h hkey hs₁
  rcases Prog.bind_cases hrun with ⟨e, hm, rfl⟩ | ⟨_, w₂, hm, hrun⟩
  · exact ⟨m₁, hs₁.running.mkdirParent hu' hsolid₁ hm⟩
  have h₂ := hs₁.running.mkdirParent hu' hsolid₁ hm
  rcases Prog.bind_cases hrun with ⟨e, hd, rfl⟩ | ⟨_, w₃, hd, hrun⟩
  · exact ⟨m₁, h₂.unlink hu ht₁ hd⟩
  have h₃ := h₂.unlink hu ht₁ hd
  rcases Prog.bind_cases hrun with ⟨e, hw, rfl⟩ | ⟨_, w₄, hw, hrun⟩
  · exact ⟨m₁, h₃.writeLines hu' ht₁' hw⟩
  have h₄ := h₃.writeLines hu' ht₁' hw
  rcases Prog.bind_cases hrun with ⟨e, hn, rfl⟩ | ⟨_, w₅, hn, hrun⟩
  · obtain ⟨m₅, h₅, _⟩ := h₄.recordAfter hold₁ hn
    exact ⟨m₅, h₅⟩
  · obtain ⟨m₅, h₅, hsame⟩ := h₄.recordAfter hold₁ hn
    obtain ⟨m₆, h₆, _⟩ := h₅.recordAfter (hsame ▸ hk₁) hrun
    exact ⟨m₆, h₆⟩

/-- **Step lemma**: a safe file patch keeps the record, however it ends. -/
theorem applyFilePatchTx_running {patch : FilePatch} {r : Except Exn Text}
    (h : Running engine id d₀ w m)
    (hpaths : IsHeaderPath engine.root patch.oldPath ∧ IsHeaderPath engine.root patch.newPath)
    (hsafe : FilePatchSafe engine.root m w.disk patch)
    (hrun : applyFilePatchTx engine id patch w = (r, w')) : ∃ m', Running engine id d₀ w' m' := by
  unfold applyFilePatchTx at hrun
  rcases Prog.ofExcept_bind hrun with ⟨_, _, _, rfl⟩ | ⟨old, hold, hrun⟩
  · exact ⟨m, h⟩
  rcases Prog.ofExcept_bind hrun with ⟨_, _, _, rfl⟩ | ⟨new, hnew, hrun⟩
  · exact ⟨m, h⟩
  rcases patchTarget_cases hpaths.1 hold with ⟨ho, rfl⟩ | ⟨ho, rfl, hclean, hleads⟩
  · rcases patchTarget_cases hpaths.2 hnew with ⟨hn, rfl⟩ | ⟨hn, rfl, hclean', hleads'⟩
    · cases hrun; exact ⟨m, h⟩
    · obtain ⟨hkey, hroomy⟩ := hsafe.2 hn (Or.inl ho)
      rcases Prog.bind_cases hrun with ⟨e, hc, rfl⟩ | ⟨_, w₁, hc, hrun⟩
      · exact createPatchedTx_running h hclean' hleads' hkey hroomy hc
      · cases hrun; exact createPatchedTx_running h hclean' hleads' hkey hroomy hc
  have hkey := hsafe.1 ho
  have hu := (hkey _ hleads).1
  rcases patchTarget_cases hpaths.2 hnew with ⟨hn, rfl⟩ | ⟨hn, rfl, hclean', hleads'⟩
  · rcases Prog.bind_cases hrun with ⟨e, hl, rfl⟩ | ⟨lines, w₁, hl, hrun⟩
    · obtain ⟨m₁, hs₁, _⟩ := patchedLinesTx_running h hclean hkey hl
      exact ⟨m₁, hs₁.running⟩
    obtain ⟨m₁, hs₁, hk₁⟩ := patchedLinesTx_running h hclean hkey hl
    have ht₁ : IsTouched engine.root m₁.touchedFiles (engine.root ++ parts patch.oldPath) :=
      ⟨_, (hk₁ lines rfl).1, hleads⟩
    rcases Prog.bind_cases hrun with ⟨e, hd, rfl⟩ | ⟨_, w₂, hd, hrun⟩
    · exact ⟨m₁, hs₁.running.unlink hu ht₁ hd⟩
    · exact (hs₁.running.unlink hu ht₁ hd).noted (hk₁ lines rfl).1 hrun
  · rcases Prog.bind_cases hrun with ⟨e, hl, rfl⟩ | ⟨lines, w₁, hl, hrun⟩
    · obtain ⟨m₁, hs₁, _⟩ := patchedLinesTx_running h hclean hkey hl
      exact ⟨m₁, hs₁.running⟩
    obtain ⟨m₁, hs₁, hk₁⟩ := patchedLinesTx_running h hclean hkey hl
    have hsafe₁ : parts patch.oldPath ≠ parts patch.newPath →
        KeySafe engine.root m₁ patch.newPath ∧
        Solid d₀ engine.root m₁ w₁.disk (Path.parent (engine.root ++ parts patch.newPath)) :=
      fun hne => by
        obtain ⟨hkey', hroomy⟩ := hsafe.2 hn (Or.inr hne)
        exact ⟨hkey'.snapped hs₁ hleads hne hclean',
          (hroomy.solid h.tracked).snapped h hkey hs₁⟩
    rcases Prog.bind_cases hrun with ⟨e, hw, rfl⟩ | ⟨_, w₂, hw, hrun⟩
    · exact writePatchedTx_running hs₁.running (hk₁ lines rfl).1 hleads hclean' hleads' hu hsafe₁ hw
    · cases hrun
      exact writePatchedTx_running hs₁.running (hk₁ lines rfl).1 hleads hclean' hleads' hu hsafe₁ hw

end Steps

/-! ## Runs -/

section Runs

variable {engine : Engine} {id : Text} {d₀ : FS}

/-- The transaction `id` runs in `w`. -/
def IsRunning (engine : Engine) (id : Text) (d₀ : FS) (w : World) : Prop :=
  ∃ m, Running engine id d₀ w m

/-- Every file patch is safe in the state it is applied to. -/
def FilePatchesSafe (engine : Engine) (id : Text) : List FilePatch → World → Prop
  | [], _ => True
  | patch :: patches, w =>
    (∀ m ∈ findManifest w id, FilePatchSafe engine.root m w.disk patch) ∧
    ∀ path w', applyFilePatchTx engine id patch w = (.ok path, w') →
      FilePatchesSafe engine id patches w'

/-- Every operation is safe in the state it runs in. -/
def OperationsSafe (engine : Engine) (id : Text) (diffPaths : List Text) :
    List Operation → World → Prop
  | [], _ => True
  | op :: ops, w =>
    if isDoneByDiff diffPaths op then OperationsSafe engine id diffPaths ops w
    else
      (∀ m ∈ findManifest w id, OperationSafe engine.root m w.disk op) ∧
      ∀ outcome w', runFileOperation engine id op w = (.ok outcome, w') →
        OperationsSafe engine id diffPaths ops w'

/-- **Run lemma** of the diff. -/
theorem applyFilePatchesTx_running : ∀ {patches : List FilePatch} {w w' : World}
    {r : Except Exn (List Text)}, IsRunning engine id d₀ w →
      (∀ patch ∈ patches,
        IsHeaderPath engine.root patch.oldPath ∧ IsHeaderPath engine.root patch.newPath) →
      FilePatchesSafe engine id patches w →
      applyFilePatchesTx engine id patches w = (r, w') → IsRunning engine id d₀ w'
  | [], _, _, _, h, _, _, hrun => by cases hrun; exact h
  | patch :: patches, w, w', r, ⟨m, h⟩, hpaths, hsafe, hrun => by
    have hpath := hpaths patch (List.mem_cons_self ..)
    rcases Prog.bind_cases hrun with ⟨e, hp, rfl⟩ | ⟨path, w₁, hp, hrun⟩
    · exact applyFilePatchTx_running h hpath (hsafe.1 m h.found) hp
    have h₁ : IsRunning engine id d₀ w₁ := applyFilePatchTx_running h hpath (hsafe.1 m h.found) hp
    have hrest : ∀ patch ∈ patches, _ := fun q hq => hpaths q (List.mem_cons_of_mem _ hq)
    rcases Prog.bind_cases hrun with ⟨e, hp', rfl⟩ | ⟨paths, w₂, hp', hrun⟩
    · exact applyFilePatchesTx_running h₁ hrest (hsafe.2 path w₁ hp) hp'
    · cases hrun
      exact applyFilePatchesTx_running h₁ hrest (hsafe.2 path w₁ hp) hp'

/-- **Run lemma** of the operations. -/
theorem runOperations_running {diffPaths : List Text} : ∀ {ops : List Operation} {w w' : World}
    {r : Except Exn (List Text)}, IsRunning engine id d₀ w →
      OperationsSafe engine id diffPaths ops w →
      runOperations engine id diffPaths ops w = (r, w') → IsRunning engine id d₀ w'
  | [], _, _, _, h, _, hrun => by cases hrun; exact h
  | op :: ops, w, w', r, ⟨m, h⟩, hsafe, hrun => by
    unfold runOperations at hrun
    unfold OperationsSafe at hsafe
    split at hrun
    next hdone =>
      rw [if_pos hdone] at hsafe
      exact runOperations_running ⟨m, h⟩ hsafe hrun
    next hdone =>
      rw [if_neg hdone] at hsafe
      rcases Prog.bind_cases hrun with ⟨e, ho, rfl⟩ | ⟨outcome, w₁, ho, hrun⟩
      · exact runFileOperation_running h (hsafe.1 m h.found) ho
      have h₁ : IsRunning engine id d₀ w₁ := runFileOperation_running h (hsafe.1 m h.found) ho
      split at hrun
      · rcases Prog.bind_cases hrun with ⟨e, hr, rfl⟩ | ⟨paths, w₂, hr, hrun⟩
        · exact runOperations_running h₁ (hsafe.2 outcome w₁ ho) hr
        · cases hrun
          exact runOperations_running h₁ (hsafe.2 outcome w₁ ho) hr
      · cases hrun; exact h₁

end Runs

end Shamsu.Patch
