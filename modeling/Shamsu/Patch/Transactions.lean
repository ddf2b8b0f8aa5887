import Shamsu.Patch.Types
import Shamsu.Safety.Approval

/-!
# The transaction store

`shamsu/patch/transactions.py`: a mutation runs in a transaction whose manifest
notes, for every path it touches, the hash before and after and where the copy
of the file as it was is kept. The copies are files of the workspace, under
`.shamsu/mutations/<id>/backups`; the manifests are records of their own here
(`World.transactions`), so that the model has no JSON printer in it.

The keys of a manifest are the path strings as the operations spell them, while
the copies live under the path those strings lead to. That is the source's
choice, and what the undo theorems have to deal with.
-/

namespace Shamsu.Patch

open Shamsu.Lib Shamsu.Py Shamsu.Safety

inductive TransactionStatus where
  | pending | failed | applied | verificationFailed | rolledBack
  deriving DecidableEq, Repr

/-- `manifest.json`. -/
structure Manifest where
  transactionId : Text
  createdAt : Text
  reason : Text
  operations : List Operation
  destructive : Bool
  status : TransactionStatus
  touchedFiles : List Text
  beforeHashes : List (Text × Option Text)
  afterHashes : List (Text × Option Text)
  backups : List (Text × Path)
  verification : Option VerificationOutcome
  error : String

/-- What the engine works on: the disk, the manifests and the remembered
permissions. -/
structure World where
  disk : FS
  transactions : List Manifest
  memory : Option PermissionMemory

def World.diskPart : Prog.Part World FS where
  get := World.disk
  set d w := { w with disk := d }
  get_set _ _ := rfl
  set_get _ := rfl

/-- A file operation, in the world. -/
def onDisk {α : Type} (x : FSProg α) : Prog Exn World α := x.zoom World.diskPart

/-- What the engine is given and never changes: the workspace root, the digest,
and the parts that are not its own. -/
structure Engine where
  root : Path
  /-- `hashlib.sha256(...).hexdigest()`. -/
  sha256 : Bytes → Text
  /-- `sanitize_model_diff`. -/
  sanitize : Text → Text
  prompts : Prompts
  /-- The complaint of `git apply --check`, where git is there to complain. -/
  gitCheck : Text → FS → Option String
  /-- The project's formatter, run on the touched files. -/
  format : List Text → FS → FS
  /-- The verification command. -/
  verify : Text → FS → VerificationOutcome × FS

/-- An engine at `/ws` for concrete runs: the user says yes to everything, the
diffs are clean, git and the formatter are not installed and commands succeed. -/
def Engine.agreeable : Engine where
  root := ["ws".toList]
  sha256 b := b.map fun x => Char.ofNat x.toNat
  sanitize t := t
  prompts := { menu := none, approval := fun _ => true, rememberPrompt := none }
  gitCheck _ _ := none
  format _ d := d
  verify _ d := ({ ran := true, exitCode := some 0 }, d)

/-- The workspace of `Engine.agreeable` with these files, and no history. -/
def World.ofFiles (files : List (String × String)) : World where
  disk := Disk.ofFiles (files.map fun f =>
    ("ws".toList :: parts f.1.toList, encodeUtf8 f.2.toList))
  transactions := []
  memory := none

/-! ## Where things are kept -/

/-- `.shamsu/mutations/<id>`. -/
def transactionDir (root : Path) (id : Text) : Path :=
  root ++ [dotShamsu, "mutations".toList, id]

/-- `_backup_path`: `.shamsu/mutations/<id>/backups/<relative path>`, where an
absolute path replaces what it is joined to. -/
def transactionBackup (root : Path) (id relativePath : Text) : Path :=
  resolveFrom
    (if isAbsolute relativePath then [] else transactionDir root id ++ ["backups".toList])
    (parts relativePath)

/-- `.shamsu/trash/<id>/<relative path>`. -/
def trashPath (root : Path) (id relativePath : Text) : Path :=
  resolveFrom
    (if isAbsolute relativePath then [] else root ++ [dotShamsu, "trash".toList, id])
    (parts relativePath)

/-! ## The store -/

/-- `load_manifest`. -/
def findManifest (w : World) (id : Text) : Option Manifest :=
  w.transactions.find? fun m => m.transactionId = id

/-- `raise ValueError(f"Unknown transaction: {transaction_id}")` when there is none. -/
def loadManifest (id : Text) : Prog Exn World Manifest := Prog.read fun w =>
  match findManifest w id with
  | some m => .ok m
  | none => .error ⟨.value, s!"Unknown transaction: {str id}"⟩

/-- `_write_manifest`. -/
def writeManifest (m : Manifest) : Prog Exn World Unit := Prog.modify fun w =>
  { w with transactions :=
      w.transactions.map fun m' => if m'.transactionId = m.transactionId then m else m' }

/-- The id and the time a transaction is begun with. -/
structure Stamp where
  id : Text
  createdAt : Text

/-- The manifest a transaction begins with. -/
def newManifest (stamp : Stamp) (reason : Text) (operations : List Operation)
    (destructive : Bool) : Manifest where
  transactionId := stamp.id
  createdAt := stamp.createdAt
  reason := reason
  operations := operations
  destructive := destructive
  status := .pending
  touchedFiles := []
  beforeHashes := []
  afterHashes := []
  backups := []
  verification := none
  error := ""

/-- `begin`. -/
def beginTransaction (engine : Engine) (stamp : Stamp) (reason : Text) (operations : List Operation)
    (destructive : Bool) : Prog Exn World Unit := do
  onDisk (mkdirP (transactionDir engine.root stamp.id))
  Prog.modify fun w => { w with
    transactions := w.transactions ++ [newManifest stamp reason operations destructive] }

/-- `_hash_file`. -/
def hashFile (engine : Engine) (d : FS) (p : Path) : Option Text :=
  (d.content p).map engine.sha256

/-- A key of one of the manifest's dictionaries. -/
def hasKey {α : Type} (items : List (Text × α)) (key : Text) : Bool := items.any (·.1 == key)

/-- `items[key] = value`. -/
def setKey {α : Type} (items : List (Text × α)) (key : Text) (value : α) : List (Text × α) :=
  if hasKey items key then items.map fun i => if i.1 = key then (key, value) else i
  else items ++ [(key, value)]

/-- Append unless it is there already. -/
def noteFile (files : List Text) (file : Text) : List Text :=
  if file ∈ files then files else files ++ [file]

/-- `backup_file`. -/
def snapshot (engine : Engine) (id relativePath : Text) : Prog Exn World Unit := do
  let m ← loadManifest id
  if hasKey m.beforeHashes relativePath then pure ()
  else do
    let target ← Prog.ofExcept (validate engine.root relativePath)
    let before ← Prog.gets fun w => hashFile engine w.disk target
    let backup := transactionBackup engine.root id relativePath
    Prog.whenever (fun w => w.disk.isFile target) do
      onDisk (mkdirP backup.parent)
      onDisk (copy2 target backup)
    writeManifest { m with
      beforeHashes := m.beforeHashes ++ [(relativePath, before)]
      backups := if before.isSome then setKey m.backups relativePath backup else m.backups
      touchedFiles := noteFile m.touchedFiles relativePath }

/-- `record_after`. -/
def recordAfter (engine : Engine) (id relativePath : Text) : Prog Exn World Unit := do
  let m ← loadManifest id
  let after ← Prog.gets fun w =>
    match validate engine.root relativePath with
    | .ok target => hashFile engine w.disk target
    | .error _ => none
  writeManifest { m with
    afterHashes := setKey m.afterHashes relativePath after
    touchedFiles := noteFile m.touchedFiles relativePath }

/-- `save_verification`. -/
def saveVerification (id : Text) (v : VerificationOutcome) : Prog Exn World Unit := do
  let m ← loadManifest id
  writeManifest { m with verification := some v }

/-- `finalize`. -/
def finalize (id : Text) (status : TransactionStatus) (error : String) :
    Prog Exn World Manifest := do
  let m ← loadManifest id
  let m := { m with status, error }
  writeManifest m
  pure m

/-! ## What they do -/

theorem onDisk_eq {α : Type} {x : FSProg α} {w : World} {r : Except Exn α} {d : FS}
    (h : x w.disk = (r, d)) : onDisk x w = (r, { w with disk := d }) := by
  show (_, _) = _
  simp only [World.diskPart, h]

theorem onDisk_cases {α : Type} {x : FSProg α} {w w' : World} {r : Except Exn α}
    (h : onDisk x w = (r, w')) : ∃ d, x w.disk = (r, d) ∧ w' = { w with disk := d } :=
  Prog.zoom_cases h

theorem onDisk_bind {α β : Type} (x : FSProg α) (f : α → FSProg β) (w : World) :
    onDisk (x >>= f) w = (onDisk x >>= fun a => onDisk (f a)) w := by
  simp only [onDisk, Prog.zoom, Prog.bind_apply, World.diskPart]
  rcases x w.disk with ⟨_ | a, d⟩ <;> rfl

theorem beginTransaction_ok {engine : Engine} {stamp : Stamp} {reason : Text}
    {operations : List Operation} {destructive : Bool} {w w' : World}
    (hrun : beginTransaction engine stamp reason operations destructive w = (.ok (), w')) :
    ∃ hc, w' = { w with
      disk := w.disk.mkdirs (transactionDir engine.root stamp.id) hc
      transactions := w.transactions ++ [newManifest stamp reason operations destructive] } := by
  obtain ⟨_, w₁, hm, hrun⟩ := Prog.bind_ok.mp hrun
  obtain ⟨d, hd, rfl⟩ := onDisk_cases hm
  rcases mkdirP_cases (transactionDir engine.root stamp.id) w.disk with ⟨hc, hok⟩ | ⟨_, e, herr⟩
  · obtain ⟨_, rfl⟩ := Prod.mk.inj (hok.symm.trans hd)
    obtain ⟨_, rfl⟩ := Prod.mk.inj hrun
    exact ⟨hc, rfl⟩
  · rw [herr] at hd; simp at hd

theorem beginTransaction_error {engine : Engine} {stamp : Stamp} {reason : Text}
    {operations : List Operation} {destructive : Bool} {w w' : World} {e : Exn}
    (hrun : beginTransaction engine stamp reason operations destructive w = (.error e, w')) :
    w'.disk = w.disk ∧ w'.transactions = w.transactions := by
  rcases Prog.bind_cases hrun with ⟨_, hm, _⟩ | ⟨_, w₁, _, hrun⟩
  · obtain ⟨d, hd, rfl⟩ := onDisk_cases hm
    rcases mkdirP_cases (transactionDir engine.root stamp.id) w.disk with ⟨hc, hok⟩ | ⟨_, e, herr⟩
    · rw [hok] at hd; cases hd
    · rw [herr] at hd; cases hd; exact ⟨rfl, rfl⟩
  · cases hrun

theorem loadManifest_eq {w : World} {id : Text} {m : Manifest} (h : findManifest w id = some m) :
    loadManifest id w = (.ok m, w) := by
  simp only [loadManifest, Prog.read_apply, h]

theorem transactionId_of_findManifest {w : World} {id : Text} {m : Manifest}
    (h : findManifest w id = some m) : m.transactionId = id := by
  simpa using List.find?_some h

/-- Reading back a manifest that replaces one. -/
theorem findManifest_write {w : World} {id : Text} {m m' : Manifest}
    (h : findManifest w id = some m) (hm' : m'.transactionId = id) :
    findManifest (writeManifest m' w).2 id = some m' := by
  show (w.transactions.map _).find? _ = _
  unfold findManifest at h
  generalize w.transactions = ms at h
  induction ms with
  | nil => simp at h
  | cons a ms ih =>
    by_cases ha : a.transactionId = id
    · simp [ha, hm']
    · have haf : a.transactionId ≠ m'.transactionId := by rw [hm']; exact ha
      have h : ms.find? (fun m => decide (m.transactionId = id)) = some m := by
        simpa [List.find?_cons, ha] using h
      simpa [haf, ha, List.find?_cons] using ih h

/-! ## The dictionaries of a manifest -/

/-- A key of a dictionary is looked up with an entry it has. -/
theorem lookup_of_mem_map {α : Type} {l : List (Text × α)} {k : Text}
    (h : k ∈ l.map Prod.fst) : ∃ a, l.lookup k = some a ∧ (k, a) ∈ l := by
  induction l with
  | nil => simp at h
  | cons e l ih =>
    obtain ⟨k', a⟩ := e
    by_cases hk : k = k'
    · exact ⟨a, by simp [hk], by simp [hk]⟩
    · have hm : k ∈ l.map Prod.fst := by simpa [hk] using h
      obtain ⟨a', hl, hm'⟩ := ih hm
      refine ⟨a', ?_, List.mem_cons_of_mem _ hm'⟩
      rw [List.lookup_cons, show (k == k') = false by simpa using hk]; exact hl

theorem lookup_map_self {α : Type} {l : List (Text × α)} {k : Text} (a : α)
    (h : hasKey l k = true) :
    (l.map fun e => if e.1 = k then (k, a) else e).lookup k = some a := by
  induction l with
  | nil => simp [hasKey] at h
  | cons e l ih =>
    obtain ⟨k₁, a₁⟩ := e
    by_cases he : k₁ = k
    · rw [List.map_cons, if_pos he, List.lookup_cons, beq_self_eq_true]
    · have hb : (k == k₁) = false := by simpa using Ne.symm he
      have hl : hasKey l k = true := by
        simpa only [hasKey, List.any_cons, beq_false_of_ne he, Bool.false_or] using h
      rw [List.map_cons, if_neg he, List.lookup_cons, hb]
      exact ih hl

theorem lookup_map_ne {α : Type} (l : List (Text × α)) {k k' : Text} (a : α) (hne : k' ≠ k) :
    (l.map fun e => if e.1 = k then (k, a) else e).lookup k' = l.lookup k' := by
  have hb : (k' == k) = false := by simpa using hne
  induction l with
  | nil => rfl
  | cons e l ih =>
    obtain ⟨k₁, a₁⟩ := e
    by_cases he : k₁ = k
    · simp only [List.map_cons, he, if_true, List.lookup_cons, hb]
      exact ih
    · simp only [List.map_cons, he, if_false, List.lookup_cons]
      rw [ih]

theorem lookup_append_self {α : Type} {l : List (Text × α)} {k : Text} (a : α)
    (h : hasKey l k = false) : (l ++ [(k, a)]).lookup k = some a := by
  induction l with
  | nil => simp
  | cons e l ih =>
    simp only [hasKey, List.any_cons, Bool.or_eq_false_iff] at h
    have he : (k == e.1) = false := by simpa using Ne.symm (ne_of_beq_false h.1)
    rw [List.cons_append, List.lookup_cons, he]
    exact ih h.2

theorem lookup_append_ne {α : Type} (l : List (Text × α)) {k k' : Text} (a : α) (hne : k' ≠ k) :
    (l ++ [(k, a)]).lookup k' = l.lookup k' := by
  have hb : (k' == k) = false := by simpa using hne
  induction l with
  | nil => simp [List.lookup_cons, hb]
  | cons e l ih => rw [List.cons_append, List.lookup_cons, List.lookup_cons, ih]

theorem lookup_setKey_self {α : Type} (l : List (Text × α)) (k : Text) (a : α) :
    (setKey l k a).lookup k = some a := by
  unfold setKey
  split
  next h => exact lookup_map_self a h
  next h => exact lookup_append_self a (by simpa using h)

theorem lookup_setKey_ne {α : Type} (l : List (Text × α)) {k k' : Text} (a : α) (hne : k' ≠ k) :
    (setKey l k a).lookup k' = l.lookup k' := by
  unfold setKey
  split
  · exact lookup_map_ne l a hne
  · exact lookup_append_ne l a hne

theorem hasKey_iff {α : Type} {l : List (Text × α)} {k : Text} :
    hasKey l k = true ↔ k ∈ l.map Prod.fst := by
  simp [hasKey]

end Shamsu.Patch
