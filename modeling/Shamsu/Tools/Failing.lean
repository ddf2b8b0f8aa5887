import Shamsu.Tools.Locked

/-!
# A tool that fails

A write tool that does not return ok has changed no file (`perform_not_ok`): it
refuses before it writes, and a transaction that fails does so before the file
is written (`commitWrite_error`). Once the copy of a file that is there has been
kept, the write goes through (`commitWrite_iff_kept`).
-/

namespace Shamsu.Tools

open Shamsu.Lib Shamsu.Py Shamsu.Safety Shamsu.Patch

/-! ## Files that stay -/

/-- Every file has the content it had. -/
def SameFiles (d d' : FS) : Prop := ∀ q, d'.content q = d.content q

theorem SameFiles.refl (d : FS) : SameFiles d d := fun _ => rfl

theorem SameFiles.trans {a b c : FS} (h₁ : SameFiles a b) (h₂ : SameFiles b c) :
    SameFiles a c := fun q => (h₂ q).trans (h₁ q)

theorem SameFiles.mkdirs {d : FS} {p : Path} (h : d.isClear p = true) :
    SameFiles d (d.mkdirs p h) := fun q => Disk.content_mkdirs d p q h

/-- Files stay files and directories stay directories. -/
structure Grown (d d' : FS) : Prop where
  file : ∀ q, d.isFile q = true → d'.isFile q = true
  dir : ∀ q, d.isDir q = true → d'.isDir q = true

theorem Grown.refl (d : FS) : Grown d d := ⟨fun _ h => h, fun _ h => h⟩

theorem Grown.trans {a b c : FS} (h₁ : Grown a b) (h₂ : Grown b c) : Grown a c :=
  ⟨fun q h => h₂.file q (h₁.file q h), fun q h => h₂.dir q (h₁.dir q h)⟩

theorem Grown.mkdirs {d : FS} {p : Path} (h : d.isClear p = true) : Grown d (d.mkdirs p h) := by
  constructor
  · intro q hq
    rwa [Disk.isFile, Disk.content_mkdirs]
  · exact fun q hq => Disk.isDir_mkdirs h hq

theorem Grown.put {d : FS} {p : Path} {b : Bytes} (h : d.canPut p = true) :
    Grown d (d.put p b h) := by
  constructor
  · intro q hq
    rw [Disk.isFile, Disk.content_put]
    split
    · rfl
    · exact hq
  · exact fun q hq => Disk.isDir_put h hq

/-- A file that is there can be written over. -/
theorem canPut_of_isFile {d : FS} {p : Path} (h : d.isFile p = true) : d.canPut p = true := by
  have hdir : d.isDir p = false := by
    cases hd : d.isDir p with
    | false => rfl
    | true => rw [Disk.isFile_eq_false_of_isDir hd] at h; cases h
  simp [Disk.canPut, hdir, Disk.isDir_dropLast (Disk.present_of_isFile h)]

theorem writeText_of_isFile {d : FS} {p : Path} (h : d.isFile p = true) (t : Text) :
    writeText p t d = (.ok (), d.put p (encodeUtf8 t) (canPut_of_isFile h)) := by
  rcases writeBytes_cases p (encodeUtf8 t) d with ⟨_, hok⟩ | ⟨hno, _⟩
  · exact hok
  · rw [canPut_of_isFile h] at hno; cases hno

/-! ## The transaction of a write -/

section Transaction

variable {engine : Engine} {id : Text} {w w' : World}

theorem findManifest_append {m : Manifest} (hm : m.transactionId = id) (d : FS) :
    ∃ m', findManifest { w with disk := d, transactions := w.transactions ++ [m] } id = some m' := by
  unfold findManifest
  have hsome : ((w.transactions ++ [m]).find? fun m => m.transactionId = id).isSome = true := by
    rw [List.find?_isSome]
    exact ⟨m, by simp, by simpa using hm⟩
  exact Option.isSome_iff_exists.mp hsome

theorem writeManifest_run {m m' : Manifest} {r : Except Exn Unit}
    (hm : findManifest w id = some m) (h : writeManifest m' w = (r, w'))
    (hid : m'.transactionId = m.transactionId) :
    r = .ok () ∧ w'.disk = w.disk ∧ ∃ m'', findManifest w' id = some m'' := by
  have hfound := findManifest_write hm (hid.trans (transactionId_of_findManifest hm))
  cases h
  exact ⟨rfl, rfl, m', hfound⟩

/-- A copy into a directory that is made for it. -/
theorem copy_cases {src dst : Path} {r : Except Exn Unit}
    (h : (do onDisk (mkdirP dst.parent); onDisk (copy2 src dst) : Prog Exn World Unit) w = (r, w')) :
    (∃ e, r = .error e ∧ SameFiles w.disk w'.disk) ∨
    (r = .ok () ∧ findManifest w' = findManifest w ∧ Grown w.disk w'.disk) := by
  have hmkdir := mkdirP_cases dst.parent w.disk
  rcases Prog.bind_cases h with ⟨e, hmk, rfl⟩ | ⟨_, w₁, hmk, h⟩
  · obtain ⟨d, hd, rfl⟩ := onDisk_cases hmk
    rcases hmkdir with ⟨hc, hok⟩ | ⟨_, e', herr⟩
    · rw [hok] at hd; cases hd
    · rw [herr] at hd; cases hd; exact Or.inl ⟨_, rfl, SameFiles.refl _⟩
  · obtain ⟨d, hd, rfl⟩ := onDisk_cases hmk
    rcases hmkdir with ⟨hc, hok⟩ | ⟨_, e', herr⟩
    · rw [hok] at hd
      obtain ⟨_, rfl⟩ := Prod.mk.inj hd
      obtain ⟨d₂, hd₂, rfl⟩ := onDisk_cases h
      rcases copy2_cases src dst (w.disk.mkdirs _ hc) with ⟨b, hput, _, _, hok⟩ | ⟨e', herr⟩
      · rw [hok] at hd₂
        cases hd₂
        exact Or.inr ⟨rfl, rfl, (Grown.mkdirs hc).trans (Grown.put hput)⟩
      · rw [herr] at hd₂; cases hd₂; exact Or.inl ⟨e', rfl, SameFiles.mkdirs hc⟩
    · rw [herr] at hd; cases hd

/-- A snapshot fails before it has copied anything, or leaves the files where
they are. -/
theorem snapshot_cases {k : Text} {r : Except Exn Unit} {m : Manifest} {t : Path}
    (hm : findManifest w id = some m) (hv : validate engine.root k = .ok t)
    (h : snapshot engine id k w = (r, w')) :
    (∃ e, r = .error e ∧ SameFiles w.disk w'.disk) ∨
    (r = .ok () ∧ (∃ m', findManifest w' id = some m') ∧ Grown w.disk w'.disk ∧
      (w.disk.isFile t = false → SameFiles w.disk w'.disk)) := by
  unfold snapshot at h
  rw [Prog.bind_of_ok (loadManifest_eq hm)] at h
  split at h
  · cases h
    exact Or.inr ⟨rfl, ⟨m, hm⟩, Grown.refl _, fun _ => SameFiles.refl _⟩
  rw [hv] at h
  rcases Prog.bind_cases h with ⟨e, he, _⟩ | ⟨t', w₁, ht, h⟩
  · cases he
  cases ht
  rw [Prog.bind_of_ok (Prog.gets_apply _ w)] at h
  rcases Prog.bind_cases h with ⟨e, he, rfl⟩ | ⟨_, w₁, hcopy, h⟩
  · left
    rcases Prog.whenever_cases he with ⟨_, hx⟩ | ⟨_, hx, _⟩
    · rcases copy_cases hx with hfailed | ⟨hno, _⟩
      · exact hfailed
      · cases hno
    · cases hx
  · have hw : findManifest w₁ id = some m ∧ Grown w.disk w₁.disk ∧
        (w.disk.isFile t = false → SameFiles w.disk w₁.disk) := by
      rcases Prog.whenever_cases hcopy with ⟨hfile, hx⟩ | ⟨_, _, rfl⟩
      · rcases copy_cases hx with ⟨_, hno, _⟩ | ⟨_, hfound, hgrown⟩
        · cases hno
        · refine ⟨(congrFun hfound id).trans hm, hgrown, fun hno => ?_⟩
          rw [hno] at hfile
          cases hfile
      · exact ⟨hm, Grown.refl _, fun _ => SameFiles.refl _⟩
    obtain ⟨hm₁, hgrown, hsame⟩ := hw
    obtain ⟨hr, hdisk, hfound⟩ := writeManifest_run hm₁ h rfl
    rw [hdisk]
    exact Or.inr ⟨hr, hfound, hgrown, hsame⟩

/-- Once it has begun, a transaction is recorded without fail. -/
theorem recordAfter_run {k : Text} {r : Except Exn Unit} {m : Manifest}
    (hm : findManifest w id = some m) (h : recordAfter engine id k w = (r, w')) :
    r = .ok () ∧ w'.disk = w.disk ∧ ∃ m', findManifest w' id = some m' := by
  unfold recordAfter at h
  rw [Prog.bind_of_ok (loadManifest_eq hm), Prog.bind_of_ok (Prog.gets_apply _ w)] at h
  exact writeManifest_run hm h rfl

theorem finalize_run {status : TransactionStatus} {error : String} {r : Except Exn Manifest}
    {m : Manifest} (hm : findManifest w id = some m)
    (h : finalize id status error w = (r, w')) : (∃ m', r = .ok m') ∧ w'.disk = w.disk := by
  unfold finalize at h
  rw [Prog.bind_of_ok (loadManifest_eq hm)] at h
  rcases Prog.bind_cases h with ⟨e, he, rfl⟩ | ⟨_, w₁, hok, h⟩
  · obtain ⟨hr, _⟩ := writeManifest_run hm he rfl
    cases hr
  · obtain ⟨_, hdisk, _⟩ := writeManifest_run hm hok rfl
    cases h
    exact ⟨⟨_, rfl⟩, hdisk⟩

end Transaction

/-! ## A tool that does not apply its edit -/

/-- A write goes where the sandbox let it, and nothing else is planned. -/
def PlanOk (root : Path) : Plan → Prop
  | .reply _ => True
  | .write path target _ _ => validate root path = .ok target
  | .move .. => False
  | .delete .. => False

section Tools

variable {r : Registry} {w w' : World}

/-- A transaction that is on record is closed without fail. -/
theorem recorded {stamp : Stamp} (path : Text) {m : Manifest}
    (hm : findManifest w stamp.id = some m) :
    ∃ w', (recordAfter r.engine stamp.id path >>= fun _ => finalize stamp.id .applied "" >>=
      fun _ => pure ()) w = ((.ok () : Except Exn Unit), w') := by
  cases hrun : (recordAfter r.engine stamp.id path >>= fun _ => finalize stamp.id .applied "" >>=
      fun _ => pure ()) w with
  | mk res w' =>
    rcases Prog.bind_cases hrun with ⟨_, hr, _⟩ | ⟨_, w₁, hr, hrun⟩
    · obtain ⟨hok, _⟩ := recordAfter_run hm hr
      cases hok
    · obtain ⟨_, _, m₁, hm₁⟩ := recordAfter_run hm hr
      rcases Prog.bind_cases hrun with ⟨_, hf, _⟩ | ⟨_, w₂, _, hrun⟩
      · obtain ⟨⟨_, hok⟩, _⟩ := finalize_run hm₁ hf
        cases hok
      · cases hrun
        exact ⟨_, rfl⟩

/-- A file that is there is written and recorded without fail. -/
theorem written {stamp : Stamp} (path content : Text) {target : Path} {m : Manifest}
    (hm : findManifest w stamp.id = some m) (hfile : w.disk.isFile target = true) :
    ∃ w', (onDisk (mkdirP target.parent) >>= fun _ => onDisk (writeText target content) >>=
      fun _ => recordAfter r.engine stamp.id path >>= fun _ => finalize stamp.id .applied "" >>=
        fun _ => pure ()) w = ((.ok () : Except Exn Unit), w') := by
  have hdir : w.disk.isDir target.parent = true :=
    Disk.isDir_dropLast (Disk.present_of_isFile hfile)
  have hclear : w.disk.isClear target.parent = true := Disk.isClear_of_isDir hdir
  rw [Prog.bind_of_ok (onDisk_eq (mkdirP_eq hclear))]
  have hfile' := (Grown.mkdirs hclear).file target hfile
  rw [Prog.bind_of_ok (onDisk_eq (writeText_of_isFile hfile' content))]
  exact recorded path (by rw [← hm, findManifest, findManifest])

/-- The disk and the record with which a transaction begins. -/
theorem begun {stamp : Stamp} {reason : Text} {operations : List Operation} {destructive : Bool}
    {w₁ : World}
    (h : beginTransaction r.engine stamp reason operations destructive w = (.ok (), w₁)) :
    (∃ m, findManifest w₁ stamp.id = some m) ∧ SameFiles w.disk w₁.disk ∧
      ∀ p, w.disk.isFile p = w₁.disk.isFile p := by
  obtain ⟨hc, rfl⟩ := beginTransaction_ok h
  have hsame := SameFiles.mkdirs hc
  refine ⟨findManifest_append rfl _, hsame, fun p => ?_⟩
  unfold Disk.isFile
  rw [hsame p]

/-- A transaction that fails has changed no file. -/
theorem commitWrite_error {stamp : Stamp} {path : Text} {target : Path} {content : Text}
    {create : Bool} {e : Exn} (hv : validate r.root path = .ok target)
    (h : r.commitWrite stamp path target content create w = (.error e, w')) :
    SameFiles w.disk w'.disk := by
  unfold Registry.commitWrite at h
  rcases Prog.bind_cases h with ⟨e', hb, _⟩ | ⟨_, w₁, hb, h⟩
  · exact fun q => by rw [(beginTransaction_error hb).1]
  obtain ⟨⟨m, hm⟩, hsame₁, hfiles⟩ := begun hb
  rcases Prog.bind_cases h with ⟨e', hs, _⟩ | ⟨_, w₂, hs, h⟩
  · rcases snapshot_cases hm hv hs with ⟨_, _, hsame⟩ | ⟨hr, _⟩
    · exact hsame₁.trans hsame
    · cases hr
  rcases snapshot_cases hm hv hs with ⟨_, hr, _⟩ | ⟨_, ⟨m₂, hm₂⟩, hgrown, hsame⟩
  · cases hr
  cases hfile : w₁.disk.isFile target with
  | true =>
    obtain ⟨w₃, hok⟩ := written (r := r) path content hm₂
      (hgrown.file target hfile)
    rw [hok] at h
    cases h
  | false =>
    have hsame₂ : SameFiles w.disk w₂.disk := hsame₁.trans (hsame hfile)
    rcases Prog.bind_cases h with ⟨e', hk, _⟩ | ⟨_, w₃, hk, h⟩
    · obtain ⟨d, hd, rfl⟩ := onDisk_cases hk
      rcases mkdirP_cases target.parent w₂.disk with ⟨hc₂, hok⟩ | ⟨_, e', herr⟩
      · rw [hok] at hd; cases hd
      · rw [herr] at hd; cases hd; exact hsame₂
    · obtain ⟨d, hd, rfl⟩ := onDisk_cases hk
      rcases mkdirP_cases target.parent w₂.disk with ⟨hc₂, hok⟩ | ⟨_, e', herr⟩
      · rw [hok] at hd
        obtain ⟨_, rfl⟩ := Prod.mk.inj hd
        rcases Prog.bind_cases h with ⟨e', hwr, _⟩ | ⟨_, w₄, hwr, h⟩
        · obtain ⟨d, hd, rfl⟩ := onDisk_cases hwr
          rcases writeBytes_cases target (encodeUtf8 content) (w₂.disk.mkdirs _ hc₂) with
            ⟨_, hok⟩ | ⟨_, e', herr⟩
          · rw [writeText, hok] at hd; cases hd
          · rw [writeText, herr] at hd; cases hd
            exact hsame₂.trans (SameFiles.mkdirs hc₂)
        · obtain ⟨d, _, rfl⟩ := onDisk_cases hwr
          obtain ⟨w₅, hok⟩ := recorded (r := r) path
            (w := { w₂ with disk := d }) (m := m₂) (by rw [← hm₂, findManifest, findManifest])
          rw [hok] at h
          cases h
      · rw [herr] at hd; cases hd

/-- The beginning of a write's transaction: the copy is kept. -/
def Registry.keepCopy (r : Registry) (stamp : Stamp) (path : Text) : Prog Exn World Unit := do
  beginTransaction r.engine stamp ("Agent write_file: ".toList ++ path)
    [Registry.operation .editFile path []] false
  snapshot r.engine stamp.id path

/-- Over a file that is there, a write goes through when its copy is kept. -/
theorem commitWrite_iff_kept {stamp : Stamp} {path : Text} {target : Path} {content : Text}
    (hv : validate r.root path = .ok target) (hfile : w.disk.isFile target = true) :
    (∃ w', r.commitWrite stamp path target content false w = (.ok (), w')) ↔
      ∃ w', r.keepCopy stamp path w = (.ok (), w') := by
  unfold Registry.commitWrite Registry.keepCopy
  constructor
  · intro hsome
    obtain ⟨w', h⟩ := hsome
    obtain ⟨_, w₁, hb, h⟩ := Prog.bind_ok.mp h
    obtain ⟨_, w₂, hs, _⟩ := Prog.bind_ok.mp h
    exact ⟨w₂, Prog.bind_ok.mpr ⟨(), w₁, hb, hs⟩⟩
  · intro hsome
    obtain ⟨w₂, h⟩ := hsome
    obtain ⟨_, w₁, hb, hs⟩ := Prog.bind_ok.mp h
    obtain ⟨⟨m, hm⟩, _, hfiles⟩ := begun hb
    rcases snapshot_cases hm hv hs with ⟨_, hr, _⟩ | ⟨_, ⟨m₂, hm₂⟩, hgrown, _⟩
    · cases hr
    · obtain ⟨w₃, hok⟩ := written (r := r) path content hm₂
        (hgrown.file target (hfiles target ▸ hfile))
      exact ⟨w₃, Prog.bind_ok.mpr ⟨(), w₁, hb, Prog.bind_ok.mpr ⟨(), w₂, hs, hok⟩⟩⟩

/-- **A tool that does not return ok has changed no file.** -/
theorem perform_not_ok {stamp : Stamp} {plan : FS → Except Exn Plan} {res : Except Exn Reply}
    (hplan : ∀ p, plan w.disk = .ok p → PlanOk r.root p)
    (h : r.perform stamp plan w = (res, w')) (hno : ∀ reply, res = .ok reply → reply.ok = false) :
    SameFiles w.disk w'.disk := by
  unfold Registry.perform at h
  rcases Prog.read_bind h with ⟨e, _, _, rfl⟩ | ⟨p, hp, h⟩
  · exact SameFiles.refl _
  have hpok := hplan p hp
  cases p with
  | reply reply => cases h; exact SameFiles.refl _
  | write path target content create =>
    unfold Registry.carryOut at h
    rcases Prog.bind_cases h with ⟨e, he, _⟩ | ⟨answer, w₁, ha, h⟩
    · cases he
    have hdisk : w₁.disk = w.disk := by cases ha; rfl
    cases answer with
    | false =>
      cases h
      exact fun q => by rw [hdisk]
    | true =>
      rw [← hdisk]
      rcases Prog.bind_cases h with ⟨e, hc, _⟩ | ⟨_, w₂, _, h⟩
      · exact commitWrite_error hpok hc
      · cases h
        cases hno _ rfl
  | move => exact hpok.elim
  | delete => exact hpok.elim

/-- What is checked is where the sandbox let it. -/
theorem PlanOk.of_onlyWrites {d : FS} {p : Plan} (h : r.OnlyWrites d p) : PlanOk r.root p := by
  cases p with
  | reply => trivial
  | write => exact Registry.Checked.target h
  | move => exact h.elim
  | delete => exact h.elim

end Tools

end Shamsu.Tools
