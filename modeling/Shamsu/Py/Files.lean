import Shamsu.Lib.Prog
import Shamsu.Lib.Disk
import Shamsu.Py.Path

/-!
# Python file operations

`pathlib`, `open` and `shutil` on the disk of `Shamsu.Lib.Disk`: each operation
is a program that either does the whole change or raises and changes nothing,
and has one `_cases` lemma saying so. The names are Python's.

What is left out is what the disk does not have: symbolic links, permissions,
name-length limits and a second writer.
-/

namespace Shamsu.Py

open Shamsu.Lib

/-- The files of a machine. -/
abbrev FS := Disk Text Bytes

/-! ## Exceptions -/

inductive ErrorKind where
  | diffValidation | changeRequest | mutationSafety | security | value | unicodeDecode
  | fileNotFound | fileExists | isADirectory | notADirectory | directoryNotEmpty
  | shutilError | sameFile
  deriving DecidableEq, Repr

/-- `type(exc).__name__`. -/
def ErrorKind.className : ErrorKind → String
  | diffValidation => "DiffValidationError"
  | changeRequest => "ChangeRequestError"
  | mutationSafety => "MutationSafetyError"
  | security => "SecurityError"
  | value => "ValueError"
  | unicodeDecode => "UnicodeDecodeError"
  | fileNotFound => "FileNotFoundError"
  | fileExists => "FileExistsError"
  | isADirectory => "IsADirectoryError"
  | notADirectory => "NotADirectoryError"
  | directoryNotEmpty => "OSError"
  | shutilError => "Error"
  | sameFile => "SameFileError"

/-- The subclasses of `OSError`. -/
def ErrorKind.isOSError : ErrorKind → Bool
  | fileNotFound | fileExists | isADirectory | notADirectory | directoryNotEmpty
  | shutilError | sameFile => true
  | _ => false

/-- An exception: its class and `str(exc)`. -/
structure Exn where
  kind : ErrorKind
  message : String
  deriving DecidableEq, Repr

namespace Exn

def fileNotFound (p : Path) : Exn :=
  ⟨.fileNotFound, s!"[Errno 2] No such file or directory: '{str p.text}'"⟩

def fileExists (p : Path) : Exn := ⟨.fileExists, s!"[Errno 17] File exists: '{str p.text}'"⟩

def notADirectory (p : Path) : Exn :=
  ⟨.notADirectory, s!"[Errno 20] Not a directory: '{str p.text}'"⟩

def isADirectory (p : Path) : Exn :=
  ⟨.isADirectory, s!"[Errno 21] Is a directory: '{str p.text}'"⟩

def directoryNotEmpty (p : Path) : Exn :=
  ⟨.directoryNotEmpty, s!"[Errno 39] Directory not empty: '{str p.text}'"⟩

def sameFile (p q : Path) : Exn :=
  ⟨.sameFile, s!"'{str p.text}' and '{str q.text}' are the same file"⟩

def destinationExists (p : Path) : Exn :=
  ⟨.shutilError, s!"Destination path '{str p.text}' already exists"⟩

def moveIntoItself (p q : Path) : Exn :=
  ⟨.shutilError, s!"Cannot move a directory '{str p.text}' into itself '{str q.text}'."⟩

/-- The strict decoder's. -/
def unicodeDecode : Exn := ⟨.unicodeDecode, "'utf-8' codec can't decode bytes"⟩

/-- Looking up `p`, which does not exist, fails at a file on the way or at the
first name that is missing. -/
def lookup (d : FS) (p : Path) : Exn :=
  if d.isClear p.parent then fileNotFound p else notADirectory p

end Exn

/-! ## Operations -/

abbrev FSProg (α : Type) := Prog Exn FS α

/-- `path.read_bytes()`. -/
def readBytesOf (d : FS) (p : Path) : Except Exn Bytes :=
  match d.content p with
  | some b => .ok b
  | none => .error (if d.isDir p then .isADirectory p else .lookup d p)

/-- `path.read_text(encoding="utf-8")`. -/
def readTextOf (d : FS) (p : Path) : Except Exn Text := do
  let b ← readBytesOf d p
  match decodeUtf8 b with
  | some t => .ok (translateNewlines t)
  | none => .error .unicodeDecode

def readText (p : Path) : FSProg Text := Prog.read fun d => readTextOf d p

/-- `path.write_bytes(b)`. -/
def writeBytes (p : Path) (b : Bytes) : FSProg Unit := Prog.attempt fun d =>
  if h : d.canPut p then .ok (d.put p b h)
  else .error (if d.isDir p then .isADirectory p else .lookup d p)

/-- `path.write_text(t, encoding="utf-8")`. -/
def writeText (p : Path) (t : Text) : FSProg Unit := writeBytes p (encodeUtf8 t)

/-- `path.unlink()`. -/
def unlink (p : Path) : FSProg Unit := Prog.attempt fun d =>
  if h : d.isFile p then .ok (d.drop p h)
  else .error (if d.isDir p then .isADirectory p else .lookup d p)

/-- `path.mkdir(parents=True, exist_ok=True)`. -/
def mkdirP (p : Path) : FSProg Unit := Prog.attempt fun d =>
  if h : d.isClear p then .ok (d.mkdirs p h)
  else .error (if d.isFile p then .fileExists p else .notADirectory p)

/-- `path.rmdir()`. -/
def rmdir (p : Path) : FSProg Unit := Prog.attempt fun d =>
  if h : d.canRmdir p then .ok (d.rmdir p h)
  else .error (if d.isDir p then .directoryNotEmpty p
    else if d.isFile p then .notADirectory p else .lookup d p)

/-- Where `shutil.copy2(src, dst)` writes: a directory takes the file in. -/
def copyTarget (d : FS) (src dst : Path) : Path :=
  if d.isDir dst then dst ++ [src.name] else dst

/-- `shutil.copyfile(src, dst)`. -/
def copyfile (src dst : Path) : FSProg Unit := Prog.attempt fun d =>
  if dst = src ∧ d.present src then .error (.sameFile src dst)
  else do
    let b ← readBytesOf d src
    if h : d.canPut dst then .ok (d.put dst b h)
    else .error (if d.isDir dst then .isADirectory dst else .lookup d dst)

/-- `shutil.copy2(src, dst)`. -/
def copy2 (src dst : Path) : FSProg Unit := fun d => copyfile src (copyTarget d src dst) d

/-- `shutil.move(src, dst)`. A directory takes `src` in unless it has the name
already; a file replaces a file. The callers make the parent of `dst` first, so
what `shutil` does for a directory whose new parent is missing is left out. -/
def move (src dst : Path) : FSProg Unit := Prog.attempt fun d =>
  if src = dst then .ok d
  else
    let real := if d.isDir dst then dst ++ [src.name] else dst
    if d.isDir dst && d.present real then .error (.destinationExists real)
    else if h : d.canGraft src real then .ok (d.graft src real h)
    else .error
      (if d.isDir src then
        if src <+: dst then .moveIntoItself src dst else .fileExists real
      else if d.isFile src then .lookup d real else .lookup d src)

/-! ## What an operation can do -/

theorem readBytesOf_ok {d : FS} {p : Path} {b : Bytes} :
    readBytesOf d p = .ok b ↔ d.content p = some b := by
  unfold readBytesOf
  split
  next b' h => rw [h]; simp
  next h => rw [h]; simp

/-- A text read is the decoded file with its newlines translated. -/
theorem readTextOf_ok {d : FS} {p : Path} {t : Text} :
    readTextOf d p = .ok t ↔
      ∃ u, d.content p = some (encodeUtf8 u) ∧ translateNewlines u = t := by
  unfold readTextOf
  cases hb : readBytesOf d p with
  | error e =>
    have hnone : ∀ b, d.content p ≠ some b := fun b hc => by
      rw [readBytesOf_ok.mpr hc] at hb; simp at hb
    constructor
    · intro h; simp [bind, Except.bind] at h
    · rintro ⟨u, hu, _⟩; exact absurd hu (hnone _)
  | ok b =>
    rw [readBytesOf_ok.mp hb]
    simp only [bind, Except.bind, Option.some.injEq]
    split
    next u hu =>
      rw [decodeUtf8_iff] at hu
      subst hu
      constructor
      · intro h; exact ⟨u, rfl, by simpa using h⟩
      · intro hsome
        obtain ⟨v, hv, rfl⟩ := hsome
        rw [encodeUtf8_injective hv]
    next hn =>
      constructor
      · intro h; simp at h
      · rintro ⟨v, hv, _⟩; rw [decodeUtf8_iff.mpr hv.symm] at hn; simp at hn

theorem writeBytes_cases (p : Path) (b : Bytes) (d : FS) :
    (∃ h, writeBytes p b d = (.ok (), d.put p b h)) ∨
    (d.canPut p = false ∧ ∃ e, writeBytes p b d = (.error e, d)) := by
  by_cases h : d.canPut p = true
  · exact Or.inl ⟨h, by simp [writeBytes, Prog.attempt, h]⟩
  · exact Or.inr ⟨by simpa using h, _, by simp only [writeBytes, Prog.attempt, dif_neg h]; rfl⟩

theorem unlink_cases (p : Path) (d : FS) :
    (∃ h, unlink p d = (.ok (), d.drop p h)) ∨
    (d.isFile p = false ∧ ∃ e, unlink p d = (.error e, d)) := by
  by_cases h : d.isFile p = true
  · exact Or.inl ⟨h, by simp [unlink, Prog.attempt, h]⟩
  · exact Or.inr ⟨by simpa using h, _, by simp only [unlink, Prog.attempt, dif_neg h]; rfl⟩

theorem mkdirP_cases (p : Path) (d : FS) :
    (∃ h, mkdirP p d = (.ok (), d.mkdirs p h)) ∨
    (d.isClear p = false ∧ ∃ e, mkdirP p d = (.error e, d)) := by
  by_cases h : d.isClear p = true
  · exact Or.inl ⟨h, by simp [mkdirP, Prog.attempt, h]⟩
  · exact Or.inr ⟨by simpa using h, _, by simp only [mkdirP, Prog.attempt, dif_neg h]; rfl⟩

theorem copyfile_cases (src dst : Path) (d : FS) :
    (∃ b h, dst ≠ src ∧ d.content src = some b ∧
      copyfile src dst d = (.ok (), d.put dst b h)) ∨
    ∃ e, copyfile src dst d = (.error e, d) := by
  unfold copyfile Prog.attempt
  by_cases hs : dst = src ∧ d.present src = true
  · exact Or.inr ⟨.sameFile src dst, by simp only [if_pos hs]⟩
  · simp only [if_neg hs]
    cases hb : readBytesOf d src with
    | error e => exact Or.inr ⟨e, rfl⟩
    | ok b =>
      have hc := readBytesOf_ok.mp hb
      have hne : dst ≠ src := fun e =>
        hs ⟨e, Disk.present_of_isFile (Disk.isFile_iff.mpr ⟨b, hc⟩)⟩
      by_cases hp : d.canPut dst = true
      · exact Or.inl ⟨b, hp, hne, hc, by simp only [bind, Except.bind, dif_pos hp]⟩
      · exact Or.inr ⟨_, by simp only [bind, Except.bind, dif_neg hp]; rfl⟩

theorem copy2_cases (src dst : Path) (d : FS) :
    (∃ b h, copyTarget d src dst ≠ src ∧ d.content src = some b ∧
      copy2 src dst d = (.ok (), d.put (copyTarget d src dst) b h)) ∨
    ∃ e, copy2 src dst d = (.error e, d) := copyfile_cases src (copyTarget d src dst) d

/-- A file is copied to a path that can be written. -/
theorem copy2_eq {src dst : Path} {d : FS} {b : Bytes} (hb : d.content src = some b)
    (hne : dst ≠ src) (hput : d.canPut dst = true) :
    copy2 src dst d = (.ok (), d.put dst b hput) := by
  have hdir : d.isDir dst = false := by simp [Disk.canPut] at hput; exact hput.2
  have htarget : copyTarget d src dst = dst := by
    unfold copyTarget; rw [if_neg (by rw [hdir]; simp)]
  unfold copy2
  rw [htarget]
  simp [copyfile, Prog.attempt, hne, readBytesOf_ok.mpr hb, hput, bind, Except.bind]

theorem mkdirP_eq {p : Path} {d : FS} (h : d.isClear p = true) :
    mkdirP p d = (.ok (), d.mkdirs p h) := by
  simp [mkdirP, Prog.attempt, h]

theorem unlink_eq {p : Path} {d : FS} (h : d.isFile p = true) :
    unlink p d = (.ok (), d.drop p h) := by
  simp [unlink, Prog.attempt, h]

theorem rmdir_eq {p : Path} {d : FS} (h : d.canRmdir p = true) :
    rmdir p d = (.ok (), d.rmdir p h) := by
  simp [rmdir, Prog.attempt, h]

/-- Where `shutil.move(src, dst)` puts what it moves. -/
def moveTarget (d : FS) (src dst : Path) : Path :=
  if d.isDir dst then dst ++ [src.name] else dst

theorem move_cases (src dst : Path) (d : FS) :
    (src = dst ∧ move src dst d = (.ok (), d)) ∨
    (∃ h, src ≠ dst ∧ (d.isDir dst = true → d.present (moveTarget d src dst) = false) ∧
      move src dst d = (.ok (), d.graft src (moveTarget d src dst) h)) ∨
    ∃ e, move src dst d = (.error e, d) := by
  unfold move Prog.attempt moveTarget
  by_cases hs : src = dst
  · exact Or.inl ⟨hs, by simp [hs]⟩
  · refine Or.inr ?_
    simp only [if_neg hs]
    generalize hreal : (if d.isDir dst = true then dst ++ [src.name] else dst) = real
    by_cases hex : (d.isDir dst && d.present real) = true
    · exact Or.inr ⟨_, by simp only [if_pos hex]; rfl⟩
    · simp only [if_neg hex]
      by_cases hg : d.canGraft src real = true
      · exact Or.inl ⟨hg, hs, by simpa using hex, by simp only [dif_pos hg]⟩
      · exact Or.inr ⟨_, by simp only [dif_neg hg]; rfl⟩

theorem copyTarget_eq (d : FS) (src dst : Path) : ∃ s, copyTarget d src dst = dst ++ s := by
  unfold copyTarget
  split
  · exact ⟨[src.name], rfl⟩
  · exact ⟨[], (List.append_nil _).symm⟩

theorem moveTarget_eq (d : FS) (src dst : Path) : ∃ s, moveTarget d src dst = dst ++ s :=
  copyTarget_eq d src dst

/-! ## What a call keeps, whether it fails or not -/

section Keeps

variable {R : FS → FS → Prop} [Std.Refl R] {p src dst : Path}

theorem mkdirP_keeps (h : ∀ d hc, R d (d.mkdirs p hc)) : Prog.Keeps R (mkdirP p) := by
  intro d
  rcases mkdirP_cases p d with ⟨hc, hok⟩ | ⟨_, e, herr⟩
  · rw [hok]; exact h d hc
  · rw [herr]; exact Std.Refl.refl d

theorem writeText_keeps {t : Text} (h : ∀ d hp, R d (d.put p (encodeUtf8 t) hp)) :
    Prog.Keeps R (writeText p t) := by
  intro d
  unfold writeText
  rcases writeBytes_cases p (encodeUtf8 t) d with ⟨hp, hok⟩ | ⟨_, e, herr⟩
  · rw [hok]; exact h d hp
  · rw [herr]; exact Std.Refl.refl d

theorem unlink_keeps (h : ∀ d hf, R d (d.drop p hf)) : Prog.Keeps R (unlink p) := by
  intro d
  rcases unlink_cases p d with ⟨hf, hok⟩ | ⟨_, e, herr⟩
  · rw [hok]; exact h d hf
  · rw [herr]; exact Std.Refl.refl d

/-- A copy may land in a directory of the name. -/
theorem copy2_keeps (h : ∀ d s b hp, R d (d.put (dst ++ s) b hp)) :
    Prog.Keeps R (copy2 src dst) := by
  intro d
  obtain ⟨s, hs⟩ := copyTarget_eq d src dst
  rcases copy2_cases src dst d with ⟨b, hp, _, _, hok⟩ | ⟨e, herr⟩
  · rw [hok]
    simp only [hs] at hp ⊢
    exact h d s b hp
  · rw [herr]; exact Std.Refl.refl d

/-- So may a move. -/
theorem move_keeps (h : ∀ d s hg, R d (d.graft src (dst ++ s) hg)) :
    Prog.Keeps R (move src dst) := by
  intro d
  obtain ⟨s, hs⟩ := moveTarget_eq d src dst
  rcases move_cases src dst d with ⟨_, hok⟩ | ⟨hg, _, _, hok⟩ | ⟨e, herr⟩
  · rw [hok]; exact Std.Refl.refl d
  · rw [hok]
    simp only [hs] at hg ⊢
    exact h d s hg
  · rw [herr]; exact Std.Refl.refl d

end Keeps

end Shamsu.Py
