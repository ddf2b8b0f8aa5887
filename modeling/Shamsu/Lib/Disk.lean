import Mathlib

/-!
# A disk: a tree of files and directories

A disk maps paths (lists of names, the root being `[]`) to files and
directories. It is a tree by construction: the root is a directory and whatever
exists hangs in one (`closed`). So the operations ask for what a file system
checks (`canPut`, `isClear`, `canGraft`, …) and an orphan cannot be built.
`support` enumerates the paths that exist, so a directory can be listed and
tested for emptiness; `mem_support` keeps it complete.

The disk also remembers what was done to its files: every write of a file
appends a `put` to `log`, every removal a `drop`. The log is an observation
device, no operation reads it. `Footprint` says what it is good for: between
two states of a run, a file whose existence or content differs lies at or under
a path the log mentions.
-/

namespace Shamsu.Lib

/-- What is found at a path. -/
inductive Node (β : Type) where
  | file (content : β)
  | dir
  deriving DecidableEq, Repr

/-- A change to the files of a disk. -/
inductive Effect (ν : Type) where
  | put (path : List ν)
  | drop (path : List ν)
  deriving DecidableEq, Repr

/-- The path an effect is about. -/
def Effect.path {ν : Type} : Effect ν → List ν
  | .put p => p
  | .drop p => p

/-- Files and directories by path, with the list of paths that may exist and
the effects so far. -/
structure Disk (ν β : Type) where
  get : List ν → Option (Node β)
  support : List (List ν)
  mem_support : ∀ p, (get p).isSome = true → p ∈ support
  root : get [] = some .dir
  closed : ∀ p, (get p).isSome = true → get p.dropLast = some .dir
  log : List (Effect ν)

namespace Disk

variable {ν β : Type}

/-- The content of the file at `p`, `none` when there is no file there. -/
def content (d : Disk ν β) (p : List ν) : Option β :=
  match d.get p with
  | some (.file b) => some b
  | _ => none

def isFile (d : Disk ν β) (p : List ν) : Bool := (d.content p).isSome

def isDir (d : Disk ν β) (p : List ν) : Bool :=
  match d.get p with
  | some .dir => true
  | _ => false

def present (d : Disk ν β) (p : List ν) : Bool := (d.get p).isSome

theorem content_congr {d d' : Disk ν β} {p : List ν} (h : d'.get p = d.get p) :
    d'.content p = d.content p := by
  unfold content; rw [h]

theorem isDir_congr {d d' : Disk ν β} {p : List ν} (h : d'.get p = d.get p) :
    d'.isDir p = d.isDir p := by
  unfold isDir; rw [h]

theorem content_eq_some {d : Disk ν β} {p : List ν} {b : β} :
    d.content p = some b ↔ d.get p = some (.file b) := by
  unfold content
  split
  next b' h => rw [h]; simp
  next h =>
    constructor
    · intro h'; simp at h'
    · intro h'; exact absurd h' (h b)

theorem content_eq_none_of_get {d : Disk ν β} {p : List ν} (h : d.get p = none) :
    d.content p = none := by
  unfold content; rw [h]

theorem isFile_iff {d : Disk ν β} {p : List ν} :
    d.isFile p = true ↔ ∃ b, d.content p = some b := Option.isSome_iff_exists

theorem isFile_eq_false {d : Disk ν β} {p : List ν} :
    d.isFile p = false ↔ d.content p = none := by
  unfold isFile; simp

theorem isDir_iff {d : Disk ν β} {p : List ν} : d.isDir p = true ↔ d.get p = some .dir := by
  unfold isDir
  split
  next h => simp [h]
  next h => simp; exact fun h' => h h'

theorem isDir_eq_false {d : Disk ν β} {p : List ν} :
    d.isDir p = false ↔ d.get p ≠ some .dir := by
  rw [← Bool.not_eq_true, isDir_iff]

theorem isDir_root (d : Disk ν β) : d.isDir [] = true := isDir_iff.mpr d.root

theorem content_eq_none_of_isDir {d : Disk ν β} {p : List ν} (h : d.isDir p = true) :
    d.content p = none := by
  unfold content; rw [isDir_iff.mp h]

theorem isDir_eq_false_of_content {d : Disk ν β} {p : List ν} {b : β}
    (h : d.content p = some b) : d.isDir p = false := by
  rw [isDir_eq_false, content_eq_some.mp h]; simp

theorem present_of_isFile {d : Disk ν β} {p : List ν} (h : d.isFile p = true) :
    d.present p = true := by
  obtain ⟨b, hb⟩ := isFile_iff.mp h
  unfold present; rw [content_eq_some.mp hb]; rfl

theorem present_of_isDir {d : Disk ν β} {p : List ν} (h : d.isDir p = true) :
    d.present p = true := by
  unfold present; rw [isDir_iff.mp h]; rfl

theorem present_eq_false {d : Disk ν β} {p : List ν} :
    d.present p = false ↔ d.get p = none := by
  unfold present; simp

theorem isFile_eq_false_of_isDir {d : Disk ν β} {p : List ν} (h : d.isDir p = true) :
    d.isFile p = false := isFile_eq_false.mpr (content_eq_none_of_isDir h)

/-- A path that exists is a file or a directory. -/
theorem isFile_or_isDir {d : Disk ν β} {p : List ν} (h : d.present p = true) :
    d.isFile p = true ∨ d.isDir p = true := by
  unfold present at h
  obtain ⟨n, hn⟩ := Option.isSome_iff_exists.mp h
  cases n with
  | file b => exact Or.inl (isFile_iff.mpr ⟨b, content_eq_some.mpr hn⟩)
  | dir => exact Or.inr (isDir_iff.mpr hn)

theorem isFile_of_present {d : Disk ν β} {p : List ν} (h : d.present p = true)
    (hd : d.isDir p = false) : d.isFile p = true := by
  rcases isFile_or_isDir h with hf | hd'
  · exact hf
  · rw [hd] at hd'; exact absurd hd' (by simp)

/-! ## The tree -/

theorem isDir_dropLast {d : Disk ν β} {p : List ν} (h : d.present p = true) :
    d.isDir p.dropLast = true := isDir_iff.mpr (d.closed p h)

/-- Above what exists there are only directories. -/
theorem isDir_of_append {d : Disk ν β} {p t : List ν} (ht : t ≠ [])
    (h : d.present (p ++ t) = true) : d.isDir p = true := by
  induction t using List.reverseRecOn with
  | nil => exact absurd rfl ht
  | append_singleton t n ih =>
    have hd := isDir_dropLast h
    rw [← List.append_assoc, List.dropLast_concat] at hd
    cases t with
    | nil => simpa using hd
    | cons a t => exact ih (by simp) (present_of_isDir hd)

theorem isDir_above {d : Disk ν β} {p q : List ν} (hpq : p <+: q) (hne : p ≠ q)
    (h : d.present q = true) : d.isDir p = true := by
  obtain ⟨t, rfl⟩ := hpq
  exact isDir_of_append (by rintro rfl; simp at hne) h

/-- Nothing is below what is not a directory. -/
theorem get_eq_none_below {d : Disk ν β} {p q : List ν} (hpq : p <+: q) (hne : p ≠ q)
    (h : d.isDir p = false) : d.get q = none := by
  rw [← present_eq_false]
  cases hq : d.present q with
  | false => rfl
  | true => rw [isDir_above hpq hne hq] at h; exact absurd h (by simp)

theorem ne_nil_of_isDir_eq_false {d : Disk ν β} {p : List ν} (h : d.isDir p = false) : p ≠ [] := by
  rintro rfl; rw [isDir_root] at h; exact absurd h (by simp)

/-- No file is in the way of a directory `p`. -/
def isClear (d : Disk ν β) (p : List ν) : Bool := p.inits.all fun q => !d.isFile q

theorem isClear_iff {d : Disk ν β} {p : List ν} :
    d.isClear p = true ↔ ∀ q, q <+: p → d.isFile q = false := by
  simp [isClear]

/-- Nothing is in the way of a directory that exists. -/
theorem isClear_of_isDir {d : Disk ν β} {p : List ν} (h : d.isDir p = true) :
    d.isClear p = true := by
  rw [isClear_iff]
  intro q hq
  by_cases hqp : q = p
  · rw [hqp]; exact isFile_eq_false_of_isDir h
  · exact isFile_eq_false_of_isDir (isDir_above hq hqp (present_of_isDir h))

/-! ## Footprints -/

/-- Between `d` and `d'` the log only grew, by effects in `A`, and every file
whose existence or content differs lies at or under a path of the new entries. -/
def Footprint (A : Effect ν → Prop) (d d' : Disk ν β) : Prop :=
  ∃ l, d'.log = d.log ++ l ∧ (∀ e ∈ l, A e) ∧
    ∀ p, d'.content p ≠ d.content p → ∃ e ∈ l, e.path <+: p

namespace Footprint

variable {A : Effect ν → Prop}

theorem refl (d : Disk ν β) : Footprint A d d :=
  ⟨[], by simp, by simp, fun _ h => absurd rfl h⟩

theorem trans {a b c : Disk ν β} (h₁ : Footprint A a b) (h₂ : Footprint A b c) :
    Footprint A a c := by
  obtain ⟨l₁, e₁, a₁, c₁⟩ := h₁
  obtain ⟨l₂, e₂, a₂, c₂⟩ := h₂
  refine ⟨l₁ ++ l₂, by rw [e₂, e₁, List.append_assoc], ?_, fun p hp => ?_⟩
  · intro e he
    exact (List.mem_append.mp he).elim (a₁ e) (a₂ e)
  · by_cases hb : c.content p = b.content p
    · obtain ⟨e, he, hpre⟩ := c₁ p (by rwa [hb] at hp)
      exact ⟨e, List.mem_append_left _ he, hpre⟩
    · obtain ⟨e, he, hpre⟩ := c₂ p hb
      exact ⟨e, List.mem_append_right _ he, hpre⟩

theorem mono {B : Effect ν → Prop} {d d' : Disk ν β} (h : Footprint A d d')
    (hAB : ∀ e, A e → B e) : Footprint B d d' := by
  obtain ⟨l, e, a, c⟩ := h
  exact ⟨l, e, fun x hx => hAB x (a x hx), c⟩

/-- A new entry of the log is one of the effects. -/
theorem mem {d d' : Disk ν β} {l : List (Effect ν)} (h : Footprint A d d')
    (hl : d'.log = d.log ++ l) {e : Effect ν} (he : e ∈ l) : A e := by
  obtain ⟨l', e', a', _⟩ := h
  have : l = l' := List.append_cancel_left (hl.symm.trans e')
  exact a' e (this ▸ he)

end Footprint

section Operations

variable [DecidableEq ν]

/-- The disk with nothing on it. -/
def empty : Disk ν β where
  get := fun p => if p = [] then some .dir else none
  support := [[]]
  mem_support := by intro p; simp
  root := by simp
  closed := by intro p hp; by_cases h : p = [] <;> simp_all
  log := []

/-- A file can be written at `p`: it has a directory to be in and is none. -/
def canPut (d : Disk ν β) (p : List ν) : Bool := d.isDir p.dropLast && !d.isDir p

/-- No path strictly below `p` exists. -/
def isBare (d : Disk ν β) (p : List ν) : Bool :=
  d.support.all fun q => !(p.isPrefixOf q && q != p && d.present q)

/-- The empty directory `p` can go. -/
def canRmdir (d : Disk ν β) (p : List ν) : Bool := d.isDir p && !p.isEmpty && d.isBare p

/-- What is at `src` can be renamed to `dst`: a file may take a file's place. -/
def canGraft (d : Disk ν β) (src dst : List ν) : Bool :=
  !src.isEmpty && !src.isPrefixOf dst && d.isDir dst.dropLast
    && (!d.present dst || (d.isFile dst && d.isFile src))

/-- Nothing is moved into itself, or over a directory. -/
theorem of_canGraft {d : Disk ν β} {src dst : List ν} (h : d.canGraft src dst = true) :
    ¬ src <+: dst ∧ d.isDir dst = false := by
  simp only [canGraft, Bool.and_eq_true, Bool.not_eq_true', Bool.or_eq_true] at h
  obtain ⟨⟨⟨_, hsd⟩, _⟩, hfree⟩ := h
  constructor
  · rw [← Bool.not_eq_true, List.isPrefixOf_iff_prefix] at hsd
    exact hsd
  · cases hd : d.isDir dst with
    | false => rfl
    | true =>
      rw [present_of_isDir hd, isFile_eq_false_of_isDir hd] at hfree
      simp at hfree

/-- The file `p` now holds `b`. -/
def put (d : Disk ν β) (p : List ν) (b : β) (h : d.canPut p = true) : Disk ν β where
  get := fun q => if q = p then some (.file b) else d.get q
  support := p :: d.support
  mem_support := by
    intro q hq
    by_cases hp : q = p
    · rw [hp]; exact List.mem_cons_self ..
    · rw [if_neg hp] at hq; exact List.mem_cons_of_mem _ (d.mem_support q hq)
  root := by
    have hp : d.isDir p = false := by simp [canPut] at h; exact h.2
    rw [if_neg (ne_nil_of_isDir_eq_false hp).symm]; exact d.root
  closed := by
    have hd : d.isDir p.dropLast = true := by simp [canPut] at h; exact h.1
    have hp : d.isDir p = false := by simp [canPut] at h; exact h.2
    intro q hq
    have hq' : d.get q.dropLast = some .dir := by
      by_cases hqp : q = p
      · rw [hqp]; exact isDir_iff.mp hd
      · rw [if_neg hqp] at hq; exact d.closed q hq
    rw [if_neg, hq']
    intro e; rw [e] at hq'
    exact isDir_eq_false.mp hp hq'
  log := d.log ++ [.put p]

/-- The file `p` is gone. -/
def drop (d : Disk ν β) (p : List ν) (h : d.isFile p = true) : Disk ν β where
  get := fun q => if q = p then none else d.get q
  support := d.support
  mem_support := by
    intro q hq
    by_cases hp : q = p
    · rw [if_pos hp] at hq; simp at hq
    · rw [if_neg hp] at hq; exact d.mem_support q hq
  root := by
    rw [if_neg, d.root]
    rintro rfl; rw [isFile_eq_false_of_isDir d.isDir_root] at h; exact absurd h (by simp)
  closed := by
    intro q hq
    by_cases hp : q = p
    · rw [if_pos hp] at hq; simp at hq
    · rw [if_neg hp] at hq
      rw [if_neg, d.closed q hq]
      intro e
      rw [isFile_eq_false_of_isDir (e ▸ isDir_dropLast hq)] at h
      exact absurd h (by simp)
  log := d.log ++ [.drop p]

/-- `p` and everything above it are directories. Directories are not files: the
log is unchanged. -/
def mkdirs (d : Disk ν β) (p : List ν) (_h : d.isClear p = true) : Disk ν β where
  get := fun q => if q <+: p then some .dir else d.get q
  support := p.inits ++ d.support
  mem_support := by
    intro q hq
    by_cases hp : q <+: p
    · exact List.mem_append_left _ ((List.mem_inits _ _).mpr hp)
    · rw [if_neg hp] at hq; exact List.mem_append_right _ (d.mem_support q hq)
  root := by rw [if_pos (List.nil_prefix)]
  closed := by
    intro q hq
    by_cases hp : q.dropLast <+: p
    · rw [if_pos hp]
    · have hqp : ¬ q <+: p := fun h => hp ((List.dropLast_prefix q).trans h)
      rw [if_neg hqp] at hq
      rw [if_neg hp, d.closed q hq]
  log := d.log

theorem get_eq_none_of_isBare {d : Disk ν β} {p q : List ν} (h : d.isBare p = true)
    (hpq : p <+: q) (hne : q ≠ p) : d.get q = none := by
  rw [← present_eq_false]
  cases hq : d.present q with
  | false => rfl
  | true =>
    have := List.all_eq_true.mp h q (d.mem_support q hq)
    rw [List.isPrefixOf_iff_prefix.mpr hpq, hq] at this
    simp [hne] at this

/-- The empty directory `p` is gone. -/
def rmdir (d : Disk ν β) (p : List ν) (h : d.canRmdir p = true) : Disk ν β where
  get := fun q => if q = p then none else d.get q
  support := d.support
  mem_support := by
    intro q hq
    by_cases hp : q = p
    · rw [if_pos hp] at hq; simp at hq
    · rw [if_neg hp] at hq; exact d.mem_support q hq
  root := by
    have hp : p ≠ [] := by rintro rfl; simp [canRmdir] at h
    rw [if_neg hp.symm, d.root]
  closed := by
    have hb : d.isBare p = true := by simp [canRmdir] at h; exact h.2
    intro q hq
    by_cases hp : q = p
    · rw [if_pos hp] at hq; simp at hq
    · rw [if_neg hp] at hq
      rw [if_neg, d.closed q hq]
      intro e
      rw [get_eq_none_of_isBare hb (e ▸ List.dropLast_prefix q) hp] at hq
      simp at hq
  log := d.log

/-- The path `q` of the source tree, seen from `dst` after a move from `src`. -/
def relocate (src dst q : List ν) : List ν := dst ++ q.drop src.length

/-- The tree at `src` hangs at `dst` now, and nothing is left at `src`. -/
def graft (d : Disk ν β) (src dst : List ν) (h : d.canGraft src dst = true) : Disk ν β where
  get := fun q =>
    if dst <+: q then d.get (src ++ q.drop dst.length)
    else if src <+: q then none
    else d.get q
  support := (d.support.filter src.isPrefixOf).map (relocate src dst) ++ d.support
  mem_support := by
    intro q hq
    by_cases hd : dst <+: q
    · rw [if_pos hd] at hq
      obtain ⟨t, rfl⟩ := hd
      rw [List.drop_left] at hq
      refine List.mem_append_left _ (List.mem_map.mpr ⟨src ++ t, ?_, by simp [relocate]⟩)
      exact List.mem_filter.mpr ⟨d.mem_support _ hq,
        List.isPrefixOf_iff_prefix.mpr (List.prefix_append ..)⟩
    · rw [if_neg hd] at hq
      split at hq
      · simp at hq
      · exact List.mem_append_right _ (d.mem_support q hq)
  root := by
    simp only [canGraft, Bool.and_eq_true, Bool.not_eq_true', List.isEmpty_eq_false_iff] at h
    obtain ⟨⟨⟨hs, _⟩, _⟩, hor⟩ := h
    have hdst : dst ≠ [] := by
      intro heq
      subst heq
      rw [present_of_isDir d.isDir_root, isFile_eq_false_of_isDir d.isDir_root] at hor
      simp at hor
    rw [if_neg (by simpa using hdst), if_neg (by simpa using hs), d.root]
  closed := by
    simp only [canGraft, Bool.and_eq_true, Bool.not_eq_true', List.isEmpty_eq_false_iff] at h
    obtain ⟨⟨⟨_, hsd⟩, hdir⟩, hor⟩ := h
    have hsd : ¬ src <+: dst := by
      rw [← List.isPrefixOf_iff_prefix, hsd]; simp
    have hdst : dst ≠ [] := by
      intro heq
      subst heq
      rw [present_of_isDir d.isDir_root, isFile_eq_false_of_isDir d.isDir_root] at hor
      simp at hor
    intro q hq
    by_cases hd : dst <+: q
    · rw [if_pos hd] at hq
      obtain ⟨t, rfl⟩ := hd
      rw [List.drop_left] at hq
      induction t using List.reverseRecOn with
      | nil =>
        -- the parent of `dst` is outside both trees
        rw [List.append_nil, if_neg, if_neg, isDir_iff.mp hdir]
        · exact fun hp => hsd (hp.trans (List.dropLast_prefix dst))
        · intro hp
          have := hp.length_le
          rw [List.length_dropLast] at this
          have := List.length_pos_of_ne_nil hdst
          omega
      | append_singleton t n _ =>
        have hc := d.closed _ hq
        rw [← List.append_assoc, List.dropLast_concat] at hc ⊢
        rw [if_pos (List.prefix_append ..), List.drop_left, hc]
    · rw [if_neg hd] at hq
      split at hq
      · simp at hq
      next hs =>
        rw [if_neg, if_neg, d.closed q hq]
        · exact fun hp => hs (hp.trans (List.dropLast_prefix q))
        · exact fun hp => hd (hp.trans (List.dropLast_prefix q))
  log := d.log ++ [.drop src, .put dst]

/-- The disk with one more file, and the directories it is in; no change when
something is in the way. -/
def addFile (d : Disk ν β) (p : List ν) (b : β) : Disk ν β :=
  if h : d.isClear p.dropLast then
    if h' : (d.mkdirs p.dropLast h).canPut p then (d.mkdirs p.dropLast h).put p b h' else d
  else d

/-- The disk that holds these files. -/
def ofFiles (files : List (List ν × β)) : Disk ν β :=
  files.foldl (fun d f => d.addFile f.1 f.2) empty

/-! ### Reading back -/

@[simp] theorem get_put (d : Disk ν β) (p q : List ν) (b : β) (h : d.canPut p = true) :
    (d.put p b h).get q = if q = p then some (.file b) else d.get q := rfl

@[simp] theorem get_drop (d : Disk ν β) (p q : List ν) (h : d.isFile p = true) :
    (d.drop p h).get q = if q = p then none else d.get q := rfl

@[simp] theorem get_mkdirs (d : Disk ν β) (p q : List ν) (h : d.isClear p = true) :
    (d.mkdirs p h).get q = if q <+: p then some .dir else d.get q := rfl

@[simp] theorem get_rmdir (d : Disk ν β) (p q : List ν) (h : d.canRmdir p = true) :
    (d.rmdir p h).get q = if q = p then none else d.get q := rfl

theorem get_graft (d : Disk ν β) (src dst q : List ν) (h : d.canGraft src dst = true) :
    (d.graft src dst h).get q =
      if dst <+: q then d.get (src ++ q.drop dst.length)
      else if src <+: q then none
      else d.get q := rfl

@[simp] theorem log_put (d : Disk ν β) (p : List ν) (b : β) (h : d.canPut p = true) :
    (d.put p b h).log = d.log ++ [.put p] := rfl
@[simp] theorem log_drop (d : Disk ν β) (p : List ν) (h : d.isFile p = true) :
    (d.drop p h).log = d.log ++ [.drop p] := rfl
@[simp] theorem log_mkdirs (d : Disk ν β) (p : List ν) (h : d.isClear p = true) :
    (d.mkdirs p h).log = d.log := rfl
@[simp] theorem log_rmdir (d : Disk ν β) (p : List ν) (h : d.canRmdir p = true) :
    (d.rmdir p h).log = d.log := rfl
@[simp] theorem log_graft (d : Disk ν β) (src dst : List ν) (h : d.canGraft src dst = true) :
    (d.graft src dst h).log = d.log ++ [.drop src, .put dst] := rfl

@[simp] theorem content_put (d : Disk ν β) (p q : List ν) (b : β) (h : d.canPut p = true) :
    (d.put p b h).content q = if q = p then some b else d.content q := by
  unfold content
  rw [get_put]
  by_cases hq : q = p <;> simp [hq]

@[simp] theorem content_drop (d : Disk ν β) (p q : List ν) (h : d.isFile p = true) :
    (d.drop p h).content q = if q = p then none else d.content q := by
  unfold content
  rw [get_drop]
  by_cases hq : q = p <;> simp [hq]

/-- Making directories touches no file. -/
@[simp] theorem content_mkdirs (d : Disk ν β) (p q : List ν) (h : d.isClear p = true) :
    (d.mkdirs p h).content q = d.content q := by
  by_cases hq : q <+: p
  · rw [isFile_eq_false.mp (isClear_iff.mp h q hq)]
    unfold content; rw [get_mkdirs, if_pos hq]
  · exact content_congr (by rw [get_mkdirs, if_neg hq])

/-- A directory stays one when others are made, -/
theorem isDir_mkdirs {d : Disk ν β} {p q : List ν} (h : d.isClear p = true)
    (hq : d.isDir q = true) : (d.mkdirs p h).isDir q = true := by
  rw [isDir_iff, get_mkdirs]
  split
  · rfl
  · exact isDir_iff.mp hq

/-- and when a file is written. -/
theorem isDir_put {d : Disk ν β} {p q : List ν} {b : β} (h : d.canPut p = true)
    (hq : d.isDir q = true) : (d.put p b h).isDir q = true := by
  have hp : d.isDir p = false := by simp [canPut] at h; exact h.2
  rw [isDir_iff, get_put, if_neg (fun e => by rw [e, hp] at hq; cases hq)]
  exact isDir_iff.mp hq

/-- Removing an empty directory touches no file. -/
@[simp] theorem content_rmdir (d : Disk ν β) (p q : List ν) (h : d.canRmdir p = true) :
    (d.rmdir p h).content q = d.content q := by
  by_cases hq : q = p
  · have hp : d.isDir p = true := by simp [canRmdir] at h; exact h.1.1
    rw [hq, content_eq_none_of_isDir hp]
    exact content_eq_none_of_get (by simp)
  · exact content_congr (by rw [get_rmdir, if_neg hq])

/-- Outside both trees a move changes nothing. -/
theorem get_graft_elsewhere (d : Disk ν β) {src dst q : List ν}
    (h : d.canGraft src dst = true) (hs : ¬ src <+: q) (hd : ¬ dst <+: q) :
    (d.graft src dst h).get q = d.get q := by
  rw [get_graft, if_neg hd, if_neg hs]

/-- A file moved to a path where no directory is: two paths change. -/
theorem get_graft_file (d : Disk ν β) {src dst : List ν} (h : d.canGraft src dst = true)
    (hs : d.isDir src = false) (hd : d.isDir dst = false) (q : List ν) :
    (d.graft src dst h).get q =
      if q = dst then d.get src else if q = src then none else d.get q := by
  rw [get_graft]
  by_cases hqd : q = dst
  · rw [if_pos hqd, hqd, if_pos (List.prefix_refl _)]; simp
  · rw [if_neg hqd]
    by_cases hpd : dst <+: q
    · obtain ⟨t, rfl⟩ := hpd
      have ht : t ≠ [] := by rintro rfl; simp at hqd
      have hsrc : d.get (src ++ t) = none :=
        get_eq_none_below (List.prefix_append ..) (by simpa using ht.symm) hs
      have hdst : d.get (dst ++ t) = none :=
        get_eq_none_below (List.prefix_append ..) (by simpa using ht.symm) hd
      rw [if_pos (List.prefix_append ..), List.drop_left, hsrc, hdst]; simp
    · rw [if_neg hpd]
      by_cases hqs : q = src
      · rw [if_pos hqs, hqs, if_pos (List.prefix_refl _)]
      · rw [if_neg hqs]
        by_cases hps : src <+: q
        · rw [if_pos hps, get_eq_none_below hps (fun e => hqs e.symm) hs]
        · rw [if_neg hps]

namespace Footprint

variable {A : Effect ν → Prop}

theorem put (d : Disk ν β) (p : List ν) (b : β) (h : d.canPut p = true) (hA : A (.put p)) :
    Footprint A d (d.put p b h) := by
  refine ⟨[.put p], rfl, by simpa using hA, fun q hq => ⟨.put p, by simp, ?_⟩⟩
  by_cases hqp : q = p
  · rw [hqp]; exact List.prefix_refl _
  · rw [content_put, if_neg hqp] at hq; exact absurd rfl hq

theorem drop (d : Disk ν β) (p : List ν) (h : d.isFile p = true) (hA : A (.drop p)) :
    Footprint A d (d.drop p h) := by
  refine ⟨[.drop p], rfl, by simpa using hA, fun q hq => ⟨.drop p, by simp, ?_⟩⟩
  by_cases hqp : q = p
  · rw [hqp]; exact List.prefix_refl _
  · rw [content_drop, if_neg hqp] at hq; exact absurd rfl hq

theorem mkdirs (d : Disk ν β) (p : List ν) (h : d.isClear p = true) :
    Footprint A d (d.mkdirs p h) :=
  ⟨[], by simp, by simp, fun q hq => absurd (content_mkdirs d p q h) hq⟩

theorem graft (d : Disk ν β) (src dst : List ν) (h : d.canGraft src dst = true)
    (hs : A (.drop src)) (hd : A (.put dst)) : Footprint A d (d.graft src dst h) := by
  refine ⟨[.drop src, .put dst], rfl, ?_, fun q hq => ?_⟩
  · intro e he
    rcases List.mem_cons.mp he with rfl | he
    · exact hs
    · rw [List.mem_singleton.mp he]; exact hd
  · by_cases hs : src <+: q
    · exact ⟨.drop src, by simp, hs⟩
    · by_cases hd : dst <+: q
      · exact ⟨.put dst, by simp, hd⟩
      · exact absurd (content_congr (get_graft_elsewhere d h hs hd)) hq

end Footprint

end Operations

end Disk

end Shamsu.Lib
