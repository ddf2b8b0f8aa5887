import Shamsu.Py.Files

/-!
# The path sandbox

`shamsu/safety/sandbox.py`: every path a tool or a patch names is resolved from
the workspace root (or from `/` when it is absolute) and must land at or under
the root. `shamsu/patch/safety.py` adds the rules for mutations: a relative
path, no `..`, nothing under `.git`.
-/

namespace Shamsu.Safety

open Shamsu.Lib Shamsu.Py

/-- Where a path leads: from the root of the workspace, or from `/`. -/
def locate (root : Path) (path : Text) : Path :=
  resolveFrom (if isAbsolute path then [] else root) (parts path)

/-- `Sandbox(root).validate(path)`. -/
def validate (root : Path) (path : Text) : Except Exn Path :=
  if '\x00' ∈ path then .error ⟨.value, "lstat: embedded null character in path"⟩
  else if root <+: locate root path then .ok (locate root path)
  else .error ⟨.security,
    s!"Access denied: {str (locate root path).text} is outside workspace {str root.text}"⟩

theorem validate_ok {root : Path} {path : Text} {target : Path} :
    validate root path = .ok target ↔
      '\x00' ∉ path ∧ root <+: target ∧ locate root path = target := by
  unfold validate
  by_cases h0 : '\x00' ∈ path
  · simp [h0]
  · by_cases hp : root <+: locate root path
    · rw [if_neg h0, if_pos hp, Except.ok.injEq]
      exact ⟨fun h => ⟨h0, h ▸ hp, h⟩, fun h => h.2.2⟩
    · rw [if_neg h0, if_neg hp]
      refine ⟨fun h => by simp at h, ?_⟩
      rintro ⟨_, ht, rfl⟩; exact absurd ht hp

/-- **What the sandbox is for**: a validated path is in the workspace. -/
theorem validate_inside {root : Path} {path : Text} {target : Path}
    (h : validate root path = .ok target) : root <+: target := (validate_ok.mp h).2.1

/-- A relative path without `..` is its names under the root. -/
theorem validate_relative {root : Path} {path : Text} {target : Path}
    (h : validate root path = .ok target) (ha : isAbsolute path = false)
    (hd : dotDot ∉ parts path) : target = root ++ parts path := by
  obtain ⟨_, _, rfl⟩ := validate_ok.mp h
  unfold locate
  rw [if_neg (by simp [ha]), resolveFrom_eq_append hd]

/-- The program's own directory. -/
def dotShamsu : Text := ".shamsu".toList

/-- A workspace path that is not the program's own. -/
def IsUserPath (root p : Path) : Prop := root <+: p ∧ ¬ root ++ [dotShamsu] <+: p

instance (root p : Path) : Decidable (IsUserPath root p) := inferInstanceAs (Decidable (_ ∧ _))

/-! ## Mutation paths -/

/-- `path.replace("\\", "/")`. -/
def posixText (t : Text) : Text := t.map fun c => if c = '\\' then '/' else c

/-- `is_git_internal_path`. -/
def isGitInternalPath (relativePath : Text) : Bool :=
  let posix := posixText relativePath
  !isAbsolute posix && (parts posix).head? == some ".git".toList

/-- `reject_unsafe_relative_path`. -/
def rejectUnsafeRelativePath (relativePath : Text) : Except Exn Unit :=
  if isBlank relativePath then .error ⟨.mutationSafety, "Path is empty."⟩
  else if isAbsolute relativePath || windowsIsAbsolute relativePath then
    .error ⟨.mutationSafety,
      s!"Path must be relative to the workspace: {str relativePath}"⟩
  else if dotDot ∈ parts relativePath ∨ dotDot ∈ windowsParts relativePath then
    .error ⟨.mutationSafety, s!"Path escapes workspace: {str relativePath}"⟩
  else .ok ()

/-- `except SecurityError as exc: raise MutationSafetyError(str(exc))`. -/
def securityAsMutation {α : Type} : Except Exn α → Except Exn α
  | .ok a => .ok a
  | .error e => .error (if e.kind = .security then ⟨.mutationSafety, e.message⟩ else e)

/-- `validate_mutation_path`. -/
def validateMutationPath (root : Path) (relativePath : Text) : Except Exn Path := do
  rejectUnsafeRelativePath relativePath
  let target ← securityAsMutation (validate root relativePath)
  if isGitInternalPath relativePath then
    .error ⟨.mutationSafety, s!"Refusing to edit .git internals: {str relativePath}"⟩
  else .ok target

theorem rejectUnsafeRelativePath_ok {relativePath : Text}
    (h : rejectUnsafeRelativePath relativePath = .ok ()) :
    isAbsolute relativePath = false ∧ dotDot ∉ parts relativePath := by
  unfold rejectUnsafeRelativePath at h
  split at h
  · simp at h
  · split at h
    · simp at h
    next ha =>
      split at h
      · simp at h
      next hd =>
        simp only [Bool.or_eq_true, not_or, Bool.not_eq_true] at ha
        exact ⟨ha.1, fun hm => hd (Or.inl hm)⟩

/-- What a mutation path is: the names of its text under the root, not in `.git`. -/
theorem validateMutationPath_ok {root : Path} {relativePath : Text} {target : Path}
    (h : validateMutationPath root relativePath = .ok target) :
    validate root relativePath = .ok target ∧ target = root ++ parts relativePath ∧
      isGitInternalPath relativePath = false := by
  unfold validateMutationPath at h
  cases hu : rejectUnsafeRelativePath relativePath with
  | error e => rw [hu] at h; simp [bind, Except.bind] at h
  | ok u =>
    obtain ⟨ha, hd⟩ := rejectUnsafeRelativePath_ok hu
    cases hv : validate root relativePath with
    | error e => rw [hu, hv] at h; simp [bind, Except.bind, securityAsMutation] at h
    | ok t =>
      rw [hu, hv] at h
      simp only [bind, Except.bind, securityAsMutation] at h
      split at h
      · simp at h
      next hg =>
        have ht : t = target := Except.ok.inj h
        subst ht
        exact ⟨rfl, validate_relative hv ha hd, by simpa using hg⟩

/-! ## Git internals -/

theorem posixText_of_not_mem {a : Text} (h : '\\' ∉ a) : posixText a = a := by
  have hid : ∀ c ∈ a, (if c = '\\' then '/' else c) = id c := fun c hc =>
    if_neg fun e : c = '\\' => h (e ▸ hc)
  unfold posixText
  rw [List.map_congr_left hid, List.map_id]

theorem posixText_append_cons (a b : Text) :
    posixText (a ++ '/' :: b) = posixText a ++ '/' :: posixText b := by
  simp [posixText]

/-- The first name of a text, when it has no backslash, is the first name of the
text with its backslashes turned. -/
theorem head_parts_posixText {n : Text} (hn : '\\' ∉ n) : ∀ {t : Text},
    (parts t).head? = some n → (parts (posixText t)).head? = some n := by
  intro t
  induction hlen : t.length using Nat.strong_induction_on generalizing t with
  | _ len ih =>
    intro h
    by_cases hs : '/' ∈ t
    · obtain ⟨a, b, rfl, ha⟩ := List.eq_append_cons_of_mem hs
      rw [posixText_append_cons, parts_append_cons]
      rw [parts_append_cons, parts_of_not_mem ha] at h
      split at h
      next hskip =>
        have hpa : parts (posixText a) = [] := by
          rcases hskip with rfl | rfl <;> decide
        rw [hpa, List.nil_append]
        refine ih b.length ?_ rfl (by simpa using h)
        rw [← hlen, List.length_append, List.length_cons]
        omega
      next hname =>
        have han : a = n := by simpa using h
        subst han
        rw [posixText_of_not_mem hn, parts_of_not_mem ha, if_neg hname]
        rfl
    · rw [parts_of_not_mem hs] at h
      split at h
      · simp at h
      next hname =>
        have htn : t = n := by simpa using h
        subst htn
        rw [posixText_of_not_mem hn, parts_of_not_mem hs, if_neg hname]
        rfl

/-- A text that starts with a backslash has it in its first name. -/
theorem isAbsolute_posixText {n t : Text} (hn : '\\' ∉ n) (h : (parts t).head? = some n)
    (ha : isAbsolute t = false) : isAbsolute (posixText t) = false := by
  cases t with
  | nil => rfl
  | cons c t =>
    by_cases hc : c = '\\'
    · subst hc
      exfalso
      by_cases hs : '/' ∈ '\\' :: t
      · obtain ⟨a, b, e, hsa⟩ := List.eq_append_cons_of_mem hs
        rw [e, parts_append_cons, parts_of_not_mem hsa] at h
        cases a with
        | nil => cases e
        | cons x a =>
          obtain ⟨rfl, _⟩ := List.cons.inj e
          rw [if_neg (by simp)] at h
          have : '\\' :: a = n := by simpa using h
          exact hn (this ▸ List.mem_cons_self ..)
      · rw [parts_of_not_mem hs, if_neg (by simp)] at h
        have : '\\' :: t = n := by simpa using h
        exact hn (this ▸ List.mem_cons_self ..)
    · have : isAbsolute (posixText (c :: t)) = isAbsolute (c :: t) := by
        simp [isAbsolute, posixText, hc]
      rw [this, ha]

/-- **What the git check is for**: a path that passes does not lead under `.git`. -/
theorem not_under_git {root : Path} {relativePath : Text} (ha : isAbsolute relativePath = false)
    (hg : isGitInternalPath relativePath = false) :
    ¬ root ++ [".git".toList] <+: root ++ parts relativePath := by
  intro hp
  rw [List.prefix_append_right_inj] at hp
  have hhead : (parts relativePath).head? = some ".git".toList := by
    obtain ⟨s, hs⟩ := hp
    rw [← hs]; rfl
  have hn : '\\' ∉ ".git".toList := by decide
  unfold isGitInternalPath at hg
  simp only [isAbsolute_posixText hn hhead ha, head_parts_posixText hn hhead] at hg
  simp at hg

end Shamsu.Safety
