import Shamsu.Py.Text

/-!
# Paths

`pathlib` as the program uses it, on POSIX. A resolved path is the list of its
names from the root, so `/` is `[]`, `parent` drops the last name and
`is_relative_to` is `<+:`. The text of a path becomes names in `parts`: empty
names and `.` go, `..` stays for `resolve` to take a name away (the file system
of the model has no symbolic links, so resolving is lexical).

`PureWindowsPath` appears in the source's own checks, so its drive and root are
modelled too (`windowsAnchor`).
-/

namespace Shamsu.Py

/-- A resolved absolute path: its names from the root. -/
abbrev Path := List Text

namespace Path

def parent (p : Path) : Path := p.dropLast

def name (p : Path) : Text := p.getLastD []

/-- `str(path)`. -/
def text (p : Path) : Text := '/' :: join '/' p

/-- `Path(f"{path}{suffix}")`: the suffix is glued to the last name. -/
def addSuffix (p : Path) (suffix : Text) : Path := p.dropLast ++ [p.name ++ suffix]

/-- What is above the parent of `p` is not `p`. -/
theorem ne_of_prefix_parent {p q : Path} (hp : p ≠ []) (h : q <+: p.parent) : q ≠ p := by
  intro heq
  subst heq
  have hle := h.length_le
  rw [parent, List.length_dropLast] at hle
  have := List.length_pos_of_ne_nil hp
  omega

theorem prefix_of_prefix_parent {p q : Path} (h : q <+: p.parent) : q <+: p :=
  h.trans (List.dropLast_prefix p)

theorem addSuffix_concat (p : Path) (n suffix : Text) :
    addSuffix (p ++ [n]) suffix = p ++ [n ++ suffix] := by
  simp [addSuffix, name]

theorem addSuffix_ne_self {p : Path} {suffix : Text} (hp : p ≠ []) (hs : suffix ≠ []) :
    p.addSuffix suffix ≠ p := by
  obtain ⟨p, m, rfl⟩ := List.eq_nil_or_concat' p |>.resolve_left hp
  rw [addSuffix_concat]
  intro h
  have := List.singleton_inj.mp (List.append_cancel_left h)
  exact hs (by simpa using this)

end Path

/-- `PurePosixPath(t).is_absolute()`. -/
def isAbsolute (t : Text) : Bool := t.head? == some '/'

/-- The names of `PurePosixPath(t).parts`. -/
def parts (t : Text) : List Text := (t.splitOn '/').filter fun n => n ≠ [] && n ≠ ['.']

theorem parts_append_cons (a b : Text) : parts (a ++ '/' :: b) = parts a ++ parts b := by
  unfold parts
  rw [List.splitOn_eq_splitOnP, List.splitOn_eq_splitOnP, List.splitOn_eq_splitOnP,
    List.splitOnP_append_cons _ _ (by simp), List.filter_append]

/-- A text without `/` is one name, or none. -/
theorem parts_of_not_mem {a : Text} (h : '/' ∉ a) :
    parts a = if a = [] ∨ a = ['.'] then [] else [a] := by
  unfold parts
  rw [List.splitOn_eq_splitOnP, List.splitOnP_eq_singleton (by
    intro x hx
    have hne : x ≠ '/' := fun e => h (e ▸ hx)
    simpa using hne)]
  by_cases h₁ : a = []
  · simp [h₁]
  · by_cases h₂ : a = ['.']
    · simp [h₂]
    · simp [h₁, h₂]

/-- `..`. -/
def dotDot : Text := ['.', '.']

/-- Walk `names` from `base`: `..` goes up (and stays at the root). -/
def resolveFrom (base : Path) (names : List Text) : Path :=
  names.foldl (fun p n => if n = dotDot then p.dropLast else p ++ [n]) base

/-- Without `..` nothing is taken away. -/
theorem resolveFrom_eq_append {names : List Text} (h : dotDot ∉ names) :
    ∀ base : Path, resolveFrom base names = base ++ names := by
  induction names with
  | nil => intro base; simp [resolveFrom]
  | cons n names ih =>
    intro base
    have hn : n ≠ dotDot := fun e => h (by simp [e])
    have := ih (fun hm => h (List.mem_cons_of_mem _ hm)) (base ++ [n])
    simpa [resolveFrom, hn] using this

/-! ## Windows paths -/

/-- What `PureWindowsPath(t)` is made of: whether it has a drive, whether it has
a root, and the text after them. -/
structure WindowsAnchor where
  drive : Bool
  root : Bool
  rest : Text

/-- A UNC drive without a root still gets one when it names a server and a
share (or a device path's). -/
def uncRoot (drive : Text) : Bool :=
  let fields := drive.splitOn '\\'
  !(['\\'].isSuffixOf drive) &&
    ((fields.length == 4 && !([[], ['?'], ['.'], ['?', '.']].contains (fields.getD 2 [])))
      || fields.length == 6)

def windowsAnchor (t : Text) : WindowsAnchor :=
  let t := t.map fun c => if c = '/' then '\\' else c
  match t with
  | '\\' :: '\\' :: _ =>
    let start := if (t.take 8).map Char.toUpper = "\\\\?\\UNC\\".toList then 8 else 2
    match find ['\\'] (t.drop start) with
    | none => { drive := true, root := uncRoot t, rest := [] }
    | some i =>
      match find ['\\'] (t.drop (start + i + 1)) with
      | none => { drive := true, root := uncRoot t, rest := [] }
      | some j => { drive := true, root := true, rest := t.drop (start + i + 1 + j + 1) }
  | '\\' :: rest => { drive := false, root := true, rest := rest }
  | _ :: ':' :: '\\' :: rest => { drive := true, root := true, rest := rest }
  | _ :: ':' :: rest => { drive := true, root := false, rest := rest }
  | _ => { drive := false, root := false, rest := t }

/-- `PureWindowsPath(t).is_absolute()`. -/
def windowsIsAbsolute (t : Text) : Bool := (windowsAnchor t).drive && (windowsAnchor t).root

/-- The names of `PureWindowsPath(t).parts`, without the anchor. -/
def windowsParts (t : Text) : List Text :=
  ((windowsAnchor t).rest.splitOn '\\').filter fun n => n ≠ [] && n ≠ ['.']

end Shamsu.Py
