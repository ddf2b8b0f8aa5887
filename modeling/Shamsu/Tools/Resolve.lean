import Shamsu.Safety.Sandbox

/-!
# Finding files by a reported path

`shamsu/tools/path_resolve.py` and the policy of `shamsu/indexer/policy.py`: the
text a model sends for a path is normalised, and files are looked up under the
workspace by walking it. Directories are listed in the order of the disk, as
`os.scandir` gives them.

`str.lower` follows the Unicode tables; only the laws of `Casing` are used.
-/

namespace Shamsu.Tools

open Shamsu.Lib Shamsu.Py Shamsu.Safety

/-- `str.lower`: it leaves dots alone, makes no slash and works name by name. -/
structure Casing where
  lower : Text → Text
  lower_lower : ∀ t, lower (lower t) = lower t
  lower_slash : ∀ a b, lower (a ++ '/' :: b) = lower a ++ '/' :: lower b
  plain : ∀ t, ∀ c ∈ ['/', '\x00'], c ∉ t → c ∉ lower t
  dots : ∀ t n, lower t = List.replicate n '.' ↔ t = List.replicate n '.'

/-- Lower case of ASCII letters. -/
def asciiLower (c : Char) : Char :=
  if 65 ≤ c.toNat ∧ c.toNat ≤ 90 then Char.ofNat (c.toNat + 32) else c

theorem toNat_asciiLower (c : Char) : (asciiLower c).toNat
    = if 65 ≤ c.toNat ∧ c.toNat ≤ 90 then c.toNat + 32 else c.toNat := by
  have hsmall : ∀ n, n < 91 → (Char.ofNat (n + 32)).toNat = n + 32 := by decide
  unfold asciiLower
  split
  next h => exact hsmall _ (by omega)
  next => rfl

/-- A character that is no letter comes from itself only. -/
theorem asciiLower_eq {c x : Char} (hx : x.toNat < 65) : asciiLower c = x ↔ c = x := by
  rw [← Char.toNat_inj, ← Char.toNat_inj, toNat_asciiLower]
  split <;> omega

theorem map_asciiLower_replicate (x : Char) (hx : x.toNat < 65) : ∀ (t : Text) (n : Nat),
    t.map asciiLower = List.replicate n x ↔ t = List.replicate n x := by
  intro t
  induction t with
  | nil => intro n; exact Iff.rfl
  | cons c t ih =>
    intro n
    cases n with
    | zero => simp
    | succ n =>
      rw [List.map_cons, List.replicate_succ, List.cons.injEq, List.cons.injEq, ih n,
        asciiLower_eq hx]

/-- Lower case where all letters are ASCII. -/
def Casing.ascii : Casing where
  lower := List.map asciiLower
  lower_lower := by
    intro t
    have : asciiLower ∘ asciiLower = asciiLower := by
      funext c
      rw [← Char.toNat_inj, Function.comp, toNat_asciiLower, toNat_asciiLower]
      by_cases h : 65 ≤ c.toNat ∧ c.toNat ≤ 90
      · rw [if_pos h, if_neg (by omega)]
      · rw [if_neg h, if_neg h]
    rw [List.map_map, this]
  lower_slash := by
    intro a b
    rw [List.map_append, List.map_cons, (asciiLower_eq (by decide)).mpr rfl]
  plain := by
    intro t c hc ht hm
    obtain ⟨x, hx, he⟩ := List.mem_map.mp hm
    have hc : c.toNat < 65 := by
      simp only [List.mem_cons, List.not_mem_nil, or_false] at hc
      rcases hc with rfl | rfl <;> decide
    exact ht ((asciiLower_eq hc).mp he ▸ hx)
  dots := map_asciiLower_replicate '.' (by decide)

/-- A name a file can have. -/
def IsName (n : Text) : Prop := n ≠ [] ∧ n ≠ ['.'] ∧ n ≠ dotDot ∧ '/' ∉ n ∧ '\x00' ∉ n

instance (n : Text) : Decidable (IsName n) := inferInstanceAs (Decidable (_ ∧ _))

/-- `_normalize_workspace_path`'s loop over a leading `./`. -/
def dropDotSlash : Text → Text
  | '.' :: '/' :: t => dropDotSlash t
  | t => t

/-- ``text.strip("`\"'")``. -/
def stripQuotes (t : Text) : Text :=
  let quote (c : Char) : Bool := c == '`' || c == '"' || c == '\x27'
  (t.dropWhile quote).rdropWhile quote

/-- `_normalize_workspace_path`. -/
def normalizeWorkspacePath (path : Text) : Text :=
  strip (dropDotSlash (posixText (strip (stripQuotes (strip path)))))

/-- `_normalize_workspace_path(path) or default`. -/
def normalizeOr (path default : Text) : Text :=
  if normalizeWorkspacePath path = [] then default else normalizeWorkspacePath path

/-- `PurePosixPath(*names).as_posix()`. -/
def posix (names : List Text) : Text := if names = [] then ['.'] else join '/' names

/-- `PurePath.suffix` of a file name. -/
def suffixOf (name : Text) : Text :=
  let ext := (name.reverse.takeWhile (· ≠ '.')).reverse
  if '.' ∈ name ∧ ext ≠ [] ∧ ext.length + 1 < name.length then '.' :: ext else []

/-- `PurePath.stem` of a file name. -/
def stemOf (name : Text) : Text := name.take (name.length - (suffixOf name).length)

/-- `PurePosixPath(t).name`. -/
def nameOf (t : Text) : Text := (parts t).getLastD []

/-- `DEFAULT_EXCLUDED_DIRS`. -/
def excludedDirs : List Text :=
  [".cache", ".codebase-memory", ".git", ".hg", ".mypy_cache", ".next", ".nuxt",
    ".pytest_cache", ".ruff_cache", ".shamsu", ".svn", ".tox", ".turbo", ".venv",
    "__pycache__", "build", "coverage", "dist", "env", "node_modules", "site-packages",
    "target", "venv"].map String.toList

/-- `DEFAULT_EXCLUDED_FILES`. -/
def excludedFiles : List Text :=
  [".cbmignore", ".codebase-memory.json", ".DS_Store", ".shamsu_probe.py",
    ".shamsu_probe.mjs", ".shamsu_template_probe.py"].map String.toList

/-! ## Walking -/

/-- The names in a directory. -/
def children (d : FS) (p : Path) : List Text :=
  ((d.support.filter fun q => q ≠ [] && q.dropLast == p && d.present q).map Path.name).dedup

/-- The files under `p` as `os.walk` meets them: those of a directory before
those of its subdirectories. Every level is one name longer, so the number of
paths of the disk is fuel enough. -/
def walkFuel (d : FS) : Nat → Path → List Path
  | 0, _ => []
  | fuel + 1, p =>
    ((children d p).filter fun n => d.isFile (p ++ [n])).map (fun n => p ++ [n]) ++
      ((children d p).filter fun n => d.isDir (p ++ [n]) && n ∉ excludedDirs).flatMap
        fun n => walkFuel d fuel (p ++ [n])

/-- `_MAX_WORKSPACE_SCAN`. -/
def maxWorkspaceScan : Nat := 8000

/-- `_walk_workspace_files(root)`, as whole paths. -/
def walkWorkspaceFiles (d : FS) (root : Path) : List Path :=
  (walkFuel d (d.support.length + 1) root).take maxWorkspaceScan

/-- The names of `p` from the root on: `p.relative_to(root)`. -/
def relativeTo (root p : Path) : List Text := p.drop root.length

theorem mem_walkFuel {d : FS} : ∀ {fuel : Nat} {p q : Path}, q ∈ walkFuel d fuel p →
    p <+: q ∧ d.isFile q = true := by
  intro fuel
  induction fuel with
  | zero => intro p q h; cases h
  | succ fuel ih =>
    intro p q h
    rw [walkFuel, List.mem_append] at h
    rcases h with h | h
    · obtain ⟨n, hn, rfl⟩ := List.mem_map.mp h
      exact ⟨List.prefix_append _ _, (List.mem_filter.mp hn).2⟩
    · obtain ⟨n, _, hq⟩ := List.mem_flatMap.mp h
      obtain ⟨hp, hf⟩ := ih hq
      exact ⟨(List.prefix_append p [n]).trans hp, hf⟩

theorem mem_walkWorkspaceFiles {d : FS} {root q : Path} (h : q ∈ walkWorkspaceFiles d root) :
    root <+: q ∧ d.isFile q = true := mem_walkFuel (List.mem_of_mem_take h)

theorem present_of_mem_children {d : FS} {p : Path} {n : Text} (h : n ∈ children d p) :
    d.present (p ++ [n]) = true := by
  obtain ⟨q, hq, rfl⟩ := List.mem_map.mp (List.mem_dedup.mp h)
  obtain ⟨_, hq⟩ := List.mem_filter.mp hq
  simp only [Bool.and_eq_true, decide_eq_true_eq, beq_iff_eq] at hq
  obtain ⟨⟨hne, rfl⟩, hp⟩ := hq
  obtain ⟨q, n, rfl⟩ := List.eq_nil_or_concat' q |>.resolve_left hne
  simpa [Path.name] using hp

/-- `_path_exists_case_insensitive` from `current` on. -/
def resolveCase (c : Casing) (d : FS) (current : Path) : List Text → Option Path
  | [] => some current
  | part :: rest =>
    if d.isDir current then
      match (children d current).find? fun n => c.lower n == c.lower part with
      | some n => resolveCase c d (current ++ [n]) rest
      | none => none
    else none

/-- `_path_exists_case_insensitive`. The parts of an absolute path start with
`/`, which is no name. -/
def pathExistsCaseInsensitive (c : Casing) (d : FS) (root : Path) (rel : Text) : Option Path :=
  let rel := normalizeWorkspacePath rel
  if rel = [] then none
  else
    match resolveCase c d root (if isAbsolute rel then ['/'] :: parts rel else parts rel) with
    | some p => if p = root then none else some p
    | none => none

/-- What the lookup finds is what was asked for, up to letter case. -/
theorem resolveCase_lower {c : Casing} {d : FS} : ∀ {names : List Text} {current p : Path},
    resolveCase c d current names = some p →
      ∃ r, p = current ++ r ∧ r.map c.lower = names.map c.lower := by
  intro names
  induction names with
  | nil => intro current p h; exact ⟨[], by simpa using (Option.some.inj h).symm, rfl⟩
  | cons part rest ih =>
    intro current p h
    rw [resolveCase] at h
    split at h
    · split at h
      next n hn =>
        obtain ⟨r, rfl, hr⟩ := ih h
        have hc : c.lower n = c.lower part := by simpa using List.find?_some hn
        exact ⟨n :: r, by simp, by simp [hc, hr]⟩
      next => cases h
    · cases h

theorem present_resolveCase {c : Casing} {d : FS} : ∀ {names : List Text} {current p : Path},
    d.present current = true → resolveCase c d current names = some p → d.present p = true := by
  intro names
  induction names with
  | nil => intro current p hp h; exact Option.some.inj h ▸ hp
  | cons part rest ih =>
    intro current p _ h
    rw [resolveCase] at h
    split at h
    · split at h
      next n hn => exact ih (present_of_mem_children (List.mem_of_find?_eq_some hn)) h
      next => cases h
    · cases h

/-! ## Candidates -/

/-- `_FRONTEND_ROOTS`. -/
def frontendRoots : List Text :=
  ["client/", "frontend/", "app/", "web/", "packages/", "src/"].map String.toList

/-- `add(rel, rank)`. -/
def addCandidate (ranked : List (Nat × List Text)) (rank : Nat) (rel : List Text) :
    List (Nat × List Text) :=
  if ranked.any (fun c => c.2 == rel) then ranked else ranked ++ [(rank, rel)]

/-- Code point order of texts. -/
def textLe : Text → Text → Bool
  | [], _ => true
  | _ :: _, [] => false
  | a :: s, b :: t => a.toNat < b.toNat || (a == b && textLe s t)

/-- The order of `ranked.sort(key=…)`: rank, length of the path, path. -/
def candidateLe (a b : Nat × List Text) : Bool :=
  let la := (posix a.2).length
  let lb := (posix b.2).length
  a.1 < b.1 || (a.1 == b.1 && (la < lb || (la == lb && textLe (posix a.2) (posix b.2))))

/-- Why a file is a candidate for `requested`, with the rank each reason gives,
in the order of the passes. -/
def candidatePasses (c : Casing) (all : List (List Text)) (requested : Text) :
    List (Nat × List Text) :=
  let low (rel : List Text) := c.lower (posix rel)
  let req := c.lower requested
  let name := c.lower (nameOf requested)
  let stem := c.lower (stemOf (nameOf requested))
  -- a later file takes a place in `lower_map` from an earlier one
  let atKey (key : Text) := (all.reverse.find? fun rel => low rel == key).toList
  (atKey req).map (fun rel => (0, rel))
    ++ all.filterMap (fun rel =>
        if low rel = req then some (0, rel)
        else if ('/' :: req).isSuffixOf (low rel) then some (1, rel) else none)
    ++ frontendRoots.flatMap (fun pre => (atKey (c.lower (pre ++ requested))).map fun rel => (2, rel))
    ++ (all.filter fun rel => c.lower (Path.name rel) == name).map (fun rel => (3, rel))
    ++ (if 2 ≤ stem.length then (all.filter fun rel =>
          c.lower (stemOf (Path.name rel)) == stem && c.lower (Path.name rel) != name).map
            fun rel => (4, rel) else [])
    ++ (if 3 ≤ name.length then (all.filter fun rel =>
          (find name (c.lower (Path.name rel))).isSome).map fun rel => (5, rel) else [])

/-- `_find_path_candidates(root, requested)`. -/
def findPathCandidates (c : Casing) (d : FS) (root : Path) (requested : Text) : List (List Text) :=
  let requested := normalizeWorkspacePath requested
  if requested = [] then []
  else
    let all := (walkWorkspaceFiles d root).map (relativeTo root)
    let ranked := (candidatePasses c all requested).foldl
      (fun acc x => addCandidate acc x.1 x.2) []
    ((ranked.mergeSort candidateLe).take 10).map Prod.snd

/-- `_find_files_by_query`. -/
def findFilesByQuery (c : Casing) (d : FS) (root : Path) (query : Text) (limit : Int) :
    List (List Text) :=
  let query := c.lower (normalizeWorkspacePath query)
  if query = [] then []
  else
    let all := (walkWorkspaceFiles d root).map (relativeTo root)
    let low (rel : List Text) := c.lower (posix rel)
    let exact (rel : List Text) : Bool := nameOf (low rel) == query
    let suffix (rel : List Text) : Bool := low rel == query || ('/' :: query).isSuffixOf (low rel)
    let ordered := all.filter exact ++ all.filter (fun rel => !exact rel && suffix rel)
      ++ all.filter fun rel => !exact rel && !suffix rel && (find query (low rel)).isSome
    -- `ordered[:limit]`: a negative limit counts from the end
    if 0 ≤ limit then ordered.take limit.toNat else ordered.take (ordered.length - limit.natAbs)

/-! ## Scopes -/

/-- `text.rstrip("/")`. -/
def rstripSlash (t : Text) : Text := t.rdropWhile (· == '/')

/-- `normalized == item or normalized.startswith(item.rstrip("/") + "/")`. -/
def covers (normalized item : Text) : Bool :=
  normalized == item || (rstripSlash item ++ ['/']).isPrefixOf normalized

/-- The path as the scope checks see it: resolved from the root, in lower case. -/
def scopeKey (c : Casing) (root : Path) (path : Text) : Text :=
  let clean := normalizeOr path path
  match validate root clean with
  | .ok target => c.lower (posix (relativeTo root target))
  | .error _ => c.lower clean

end Shamsu.Tools
