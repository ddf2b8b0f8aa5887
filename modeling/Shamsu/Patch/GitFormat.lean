import Shamsu.Patch.FromDiff

/-!
# Diffs of several files as git writes them

A section for each file: a `diff --git` line, extended headers, and, where the content
changes, the `---` and `+++` lines with the hunks. `git_read_iff` says when
`parse_file_patches` reads the sections back.

It skips the headers before the first `---` line, and allows some of them between a file
header and its hunks. After a hunk it takes every line for a line of the hunk until the next
`@@` or `---`, so the `diff --git` line of the next section is an invalid one: of several
files it reads none.
-/

namespace Shamsu.Patch

open Shamsu.Lib Shamsu.Py

/-! ## Writing it -/

/-- An octal digit of a byte. -/
def octal (n : Nat) : Char := Char.ofNat ('0'.toNat + n % 8)

/-- A character of a quoted name. -/
def quoteChar (c : Char) : Text :=
  match c.toNat with
  | 7 => ['\\', 'a']
  | 8 => ['\\', 'b']
  | 9 => ['\\', 't']
  | 10 => ['\\', 'n']
  | 11 => ['\\', 'v']
  | 12 => ['\\', 'f']
  | 13 => ['\\', 'r']
  | 34 => ['\\', '"']
  | 92 => ['\\', '\\']
  | n =>
    if 32 ≤ n ∧ n < 127 then [c]
    else (encodeUtf8 [c]).flatMap fun b =>
      ['\\', octal (b.toNat / 64), octal (b.toNat / 8), octal b.toNat]

/-- A name with its side, in quotes if a character of it needs them. -/
def sideName (side : Char) (path : Text) : Text :=
  let name := side :: '/' :: path
  if name.flatMap quoteChar = name then name else '"' :: name.flatMap quoteChar ++ ['"']

/-- What stands after `---` or `+++`. -/
def headerName (side : Char) (path : Text) : Text :=
  if path = devNull then devNull
  else sideName side path ++ if ' ' ∈ path then ['\t'] else []

/-- An extended header. -/
inductive Extended where
  | index (range : Text)
  | newFileMode (mode : Text)
  | deletedFileMode (mode : Text)
  | similarity (percent : Text)
  | renameFrom (path : Text)
  | renameTo (path : Text)
  deriving DecidableEq, Repr

def Extended.line : Extended → Text
  | .index range => "index ".toList ++ range
  | .newFileMode mode => "new file mode ".toList ++ mode
  | .deletedFileMode mode => "deleted file mode ".toList ++ mode
  | .similarity percent => "similarity index ".toList ++ percent
  | .renameFrom path => "rename from ".toList ++ path
  | .renameTo path => "rename to ".toList ++ path

/-- What changes in one file. -/
structure GitSection where
  oldPath : Text
  newPath : Text
  extended : List Extended
  hunks : List DiffHunk
  deriving DecidableEq, Repr

namespace GitSection

variable (s : GitSection)

/-- The `diff --git` line names the file on both sides. -/
def gitLine : Text :=
  "diff --git ".toList ++
    (sideName 'a' (if s.oldPath = devNull then s.newPath else s.oldPath) ++
      ' ' :: sideName 'b' (if s.newPath = devNull then s.oldPath else s.newPath))

def headers : List Text := s.gitLine :: s.extended.map Extended.line

def lines : List Text :=
  s.headers ++ if s.hunks = [] then [] else
    ("--- ".toList ++ headerName 'a' s.oldPath) ::
      ("+++ ".toList ++ headerName 'b' s.newPath) :: DiffHunk.lines s.hunks

/-- The section as a patch. -/
def patch : FilePatch := ⟨s.oldPath, s.newPath, DiffHunk.patchesFrom 0 0 s.hunks⟩

/-- It has hunks, with numbers that can be read, and its paths pass and are read back. -/
def IsAccepted (root : Path) : Prop :=
  (cleanHeaderPath (headerName 'a' s.oldPath) = s.oldPath ∧
    cleanHeaderPath (headerName 'b' s.newPath) = s.newPath) ∧
  validatePatchPaths root s.oldPath s.newPath = .ok () ∧
  (∀ n ∈ DiffHunk.startsFrom 0 0 s.hunks, Countable n) ∧ s.hunks ≠ []

end GitSection

/-- The lines of the whole diff. -/
def gitLines (files : List GitSection) : List Text := files.flatMap GitSection.lines

/-- There is a patch for each section, and nothing else. -/
def ReadBack (root : Path) (files : List GitSection) : Prop :=
  parseFilePatches root (endedText (gitLines files)) = .ok (files.map GitSection.patch)

/-! ## Cutting it -/

section Cut

variable {α : Type} {starts : α → Bool}

theorem sections_append {mid : List α} (hmid : ∀ a ∈ mid, starts a = false) (l : List α) :
    sections starts (mid ++ l) = (mid ++ (sections starts l).1, (sections starts l).2) := by
  induction mid with
  | nil => rfl
  | cons a mid ih =>
    rw [List.cons_append, sections, ih fun b hb => hmid b (List.mem_cons_of_mem _ hb)]
    dsimp only
    rw [hmid a List.mem_cons_self, if_neg Bool.false_ne_true]
    rfl

/-- What is after a mark, up to the next one, is in its section. -/
theorem exists_section {a : α} {mid : List α} (ha : starts a = true)
    (hmid : ∀ b ∈ mid, starts b = false) (more : List α) : ∀ front : List α,
    ∃ s ∈ (sections starts (front ++ a :: (mid ++ more))).2, s.1 = a ∧ mid <+: s.2
  | [] => by
    rw [List.nil_append, sections, sections_append hmid]
    dsimp only
    rw [if_pos ha]
    exact ⟨_, List.mem_cons_self, rfl, List.prefix_append _ _⟩
  | b :: front => by
    obtain ⟨s, hs, hfirst, hpre⟩ := exists_section ha hmid more front
    refine ⟨s, ?_, hfirst, hpre⟩
    rw [List.cons_append, sections]
    dsimp only
    split
    · exact List.mem_cons_of_mem _ hs
    · exact hs

end Cut

section Parse

variable {root : Path}

/-- Every line of a hunk that is read has a mark. -/
theorem marker_of_hunkLines {lines : List Text} : ∀ {read : List Text},
    hunkLines lines = .ok read → ∀ line ∈ lines,
      marker line = '\\' ∨ marker line = ' ' ∨ marker line = '+' ∨ marker line = '-' := by
  induction lines with
  | nil => exact fun _ _ hl => absurd hl List.not_mem_nil
  | cons first lines ih =>
    intro read h line hline
    rw [hunkLines] at h
    split_ifs at h with hnote hmark
    · rcases List.mem_cons.mp hline with rfl | hline
      · exact Or.inl hnote
      · exact ih h line hline
    · cases hrest : hunkLines lines with
      | error e =>
        rw [hrest] at h
        cases h
      | ok rest =>
        rcases List.mem_cons.mp hline with rfl | hline
        · exact Or.inr hmark
        · exact ih hrest line hline

/-- What a file patch that is read is made of. -/
theorem parseFilePatch_hunks {section_ : Text × List Text} {patch : FilePatch}
    (h : parseFilePatch root section_ = .ok patch) :
    patch.hunks ≠ [] ∧ ∀ s ∈ (sections isHunkMark section_.2.tail).2, ∀ line ∈ s.2,
      marker line = '\\' ∨ marker line = ' ' ∨ marker line = '+' ∨ marker line = '-' := by
  obtain ⟨header, body⟩ := section_
  unfold parseFilePatch at h
  cases body with
  | nil => cases h
  | cons second body =>
    dsimp only at h
    split at h
    · cases h
    · obtain ⟨_, _, h⟩ := result_bind_ok.mp h
      split at h
      · cases h
      · obtain ⟨patches, hhunks, h⟩ := result_bind_ok.mp h
        split at h
        · cases h
        next hne =>
          cases h
          refine ⟨hne, fun s hs line hline => ?_⟩
          obtain ⟨p, _, hp⟩ := mapM_ok_of_mem hhunks hs
          unfold parseHunk at hp
          split at hp
          · cases hp
          · obtain ⟨read, hread, _⟩ := result_bind_ok.mp hp
            exact marker_of_hunkLines hread line hline

end Parse

/-! ## One section -/

namespace GitSection

variable {s : GitSection}

theorem headers_marks : ∀ line ∈ s.headers, isFileMark line = false ∧ isHunkMark line = false := by
  intro line hline
  rcases List.mem_cons.mp hline with rfl | hline
  · exact ⟨rfl, rfl⟩
  · obtain ⟨e, _, rfl⟩ := List.mem_map.mp hline
    cases e <;> exact ⟨rfl, rfl⟩

/-- Its file header is a mark, and so are removed lines that look like one. -/
theorem countP_lines (hne : s.hunks ≠ []) :
    s.lines.countP isFileMark = 1 + (DiffHunk.lines s.hunks).countP isFileMark := by
  have hheaders : s.headers.countP isFileMark = 0 :=
    List.countP_eq_zero.mpr fun line hline => by
      rw [(headers_marks line hline).1]
      exact Bool.false_ne_true
  have hfirst : isFileMark ("--- ".toList ++ headerName 'a' s.oldPath) = true :=
    List.isPrefixOf_iff_prefix.mpr (List.prefix_append _ _)
  have hsecond : ¬ isFileMark ("+++ ".toList ++ headerName 'b' s.newPath) = true :=
    Bool.false_ne_true
  unfold lines
  rw [if_neg hne, List.countP_append, hheaders, List.countP_cons_of_pos hfirst,
    List.countP_cons_of_neg hsecond]
  omega

theorem no_fileMark (hno : (DiffHunk.lines s.hunks).countP isFileMark = 0) :
    ∀ line ∈ DiffHunk.lines s.hunks, isFileMark line = false := fun line hline => by
  rw [← Bool.not_eq_true]
  exact List.countP_eq_zero.mp hno line hline

/-- **One section is read back** if it is accepted and no line of it looks like a header. -/
theorem parse_one {root : Path} :
    (sections isFileMark s.lines).2.mapM (parseFilePatch root) = .ok [s.patch] ↔
      s.IsAccepted root ∧ ∀ h ∈ s.hunks, ¬ h.LooksLikeHeader := by
  by_cases hne : s.hunks = []
  · -- no file header
    have hcut := sections_append (fun line hline => (@headers_marks s line hline).1) []
    unfold lines
    rw [if_pos hne, hcut]
    exact iff_of_false nofun fun h => h.1.2.2.2 hne
  by_cases hlooks : ∃ h ∈ s.hunks, h.LooksLikeHeader
  · refine iff_of_false ?_ fun h => by
      obtain ⟨hunk, hh, hl⟩ := hlooks
      exact h.2 hunk hh hl
    intro hrun
    have hlen := mapM_ok_length hrun
    rw [sections_length, countP_lines hne] at hlen
    obtain ⟨line, hline, hmark⟩ := lines_fileMark.mpr hlooks
    have hmore : 0 < (DiffHunk.lines s.hunks).countP isFileMark :=
      List.countP_pos_iff.mpr ⟨line, hline, hmark⟩
    rw [List.length_singleton] at hlen
    omega
  · have hbody : ∀ line ∈ ("+++ ".toList ++ headerName 'b' s.newPath) :: DiffHunk.lines s.hunks,
        isFileMark line = false := by
      intro line hline
      rcases List.mem_cons.mp hline with rfl | hline
      · rfl
      · rw [← Bool.not_eq_true]
        exact fun hmark => hlooks (lines_fileMark.mp ⟨line, hline, hmark⟩)
    have hcut : sections isFileMark s.lines = (s.headers,
        [("--- ".toList ++ headerName 'a' s.oldPath,
          ("+++ ".toList ++ headerName 'b' s.newPath) :: DiffHunk.lines s.hunks)]) := by
      have hmarked := @sections_marked _ isFileMark s.headers
        [("--- ".toList ++ headerName 'a' s.oldPath,
          ("+++ ".toList ++ headerName 'b' s.newPath) :: DiffHunk.lines s.hunks)]
        (fun line hline => (headers_marks line hline).1) fun sec hsec => by
          rw [List.mem_singleton.mp hsec]
          exact ⟨List.isPrefixOf_iff_prefix.mpr (List.prefix_append _ _), hbody⟩
      rw [List.flatMap_cons, List.flatMap_nil, List.append_nil] at hmarked
      unfold lines
      rw [if_neg hne]
      exact hmarked
    have hall : ∀ h ∈ s.hunks, ¬ h.LooksLikeHeader := fun h hh hl => hlooks ⟨h, hh, hl⟩
    rw [hcut, and_iff_left hall]
    constructor
    · intro hrun
      obtain ⟨p, rest, hp, _, heq⟩ := mapM_cons_ok hrun
      cases heq
      obtain ⟨⟨hpaths, hstarts, _⟩, hpatch⟩ := parseFilePatch_lines.mp hp
      obtain ⟨hold, hrest⟩ := FilePatch.mk.inj hpatch
      rw [← hold, ← hrest.1] at hpaths
      exact ⟨⟨hold.symm, hrest.1.symm⟩, hpaths, hstarts, hne⟩
    · intro hsome
      obtain ⟨⟨hold, hnew⟩, hpaths, hstarts, _⟩ := hsome
      rw [List.mapM_cons, parseFilePatch_lines.mpr ⟨⟨by rw [hold, hnew]; exact hpaths, hstarts,
        hne⟩, rfl⟩, hold, hnew]
      rfl

/-- After a hunk the next section is not read. -/
theorem parse_next {root : Path} {header : Text} {body : List Text} (t : GitSection)
    (hne : s.hunks ≠ []) (hbody : (("+++ ".toList ++ headerName 'b' s.newPath) ::
      (DiffHunk.lines s.hunks ++ [t.gitLine])) <+: body) (patch : FilePatch) :
    parseFilePatch root (header, body) ≠ .ok patch := by
  intro h
  obtain ⟨more, rfl⟩ := hbody
  have hmarks := (parseFilePatch_hunks h).2
  -- the last hunk has the line in its section
  have hsecs : DiffHunk.sectionsFrom 0 0 s.hunks ≠ [] := by
    cases hhunks : s.hunks with
    | nil => exact absurd hhunks hne
    | cons h hunks => exact List.cons_ne_nil _ _
  obtain ⟨front, last, hlast⟩ := (List.eq_nil_or_concat _).resolve_left hsecs
  rw [List.concat_eq_append] at hlast
  obtain ⟨hlastMark, hlastBody⟩ := sectionsFrom_marks last
    (hlast ▸ List.mem_append_right _ (List.mem_singleton.mpr rfl) :
      last ∈ DiffHunk.sectionsFrom 0 0 s.hunks)
  have hmid : ∀ line ∈ last.2 ++ [t.gitLine], isHunkMark line = false := by
    intro line hline
    rcases List.mem_append.mp hline with hline | hline
    · exact hlastBody line hline
    · rw [List.mem_singleton.mp hline]
      rfl
  obtain ⟨sec, hsec, _, hpre⟩ := exists_section hlastMark hmid more
    (front.flatMap fun s => s.1 :: s.2)
  have hlines : DiffHunk.lines s.hunks ++ [t.gitLine] ++ more =
      (front.flatMap fun s => s.1 :: s.2) ++ last.1 :: (last.2 ++ [t.gitLine] ++ more) := by
    unfold DiffHunk.lines
    rw [hlast, List.flatMap_append, List.flatMap_singleton]
    simp only [List.append_assoc, List.cons_append]
  have hbad := hmarks sec (by rw [← hlines] at hsec; exact hsec) t.gitLine
    (hpre.subset (List.mem_append_right _ (List.mem_singleton.mpr rfl)))
  rw [show marker t.gitLine = 'd' from rfl] at hbad
  exact absurd hbad (by decide)

end GitSection

/-! ## All of them -/

/-- The marks of sections with hunks. -/
theorem countP_gitLines {files : List GitSection} (hall : ∀ s ∈ files, s.hunks ≠ []) :
    (gitLines files).countP isFileMark = files.length +
      (files.map fun s => (DiffHunk.lines s.hunks).countP isFileMark).sum := by
  induction files with
  | nil => rfl
  | cons s files ih =>
    have hrest := ih fun t ht => hall t (List.mem_cons_of_mem _ ht)
    unfold gitLines at hrest ⊢
    rw [List.flatMap_cons, List.countP_append, GitSection.countP_lines (hall s List.mem_cons_self),
      hrest, List.map_cons, List.sum_cons, List.length_cons]
    omega

/-- Of several sections not all are read back. -/
theorem not_readBack_two {root : Path} {s t : GitSection} {files : List GitSection} :
    (sections isFileMark (gitLines (s :: t :: files))).2.mapM (parseFilePatch root) ≠
      .ok ((s :: t :: files).map GitSection.patch) := by
  intro hrun
  -- every patch that is read has hunks
  have hall : ∀ u ∈ s :: t :: files, u.hunks ≠ [] := by
    intro u hu
    obtain ⟨sec, _, hsec⟩ := of_mem_mapM_ok hrun (List.mem_map_of_mem hu)
    exact mt patchesFrom_eq_nil.mpr (parseFilePatch_hunks hsec).1
  -- and there are no more of them than sections
  have hlen := mapM_ok_length hrun
  rw [sections_length, countP_gitLines hall, List.length_map] at hlen
  have hzero : (DiffHunk.lines s.hunks).countP isFileMark = 0 := by
    rw [List.map_cons, List.sum_cons] at hlen
    omega
  have hmid : ∀ line ∈ ("+++ ".toList ++ headerName 'b' s.newPath) ::
      (DiffHunk.lines s.hunks ++ [t.gitLine]), isFileMark line = false := by
    intro line hline
    rcases List.mem_cons.mp hline with rfl | hline
    · rfl
    · rcases List.mem_append.mp hline with hline | hline
      · exact GitSection.no_fileMark hzero line hline
      · rw [List.mem_singleton.mp hline]
        rfl
  have hne := hall s List.mem_cons_self
  have hfirst : isFileMark ("--- ".toList ++ headerName 'a' s.oldPath) = true :=
    List.isPrefixOf_iff_prefix.mpr (List.prefix_append _ _)
  have hlines : ∃ more, gitLines (s :: t :: files) = s.headers ++
      ("--- ".toList ++ headerName 'a' s.oldPath) ::
        ((("+++ ".toList ++ headerName 'b' s.newPath) ::
          (DiffHunk.lines s.hunks ++ [t.gitLine])) ++ more) := by
    refine ⟨t.lines.tail ++ gitLines files, ?_⟩
    have hnext : t.lines = t.gitLine :: t.lines.tail := rfl
    unfold gitLines
    rw [List.flatMap_cons, List.flatMap_cons, hnext]
    unfold GitSection.lines
    rw [if_neg hne]
    simp only [List.append_assoc, List.cons_append, List.nil_append, List.tail_cons]
  obtain ⟨more, hlines⟩ := hlines
  obtain ⟨sec, hsec, _, hpre⟩ := exists_section hfirst hmid more s.headers
  rw [← hlines] at hsec
  obtain ⟨patch, _, hpatch⟩ := mapM_ok_of_mem hrun hsec
  exact GitSection.parse_next t hne hpre patch hpatch

/-- **When git's sections are read back**: there is one alone, it has hunks and is accepted,
and no removed line of it begins with `-- `. -/
theorem git_read_iff (root : Path) (files : List GitSection)
    (hread : ∀ line ∈ gitLines files, ∀ c ∈ line, isLineBreak c = false) :
    ReadBack root files ↔
      ∃ s, files = [s] ∧ s.IsAccepted root ∧ ∀ h ∈ s.hunks, ¬ h.LooksLikeHeader := by
  unfold ReadBack
  rw [parseFilePatches_lines, splitlines_endedText hread]
  match files with
  | [] =>
    refine iff_of_false (fun h => h.2 rfl) ?_
    intro hsome
    obtain ⟨_, h, _⟩ := hsome
    cases h
  | [s] =>
    have hlines : gitLines [s] = s.lines := List.flatMap_singleton _ _
    rw [hlines, List.map_cons, List.map_nil, and_iff_left (List.cons_ne_nil _ _),
      GitSection.parse_one]
    constructor
    · exact fun h => ⟨s, rfl, h⟩
    · intro hsome
      obtain ⟨_, hs, h⟩ := hsome
      cases hs
      exact h
  | s :: t :: files =>
    refine iff_of_false (fun h => not_readBack_two h.1) ?_
    intro hsome
    obtain ⟨_, h, _⟩ := hsome
    cases h

/-- A file with one line changed. -/
def oneChanged (path : String) : GitSection where
  oldPath := path.toList
  newPath := path.toList
  extended := [.index "1a2b3c4..5d6e7f8 100644".toList]
  hunks := [⟨[], [⟨.removed, "x".toList, false⟩, ⟨.added, "y".toList, false⟩], []⟩]

theorem git_read_one : ReadBack ["ws".toList] [oneChanged "f.py"] := by
  refine (git_read_iff ["ws".toList] [oneChanged "f.py"]
    (unbroken_of_all (by decide))).mpr
    ⟨_, rfl, ⟨by decide, by decide, ?_, List.cons_ne_nil _ _⟩, ?_⟩
  · unfold Countable
    decide
  · intro h hh
    cases List.mem_singleton.mp hh
    intro hsome
    obtain ⟨e, he, _, hlooks⟩ := hsome
    revert e
    decide

/-- Two such files are not read. -/
theorem git_unread : ¬ ∀ (root : Path) (files : List GitSection), files ≠ [] →
    (∀ line ∈ gitLines files, ∀ c ∈ line, isLineBreak c = false) →
    (∀ s ∈ files, s.IsAccepted root) → ReadBack root files := by
  intro hall
  have haccepted : ∀ s ∈ [oneChanged "f.py", oneChanged "g.py"],
      s.IsAccepted ["ws".toList] := by
    intro s hs
    rcases List.mem_cons.mp hs with rfl | hs
    · exact ⟨by decide, by decide, by unfold Countable; decide,
        List.cons_ne_nil _ _⟩
    · rw [List.mem_singleton.mp hs]
      exact ⟨by decide, by decide, by unfold Countable; decide,
        List.cons_ne_nil _ _⟩
  have h := hall ["ws".toList] [oneChanged "f.py", oneChanged "g.py"] (List.cons_ne_nil _ _)
    (unbroken_of_all (by decide)) haccepted
  unfold ReadBack at h
  have hno : parseFilePatches ["ws".toList]
      (endedText (gitLines [oneChanged "f.py", oneChanged "g.py"])) =
      .error (diffError "Invalid hunk line marker: diff --git a/g.py b/g.py") := by
    decide
  rw [hno] at h
  cases h

end Shamsu.Patch
