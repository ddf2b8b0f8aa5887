import Shamsu.Lib.Run
import Shamsu.Tools.CodeChunks
import Shamsu.Tools.Resolve

/-!
# The cached search index

`shamsu/tools/hybrid_search.py`: `build_index` keeps the chunks of each workspace with the names
and modification times of its files, and hands them out again while these stay the same. The
index is made of the first 1500 files with the source files in front (`_code_first`); the key is
made of the first 1500 as they are listed (`_signature`). An index of 12000 chunks stops, and the
workspace is marked for it; the mark is never taken off.

`build_agrees_along`: over any changes of the files and any builds of any workspaces, each build
gives what a fresh one would, and the mark is right, where in the state before it (`Seen`) an
unchanged key means unchanged files, and a mark that is there is still due.
-/

namespace Shamsu.Tools.SearchIndex

open Shamsu.Lib Shamsu.Py

/-! ## Files -/

/-- A file: its modification time, its size, and its text where it can be read. -/
structure File where
  mtimeNs : Int
  size : Nat
  text : Option Text
  deriving DecidableEq, Repr

/-- The files of a workspace, as the walk lists them. -/
abbrev Workspace := List (Text × File)

namespace Workspace

variable (ws : Workspace)

def names : List Text := ws.map Prod.fst

/-- `(root / relative).stat()`, where it is a file. -/
def file (relative : Text) : Option File := (ws.find? fun f => f.1 == relative).map Prod.snd

end Workspace

/-- `MAX_INDEXED_FILES`. -/
def maxIndexedFiles : Nat := 1500

/-- `MAX_FILE_BYTES`. -/
def maxFileBytes : Nat := 512 * 1024

/-- `MAX_INDEXED_CHUNKS`. -/
def maxIndexedChunks : Nat := 12000

/-- `_CODE_SUFFIXES`. -/
def codeSuffixes : List String :=
  [".py", ".js", ".ts", ".tsx", ".jsx", ".go", ".rs", ".java", ".rb", ".php", ".c", ".h", ".cpp",
    ".hpp", ".cs", ".kt", ".swift", ".scala", ".sh", ".sql", ".vue", ".svelte"]

def configSuffixes : List String := [".json", ".toml", ".yaml", ".yml", ".ini", ".cfg"]

section Build

variable (isWord : Char → Bool) (lower : Text → Text)

/-- `rank`. -/
def rank (relative : Text) : Nat :=
  let suffix :=
    if '.' ∈ relative then '.' :: lower (relative.reverse.takeWhile (· ≠ '.')).reverse else []
  if codeSuffixes.any (·.toList == suffix) then 0
  else if configSuffixes.any (·.toList == suffix) then 1
  else 2

/-- The order of `_code_first`. -/
def codeFirstLe (a b : Text) : Bool :=
  rank lower a < rank lower b || (rank lower a == rank lower b && textLe a b)

/-- `_code_first`. -/
def codeFirst (files : List Text) : List Text := files.mergeSort (codeFirstLe lower)

/-- The text of a file that is indexed: not too large, readable, without a zero character. -/
def indexedText (file : Option File) : Option Text :=
  match file with
  | none => none
  | some file =>
    if maxFileBytes < file.size then none
    else file.text.filter fun content => !content.contains '\x00'

/-- The files that an index is made of, with their text. -/
def selected (ws : Workspace) (files : List Text) : List (Text × Option Text) :=
  ((codeFirst lower files).take maxIndexedFiles).map fun relative =>
    (relative, indexedText (ws.file relative))

/-- `searchable`. -/
def searchable (chunk : Chunk) : Text :=
  join '\n' ([chunk.path, chunk.symbol, chunk.code].filter fun part => part ≠ [])

/-- A chunk of the index, with what the ranking needs of its text. -/
structure Entry (W : Type) where
  chunk : Chunk
  weights : W
  deriving DecidableEq, Repr

variable {W : Type} (weigh : Text → W)

/-- The chunks of one file are added, to the most an index has: `true` says that it stops. -/
def addChunks : List Chunk → List (Entry W) → List (Entry W) × Bool
  | [], chunks => (chunks, false)
  | chunk :: more, chunks =>
    let chunks := chunks ++ [⟨chunk, weigh (searchable chunk)⟩]
    if maxIndexedChunks ≤ chunks.length then (chunks, true) else addChunks more chunks

/-- The loop of `_build_index_uncached` over the files. -/
def addFiles : List (Text × Option Text) → List (Entry W) → List (Entry W) × Bool
  | [], chunks => (chunks, false)
  | (_, none) :: more, chunks => addFiles more chunks
  | (relative, some content) :: more, chunks =>
    match addChunks weigh (chunkFile isWord relative content) chunks with
    | (chunks, true) => (chunks, true)
    | (chunks, false) => addFiles more chunks

/-- `_build_index_uncached`: the chunks, and whether it stopped at the cap. -/
def buildIndexUncached (ws : Workspace) (files : List Text) : List (Entry W) × Bool :=
  addFiles isWord weigh (selected lower ws files) []

abbrev Signature := List (Text × Int)

/-- `_signature`. -/
def signature (ws : Workspace) (files : List Text) : Signature :=
  (files.take maxIndexedFiles).map fun relative =>
    (relative, ((ws.file relative).map File.mtimeNs).getD 0)

/-! ## Builds and changes -/

/-- An index that is kept, with its key. -/
structure Cached (W : Type) where
  signature : Signature
  chunks : List (Entry W)

/-- The workspaces, `_INDEX_CACHE` and `_TRUNCATED`. The program does not have `seen`: it is the
workspace as it was when the index in the cache was made of it. -/
structure State (W : Type) where
  disk : Text → Workspace
  indexCache : List (Text × Cached W)
  truncated : List Text
  seen : Text → Workspace

/-- `_INDEX_CACHE.get(key)`. -/
def State.cached (s : State W) (key : Text) : Option (Cached W) :=
  (s.indexCache.find? fun entry => entry.1 == key).map Prod.snd

/-- Before the first search. -/
def State.start (disk : Text → Workspace) : State W := ⟨disk, [], [], disk⟩

/-- An index is made and kept; the cache is emptied first where it has four. -/
def rebuild (s : State W) (key : Text) : State W × List (Entry W) :=
  let ws := s.disk key
  let built := buildIndexUncached isWord lower weigh ws ws.names
  let cache := if 4 ≤ s.indexCache.length then [] else s.indexCache
  ({ s with
      indexCache := (key, ⟨signature ws ws.names, built.1⟩) ::
        cache.filter fun entry => entry.1 ≠ key
      truncated := if built.2 then key :: s.truncated else s.truncated
      seen := Function.update s.seen key ws },
    built.1)

/-- `build_index` on all files of the workspace. -/
def buildIndex (s : State W) (key : Text) : State W × List (Entry W) :=
  match s.cached key with
  | some cached =>
    if cached.signature = signature (s.disk key) (s.disk key).names then (s, cached.chunks)
    else rebuild isWord lower weigh s key
  | none => rebuild isWord lower weigh s key

/-- `index_was_truncated`. -/
def indexWasTruncated (s : State W) (key : Text) : Bool := s.truncated.contains key

inductive Action where
  /-- Files of a workspace are added, removed or edited. -/
  | change (key : Text) (ws : Workspace)
  | build (key : Text)

def step (s : State W) : Action → State W
  | .change key ws => { s with disk := Function.update s.disk key ws }
  | .build key => (buildIndex isWord lower weigh s key).1

/-! ## What is asked of a build -/

/-- The build returns what a fresh one would, and afterwards the mark says whether that index
stopped at the cap. -/
def Agrees (s : State W) : Action → Prop
  | .change _ _ => True
  | .build key =>
    let fresh := buildIndexUncached isWord lower weigh (s.disk key) (s.disk key).names
    let built := buildIndex isWord lower weigh s key
    built.2 = fresh.1 ∧ indexWasTruncated built.1 key = fresh.2

/-- Before a build: where an index is kept and the key is still the same, the files that the
index is made of have the same text, and where the workspace is marked, the index stops. -/
def Seen (s : State W) : Action → Prop
  | .change _ _ => True
  | .build key =>
    ((s.cached key).isSome →
      signature (s.seen key) (s.seen key).names = signature (s.disk key) (s.disk key).names →
      selected lower (s.seen key) (s.seen key).names =
        selected lower (s.disk key) (s.disk key).names) ∧
    (indexWasTruncated s key = true →
      (buildIndexUncached isWord lower weigh (s.disk key) (s.disk key).names).2 = true)

/-- A file that is edited gets another modification time. -/
def Stamped (s : State W) : Action → Prop
  | .change key ws => ∀ name old new, (s.disk key).file name = some old → ws.file name = some new →
      (old.size, old.text) ≠ (new.size, new.text) → old.mtimeNs ≠ new.mtimeNs
  | .build _ => True

end Build

/-! ## The cache -/

section Cache

variable {isWord : Char → Bool} {lower : Text → Text} {W : Type} {weigh : Text → W}

/-- Each index that is kept is the one of the workspace that was seen, and the mark is set where
it stopped. -/
def Valid (isWord : Char → Bool) (lower : Text → Text) (weigh : Text → W) (s : State W) : Prop :=
  ∀ key cached, s.cached key = some cached →
    cached.signature = signature (s.seen key) (s.seen key).names ∧
    cached.chunks =
      (buildIndexUncached isWord lower weigh (s.seen key) (s.seen key).names).1 ∧
    ((buildIndexUncached isWord lower weigh (s.seen key) (s.seen key).names).2 = true →
      indexWasTruncated s key = true)

theorem valid_start (disk : Text → Workspace) :
    Valid isWord lower weigh (State.start disk) := nofun

theorem cached_rebuild_self (s : State W) (key : Text) :
    (rebuild isWord lower weigh s key).1.cached key = some
      ⟨signature (s.disk key) (s.disk key).names,
        (buildIndexUncached isWord lower weigh (s.disk key) (s.disk key).names).1⟩ := by
  unfold rebuild State.cached
  dsimp only
  rw [List.find?_cons_of_pos (by exact beq_self_eq_true key)]
  rfl

/-- The cache after a first build, and a change behind it. -/
theorem cached_built (isWord : Char → Bool) (lower : Text → Text) (weigh : Text → W) (disk : Text → Workspace) (key : Text) (ws : Workspace) :
    (step isWord lower weigh (step isWord lower weigh (State.start disk) (.build key))
      (.change key ws)).cached key = some ⟨signature (disk key) (disk key).names,
        (buildIndexUncached isWord lower weigh (disk key) (disk key).names).1⟩ :=
  cached_rebuild_self (State.start disk) key

theorem disk_change (isWord : Char → Bool) (lower : Text → Text) (weigh : Text → W) (s : State W) (key : Text) (ws : Workspace) :
    (step isWord lower weigh s (.change key ws)).disk key = ws := Function.update_self ..

/-- Of the other workspaces the cache has what it had, or nothing. -/
theorem cached_rebuild_ne {s : State W} {key other : Text} (h : other ≠ key) {cached : Cached W}
    (hcached : (rebuild isWord lower weigh s key).1.cached other = some cached) :
    s.cached other = some cached := by
  unfold rebuild State.cached at hcached
  dsimp only at hcached
  rw [List.find?_cons_of_neg (by simpa using Ne.symm h)] at hcached
  obtain ⟨entry, hentry, rfl⟩ := Option.map_eq_some_iff.mp hcached
  rw [List.find?_filter] at hentry
  unfold State.cached
  split at hentry
  · cases hentry
  · have hboth : (fun entry : Text × Cached W => decide (decide (entry.1 ≠ key) = true ∧
        (entry.1 == other) = true)) = fun entry => entry.1 == other := by
      funext entry
      by_cases heq : entry.1 = other
      · subst heq
        simp [h]
      · simp [heq]
    rw [hboth] at hentry
    rw [hentry]
    rfl

/-- **A step keeps the cache valid.** -/
theorem Valid.step {s : State W} (h : Valid isWord lower weigh s) (a : Action) :
    Valid isWord lower weigh (step isWord lower weigh s a) := by
  have hrebuild : ∀ key, Valid isWord lower weigh (rebuild isWord lower weigh s key).1 := by
    intro key other cached hcached
    by_cases heq : other = key
    · subst heq
      rw [cached_rebuild_self] at hcached
      cases hcached
      have hseen : (rebuild isWord lower weigh s other).1.seen other = s.disk other :=
        Function.update_self ..
      rw [hseen]
      refine ⟨rfl, rfl, fun hstop => ?_⟩
      unfold indexWasTruncated rebuild
      dsimp only
      rw [if_pos hstop, List.contains_cons, beq_self_eq_true, Bool.true_or]
    · obtain ⟨hsignature, hchunks, hmark⟩ := h other cached (cached_rebuild_ne heq hcached)
      have hseen : (rebuild isWord lower weigh s key).1.seen other = s.seen other :=
        Function.update_of_ne heq ..
      rw [hseen]
      refine ⟨hsignature, hchunks, fun hstop => ?_⟩
      have hmarked := hmark hstop
      unfold indexWasTruncated rebuild at *
      dsimp only
      split
      · rw [List.contains_cons, hmarked, Bool.or_true]
      · exact hmarked
  cases a with
  | change key ws => exact h
  | build key =>
    show Valid isWord lower weigh (buildIndex isWord lower weigh s key).1
    unfold buildIndex
    split
    · split
      · exact h
      · exact hrebuild key
    · exact hrebuild key

theorem indexWasTruncated_rebuild (isWord : Char → Bool) (lower : Text → Text) (weigh : Text → W)
    (s : State W) (key : Text) :
    indexWasTruncated (rebuild isWord lower weigh s key).1 key =
      ((buildIndexUncached isWord lower weigh (s.disk key) (s.disk key).names).2 ||
        indexWasTruncated s key) := by
  unfold indexWasTruncated rebuild
  dsimp only
  split
  next hstop => rw [hstop, List.contains_cons, beq_self_eq_true, Bool.true_or]
  next hstop => rw [Bool.eq_false_iff.mpr hstop, Bool.false_or]

/-- The index depends on the files that are selected alone. -/
theorem uncached_eq (isWord : Char → Bool) (weigh : Text → W) {ws ws' : Workspace}
    (h : selected lower ws ws.names = selected lower ws' ws'.names) :
    buildIndexUncached isWord lower weigh ws ws.names =
      buildIndexUncached isWord lower weigh ws' ws'.names := by
  unfold buildIndexUncached
  rw [h]

/-- **One build agrees** with a fresh one, in a state with a valid cache. -/
theorem agrees_of_seen {s : State W} (h : Valid isWord lower weigh s) {a : Action}
    (hseen : Seen isWord lower weigh s a) : Agrees isWord lower weigh s a := by
  cases a with
  | change key ws => trivial
  | build key =>
    obtain ⟨hsight, hmark⟩ := hseen
    have hrebuild : (rebuild isWord lower weigh s key).2 =
        (buildIndexUncached isWord lower weigh (s.disk key) (s.disk key).names).1 ∧
        indexWasTruncated (rebuild isWord lower weigh s key).1 key =
          (buildIndexUncached isWord lower weigh (s.disk key) (s.disk key).names).2 := by
      refine ⟨rfl, ?_⟩
      rw [indexWasTruncated_rebuild]
      cases hmarked : indexWasTruncated s key with
      | false => exact Bool.or_false _
      | true => rw [hmark hmarked, Bool.or_true]
    unfold Agrees buildIndex
    dsimp only
    split
    next cached hcached =>
      split
      next hkey =>
        obtain ⟨hsignature, hchunks, hstopped⟩ := h key cached hcached
        have hfresh := uncached_eq isWord weigh
          (hsight (by rw [hcached]; rfl) (hsignature.symm.trans hkey))
        rw [hfresh] at hchunks hstopped
        exact ⟨hchunks, Bool.eq_iff_iff.mpr ⟨hmark, hstopped⟩⟩
      next => exact hrebuild
    next => exact hrebuild

/-- **The cached index agrees with a fresh one**, along every run of changes and builds, where
each build finds what it has seen. -/
theorem build_agrees_along (isWord : Char → Bool) (lower : Text → Text) (weigh : Text → W)
    (disk : Text → Workspace) (actions : List Action)
    (h : Along (step isWord lower weigh) (Seen isWord lower weigh) (State.start disk) actions) :
    Along (step isWord lower weigh) (Agrees isWord lower weigh) (State.start disk) actions :=
  along_of_invariant (fun _ a hvalid _ => hvalid.step a) (fun _ _ hvalid hseen => agrees_of_seen hvalid hseen)
    (valid_start disk) h

end Cache

/-- Two builds of one file, the second from the cache. -/
theorem build_agrees_twice :
    let disk : Text → Workspace := fun _ => [("a.py".toList, ⟨1, 5, some "alpha".toList⟩)]
    Along (step Char.isAlphanum (List.map asciiLower) List.length)
      (Agrees Char.isAlphanum (List.map asciiLower) List.length) (State.start disk)
      [.build "w".toList, .build "w".toList] := by
  refine build_agrees_along _ _ _ _ _ ⟨⟨nofun, nofun⟩, ⟨fun _ _ => rfl, fun hmark => ?_⟩, trivial⟩
  have hmarked := indexWasTruncated_rebuild Char.isAlphanum (List.map asciiLower) List.length
    (State.start fun _ => [("a.py".toList, ⟨1, 5, some "alpha".toList⟩)]) "w".toList
  rw [show indexWasTruncated (State.start fun _ => _) _ = false from rfl, Bool.or_false] at hmarked
  exact hmarked.symm.trans hmark

/-! ## Many files -/

section Many

variable {lower : Text → Text}

theorem textLe_total (a b : Text) : (textLe a b || textLe b a) = true := by
  induction a generalizing b with
  | nil => rfl
  | cons c a ih =>
    cases b with
    | nil => rfl
    | cons d b =>
      have hih := ih b
      simp only [textLe, Bool.or_eq_true, Bool.and_eq_true, decide_eq_true_eq, beq_iff_eq] at hih ⊢
      rcases Nat.lt_trichotomy c.toNat d.toNat with hlt | heq | hgt
      · exact .inl (.inl hlt)
      · have hcd : c = d := Char.toNat_inj.mp heq
        exact hih.imp (fun h => .inr ⟨hcd, h⟩) (fun h => .inr ⟨hcd.symm, h⟩)
      · exact .inr (.inl hgt)

theorem textLe_trans (a b c : Text) (hab : textLe a b = true) (hbc : textLe b c = true) :
    textLe a c = true := by
  induction a generalizing b c with
  | nil => rfl
  | cons x a ih =>
    cases b with
    | nil => cases hab
    | cons y b =>
      cases c with
      | nil => cases hbc
      | cons z c =>
        simp only [textLe, Bool.or_eq_true, Bool.and_eq_true, decide_eq_true_eq,
          beq_iff_eq] at hab hbc ⊢
        rcases hab with hxy | ⟨rfl, hab⟩ <;> rcases hbc with hyz | ⟨rfl, hbc⟩
        · exact .inl (hxy.trans hyz)
        · exact .inl hxy
        · exact .inl hyz
        · exact .inr ⟨rfl, ih b c hab hbc⟩

theorem codeFirstLe_iff {a b : Text} : codeFirstLe lower a b = true ↔
    rank lower a < rank lower b ∨ (rank lower a = rank lower b ∧ textLe a b = true) := by
  unfold codeFirstLe
  rw [Bool.or_eq_true, Bool.and_eq_true, decide_eq_true_eq, beq_iff_eq]

theorem codeFirst_sorted (lower : Text → Text) (files : List Text) :
    (codeFirst lower files).Pairwise fun a b => codeFirstLe lower a b = true := by
  refine List.pairwise_mergeSort ?_ ?_ files
  · intro a b c hab hbc
    rw [codeFirstLe_iff] at hab hbc ⊢
    rcases hab with hab | ⟨hab, hle⟩ <;> rcases hbc with hbc | ⟨hbc, hle'⟩
    · exact .inl (hab.trans hbc)
    · exact .inl (by omega)
    · exact .inl (by omega)
    · exact .inr ⟨hab.trans hbc, textLe_trans a b c hle hle'⟩
  · intro a b
    rw [Bool.or_eq_true, codeFirstLe_iff, codeFirstLe_iff]
    rcases Nat.lt_trichotomy (rank lower a) (rank lower b) with hlt | heq | hgt
    · exact .inl (.inl hlt)
    · exact (Bool.or_eq_true _ _ ▸ textLe_total a b).imp (fun h => .inr ⟨heq, h⟩)
        (fun h => .inr ⟨heq.symm, h⟩)
    · exact .inr (.inl hgt)

/-- A source file that is listed behind others that are none stands in front of them. -/
theorem codeFirst_concat (lower : Text → Text) {others : List Text} {file : Text} (hfile : rank lower file = 0)
    (hothers : ∀ other ∈ others, 0 < rank lower other) :
    ∃ rest, codeFirst lower (others ++ [file]) = file :: rest ∧ ∀ other ∈ rest, other ∈ others := by
  have hperm : (codeFirst lower (others ++ [file])).Perm (others ++ [file]) :=
    List.mergeSort_perm _ _
  have hsorted := codeFirst_sorted lower (others ++ [file])
  cases hcode : codeFirst lower (others ++ [file]) with
  | nil =>
    have := hperm.length_eq
    rw [hcode, List.length_append] at this
    cases this
  | cons first rest =>
    rw [hcode] at hperm hsorted
    have hfirst : first = file := by
      rcases List.mem_append.mp (hperm.subset List.mem_cons_self) with hmem | hmem
      · -- the source file would stand behind one that is none
        have hpos := hothers first hmem
        rcases List.mem_cons.mp (hperm.symm.subset (List.mem_append_right others
          (List.mem_singleton_self file))) with heq | hmem'
        · exact heq.symm
        · rcases codeFirstLe_iff.mp (List.rel_of_pairwise_cons hsorted hmem') with h | h
          · omega
          · omega
      · exact List.mem_singleton.mp hmem
    subst hfirst
    refine ⟨rest, rfl, fun other hmem => ?_⟩
    have hrest : rest.Perm others :=
      (List.perm_cons first).mp (hperm.trans (List.perm_append_singleton first others))
    exact hrest.subset hmem

/-- As many empty notes as the key has room for. -/
def notes : Workspace :=
  (List.range maxIndexedFiles).map fun i => (List.replicate i 'a' ++ ".md".toList, ⟨0, 0, some []⟩)

/-- The notes, and behind them a source file of one line. -/
def withSource (mtimeNs : Int) (line : Text) : Workspace :=
  notes ++ [("z.py".toList, ⟨mtimeNs, line.length, some line⟩)]

def sourceChunk (line : Text) : Chunk := ⟨"z.py".toList, 1, 1, [], line⟩

theorem rank_note {name : Text} (h : name ∈ notes.names) : 0 < rank (List.map asciiLower) name := by
  obtain ⟨entry, hentry, rfl⟩ := List.mem_map.mp h
  obtain ⟨i, -, rfl⟩ := List.mem_map.mp hentry
  have hdot : '.' ∈ List.replicate i 'a' ++ ".md".toList :=
    List.mem_append_right _ List.mem_cons_self
  unfold rank
  dsimp only
  rw [if_pos hdot, List.reverse_append]
  show 0 < if codeSuffixes.any (·.toList == ".md".toList) then 0
    else if configSuffixes.any (·.toList == ".md".toList) then 1 else 2
  decide

variable {mtimeNs : Int} {line : Text}

theorem names_withSource : (withSource mtimeNs line).names = notes.names ++ ["z.py".toList] :=
  List.map_append

theorem length_notes : notes.names.length = maxIndexedFiles := by
  unfold notes Workspace.names
  rw [List.length_map, List.length_map, List.length_range]

theorem file_note {name : Text} (h : name ∈ notes.names) :
    (withSource mtimeNs line).file name = some ⟨0, 0, some []⟩ := by
  obtain ⟨entry, hentry, rfl⟩ := List.mem_map.mp h
  have hsome : (notes.find? fun f => f.1 == entry.1).isSome :=
    List.find?_isSome.mpr ⟨entry, hentry, beq_self_eq_true _⟩
  obtain ⟨found, hfound⟩ := Option.isSome_iff_exists.mp hsome
  obtain ⟨i, -, hi⟩ := List.mem_map.mp (List.mem_of_find?_eq_some hfound)
  unfold Workspace.file withSource
  rw [List.find?_append, hfound]
  show some found.2 = _
  rw [← hi]

theorem file_source : (withSource mtimeNs line).file "z.py".toList =
    some ⟨mtimeNs, line.length, some line⟩ := by
  have hnone : notes.find? (fun f => f.1 == "z.py".toList) = none := by
    refine List.find?_eq_none.mpr fun entry hentry heq => ?_
    have hpos := rank_note (List.mem_map_of_mem hentry)
    rw [beq_iff_eq.mp heq] at hpos
    exact absurd hpos (by decide)
  unfold Workspace.file withSource
  rw [List.find?_append, hnone]
  rfl

/-- The key does not see the source file. -/
theorem signature_withSource : signature (withSource mtimeNs line) (withSource mtimeNs line).names =
    notes.names.map fun name => (name, 0) := by
  unfold signature
  rw [names_withSource, List.take_left' length_notes]
  refine List.map_congr_left fun name hmem => ?_
  rw [file_note hmem]
  rfl

theorem addFiles_empty {isWord : Char → Bool} {W : Type} {weigh : Text → W}
    {files : List (Text × Option Text)} (h : ∀ file ∈ files, file.2 = some [])
    (chunks : List (Entry W)) : addFiles isWord weigh files chunks = (chunks, false) := by
  induction files with
  | nil => rfl
  | cons file files ih =>
    obtain ⟨hfile, hfiles⟩ := List.forall_mem_cons.mp h
    obtain ⟨relative, content?⟩ := file
    subst hfile
    exact ih hfiles

/-- The index has the source file. -/
theorem uncached_withSource {W : Type} (weigh : Text → W) (hsize : line.length ≤ maxFileBytes)
    (hzero : line.contains '\x00' = false)
    (hchunk : chunkFile Char.isAlphanum "z.py".toList line = [sourceChunk line]) :
    (buildIndexUncached Char.isAlphanum (List.map asciiLower) weigh (withSource mtimeNs line)
      (withSource mtimeNs line).names).1 =
        [⟨sourceChunk line, weigh (searchable (sourceChunk line))⟩] := by
  obtain ⟨rest, hcode, hrest⟩ := codeFirst_concat (List.map asciiLower)
    (show rank (List.map asciiLower) "z.py".toList = 0 by decide) fun _ => rank_note
  have htext : indexedText (some ⟨mtimeNs, line.length, some line⟩) = some line := by
    unfold indexedText
    dsimp only
    rw [if_neg (Nat.not_lt.mpr hsize), Option.filter_some, hzero]
    rfl
  unfold buildIndexUncached selected
  rw [names_withSource, hcode, show maxIndexedFiles = 1499 + 1 from rfl, List.take_succ_cons,
    List.map_cons, file_source, htext, addFiles, hchunk]
  show (addFiles _ _ ((rest.take 1499).map _) [_]).1 = _
  rw [addFiles_empty fun file hfile => ?_]
  obtain ⟨name, hname, rfl⟩ := List.mem_map.mp hfile
  rw [file_note (hrest name (List.mem_of_mem_take hname))]
  rfl

theorem file_other {name : Text} (h : name ≠ "z.py".toList) :
    (withSource mtimeNs line).file name = notes.file name := by
  unfold Workspace.file withSource
  rw [List.find?_append, List.find?_singleton, if_neg (by simpa using h.symm), Option.or_none]

end Many

/-- An edit of the source file behind the notes is not seen. -/
theorem build_returns_old : ¬ ∀ (isWord : Char → Bool) (lower : Text → Text) (W : Type)
    (weigh : Text → W) (disk : Text → Workspace) (actions : List Action),
    Along (step isWord lower weigh) Stamped (State.start disk) actions →
    Along (step isWord lower weigh) (Agrees isWord lower weigh) (State.start disk) actions := by
  intro hall
  have hstamped : Along (step Char.isAlphanum (List.map asciiLower) fun _ => ()) Stamped
      (State.start fun _ => withSource 1 "alpha".toList)
      [.build "w".toList, .change "w".toList (withSource 2 "bravo".toList), .build "w".toList] := by
    refine ⟨trivial, fun name old new hold hnew hedit => ?_, trivial, trivial⟩
    have hold : (withSource 1 "alpha".toList).file name = some old := hold
    by_cases hname : name = "z.py".toList
    · subst hname
      rw [file_source] at hold hnew
      cases hold
      cases hnew
      decide
    · rw [file_other hname] at hold hnew
      cases hold.symm.trans hnew
      exact absurd rfl hedit
  obtain ⟨-, -, hagrees, -⟩ := hall _ _ _ _ _ _ hstamped
  have hcached := cached_built Char.isAlphanum (List.map asciiLower) (fun _ => ()) (fun _ => withSource 1 "alpha".toList) "w".toList
    (withSource 2 "bravo".toList)
  have hdisk := disk_change Char.isAlphanum (List.map asciiLower) (fun _ => ())
    (step Char.isAlphanum (List.map asciiLower) (fun _ => ())
      (State.start fun _ => withSource 1 "alpha".toList) (.build "w".toList)) "w".toList
    (withSource 2 "bravo".toList)
  generalize step _ _ _ (step _ _ _ _ _) (.change _ _) = s at hagrees hcached hdisk
  obtain ⟨hsame, -⟩ := hagrees
  rw [hdisk, uncached_withSource _ (by decide) (by decide) (by decide)] at hsame
  unfold buildIndex at hsame
  rw [hcached, hdisk] at hsame
  dsimp only at hsame
  rw [if_pos (by exact signature_withSource.trans signature_withSource.symm)] at hsame
  dsimp only at hsame
  rw [uncached_withSource _ (by decide) (by decide) (by decide)] at hsame
  exact absurd hsame (by decide)

end Shamsu.Tools.SearchIndex
