import Shamsu.Lib.Run
import Shamsu.Tools.Resolve

/-!
# Project memory

`shamsu/memory/sqlite_store.py`: `remember` with its deduplication, and what else changes
a row. A memory that is forgotten or found stale stays in the table; `list_active` leaves
it out.

`remember_listed` tells when a memory that `remember` says it has is listed. A row that is
ACTIVE takes a repetition of its text, also when it is stale: then nothing is inserted, and
the row stays stale.
-/

namespace Shamsu.Memory

open Shamsu.Lib Shamsu.Py
open Shamsu.Tools (Casing asciiLower)

/-- `MemoryFreshness`. -/
inductive MemoryFreshness where
  | fresh | stale | unknown
  deriving DecidableEq, Repr

/-- `MemoryRecordStatus`. -/
inductive MemoryRecordStatus where
  | active | superseded | invalidated | forgotten
  deriving DecidableEq, Repr

/-- A note, as a tool of the model sends it. -/
structure Note where
  title : Text := []
  type : Option Text := none
  createdAt : Text := []
  deriving DecidableEq, Repr

/-- What is read of the `metadata` of a memory; a key that is missing is `none`. -/
structure Metadata where
  projectId : Option Text := none
  workspace : Option Text := none
  source : Option Text := none
  sourceRunId : Option Text := none
  runId : Option Text := none
  note : Option Note := none
  deriving DecidableEq, Repr

/-- A row of `memories`. -/
structure MemoryRow where
  memoryId : Text
  kind : Text
  text : Text
  content : Text
  projectId : Text
  source : Text
  metadata : Metadata
  createdAt : Nat
  lastVerifiedAt : Nat
  freshness : MemoryFreshness
  status : MemoryRecordStatus
  deriving DecidableEq, Repr

/-- The database. A tombstone is a text and its normal form. -/
structure MemoryStore where
  memories : List MemoryRow
  tombstones : List (Text × Text)
  deriving DecidableEq, Repr

/-- The `INSERT` of an id that is taken. -/
inductive IntegrityError where
  | unique
  deriving DecidableEq, Repr

/-- What `remember` returns. -/
structure Remembered where
  ok : Bool
  error : String := ""
  deduped : Bool := false
  updated : Bool := false
  memoryId : Text := []
  deriving DecidableEq, Repr

/-- `a or b`. -/
def orElse (a b : Text) : Text := if a = [] then b else a

/-- `metadata.get("source_run_id") or metadata.get("run_id") or ""`. -/
def Metadata.sourceRun (m : Metadata) : Text := orElse (m.sourceRunId.getD []) (m.runId.getD [])

/-- `{**old, **new}`. -/
def Metadata.merge (old new : Metadata) : Metadata where
  projectId := new.projectId.or old.projectId
  workspace := new.workspace.or old.workspace
  source := new.source.or old.source
  sourceRunId := new.sourceRunId.or old.sourceRunId
  runId := new.runId.or old.runId
  note := new.note.or old.note

/-- The text of a memory. -/
def MemoryRow.shown (m : MemoryRow) : Text := orElse m.content m.text

/-- `_active` takes it. -/
def MemoryRow.isActive (m : MemoryRow) : Bool := m.status == .active && m.freshness != .stale

/-- `column LIKE pattern`. -/
def like : Text → Text → Bool
  | [], t => t.isEmpty
  | '%' :: pattern, t => t.tails.any fun rest => like pattern rest
  | '_' :: pattern, _ :: t => like pattern t
  | c :: pattern, d :: t => asciiLower c == asciiLower d && like pattern t
  | _ :: _, [] => false

/-- `f"%{query}%"`. -/
def around (query : Text) : Text := '%' :: (query ++ ['%'])

/-- `_STOPWORDS`. -/
def stopwords : List String :=
  ["the", "and", "for", "with", "that", "this", "from", "into", "a", "an", "of", "to", "on", "in",
    "it", "is", "be", "should", "must", "will"]

/-- `_norm`. -/
def norm (c : Casing) (text : Text) : Text := join ' ' (words (c.lower text))

/-- `_tokens`. -/
def tokens (c : Casing) (text : Text) : List Text :=
  let spaced := (norm c text).map fun x => if x = '.' ∨ x = ',' then ' ' else x
  ((words spaced).filter fun w =>
    !(stopwords.any fun stop => stop.toList == w) && decide (2 < w.length)).dedup

/-- `_overlap_score(query, doc) < 0.35`. -/
def overlapsLittle (query doc : List Text) : Bool :=
  query.isEmpty || doc.isEmpty ||
    decide (100 * (query.filter fun w => doc.contains w).length < 35 * query.length)

/-- `UPDATE memories SET … WHERE …`. -/
def MemoryStore.update (s : MemoryStore) (which : MemoryRow → Bool) (set : MemoryRow → MemoryRow) :
    MemoryStore :=
  { s with memories := s.memories.map fun m => if which m then set m else m }

/-- `_all`: the newest first. -/
def MemoryStore.all (s : MemoryStore) : List MemoryRow :=
  s.memories.insertionSort fun a b => b.createdAt ≤ a.createdAt

/-- `list_active`. -/
def MemoryStore.listActive (s : MemoryStore) : List MemoryRow := s.all.filter MemoryRow.isActive

/-- The memory is of other text but says much the same. -/
def conflicts (c : Casing) (kind freshText projectId : Text) (m : MemoryRow) : Bool :=
  m.kind == kind && m.status == .active &&
    !(projectId != [] && m.projectId != [] && m.projectId != projectId) &&
    norm c m.shown != norm c freshText &&
    !overlapsLittle (tokens c freshText) (tokens c m.shown)

/-- `mark_conflicting_stale`. -/
def markConflictingStale (c : Casing) (kind freshText projectId : Text) (s : MemoryStore) :
    MemoryStore :=
  if tokens c freshText = [] then s
  else
    s.all.foldl (fun s memory =>
      if conflicts c kind freshText projectId memory then
        s.update (fun m => m.memoryId == memory.memoryId) fun m =>
          { m with status := .superseded, freshness := .stale }
      else s) s

/-- The sources that supersede. -/
def evidenceSources : List String := ["repository_evidence", "file.read", "tool_result", "evidence"]

/-- `remember`'s `same_note`. -/
def sameNote (c : Casing) (note old : Option Note) : Bool :=
  match note, old with
  | some note, some old => norm c note.title == norm c old.title && note.type == old.type
  | _, _ => false

/-- The row takes the memory that is remembered. -/
def takes (c : Casing) (kind projectId text : Text) (metadata : Metadata) (m : MemoryRow) : Bool :=
  let run := metadata.sourceRun
  let sameSource := run == m.metadata.sourceRun || run == [] || m.metadata.sourceRun == []
  m.kind == kind && m.projectId == projectId &&
    (sameNote c metadata.note m.metadata.note || norm c m.shown == norm c text) && sameSource &&
    m.status == .active

/-- The note that is kept has the time of the old one. -/
def keptNote (note : Note) (old : Option Note) : Note :=
  match old with
  | some old => { note with createdAt := orElse old.createdAt note.createdAt }
  | none => note

/-- The project of a memory. -/
def projectOf (projectId : Text) (metadata : Metadata) : Text :=
  orElse projectId (orElse (metadata.projectId.getD []) (metadata.workspace.getD []))

/-- The source of a memory. -/
def sourceOf (source : Text) (metadata : Metadata) : Text :=
  orElse source (orElse (metadata.source.getD []) "unknown".toList)

/-- `remember`, at a time and with the id that a new row gets. -/
def remember (c : Casing) (now : Nat) (newId : Text) (text kind : Text) (metadata : Metadata := {})
    (projectId : Text := []) (source : Text := "unknown".toList)
    (freshness : MemoryFreshness := .fresh) (status : MemoryRecordStatus := .active) :
    Prog IntegrityError MemoryStore Remembered := fun s =>
  let text := strip text
  if text = [] then (.ok { ok := false, error := "empty memory text" }, s)
  else
    let projectId := projectOf projectId metadata
    let source := sourceOf source metadata
    let buried := s.tombstones.filter fun t => !(t.1 == text || t.2 == norm c text)
    let s₁ := { s with tombstones := buried }
    match s.all.find? (takes c kind projectId text metadata) with
    | some existing =>
      let sameText := norm c existing.shown == norm c text
      let s₂ :=
        match metadata.note with
        | none => s₁
        | some note =>
          s₁.update (fun m => m.memoryId == existing.memoryId) fun m =>
            { m with
              text, content := text, source, freshness, lastVerifiedAt := now
              metadata := existing.metadata.merge
                { metadata with note := some (keptNote note existing.metadata.note) } }
      (.ok { ok := true, deduped := sameText, updated := !sameText,
             memoryId := existing.memoryId }, s₂)
    | none =>
      let s₂ :=
        if evidenceSources.any fun e => e.toList == source then
          markConflictingStale c kind text projectId s₁
        else s₁
      if s₂.memories.any fun m => m.memoryId == newId then (.error .unique, s)
      else
        let row : MemoryRow :=
          { memoryId := newId, kind, text, content := text, projectId, source, metadata
            createdAt := now, lastVerifiedAt := if freshness = .fresh then now else 0
            freshness, status }
        (.ok { ok := true, memoryId := newId }, { s₂ with memories := s₂.memories ++ [row] })

/-- `forget`: by id, or by text. -/
def forget (c : Casing) (query : Text) (s : MemoryStore) : MemoryStore :=
  let tombstones :=
    if s.tombstones.any fun t => t.1 == query then s.tombstones
    else s.tombstones ++ [(query, norm c query)]
  let s := { s with tombstones }
  let forgotten (m : MemoryRow) : MemoryRow := { m with status := .forgotten, freshness := .stale }
  if s.memories.any fun m => m.memoryId == query then s.update (·.memoryId == query) forgotten
  else s.update (fun m => like (around query) m.text || like (around query) m.content) forgotten

/-- `mark_stale`. -/
def markStale (query : Text) (s : MemoryStore) : MemoryStore :=
  s.update (fun m => m.memoryId == query || like (around query) m.text ||
    like (around query) m.content) fun m => { m with freshness := .stale }

/-- `verify`. -/
def verify (now : Nat) (memoryId source : Text) (s : MemoryStore) : MemoryStore :=
  s.update (·.memoryId == memoryId) fun m =>
    { m with freshness := .fresh, status := .active, lastVerifiedAt := now, source }

/-! ## Runs -/

/-- What is done to the store. -/
inductive Operation where
  | remember (now : Nat) (newId text kind : Text) (metadata : Metadata) (projectId source : Text)
      (freshness : MemoryFreshness) (status : MemoryRecordStatus)
  | forget (query : Text)
  | markStale (query : Text)
  | verify (now : Nat) (memoryId source : Text)
  | markConflictingStale (kind freshText projectId : Text)

def MemoryStore.empty : MemoryStore := ⟨[], []⟩

/-- One operation. -/
def MemoryStore.step (c : Casing) (s : MemoryStore) : Operation → MemoryStore
  | .remember now newId text kind metadata projectId source freshness status =>
    (Memory.remember c now newId text kind metadata projectId source freshness status s).2
  | .forget query => Memory.forget c query s
  | .markStale query => Memory.markStale query s
  | .verify now memoryId source => Memory.verify now memoryId source s
  | .markConflictingStale kind freshText projectId =>
    Memory.markConflictingStale c kind freshText projectId s

/-! ## What is listed -/

/-- A memory of that kind and text is among the active ones of the project. -/
def Listed (c : Casing) (kind projectId text : Text) (s : MemoryStore) : Prop :=
  ∃ m ∈ s.listActive, m.kind = kind ∧ m.projectId = projectId ∧ norm c m.shown = norm c text

instance (c : Casing) (kind projectId text : Text) (s : MemoryStore) :
    Decidable (Listed c kind projectId text s) :=
  inferInstanceAs (Decidable (∃ m ∈ s.listActive, _))

section Listing

variable {c : Casing} {s : MemoryStore} {m : MemoryRow} {kind text projectId : Text}
  {metadata : Metadata}

theorem mem_all : m ∈ s.all ↔ m ∈ s.memories := List.mem_insertionSort _

theorem mem_listActive : m ∈ s.listActive ↔ m ∈ s.memories ∧ m.status = .active ∧
    m.freshness ≠ .stale := by
  unfold MemoryStore.listActive MemoryRow.isActive
  rw [List.mem_filter, mem_all, Bool.and_eq_true, beq_iff_eq, bne_iff_ne]

theorem listed_congr {s' : MemoryStore} (h : s'.memories = s.memories) :
    Listed c kind projectId text s' ↔ Listed c kind projectId text s := by
  unfold Listed
  simp only [mem_listActive, h]

theorem mem_update {which : MemoryRow → Bool} {set : MemoryRow → MemoryRow} (h : m ∈ s.memories)
    (hw : which m = true) : set m ∈ (s.update which set).memories :=
  List.mem_map.mpr ⟨m, h, if_pos hw⟩

/-- A row that takes a memory without a note has its text. -/
theorem takes_spec (h : takes c kind projectId text metadata m = true) :
    m.kind = kind ∧ m.projectId = projectId ∧ m.status = .active ∧
      (metadata.note = none → norm c m.shown = norm c text) := by
  unfold takes at h
  simp only [Bool.and_eq_true, Bool.or_eq_true, beq_iff_eq] at h
  obtain ⟨⟨⟨⟨hkind, hproject⟩, hsame⟩, _⟩, hactive⟩ := h
  refine ⟨hkind, hproject, hactive, fun hnote => hsame.resolve_left ?_⟩
  rw [hnote]
  exact Bool.false_ne_true

theorem shown_of_content (h : m.content ≠ []) : m.shown = m.content := if_neg h

end Listing

/-- A memory that is remembered ends up in the list: it carries a note (the row that takes it
is written again), or no row takes it (it is inserted), or it is listed already. -/
def Refreshed (c : Casing) (kind projectId text : Text) (metadata : Metadata) (s : MemoryStore) :
    Prop :=
  metadata.note ≠ none ∨ (∀ m ∈ s.memories, takes c kind projectId text metadata m = false) ∨
    Listed c kind projectId text s

section Remember

variable {c : Casing} {s : MemoryStore} {now : Nat} {newId text kind projectId source : Text}
  {metadata : Metadata}

/-- A row takes the memory: without a note the rows stay as they are. -/
theorem remember_taken {existing : MemoryRow} (htext : strip text ≠ [])
    (hfind : s.all.find? (takes c kind (projectOf projectId metadata) (strip text) metadata) =
      some existing) :
    ∃ r s', remember c now newId text kind metadata projectId source .fresh .active s =
        (.ok r, s') ∧ r.ok = true ∧
      (metadata.note = none → s'.memories = s.memories) ∧
      (metadata.note ≠ none → Listed c kind (projectOf projectId metadata) (strip text) s') := by
  unfold remember
  dsimp only
  rw [if_neg htext, hfind]
  dsimp only
  refine ⟨_, _, rfl, rfl, ?_, ?_⟩
  · intro hnote
    rw [hnote]
  · intro hnote
    cases hn : metadata.note with
    | none => exact absurd hn hnote
    | some note =>
      have hmem := mem_all.mp (List.mem_of_find?_eq_some hfind)
      obtain ⟨hkind, hproject, hactive, _⟩ := takes_spec (List.find?_some hfind)
      refine ⟨_, mem_listActive.mpr ⟨mem_update hmem (beq_self_eq_true _), hactive, ?_⟩, hkind,
        hproject, ?_⟩
      · exact fun h => by cases h
      · rw [shown_of_content htext]

/-- No row takes it: a new row does, if its id is free. -/
theorem remember_new (htext : strip text ≠ [])
    (hfind : s.all.find? (takes c kind (projectOf projectId metadata) (strip text) metadata) =
      none) :
    (∃ s', remember c now newId text kind metadata projectId source .fresh .active s =
      (.error .unique, s')) ∨
    ∃ r s', remember c now newId text kind metadata projectId source .fresh .active s =
        (.ok r, s') ∧ Listed c kind (projectOf projectId metadata) (strip text) s' := by
  unfold remember
  dsimp only
  rw [if_neg htext, hfind]
  dsimp only
  generalize (if (evidenceSources.any fun e => e.toList == sourceOf source metadata) = true
    then _ else _ : MemoryStore) = s₂
  split
  · exact Or.inl ⟨_, rfl⟩
  · refine Or.inr ⟨_, _, rfl, ?_⟩
    refine ⟨_, mem_listActive.mpr ⟨List.mem_append_right _ (List.mem_singleton.mpr rfl), rfl, ?_⟩,
      rfl, rfl, ?_⟩
    · exact fun h => MemoryFreshness.noConfusion h
    · rw [shown_of_content htext]

/-- **What is remembered is listed**, exactly when it is `Refreshed`. -/
theorem remember_listed_iff :
    (∀ r, (remember c now newId text kind metadata projectId source .fresh .active s).1 = .ok r →
      r.ok = true → Listed c kind (projectOf projectId metadata) (strip text)
        (remember c now newId text kind metadata projectId source .fresh .active s).2) ↔
    (strip text = [] ∨ Refreshed c kind (projectOf projectId metadata) (strip text) metadata s) := by
  by_cases htext : strip text = []
  · -- a blank text is refused
    refine iff_of_true ?_ (Or.inl htext)
    intro r hr hok
    unfold remember at hr
    dsimp only at hr
    rw [if_pos htext] at hr
    cases hr
    cases hok
  · rw [or_iff_right htext]
    cases hfind : s.all.find? (takes c kind (projectOf projectId metadata) (strip text) metadata) with
    | none =>
      refine iff_of_true ?_ (Or.inr (Or.inl ?_))
      · intro r hr _
        rcases @remember_new c s now newId text kind projectId source metadata htext hfind with
          ⟨s', he⟩ | ⟨r', s', he, hlisted⟩
        · rw [he] at hr
          cases hr
        · rw [he]
          exact hlisted
      · intro m hm
        simpa using List.find?_eq_none.mp hfind m (mem_all.mpr hm)
    | some existing =>
      obtain ⟨r, s', he, hok, hsame, hnoted⟩ :=
        @remember_taken c s now newId text kind projectId source metadata existing htext hfind
      rw [he]
      by_cases hnote : metadata.note = none
      · -- nothing changes, and the row that takes it is there
        have htaken : ¬ ∀ m ∈ s.memories,
            takes c kind (projectOf projectId metadata) (strip text) metadata m = false := by
          intro hno
          have hf := hno existing (mem_all.mp (List.mem_of_find?_eq_some hfind))
          rw [List.find?_some hfind] at hf
          cases hf
        have hnotes : ¬ metadata.note ≠ none := fun h => h hnote
        unfold Refreshed
        rw [or_iff_right hnotes, or_iff_right htaken, ← listed_congr (hsame hnote)]
        exact ⟨fun h => h r rfl hok, fun h _ _ _ => h⟩
      · exact iff_of_true (fun _ _ _ => hnoted hnote) (Or.inl hnote)

end Remember

/-- **What is remembered is listed**, in every state that the store can be in. -/
theorem remembered_listed (c : Casing) (ops : List Operation) (now : Nat)
    (newId text kind projectId source : Text) (metadata : Metadata) :
    (∀ r s', remember c now newId text kind metadata projectId source .fresh .active
        (run (MemoryStore.step c) .empty ops) = (.ok r, s') → r.ok = true →
      Listed c kind (projectOf projectId metadata) (strip text) s') ↔
    (strip text = [] ∨ Refreshed c kind (projectOf projectId metadata) (strip text) metadata
      (run (MemoryStore.step c) .empty ops)) := by
  rw [← @remember_listed_iff c _ now newId text kind projectId source metadata]
  constructor
  · intro h r hr hok
    exact h r _ (Prod.ext hr rfl) hok
  · intro h r s' he hok
    rw [he] at h
    exact h r rfl hok

/-- A text that has become stale is remembered again, and stays stale. -/
theorem remembered_stale :
    ∃ r s', remember Casing.ascii 2 ['2'] "Use pnpm".toList "project_fact".toList {} [] []
        .fresh .active (run (MemoryStore.step Casing.ascii) .empty
          [.remember 1 ['1'] "Use pnpm".toList "project_fact".toList {} [] [] .fresh .active,
            .markStale "pnpm".toList]) = (.ok r, s') ∧ r.ok = true ∧
      ¬ Listed Casing.ascii "project_fact".toList [] "Use pnpm".toList s' :=
  ⟨_, _, rfl, by decide, by decide⟩

end Shamsu.Memory
