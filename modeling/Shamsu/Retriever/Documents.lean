import Shamsu.Lib.Run
import Shamsu.Py.SourceLines

/-!
# Registered documents

`shamsu/retriever/documents.py`: a document is cut into chunks with ids `{document_id}:1`,
`{document_id}:2`, …; registering a document id again replaces its record. A semantic search
takes the vectors of the chunks it looks at from the cache of the process, then from the
vectors file of the document, whose entries count only for the text with their hash, and has
the others embedded.

The cache has no hash. `registered_scores_current`: every semantic score is that of the
chunk's present text in every run in which a document is registered only while no vector of
another text is held for one of its chunks.
-/

namespace Shamsu.Retriever

open Shamsu.Lib Shamsu.Py

/-! ## Documents -/

structure DocumentChunk where
  id : Text
  documentId : Text
  documentName : Text
  source : Text
  ordinal : Nat
  text : Text
  heading : Text
  deriving DecidableEq, Repr

/-- `f"{document_id}:{ordinal}"`. -/
def chunkId (documentId : Text) (ordinal : Nat) : Text :=
  documentId ++ ':' :: Nat.toDigits 10 ordinal

/-- What is in `{document_id}.json`. -/
structure DocumentRecord where
  documentId : Text
  name : Text
  source : Text
  chunks : List DocumentChunk
  numbered : ∀ c ∈ chunks, c.documentId = documentId ∧ c.id = chunkId documentId c.ordinal
  ordinals : (chunks.map DocumentChunk.ordinal).Nodup

/-- The runs of `[a-z0-9]`. -/
def alnumRuns (s : Text) : List Text :=
  (s.splitOnP fun c => !(c.isLower || c.isDigit)).filter fun part => !part.isEmpty

/-- `_normal_name`. -/
def normalName (lower : Text → Text) (value : Text) : Text := join ' ' (alnumRuns (lower value))

/-- `_document_id`. -/
def documentIdOf (lower : Text → Text) (name : Text) : Option Text :=
  let slug := ((join '-' (alnumRuns (lower name))).take 72).rdropWhile (· == '-')
  if slug = [] then none else some ("doc-".toList ++ slug)

/-- `MAX_DOCUMENT_CHUNKS`. -/
def maxDocumentChunks : Nat := 2000

/-- The chunks of a document, from the heading and the text of each. -/
def numberedChunks (documentId name source : Text) (pieces : List (Text × Text)) :
    List DocumentChunk :=
  pieces.zipIdx.map fun (piece, i) =>
    ⟨chunkId documentId (i + 1), documentId, name, source, i + 1, piece.2, piece.1⟩

theorem numbered_numberedChunks {documentId name source : Text} {pieces : List (Text × Text)} :
    ∀ c ∈ numberedChunks documentId name source pieces,
      c.documentId = documentId ∧ c.id = chunkId documentId c.ordinal := by
  intro c hc
  obtain ⟨_, _, rfl⟩ := List.mem_map.mp hc
  exact ⟨rfl, rfl⟩

theorem ordinals_numberedChunks (documentId name source : Text) (pieces : List (Text × Text)) :
    ((numberedChunks documentId name source pieces).map DocumentChunk.ordinal).Nodup := by
  have hmap : (numberedChunks documentId name source pieces).map DocumentChunk.ordinal =
      (pieces.zipIdx.map Prod.snd).map (· + 1) := by
    unfold numberedChunks
    rw [List.map_map, List.map_map]
    rfl
  rw [hmap, List.zipIdx_map_snd]
  exact List.Nodup.map (fun _ _ h => Nat.add_right_cancel h) (List.nodup_range' _)

/-- `_prepare`, of the pieces that `_chunk_lines` has cut the source into. -/
def prepare (lower : Text → Text) (name source : Text) (pieces : List (Text × Text)) :
    Option DocumentRecord := do
  let documentId ← documentIdOf lower name
  if pieces = [] ∨ maxDocumentChunks < pieces.length then none
  some ⟨documentId, name, source, numberedChunks documentId name source pieces,
    numbered_numberedChunks, ordinals_numberedChunks _ _ _ _⟩

theorem chunkId_injective {d e : Text} {m n : Nat} (h : chunkId d m = chunkId e n) :
    d = e ∧ m = n := by
  -- the digits have no colon, so both ids end at the same one
  have hdigits : ∀ k : Nat, ':' ∉ (Nat.toDigits 10 k).reverse := by
    intro k hk
    have := Nat.isDigit_of_mem_toDigits (by omega) (by omega) (List.mem_reverse.mp hk)
    exact absurd this (by decide)
  have hrev := congrArg List.reverse h
  simp only [chunkId, List.reverse_append, List.reverse_cons, List.append_assoc,
    List.singleton_append] at hrev
  obtain ⟨hm, hd⟩ := append_cons_cancel (hdigits m) (hdigits n) hrev
  refine ⟨List.reverse_injective hd, ?_⟩
  have := congrArg (Nat.ofDigitChars 10 · 0) (List.reverse_injective hm)
  rwa [Nat.ofDigitChars_ten_toDigits, Nat.ofDigitChars_ten_toDigits] at this

/-! ## The store -/

/-- An entry of a vectors file. -/
structure Entry (F : Type) where
  textSha256 : Text
  vector : List F

/-- `vectors/{document_id}.json`. -/
structure VectorFile (F : Type) where
  model : Text
  entries : Text → Option (Entry F)

/-- The documents in the order of their files, the vectors files, and what the process has. -/
structure DocumentStore (F : Type) where
  records : List DocumentRecord
  vectorFile : Text → Option (VectorFile F)
  vectorCache : Text → Option (List F)
  semanticBroken : Bool

/-- An empty workspace. -/
def DocumentStore.fresh (F : Type) : DocumentStore F := ⟨[], fun _ => none, fun _ => none, false⟩

/-- What the store is given: the embedder, `_cosine`, `_keyword_score` and the arithmetic of
the scores. -/
structure Scoring (F S : Type) where
  lower : Text → Text
  textHash : Text → Text
  vectorModel : Text
  embed : Text → List F
  cosine : List F → List F → S
  keywordScore : Text → DocumentChunk → S
  zero : S
  /-- `_MIN_SEMANTIC_SCORE`. -/
  minSemantic : S
  /-- `0.01`. -/
  pagedScore : S
  lt : S → S → Bool
  /-- `keyword_score * 0.65 + semantic_score * 0.35`. -/
  both : S → S → S

/-- A search: how many calls of the embedder get an answer, and which vectors files can be
written. -/
structure Search where
  query : Text
  document : Text
  topK : Int
  semantic : Bool
  answers : Nat
  saves : Text → Bool

inductive MatchKind where
  | keywordSemantic | keyword | semantic | pagedFallback
  deriving DecidableEq, Repr

structure DocumentHit (S : Type) where
  chunk : DocumentChunk
  score : S
  matchKind : MatchKind
  deriving DecidableEq

structure DocumentSearch (S : Type) where
  hits : List (DocumentHit S)
  matchedDocuments : List Text
  semanticUsed : Bool
  semanticFailed : Bool

section Store

variable {F S : Type} (p : Scoring F S)

/-- `find`. -/
def DocumentStore.find (s : DocumentStore F) (name : Text) : List DocumentRecord :=
  let query := normalName p.lower name
  if query = [] then s.records
  else
    let exact_ := s.records.filter fun r =>
      query == normalName p.lower r.name || query == normalName p.lower r.documentId
    if exact_.isEmpty then
      s.records.filter fun r =>
        (Py.find query (normalName p.lower r.name)).isSome
          || (Py.find query (normalName p.lower r.source)).isSome
          || (Py.find (normalName p.lower r.name) query).isSome
    else exact_

/-- The vector of the chunk in the vectors file. -/
def DocumentStore.persisted (s : DocumentStore F) (c : DocumentChunk) : Option (List F) := do
  let file ← s.vectorFile c.documentId
  if file.model ≠ p.vectorModel then none
  let entry ← file.entries c.id
  if entry.textSha256 ≠ p.textHash c.text ∨ entry.vector.isEmpty then none
  some entry.vector

/-- The chunks that have no vector in memory. -/
def DocumentStore.missing (s : DocumentStore F) (chunks : List DocumentChunk) :
    List DocumentChunk :=
  chunks.filter fun c => (s.vectorCache c.id).isNone

/-- A vector is put into the cache. -/
def hold (cache : Text → Option (List F)) (c : DocumentChunk) (v : List F) :
    Text → Option (List F) :=
  Function.update cache c.id (some v)

/-- `_load_persisted_vectors`. -/
def DocumentStore.loadPersistedVectors (s : DocumentStore F) (chunks : List DocumentChunk) :
    DocumentStore F :=
  { s with
    vectorCache := (s.missing chunks).foldl (fun cache c =>
      match s.persisted p c with
      | some v => hold cache c v
      | none => cache) s.vectorCache }

/-- `missing[offset : offset + 32] for offset in range(0, len(missing), 32)`. -/
def batches (missing : List DocumentChunk) : List (List DocumentChunk) :=
  (List.range ((missing.length + 31) / 32)).map fun k => (missing.drop (32 * k)).take 32

/-- The batches are embedded one after the other; what has come before a call fails stays. The
number is of the calls that still get an answer. -/
def embedBatches : Nat → List (List DocumentChunk) → (Text → Option (List F)) →
    (Text → Option (List F)) × Option Nat
  | answers, [], cache => (cache, some answers)
  | 0, _ :: _, cache => (cache, none)
  | answers + 1, batch :: more, cache =>
    embedBatches answers more (batch.foldl (fun cache c => hold cache c (p.embed c.text)) cache)

/-- `_persist_vectors`. -/
def DocumentStore.persistVectors (s : DocumentStore F) (saves : Text → Bool)
    (chunks : List DocumentChunk) : DocumentStore F :=
  { s with
    vectorFile := fun documentId =>
      let held := chunks.filter fun c =>
        c.documentId == documentId && !((s.vectorCache c.id).getD []).isEmpty
      if held.isEmpty || !saves documentId then s.vectorFile documentId
      else
        let entries := match s.vectorFile documentId with
          | some file => if file.model = p.vectorModel then file.entries else fun _ => none
          | none => fun _ => none
        some ⟨p.vectorModel, held.foldl (fun entries c =>
          Function.update entries c.id
            (some ⟨p.textHash c.text, (s.vectorCache c.id).getD []⟩)) entries⟩ }

/-- `_semantic_scores`; `none` where it raises. -/
def DocumentStore.semanticScores (s : DocumentStore F) (q : Search) (chunks : List DocumentChunk) :
    DocumentStore F × Option (List (Text × S)) :=
  let s := s.loadPersistedVectors p chunks
  let missing := s.missing chunks
  match embedBatches p q.answers (batches missing) s.vectorCache with
  | (cache, none) => ({ s with vectorCache := cache }, none)
  | (cache, some answers) =>
    let s := { s with vectorCache := cache }
    let s := if missing.isEmpty then s else s.persistVectors p q.saves missing
    if answers = 0 then (s, none)
    else
      (s, some (chunks.map fun c =>
        (c.id, p.cosine (p.embed (strip q.query)) ((s.vectorCache c.id).getD []))))

/-- What a chunk scores, if it is a hit. -/
def hitOf (query : Text) (c : DocumentChunk) (semanticScore : S) : Option (DocumentHit S) :=
  let keywordScore := p.keywordScore query c
  let worded := p.lt p.zero keywordScore
  let near := !p.lt semanticScore p.minSemantic
  if !worded && !near then none
  else if worded && near then some ⟨c, p.both keywordScore semanticScore, .keywordSemantic⟩
  else if worded then some ⟨c, keywordScore, .keyword⟩
  else some ⟨c, semanticScore, .semantic⟩

/-- The order of the hits. -/
def ranksBefore (a b : DocumentHit S) : Bool :=
  p.lt b.score a.score ||
    (!p.lt a.score b.score &&
      (decide (a.chunk.ordinal < b.chunk.ordinal) ||
        (a.chunk.ordinal == b.chunk.ordinal &&
          !decide (b.chunk.documentName < a.chunk.documentName))))

/-- The semantic scores of a search, and whether there was an error. -/
def DocumentStore.scoresFor (s : DocumentStore F) (q : Search) (chunks : List DocumentChunk) :
    DocumentStore F × List (Text × S) × Bool :=
  if q.semantic && !s.semanticBroken then
    match s.semanticScores p q chunks with
    | (s, some scores) => (s, scores, false)
    | (s, none) => ({ s with semanticBroken := true }, [], true)
  else (s, [], false)

/-- The hits among the chunks, the best first. -/
def scoredHits (query : Text) (chunks : List DocumentChunk) (scores : List (Text × S)) :
    List (DocumentHit S) :=
  (chunks.filterMap fun c =>
    hitOf p query c ((scores.lookup c.id).getD p.zero)).insertionSort
      fun a b => ranksBefore p a b = true

/-- The first chunks of the one document that was asked for, where nothing is a hit. -/
def orPaged (q : Search) (records : List DocumentRecord) (scored : List (DocumentHit S)) :
    List (DocumentHit S) :=
  match scored, records with
  | [], [record] =>
    if q.document.isEmpty then []
    else (record.chunks.take (max 1 (min q.topK 3)).toNat).map
      fun c => ⟨c, p.pagedScore, .pagedFallback⟩
  | _, _ => scored

/-- `search`. -/
def DocumentStore.search (s : DocumentStore F) (q : Search) :
    DocumentStore F × DocumentSearch S :=
  let records := s.find p q.document
  if records.isEmpty || (strip q.query).isEmpty then
    (s, ⟨[], records.map (·.name), false, false⟩)
  else
    let chunks := records.flatMap (·.chunks)
    let (s, scores, failed) := s.scoresFor p q chunks
    let hits := orPaged p q records (scoredHits p (strip q.query) chunks scores)
    (s, ⟨hits.take (max 1 (min q.topK 20)).toNat, records.map (·.name), !scores.isEmpty, failed⟩)

/-- The file of the document is written, over one with its id. -/
def DocumentStore.register (s : DocumentStore F) (record : DocumentRecord) : DocumentStore F :=
  { s with
    records :=
      (record :: s.records.filter fun r => r.documentId != record.documentId).insertionSort
        fun a b => ¬ b.documentId ++ ".json".toList < a.documentId ++ ".json".toList }

/-- Another process: what was in memory is gone. -/
def DocumentStore.restart (s : DocumentStore F) : DocumentStore F :=
  { s with vectorCache := fun _ => none, semanticBroken := false }

inductive Action where
  | register (name source : Text) (pieces : List (Text × Text))
  | restart
  | search (q : Search)

def step (s : DocumentStore F) : Action → DocumentStore F
  | .register name source pieces =>
    match prepare p.lower name source pieces with
    | some record => s.register record
    | none => s
  | .restart => s.restart
  | .search q => (s.search p q).1

/-! ## Scores of present texts -/

/-- The chunk is one of a registered document. -/
def DocumentStore.Has (s : DocumentStore F) (c : DocumentChunk) : Prop :=
  ∃ r ∈ s.records, c ∈ r.chunks

/-- A vector that would be taken for the chunk, from memory or from its file, is that of its
text. -/
def DocumentStore.IsCurrent (s : DocumentStore F) (c : DocumentChunk) : Prop :=
  (∀ v ∈ s.vectorCache c.id, v = p.embed c.text) ∧ ∀ v ∈ s.persisted p c, v = p.embed c.text

/-- The document is registered while no vector of another text is held for one of its
chunks. -/
def RegistersFresh (s : DocumentStore F) : Action → Prop
  | .register name source pieces =>
    ∀ record ∈ prepare p.lower name source pieces, ∀ c ∈ record.chunks, s.IsCurrent p c
  | _ => True

/-- The semantic score of the chunk's present text; zero in a search that uses none. -/
def presentScore (semanticUsed : Bool) (query : Text) (c : DocumentChunk) : S :=
  if semanticUsed then p.cosine (p.embed query) (p.embed c.text) else p.zero

/-- Each hit is a chunk of a registered document, scored by its present text. -/
def ScoresCurrent (s : DocumentStore F) : Action → Prop
  | .search q =>
    ∀ hit ∈ (s.search p q).2.hits, s.Has hit.chunk ∧
      hitOf p (strip q.query) hit.chunk
          (presentScore p (s.search p q).2.semanticUsed (strip q.query) hit.chunk) =
        if hit.matchKind = .pagedFallback then none else some hit
  | _ => True

instance [DecidableEq F] (s : DocumentStore F) (c : DocumentChunk) : Decidable (s.IsCurrent p c) :=
  inferInstanceAs (Decidable (_ ∧ _))

instance [DecidableEq F] (s : DocumentStore F) : ∀ a, Decidable (RegistersFresh p s a)
  | .register name source pieces =>
    inferInstanceAs (Decidable (∀ record ∈ prepare p.lower name source pieces, _))
  | .restart => inferInstanceAs (Decidable True)
  | .search _ => inferInstanceAs (Decidable True)

instance (s : DocumentStore F) (c : DocumentChunk) : Decidable (s.Has c) :=
  inferInstanceAs (Decidable (∃ r ∈ s.records, c ∈ r.chunks))

instance [DecidableEq S] (s : DocumentStore F) : ∀ a, Decidable (ScoresCurrent p s a)
  | .register _ _ _ => inferInstanceAs (Decidable True)
  | .restart => inferInstanceAs (Decidable True)
  | .search q => inferInstanceAs (Decidable (∀ hit ∈ (s.search p q).2.hits, _))

/-- What a run keeps. -/
structure DocumentStore.Coherent (s : DocumentStore F) : Prop where
  distinct : (s.records.map DocumentRecord.documentId).Nodup
  current : ∀ c, s.Has c → s.IsCurrent p c

variable {p}

theorem DocumentStore.eq_of_id {s : DocumentStore F}
    (hs : (s.records.map DocumentRecord.documentId).Nodup) {c d : DocumentChunk} (hc : s.Has c)
    (hd : s.Has d) (h : c.id = d.id) : c = d := by
  obtain ⟨r, hr, hcr⟩ := hc
  obtain ⟨r', hr', hdr⟩ := hd
  rw [(r.numbered c hcr).2, (r'.numbered d hdr).2] at h
  obtain ⟨hid, hordinal⟩ := chunkId_injective h
  cases List.inj_on_of_nodup_map hs hr hr' hid
  exact List.inj_on_of_nodup_map r.ordinals hcr hdr hordinal

/-- The vectors in the cache are those of the chunks that `has` takes. -/
def Holds (p : Scoring F S) (has : DocumentChunk → Prop) (cache : Text → Option (List F)) : Prop :=
  ∀ c, has c → ∀ v ∈ cache c.id, v = p.embed c.text

section Cache

variable {has : DocumentChunk → Prop} {cache : Text → Option (List F)}

theorem Holds.hold (hids : ∀ c d, has c → has d → c.id = d.id → c = d) (h : Holds p has cache)
    {c : DocumentChunk} (hc : has c) {v : List F} (hv : v = p.embed c.text) :
    Holds p has (hold cache c v) := by
  intro d hd w hw
  unfold Retriever.hold at hw
  by_cases heq : d.id = c.id
  · cases hids d c hd hc heq
    rw [Function.update_self] at hw
    cases hw
    exact hv
  · rw [Function.update_of_ne heq] at hw
    exact h d hd w hw

theorem isSome_hold {c : DocumentChunk} {v : List F} {id : Text} :
    (hold cache c v id).isSome = true ↔ c.id = id ∨ (cache id).isSome = true := by
  unfold hold
  by_cases h : c.id = id
  · rw [h, Function.update_self]
    simp
  · rw [Function.update_of_ne fun heq => h heq.symm]
    simp [h]

/-- One batch is embedded. -/
theorem holds_batch (hids : ∀ c d, has c → has d → c.id = d.id → c = d)
    (batch : List DocumentChunk) (hbatch : ∀ c ∈ batch, has c) (h : Holds p has cache) :
    Holds p has (batch.foldl (fun cache c => hold cache c (p.embed c.text)) cache) :=
  List.foldlRecOn batch _ h fun _ hcache c hc => hcache.hold hids (hbatch c hc) rfl

theorem isSome_batch (batch : List DocumentChunk) {id : Text} :
    ((batch.foldl (fun cache c => hold cache c (p.embed c.text)) cache) id).isSome = true ↔
      (∃ c ∈ batch, c.id = id) ∨ (cache id).isSome = true := by
  induction batch generalizing cache with
  | nil => simp
  | cons c batch ih =>
    rw [List.foldl_cons, ih, isSome_hold]
    simp only [List.mem_cons, exists_eq_or_imp]
    exact or_left_comm.trans or_assoc.symm

/-- The batches leave the vectors of the texts, those of all chunks when no call fails. -/
theorem embedBatches_spec (hids : ∀ c d, has c → has d → c.id = d.id → c = d) :
    ∀ (answers : Nat) (more : List (List DocumentChunk)) {cache : Text → Option (List F)},
      (∀ batch ∈ more, ∀ c ∈ batch, has c) → Holds p has cache →
      Holds p has (embedBatches p answers more cache).1 ∧
        ((embedBatches p answers more cache).2 ≠ none →
          ∀ id, ((∃ batch ∈ more, ∃ c ∈ batch, c.id = id) ∨ (cache id).isSome = true) →
            ((embedBatches p answers more cache).1 id).isSome = true) := by
  intro answers more
  induction more generalizing answers with
  | nil =>
    intro cache _ h
    cases answers <;> exact ⟨h, fun _ id hid => hid.resolve_left (by simp)⟩
  | cons batch more ih =>
    intro cache hmore h
    cases answers with
    | zero => exact ⟨h, fun hne => absurd rfl hne⟩
    | succ answers =>
      obtain ⟨hholds, hall⟩ := ih answers (fun b hb => hmore b (List.mem_cons_of_mem _ hb))
        (holds_batch hids batch (hmore batch List.mem_cons_self) h)
      refine ⟨hholds, fun hne id hid => hall hne id ?_⟩
      rw [isSome_batch]
      rcases hid with ⟨b, hb, c, hc, hcid⟩ | hid
      · rcases List.mem_cons.mp hb with rfl | hb
        · exact Or.inr (Or.inl ⟨c, hc, hcid⟩)
        · exact Or.inl ⟨b, hb, c, hc, hcid⟩
      · exact Or.inr (Or.inr hid)

end Cache

theorem mem_batches {missing batch : List DocumentChunk} (h : batch ∈ batches missing)
    {c : DocumentChunk} (hc : c ∈ batch) : c ∈ missing := by
  obtain ⟨k, _, rfl⟩ := List.mem_map.mp h
  exact List.mem_of_mem_drop (List.mem_of_mem_take hc)

theorem exists_batch {missing : List DocumentChunk} {c : DocumentChunk} (h : c ∈ missing) :
    ∃ batch ∈ batches missing, c ∈ batch := by
  obtain ⟨i, hi, rfl⟩ := List.getElem_of_mem h
  refine ⟨_, List.mem_map.mpr ⟨i / 32, List.mem_range.mpr (by omega), rfl⟩, ?_⟩
  refine List.mem_iff_getElem.mpr ⟨i % 32, ?_, ?_⟩
  · rw [List.length_take, List.length_drop]
    omega
  · rw [List.getElem_take, List.getElem_drop]
    congr 1
    omega

section Search

variable {s : DocumentStore F}

theorem DocumentStore.Coherent.ids (hs : s.Coherent p) :
    ∀ c d, s.Has c → s.Has d → c.id = d.id → c = d :=
  fun _ _ hc hd h => DocumentStore.eq_of_id hs.distinct hc hd h

theorem DocumentStore.Coherent.loaded (hs : s.Coherent p) {chunks : List DocumentChunk}
    (hchunks : ∀ c ∈ chunks, s.Has c) :
    Holds p s.Has (s.loadPersistedVectors p chunks).vectorCache := by
  refine List.foldlRecOn _ _ (fun c hc => (hs.current c hc).1) fun cache hcache c hc => ?_
  have hhas := hchunks c (List.mem_of_mem_filter hc)
  cases hv : s.persisted p c with
  | none => exact hcache
  | some v => exact hcache.hold hs.ids hhas ((hs.current c hhas).2 v hv)

/-- What an entry of a file was before, or the chunk it has been written for. -/
theorem entry_cases (entry : DocumentChunk → Entry F) (held : List DocumentChunk)
    {entries : Text → Option (Entry F)} {id : Text} {x : Entry F}
    (h : (held.foldl (fun (entries : Text → Option (Entry F)) c =>
      Function.update entries c.id (some (entry c))) entries) id = some x) :
    entries id = some x ∨ ∃ c ∈ held, c.id = id ∧ x = entry c := by
  induction held generalizing entries with
  | nil => exact Or.inl h
  | cons c held ih =>
    rw [List.foldl_cons] at h
    rcases ih h with hx | ⟨d, hd, hid, hx⟩
    · by_cases heq : c.id = id
      · subst heq
        rw [Function.update_self] at hx
        cases hx
        exact Or.inr ⟨c, List.mem_cons_self, rfl, rfl⟩
      · rw [Function.update_of_ne fun h => heq h.symm] at hx
        exact Or.inl hx
    · exact Or.inr ⟨d, List.mem_cons_of_mem c hd, hid, hx⟩

theorem persisted_eq_some {c : DocumentChunk} {v : List F} :
    s.persisted p c = some v ↔ ∃ file entry, s.vectorFile c.documentId = some file ∧
      file.model = p.vectorModel ∧ file.entries c.id = some entry ∧
      entry.textSha256 = p.textHash c.text ∧ entry.vector ≠ [] ∧ entry.vector = v := by
  unfold DocumentStore.persisted
  constructor
  · intro h
    cases hfile : s.vectorFile c.documentId with
    | none =>
      rw [hfile] at h
      cases h
    | some file =>
      rw [hfile] at h
      simp only [Option.bind_eq_bind, Option.bind_some] at h
      split at h
      · cases h
      next hmodel =>
        cases hentry : file.entries c.id with
        | none =>
          rw [hentry] at h
          cases h
        | some entry =>
          rw [hentry] at h
          simp only [Option.bind_some] at h
          split at h
          · cases h
          next hgood =>
            cases h
            rw [not_or, not_not, List.isEmpty_iff] at hgood
            exact ⟨file, entry, rfl, not_not.mp hmodel, hentry, hgood.1, hgood.2, rfl⟩
  · intro hsome
    obtain ⟨file, entry, hfile, hmodel, hentry, hhash, hne, rfl⟩ := hsome
    have hgood : ¬ (entry.textSha256 ≠ p.textHash c.text ∨ entry.vector.isEmpty = true) := by
      rw [not_or, not_not, List.isEmpty_iff]
      exact ⟨hhash, hne⟩
    rw [hfile]
    simp only [Option.bind_eq_bind, Option.bind_some]
    rw [if_neg (not_not.mpr hmodel), hentry]
    simp only [Option.bind_some]
    rw [if_neg hgood]

/-- A file that is written has present vectors, when the cache has. -/
theorem persisted_persistVectors (hids : ∀ c d, s.Has c → s.Has d → c.id = d.id → c = d)
    (hcache : Holds p s.Has s.vectorCache)
    (hfile : ∀ c, s.Has c → ∀ v ∈ s.persisted p c, v = p.embed c.text) (saves : Text → Bool)
    {chunks : List DocumentChunk} (hchunks : ∀ c ∈ chunks, s.Has c) :
    ∀ c, s.Has c → ∀ v ∈ (s.persistVectors p saves chunks).persisted p c, v = p.embed c.text := by
  intro c hc v hv
  obtain ⟨file, entry, hfound, hmodel, hentry, hhash, hne, rfl⟩ := persisted_eq_some.mp hv
  unfold DocumentStore.persistVectors at hfound
  dsimp only at hfound
  split at hfound
  · exact hfile c hc _ (persisted_eq_some.mpr
      ⟨file, entry, hfound, hmodel, hentry, hhash, hne, rfl⟩)
  · cases hfound
    rcases entry_cases (fun c => ⟨p.textHash c.text, (s.vectorCache c.id).getD []⟩) _ hentry with
      hold | ⟨d, hd, hid, rfl⟩
    · -- an entry that was there before
      cases hbefore : s.vectorFile c.documentId with
      | none =>
        rw [hbefore] at hold
        cases hold
      | some file =>
        rw [hbefore] at hold
        dsimp only at hold
        split at hold
        next hsame =>
          exact hfile c hc _ (persisted_eq_some.mpr
            ⟨file, entry, hbefore, hsame, hold, hhash, hne, rfl⟩)
        · cases hold
    · cases hids d c (hchunks d (List.mem_of_mem_filter hd)) hc hid
      cases hvector : s.vectorCache c.id with
      | none =>
        rw [hvector] at hne
        exact absurd rfl hne
      | some v => exact hcache c hc v hvector

theorem isSome_loaded {chunks : List DocumentChunk} {c : DocumentChunk} (hc : c ∈ chunks) :
    c ∈ (s.loadPersistedVectors p chunks).missing chunks ∨
      ((s.loadPersistedVectors p chunks).vectorCache c.id).isSome = true := by
  cases h : (s.loadPersistedVectors p chunks).vectorCache c.id with
  | some v => exact Or.inr rfl
  | none => exact Or.inl (List.mem_filter.mpr ⟨hc, by rw [h]; rfl⟩)

/-- What `_semantic_scores` leaves is coherent, and its scores are those of the texts. -/
theorem semanticScores_spec (hs : s.Coherent p) (q : Search) {chunks : List DocumentChunk}
    (hchunks : ∀ c ∈ chunks, s.Has c) :
    (s.semanticScores p q chunks).1.Coherent p ∧
      ∀ scores ∈ (s.semanticScores p q chunks).2, scores =
        chunks.map fun c => (c.id, p.cosine (p.embed (strip q.query)) (p.embed c.text)) := by
  have hloaded := hs.loaded hchunks
  have hfile : ∀ c, s.Has c → ∀ v ∈ (s.loadPersistedVectors p chunks).persisted p c,
      v = p.embed c.text := fun c hc => (hs.current c hc).2
  have hmissing : ∀ c ∈ (s.loadPersistedVectors p chunks).missing chunks, s.Has c :=
    fun c hc => hchunks c (List.mem_of_mem_filter hc)
  obtain ⟨hcache, hall⟩ := embedBatches_spec hs.ids q.answers
    (batches ((s.loadPersistedVectors p chunks).missing chunks))
    (fun batch hb c hc => hmissing c (mem_batches hb hc)) hloaded
  unfold DocumentStore.semanticScores
  dsimp only
  split
  next cache hrun =>
    rw [hrun] at hcache
    exact ⟨⟨hs.distinct, fun c hc => ⟨hcache c hc, hfile c hc⟩⟩, fun _ h => by cases h⟩
  next cache answers hrun =>
    rw [hrun] at hcache hall
    -- no call has failed, so each chunk has a vector
    have hscores : ∀ c ∈ chunks, (cache c.id).getD [] = p.embed c.text := by
      intro c hc
      have hsome : (cache c.id).isSome = true := by
        refine hall (by simp) c.id ((isSome_loaded hc).imp_left fun hc => ?_)
        obtain ⟨batch, hb, hcb⟩ := exists_batch hc
        exact ⟨batch, hb, c, hcb, rfl⟩
      obtain ⟨v, hv⟩ := Option.isSome_iff_exists.mp hsome
      rw [hv]
      exact hcache c (hchunks c hc) v hv
    have hcoherent : ({ s.loadPersistedVectors p chunks with vectorCache := cache } :
        DocumentStore F).Coherent p := ⟨hs.distinct, fun c hc => ⟨hcache c hc, hfile c hc⟩⟩
    have hsaved := persisted_persistVectors hcoherent.ids hcache
      (fun c hc => (hcoherent.current c hc).2) q.saves hmissing
    generalize ht : (if ((s.loadPersistedVectors p chunks).missing chunks).isEmpty = true then
      ({ s.loadPersistedVectors p chunks with vectorCache := cache } : DocumentStore F)
      else _) = t
    have hkept : t.Coherent p ∧ t.vectorCache = cache := by
      rw [← ht]
      split
      · exact ⟨hcoherent, rfl⟩
      · exact ⟨⟨hs.distinct, fun c hc => ⟨hcache c hc, hsaved c hc⟩⟩, rfl⟩
    split
    · exact ⟨hkept.1, fun _ h => by cases h⟩
    · refine ⟨hkept.1, fun scores h => ?_⟩
      cases h
      refine List.map_congr_left fun c hc => ?_
      rw [hkept.2, hscores c hc]

theorem scoresFor_spec (hs : s.Coherent p) (q : Search) {chunks : List DocumentChunk}
    (hchunks : ∀ c ∈ chunks, s.Has c) :
    (s.scoresFor p q chunks).1.Coherent p ∧
      ((s.scoresFor p q chunks).2.1 = [] ∨ (s.scoresFor p q chunks).2.1 =
        chunks.map fun c => (c.id, p.cosine (p.embed (strip q.query)) (p.embed c.text))) := by
  unfold DocumentStore.scoresFor
  split
  · obtain ⟨hcoherent, hscores⟩ := semanticScores_spec hs q hchunks
    split
    next t scores hrun =>
      rw [hrun] at hcoherent hscores
      exact ⟨hcoherent, Or.inr (hscores scores rfl)⟩
    next t hrun =>
      rw [hrun] at hcoherent
      exact ⟨⟨hcoherent.distinct, hcoherent.current⟩, Or.inl rfl⟩
  · exact ⟨hs, Or.inl rfl⟩

theorem mem_find {name : Text} {r : DocumentRecord} (h : r ∈ s.find p name) : r ∈ s.records := by
  unfold DocumentStore.find at h
  dsimp only at h
  split at h
  · exact h
  · split at h <;> exact List.mem_of_mem_filter h

theorem lookup_of_ids {chunks : List DocumentChunk} (score : DocumentChunk → S)
    {c : DocumentChunk} (hc : c ∈ chunks) (hids : ∀ d ∈ chunks, d.id = c.id → d = c) :
    (chunks.map fun d => (d.id, score d)).lookup c.id = some (score c) := by
  induction chunks with
  | nil => exact absurd hc List.not_mem_nil
  | cons d chunks ih =>
    rw [List.map_cons, List.lookup_cons]
    cases heq : c.id == d.id with
    | true => rw [hids d List.mem_cons_self (eq_of_beq heq).symm]
    | false =>
      rcases List.mem_cons.mp hc with rfl | hc
      · exact absurd heq (by simp)
      · exact ih hc fun e he => hids e (List.mem_cons_of_mem d he)

theorem kind_of_hitOf {query : Text} {c : DocumentChunk} {score : S} {hit : DocumentHit S}
    (h : hitOf p query c score = some hit) : hit.chunk = c ∧ hit.matchKind ≠ .pagedFallback := by
  unfold hitOf at h
  dsimp only at h
  split at h
  · cases h
  · split at h
    · cases h
      exact ⟨rfl, fun h => by cases h⟩
    · split at h <;> cases h <;> exact ⟨rfl, fun h => by cases h⟩

/-- The hits are the chunks that are one by the scores; the paged ones are none. -/
theorem mem_orPaged {q : Search} {records : List DocumentRecord} {scores : List (Text × S)}
    {query : Text} {hit : DocumentHit S}
    (h : hit ∈ orPaged p q records
      (scoredHits p query (records.flatMap (·.chunks)) scores)) :
    hit.chunk ∈ records.flatMap (·.chunks) ∧
      hitOf p query hit.chunk ((scores.lookup hit.chunk.id).getD p.zero) =
        if hit.matchKind = .pagedFallback then none else some hit := by
  have hscored : ∀ x ∈ scoredHits p query (records.flatMap (·.chunks)) scores,
      x.chunk ∈ records.flatMap (·.chunks) ∧
      hitOf p query x.chunk ((scores.lookup x.chunk.id).getD p.zero) =
        if x.matchKind = .pagedFallback then none else some x := by
    intro x hx
    obtain ⟨c, hc, hhit⟩ := List.mem_filterMap.mp ((List.mem_insertionSort _).mp hx)
    obtain ⟨rfl, hkind⟩ := kind_of_hitOf hhit
    rw [if_neg hkind]
    exact ⟨hc, hhit⟩
  unfold orPaged at h
  split at h
  next record hnone =>
    split at h
    · exact absurd h List.not_mem_nil
    · obtain ⟨c, hc, rfl⟩ := List.mem_map.mp h
      have hmem : c ∈ [record].flatMap (·.chunks) :=
        List.mem_flatMap.mpr ⟨record, List.mem_singleton_self _, List.mem_of_mem_take hc⟩
      refine ⟨hmem, ?_⟩
      rw [if_pos rfl]
      -- a chunk that is a hit would be among the scored ones
      cases hhit : hitOf p query c ((scores.lookup c.id).getD p.zero) with
      | none => rfl
      | some x =>
        have hx : x ∈ scoredHits p query ([record].flatMap (·.chunks)) scores :=
          (List.mem_insertionSort _).mpr (List.mem_filterMap.mpr ⟨c, hmem, hhit⟩)
        rw [hnone] at hx
        exact absurd hx List.not_mem_nil
  · exact hscored hit h

/-- A search in a coherent store. -/
theorem search_spec (hs : s.Coherent p) (q : Search) :
    (s.search p q).1.Coherent p ∧ ScoresCurrent p s (.search q) := by
  have hchunks : ∀ c ∈ (s.find p q.document).flatMap (·.chunks), s.Has c := by
    intro c hc
    obtain ⟨r, hr, hcr⟩ := List.mem_flatMap.mp hc
    exact ⟨r, mem_find hr, hcr⟩
  obtain ⟨hcoherent, hscores⟩ := scoresFor_spec hs q hchunks
  unfold ScoresCurrent DocumentStore.search
  dsimp only
  split
  · exact ⟨hs, fun hit h => absurd h List.not_mem_nil⟩
  · refine ⟨hcoherent, fun hit h => ?_⟩
    obtain ⟨hmem, hhit⟩ := mem_orPaged (List.mem_of_mem_take h)
    refine ⟨hchunks _ hmem, ?_⟩
    rw [← hhit]
    congr 1
    unfold presentScore
    rcases hscores with hnone | hall
    · rw [hnone]
      rfl
    · have hne : (s.scoresFor p q ((s.find p q.document).flatMap (·.chunks))).2.1.isEmpty =
          false := by
        rw [hall, List.isEmpty_map]
        exact List.isEmpty_eq_false_iff.mpr (List.ne_nil_of_mem hmem)
      rw [hne, hall, lookup_of_ids _ hmem fun d hd => hs.ids d _ (hchunks d hd) (hchunks _ hmem)]
      rfl

end Search

/-! ## Runs -/

theorem DocumentStore.coherent_fresh : (DocumentStore.fresh F).Coherent p :=
  ⟨List.nodup_nil, fun _ ⟨_, hr, _⟩ => absurd hr List.not_mem_nil⟩

theorem has_register {s : DocumentStore F} {record : DocumentRecord} {c : DocumentChunk}
    (h : (s.register record).Has c) : c ∈ record.chunks ∨ s.Has c := by
  obtain ⟨r, hr, hc⟩ := h
  rcases List.mem_cons.mp ((List.mem_insertionSort _).mp hr) with rfl | hr
  · exact Or.inl hc
  · exact Or.inr ⟨r, List.mem_of_mem_filter hr, hc⟩

theorem Coherent.register {s : DocumentStore F} (hs : s.Coherent p) {record : DocumentRecord}
    (hnew : ∀ c ∈ record.chunks, s.IsCurrent p c) : (s.register record).Coherent p := by
  refine ⟨?_, fun c hc => ?_⟩
  · refine ((List.perm_insertionSort _ _).map DocumentRecord.documentId).nodup_iff.mpr ?_
    rw [List.map_cons, List.nodup_cons]
    refine ⟨fun h => ?_, (List.filter_sublist.map _).nodup hs.distinct⟩
    obtain ⟨r, hr, hid⟩ := List.mem_map.mp h
    exact absurd hid (by simpa using (List.mem_filter.mp hr).2)
  · rcases has_register hc with hc | hc
    · exact hnew c hc
    · exact hs.current c hc

theorem coherent_step {s : DocumentStore F} (a : Action) (hs : s.Coherent p)
    (hfresh : RegistersFresh p s a) : (step p s a).Coherent p := by
  cases a with
  | register name source pieces =>
    unfold step
    dsimp only
    split
    next record hrecord => exact Coherent.register hs (hfresh record hrecord)
    · exact hs
  | restart => exact ⟨hs.distinct, fun c hc => ⟨fun _ h => absurd h (Option.not_mem_none _),
    (hs.current c hc).2⟩⟩
  | search q => exact (search_spec hs q).1

/-- **Scores of present texts**, in every run in which no document is registered over a vector
of another text. -/
theorem registered_scores_current (p : Scoring F S) (actions : List Action)
    (h : Along (step p) (RegistersFresh p) (DocumentStore.fresh F) actions) :
    Along (step p) (ScoresCurrent p) (DocumentStore.fresh F) actions := by
  refine along_of_invariant (I := DocumentStore.Coherent p)
    (fun s a hs hfresh => coherent_step a hs hfresh) ?_ DocumentStore.coherent_fresh h
  intro s a hs _
  cases a with
  | register name source pieces => trivial
  | restart => trivial
  | search q => exact (search_spec hs q).2

end Store

/-- Two directions as embeddings, and scores in ten-thousandths. -/
def unitScoring : Scoring Nat Nat where
  lower := List.map Char.toLower
  textHash := fun t => t
  vectorModel := "injected".toList
  embed := fun t => if t = "alpha".toList then [1, 0] else [0, 1]
  cosine := fun a b => 10000 * (List.zipWith (· * ·) a b).sum
  keywordScore := fun query c => if (Py.find query c.text).isSome then 10000 else 0
  zero := 0
  minSemantic := 3000
  pagedScore := 100
  lt := fun a b => decide (a < b)
  both := fun k m => (65 * k + 35 * m) / 100

/-- `alpha`, in every document. -/
def searchAlpha : Action :=
  .search ⟨"alpha".toList, [], 5, true, 2, fun _ => true⟩

/-- The document `guide`, of one chunk. -/
def registerGuide (text : String) : Action :=
  .register "guide".toList "guide.md".toList [([], text.toList)]

theorem registered_scores_current_restart :
    Along (step unitScoring) (ScoresCurrent unitScoring) (DocumentStore.fresh Nat)
      [registerGuide "alpha", searchAlpha, .restart, registerGuide "omega", searchAlpha] := by
  refine registered_scores_current unitScoring _ ?_
  decide

/-- In one process the text of the chunk changes and its vector stays. -/
theorem stale_vector_scored : ¬ ∀ (p : Scoring Nat Nat) (actions : List Action),
    Along (step p) (ScoresCurrent p) (DocumentStore.fresh Nat) actions := by
  intro hall
  have hlast := (hall unitScoring
    [registerGuide "alpha", searchAlpha, registerGuide "omega", searchAlpha]).2.2.2.1
  exact absurd hlast (by decide)

end Shamsu.Retriever
