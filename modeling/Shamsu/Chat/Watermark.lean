import Shamsu.Chat.Hydration

/-!
# The summary mark of a session

A new `ChatState` is built for each request, and `save_summary` hands the mark of one to the
next. It is saved as a number of records: those that hydration skipped, and the messages below
the mark (`_transcript_watermark`). The next state takes off what it skips itself, and counts
messages again (`_restore_summary`).

A record that one of the two counts and the other drops shifts all that come after it.
`mark_survives` says when the two count alike; `request_skipped` is an answer that is a status
of the harness, counted when it is given and dropped when the session is read back, and the
request after it that is then below the mark.
-/

namespace Shamsu.Chat

open Shamsu.Lib Shamsu.Py Shamsu.Tools

/-- What the session keeps of a chat: the transcript, how much of it `/clear` hides, and the
summary with its mark. -/
structure SavedChat where
  records : List ChatRecord
  contextClearedUpto : Nat
  summary : Text
  summarizedUpto : Nat

namespace SavedChat

/-- `save_summary`. -/
def saveSummary (d : SavedChat) (summary : Text) (summarizedUpto : Nat) : SavedChat :=
  { d with summary, summarizedUpto := max summarizedUpto 1 }

/-- `load_summary`. -/
def loadSummary (d : SavedChat) : Text × Nat := (d.summary, max d.summarizedUpto 1)

/-- `clear_context`. -/
def clearContext (d : SavedChat) : SavedChat :=
  { d with
    contextClearedUpto := d.records.length
    summary := []
    summarizedUpto := max d.records.length 1 }

/-- `append_message`. -/
def appendMessage (d : SavedChat) (r : ChatRecord) : SavedChat :=
  { d with records := d.records ++ [r] }

/-- The transcript, as hydration reads it. -/
def transcript (d : SavedChat) : Transcript := .messages d.records d.contextClearedUpto

end SavedChat

namespace Hydration

variable (c : Hydration)

/-- All the calls go and nothing is said. -/
def empties (r : ChatRecord) : Bool :=
  r.toolCalls != [] && r.toolCalls.all c.isForeign && strip r.content == []

/-- What the filters say of a record, after the records of the window before it. -/
def stays (before : List ChatRecord) (r : ChatRecord) : Bool :=
  match r.kind with
  | some .assistant =>
    c.Replayed before r && !c.empties r
  | some .tool => !c.isForeignResult (c.foreignIds before) r
  | some .user => c.shouldHydrate .user (cleanUserContent r.content)
  | _ => false

/-- The message that is made of a record. -/
def hydrated (r : ChatRecord) : ChatMessage :=
  match r.kind with
  | some .assistant =>
    message .assistant r.content (r.toolCalls.filter fun call => !c.isForeign call) r
  | some .user => message .user (cleanUserContent r.content) r.toolCalls r
  | _ => message .tool r.content r.toolCalls r

/-- The records that stay, with their places. -/
def kept (before : List ChatRecord) (place : Nat) : List ChatRecord → List (Nat × ChatRecord)
  | [] => []
  | r :: rs =>
    (if c.stays before r then [(place, r)] else []) ++ kept (before ++ [r]) (place + 1) rs

/-- `_hydration_offset`: the records that are not looked at. -/
def hydrationOffset (d : SavedChat) : Nat :=
  let every := d.records.drop d.contextClearedUpto
  d.contextClearedUpto + (every.length - (c.loaded d.transcript).length)

/-- The places in the transcript of the records that stay. -/
def places (d : SavedChat) : List Nat :=
  (c.kept [] (c.hydrationOffset d) (c.loaded d.transcript)).map Prod.fst

variable {c} {before : List ChatRecord} {s : Hydrating} {r : ChatRecord}

theorem empties_iff : c.empties r = true ↔
    (r.toolCalls.filter (fun call => !c.isForeign call)).length ≠ r.toolCalls.length ∧
      (r.toolCalls.filter fun call => !c.isForeign call) = [] ∧ strip r.content = [] := by
  have hnone : (r.toolCalls.filter fun call => !c.isForeign call) = [] ↔
      r.toolCalls.all c.isForeign = true := by
    rw [List.filter_eq_nil_iff, List.all_eq_true]
    simp
  unfold empties
  rw [Bool.and_eq_true, Bool.and_eq_true, bne_iff_ne, beq_iff_eq, ← hnone]
  constructor
  · intro ⟨⟨hne, hnil⟩, hblank⟩
    refine ⟨?_, hnil, hblank⟩
    rw [hnil]
    exact fun hlength => hne (List.length_eq_zero_iff.mp hlength.symm)
  · intro ⟨hlength, hnil, hblank⟩
    refine ⟨⟨?_, hnil⟩, hblank⟩
    intro hcalls
    rw [hcalls] at hlength
    exact hlength rfl

/-- An assistant's record is passed over when it empties, is a status or was said too often. -/
theorem assistantRecord_kept (h : c.Knows before s) (hr : r.kind = some .assistant) :
    (c.assistantRecord s r).messages =
      s.messages ++ if c.stays before r then [c.hydrated r] else [] := by
  have hstays : c.stays before r = (decide (c.Replayed before r) && !c.empties r) := by
    unfold stays
    rw [hr]
  have hmessage : c.hydrated r =
      message .assistant r.content (r.toolCalls.filter fun call => !c.isForeign call) r := by
    unfold hydrated
    rw [hr]
  rw [hstays, hmessage]
  unfold assistantRecord
  dsimp only
  by_cases hempties : c.empties r = true
  · rw [if_pos (empties_iff.mp hempties), hempties]
    simp
  · rw [if_neg fun hgone => hempties (empties_iff.mpr hgone)]
    have hkeeps : c.empties r = false := by simpa using hempties
    rw [hkeeps, Bool.not_false, Bool.and_true]
    by_cases hreplayed : c.Replayed before r
    · obtain ⟨_, hshould, hfew⟩ := hreplayed
      rw [decide_eq_true ⟨hr, hshould, hfew⟩]
      by_cases hkey : c.normalized r.content = []
      · rw [if_neg fun h => h.1 hkey, if_pos hkey, if_pos hshould]
        rfl
      · have hcount := h.seen _ hkey
        have hlt := hfew.resolve_left hkey
        rw [if_neg hkey, if_neg (by omega), if_pos hshould]
        rfl
    · rw [decide_eq_false hreplayed]
      by_cases hshould : c.shouldHydrate .assistant r.content = true
      · have hoften : ¬ (c.normalized r.content = [] ∨
            c.heard before (c.normalized r.content) < maxRepeatedHydrated) :=
          fun hfew => hreplayed ⟨hr, hshould, hfew⟩
        have hkey : c.normalized r.content ≠ [] := fun hkey => hoften (Or.inl hkey)
        have hcount := h.seen _ hkey
        have hmany : ¬ c.heard before (c.normalized r.content) < maxRepeatedHydrated :=
          fun hlt => hoften (Or.inr hlt)
        rw [if_neg hkey, if_pos ⟨hkey, by omega⟩]
        simp
      · rw [if_neg hshould]
        split
        · split <;> simp
        · split <;> simp

theorem hydrateRecord_kept (h : c.Knows before s) (r : ChatRecord) :
    (c.hydrateRecord s r).messages =
      s.messages ++ if c.stays before r then [c.hydrated r] else [] := by
  unfold hydrateRecord
  split
  next hkind => exact assistantRecord_kept h hkind
  next hkind =>
    unfold stays hydrated
    rw [hkind, h.foreign]
    by_cases hforeign : c.isForeignResult (c.foreignIds before) r = true <;> simp [hforeign]
  next hkind =>
    unfold stays hydrated
    rw [hkind]
    by_cases hshould : c.shouldHydrate .user (cleanUserContent r.content) = true <;> simp [hshould]
  next hassistant htool huser =>
    have hgoes : c.stays before r = false := by
      unfold stays
      split <;> first | contradiction | rfl
    rw [hgoes]
    simp

/-- **Hydration is of the records that stay**, one message each. -/
theorem hydrateRecords_kept (records : List ChatRecord) (place : Nat) (h : c.Knows before s) :
    (records.foldl c.hydrateRecord s).messages =
      s.messages ++ (c.kept before place records).map fun p => c.hydrated p.2 := by
  induction records generalizing before s place with
  | nil => exact (List.append_nil _).symm
  | cons r records ih =>
    show (records.foldl c.hydrateRecord (c.hydrateRecord s r)).messages = _
    rw [ih (place + 1) (hydrateRecord_spec h r).1, hydrateRecord_kept h r, List.append_assoc]
    show _ = s.messages ++ ((if c.stays before r then [(place, r)] else []) ++
      c.kept (before ++ [r]) (place + 1) records).map fun p => c.hydrated p.2
    by_cases hstays : c.stays before r = true <;> simp [hstays]

theorem hydrateFromSession_kept (d : SavedChat) : c.hydrateFromSession d.transcript =
    (c.kept [] (c.hydrationOffset d) (c.loaded d.transcript)).map fun p => c.hydrated p.2 :=
  hydrateRecords_kept _ _ knows_start

/-- The places are in order, and those of the records looked at. -/
theorem kept_places (records : List ChatRecord) (before : List ChatRecord) (place : Nat) :
    ((c.kept before place records).map Prod.fst).Pairwise (· < ·) ∧
      ∀ i ∈ (c.kept before place records).map Prod.fst, place ≤ i ∧ i < place + records.length := by
  induction records generalizing before place with
  | nil => exact ⟨List.Pairwise.nil, fun i hi => absurd hi (List.not_mem_nil)⟩
  | cons r records ih =>
    obtain ⟨hsorted, hbounds⟩ := ih (before ++ [r]) (place + 1)
    have hlater : ∀ i ∈ (c.kept (before ++ [r]) (place + 1) records).map Prod.fst,
        place ≤ i ∧ i < place + (r :: records).length := fun i hi => by
      have := hbounds i hi
      rw [List.length_cons]
      omega
    show (((if c.stays before r then [(place, r)] else []) ++
      c.kept (before ++ [r]) (place + 1) records).map Prod.fst).Pairwise (· < ·) ∧ ∀ i ∈
        ((if c.stays before r then [(place, r)] else []) ++
          c.kept (before ++ [r]) (place + 1) records).map Prod.fst, _
    split
    case isTrue =>
      refine ⟨List.pairwise_cons.mpr ⟨fun i hi => (hbounds i hi).1, hsorted⟩, fun i hi => ?_⟩
      rcases List.mem_cons.mp hi with rfl | hi
      · rw [List.length_cons]
        omega
      · exact hlater i hi
    case isFalse => exact ⟨hsorted, hlater⟩

theorem places_sorted (d : SavedChat) : (c.places d).Pairwise (· < ·) := (kept_places _ _ _).1

theorem hydrationOffset_add (d : SavedChat) (hfloor : d.contextClearedUpto ≤ d.records.length) :
    c.hydrationOffset d + (c.loaded d.transcript).length = d.records.length := by
  have hloaded : (c.loaded d.transcript).length ≤
      (d.records.drop d.contextClearedUpto).length := by
    unfold SavedChat.transcript loaded
    dsimp only
    split
    · rw [List.length_drop, Int.toNat_natCast]
      exact Nat.sub_le _ _
    case isFalse hnone =>
      have hzero : d.contextClearedUpto = 0 := by omega
      rw [List.length_drop, hzero, List.drop_zero]
      exact Nat.sub_le _ _
  unfold hydrationOffset
  dsimp only
  rw [List.length_drop] at hloaded ⊢
  omega

theorem places_bounds (d : SavedChat) (hfloor : d.contextClearedUpto ≤ d.records.length) :
    ∀ i ∈ c.places d, c.hydrationOffset d ≤ i ∧ i < d.records.length := by
  intro i hi
  rw [← hydrationOffset_add d hfloor]
  exact (kept_places _ _ _).2 i hi

end Hydration

/-! ## A run of requests -/

/-- The role, as the transcript has it. -/
def Role.text : Role → Text
  | .system => "system".toList
  | .user => "user".toList
  | .assistant => "assistant".toList
  | .tool => "tool".toList

/-- What the transcript makes of texts and calls: `redact` and `redact_payload`. -/
structure Archive where
  redact : Text → Text
  redactPayload : List ToolCall → List ToolCall

/-- The record that `append_message` writes. -/
def Archive.record (a : Archive) (m : ChatMessage) (storedContent : Text) : ChatRecord :=
  { role := m.role.text
    content := a.redact storedContent
    toolCallId := m.toolCallId
    name := m.name
    toolCalls := a.redactPayload m.toolCalls
    origin := m.origin }

/-- A session with the `ChatState` of the last request, where `ident` says which record a message
is. What was ever folded into a summary is `folded`; the saved mark counts the records before
`countedFrom`, and `counted`. -/
structure Thread where
  disk : SavedChat
  state : ChatState
  hydrationOffset : Nat
  folded : List Nat
  counted : List Nat
  countedFrom : Nat

inductive ThreadOp where
  | request (c : Hydration) (systemPrompt : Text)
  | appendUser (content : Text) (persistedContent : Option Text) (origin : Text)
  | appendAssistant (content : Text) (toolCalls : List ToolCall)
  | appendTool (toolCallId name content : Text)
  | updateRollingSummary (summary : Text) (startAbs : Nat)
  | dropStaleLoopMessages
  | clearContext
  | appendMessage (r : ChatRecord)

/-- The records of some messages. -/
def recordsOf (messages : List ChatMessage) : List Nat := messages.map ChatMessage.ident

namespace ChatState

/-- What is below the mark, less the system prompt. -/
def summarized (s : ChatState) : List ChatMessage := (s.messages.take s.summarizedUpto).drop 1

/-- `_restore_summary`, of the state that was hydrated. -/
def restoreSummary (systemPrompt : Text) (hydrated : List ChatMessage) (hydrationOffset : Nat)
    (loaded : Text × Nat) : ChatState :=
  if strip loaded.1 = [] then ChatState.new systemPrompt hydrated [] 0
  else ChatState.new systemPrompt hydrated loaded.1 (loaded.2 - hydrationOffset)

end ChatState

namespace Thread

/-- `ChatState(...)`, of a session. -/
def request (t : Thread) (c : Hydration) (systemPrompt : Text) : Thread :=
  let hydrated := ((c.hydrateFromSession t.disk.transcript).zip (c.places t.disk)).map
    fun p => { p.1 with ident := p.2 }
  { t with
    state := ChatState.restoreSummary systemPrompt hydrated (c.hydrationOffset t.disk)
      t.disk.loadSummary
    hydrationOffset := c.hydrationOffset t.disk }

/-- `_append`, of a message that persists. -/
def append (a : Archive) (t : Thread) (m : ChatMessage) (persistedContent : Option Text) : Thread :=
  { t with
    state := t.state.append { m with ident := t.disk.records.length }
    disk := t.disk.appendMessage (a.record m (persistedContent.getD m.content)) }

/-- `_transcript_watermark`. -/
def transcriptWatermark (t : Thread) : Nat := t.hydrationOffset + (t.state.summarizedUpto - 1)

/-- `update_rolling_summary`. -/
def updateRollingSummary (t : Thread) (summary : Text) (startAbs : Nat) : Thread :=
  let updated := { t with state := t.state.updateRollingSummary summary startAbs }
  { updated with
    disk := t.disk.saveSummary summary updated.transcriptWatermark
    folded := t.folded ++ recordsOf (t.state.newlyEvicted startAbs)
    counted := recordsOf updated.state.summarized
    countedFrom := t.hydrationOffset }

def step (a : Archive) (t : Thread) : ThreadOp → Thread
  | .request c systemPrompt => t.request c systemPrompt
  | .appendUser content persistedContent origin =>
    t.append a { role := .user, content, origin } (persistedContent.map cleanUserContent)
  | .appendAssistant content toolCalls => t.append a { role := .assistant, content, toolCalls } none
  | .appendTool toolCallId name content =>
    t.append a { role := .tool, content, toolCallId, name } none
  | .updateRollingSummary summary startAbs => t.updateRollingSummary summary startAbs
  | .dropStaleLoopMessages => { t with state := t.state.dropStaleLoopMessages.1 }
  | .clearContext => { t with disk := t.disk.clearContext }
  | .appendMessage r => { t with disk := t.disk.appendMessage r }

/-- The first request of a session that has no summary. -/
def start (records : List ChatRecord) (c : Hydration) (systemPrompt : Text) : Thread :=
  request ⟨⟨records, 0, [], 1⟩, .new systemPrompt [] [] 0, 0, [], [], 0⟩ c systemPrompt

/-- **What is below the mark was summarised**, or is hidden. -/
def Placed (t : Thread) : Prop :=
  ∀ m ∈ t.state.summarized, m.ident ∈ t.folded ∨ m.ident < t.disk.contextClearedUpto

/-- **The two count alike**: of the records up to the last that the saved mark counts, those that
stay are those that it counts; and those before the window of the state that saved it were
summarised too. -/
def Agrees (t : Thread) (c : Hydration) : Prop :=
  (∀ i < t.countedFrom, c.hydrationOffset t.disk ≤ i → i ∈ c.places t.disk ∧ i ∈ t.folded) ∧
    (∀ j ∈ t.counted, c.hydrationOffset t.disk ≤ j → j ∈ c.places t.disk) ∧
    ∀ j ∈ t.counted, ∀ i ∈ c.places t.disk, i < j → t.countedFrom ≤ i → i ∈ t.counted

/-- A state begins where there is no summary or the two count alike; a summary is of something,
and of no more than there is; and if something is dropped from below the mark, nothing is left
above it that was not summarised. -/
def Careful (t : Thread) : ThreadOp → Prop
  | .request c _ => strip t.disk.summary = [] ∨ t.Agrees c
  | .updateRollingSummary _ startAbs =>
    startAbs ≤ t.state.messages.length ∧
      (0 < t.hydrationOffset ∨ 1 < max t.state.summarizedUpto startAbs)
  | .dropStaleLoopMessages =>
    (∀ m ∈ t.state.summarized, m.stale = false) ∨
      ∀ m ∈ t.state.messages.drop t.state.summarizedUpto, m.stale = true ∨ m.ident ∈ t.folded
  | _ => True

/-- What a run of careful operations keeps. -/
structure Sound (t : Thread) : Prop where
  floor : t.disk.contextClearedUpto ≤ t.disk.records.length
  offset : t.hydrationOffset ≤ t.disk.records.length
  system : ∃ first rest, t.state.messages = first :: rest ∧ first.role = .system
  pos : 1 ≤ t.state.summarizedUpto
  le : t.state.summarizedUpto ≤ t.state.messages.length
  sorted : (recordsOf (t.state.messages.drop 1)).Pairwise (· < ·)
  bounds : ∀ m ∈ t.state.messages.drop 1, t.hydrationOffset ≤ m.ident ∧
    m.ident < t.disk.records.length
  covers : ∀ m ∈ t.state.summarized, m.ident ∈ t.folded
  mark : strip t.disk.summary ≠ [] → 0 < t.disk.summarizedUpto ∧
    t.disk.summarizedUpto = t.countedFrom + t.counted.length
  counts : t.counted.Pairwise (· < ·) ∧ ∀ i ∈ t.counted, t.countedFrom ≤ i ∧ i ∈ t.folded

variable {t : Thread}

theorem Sound.placed (h : t.Sound) : t.Placed := fun m hm => Or.inl (h.covers m hm)

end Thread

/-- Some numbers: those below `start`, and a list of later ones. Of a list in order that has all
of them from `offset` on and no others before the last, the first ones are among them. -/
theorem mem_of_mem_take {start offset i : Nat} {counted kept : List Nat}
    (hcounted : counted.Pairwise (· < ·)) (hstart : ∀ j ∈ counted, start ≤ j)
    (hkept : kept.Pairwise (· < ·))
    (hbelow : ∀ j < start, offset ≤ j → j ∈ kept) (hstay : ∀ j ∈ counted, offset ≤ j → j ∈ kept)
    (hno : ∀ j ∈ counted, ∀ i ∈ kept, i < j → start ≤ i → i ∈ counted)
    (hi : i ∈ kept.take (start + counted.length - offset)) : i < start ∨ i ∈ counted := by
  by_contra hother
  rw [not_or, Nat.not_lt] at hother
  obtain ⟨p, hp, rfl⟩ := List.mem_take_iff_getElem.mp hi
  have hplen : p < kept.length := by omega
  -- all of the numbers come before this one, and these are too many
  have hbefore : ((Finset.range start ∪ counted.toFinset) \ Finset.range offset) ⊆
      (kept.take p).toFinset := by
    intro j hj
    rw [Finset.mem_sdiff, Finset.mem_union, Finset.mem_range, Finset.mem_range, Nat.not_lt,
      List.mem_toFinset] at hj
    have hin : j ∈ kept := hj.1.elim (fun hlt => hbelow j hlt hj.2) fun hmem => hstay j hmem hj.2
    have hlt : j < kept[p] := by
      rcases hj.1 with hsmall | hmem
      · omega
      · rcases Nat.lt_trichotomy j kept[p] with hlt | heq | hgt
        · exact hlt
        · exact absurd (heq ▸ hmem) hother.2
        · exact absurd (hno j hmem _ (List.getElem_mem hplen) hgt hother.1) hother.2
    obtain ⟨q, hq, rfl⟩ := List.getElem_of_mem hin
    rw [List.mem_toFinset, List.mem_take_iff_getElem]
    have hqp : q < p := by
      by_contra hge
      rcases Nat.lt_or_eq_of_le (Nat.not_lt.mp hge) with hpq | rfl
      · have := List.pairwise_iff_getElem.mp hkept p q hplen hq hpq
        omega
      · omega
    exact ⟨q, by omega, rfl⟩
  have hdisjoint : Disjoint (Finset.range start) counted.toFinset := by
    rw [Finset.disjoint_left]
    intro j hj hmem
    have := hstart j (List.mem_toFinset.mp hmem)
    have := Finset.mem_range.mp hj
    omega
  have hnodup : counted.toFinset.card = counted.length :=
    List.toFinset_card_of_nodup (hcounted.imp fun hlt => Nat.ne_of_lt hlt)
  have hmany := Finset.le_card_sdiff (Finset.range offset) (Finset.range start ∪ counted.toFinset)
  rw [Finset.card_union_of_disjoint hdisjoint, hnodup, Finset.card_range, Finset.card_range]
    at hmany
  have hfew := (Finset.card_le_card hbefore).trans (List.toFinset_card_le _)
  rw [List.length_take] at hfew
  omega

namespace Thread

variable {t : Thread} {a : Archive}

/-- The state of a new request, its messages in the order of their records. -/
theorem request_messages (t : Thread) (c : Hydration) (systemPrompt : Text) :
    ∃ hydrated, (t.request c systemPrompt).state.messages =
        { role := .system, content := systemPrompt } :: hydrated ∧
      recordsOf hydrated = c.places t.disk ∧ (t.request c systemPrompt).state.summarizedUpto =
        if strip t.disk.summary = [] then 1
        else max 1 (min (1 + (max t.disk.summarizedUpto 1 - c.hydrationOffset t.disk))
          (hydrated.length + 1)) := by
  refine ⟨((c.hydrateFromSession t.disk.transcript).zip (c.places t.disk)).map
    fun p => { p.1 with ident := p.2 }, ?_, ?_, ?_⟩
  · show (ChatState.restoreSummary _ _ _ _).messages = _
    unfold ChatState.restoreSummary
    split <;> rfl
  · have hlength : (c.hydrateFromSession t.disk.transcript).length = (c.places t.disk).length := by
      rw [Hydration.hydrateFromSession_kept]
      unfold Hydration.places
      rw [List.length_map, List.length_map]
    unfold recordsOf
    rw [List.map_map]
    exact List.map_snd_zip (le_of_eq hlength.symm)
  · show (ChatState.restoreSummary _ _ _ _).summarizedUpto = _
    unfold ChatState.restoreSummary SavedChat.loadSummary
    dsimp only
    split
    · show max 1 (min (1 + 0) _) = 1
      omega
    · rfl

theorem sound_request (h : t.Sound) (c : Hydration) (systemPrompt : Text)
    (hagrees : strip t.disk.summary = [] ∨ t.Agrees c) : (t.request c systemPrompt).Sound := by
  obtain ⟨hydrated, hmessages, hrecords, hupto⟩ := request_messages t c systemPrompt
  have hadd := Hydration.hydrationOffset_add (c := c) t.disk h.floor
  refine
    { floor := h.floor
      offset := show c.hydrationOffset t.disk ≤ t.disk.records.length by omega
      system := ⟨_, hydrated, hmessages, rfl⟩
      pos := ?_
      le := ?_
      sorted := ?_
      bounds := fun m hm => ?_
      covers := fun m hm => ?_
      mark := h.mark
      counts := h.counts }
  · rw [hupto]
    split <;> omega
  · rw [hupto, hmessages, List.length_cons]
    split <;> omega
  · rw [hmessages]
    show (recordsOf hydrated).Pairwise _
    rw [hrecords]
    exact Hydration.places_sorted t.disk
  · rw [hmessages] at hm
    have hplace : m.ident ∈ c.places t.disk := hrecords ▸ List.mem_map_of_mem hm
    exact Hydration.places_bounds t.disk h.floor _ hplace
  · unfold ChatState.summarized at hm
    rw [hmessages, hupto] at hm
    split at hm
    case isTrue => exact absurd hm List.not_mem_nil
    case isFalse hsome =>
      have hagrees := hagrees.resolve_left hsome
      obtain ⟨hbelow, hstay, hno⟩ := hagrees
      obtain ⟨hpos, hmark⟩ := h.mark hsome
      -- a message below the mark is of one of the first records that stay
      have hplace : m.ident ∈ (c.places t.disk).take
          (t.countedFrom + t.counted.length - c.hydrationOffset t.disk) := by
        rw [max_eq_left (by omega : 1 ≤ t.disk.summarizedUpto), hmark] at hm
        obtain ⟨n, hn, hle⟩ : ∃ n, max 1 (min (1 + (t.countedFrom + t.counted.length -
            c.hydrationOffset t.disk)) (hydrated.length + 1)) = n + 1 ∧
            n ≤ t.countedFrom + t.counted.length - c.hydrationOffset t.disk :=
          ⟨min (t.countedFrom + t.counted.length - c.hydrationOffset t.disk) hydrated.length,
            by omega, min_le_left _ _⟩
        rw [hn] at hm
        have hm : m ∈ hydrated.take n := hm
        have hplace : m.ident ∈ (c.places t.disk).take n := by
          rw [← hrecords]
          unfold recordsOf
          rw [← List.map_take]
          exact List.mem_map_of_mem hm
        exact List.take_subset_take_left _ hle hplace
      rcases mem_of_mem_take h.counts.1 (fun j hj => (h.counts.2 j hj).1)
        (Hydration.places_sorted t.disk) (fun j hj hle => (hbelow j hj hle).1) hstay hno hplace
        with hlt | hcounted
      · have hin := List.mem_of_mem_take hplace
        exact (hbelow _ hlt (Hydration.places_bounds t.disk h.floor _ hin).1).2
      · exact (h.counts.2 _ hcounted).2

/-- A message that is appended comes after the mark, and its record after the others. -/
theorem sound_append (h : t.Sound) (m : ChatMessage) (persistedContent : Option Text) :
    (t.append a m persistedContent).Sound := by
  obtain ⟨first, rest, hlist, hrole⟩ := h.system
  have hlength : (t.append a m persistedContent).disk.records.length =
      t.disk.records.length + 1 := List.length_append
  have hsummarized : (t.append a m persistedContent).state.summarized = t.state.summarized :=
    congrArg (List.drop 1) (List.take_append_of_le_length h.le)
  have hdrop : (t.append a m persistedContent).state.messages.drop 1 =
      t.state.messages.drop 1 ++ [{ m with ident := t.disk.records.length }] := by
    show (t.state.messages ++ _).drop 1 = _
    rw [hlist]
    rfl
  have hfloor := h.floor
  have hoffset := h.offset
  refine
    { floor := ?_
      offset := ?_
      system := ⟨first, rest ++ [_], by
        show t.state.messages ++ [_] = _
        rw [hlist]
        rfl, hrole⟩
      pos := h.pos
      le := ?_
      sorted := ?_
      bounds := fun x hx => ?_
      covers := fun x hx => h.covers x (hsummarized ▸ hx)
      mark := h.mark
      counts := h.counts }
  · rw [hlength]
    exact Nat.le_succ_of_le hfloor
  · rw [hlength]
    exact Nat.le_succ_of_le hoffset
  · show t.state.summarizedUpto ≤ (t.state.messages ++ [_]).length
    rw [List.length_append]
    exact Nat.le_add_right_of_le h.le
  · rw [hdrop]
    unfold recordsOf
    rw [List.map_append, List.pairwise_append]
    refine ⟨h.sorted, List.pairwise_singleton _ _, fun i hi j hj => ?_⟩
    obtain ⟨x, hx, rfl⟩ := List.mem_map.mp hi
    rw [List.mem_singleton.mp hj]
    exact (h.bounds x hx).2
  · rw [hdrop] at hx
    rw [hlength]
    rcases List.mem_append.mp hx with hold | hnew
    · have := h.bounds x hold
      exact ⟨this.1, by omega⟩
    · rw [List.mem_singleton.mp hnew]
      exact ⟨hoffset, Nat.lt_succ_self _⟩

/-- A summary covers what was below its mark and what was evicted. -/
theorem sound_updateRollingSummary (h : t.Sound) (summary : Text) {startAbs : Nat}
    (hcareful : t.Careful (.updateRollingSummary summary startAbs)) :
    (t.updateRollingSummary summary startAbs).Sound := by
  obtain ⟨hle, hsome⟩ := hcareful
  have hpos := h.pos
  have hupto := h.le
  -- below the new mark are those below the old one, and those newly evicted
  have hcovers : ∀ m ∈ (t.state.updateRollingSummary summary startAbs).summarized,
      m.ident ∈ t.folded ++ recordsOf (t.state.newlyEvicted startAbs) := by
    intro m hm
    have hm : m ∈ (t.state.messages.take (max t.state.summarizedUpto startAbs)).drop 1 := hm
    rw [ChatState.take_updateRollingSummary hpos,
      List.drop_append_of_le_length (by rw [List.length_take]; omega)] at hm
    rcases List.mem_append.mp hm with hold | hnew
    · exact List.mem_append_left _ (h.covers m hold)
    · exact List.mem_append_right _ (List.mem_map_of_mem hnew)
  have hin : (t.state.updateRollingSummary summary startAbs).summarized.Sublist
      (t.state.messages.drop 1) := (List.take_sublist _ _).drop 1
  refine
    { floor := h.floor
      offset := h.offset
      system := h.system
      pos := le_trans hpos (le_max_left _ _)
      le := max_le hupto hle
      sorted := h.sorted
      bounds := h.bounds
      covers := hcovers
      mark := fun _ => ?_
      counts := ⟨h.sorted.sublist (hin.map _), fun i hi => ?_⟩ }
  · have hcount : (recordsOf (t.state.updateRollingSummary summary startAbs).summarized).length =
        max t.state.summarizedUpto startAbs - 1 := by
      unfold recordsOf
      rw [List.length_map]
      show ((t.state.messages.take (max t.state.summarizedUpto startAbs)).drop 1).length = _
      rw [List.length_drop, List.length_take]
      omega
    show 0 < max (t.hydrationOffset + (max t.state.summarizedUpto startAbs - 1)) 1 ∧
      max (t.hydrationOffset + (max t.state.summarizedUpto startAbs - 1)) 1 =
        t.hydrationOffset + (recordsOf _).length
    rw [hcount]
    omega
  · obtain ⟨m, hm, rfl⟩ := List.mem_map.mp hi
    exact ⟨(h.bounds m (hin.subset hm)).1, hcovers m hm⟩

/-- What is left of the messages, and where the mark comes to be. -/
theorem sound_dropStaleLoopMessages (h : t.Sound) (hcareful : t.Careful .dropStaleLoopMessages) :
    (t.step a .dropStaleLoopMessages).Sound := by
  by_cases hnone : t.state.messages.countP ChatMessage.stale = 0
  · have hsame : t.step a .dropStaleLoopMessages = t := by
      have hstate : t.state.dropStaleLoopMessages.1 = t.state := if_pos hnone
      show { t with state := t.state.dropStaleLoopMessages.1 } = t
      rw [hstate]
    rw [hsame]
    exact h
  · obtain ⟨first, rest, hlist, hrole⟩ := h.system
    have hfirst : first.stale = false := by
      unfold ChatMessage.stale
      rw [hrole]
      rfl
    have hstate : (t.step a .dropStaleLoopMessages).state = { t.state with
        messages := t.state.messages.filter fun m => !m.stale
        summarizedUpto := min t.state.summarizedUpto
          (t.state.messages.filter fun m => !m.stale).length } := if_neg hnone
    have hkept : (t.state.messages.filter fun m => !m.stale) =
        first :: rest.filter fun m => !m.stale := by
      rw [hlist, List.filter_cons_of_pos (by rw [hfirst]; rfl)]
    have hin : (rest.filter fun m => !m.stale).Sublist (t.state.messages.drop 1) := by
      rw [hlist]
      exact List.filter_sublist
    have hpos := h.pos
    refine
      { floor := h.floor
        offset := h.offset
        system := ?_
        pos := ?_
        le := ?_
        sorted := ?_
        bounds := fun m hm => ?_
        covers := fun m hm => ?_
        mark := h.mark
        counts := h.counts }
    · rw [hstate]
      exact ⟨first, _, hkept, hrole⟩
    · rw [hstate]
      dsimp only
      rw [hkept, List.length_cons]
      omega
    · rw [hstate]
      exact min_le_right _ _
    · rw [hstate]
      dsimp only
      rw [hkept]
      exact h.sorted.sublist (hin.map _)
    · rw [hstate] at hm
      dsimp only at hm
      rw [hkept] at hm
      exact h.bounds m (hin.subset hm)
    · unfold ChatState.summarized at hm
      rw [hstate] at hm
      dsimp only at hm
      rw [← List.take_take, List.take_length] at hm
      have hrest : ∀ x ∈ (t.state.messages.filter fun m => !m.stale).drop 1,
          x ∈ t.state.messages.drop 1 ∧ x.stale = false := by
        intro x hx
        rw [hkept] at hx
        refine ⟨hin.subset hx, ?_⟩
        simpa using (List.mem_filter.mp hx).2
      rcases hcareful with hbelow | habove
      · have htake : (t.state.messages.filter fun m => !m.stale).take t.state.summarizedUpto =
            (t.state.messages.take t.state.summarizedUpto).filter fun m => !m.stale := by
          refine Story.take_filter_of_careful h.le (Or.inl fun x hx => ?_)
          obtain ⟨k, hk⟩ := Nat.exists_eq_add_of_le' hpos
          unfold ChatState.summarized at hbelow
          rw [hk, hlist, List.take_succ_cons] at hx hbelow
          rcases List.mem_cons.mp hx with rfl | hx
          · exact hfirst
          · exact hbelow x hx
        rw [htake] at hm
        obtain ⟨k, hk⟩ := Nat.exists_eq_add_of_le' hpos
        apply h.covers
        unfold ChatState.summarized
        rw [hk, hlist, List.take_succ_cons] at hm ⊢
        rw [List.filter_cons_of_pos (by rw [hfirst]; rfl)] at hm
        exact (List.mem_filter.mp hm).1
      · obtain ⟨hmem, hfresh⟩ := hrest m ((List.take_sublist _ _).drop 1 |>.subset hm)
        rw [ChatState.drop_one_eq hpos h.le] at hmem
        rcases List.mem_append.mp hmem with hlow | hhigh
        · exact h.covers m hlow
        · exact (habove m hhigh).resolve_left fun hstale => by
            rw [hfresh] at hstale
            cases hstale

/-- **Step lemma**: what a careful operation keeps. -/
theorem sound_step (h : t.Sound) (op : ThreadOp) (hcareful : t.Careful op) :
    (t.step a op).Sound := by
  cases op with
  | request c systemPrompt => exact sound_request h c systemPrompt hcareful
  | appendUser content persistedContent origin => exact sound_append h _ _
  | appendAssistant content toolCalls => exact sound_append h _ _
  | appendTool toolCallId name content => exact sound_append h _ _
  | updateRollingSummary summary startAbs => exact sound_updateRollingSummary h summary hcareful
  | dropStaleLoopMessages => exact sound_dropStaleLoopMessages h hcareful
  | clearContext =>
    exact { h with floor := le_refl _, mark := fun hsome => absurd rfl hsome }
  | appendMessage r =>
    have hlength : (t.disk.records ++ [r]).length = t.disk.records.length + 1 :=
      List.length_append
    exact
      { h with
        floor := by
          show _ ≤ (t.disk.records ++ [r]).length
          rw [hlength]
          exact Nat.le_succ_of_le h.floor
        offset := by
          show _ ≤ (t.disk.records ++ [r]).length
          rw [hlength]
          exact Nat.le_succ_of_le h.offset
        bounds := fun m hm => by
          show _ ∧ _ < (t.disk.records ++ [r]).length
          rw [hlength]
          exact ⟨(h.bounds m hm).1, Nat.lt_succ_of_lt (h.bounds m hm).2⟩ }

theorem sound_start (records : List ChatRecord) (c : Hydration) (systemPrompt : Text) :
    (start records c systemPrompt).Sound := by
  refine sound_request ?_ c systemPrompt (Or.inl rfl)
  exact
    { floor := Nat.zero_le _
      offset := Nat.zero_le _
      system := ⟨_, [], rfl, rfl⟩
      pos := le_refl 1
      le := le_refl 1
      sorted := List.Pairwise.nil
      bounds := fun m hm => absurd hm List.not_mem_nil
      covers := fun m hm => absurd hm List.not_mem_nil
      mark := fun hsome => absurd rfl hsome
      counts := ⟨List.Pairwise.nil, fun i hi => absurd hi List.not_mem_nil⟩ }

end Thread

/-- **The mark survives**: in a run of careful operations every message below the mark was
folded into a summary, or lies before what was cleared. -/
theorem mark_survives (a : Archive) (records : List ChatRecord) (c : Hydration)
    (systemPrompt : Text) {ops : List ThreadOp}
    (h : Along (Thread.step a) Thread.Careful (Thread.start records c systemPrompt) ops) :
    Always (Thread.step a) Thread.Placed (Thread.start records c systemPrompt) ops := by
  have hsound : Always (Thread.step a) Thread.Sound (Thread.start records c systemPrompt) ops :=
    always_of_along (P := Thread.Careful) (fun _ op hs hc => Thread.sound_step hs op hc)
      (Thread.sound_start records c systemPrompt) h
  exact hsound.mono fun _ hs => hs.placed

/-- As the surfaces open a session. -/
private def simple : Hydration := ⟨none, 400, .ascii, isDigit⟩

/-- Nothing to redact. -/
private def plain : Archive := ⟨id, id⟩

/-- A request with its answer, and the next: the first two are summarised. -/
private def summarised (answer : String) : List ThreadOp :=
  [.appendUser "Make a game".toList none [], .appendAssistant answer.toList [],
    .appendUser "In Rust".toList none [], .updateRollingSummary "A game".toList 3,
    .request simple []]

instance (t : Thread) (c : Hydration) : Decidable (t.Agrees c) :=
  inferInstanceAs (Decidable (_ ∧ _ ∧ _))

theorem mark_survives_game : Always (Thread.step plain) Thread.Placed (Thread.start [] simple [])
    (summarised "Done") := by
  apply mark_survives
  refine ⟨trivial, trivial, trivial, ⟨?_, Or.inr ?_⟩, Or.inr ?_, trivial⟩
  · decide
  · decide
  · decide

/-- The answer is a status of the harness: it was counted, and the session is read back without
it, so that the next request is below the mark. -/
theorem request_skipped : ¬ Always (Thread.step plain) Thread.Placed (Thread.start [] simple [])
    (summarised "The model call timed out") := by
  intro h
  have hplaced := always_iff.mp h _ (List.prefix_refl _)
  revert hplaced
  unfold Thread.Placed
  decide

end Shamsu.Chat
