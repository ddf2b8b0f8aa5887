import Shamsu.Chat.History
import Shamsu.Lib.After
import Shamsu.Tools.Resolve

/-!
# Hydration of a chat

What `ChatState._hydrate_from_session` makes of the records of a session: the last of
them, less the calls and results of tools that this caller does not have, the answers
that were given often enough, and what was the harness speaking.

A result stays paired with its call through the tools filter, since the ids of the calls
that go are remembered. The other filters drop an assistant's message and remember
nothing. `hydration_pairs` says what must hold of the records for every result to keep
its call; `result_orphaned` is the third "Let me check." of a session.
-/

namespace Shamsu.Chat

open Shamsu.Lib Shamsu.Py Shamsu.Tools

/-- A role, if it is one that hydrates. -/
def Role.hydrated (t : Text) : Option Role :=
  if t = "user".toList then some .user
  else if t = "assistant".toList then some .assistant
  else if t = "tool".toList then some .tool
  else none

/-- A record of the transcript. A field that is missing is empty, and `toolCalls` are the
dicts in its list. -/
structure ChatRecord where
  role : Text
  content : Text := []
  toolCallId : Text := []
  name : Text := []
  toolCalls : List ToolCall := []
  origin : Text := []
  deriving DecidableEq, Repr

def ChatRecord.kind (r : ChatRecord) : Option Role := Role.hydrated (strip r.role)

/-- `_call_tool_name`. -/
def ToolCall.toolName (call : ToolCall) : Text := strip (call.function.getD call.name)

/-- A part of a pattern. -/
inductive Piece where
  | text (t : Text)
  | optional (c : Char)
  | digits
  | word
  | any
  | anySome
  | oneOf (ts : List Text)

/-- What is left of a text after some of the characters it begins with. -/
def runs (test : Char → Bool) : Text → List Text
  | [] => []
  | c :: t => if test c then t :: runs test t else []

/-- What may be left of a text after a part of a pattern. -/
def Piece.rests (isWord : Char → Bool) (s : Text) : Piece → List Text
  | .text t => if t.isPrefixOf s then [s.drop t.length] else []
  | .optional c => if s.head? = some c then [s.tail, s] else [s]
  | .digits => runs isDigit s
  | .word => s :: runs isWord s
  | .any => s :: runs (· != '\n') s
  | .anySome => runs (· != '\n') s
  | .oneOf ts => ts.flatMap fun t => if t.isPrefixOf s then [s.drop t.length] else []

/-- `pattern.match`. -/
def patternMatch (isWord : Char → Bool) (pattern : List Piece) (s : Text) : Bool :=
  !(pattern.foldl (fun rests piece => rests.flatMap fun s => piece.rests isWord s) [s]).isEmpty

/-- `_HARNESS_STATUS_PREFIXES`. -/
def harnessStatusPrefixes : List String :=
  ["i did not complete the requested workspace change", "i said i would take an action",
    "local ai failed safely", "the model call timed out", "shamsu is ready",
    "(unparseable tool call omitted", "the model did not respond within",
    "the model returned an empty reply", "i ran out of room to answer in",
    "that answer hit my per-reply limit"]

/-- `_HARNESS_STATUS_PATTERNS`. -/
def harnessStatusPatterns : List (List Piece) :=
  [[.text "i stopped after ".toList, .digits, .text " step".toList, .optional 's',
      .text " without finishing".toList],
    [.text "i tried ".toList, .digits, .text " edit".toList, .optional 's',
      .text " in a row that changed nothing".toList],
    [.text "i have now changed ".toList, .anySome, .text " ".toList, .digits,
      .text " times in this turn".toList],
    [.text "my last ".toList, .digits, .text " attempt".toList, .optional 's',
      .text " to write ".toList, .anySome, .text " ".toList,
      .oneOf ["were cut off".toList, "each stopped".toList]],
    [.word, .oneOf ["error".toList, "exception".toList], .text ": ".toList, .any,
      .oneOf ["out of memory".toList, "cudamalloc".toList, "failed to allocate".toList]]]

/-- `_MAX_REPEATED_HYDRATED`. -/
def maxRepeatedHydrated : Nat := 2

/-- `_INTERNAL_USER_CONTEXT_MARKERS`. -/
def internalUserContextMarkers : List String :=
  ["\n\n## SHAMSU Task Harness", "\n\n## Active SHAMSU Skills", "\n\n## Deterministic Context",
    "\n\nAdditional SHAMSU context:", "\n\nWorkspace root:", "\n\nMentioned file context:",
    "\n\nPlan from planner model:", "\n\nCurrent task state:"]

/-- `_clean_user_content_for_persistence`. -/
def cleanUserContent (text : Text) : Text :=
  let cutAt := (internalUserContextMarkers.filterMap fun marker => find marker.toList text).foldl
    min text.length
  strip (text.take cutAt)

/-- What hydration goes by: the tools of the caller, if it names them, the length of the
window, and Python's `lower` and `\w`. -/
structure Hydration where
  knownTools : Option (List Text)
  hydrateMaxMessages : Nat
  casing : Casing
  isWord : Char → Bool

/-- What the loop over the records has so far. -/
structure Hydrating where
  seenAssistant : Text → Nat
  foreignCallIds : List Text
  messages : List ChatMessage

/-- What there is on disk: the transcript, with what `/clear` hides of it, or an older
session's events, those that are no chat message left blank. -/
inductive Transcript where
  | messages (records : List ChatRecord) (contextFloor : Int)
  | events (lines : List (Option ChatRecord))

namespace Hydration

variable (c : Hydration)

/-- A call of a tool that the caller does not have. -/
def isForeign (call : ToolCall) : Bool :=
  match c.knownTools with
  | none => false
  | some tools => !tools.contains call.toolName

/-- The text by which a repetition is known. -/
def normalized (content : Text) : Text := join ' ' (words (c.casing.lower (strip content)))

/-- `_should_hydrate_chat_message`. -/
def shouldHydrate (role : Role) (content : Text) : Bool :=
  if role = .user ∧ strip content = [] then false
  else if role ≠ .assistant then true
  else if c.normalized content = [] then true
  else if harnessStatusPrefixes.any (fun p => p.toList.isPrefixOf (c.normalized content)) then false
  else !harnessStatusPatterns.any fun p => patternMatch c.isWord p (c.normalized content)

/-- A result that goes with a foreign call. -/
def isForeignResult (foreignCallIds : List Text) (r : ChatRecord) : Bool :=
  match c.knownTools with
  | none => false
  | some tools =>
    (strip r.name != [] && !tools.contains (strip r.name)) ||
      (strip r.toolCallId != [] && foreignCallIds.contains (strip r.toolCallId))

/-- The message of a record. -/
def message (role : Role) (content : Text) (toolCalls : List ToolCall) (r : ChatRecord) :
    ChatMessage :=
  { role, content, toolCallId := r.toolCallId, name := r.name, toolCalls, origin := r.origin }

/-- The record of an assistant. -/
def assistantRecord (s : Hydrating) (r : ChatRecord) : Hydrating :=
  let kept := r.toolCalls.filter fun call => !c.isForeign call
  let foreign := r.toolCalls.filter c.isForeign
  let s := { s with foreignCallIds := s.foreignCallIds ++ foreign.map ToolCall.id }
  if kept.length ≠ r.toolCalls.length ∧ kept = [] ∧ strip r.content = [] then s
  else
    let key := c.normalized r.content
    let count := s.seenAssistant key + 1
    let s := if key = [] then s
      else { s with seenAssistant := fun k => if k = key then count else s.seenAssistant k }
    if key ≠ [] ∧ maxRepeatedHydrated < count then s
    else if c.shouldHydrate .assistant r.content then
      { s with messages := s.messages ++ [message .assistant r.content kept r] }
    else s

/-- One round of `_hydrate_records`. -/
def hydrateRecord (s : Hydrating) (r : ChatRecord) : Hydrating :=
  match r.kind with
  | some .assistant => c.assistantRecord s r
  | some .tool =>
    if c.isForeignResult s.foreignCallIds r then s
    else { s with messages := s.messages ++ [message .tool r.content r.toolCalls r] }
  | some .user =>
    let content := cleanUserContent r.content
    if c.shouldHydrate .user content then
      { s with messages := s.messages ++ [message .user content r.toolCalls r] }
    else s
  | _ => s

/-- `_hydrate_records`. -/
def hydrateRecords (records : List ChatRecord) : List ChatMessage :=
  (records.foldl c.hydrateRecord ⟨fun _ => 0, [], []⟩).messages

/-- The records that are looked at. -/
def loaded : Transcript → List ChatRecord
  | .messages records contextFloor =>
    let every := if 0 < contextFloor then records.drop contextFloor.toNat else records
    every.drop (every.length - max 1 c.hydrateMaxMessages)
  | .events lines => (lines.drop (lines.length - max 1 c.hydrateMaxMessages)).filterMap id

/-- `_hydrate_from_session`. -/
def hydrateFromSession (t : Transcript) : List ChatMessage := c.hydrateRecords (c.loaded t)

end Hydration

/-- Each tool record belongs to a call of an assistant before it. -/
def PairedRecords : List ChatRecord → Prop :=
  EachAfter (fun before r => r.kind = some .tool →
    ∃ a ∈ before, a.kind = some .assistant ∧ ∃ call ∈ a.toolCalls, call.id = r.toolCallId) []

/-- The same of messages. -/
def Paired : List ChatMessage → Prop :=
  EachAfter (fun before m => m.role = .tool →
    ∃ a ∈ before, a.role = .assistant ∧ ∃ call ∈ a.toolCalls, call.id = m.toolCallId) []

instance (records : List ChatRecord) : Decidable (PairedRecords records) :=
  inferInstanceAs (Decidable (EachAfter _ [] records))

namespace Hydration

variable (c : Hydration)

/-- The ids of the foreign calls among some records. -/
def foreignIds (records : List ChatRecord) : List Text :=
  records.flatMap fun r =>
    if r.kind = some .assistant then (r.toolCalls.filter c.isForeign).map ToolCall.id else []

/-- How often assistants have said something. -/
def heard (records : List ChatRecord) (key : Text) : Nat :=
  records.countP fun r => r.kind == some .assistant && c.normalized r.content == key

/-- An assistant's record whose text is no status of the harness and was not said twice
before. -/
def Replayed (before : List ChatRecord) (a : ChatRecord) : Prop :=
  a.kind = some .assistant ∧ c.shouldHydrate .assistant a.content = true ∧
    (c.normalized a.content = [] ∨
      c.heard before (c.normalized a.content) < maxRepeatedHydrated)

instance (before : List ChatRecord) (a : ChatRecord) : Decidable (c.Replayed before a) :=
  inferInstanceAs (Decidable (_ ∧ _ ∧ (_ ∨ _)))

/-- Among some records is one that is replayed, with a call of an id that stays. -/
def Answers (records : List ChatRecord) (id : Text) : Prop :=
  SomeAfter (fun before a => c.Replayed before a ∧
    ∃ call ∈ a.toolCalls, c.isForeign call = false ∧ call.id = id) [] records

/-- **No result outlives its call**: of those who made the call of a result that passes the
tools filter, one is in the window and is replayed. -/
def OwnersReplayed (records : List ChatRecord) : Prop :=
  EachAfter (fun before r => r.kind = some .tool →
    c.isForeignResult (c.foreignIds before) r = false → c.Answers before r.toolCallId) [] records

instance (records : List ChatRecord) (id : Text) : Decidable (c.Answers records id) :=
  inferInstanceAs (Decidable (SomeAfter _ [] records))

instance (records : List ChatRecord) : Decidable (c.OwnersReplayed records) :=
  inferInstanceAs (Decidable (EachAfter _ [] records))

/-- What the loop knows of the records so far. -/
structure Knows (before : List ChatRecord) (s : Hydrating) : Prop where
  seen : ∀ key, key ≠ [] → s.seenAssistant key = c.heard before key
  foreign : s.foreignCallIds = c.foreignIds before
  owns : ∀ id, (∃ a ∈ s.messages, a.role = .assistant ∧ ∃ call ∈ a.toolCalls, call.id = id) ↔
    c.Answers before id

variable {c} {before : List ChatRecord} {s : Hydrating} {r : ChatRecord}

theorem heard_concat (key : Text) : c.heard (before ++ [r]) key = c.heard before key +
    if r.kind = some .assistant ∧ c.normalized r.content = key then 1 else 0 := by
  unfold heard
  rw [List.countP_append, List.countP_singleton]
  simp

theorem foreignIds_concat : c.foreignIds (before ++ [r]) = c.foreignIds before ++
    if r.kind = some .assistant then (r.toolCalls.filter c.isForeign).map ToolCall.id else [] := by
  unfold foreignIds
  rw [List.flatMap_append, List.flatMap_singleton]

theorem answers_concat {id : Text} : c.Answers (before ++ [r]) id ↔ c.Answers before id ∨
    (c.Replayed before r ∧ ∃ call ∈ r.toolCalls, c.isForeign call = false ∧ call.id = id) :=
  someAfter_concat

theorem knows_start : c.Knows [] ⟨fun _ => 0, [], []⟩ where
  seen := fun _ _ => rfl
  foreign := rfl
  owns := fun _ => iff_of_false (fun ⟨_, ha, _⟩ => List.not_mem_nil ha) id

/-- Records other than an assistant's change nothing that is known. -/
theorem Knows.other (h : c.Knows before s) (hr : r.kind ≠ some .assistant)
    {messages : List ChatMessage} (hmessages : messages = s.messages ∨
      ∃ m, m.role ≠ .assistant ∧ messages = s.messages ++ [m]) :
    c.Knows (before ++ [r]) { s with messages := messages } where
  seen := fun key hkey => by
    rw [heard_concat, if_neg fun h => hr h.1]
    exact h.seen key hkey
  foreign := by
    rw [foreignIds_concat, if_neg hr, List.append_nil]
    exact h.foreign
  owns := fun id => by
    rw [answers_concat, ← h.owns id]
    have hsame : (∃ a ∈ messages, a.role = .assistant ∧ ∃ call ∈ a.toolCalls, call.id = id) ↔
        ∃ a ∈ s.messages, a.role = .assistant ∧ ∃ call ∈ a.toolCalls, call.id = id := by
      rcases hmessages with rfl | ⟨m, hm, rfl⟩
      · exact Iff.rfl
      · constructor
        · intro hsome
          obtain ⟨a, ha, hrole, hcall⟩ := hsome
          rcases List.mem_append.mp ha with ha | ha
          · exact ⟨a, ha, hrole, hcall⟩
          · rw [List.mem_singleton.mp ha] at hrole
            exact absurd hrole hm
        · intro hsome
          obtain ⟨a, ha, hrest⟩ := hsome
          exact ⟨a, List.mem_append_left _ ha, hrest⟩
    refine hsame.trans ⟨Or.inl, fun hor => hor.resolve_right fun hnew => hr hnew.1.1⟩

/-- What is made of an assistant's record: it is passed over or replayed with the calls
that stay. -/
theorem assistantRecord_messages (h : c.Knows before s) (hr : r.kind = some .assistant) :
    (c.assistantRecord s r).messages = s.messages ∧ (¬ c.Replayed before r ∨
        ∀ call ∈ r.toolCalls, c.isForeign call = true) ∨
      (c.assistantRecord s r).messages = s.messages ++
        [message .assistant r.content (r.toolCalls.filter fun call => !c.isForeign call) r] ∧
      c.Replayed before r := by
  unfold assistantRecord
  dsimp only
  split
  next hblank =>
    left
    refine ⟨rfl, Or.inr fun call hcall => ?_⟩
    have := List.filter_eq_nil_iff.mp hblank.2.1 call hcall
    simpa using this
  · by_cases hkey : c.normalized r.content = []
    · rw [if_neg fun h => h.1 hkey, if_pos hkey]
      split
      next hshould => exact Or.inr ⟨rfl, hr, hshould, Or.inl hkey⟩
      next hshould => exact Or.inl ⟨rfl, Or.inl fun hreplayed => hshould hreplayed.2.1⟩
    · rw [if_neg hkey]
      have hcount := h.seen _ hkey
      split
      next hoften =>
        refine Or.inl ⟨rfl, Or.inl fun hreplayed => ?_⟩
        have hlt := hreplayed.2.2.resolve_left hkey
        have hover := hoften.2
        omega
      next hoften =>
        have hfew : ¬ maxRepeatedHydrated < s.seenAssistant (c.normalized r.content) + 1 :=
          fun hlt => hoften ⟨hkey, hlt⟩
        split
        next hshould =>
          refine Or.inr ⟨rfl, hr, hshould, Or.inr ?_⟩
          omega
        next hshould => exact Or.inl ⟨rfl, Or.inl fun hreplayed => hshould hreplayed.2.1⟩

theorem normalized_of_blank {content : Text} (h : strip content = []) :
    c.normalized content = [] := by
  unfold normalized
  rw [h, (c.casing.dots [] 0).mpr rfl]
  rfl

/-- An assistant's record is counted, and its foreign calls are remembered, whatever
becomes of it. -/
theorem assistantRecord_foreign : (c.assistantRecord s r).foreignCallIds =
    s.foreignCallIds ++ (r.toolCalls.filter c.isForeign).map ToolCall.id := by
  unfold assistantRecord
  dsimp only
  by_cases hkey : c.normalized r.content = []
  · rw [if_pos hkey]
    split
    · rfl
    · split
      · rfl
      · split <;> rfl
  · rw [if_neg hkey]
    split
    · rfl
    · split
      · rfl
      · split <;> rfl

theorem assistantRecord_seen {key : Text} (hne : key ≠ []) :
    (c.assistantRecord s r).seenAssistant key = s.seenAssistant key +
      if c.normalized r.content = key then 1 else 0 := by
  unfold assistantRecord
  dsimp only
  split
  next hblank =>
    rw [if_neg fun heq => hne (heq.symm.trans (normalized_of_blank hblank.2.2))]
    rfl
  · by_cases hkey : c.normalized r.content = []
    · have hother : ¬ c.normalized r.content = key := fun heq => hne (heq.symm.trans hkey)
      rw [if_pos hkey, if_neg hother]
      split
      · rfl
      · split <;> rfl
    · rw [if_neg hkey]
      have hafter : (if key = c.normalized r.content then
          s.seenAssistant (c.normalized r.content) + 1 else s.seenAssistant key) =
          s.seenAssistant key + if c.normalized r.content = key then 1 else 0 := by
        by_cases heq : c.normalized r.content = key
        · rw [if_pos heq.symm, if_pos heq, heq]
        · rw [if_neg fun h => heq h.symm, if_neg heq]
          rfl
      split
      · exact hafter
      · split <;> exact hafter

theorem Knows.assistant (h : c.Knows before s) (hr : r.kind = some .assistant) :
    c.Knows (before ++ [r]) (c.assistantRecord s r) where
  seen := fun key hne => by
    rw [assistantRecord_seen hne, heard_concat, h.seen key hne]
    congr 1
    simp [hr]
  foreign := by
    rw [assistantRecord_foreign, foreignIds_concat, if_pos hr, h.foreign]
  owns := fun id => by
    rw [answers_concat, ← h.owns id]
    rcases assistantRecord_messages h hr with ⟨hsame, hnot⟩ | ⟨hnew, hreplayed⟩
    · rw [hsame]
      refine ⟨Or.inl, fun hor => hor.resolve_right fun hnew => ?_⟩
      obtain ⟨hreplayed, call, hcall, hknown, _⟩ := hnew
      rcases hnot with hnot | hall
      · exact hnot hreplayed
      · rw [hall call hcall] at hknown
        cases hknown
    · rw [hnew]
      constructor
      · intro hsome
        obtain ⟨a, ha, hrole, call, hcall, hid⟩ := hsome
        rcases List.mem_append.mp ha with ha | ha
        · exact Or.inl ⟨a, ha, hrole, call, hcall, hid⟩
        · rw [List.mem_singleton.mp ha] at hcall
          obtain ⟨hin, hknown⟩ := List.mem_filter.mp hcall
          exact Or.inr ⟨hreplayed, call, hin, by simpa using hknown, hid⟩
      · intro hcase
        rcases hcase with ⟨a, ha, hrest⟩ | ⟨_, call, hcall, hknown, hid⟩
        · exact ⟨a, List.mem_append_left _ ha, hrest⟩
        · refine ⟨_, List.mem_append_right _ (List.mem_singleton.mpr rfl), rfl, call, ?_, hid⟩
          exact List.mem_filter.mpr ⟨hcall, by rw [hknown]; rfl⟩

/-- What one record adds keeps the messages paired just when the record is no result, is
passed over, or has its call. -/
theorem hydrateRecord_spec (h : c.Knows before s) (r : ChatRecord) :
    c.Knows (before ++ [r]) (c.hydrateRecord s r) ∧
      (Paired (c.hydrateRecord s r).messages ↔ Paired s.messages ∧
        (r.kind = some .tool → c.isForeignResult (c.foreignIds before) r = false →
          c.Answers before r.toolCallId)) := by
  -- a message that is no result leaves everything paired
  have hplain : ∀ m : ChatMessage, m.role ≠ .tool →
      (Paired (s.messages ++ [m]) ↔ Paired s.messages) := by
    intro m hm
    exact eachAfter_concat.trans (and_iff_left fun htool => absurd htool hm)
  unfold hydrateRecord
  split
  next hkind =>
    refine ⟨h.assistant hkind, ?_⟩
    rw [and_iff_left fun htool => by rw [hkind] at htool; cases htool]
    rcases assistantRecord_messages h hkind with ⟨hsame, _⟩ | ⟨hnew, _⟩
    · rw [hsame]
    · rw [hnew]
      exact hplain _ (by simp [message])
  next hkind =>
    have hne : r.kind ≠ some .assistant := by
      rw [hkind]
      simp
    split
    next hforeign =>
      refine ⟨h.other hne (Or.inl rfl), ?_⟩
      rw [h.foreign] at hforeign
      rw [and_iff_left fun _ hpass => by rw [hforeign] at hpass; cases hpass]
    next hpass =>
      refine ⟨h.other hne (Or.inr ⟨_, by simp [message], rfl⟩), ?_⟩
      · refine eachAfter_concat.trans (and_congr_right fun _ => ?_)
        rw [List.nil_append]
        have hpass : c.isForeignResult (c.foreignIds before) r = false := by
          rw [← h.foreign]
          simpa using hpass
        constructor
        · intro hown _ _
          exact (h.owns _).mp (hown rfl)
        · intro hown _
          exact (h.owns _).mpr (hown hkind hpass)
  next hkind =>
    have hne : r.kind ≠ some .assistant := by
      rw [hkind]
      simp
    have hno : r.kind ≠ some .tool := by
      rw [hkind]
      simp
    dsimp only
    rw [and_iff_left fun htool => absurd htool hno]
    split
    · exact ⟨h.other hne (Or.inr ⟨_, by simp [message], rfl⟩), hplain _ (by simp [message])⟩
    · exact ⟨h.other hne (Or.inl rfl), Iff.rfl⟩
  next hassistant htool huser =>
    refine ⟨h.other hassistant (Or.inl rfl), ?_⟩
    rw [and_iff_left fun hkind => absurd hkind htool]

/-- The loop, over the records that are left. -/
theorem hydrateRecords_from (records : List ChatRecord) (h : c.Knows before s) :
    Paired (records.foldl c.hydrateRecord s).messages ↔ Paired s.messages ∧
      EachAfter (fun before r => r.kind = some .tool →
        c.isForeignResult (c.foreignIds before) r = false → c.Answers before r.toolCallId)
        before records := by
  induction records generalizing before s with
  | nil => exact (and_iff_left trivial).symm
  | cons r records ih =>
    obtain ⟨hknows, hpaired⟩ := hydrateRecord_spec h r
    show Paired (records.foldl c.hydrateRecord (c.hydrateRecord s r)).messages ↔ _
    rw [ih hknows, hpaired]
    exact and_assoc

theorem paired_hydrateRecords (records : List ChatRecord) :
    Paired (c.hydrateRecords records) ↔ c.OwnersReplayed records := by
  unfold hydrateRecords
  rw [hydrateRecords_from records knows_start]
  exact and_iff_right trivial

end Hydration

/-- **When hydration keeps results and calls together**: just when of those who made the
call of a result that stays one stays. -/
theorem hydration_pairs (c : Hydration) (t : Transcript) :
    Paired (c.hydrateFromSession t) ↔ c.OwnersReplayed (c.loaded t) :=
  Hydration.paired_hydrateRecords _

/-- A look at a file, with its result. -/
private def look (id : String) : List ChatRecord :=
  [{ role := "assistant".toList, content := "Let me check.".toList
     toolCalls := [{ function := some "read_file".toList, id := id.toList }] },
    { role := "tool".toList, content := "1\tprint()".toList, toolCallId := id.toList,
      name := "read_file".toList }]

/-- The third time is dropped as a repetition, and its result stays without a call. -/
theorem result_orphaned : PairedRecords (look "a" ++ look "b" ++ look "c") ∧
    ¬ Paired (Hydration.hydrateFromSession ⟨some ["read_file".toList], 400, .ascii, isDigit⟩
      (.messages (look "a" ++ look "b" ++ look "c") 0)) := by
  unfold Hydration.hydrateFromSession
  rw [Hydration.paired_hydrateRecords]
  decide

end Shamsu.Chat
