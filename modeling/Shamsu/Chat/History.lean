import Shamsu.Lib.Run
import Shamsu.Py.Text

/-!
# The chat history and its summary

`shamsu/agents/chat_state.py`: the messages of a conversation, of which the last turns
that fit a budget go into the prompt. What no longer fits is folded into a rolling
summary, and one index says how far that reaches.

`drop_stale_loop_messages` takes messages out of the list and leaves the index where it
is. `nothing_lost` is that no message is lost as long as it takes none from below the
index; `request_lost` is a request that nobody summarised and nobody sends.
-/

namespace Shamsu.Chat

open Shamsu.Lib Shamsu.Py

inductive Role where
  | system
  | user
  | assistant
  | tool
  deriving DecidableEq, Repr

/-- A call in `tool_calls`: its `function` if that is a dict, with the name in it, and its
own name and id. A field that is missing is empty. -/
structure ToolCall where
  function : Option Text := none
  name : Text := []
  id : Text := []
  arguments : Text := []
  deriving DecidableEq, Repr

/-- `ChatMessage`. `ident` says which object it is. -/
structure ChatMessage where
  role : Role
  content : Text
  toolCallId : Text := []
  name : Text := []
  toolCalls : List ToolCall := []
  elided : Bool := false
  origin : Text := []
  ident : Nat := 0
  deriving DecidableEq, Repr

/-- `ORIGIN_LOOP`. -/
def originLoop : Text := "loop".toList

/-- `ChatState`, without its surface and its session. -/
structure ChatState where
  systemPrompt : Text
  messages : List ChatMessage
  rollingSummary : Text
  summarizedUpto : Nat
  deriving DecidableEq, Repr

/-- What `select_for_budget` is given. `dumps` writes the calls of a message as JSON. -/
structure Budget where
  maxTokens : Int
  tokenCounter : Text → Int
  dumps : List ToolCall → Text
  perMessageOverhead : Int

/-- `message_tokens`. -/
def Budget.messageTokens (b : Budget) (m : ChatMessage) : Int :=
  b.tokenCounter m.content +
      (if m.toolCalls = [] then 0 else b.tokenCounter (b.dumps m.toolCalls)) +
    b.perMessageOverhead

/-- The loop of `select_for_budget`, over the starts from the last on. -/
def Budget.selectFrom (b : Budget) (history : List ChatMessage) (historyBudget : Int) :
    List Nat → Int → Nat → Nat → Nat
  | [], _, startRel, _ => startRel
  | start :: starts, used, startRel, stop =>
    let cost := (((history.take stop).drop start).map b.messageTokens).sum
    if stop ≠ history.length ∧ used + cost > historyBudget then startRel
    else if used + cost > historyBudget then start
    else b.selectFrom history historyBudget starts (used + cost) start start

/-- What the harness said in the user's role, and the empty replies it said it to. -/
def ChatMessage.stale (m : ChatMessage) : Bool :=
  (m.role == .user && m.origin == originLoop) ||
    (m.role == .assistant && strip m.content == [] && m.toolCalls == [])

namespace ChatState

/-- A new state, with what was hydrated and how much of it the saved summary covers. -/
def new (systemPrompt : Text) (hydrated : List ChatMessage) (summary : Text)
    (alreadySummarised : Nat) : ChatState :=
  { systemPrompt
    messages := { role := .system, content := systemPrompt } :: hydrated
    rollingSummary := summary
    summarizedUpto := max 1 (min (1 + alreadySummarised) (hydrated.length + 1)) }

/-- `_append`. -/
def append (s : ChatState) (m : ChatMessage) : ChatState := { s with messages := s.messages ++ [m] }

/-- `select_for_budget`: the tail, and where it starts. -/
def selectForBudget (s : ChatState) (b : Budget) : List ChatMessage × Nat :=
  let history := s.messages.drop 1
  if history = [] then ([], 1)
  else
    let historyBudget := max 0 (b.maxTokens - b.tokenCounter s.systemPrompt - b.perMessageOverhead)
    let starts := history.findIdxs fun m => m.role == .user
    match starts.getLast? with
    | none => ([], s.messages.length)
    | some last =>
      let startAbs := b.selectFrom history historyBudget starts.reverse 0 last history.length + 1
      (s.messages.drop startAbs, startAbs)

/-- `newly_evicted`. -/
def newlyEvicted (s : ChatState) (startAbs : Nat) : List ChatMessage :=
  (s.messages.take startAbs).drop (max 1 s.summarizedUpto)

/-- `update_rolling_summary`. -/
def updateRollingSummary (s : ChatState) (summary : Text) (startAbs : Nat) : ChatState :=
  { s with rollingSummary := summary, summarizedUpto := max s.summarizedUpto startAbs }

/-- `drop_stale_loop_messages`, with the number it returns. -/
def dropStaleLoopMessages (s : ChatState) : ChatState × Nat :=
  let kept := s.messages.filter fun m => !m.stale
  let dropped := s.messages.countP ChatMessage.stale
  (if dropped = 0 then s
    else { s with messages := kept, summarizedUpto := min s.summarizedUpto kept.length }, dropped)

theorem drop_one_eq {messages : List ChatMessage} {upto : Nat} (hpos : 1 ≤ upto)
    (hle : upto ≤ messages.length) :
    messages.drop 1 = (messages.take upto).drop 1 ++ messages.drop upto := by
  conv_lhs => rw [← List.take_append_drop upto messages]
  rw [List.drop_append_of_le_length]
  rw [List.length_take]
  omega

/-- Below the new mark is what was below the old one, and what is newly evicted. -/
theorem take_updateRollingSummary {s : ChatState} (hpos : 1 ≤ s.summarizedUpto) (startAbs : Nat) :
    s.messages.take (max s.summarizedUpto startAbs) =
      s.messages.take s.summarizedUpto ++ s.newlyEvicted startAbs := by
  unfold newlyEvicted
  rw [max_eq_right hpos]
  rcases le_total startAbs s.summarizedUpto with hlow | hhigh
  · rw [max_eq_left hlow, List.drop_eq_nil_of_le, List.append_nil]
    exact le_trans (List.length_take_le _ _) hlow
  · rw [max_eq_right hhigh]
    conv_lhs => rw [← List.take_append_drop s.summarizedUpto (s.messages.take startAbs)]
    rw [List.take_take, min_eq_left hhigh]

end ChatState

/-- A chat state and what became of its messages: all that were ever appended, those a
summary was made of, and those that were dropped. -/
structure Story where
  state : ChatState
  appended : List ChatMessage
  covered : List ChatMessage
  removed : List ChatMessage
  deriving DecidableEq, Repr

inductive HistoryOp where
  | append (m : ChatMessage)
  | select (b : Budget)
  | newlyEvicted (startAbs : Nat)
  | updateRollingSummary (summary : Text) (startAbs : Nat)
  | dropStaleLoopMessages

namespace Story

/-- The start. The saved summary covers what is below its mark. -/
def start (systemPrompt : Text) (hydrated : List ChatMessage) (summary : Text)
    (alreadySummarised : Nat) : Story :=
  let hydrated := hydrated.zipIdx.map fun r => { r.1 with ident := r.2 + 1 }
  let state := ChatState.new systemPrompt hydrated summary alreadySummarised
  { state
    appended := hydrated
    covered := (state.messages.take state.summarizedUpto).drop 1
    removed := [] }

/-- One operation. A summary that is put in place covers what `newly_evicted` returns for
the same start. -/
def step (st : Story) : HistoryOp → Story
  | .append m =>
    let m := { m with ident := st.appended.length + 1 }
    { st with state := st.state.append m, appended := st.appended ++ [m] }
  | .select _ => st
  | .newlyEvicted _ => st
  | .updateRollingSummary summary startAbs =>
    { st with
      state := st.state.updateRollingSummary summary startAbs
      covered := st.covered ++ st.state.newlyEvicted startAbs }
  | .dropStaleLoopMessages =>
    { st with
      state := st.state.dropStaleLoopMessages.1
      removed := st.removed ++ st.state.messages.filter ChatMessage.stale }

/-- **No message is lost.** Whatever the next budget is, a message that was not dropped is
in the tail, or summarised, or about to be. -/
def Kept (st : Story) : Prop :=
  ∀ m ∈ st.appended, m ∉ st.removed → ∀ b,
    m ∈ (st.state.selectForBudget b).1 ∨ m ∈ st.covered ∨
      m ∈ st.state.newlyEvicted (st.state.selectForBudget b).2

/-- Nothing is dropped from below the mark, or nothing is left above it; and a summary
reaches no further than the messages do. -/
def Careful (st : Story) : HistoryOp → Prop
  | .updateRollingSummary _ startAbs => startAbs ≤ st.state.messages.length
  | .dropStaleLoopMessages =>
    (∀ m ∈ st.state.messages.take st.state.summarizedUpto, m.stale = false) ∨
      ∀ m ∈ st.state.messages.drop st.state.summarizedUpto, m.stale = true
  | _ => True

/-- What is below the mark is covered. -/
structure Sound (st : Story) : Prop where
  system : ∃ first rest, st.state.messages = first :: rest ∧ first.role = .system
  pos : 1 ≤ st.state.summarizedUpto
  le : st.state.summarizedUpto ≤ st.state.messages.length
  here : ∀ m ∈ st.appended, m ∈ st.removed ∨ m ∈ st.state.messages.drop 1
  covers : ∀ m ∈ (st.state.messages.take st.state.summarizedUpto).drop 1, m ∈ st.covered

variable {st : Story}

/-- What is selected is what is at or after the start. -/
theorem selectForBudget_tail (s : ChatState) (b : Budget) :
    (s.selectForBudget b).1 = s.messages.drop (s.selectForBudget b).2 := by
  unfold ChatState.selectForBudget
  dsimp only
  split
  next hnone => exact hnone.symm
  · split
    · exact List.drop_length.symm
    · rfl

theorem Sound.kept (h : st.Sound) : st.Kept := by
  intro m hm hin b
  have hhere := (h.here m hm).resolve_left hin
  rw [selectForBudget_tail]
  generalize (st.state.selectForBudget b).2 = startAbs
  -- below the mark or not
  rw [ChatState.drop_one_eq h.pos h.le] at hhere
  rcases List.mem_append.mp hhere with hbelow | habove
  · exact Or.inr (Or.inl (h.covers m hbelow))
  · have hmax : max 1 st.state.summarizedUpto = st.state.summarizedUpto := max_eq_right h.pos
    by_cases hlate : startAbs ≤ st.state.summarizedUpto
    · -- the tail starts before the mark
      left
      have hmore : st.state.messages.drop st.state.summarizedUpto =
          (st.state.messages.drop startAbs).drop (st.state.summarizedUpto - startAbs) := by
        rw [List.drop_drop]
        congr 1
        omega
      rw [hmore] at habove
      exact List.mem_of_mem_drop habove
    · have hmore : st.state.messages.drop st.state.summarizedUpto =
          st.state.newlyEvicted startAbs ++ st.state.messages.drop startAbs := by
        unfold ChatState.newlyEvicted
        rw [hmax]
        conv_lhs => rw [← List.take_append_drop startAbs st.state.messages]
        by_cases hlen : st.state.summarizedUpto ≤ (st.state.messages.take startAbs).length
        · rw [List.drop_append_of_le_length hlen]
        · have hle := h.le
          rw [List.length_take] at hlen
          omega
      rw [hmore] at habove
      rcases List.mem_append.mp habove with hnext | htail
      · exact Or.inr (Or.inr hnext)
      · exact Or.inl htail

theorem sound_start (systemPrompt : Text) (hydrated : List ChatMessage) (summary : Text)
    (alreadySummarised : Nat) : (start systemPrompt hydrated summary alreadySummarised).Sound where
  system := ⟨_, _, rfl, rfl⟩
  pos := le_max_left _ _
  le := by
    unfold start ChatState.new
    dsimp only
    rw [List.length_cons]
    omega
  here := fun m hm => Or.inr hm
  covers := fun m hm => hm

theorem sound_append (h : st.Sound) (m : ChatMessage) : (st.step (.append m)).Sound := by
  obtain ⟨first, rest, hlist, hrole⟩ := h.system
  have hlen : 1 ≤ st.state.messages.length := by
    rw [hlist, List.length_cons]
    omega
  have hdrop : ∀ x : ChatMessage, (st.state.messages ++ [x]).drop 1 =
      st.state.messages.drop 1 ++ [x] := fun x => List.drop_append_of_le_length hlen
  refine
    { system := ⟨first, rest ++ [_], by
        show st.state.messages ++ [_] = _
        rw [hlist]
        rfl, hrole⟩
      pos := h.pos
      le := ?_
      here := fun x hx => ?_
      covers := fun x hx => ?_ }
  · show st.state.summarizedUpto ≤ (st.state.messages ++ [_]).length
    rw [List.length_append]
    exact Nat.le_add_right_of_le h.le
  · show x ∈ st.removed ∨ x ∈ (st.state.messages ++ [_]).drop 1
    rw [hdrop]
    rcases List.mem_append.mp hx with hold | hnew
    · exact (h.here x hold).imp_right fun hin => List.mem_append_left _ hin
    · exact Or.inr (List.mem_append_right _ hnew)
  · have hx : x ∈ ((st.state.messages ++ [_]).take st.state.summarizedUpto).drop 1 := hx
    rw [List.take_append_of_le_length h.le] at hx
    exact h.covers x hx

theorem sound_updateRollingSummary (h : st.Sound) (summary : Text) {startAbs : Nat}
    (hle : startAbs ≤ st.state.messages.length) :
    (st.step (.updateRollingSummary summary startAbs)).Sound where
  system := h.system
  pos := le_trans h.pos (le_max_left _ _)
  le := max_le h.le hle
  here := h.here
  covers := fun m hm => by
    have hm : m ∈ (st.state.messages.take (max st.state.summarizedUpto startAbs)).drop 1 := hm
    have hpos := h.pos
    have hupto := h.le
    rw [ChatState.take_updateRollingSummary hpos,
      List.drop_append_of_le_length (by rw [List.length_take]; omega)] at hm
    exact (List.mem_append.mp hm).elim (fun hin => List.mem_append_left _ (h.covers m hin))
      fun hin => List.mem_append_right _ hin

/-- The list without what is stale, cut at the mark, has nothing from above the mark. -/
theorem take_filter_of_careful {messages : List ChatMessage} {upto : Nat}
    (hle : upto ≤ messages.length)
    (h : (∀ m ∈ messages.take upto, m.stale = false) ∨ ∀ m ∈ messages.drop upto, m.stale = true) :
    (messages.filter fun m => !m.stale).take upto =
      (messages.take upto).filter fun m => !m.stale := by
  have hsplit : (messages.filter fun m => !m.stale) =
      ((messages.take upto).filter fun m => !m.stale) ++
        (messages.drop upto).filter fun m => !m.stale := by
    rw [← List.filter_append, List.take_append_drop]
  have hlen : ((messages.take upto).filter fun m => !m.stale).length ≤ upto :=
    le_trans (List.length_filter_le _ _) (List.length_take_le _ _)
  rw [hsplit]
  rcases h with hbelow | habove
  · have hall : ((messages.take upto).filter fun m => !m.stale) = messages.take upto :=
      List.filter_eq_self.mpr fun m hm => by rw [hbelow m hm]; rfl
    rw [hall]
    apply List.take_left'
    rw [List.length_take, min_eq_left hle]
  · have hnone : ((messages.drop upto).filter fun m => !m.stale) = [] :=
      List.filter_eq_nil_iff.mpr fun m hm => by rw [habove m hm]; simp
    rw [hnone, List.append_nil]
    exact List.take_of_length_le hlen

theorem sound_dropStaleLoopMessages (h : st.Sound)
    (hcareful : st.Careful .dropStaleLoopMessages) : (st.step .dropStaleLoopMessages).Sound := by
  obtain ⟨first, rest, hlist, hrole⟩ := h.system
  have hfirst : first.stale = false := by
    unfold ChatMessage.stale
    rw [hrole]
    rfl
  by_cases hnone : st.state.messages.countP ChatMessage.stale = 0
  · -- nothing to drop
    have hsame : st.state.dropStaleLoopMessages.1 = st.state := if_pos hnone
    have hfilter : st.state.messages.filter ChatMessage.stale = [] := by
      rw [← List.length_eq_zero_iff, ← List.countP_eq_length_filter]
      exact hnone
    have hstep : st.step .dropStaleLoopMessages = st := by
      dsimp only [step]
      rw [hsame, hfilter, List.append_nil]
    rw [hstep]
    exact h
  · have hstate : (st.step .dropStaleLoopMessages).state = { st.state with
        messages := st.state.messages.filter fun m => !m.stale
        summarizedUpto := min st.state.summarizedUpto
          (st.state.messages.filter fun m => !m.stale).length } := if_neg hnone
    have hkept : (st.state.messages.filter fun m => !m.stale) =
        first :: rest.filter fun m => !m.stale := by
      rw [hlist, List.filter_cons_of_pos (by rw [hfirst]; rfl)]
    refine
      { system := ?_
        pos := ?_
        le := ?_
        here := fun m hm => ?_
        covers := fun m hm => ?_ }
    · rw [hstate]
      exact ⟨first, _, hkept, hrole⟩
    · rw [hstate]
      have := h.pos
      dsimp only
      rw [hkept, List.length_cons]
      omega
    · rw [hstate]
      exact min_le_right _ _
    · show m ∈ st.removed ++ st.state.messages.filter ChatMessage.stale ∨ _
      rw [hstate]
      dsimp only
      rcases h.here m hm with hgone | hin
      · exact Or.inl (List.mem_append_left _ hgone)
      · rw [hlist] at hin
        have hin : m ∈ rest := hin
        by_cases hstale : m.stale = true
        · left
          refine List.mem_append_right _ (List.mem_filter.mpr ⟨?_, hstale⟩)
          rw [hlist]
          exact List.mem_cons_of_mem _ hin
        · right
          rw [hkept]
          exact List.mem_filter.mpr ⟨hin, by simpa using hstale⟩
    · rw [hstate] at hm
      dsimp only at hm
      show m ∈ st.covered
      have hcut : (st.state.messages.filter fun m => !m.stale).take (min st.state.summarizedUpto
          (st.state.messages.filter fun m => !m.stale).length) =
          (st.state.messages.take st.state.summarizedUpto).filter fun m => !m.stale := by
        rw [← List.take_take, List.take_length]
        exact take_filter_of_careful h.le hcareful
      rw [hcut] at hm
      -- all but the first are covered
      obtain ⟨k, hk⟩ := Nat.exists_eq_add_of_le' h.pos
      apply h.covers
      rw [hk, hlist, List.take_succ_cons] at hm ⊢
      rw [List.filter_cons_of_pos (by rw [hfirst]; rfl)] at hm
      exact (List.mem_filter.mp hm).1

theorem sound_step (h : st.Sound) (op : HistoryOp) (hcareful : st.Careful op) :
    (st.step op).Sound := by
  cases op with
  | append m => exact sound_append h m
  | select b => exact h
  | newlyEvicted startAbs => exact h
  | updateRollingSummary summary startAbs => exact sound_updateRollingSummary h summary hcareful
  | dropStaleLoopMessages => exact sound_dropStaleLoopMessages h hcareful

end Story

/-- **No history is lost** in a run of careful operations. -/
theorem nothing_lost {systemPrompt : Text} {hydrated : List ChatMessage} {summary : Text}
    {alreadySummarised : Nat} {ops : List HistoryOp}
    (h : Along Story.step Story.Careful
      (Story.start systemPrompt hydrated summary alreadySummarised) ops) :
    Always Story.step Story.Kept
      (Story.start systemPrompt hydrated summary alreadySummarised) ops := by
  have hsound : Always Story.step Story.Sound
      (Story.start systemPrompt hydrated summary alreadySummarised) ops :=
    always_of_along (P := Story.Careful) (fun _ op hs hc => Story.sound_step hs op hc)
      (Story.sound_start systemPrompt hydrated summary alreadySummarised) h
  exact hsound.mono fun _ hs => hs.kept

/-- A request, a correction by the harness, the next request and its answer, and a third. -/
private def gameSession : List HistoryOp :=
  [.append { role := .user, content := "Make a game".toList },
    .append { role := .user, content := "That reply was empty".toList, origin := originLoop },
    .append { role := .user, content := "In Rust".toList },
    .append { role := .assistant, content := "Done".toList },
    .append { role := .user, content := "Run it".toList }]

theorem nothing_lost_late : Always Story.step Story.Kept (Story.start [] [] [] 0)
    (gameSession ++ [.dropStaleLoopMessages, .updateRollingSummary "A game".toList 2]) := by
  apply nothing_lost
  refine ⟨trivial, trivial, trivial, trivial, trivial, Or.inl ?_, ?_, trivial⟩
  · decide
  · show 2 ≤ _
    decide

/-- The correction goes, what is left moves down, and the second request is below the mark. -/
theorem request_lost : ¬ Always Story.step Story.Kept (Story.start [] [] [] 0)
    (gameSession ++ [.updateRollingSummary "A game".toList 3, .dropStaleLoopMessages]) := by
  intro h
  have hkept := always_iff.mp h _ (List.prefix_refl _)
  have hlost := hkept ⟨.user, "In Rust".toList, [], [], [], false, [], 3⟩ (by decide) (by decide)
    ⟨0, fun _ => 1, fun _ => [], 0⟩
  revert hlost
  decide

end Shamsu.Chat
