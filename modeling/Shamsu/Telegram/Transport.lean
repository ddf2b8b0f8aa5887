import Shamsu.Telegram.Controller

/-!
# Polling for updates

`updates` asks Telegram for the updates from the stored offset on, hands on those
it knows, and stores the offset after each of them. Telegram drops what lies below
the offset it is asked for, and sends the rest again.

The offset moves with the updates that are handed on, and with no other. So a batch
is done with exactly when it ends in one the normaliser knows
(`updates_progress`): the unknown ones behind the last known one come back for
ever.
-/

namespace Shamsu.Telegram

open Shamsu.Lib Shamsu.Py

/-! ## What Telegram sends

The objects of the API, as far as `normalize_update` reads them; a field that is
missing is `none`. -/

structure RawUser where
  id : Option Int := none
  firstName : Option Text := none
  lastName : Option Text := none
  username : Option Text := none
  deriving DecidableEq, Repr

structure RawChat where
  id : Option Int := none
  type : Option Text := none
  deriving DecidableEq, Repr

structure RawFile where
  fileName : Option Text := none
  fileSize : Option Nat := none
  deriving DecidableEq, Repr

structure RawMessage where
  messageId : Option Int := none
  sender : Option RawUser := none
  chat : Option RawChat := none
  text : Option Text := none
  caption : Option Text := none
  document : Option RawFile := none
  voice : Option RawFile := none
  audio : Option RawFile := none
  deriving DecidableEq, Repr

structure RawCallback where
  sender : Option RawUser := none
  message : Option RawMessage := none
  data : Option Text := none
  deriving DecidableEq, Repr

/-- An update; what it has beside these fields nobody looks at. -/
structure RawUpdate where
  updateId : Option Int := none
  message : Option RawMessage := none
  callbackQuery : Option RawCallback := none
  deriving DecidableEq, Repr

/-- `int(raw.get("update_id", 0))`. -/
def RawUpdate.id (raw : RawUpdate) : Int := raw.updateId.getD 0

/-! ## `normalize_update` -/

/-- `str(raw.get(key) or default)`. -/
def textOr (field : Option Text) (default : Text) : Text :=
  match field with
  | some (c :: cs) => c :: cs
  | _ => default

/-- `TelegramUser.display_name`. -/
def displayName (userId : Int) (firstName lastName username : Text) : Text :=
  let name := strip (join ' ' ([firstName, lastName].filter (· ≠ [])))
  if name ≠ [] then name
  else if username ≠ [] then '@' :: username
  else (toString userId).toList

/-- `_normalize_user`. -/
def normalizeUser (raw : RawUser) : User :=
  let userId := raw.id.getD 0
  { userId
    displayName :=
      displayName userId (textOr raw.firstName []) (textOr raw.lastName []) (textOr raw.username []) }

/-- `_normalize_chat`. -/
def normalizeChat (raw : RawChat) : Chat :=
  { chatId := raw.id.getD 0, chatType := textOr raw.type "private".toList }

/-- `_normalize_file` and `_normalize_voice`, which differ in the name a file
without one gets. -/
def normalizeFile (unnamed : Text) (raw : RawFile) : File :=
  { fileName := textOr raw.fileName unnamed, fileSize := raw.fileSize.getD 0 }

/-- `raw.get(key) or None`: an object without fields is no object. -/
def present (raw : Option RawFile) : Option RawFile := raw.filter (· ≠ {})

/-- `_normalize_message`. -/
def normalizeMessage (raw : RawMessage) : Message :=
  { messageId := raw.messageId.getD 0
    user := normalizeUser (raw.sender.getD {})
    chat := normalizeChat (raw.chat.getD {})
    text := textOr raw.text (textOr raw.caption [])
    document := (present raw.document).map (normalizeFile "attachment".toList)
    voice := (present raw.voice <|> present raw.audio).map (normalizeFile "voice.oga".toList) }

/-- `normalize_update`: a message, or the press of a button; everything else is
unknown to it. -/
def normalizeUpdate (raw : RawUpdate) : Option Update :=
  -- a message is looked for first
  match raw.message, raw.callbackQuery with
  | some message, _ =>
    some { updateId := raw.id, message := some (normalizeMessage message), callbackQuery := none }
  | none, some callback =>
    some
      { updateId := raw.id
        message := none
        callbackQuery := some
          { user := normalizeUser (callback.sender.getD {})
            message := normalizeMessage (callback.message.getD {})
            data := callback.data.getD [] } }
  | none, none => none

theorem updateId_normalizeUpdate {raw : RawUpdate} {update : Update}
    (h : normalizeUpdate raw = some update) : update.updateId = raw.id := by
  unfold normalizeUpdate at h
  cases hm : raw.message with
  | some message =>
    simp only [hm, Option.some.injEq] at h
    rw [← h]
  | none =>
    cases hc : raw.callbackQuery with
    | some callback =>
      simp only [hm, hc, Option.some.injEq] at h
      rw [← h]
    | none => simp [hm, hc] at h

/-- The update is of a kind that was asked for. -/
def RawUpdate.isRecognised (raw : RawUpdate) : Bool :=
  raw.message.isSome || raw.callbackQuery.isSome

theorem isSome_normalizeUpdate (raw : RawUpdate) :
    (normalizeUpdate raw).isSome = raw.isRecognised := by
  unfold normalizeUpdate RawUpdate.isRecognised
  cases raw.message with
  | some message => rfl
  | none => cases raw.callbackQuery <;> rfl

/-! ## `updates` -/

/-- The offset on record, and what the generator has yielded. -/
structure Poll where
  offset : Int
  yielded : List Update
  deriving DecidableEq, Repr

namespace Poll

/-- The generator before its first round. -/
def start (offset : Int) : Poll := { offset, yielded := [] }

/-- The body of the loop over a batch. -/
def take (s : Poll) (raw : RawUpdate) : Poll :=
  match normalizeUpdate raw with
  -- an update of no known kind leaves the offset where it is
  | none => s
  | some update => { offset := update.updateId + 1, yielded := s.yielded ++ [update] }

/-- One round of the poll loop; `none` is a call that raised. -/
def round (s : Poll) : Option (List RawUpdate) → Poll
  | none => s
  | some payload => run take s payload

/-- The reply is what Telegram returns for the offset of the state: updates in
increasing order, from the offset on. -/
def Served (s : Poll) : Option (List RawUpdate) → Prop
  | none => True
  | some payload =>
    payload.Pairwise (fun a b => a.id < b.id) ∧ ∀ raw ∈ payload, s.offset ≤ raw.id

/-- The batch is behind the offset, and its updates have been yielded once. -/
def Consumed (s : Poll) (payload : List RawUpdate) : Prop :=
  (∀ raw ∈ payload, raw.id < s.offset) ∧
    ∀ raw ∈ payload, ∀ update ∈ normalizeUpdate raw, s.yielded.count update = 1

/-- The round consumes its batch. -/
def Progresses (s : Poll) (reply : Option (List RawUpdate)) : Prop :=
  ∀ payload ∈ reply, (s.round reply).Consumed payload

/-- The update with the highest id of the batch is of a known kind. -/
def EndsKnown (payload : List RawUpdate) : Prop :=
  ∀ raw ∈ payload.getLast?, raw.isRecognised = true

/-- The updates were yielded in order, and lie behind the offset. -/
structure Ordered (s : Poll) : Prop where
  increasing : s.yielded.Pairwise (fun a b => a.updateId < b.updateId)
  behind : ∀ update ∈ s.yielded, update.updateId < s.offset

variable {s : Poll} {raw : RawUpdate} {payload : List RawUpdate}

theorem take_known {update : Update} (h : normalizeUpdate raw = some update) :
    s.take raw = { offset := raw.id + 1, yielded := s.yielded ++ [update] } := by
  rw [← updateId_normalizeUpdate h]
  simp [take, h]

theorem take_unknown (h : normalizeUpdate raw = none) : s.take raw = s := by
  simp [take, h]

theorem take_ordered (hs : s.Ordered) (h : s.offset ≤ raw.id) : (s.take raw).Ordered := by
  cases hn : normalizeUpdate raw with
  | none => rwa [take_unknown hn]
  | some update =>
    rw [take_known hn]
    have hid : update.updateId = raw.id := updateId_normalizeUpdate hn
    constructor
    · refine List.pairwise_append.mpr ⟨hs.increasing, List.pairwise_singleton _ _, ?_⟩
      intro earlier he later hl
      rw [List.mem_singleton] at hl
      have := hs.behind earlier he
      subst hl
      omega
    · intro u hu
      rcases List.mem_append.mp hu with hu | hu
      · have := hs.behind u hu
        show u.updateId < raw.id + 1
        omega
      · rw [List.mem_singleton] at hu
        subst hu
        show u.updateId < raw.id + 1
        omega

/-- The offset stays at or under what bounds it and the updates. -/
theorem take_offset_le {n : Int} (hs : s.offset ≤ n) (h : raw.id < n) :
    (s.take raw).offset ≤ n := by
  cases hn : normalizeUpdate raw with
  | none => rwa [take_unknown hn]
  | some update =>
    rw [take_known hn]
    show raw.id + 1 ≤ n
    omega

theorem batch_offset_le {n : Int} (hs : s.offset ≤ n) (h : ∀ raw ∈ payload, raw.id < n) :
    (run take s payload).offset ≤ n := by
  induction payload generalizing s with
  | nil => exact hs
  | cons raw rest ih =>
    exact ih (take_offset_le hs (h raw List.mem_cons_self))
      fun r hr => h r (List.mem_cons_of_mem _ hr)

theorem batch_ordered (hs : s.Ordered) (h : s.Served (some payload)) :
    (run take s payload).Ordered := by
  induction payload generalizing s with
  | nil => exact hs
  | cons raw rest ih =>
    obtain ⟨horder, hfrom⟩ := h
    obtain ⟨hfirst, hrest⟩ := List.pairwise_cons.mp horder
    refine ih (take_ordered hs (hfrom raw List.mem_cons_self)) ⟨hrest, fun r hr => ?_⟩
    exact take_offset_le (hfrom r (List.mem_cons_of_mem _ hr)) (hfirst r hr)

theorem batch_yielded :
    (run take s payload).yielded = s.yielded ++ payload.filterMap normalizeUpdate := by
  induction payload generalizing s with
  | nil => simp
  | cons raw rest ih =>
    rw [run_cons, ih]
    cases hn : normalizeUpdate raw with
    | none => rw [take_unknown hn, List.filterMap_cons_none hn]
    | some update =>
      rw [take_known hn, List.filterMap_cons_some hn, List.append_assoc, List.singleton_append]

/-- The known updates of a batch are yielded, and no update twice. -/
theorem batch_once (hs : s.Ordered) (h : s.Served (some payload)) (hr : raw ∈ payload)
    {update : Update} (hu : normalizeUpdate raw = some update) :
    (run take s payload).yielded.count update = 1 := by
  have hmem : update ∈ (run take s payload).yielded := by
    rw [batch_yielded]
    exact List.mem_append_right _ (List.mem_filterMap.mpr ⟨raw, hr, hu⟩)
  have hnodup : (run take s payload).yielded.Nodup :=
    (batch_ordered hs h).increasing.imp fun hlt heq => by
      rw [heq] at hlt
      exact Int.lt_irrefl _ hlt
  exact List.count_eq_one_of_mem hnodup hmem

/-- The offset passes a batch exactly when the last update moves it. -/
theorem batch_passed (h : s.Served (some payload)) :
    (∀ raw ∈ payload, raw.id < (run take s payload).offset) ↔ EndsKnown payload := by
  obtain ⟨horder, hfrom⟩ := h
  rcases List.eq_nil_or_concat payload with rfl | ⟨front, last, rfl⟩
  · simp [EndsKnown]
  · rw [List.concat_eq_append] at horder hfrom ⊢
    have hfront : ∀ raw ∈ front, raw.id < last.id := fun raw hr =>
      (List.pairwise_append.mp horder).2.2 raw hr last List.mem_cons_self
    have hlast : last ∈ front ++ [last] := List.mem_append_right _ List.mem_cons_self
    simp only [EndsKnown, List.getLast?_concat, Option.mem_some_iff, forall_eq', run_append,
      run_cons, run_nil, ← isSome_normalizeUpdate]
    cases hn : normalizeUpdate last with
    | none =>
      -- the last update is still ahead of the offset, and is fetched again
      rw [take_unknown hn]
      have hle : (run take s front).offset ≤ last.id := batch_offset_le (hfrom last hlast) hfront
      refine iff_of_false (fun hall => ?_) (by simp)
      exact absurd (hall last hlast) (Int.not_lt.mpr hle)
    | some update =>
      rw [take_known hn]
      refine iff_of_true (fun raw hr => ?_) rfl
      show raw.id < last.id + 1
      rcases List.mem_append.mp hr with hr | hr
      · have := hfront raw hr
        omega
      · rw [List.mem_singleton.mp hr]
        omega

theorem round_ordered {reply : Option (List RawUpdate)} (hs : s.Ordered) (h : s.Served reply) :
    (s.round reply).Ordered := by
  cases reply with
  | none => exact hs
  | some payload => exact batch_ordered hs h

theorem progresses_iff {reply : Option (List RawUpdate)} (hs : s.Ordered) (h : s.Served reply) :
    s.Progresses reply ↔ ∀ payload ∈ reply, EndsKnown payload := by
  cases reply with
  | none => simp [Progresses]
  | some payload =>
    simp only [Progresses, Option.mem_some_iff, forall_eq', round, Consumed]
    rw [batch_passed h]
    exact and_iff_left fun raw hr update hu => batch_once hs h hr hu

theorem start_ordered (offset : Int) : (start offset).Ordered :=
  ⟨List.Pairwise.nil, by simp [start]⟩

/-- Every round of a run consumes its batch exactly when every batch ends in a
known update. -/
theorem updates_progress (offset : Int) (replies : List (Option (List RawUpdate)))
    (h : Along round Served (start offset) replies) :
    Along round Progresses (start offset) replies ↔
      ∀ payload, some payload ∈ replies → EndsKnown payload := by
  suffices key : ∀ s : Poll, s.Ordered → Along round Served s replies →
      (Along round Progresses s replies ↔ ∀ payload, some payload ∈ replies → EndsKnown payload)
    from key _ (start_ordered offset) h
  clear h
  -- what was yielded stays in order, and each round relies on that
  induction replies with
  | nil => simp [Along]
  | cons reply rest ih =>
    intro s hs h
    simp only [Along, progresses_iff hs h.1, ih _ (round_ordered hs h.1) h.2, List.mem_cons,
      Option.mem_def]
    constructor
    · intro hsome payload hcase
      obtain ⟨hhere, hlater⟩ := hsome
      rcases hcase with heq | hmem
      · exact hhere payload heq.symm
      · exact hlater payload hmem
    · intro hall
      exact ⟨fun payload heq => hall payload (.inl heq.symm), fun payload hr =>
        hall payload (.inr hr)⟩

/-- An edited message between two messages. -/
def mixedBatch : List RawUpdate :=
  [{ updateId := some 7, message := some {} }, { updateId := some 8 },
    { updateId := some 9, message := some {} }]

/-- The first batch moves the offset from 7 to 10. -/
theorem updates_progress_mixed :
    Along round Progresses (start 7) [some mixedBatch, none] :=
  (updates_progress 7 [some mixedBatch, none]
    ⟨⟨by decide, by decide⟩, trivial, trivial⟩).mpr (by
      intro payload h
      obtain rfl : payload = mixedBatch := by simpa using h
      intro raw hr
      obtain rfl : raw = { updateId := some 9, message := some {} } := by
        simpa [mixedBatch, eq_comm] using hr
      rfl)

/-- A batch of one update that is neither a message nor a button: it is fetched
again with the offset it came with. -/
theorem updates_stall :
    ¬ ∀ (offset : Int) (replies : List (Option (List RawUpdate))),
      Along round Served (start offset) replies → Along round Progresses (start offset) replies := by
  intro h
  have hrun := h 8 [some [{ updateId := some 8 }]] ⟨⟨by decide, by decide⟩, trivial⟩
  exact absurd ((hrun.1 _ rfl).1 _ List.mem_cons_self) (by decide)

end Poll

end Shamsu.Telegram
