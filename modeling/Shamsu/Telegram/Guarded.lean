import Shamsu.Telegram.Controller

/-!
# Only authorized pairs reach the sessions

`Within turn s s'`: on the way from `s` to `s'` the authorizations stayed as they
were, and every gateway call was made for the turn's pair, authorized if the pair
was authorized in `s`. Every handler behind the check stays within its turn, so
what is left are the check itself and the pairing branch.

`controller_guarded` says it over any history of updates, disconnects, new codes
and legacy imports.
-/

namespace Shamsu.Telegram

open Shamsu.Lib Shamsu.Py Shamsu.Control

/-- Authorizations stay; calls are the turn's, and authorized if its pair is. -/
def Within (turn : Turn) (s s' : Room) : Prop :=
  s'.authorized = s.authorized ∧ ∃ new, s'.log = s.log ++ new ∧ ∀ entry ∈ new,
    entry.userId = turn.user.userId ∧ entry.chat = turn.chat ∧
      (s.authorizes turn.user.userId turn.chat = true → entry.authorized = true)

namespace Within

variable {turn : Turn} {s s' : Room}

theorem authorizes_congr (h : s'.authorized = s.authorized) (userId : Int) (chat : Chat) :
    s'.authorizes userId chat = s.authorizes userId chat := by
  unfold Room.authorizes
  rw [h]

theorem quiet (ha : s'.authorized = s.authorized) (hl : s'.log = s.log) : Within turn s s' :=
  ⟨ha, [], by rw [hl, List.append_nil], fun _ h => absurd h List.not_mem_nil⟩

theorem refl (s : Room) : Within turn s s := quiet rfl rfl

theorem trans {a b c : Room} (h₁ : Within turn a b) (h₂ : Within turn b c) : Within turn a c := by
  obtain ⟨ha₁, new₁, hl₁, he₁⟩ := h₁
  obtain ⟨ha₂, new₂, hl₂, he₂⟩ := h₂
  refine ⟨ha₂.trans ha₁, new₁ ++ new₂, by rw [hl₂, hl₁, List.append_assoc], ?_⟩
  intro entry hentry
  rcases List.mem_append.mp hentry with h | h
  · exact he₁ entry h
  · obtain ⟨hu, hc, hauth⟩ := he₂ entry h
    exact ⟨hu, hc, fun h => hauth (by rw [authorizes_congr ha₁]; exact h)⟩

end Within

/-- Whatever happens in `x`, it stays within the turn. -/
def Stays {α : Type} (turn : Turn) (x : Handler α) : Prop := Prog.Keeps (Within turn) x

namespace Stays

variable {α β : Type} {turn : Turn} {c : Controller}

theorem bind {x : Handler α} {f : α → Handler β} (hx : Stays turn x) (hf : ∀ a, Stays turn (f a)) :
    Stays turn (x >>= f) :=
  Prog.Keeps.bind (R := Within turn) (fun _ _ _ h₁ h₂ => h₁.trans h₂) hx hf

theorem pure (a : α) : Stays turn (Pure.pure a : Handler α) := Prog.Keeps.pure Within.refl a

theorem gets (f : Room → α) : Stays turn (Prog.gets f : Handler α) :=
  Prog.Keeps.gets Within.refl f

theorem ensure (f : Room → Bool) (e : Failure) : Stays turn (Prog.ensure f e : Handler Unit) :=
  Prog.Keeps.ensure Within.refl f e

/-- An update of the other tables. -/
theorem modify {f : Room → Room} (ha : ∀ s, (f s).authorized = s.authorized)
    (hl : ∀ s, (f s).log = s.log) : Stays turn (Prog.modify f : Handler Unit) :=
  Prog.Keeps.modify fun s => Within.quiet (ha s) (hl s)

theorem forEach {f : α → Handler Unit} (h : ∀ a, Stays turn (f a)) (l : List α) :
    Stays turn (Prog.forEach l f) :=
  Prog.Keeps.forEach (R := Within turn) Within.refl (fun _ _ _ h₁ h₂ => h₁.trans h₂) l
    fun a _ => h a

theorem ite {p : Prop} [Decidable p] {x y : Handler α} (hx : Stays turn x) (hy : Stays turn y) :
    Stays turn (if p then x else y) := by
  split
  · exact hx
  · exact hy

/-- A gateway call is logged with what the pair is at that moment. -/
theorem gatewayCall (call : GatewayCall) (answer : List LogEntry → α) :
    Stays turn (gatewayCall c turn call answer) := by
  refine bind (Prog.Keeps.modify fun s => ?_) fun _ => bind (ensure _ _) fun _ => gets _
  refine ⟨rfl, _, rfl, fun entry hentry => ?_⟩
  obtain rfl := List.mem_singleton.mp hentry
  exact ⟨rfl, rfl, fun h => h⟩

theorem setActiveSession (userId : Int) (sessionId : Text) :
    Stays turn (setActiveSession c userId sessionId) :=
  modify (fun _ => rfl) fun _ => rfl

theorem activeOrDefaultSession (userId : Int) :
    Stays turn (activeOrDefaultSession c turn userId) :=
  bind (gets _) fun _ => ite (pure _) (bind (gatewayCall _ _) fun _ =>
    bind (setActiveSession _ _) fun _ => pure _)

theorem createCallback (userId : Int) (chat : Chat) (action : CallbackAction)
    (sessionId runId : Text) : Stays turn (createCallback c turn userId chat action sessionId runId) :=
  bind (ensure _ _) fun _ => modify (fun _ => rfl) fun _ => rfl

theorem keyboard (userId : Int) (chat : Chat) (actions : List CallbackAction)
    (sessionId runId : Text) : Stays turn (keyboard c turn userId chat actions sessionId runId) :=
  forEach (fun _ => createCallback _ _ _ _ _) _

theorem sessionKeyboard (userId : Int) (chat : Chat) (sessions : List Text) :
    Stays turn (sessionKeyboard c turn userId chat sessions) :=
  forEach (fun _ => createCallback _ _ _ _ _) _

theorem statusMessage (message : Message) : Stays turn (statusMessage c turn message) :=
  bind (activeOrDefaultSession _) fun _ => bind (gatewayCall _ _) fun _ =>
    ite (keyboard _ _ _ _ _) (pure _)

theorem sessionCommand (message : Message) (call : Text → GatewayCall) :
    Stays turn (sessionCommand c turn message call) :=
  bind (activeOrDefaultSession _) fun _ => gatewayCall _ _

theorem handleCommand (message : Message) (command : Text) :
    Stays turn (handleCommand c turn message command) := by
  have hlist : Stays turn (do
      let _ ← Telegram.activeOrDefaultSession c turn message.user.userId
      let sessions ← Telegram.gatewayCall c turn .listSessions c.gateway.sessions
      Telegram.sessionKeyboard c turn message.user.userId message.chat sessions) :=
    bind (activeOrDefaultSession _) fun _ => bind (gatewayCall _ _) fun _ => sessionKeyboard _ _ _
  have hnew : Stays turn (do
      let session ← Telegram.gatewayCall c turn .createSession c.gateway.session
      Telegram.setActiveSession c message.user.userId session) :=
    bind (gatewayCall _ _) fun _ => setActiveSession _ _
  have hcancel : Stays turn (do
      let session ← Telegram.activeOrDefaultSession c turn message.user.userId
      let run ← Telegram.gatewayCall c turn (.status session) c.gateway.run
      if run = [] then Pure.pure ()
      else runControlKeyboard c turn message.user.userId message.chat session run false) :=
    bind (activeOrDefaultSession _) fun _ => bind (gatewayCall _ _) fun _ =>
      ite (pure _) (keyboard _ _ _ _ _)
  unfold Telegram.handleCommand
  refine ite (pure _) (ite hlist (ite hnew (ite (statusMessage _) (ite (sessionCommand _ _)
    (ite (sessionCommand _ _) (ite (sessionCommand _ _) (ite (sessionCommand _ _)
    (ite (pure _) (ite (sessionCommand _ _) (ite (sessionCommand _ _) (ite hcancel
    (pure _))))))))))))

theorem routeTextMessage (message : Message) (text : Text) :
    Stays turn (routeTextMessage c turn message text) :=
  bind (activeOrDefaultSession _) fun _ => gatewayCall _ _

theorem handleVoice (message : Message) (voice : File) :
    Stays turn (handleVoice c turn message voice) := by
  unfold Telegram.handleVoice
  split
  · exact pure _
  · split
    · exact pure _
    · exact routeTextMessage _ _

theorem handleFile (message : Message) (document : File) :
    Stays turn (handleFile c turn message document) :=
  bind (activeOrDefaultSession _) fun _ => ite (pure _) (gatewayCall _ _)

theorem runMessage (message : Message) : Stays turn (runMessage c turn message) := by
  unfold Telegram.runMessage
  split
  · exact handleCommand _ _
  · split
    · exact handleVoice _ _
    · exact handleFile _ _
    · exact routeTextMessage _ _

theorem handleStartAuthorized (message : Message) : Stays turn (do
    let session ← Telegram.activeOrDefaultSession c turn message.user.userId
    let run ← Telegram.gatewayCall c turn (.status session) c.gateway.run
    homeKeyboard c turn message.user.userId message.chat session run) :=
  bind (activeOrDefaultSession _) fun _ => bind (gatewayCall _ _) fun _ => keyboard _ _ _ _ _

theorem validateCallback (callback : CallbackQuery) :
    Stays turn (validateCallback turn callback) := by
  refine bind (gets _) fun record => ?_
  cases record with
  | none => exact pure _
  | some record =>
    exact ite (pure _) (ite (pure _) (ite (pure _) (ite (pure _)
      (bind (modify (fun _ => rfl) fun _ => rfl) fun _ => pure _))))

theorem runCallback (callback : CallbackQuery) (record : CallbackRow) :
    Stays turn (runCallback c turn callback record) := by
  unfold Telegram.runCallback
  dsimp only
  split
  · exact bind (gatewayCall _ _) fun _ => bind (setActiveSession _ _) fun _ =>
      bind (gatewayCall _ _) fun _ => keyboard _ _ _ _ _
  · exact bind (activeOrDefaultSession _) fun _ => bind (gatewayCall _ _) fun _ =>
      sessionKeyboard _ _ _
  · exact statusMessage _
  iterate 7
    · exact gatewayCall _ _
  · exact pure _

end Stays

/-! ## The check -/

/-- Calls of the turn's pair, each authorized when it was made. -/
def Vouched (turn : Turn) (s s' : Room) : Prop :=
  ∃ new, s'.log = s.log ++ new ∧ ∀ entry ∈ new,
    entry.userId = turn.user.userId ∧ entry.chat = turn.chat ∧ entry.authorized = true

section Check

variable {c : Controller} {turn : Turn} {s : Room}

theorem Vouched.none (s s' : Room) (h : s'.log = s.log) : Vouched turn s s' :=
  ⟨[], by rw [h, List.append_nil], fun _ h => absurd h List.not_mem_nil⟩

/-- What an authorized pair does is vouched for. -/
theorem Within.vouched {s' : Room} (h : Within turn s s')
    (hauth : s.authorizes turn.user.userId turn.chat = true) : Vouched turn s s' := by
  obtain ⟨_, new, hl, he⟩ := h
  refine ⟨new, hl, fun entry hentry => ?_⟩
  obtain ⟨hu, hc, ha⟩ := he entry hentry
  exact ⟨hu, hc, ha hauth⟩

/-- A handler behind the check does nothing for a pair that does not pass. -/
theorem checked {x : Handler Unit} {f : Room → Bool} (h : Stays turn x)
    (hf : f s = s.authorizes turn.user.userId turn.chat) :
    ((Prog.gets f >>= fun ok => if ok = true then x else pure ()) s).2.authorized = s.authorized ∧
      Vouched turn s ((Prog.gets f >>= fun ok => if ok = true then x else pure ()) s).2 := by
  have hrun : (Prog.gets f >>= fun ok => if ok = true then x else pure ()) s =
      (if f s = true then x else pure () : Handler Unit) s := rfl
  rw [hrun]
  by_cases hauth : f s = true
  · rw [if_pos hauth]
    have hw : Within turn s (x s).2 := h s
    exact ⟨hw.1, hw.vouched (hf ▸ hauth)⟩
  · rw [if_neg hauth]
    exact ⟨rfl, Vouched.none s s rfl⟩

/-- **The two ways a verification ends**: nothing is authorized, or the sender
in a private chat. -/
theorem verifyPairing_cases (m : Pairing.Manager) (s : Room) (message : Message) (now : Time) :
    (verifyPairing m s message now).2.log = s.log ∧
    (((verifyPairing m s message now).1 = false ∧
        (verifyPairing m s message now).2.authorized = s.authorized) ∨
      ((verifyPairing m s message now).1 = true ∧ message.chat.isPrivate = true ∧
        ∃ installationId, (verifyPairing m s message now).2.authorized =
          s.authorized.authorizeUser message.user.userId message.chat.chatId installationId
            message.user.displayName .owner)) := by
  refine ⟨rfl, ?_⟩
  let guest : Pairing.Guest :=
    { userId := message.user.userId, displayName := message.user.displayName
      chatId := message.chat.chatId, isPrivate := message.chat.isPrivate }
  let desk : Pairing.Desk :=
    { pairings := s.pairings, authorized := s.authorized, calls := fun _ => .idle }
  unfold verifyPairing
  rcases Pairing.beginVerify_cases m s.pairings message.text guest with
    hbegin | ⟨hprivate, id, record, hbegin⟩
  · left
    simp only [guest] at hbegin
    simp only [hbegin]
    exact ⟨rfl, rfl⟩
  rcases Pairing.advanceVerify_found m desk now id record guest with hcheck | hcheck
  · left
    simp only [guest, desk] at hbegin hcheck
    simp only [hbegin, hcheck]
    exact ⟨rfl, rfl⟩
  · right
    simp only [guest, desk] at hbegin hcheck
    simp only [hbegin, hcheck]
    exact ⟨rfl, hprivate, record.installationId, rfl⟩

/-- A user who has just paired is authorized in that chat. -/
theorem authorizes_authorizeUser {s' : Room} {userId : Int} {chat : Chat}
    {installationId name : Text} (hprivate : chat.isPrivate = true)
    (h : s'.authorized =
      s.authorized.authorizeUser userId chat.chatId installationId name .owner) :
    s'.authorizes userId chat = true := by
  unfold Room.authorizes
  rw [h, hprivate]
  unfold Authorizations.authorizationFor Authorizations.authorizeUser
  rw [AList.lookup_insert]
  exact beq_self_eq_true chat.chatId

/-- The message is a pairing code that pairs its sender. -/
structure Pairs (c : Controller) (s : Room) (now : Time) (message : Message) : Prop where
  noCommand : parseCommand message.text = none
  isCode : looksLikePairingCode message.text = true
  verified : (verifyPairing c.manager s message now).1 = true

/-- **What a message can do**: its calls are vouched for, and the authorizations
stay unless it pairs its sender. -/
theorem handleMessage_cases (c : Controller) (s : Room) (now : Time) (message : Message) :
    let turn : Turn := { user := message.user, chat := message.chat, now := now }
    Vouched turn s (handleMessage c turn message s).2 ∧
    ((handleMessage c turn message s).2.authorized = s.authorized ∨
      Pairs c s now message ∧ message.chat.isPrivate = true ∧ ∃ installationId,
        (handleMessage c turn message s).2.authorized =
          s.authorized.authorizeUser message.user.userId message.chat.chatId installationId
            message.user.displayName .owner) := by
  intro turn
  unfold handleMessage
  split
  next hstart =>
    have hstays : Stays turn _ := Stays.handleStartAuthorized (c := c) message
    have h := checked (s := s) hstays
      (f := fun s => s.authorizes message.user.userId message.chat) rfl
    exact ⟨h.2, Or.inl h.1⟩
  next hstart =>
  split
  swap
  · have hstays : Stays turn _ := Stays.runMessage (c := c) message
    have h := checked (s := s) hstays
      (f := fun s => s.authorizes message.user.userId message.chat) rfl
    exact ⟨h.2, Or.inl h.1⟩
  next hcode =>
  obtain ⟨hlog, hcases⟩ := verifyPairing_cases c.manager s message now
  -- a failed verification ends the handling, a successful one makes a call
  have hrun : handlePairing c turn message s =
      (if (verifyPairing c.manager s message now).1 = true then do
          let session ← gatewayCall c turn .ensureDefaultSession c.gateway.session
          setActiveSession c message.user.userId session
        else pure () : Handler Unit) (verifyPairing c.manager s message now).2 := rfl
  rw [hrun]
  rcases hcases with ⟨hno, hsame⟩ | ⟨hyes, hprivate, installationId, hauth⟩
  · rw [if_neg (by rw [hno]; simp)]
    exact ⟨Vouched.none _ _ hlog, Or.inl hsame⟩
  · rw [if_pos hyes]
    have hstays : Stays turn (do
        let session ← gatewayCall c turn .ensureDefaultSession c.gateway.session
        setActiveSession c message.user.userId session) :=
      Stays.bind (Stays.gatewayCall _ _) fun _ => Stays.setActiveSession _ _
    have hw := hstays (verifyPairing c.manager s message now).2
    refine ⟨?_, Or.inr ⟨⟨hcode.1, hcode.2, hyes⟩, hprivate, installationId, hw.1.trans hauth⟩⟩
    obtain ⟨new, hl, he⟩ := hw.vouched (authorizes_authorizeUser hprivate hauth)
    exact ⟨new, hl.trans (by rw [hlog]), he⟩

theorem handleCallback_cases (c : Controller) (s : Room) (now : Time) (callback : CallbackQuery) :
    let turn : Turn := { user := callback.user, chat := callback.message.chat, now := now }
    Vouched turn s (handleCallback c turn callback s).2 ∧
      (handleCallback c turn callback s).2.authorized = s.authorized := by
  intro turn
  have hstays : ∀ k : Option CallbackRow → Handler Unit, (∀ record, Stays turn (k record)) →
      Stays turn (validateCallback turn callback >>= k) :=
    fun k hk => Stays.bind (Stays.validateCallback _) hk
  rw [and_comm]
  refine checked (f := fun s => s.authorizes callback.user.userId callback.message.chat)
    (hstays _ fun record => ?_) rfl
  cases record with
  | none => exact Stays.pure _
  | some record => exact Stays.runCallback _ _

end Check

/-! ## Histories -/

section Histories

variable {c : Controller} {s : Room}

/-- The update comes from this user in this chat. -/
def Update.sentBy (update : Update) (userId : Int) (chat : Chat) : Prop :=
  match update.callbackQuery, update.message with
  | some callback, _ => callback.user.userId = userId ∧ callback.message.chat = chat
  | none, some message => message.user.userId = userId ∧ message.chat = chat
  | none, none => False

def Event.sentBy : Event → Int → Chat → Prop
  | .update _ u, userId, chat => u.sentBy userId chat
  | _, _, _ => False

/-- The event is a new message that pairs this user in this chat. -/
def PairsUser (c : Controller) (s : Room) (e : Event) (userId chatId : Int) : Prop :=
  ∃ now update message, e = .update now update ∧ update.callbackQuery = none ∧
    update.message = some message ∧ update.updateId ∉ s.processed ∧
    message.user.userId = userId ∧ message.chat.chatId = chatId ∧ Pairs c s now message

/-- The event imports this user, whom the store has no row for. -/
def ImportsUser (s : Room) (e : Event) (userId : Int) : Prop :=
  s.authorized.lookup userId = none ∧ ∃ workspace users sessions,
    e = .importLegacy workspace users sessions false ∧ workspace ∉ s.imported ∧
    ∃ row, (userId, row) ∈ users

/-- **What an update can do.** -/
theorem handleUpdate_cases (c : Controller) (s : Room) (now : Time) (update : Update) :
    (∃ new, (stepEvent c s (.update now update)).log = s.log ++ new ∧ ∀ entry ∈ new,
      update.sentBy entry.userId entry.chat ∧ entry.authorized = true) ∧
    ((stepEvent c s (.update now update)).authorized = s.authorized ∨
      ∃ (message : Message) (installationId : Text), PairsUser c s (.update now update) message.user.userId
          message.chat.chatId ∧ message.chat.isPrivate = true ∧
        (stepEvent c s (.update now update)).authorized =
          s.authorized.authorizeUser message.user.userId message.chat.chatId installationId
            message.user.displayName .owner) := by
  have hnone : ∀ s' : Room, s'.log = s.log → ∃ new, s'.log = s.log ++ new ∧ ∀ entry ∈ new,
      update.sentBy entry.userId entry.chat ∧ entry.authorized = true :=
    fun s' h => ⟨[], by rw [h, List.append_nil], fun _ h => absurd h List.not_mem_nil⟩
  by_cases hseen : s.processed.contains update.updateId = true
  · have hrun : stepEvent c s (.update now update) = s := by
      show ((if s.processed.contains update.updateId = true then pure () else _ : Handler Unit)
        s).2 = s
      rw [if_pos hseen]
      rfl
    rw [hrun]
    exact ⟨hnone s rfl, Or.inl rfl⟩
  let s₁ : Room := { s with processed := update.updateId :: s.processed }
  have hrun : stepEvent c s (.update now update) =
      ((match update.callbackQuery, update.message with
        | some callback, _ => handleCallback c
            { user := callback.user, chat := callback.message.chat, now := now } callback
        | none, some message => handleMessage c
            { user := message.user, chat := message.chat, now := now } message
        | none, none => pure () : Handler Unit) s₁).2 := by
    show ((if s.processed.contains update.updateId = true then pure () else _ : Handler Unit)
      s).2 = _
    rw [if_neg hseen]
    rfl
  rw [hrun]
  unfold Update.sentBy
  cases hcallback : update.callbackQuery with
  | some callback =>
    obtain ⟨⟨new, hl, he⟩, ha⟩ := handleCallback_cases c s₁ now callback
    refine ⟨⟨new, hl, fun entry hentry => ?_⟩, Or.inl ha⟩
    obtain ⟨hu, hc, hauth⟩ := he entry hentry
    exact ⟨⟨hu.symm, hc.symm⟩, hauth⟩
  | none =>
    cases hmessage : update.message with
    | none => exact ⟨⟨[], (List.append_nil _).symm, fun _ h => absurd h List.not_mem_nil⟩, Or.inl rfl⟩
    | some message =>
      obtain ⟨⟨new, hl, he⟩, ha⟩ := handleMessage_cases c s₁ now message
      refine ⟨⟨new, hl, fun entry hentry => ?_⟩, ha.imp id fun h => ?_⟩
      · obtain ⟨hu, hc, hauth⟩ := he entry hentry
        exact ⟨⟨hu.symm, hc.symm⟩, hauth⟩
      · obtain ⟨hpairs, hprivate, installationId, hauth⟩ := h
        refine ⟨message, installationId, ⟨now, update, message, rfl, hcallback, hmessage,
          by simpa using hseen, rfl, rfl, ?_⟩, hprivate, hauth⟩
        exact ⟨hpairs.noCommand, hpairs.isCode, hpairs.verified⟩

/-- An import leaves the rows that are there, and adds users of the legacy
database. -/
theorem lookup_import (users : List (Int × Authorization)) (t : Authorizations) (userId : Int) :
    (users.foldl (fun t (userId, row) => t.insertOrIgnore userId row) t).lookup userId =
      t.lookup userId ∨ t.lookup userId = none ∧ ∃ row, (userId, row) ∈ users := by
  induction users generalizing t with
  | nil => exact Or.inl rfl
  | cons u users ih =>
    obtain ⟨other, row⟩ := u
    have hstep : (t.insertOrIgnore other row).lookup userId = t.lookup userId ∨
        t.lookup userId = none ∧ userId = other := by
      unfold Authorizations.insertOrIgnore
      split
      · exact Or.inl rfl
      next hfree =>
        by_cases ho : userId = other
        · subst ho
          exact Or.inr ⟨by simpa using hfree, rfl⟩
        · exact Or.inl (AList.lookup_insert_ne ho)
    rcases hstep with hsame | ⟨hnone, rfl⟩
    · rcases ih (t.insertOrIgnore other row) with h | ⟨h, r, hr⟩
      · exact Or.inl (h.trans hsame)
      · exact Or.inr ⟨hsame.symm.trans h, r, List.mem_cons_of_mem _ hr⟩
    · exact Or.inr ⟨hnone, row, List.mem_cons_self ..⟩

/-- The store has a row for the user, and it says disconnected. -/
def Disconnected (s : Room) (userId : Int) : Prop :=
  ∃ row, s.authorized.lookup userId = some row ∧ row.status = .disconnected

theorem Disconnected.not_authorizes {userId : Int} (h : Disconnected s userId) (chat : Chat) :
    s.authorizes userId chat = false := by
  obtain ⟨row, hrow, hstatus⟩ := h
  unfold Room.authorizes Authorizations.authorizationFor
  rw [hrow]
  simp [Option.filter, hstatus]

theorem disconnected_disconnect (c : Controller) {userId : Int}
    (h : (s.authorized.lookup userId).isSome = true) :
    Disconnected (stepEvent c s (.disconnect userId)) userId := by
  obtain ⟨row, hrow⟩ := Option.isSome_iff_exists.mp h
  refine ⟨{ row with status := .disconnected }, ?_, rfl⟩
  show (s.authorized.disconnectUser userId).lookup userId = _
  unfold Authorizations.disconnectUser
  rw [hrow]
  exact AList.lookup_insert _

/-- **How the row of a user changes**: by pairing, by disconnecting, or, when
there was none, by an import. -/
theorem lookup_stepEvent (c : Controller) (s : Room) (e : Event) (userId : Int) :
    (stepEvent c s e).authorized.lookup userId = s.authorized.lookup userId ∨
    (∃ chat : Chat, PairsUser c s e userId chat.chatId ∧ chat.isPrivate = true ∧
      ∃ row, (stepEvent c s e).authorized.lookup userId = some row ∧ row.chatId = chat.chatId) ∨
    (∃ row, (stepEvent c s e).authorized.lookup userId = some row ∧ row.status = .disconnected) ∨
    ImportsUser s e userId := by
  cases e with
  | update now update =>
    obtain ⟨_, hsame | ⟨message, installationId, hpairs, hprivate, hauth⟩⟩ :=
      handleUpdate_cases c s now update
    · exact Or.inl (by rw [hsame])
    · by_cases hu : userId = message.user.userId
      · subst hu
        refine Or.inr (Or.inl ⟨message.chat, hpairs, hprivate, ?_⟩)
        rw [hauth]
        exact ⟨_, AList.lookup_insert _, rfl⟩
      · left
        rw [hauth]
        exact AList.lookup_insert_ne hu
  | createCode id code now => exact Or.inl rfl
  | offerApproval token row => exact Or.inl rfl
  | disconnect other =>
    by_cases ho : userId = other
    · subst ho
      cases hrow : s.authorized.lookup userId with
      | none =>
        left
        show (s.authorized.disconnectUser userId).lookup userId = none
        unfold Authorizations.disconnectUser
        rw [hrow]
        exact hrow
      | some row =>
        exact Or.inr (Or.inr (Or.inl (disconnected_disconnect c (by rw [hrow]; rfl))))
    · left
      show (s.authorized.disconnectUser other).lookup userId = _
      unfold Authorizations.disconnectUser
      split
      · exact AList.lookup_insert_ne ho
      · rfl
  | importLegacy workspace users sessions broken =>
    unfold stepEvent
    dsimp only
    split
    · exact Or.inl rfl
    next hnew =>
    cases broken with
    | true => exact Or.inl rfl
    | false =>
      rcases lookup_import users s.authorized userId with h | ⟨hnone, row, hrow⟩
      · exact Or.inl h
      · exact Or.inr (Or.inr (Or.inr
          ⟨hnone, workspace, users, sessions, rfl, by simpa using hnew, row, hrow⟩))

/-- A disconnected user stays so until paired. -/
theorem disconnected_step {e : Event} {userId : Int} (h : Disconnected s userId)
    (hno : ∀ chatId, ¬ PairsUser c s e userId chatId) :
    Disconnected (stepEvent c s e) userId := by
  obtain ⟨row, hrow, hstatus⟩ := h
  rcases lookup_stepEvent c s e userId with hsame | ⟨chat, hp, _⟩ | hdis | ⟨hnone, _⟩
  · exact ⟨row, hsame.trans hrow, hstatus⟩
  · exact absurd hp (hno chat.chatId)
  · exact hdis
  · rw [hrow] at hnone
    cases hnone

/-- A pair becomes authorized by pairing or by an import only. -/
theorem not_authorizes_step {e : Event} {userId : Int} {chat : Chat}
    (h : s.authorizes userId chat = false)
    (hno : ¬ (PairsUser c s e userId chat.chatId ∨ ImportsUser s e userId)) :
    (stepEvent c s e).authorizes userId chat = false := by
  obtain ⟨hpairs, himports⟩ := not_or.mp hno
  rcases lookup_stepEvent c s e userId with hsame | ⟨other, hp, _, row, hrow, hchat⟩ | hdis | himp
  · rw [← h]
    unfold Room.authorizes Authorizations.authorizationFor
    rw [hsame]
  · -- paired in another chat
    have hne : row.chatId ≠ chat.chatId := by
      intro e
      rw [hchat] at e
      exact hpairs (e ▸ hp)
    unfold Room.authorizes Authorizations.authorizationFor
    rw [hrow]
    cases hstatus : row.status <;> simp [Option.filter, hstatus, hne]
  · exact Disconnected.not_authorizes hdis chat
  · exact absurd himp himports

/-- **Only authorized pairs reach the sessions**, over any history of updates,
disconnects, new codes and legacy imports, from any store: every gateway call is
made for the sender of the update being handled, while this pair is authorized;
a pair becomes authorized by pairing, or by the import of a legacy database that
has the user when the store has no row for it; and a user the store has a row for
stays unauthorized after `disconnect_user` until it pairs again. -/
theorem controller_guarded (c : Controller) (s : Room) (es : List Event) :
    (∀ es₁ e es₂, es = es₁ ++ e :: es₂ → ∃ new,
      (stepEvent c (run (stepEvent c) s es₁) e).log = (run (stepEvent c) s es₁).log ++ new ∧
      ∀ entry ∈ new, e.sentBy entry.userId entry.chat ∧ entry.authorized = true) ∧
    (∀ userId chat, (run (stepEvent c) s es).authorizes userId chat = true →
      s.authorizes userId chat = true ∨ ∃ es₁ e es₂, es = es₁ ++ e :: es₂ ∧
        (PairsUser c (run (stepEvent c) s es₁) e userId chat.chatId ∨
          ImportsUser (run (stepEvent c) s es₁) e userId)) ∧
    ∀ userId chat, (s.authorized.lookup userId).isSome = true →
      (run (stepEvent c) (stepEvent c s (.disconnect userId)) es).authorizes userId chat = true →
      ∃ es₁ e es₂, es = es₁ ++ e :: es₂ ∧ ∃ chatId,
        PairsUser c (run (stepEvent c) (stepEvent c s (.disconnect userId)) es₁) e userId chatId := by
  refine ⟨fun es₁ e es₂ _ => ?_, fun userId chat hend => ?_, fun userId chat hrow hend => ?_⟩
  · have hnone : ∀ s' : Room, s'.log = (run (stepEvent c) s es₁).log → ∃ new,
        s'.log = (run (stepEvent c) s es₁).log ++ new ∧ ∀ entry ∈ new,
          e.sentBy entry.userId entry.chat ∧ entry.authorized = true :=
      fun s' h => ⟨[], by rw [h, List.append_nil], fun _ h => absurd h List.not_mem_nil⟩
    cases e with
    | update now update => exact (handleUpdate_cases c _ now update).1
    | createCode id code now => exact hnone _ rfl
    | disconnect userId => exact hnone _ rfl
    | offerApproval token row => exact hnone _ rfl
    | importLegacy workspace users sessions broken =>
      refine hnone _ ?_
      unfold stepEvent
      dsimp only
      split
      · rfl
      · cases broken <;> rfl
  · by_contra hnot
    obtain ⟨hstart, hno⟩ := not_or.mp hnot
    have halong : Along (stepEvent c) (fun s e => ¬ (PairsUser c s e userId chat.chatId ∨
        ImportsUser s e userId)) s es := by
      by_contra hbad
      obtain ⟨es₁, e, es₂, hes, _, hP⟩ := not_along_iff.mp hbad
      exact hno ⟨es₁, e, es₂, hes, not_not.mp hP⟩
    have hfalse := run_invariant (I := fun s => s.authorizes userId chat = false)
      (fun _ _ h hP => not_authorizes_step h hP) (by simpa using hstart) halong
    rw [hend] at hfalse
    cases hfalse
  · by_contra hno
    have halong : Along (stepEvent c) (fun s e => ∀ chatId, ¬ PairsUser c s e userId chatId)
        (stepEvent c s (.disconnect userId)) es := by
      by_contra hbad
      obtain ⟨es₁, e, es₂, hes, _, hP⟩ := not_along_iff.mp hbad
      push Not at hP
      exact hno ⟨es₁, e, es₂, hes, hP⟩
    have hdis := run_invariant (I := fun s => Disconnected s userId)
      (fun _ _ h hP => disconnected_step h hP) (disconnected_disconnect c hrow) halong
    rw [hdis.not_authorizes chat] at hend
    cases hend

end Histories

/-- An empty store. -/
def Room.empty : Room :=
  { pairings := ∅, authorized := ∅, processed := [], sessions := ∅, callbacks := ∅, imported := []
    log := [] }

/-- A user that was paired in a workspace before the upgrade. -/
def legacyUser : Int × Authorization :=
  (7, { chatId := 7, installationId := "old".toList, displayName := "phone".toList
        permissionLevel := .owner, status := .active })

/-- Without the import the second half fails: the user was disconnected before
the store knew it, nobody pairs, and it is authorized. -/
theorem controller_imports :
    ¬ ∀ (c : Controller) (s : Room) (es : List Event) (userId : Int) (chat : Chat),
      (run (stepEvent c) (stepEvent c s (.disconnect userId)) es).authorizes userId chat = true →
      ∃ es₁ e es₂, es = es₁ ++ e :: es₂ ∧ ∃ chatId,
        PairsUser c (run (stepEvent c) (stepEvent c s (.disconnect userId)) es₁) e userId
          chatId := by
  intro h
  let c : Controller :=
    { manager := Pairing.fiveTries, workspace := "ws".toList, callbackTtl := 600000000
      gateway := { fails := fun _ => false, session := fun _ => [], run := fun _ => []
                   sessions := fun _ => [] }
      token := fun _ => [], transcribe := none }
  obtain ⟨es₁, e, es₂, hes, chatId, now, update, message, he, _⟩ :=
    h c .empty [.importLegacy "old".toList [legacyUser] [] false] 7
      { chatId := 7, chatType := "private".toList } (by decide)
  -- the only event is the import
  have hmem : e ∈ [Event.importLegacy "old".toList [legacyUser] [] false] := by
    rw [hes]
    simp
  rw [List.mem_singleton.mp hmem] at he
  cases he

end Shamsu.Telegram
