import Shamsu.Lib.Prog
import Shamsu.Telegram.Pairing

/-!
# The Telegram controller

An update is a message or a button press of some user in some chat. The
controller pairs users, checks their authorization, and makes the calls of the
session gateway that the update asks for.

Every gateway call is logged with whether the pair of user and chat was
authorized at that moment. What the gateway answers is a parameter: any function
of the calls so far. Replies, audits and metrics are left out.
-/

namespace Shamsu.Telegram

open Shamsu.Lib Shamsu.Py Shamsu.Control

/-! ## Updates -/

/-- A user, as far as the controller looks at it. -/
structure User where
  userId : Int
  displayName : Text
  deriving DecidableEq, Repr

structure Chat where
  chatId : Int
  chatType : Text
  deriving DecidableEq, Repr

def Chat.isPrivate (chat : Chat) : Bool := chat.chatType == "private".toList

structure File where
  fileName : Text
  fileSize : Nat
  deriving DecidableEq, Repr

structure Message where
  messageId : Int
  user : User
  chat : Chat
  text : Text
  document : Option File
  voice : Option File
  deriving DecidableEq, Repr

structure CallbackQuery where
  user : User
  message : Message
  data : Text
  deriving DecidableEq, Repr

structure Update where
  updateId : Int
  message : Option Message
  callbackQuery : Option CallbackQuery
  deriving DecidableEq, Repr

/-- `parse_command`: the name of the command. Commands are ASCII, so lowering
ASCII letters decides which it is. -/
def parseCommand (text : Text) : Option Text :=
  let stripped := strip text
  if stripped.head? = some '/' then
    some (((stripped.takeWhile (· != ' ')).takeWhile (· != '@')).map Char.toLower)
  else none

/-- The characters of `str.isdigit` that are no decimal digits. -/
def otherDigits : List (Nat × Nat) :=
  [(0xb2, 0xb3), (0xb9, 0xb9), (0x1369, 0x1371), (0x19da, 0x19da), (0x2070, 0x2070),
    (0x2074, 0x2079), (0x2080, 0x2089), (0x2460, 0x2468), (0x2474, 0x247c), (0x2488, 0x2490),
    (0x24ea, 0x24ea), (0x24f5, 0x24fd), (0x24ff, 0x24ff), (0x2776, 0x277e), (0x2780, 0x2788),
    (0x278a, 0x2792), (0x10a40, 0x10a43), (0x10e60, 0x10e68), (0x11052, 0x1105a),
    (0x1f100, 0x1f10a)]

/-- `str.isdigit` for one character. -/
def isDigitChar (c : Char) : Bool :=
  isDigit c || otherDigits.any fun (lo, hi) => lo ≤ c.toNat && c.toNat ≤ hi

/-- `_looks_like_pairing_code`. -/
def looksLikePairingCode (text : Text) : Bool :=
  let stripped := strip text
  stripped.length == 6 && stripped.all isDigitChar

/-! ## The store and the gateway -/

/-- What a button does. -/
inductive CallbackAction where
  | switchSession | cancelRun | pauseRun | resumeRun | approve | reject
  | openStatus | openSessions | openPlan | openChanges | page
  deriving DecidableEq, Repr

/-- A row of `callback_actions`. -/
structure CallbackRow where
  action : CallbackAction
  userId : Int
  chatId : Int
  sessionId : Text
  runId : Text
  approvalId : Text
  expiresAt : Time
  consumed : Bool
  deriving DecidableEq, Repr

/-- The calls of the session gateway, and of the approval resolver. -/
inductive GatewayCall where
  | ensureDefaultSession
  | listSessions
  | createSession
  | switchSession (sessionId : Text)
  | status (sessionId : Text)
  | plan (sessionId : Text)
  | changes (sessionId : Text)
  | tests (sessionId : Text)
  | logs (sessionId : Text)
  | routeUserMessage (text sessionId : Text)
  | cancelCurrentRun (sessionId : Text)
  | pauseCurrentRun (sessionId : Text)
  | resumeCurrentRun (sessionId : Text)
  | resolveApproval (approvalId : Text) (approved : Bool)
  deriving DecidableEq, Repr

/-- A call that was made, for whom, and whether they were authorized then. -/
structure LogEntry where
  userId : Int
  chat : Chat
  call : GatewayCall
  authorized : Bool
  deriving DecidableEq, Repr

/-- The Telegram store, and the calls made so far. -/
structure Room where
  pairings : PairingRows
  authorized : Authorizations
  processed : List Int
  sessions : AList fun _ : Int × Text => Text
  callbacks : AList fun _ : Text => CallbackRow
  /-- The workspaces whose legacy database was imported. -/
  imported : List Text
  log : List LogEntry

/-- A gateway, or sqlite, raised. -/
inductive Failure where
  | failure
  deriving DecidableEq, Repr

abbrev Handler := Prog Failure Room

/-- What the gateway answers, from the calls so far; any of them may raise. -/
structure Gateway where
  fails : List LogEntry → Bool
  /-- The session of `ensure_default_session` and `create_session`. -/
  session : List LogEntry → Text
  /-- The run of `status`, empty when there is none. -/
  run : List LogEntry → Text
  /-- The sessions of `list_sessions`. -/
  sessions : List LogEntry → List Text

/-- The controller; `token` is the next random token, `transcribe` the voice
service when it is enabled (`none` as a transcript is its error). -/
structure Controller where
  manager : Pairing.Manager
  workspace : Text
  callbackTtl : Time
  gateway : Gateway
  token : Room → Text
  transcribe : Option (File → Option Text)

/-- An update being handled: from whom, and when. -/
structure Turn where
  user : User
  chat : Chat
  now : Time
  deriving DecidableEq, Repr

/-- `TelegramAuthenticator.authorize`, without group chats. -/
def Room.authorizes (s : Room) (userId : Int) (chat : Chat) : Bool :=
  chat.isPrivate &&
    match s.authorized.authorizationFor userId with
    | none => false
    | some record => record.chatId == chat.chatId

section Handlers

variable (c : Controller) (turn : Turn)

/-- Make a gateway call, and read the answer from the log. -/
def gatewayCall {α : Type} (call : GatewayCall) (answer : List LogEntry → α) : Handler α := do
  Prog.modify fun s => { s with
    log := s.log ++ [{ userId := turn.user.userId, chat := turn.chat, call := call
                       authorized := s.authorizes turn.user.userId turn.chat }] }
  Prog.ensure (fun s => !c.gateway.fails s.log) .failure
  Prog.gets fun s => answer s.log

/-- `set_active_session`. -/
def setActiveSession (userId : Int) (sessionId : Text) : Handler Unit :=
  Prog.modify fun s => { s with sessions := s.sessions.insert (userId, c.workspace) sessionId }

/-- `active_session_for`: here, or from before sessions had a workspace. -/
def activeSessionFor (s : Room) (userId : Int) : Text :=
  ((s.sessions.lookup (userId, c.workspace)).or (s.sessions.lookup (userId, []))).getD []

/-- `_active_or_default_session`. -/
def activeOrDefaultSession (userId : Int) : Handler Text := do
  let active ← Prog.gets fun s => activeSessionFor c s userId
  if active ≠ [] then pure active
  else
    let session ← gatewayCall c turn .ensureDefaultSession c.gateway.session
    setActiveSession c userId session
    pure session

/-- `CallbackRegistry.create`, for a button in the chat. -/
def createCallback (userId : Int) (chat : Chat) (action : CallbackAction) (sessionId runId : Text) :
    Handler Unit := do
  Prog.ensure (fun s => (s.callbacks.lookup (c.token s)).isNone) .failure
  Prog.modify fun s => { s with
    callbacks := s.callbacks.insert (c.token s)
      { action := action, userId := userId, chatId := chat.chatId, sessionId := sessionId
        runId := runId, approvalId := [], expiresAt := turn.now + c.callbackTtl
        consumed := false } }

/-- A keyboard of these buttons. -/
def keyboard (userId : Int) (chat : Chat) (actions : List CallbackAction)
    (sessionId runId : Text) : Handler Unit :=
  Prog.forEach actions fun action => createCallback c turn userId chat action sessionId runId

def homeKeyboard (userId : Int) (chat : Chat) (sessionId runId : Text) : Handler Unit :=
  keyboard c turn userId chat
    [.openSessions, .openStatus, .openPlan, .openChanges, .pauseRun, .cancelRun] sessionId runId

def sessionKeyboard (userId : Int) (chat : Chat) (sessions : List Text) : Handler Unit :=
  Prog.forEach (sessions.take 20) fun sessionId =>
    createCallback c turn userId chat .switchSession sessionId []

def runControlKeyboard (userId : Int) (chat : Chat) (sessionId runId : Text)
    (includeResume : Bool) : Handler Unit :=
  keyboard c turn userId chat
    (if includeResume then [.cancelRun, .pauseRun, .resumeRun] else [.cancelRun, .pauseRun])
    sessionId runId

/-- `_status_message`. -/
def statusMessage (message : Message) : Handler Unit := do
  let session ← activeOrDefaultSession c turn message.user.userId
  let run ← gatewayCall c turn (.status session) c.gateway.run
  if run ≠ [] then
    runControlKeyboard c turn message.user.userId message.chat session run true
  else pure ()

/-- `_handle_start`. -/
def handleStart (message : Message) : Handler Unit := do
  let ok ← Prog.gets fun s => s.authorizes message.user.userId message.chat
  if ok then
    let session ← activeOrDefaultSession c turn message.user.userId
    let run ← gatewayCall c turn (.status session) c.gateway.run
    homeKeyboard c turn message.user.userId message.chat session run
  else pure ()

/-- A command that makes one call about the active session. -/
def sessionCommand (message : Message) (call : Text → GatewayCall) : Handler Unit := do
  let session ← activeOrDefaultSession c turn message.user.userId
  gatewayCall c turn (call session) fun _ => ()

/-- `_handle_command`. -/
def handleCommand (message : Message) (command : Text) : Handler Unit :=
  if command = "/help".toList then pure ()
  else if command = "/sessions".toList ∨ command = "/switch".toList then do
    let _ ← activeOrDefaultSession c turn message.user.userId
    let sessions ← gatewayCall c turn .listSessions c.gateway.sessions
    sessionKeyboard c turn message.user.userId message.chat sessions
  else if command = "/new".toList then do
    let session ← gatewayCall c turn .createSession c.gateway.session
    setActiveSession c message.user.userId session
  else if command = "/status".toList then statusMessage c turn message
  else if command = "/plan".toList then sessionCommand c turn message .plan
  else if command = "/changes".toList then sessionCommand c turn message .changes
  else if command = "/tests".toList then sessionCommand c turn message .tests
  else if command = "/logs".toList then sessionCommand c turn message .logs
  else if command = "/settings".toList then pure ()
  else if command = "/pause".toList then sessionCommand c turn message .pauseCurrentRun
  else if command = "/resume".toList then sessionCommand c turn message .resumeCurrentRun
  else if command = "/cancel".toList then do
    let session ← activeOrDefaultSession c turn message.user.userId
    let run ← gatewayCall c turn (.status session) c.gateway.run
    if run = [] then pure ()
    else runControlKeyboard c turn message.user.userId message.chat session run false
  else pure ()

/-- `_route_text_message`. -/
def routeTextMessage (message : Message) (text : Text) : Handler Unit := do
  let session ← activeOrDefaultSession c turn message.user.userId
  gatewayCall c turn (.routeUserMessage text session) fun _ => ()

/-- `_handle_voice`. -/
def handleVoice (message : Message) (voice : File) : Handler Unit :=
  match c.transcribe with
  | none => pure ()
  | some transcribe =>
    match transcribe voice with
    | none => pure ()
    | some transcript => routeTextMessage c turn message (strip transcript)

/-- `MAX_UPLOAD_BYTES`. -/
def maxUploadBytes : Nat := 10 * 1024 * 1024

/-- `_handle_file`. -/
def handleFile (message : Message) (document : File) : Handler Unit := do
  let session ← activeOrDefaultSession c turn message.user.userId
  if document.fileSize > maxUploadBytes then pure ()
  else gatewayCall c turn (.switchSession session) fun _ => ()

/-- `CallbackRegistry.validate`: the row of a button that is the user's, of this
chat, not used and not expired, which is used now. -/
def validateCallback (callback : CallbackQuery) : Handler (Option CallbackRow) := do
  let record ← Prog.gets fun s => s.callbacks.lookup callback.data
  match record with
  | none => pure none
  | some record =>
    if record.userId ≠ callback.user.userId then pure none
    else if record.chatId ≠ callback.message.chat.chatId then pure none
    else if record.consumed then pure none
    else if record.expiresAt < turn.now then pure none
    else do
      Prog.modify fun s => { s with
        callbacks := s.callbacks.insert callback.data { record with consumed := true } }
      pure (some record)

/-- What a valid button does. -/
def runCallback (callback : CallbackQuery) (record : CallbackRow) : Handler Unit :=
  let userId := callback.user.userId
  let chat := callback.message.chat
  match record.action with
  | .switchSession => do
    gatewayCall c turn (.switchSession record.sessionId) fun _ => ()
    setActiveSession c userId record.sessionId
    let run ← gatewayCall c turn (.status record.sessionId) c.gateway.run
    homeKeyboard c turn userId chat record.sessionId run
  | .openSessions => do
    let _ ← activeOrDefaultSession c turn userId
    let sessions ← gatewayCall c turn .listSessions c.gateway.sessions
    sessionKeyboard c turn userId chat sessions
  | .openStatus => statusMessage c turn callback.message
  | .openPlan => gatewayCall c turn (.plan record.sessionId) fun _ => ()
  | .openChanges => gatewayCall c turn (.changes record.sessionId) fun _ => ()
  | .cancelRun => gatewayCall c turn (.cancelCurrentRun record.sessionId) fun _ => ()
  | .pauseRun => gatewayCall c turn (.pauseCurrentRun record.sessionId) fun _ => ()
  | .resumeRun => gatewayCall c turn (.resumeCurrentRun record.sessionId) fun _ => ()
  | .approve => gatewayCall c turn (.resolveApproval record.approvalId true) fun _ => ()
  | .reject => gatewayCall c turn (.resolveApproval record.approvalId false) fun _ => ()
  | .page => pure ()

/-- `_handle_callback`. -/
def handleCallback (callback : CallbackQuery) : Handler Unit := do
  let ok ← Prog.gets fun s => s.authorizes callback.user.userId callback.message.chat
  if ok then
    let record ← validateCallback turn callback
    match record with
    | none => pure ()
    | some record => runCallback c turn callback record
  else pure ()

/-- `PairingManager.verify`, undisturbed: the pieces of `Pairing` in a row. -/
def verifyPairing (m : Pairing.Manager) (s : Room) (message : Message) (now : Time) :
    Bool × Room :=
  let guest : Pairing.Guest :=
    { userId := message.user.userId, displayName := message.user.displayName
      chatId := message.chat.chatId, isPrivate := message.chat.isPrivate }
  let desk : Pairing.Desk :=
    { pairings := s.pairings, authorized := s.authorized, calls := fun _ => .idle }
  let (desk, call) :=
    Pairing.advanceVerify m desk now (Pairing.beginVerify m s.pairings message.text guest)
  let (desk, call) := Pairing.advanceVerify m desk now call
  let (desk, call) := Pairing.advanceVerify m desk now call
  (match call with | .granted _ _ => true | _ => false,
    { s with pairings := desk.pairings, authorized := desk.authorized })

/-- The pairing branch of `_handle_message`. -/
def handlePairing (message : Message) : Handler Unit := do
  let ok ← (fun s =>
    (.ok (verifyPairing c.manager s message turn.now).1,
      (verifyPairing c.manager s message turn.now).2) : Handler Bool)
  if ok then
    let session ← gatewayCall c turn .ensureDefaultSession c.gateway.session
    setActiveSession c message.user.userId session
  else pure ()

/-- What an authorized message does. -/
def runMessage (message : Message) : Handler Unit :=
  match parseCommand message.text with
  | some command => handleCommand c turn message command
  | none =>
    match message.voice, message.document with
    | some voice, _ => handleVoice c turn message voice
    | none, some document => handleFile c turn message document
    | none, none => routeTextMessage c turn message message.text

/-- `_handle_message`. -/
def handleMessage (message : Message) : Handler Unit :=
  if parseCommand message.text = some "/start".toList then handleStart c turn message
  else if parseCommand message.text = none ∧ looksLikePairingCode message.text = true then
    handlePairing c turn message
  else do
    let ok ← Prog.gets fun s => s.authorizes message.user.userId message.chat
    if ok then runMessage c turn message else pure ()

end Handlers

/-- `handle_update`. -/
def handleUpdate (c : Controller) (now : Time) (update : Update) : Handler Unit := do
  let seen ← Prog.gets fun s => s.processed.contains update.updateId
  if seen then pure ()
  else
    Prog.modify fun s => { s with processed := update.updateId :: s.processed }
    match update.callbackQuery, update.message with
    | some callback, _ =>
      handleCallback c { user := callback.user, chat := callback.message.chat, now := now } callback
    | none, some message =>
      handleMessage c { user := message.user, chat := message.chat, now := now } message
    | none, none => pure ()

/-! ## The life of the store -/

/-- What happens to the store. -/
inductive Event where
  /-- An update is handled. -/
  | update (now : Time) (update : Update)
  /-- A pairing code is created locally. -/
  | createCode (id code : Text) (now : Time)
  /-- `disconnect_user`, from the terminal or the web page. -/
  | disconnect (userId : Int)
  /-- An approval is shown with buttons for this user and chat. -/
  | offerApproval (token : Text) (row : CallbackRow)
  /-- `_import_legacy_workspace_db` of the database of a workspace; `broken` when
  sqlite could not read it. -/
  | importLegacy (workspace : Text) (users : List (Int × Authorization))
      (sessions : List (Int × Text)) (broken : Bool)

/-- `_copy_from_legacy`. -/
def copyFromLegacy (s : Room) (workspace : Text) (users : List (Int × Authorization))
    (sessions : List (Int × Text)) : Room :=
  { s with
    authorized := users.foldl (fun t (userId, row) => t.insertOrIgnore userId row) s.authorized
    sessions := sessions.foldl (fun t (userId, sessionId) =>
      if (t.lookup (userId, workspace)).isSome then t
      else t.insert (userId, workspace) sessionId) s.sessions }

/-- One event; an update that raises keeps what it did before. -/
def stepEvent (c : Controller) (s : Room) : Event → Room
  | .update now update => (handleUpdate c now update s).2
  | .createCode id code now =>
    { s with pairings := (s.pairings.createPairingCode id (c.manager.hash code)
        c.manager.installationId (now + c.manager.ttl)).getD s.pairings }
  | .disconnect userId => { s with authorized := s.authorized.disconnectUser userId }
  | .offerApproval token row => { s with callbacks := s.callbacks.insert token row }
  | .importLegacy workspace users sessions broken =>
    if s.imported.contains workspace then s
    else
      let s := if broken then s else copyFromLegacy s workspace users sessions
      { s with imported := workspace :: s.imported }

end Shamsu.Telegram
