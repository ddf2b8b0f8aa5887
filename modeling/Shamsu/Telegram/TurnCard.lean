import Shamsu.Lib.Run
import Shamsu.Llm.Output
import Shamsu.Py.Strip
import Shamsu.Runtime.TurnStream

/-!
# The turn card

`shamsu/integrations/telegram/turn_card.py`: a turn is one message that is edited as
lines come in. A card that is full is sealed, and the turn goes on in a new message.
Sends may fail; the lines wait for the next one.

A reading of the clock and a send are looked up by their number. `chat` is what the
chat shows, and `passed` every text that was given to `send`.

`sends_fit`: texts are measured before they are escaped, so no text is too long in a
run whose lines and footers stay within their room when they are escaped, under a
header that fits.
-/

namespace Shamsu.Telegram.TurnCard

open Shamsu.Lib Shamsu.Py Shamsu.Llm Shamsu.Runtime

/-! ## The header -/

/-- `EMPTY_TITLES`. -/
def emptyTitles : List Text :=
  ["shamsu session", "session", "untitled", "untitled session"].map String.toList

/-- `t.rsplit(" ", 1)[0]`. -/
def beforeLastBlank (t : Text) : Text :=
  if ' ' ∈ t then ((t.reverse.dropWhile (· != ' ')).drop 1).reverse else t

/-- `_short_title`. The titles that carry nothing are ASCII, so lowering ASCII letters
decides which they are. -/
def shortTitle (title : Text) (maxChars : Nat) : Text :=
  let clean := join ' ' (words title)
  if clean = [] ∨ clean.map Char.toLower ∈ emptyTitles then []
  else if clean.length ≤ maxChars then clean
  else
    let cut := (beforeLastBlank (clean.take maxChars)).rdropWhile fun c => c ∈ " ,.:;-".toList
    if cut ≠ [] then cut else rstrip (clean.take maxChars)

/-- `prompt_label` of the Telegram surface, without the trailing blank. -/
def promptLabel (title : Text) : Text :=
  let clean := shortTitle title 18
  if clean ≠ [] then "shamsu (".toList ++ clean ++ ") telegram>".toList
  else "shamsu telegram>".toList

/-- `CONTINUATION_HEADER`. -/
def continuationHeader : Text := "... continued".toList

/-! ## A card's text -/

/-- `html.escape` of one character. -/
def escapeChar : Char → Text
  | '&' => "&amp;".toList
  | '<' => "&lt;".toList
  | '>' => "&gt;".toList
  | '"' => "&quot;".toList
  | '\'' => "&#x27;".toList
  | c => [c]

/-- `html.escape`. -/
def escape (t : Text) : Text := t.flatMap escapeChar

/-- `_render_text`. -/
def renderText (lines : List Text) (header footer : Text) : Text :=
  "<b>".toList ++ escape header ++ "</b>".toList
    ++ (if lines = [] then [] else "\n<pre>".toList ++ escape (join '\n' lines) ++ "</pre>".toList)
    ++ (if footer = [] then [] else '\n' :: escape footer)

/-! ## The world -/

/-- A reading of the clock in milliseconds, and what becomes of a send, by their
numbers. A send is refused with an error, or delivered; a message it makes has an id
of its own. -/
structure World where
  clock : Nat → Int
  refusal : Nat → Option Text
  messageId : Nat → Nat
  positive : ∀ n, 0 < messageId n
  distinct : Function.Injective messageId

/-- A message of the chat, as it reads now. -/
structure Sent where
  id : Nat
  text : Text
  deriving DecidableEq, Repr

/-- The digits of the first match of `_RETRY_AFTER`. -/
def retryDigits : Text → Option Text
  | [] => none
  | c :: error =>
    match (afterTag "retry after ".toList (c :: error)).map (List.takeWhile isDigit) with
    | some (d :: digits) => some (d :: digits)
    | _ => retryDigits error

/-- `_retry_after`. -/
def retryAfter (error : Text) : Int :=
  match retryDigits error with
  | some digits => min 60000 (digitsValue digits * 1000)
  | none => 1000

/-! ## The card -/

/-- What a card is made with. -/
structure Config where
  prompt : Text
  title : Text := []
  hasTyping : Bool := false
  verbosity : Text := "normal".toList
  flushInterval : Int := 1500
  typingInterval : Int := 4000
  maxChars : Nat := 3900
  deriving DecidableEq, Repr

/-- `_footer_reserve`. -/
def Config.footerReserve (c : Config) : Nat := min 160 (max 24 (c.maxChars / 4))

/-- `_header`. -/
def Config.header (c : Config) : Text := rstrip (promptLabel c.title ++ ' ' :: c.prompt)

/-- `body_kinds`. -/
def Config.body (c : Config) : List Text :=
  let level := (strip (if c.verbosity = [] then "normal".toList else c.verbosity)).map Char.toLower
  if level = "quiet".toList then ["tool.call".toList]
  else if level = "verbose".toList then
    ["activity".toList, "tool.call".toList, "tool.result".toList, "status".toList]
  else ["activity".toList, "tool.call".toList]

structure Card where
  allLines : List Text := []
  isSealed : Bool := false
  sendFailures : Nat := 0
  consecutiveFailures : Nat := 0
  messageIds : List Nat := []
  cardLines : List Text := []
  header : Text
  footer : Text := []
  messageId : Option Nat := none
  lastText : Text := []
  lastFlush : Int := -1000000000000
  lastTyping : Int := -1000000000000
  retryUntil : Int := -1000000000000
  /-- How often the clock was read. -/
  readings : Nat := 0
  /-- The texts given to `send`. -/
  passed : List Text := []
  /-- The messages, as they read. -/
  chat : List Sent := []
  deriving DecidableEq, Repr

namespace Card

variable (w : World) (c : Config)

def start : Card := { header := c.header }

/-- `_chrome_length`. -/
def chromeLength (s : Card) : Nat := (renderText [] s.header []).length

/-- The budget of `_fit`. -/
def budget (s : Card) : Nat := max 32 (c.maxChars - s.chromeLength - c.footerReserve - 16)

/-- `_fit`. -/
def fit (s : Card) (line : Text) : Text :=
  if line.length ≤ s.budget c then line else line.take (s.budget c - 3) ++ "...".toList

/-- `_fits`. -/
def fits (s : Card) (lines : List Text) : Bool :=
  (renderText lines s.header []).length + c.footerReserve ≤ c.maxChars

/-- `_render`. -/
def render (s : Card) : Text := renderText s.cardLines s.header s.footer

/-- The chat after a message was edited. -/
def edited (chat : List Sent) (id : Nat) (text : Text) : List Sent :=
  chat.map fun m => if m.id = id then { m with text } else m

/-- `_deliver` of a text that is refused, and whether it returned: a power of two is a
float, and too large for one after 1023 failures. -/
def refuse (s : Card) (text error : Text) : Card × Bool :=
  let failures := s.consecutiveFailures + 1
  let now := w.clock s.readings
  let s :=
    { s with
      passed := s.passed ++ [text]
      sendFailures := s.sendFailures + 1
      consecutiveFailures := failures
      readings := s.readings + 1 }
  if failures < 1024 then
    ({ s with retryUntil := now + max (retryAfter error) (min 60000 (2 ^ failures * 1000)) }, true)
  else (s, false)

/-- `_deliver` of a text that gets through. -/
def accept (s : Card) (text : Text) : Card :=
  let made := w.messageId s.passed.length
  let s := { s with passed := s.passed ++ [text], consecutiveFailures := 0, lastText := text }
  match s.messageId with
  | some id => { s with chat := edited s.chat id text }
  | none =>
    let s := { s with chat := s.chat ++ [Sent.mk made text] }
    -- without an id the next send would make one more message
    if made = 0 then s
    else { s with messageId := some made, messageIds := s.messageIds ++ [made] }

/-- `_deliver`. -/
def deliver (s : Card) (text : Text) : Card × Bool :=
  match w.refusal s.passed.length with
  | some error => refuse w s text error
  | none => (accept w s text, true)

/-- `_flush`. -/
def flush (s : Card) (force : Bool) : Card × Bool :=
  let now := w.clock s.readings
  let s := { s with readings := s.readings + 1 }
  -- a flush that must be goes out in the wait after a refusal as well
  if now < s.retryUntil ∧ force = false then (s, true)
  else if force = false ∧ now - s.lastFlush < c.flushInterval then (s, true)
  else if s.render = s.lastText then (s, true)
  else deliver w { s with lastFlush := now } s.render

/-- What becomes of a card that is full: `_seal_for_overflow`. -/
def sealForOverflow (s : Card) : Card × Bool :=
  match deliver w s (renderText s.cardLines s.header []) with
  | (s, true) => ({ s with messageId := none, lastText := [], header := continuationHeader }, true)
  | (s, false) => (s, false)

/-- The line does not fit on the card any more. -/
def overflows (s : Card) (line : Text) : Bool :=
  s.cardLines ≠ [] && !s.fits c (s.cardLines ++ [line])

/-- `_append`. -/
def append (s : Card) (line : Text) : Card × Bool :=
  let line := s.fit c line
  let full := s.overflows c line
  let s := { s with allLines := s.allLines ++ [line] }
  if full then
    match sealForOverflow w s with
    | (s, true) => flush w c { s with cardLines := [line] } true
    | (s, false) => (s, false)
  else ({ s with cardLines := s.cardLines ++ [line] }, true)

/-- `_tick_typing`. -/
def tickTyping (s : Card) : Card :=
  if c.hasTyping = false ∨ s.isSealed = true then s
  else
    let now := w.clock s.readings
    let s := { s with readings := s.readings + 1 }
    if now - s.lastTyping < c.typingInterval then s else { s with lastTyping := now }

/-- `_append` and `_flush`, which is not reached when the first raises. -/
def appendAndFlush (s : Card) (line : Text) (force : Bool) : Card :=
  match append w c s line with
  | (s, true) => (flush w c s force).1
  | (s, false) => s

/-- `__call__`; what it raises, the stream drops. -/
def call (s : Card) (e : TurnEvent) : Card :=
  if s.isSealed then s
  else if e.kind = "turn.start".toList then (flush w c s true).1
  else if e.kind = "status".toList then
    (flush w c (tickTyping w c { s with footer := e.text }) false).1
  else if e.kind = "turn.end".toList then
    match flush w c { s with footer := e.text } true with
    | (s, true) => { s with isSealed := true }
    | (s, false) => s
  else if e.kind = "error".toList ∨ e.kind = "approval".toList then
    if e.text = [] then (flush w c s true).1 else appendAndFlush w c s e.text true
  else if e.kind ∈ c.body ∧ e.text ≠ [] then appendAndFlush w c s e.text false
  else s

/-- The text of the event is appended to the card. -/
def appends (s : Card) (e : TurnEvent) : Bool :=
  !s.isSealed && e.text ≠ [] && e.kind ∉ ["turn.start", "status", "turn.end"].map String.toList &&
    (e.kind ∈ ["error", "approval"].map String.toList || e.kind ∈ c.body)

/-! ## What a step can do -/

variable {w c}

/-- A send changes neither the card nor its header. -/
structure SameCard (s t : Card) : Prop where
  allLines : t.allLines = s.allLines
  cardLines : t.cardLines = s.cardLines
  header : t.header = s.header
  footer : t.footer = s.footer
  isSealed : t.isSealed = s.isSealed

theorem refuse_same (s : Card) (text error : Text) : SameCard s (refuse w s text error).1 := by
  unfold refuse
  dsimp only
  split <;> exact ⟨rfl, rfl, rfl, rfl, rfl⟩

theorem accept_same (s : Card) (text : Text) : SameCard s (accept w s text) := by
  unfold accept
  dsimp only
  split
  · exact ⟨rfl, rfl, rfl, rfl, rfl⟩
  · split <;> exact ⟨rfl, rfl, rfl, rfl, rfl⟩

theorem passed_accept (s : Card) (text : Text) : (accept w s text).passed = s.passed ++ [text] := by
  unfold accept
  dsimp only
  split
  · rfl
  · split <;> rfl

theorem passed_refuse (s : Card) (text error : Text) :
    (refuse w s text error).1.passed = s.passed ++ [text] := by
  unfold refuse
  dsimp only
  split <;> rfl

theorem deliver_same (s : Card) (text : Text) : SameCard s (deliver w s text).1 := by
  unfold deliver
  split
  · exact refuse_same s text _
  · exact accept_same s text

theorem passed_deliver (s : Card) (text : Text) :
    (deliver w s text).1.passed = s.passed ++ [text] := by
  unfold deliver
  split
  · exact passed_refuse s text _
  · exact passed_accept s text

/-- A flush delivers what the card shows, or does nothing; when it must, only because
the card was delivered just so. -/
theorem flush_cases (s : Card) (force : Bool) :
    (∃ readings, flush w c s force = ({ s with readings }, true) ∧
      (force = true → s.render = s.lastText)) ∨
    ∃ readings lastFlush, flush w c s force = deliver w { s with readings, lastFlush } s.render := by
  unfold flush
  dsimp only
  split
  next h => exact .inl ⟨_, rfl, fun hforce => absurd h.2 (by simp [hforce])⟩
  next =>
    split
    next h => exact .inl ⟨_, rfl, fun hforce => absurd h.1 (by simp [hforce])⟩
    next =>
      split
      next h => exact .inl ⟨_, rfl, fun _ => h⟩
      next => exact .inr ⟨_, _, rfl⟩

/-- A line is put on the card; or it does not fit, and either starts a new card or is
lost with the error that sealing the card raises. -/
theorem append_cases (s : Card) (text : Text) :
    (s.overflows c (s.fit c text) = false ∧
      append w c s text =
        ({ s with
            allLines := s.allLines ++ [s.fit c text]
            cardLines := s.cardLines ++ [s.fit c text] }, true)) ∨
    s.overflows c (s.fit c text) = true ∧
      ∃ t ok, sealForOverflow w { s with allLines := s.allLines ++ [s.fit c text] } = (t, ok) ∧
        append w c s text =
          if ok then flush w c { t with cardLines := [s.fit c text] } true else (t, false) := by
  unfold append
  dsimp only
  cases h : s.overflows c (s.fit c text) with
  | false => exact .inl ⟨rfl, rfl⟩
  | true =>
    refine .inr ⟨rfl, ?_⟩
    cases hseal : sealForOverflow w { s with allLines := s.allLines ++ [s.fit c text] } with
    | mk t ok => cases ok <;> exact ⟨t, _, rfl, rfl⟩

/-! ## Lengths -/

theorem length_escapeChar_pos (ch : Char) : 1 ≤ (escapeChar ch).length := by
  unfold escapeChar
  split <;> exact Nat.le_add_left 1 _

theorem escape_append (a b : Text) : escape (a ++ b) = escape a ++ escape b :=
  List.flatMap_append

theorem length_le_escape (t : Text) : t.length ≤ (escape t).length := by
  induction t with
  | nil => exact Nat.le_refl _
  | cons ch t ih =>
    have := length_escapeChar_pos ch
    rw [escape, List.flatMap_cons, List.length_append, List.length_cons]
    change t.length ≤ (t.flatMap escapeChar).length at ih
    omega

/-- The lines of a card in a message. -/
def linesPart (lines : List Text) : Nat :=
  if lines = [] then 0 else 12 + (escape (join '\n' lines)).length

/-- The footer of a card in a message. -/
def footerPart (footer : Text) : Nat := if footer = [] then 0 else 1 + (escape footer).length

theorem length_renderText (lines : List Text) (header footer : Text) :
    (renderText lines header footer).length =
      7 + (escape header).length + linesPart lines + footerPart footer := by
  unfold renderText linesPart footerPart
  simp only [List.length_append]
  have hlines : (if lines = [] then ([] : Text) else
      "\n<pre>".toList ++ escape (join '\n' lines) ++ "</pre>".toList).length =
      if lines = [] then 0 else 12 + (escape (join '\n' lines)).length := by
    split
    · rfl
    · simp only [List.length_append]
      rw [show "\n<pre>".toList.length = 6 from rfl, show "</pre>".toList.length = 6 from rfl]
      omega
  have hfooter : (if footer = [] then ([] : Text) else '\n' :: escape footer).length =
      if footer = [] then 0 else 1 + (escape footer).length := by
    split
    · rfl
    · rw [List.length_cons, Nat.add_comm]
  rw [hlines, hfooter, show "<b>".toList.length = 3 from rfl,
    show "</b>".toList.length = 4 from rfl]
  omega

theorem chromeLength_eq (s : Card) : s.chromeLength = 7 + (escape s.header).length := by
  rw [chromeLength, length_renderText]
  rfl

/-- A line that was cut escapes to no more than what it was cut from. -/
theorem length_escape_fit (s : Card) (line : Text) :
    (escape (s.fit c line)).length ≤ (escape (line.take (s.budget c))).length := by
  have hbudget : 32 ≤ s.budget c := Nat.le_max_left _ _
  unfold fit
  split
  next h => rw [List.take_of_length_le h]
  next h =>
    have hcut : line.take (s.budget c) =
        line.take (s.budget c - 3) ++ (line.drop (s.budget c - 3)).take 3 := by
      rw [← List.take_add]
      congr 1
      omega
    have htail : ((line.drop (s.budget c - 3)).take 3).length = 3 := by
      rw [List.length_take, List.length_drop]
      omega
    have hlong := length_le_escape ((line.drop (s.budget c - 3)).take 3)
    rw [hcut, escape_append, escape_append, List.length_append, List.length_append,
      show (escape "...".toList).length = 3 from rfl]
    omega

/-! ## No text is too long -/

variable (c) in
/-- The event leaves room: the beginning of its line, as far as it is kept, fits under
the header when it is escaped, and its footer the reserve. -/
def Roomy (s : Card) (e : TurnEvent) : Prop :=
  (s.appends c e = true →
    (escape (e.text.take (s.budget c))).length + 12 + s.chromeLength + c.footerReserve
      ≤ c.maxChars) ∧
  (e.kind ∈ ["status", "turn.end"].map String.toList → (escape e.text).length < c.footerReserve)

variable (c) in
/-- The card leaves room for the reserve, and the footer is within it. -/
structure Sized (s : Card) : Prop where
  chrome : 20 ≤ s.chromeLength
  card : (renderText s.cardLines s.header []).length + c.footerReserve ≤ c.maxChars
  footer : footerPart s.footer ≤ c.footerReserve
  passed : ∀ text ∈ s.passed, text.length ≤ c.maxChars

theorem Sized.render_le {s : Card} (h : s.Sized c) : s.render.length ≤ c.maxChars := by
  have hcard := h.card
  have hfooter := h.footer
  rw [render, length_renderText]
  rw [length_renderText, show footerPart [] = 0 from rfl] at hcard
  omega

theorem deliver_sized {s : Card} (h : s.Sized c) {text : Text} (ht : text.length ≤ c.maxChars) :
    (deliver w s text).1.Sized c := by
  have hsame := @deliver_same w s text
  constructor
  · rw [chromeLength_eq, hsame.header, ← chromeLength_eq]
    exact h.chrome
  · rw [hsame.header, hsame.cardLines]
    exact h.card
  · rw [hsame.footer]
    exact h.footer
  · rw [passed_deliver]
    intro t hmem
    rcases List.mem_append.mp hmem with hmem | hmem
    · exact h.passed t hmem
    · rw [List.mem_singleton.mp hmem]
      exact ht

theorem flush_sized {s : Card} (h : s.Sized c) (force : Bool) :
    (flush w c s force).1.Sized c := by
  rcases @flush_cases w c s force with ⟨_, heq, -⟩ | ⟨readings, lastFlush, heq⟩
  · rw [heq]
    exact ⟨h.chrome, h.card, h.footer, h.passed⟩
  · have hs : Sized c { s with readings, lastFlush } := ⟨h.chrome, h.card, h.footer, h.passed⟩
    rw [heq]
    exact deliver_sized hs h.render_le

/-- A card with one line only has room for it. -/
theorem lone_line {s : Card} {text : Text}
    (hroom : (escape (text.take (s.budget c))).length + 12 + s.chromeLength + c.footerReserve
      ≤ c.maxChars) {header : Text} (hheader : 7 + (escape header).length ≤ s.chromeLength) :
    (renderText [s.fit c text] header []).length + c.footerReserve ≤ c.maxChars := by
  have hfit := @length_escape_fit c s text
  rw [length_renderText, linesPart, if_neg (List.cons_ne_nil _ _), join_singleton,
    show footerPart [] = 0 from rfl]
  omega

theorem append_sized {s : Card} (h : s.Sized c) {text : Text}
    (hroom : (escape (text.take (s.budget c))).length + 12 + s.chromeLength + c.footerReserve
      ≤ c.maxChars) : (append w c s text).1.Sized c := by
  rcases @append_cases w c s text with ⟨hfits, heq⟩ | ⟨_, t, ok, hseal, heq⟩
  · rw [heq]
    refine ⟨h.chrome, ?_, h.footer, h.passed⟩
    cases hnil : s.cardLines with
    | nil => exact lone_line hroom (chromeLength_eq s).ge
    | cons l lines =>
      rw [overflows, hnil] at hfits
      simpa [fits] using hfits
  · have hdeliver := @deliver_sized w c { s with allLines := s.allLines ++ [s.fit c text] }
      ⟨h.chrome, h.card, h.footer, h.passed⟩ (renderText s.cardLines s.header [])
      (Nat.le_of_add_right_le h.card)
    unfold sealForOverflow at hseal
    rcases hd : deliver w { s with allLines := s.allLines ++ [s.fit c text] }
        (renderText s.cardLines s.header []) with ⟨r, _ | _⟩
    · simp only [hd, Prod.mk.injEq] at hseal
      obtain ⟨rfl, rfl⟩ := hseal
      rw [hd] at hdeliver
      rw [heq]
      exact hdeliver
    · simp only [hd, Prod.mk.injEq] at hseal
      obtain ⟨rfl, rfl⟩ := hseal
      rw [hd] at hdeliver
      rw [heq, if_pos rfl]
      refine flush_sized ?_ true
      exact ⟨Nat.le_refl 20, @lone_line c s text hroom continuationHeader h.chrome,
        hdeliver.footer, hdeliver.passed⟩

theorem tickTyping_sized {s : Card} (h : s.Sized c) : (tickTyping w c s).Sized c := by
  unfold tickTyping
  dsimp only
  split
  · exact h
  · split <;> exact ⟨h.chrome, h.card, h.footer, h.passed⟩

theorem footerPart_le {footer : Text} (h : (escape footer).length < c.footerReserve) :
    footerPart footer ≤ c.footerReserve := by
  unfold footerPart
  split <;> omega

/-! ## `__call__`, by what it appends -/

/-- A call does nothing, flushes, sets the footer and flushes, ends the turn, or
appends a line and flushes. -/
theorem call_cases (s : Card) (e : TurnEvent) :
    call w c s e = s ∨ s.isSealed = false ∧
      (call w c s e = (flush w c s true).1 ∨
      (e.kind = "status".toList ∧
        call w c s e = (flush w c (tickTyping w c { s with footer := e.text }) false).1) ∨
      (e.kind = "turn.end".toList ∧ ∃ t ok, flush w c { s with footer := e.text } true = (t, ok) ∧
        call w c s e = if ok then { t with isSealed := true } else t) ∨
      (s.appends c e = true ∧ ∃ force, call w c s e = appendAndFlush w c s e.text force)) := by
  unfold call
  split
  next => exact .inl rfl
  next hopen =>
    have hopen' : s.isSealed = false := Bool.eq_false_iff.mpr hopen
    split
    next => exact .inr ⟨hopen', .inl rfl⟩
    next hstart =>
      split
      next hstatus => exact .inr ⟨hopen', .inr (.inl ⟨hstatus, rfl⟩)⟩
      next hstatus =>
        split
        next hend =>
          refine .inr ⟨hopen', .inr (.inr (.inl ⟨hend, ?_⟩))⟩
          cases hflush : flush w c { s with footer := e.text } true with
          | mk t ok => cases ok <;> exact ⟨t, _, rfl, rfl⟩
        next hend =>
          have hkind : e.kind ∉ ["turn.start", "status", "turn.end"].map String.toList := by
            simpa using ⟨hstart, hstatus, hend⟩
          split
          next hforced =>
            split
            next => exact .inr ⟨hopen', .inl rfl⟩
            next htext =>
              refine .inr ⟨hopen', .inr (.inr (.inr ⟨?_, true, rfl⟩))⟩
              simp only [appends, hopen', htext, hkind, decide_not, Bool.not_false, Bool.true_and,
                decide_false, Bool.or_eq_true, decide_eq_true_eq]
              exact .inl (by simpa using hforced)
          next =>
            split
            next hbody =>
              refine .inr ⟨hopen', .inr (.inr (.inr ⟨?_, false, rfl⟩))⟩
              simp only [appends, hopen', hbody.2, hkind, decide_not, Bool.not_false, Bool.true_and,
                decide_false, Bool.or_eq_true, decide_eq_true_eq]
              exact .inr hbody.1
            next => exact .inl rfl

/-- A step of a run that leaves room. -/
theorem call_sized {s : Card} {e : TurnEvent} (h : s.Sized c) (hroomy : s.Roomy c e) :
    (call w c s e).Sized c := by
  have hfooter (hkind : e.kind ∈ ["status", "turn.end"].map String.toList) :
      Sized c { s with footer := e.text } :=
    ⟨h.chrome, h.card, footerPart_le (hroomy.2 hkind), h.passed⟩
  rcases @call_cases w c s e with heq | ⟨-, heq | ⟨hkind, heq⟩ | ⟨hkind, t, ok, hflush, heq⟩ |
    ⟨happends, force, heq⟩⟩
  · rwa [heq]
  · rw [heq]
    exact flush_sized h true
  · rw [heq]
    exact flush_sized (tickTyping_sized (hfooter (by rw [hkind]; decide))) false
  · have ht := @flush_sized w c _ (hfooter (by rw [hkind]; decide)) true
    rw [hflush] at ht
    rw [heq]
    split
    · exact ⟨ht.chrome, ht.card, ht.footer, ht.passed⟩
    · exact ht
  · have ht := @append_sized w c s h e.text (hroomy.1 happends)
    rw [heq, appendAndFlush]
    split
    next t happend =>
      rw [happend] at ht
      exact flush_sized ht force
    next t happend =>
      rw [happend] at ht
      exact ht

theorem promptLabel_ends (title : Text) : ∃ front, promptLabel title = front ++ ['>'] := by
  unfold promptLabel
  dsimp only
  split
  · exact ⟨"shamsu (".toList ++ shortTitle title 18 ++ ") telegram".toList, by
      rw [List.append_assoc _ _ ['>']]
      rfl⟩
  · exact ⟨"shamsu telegram".toList, rfl⟩

/-- The header is longer than the one of a continuation. -/
theorem chrome_header (c : Config) : 20 ≤ (start c).chromeLength := by
  have hlabel : promptLabel c.title <+: rstrip (promptLabel c.title ++ ' ' :: c.prompt) := by
    obtain ⟨front, hfront⟩ := promptLabel_ends c.title
    have hkept : rstrip (promptLabel c.title) = promptLabel c.title := by
      rw [hfront]
      exact List.rdropWhile_concat_neg _ _ _ (by decide)
    rw [rstrip_append]
    split
    · rw [hkept]
    · exact List.prefix_append _ _
  have hlong : 16 ≤ (promptLabel c.title).length := by
    unfold promptLabel
    dsimp only
    split
    · simp only [List.length_append]
      rw [show "shamsu (".toList.length = 8 from rfl, show ") telegram>".toList.length = 11 from rfl]
      omega
    · exact Nat.le_refl 16
  have hescape := length_le_escape c.header
  have hle : 16 ≤ c.header.length := hlong.trans hlabel.length_le
  rw [chromeLength_eq, show (start c).header = c.header from rfl]
  omega

variable (c) in
/-- No text that was sent is longer than a card may be. -/
def Within (s : Card) : Prop := ∀ text ∈ s.passed, text.length ≤ c.maxChars

/-- No text that is sent is longer than a card may be, in a run that leaves room under
a header that leaves room. -/
theorem sends_fit (w : World) (c : Config)
    (hheader : (start c).chromeLength + c.footerReserve ≤ c.maxChars) (events : List TurnEvent)
    (h : Along (call w c) (Roomy c) (start c) events) :
    (run (call w c) (start c) events).Within c := by
  have hstart : (start c).Sized c :=
    ⟨chrome_header c, hheader, Nat.zero_le _, fun _ ht => absurd ht List.not_mem_nil⟩
  exact (run_invariant (fun s e hs he => call_sized hs he) hstart h).passed

/-- Telegram takes everything, and the clock stands still. -/
def calmWorld : World where
  clock _ := 0
  refusal _ := none
  messageId n := n + 1
  positive _ := Nat.succ_pos _
  distinct _ _ h := Nat.succ.inj h

/-- A turn with one tool call. -/
def shortTurn : List TurnEvent :=
  [{ seq := 1, kind := "turn.start".toList },
    { seq := 2, kind := "tool.call".toList, text := "read a.py".toList },
    { seq := 3, kind := "turn.end".toList, text := "done".toList }]

instance (c : Config) (s : Card) (e : TurnEvent) : Decidable (Roomy c s e) :=
  inferInstanceAs (Decidable ((_ → _) ∧ (_ → _)))

theorem sends_fit_short :
    (run (call calmWorld { prompt := "go".toList }) (start { prompt := "go".toList })
      shortTurn).Within { prompt := "go".toList } :=
  sends_fit calmWorld { prompt := "go".toList } (by decide) shortTurn (by decide)

theorem renderText_ne_nil (lines : List Text) (header footer : Text) :
    renderText lines header footer ≠ [] := by
  rw [← List.length_pos_iff, length_renderText]
  omega

theorem passed_start (w : World) (c : Config) (seq : Nat) :
    (call w c (start c) { seq, kind := "turn.start".toList }).passed =
      [renderText [] c.header []] := by
  have hcall : call w c (start c) { seq, kind := "turn.start".toList } =
      (flush w c (start c) true).1 := by
    have hkind : (TurnEvent.mk seq "turn.start".toList [] [] []).kind = "turn.start".toList := rfl
    rw [call, if_neg (by simp [start]), if_pos hkind]
  rw [hcall]
  rcases @flush_cases w c (start c) true with ⟨_, _, hsame⟩ | ⟨_, _, heq⟩
  · exact absurd (hsame rfl) (renderText_ne_nil _ _ _)
  · rw [heq, passed_deliver]
    exact List.nil_append _

/-- The header of a long prompt is the first thing sent. -/
theorem sends_long_prompt :
    ¬ ∀ (w : World) (c : Config) (events : List TurnEvent), 300 ≤ c.maxChars →
      (run (call w c) (start c) events).Within c := by
  intro h
  have hsent := h calmWorld { prompt := List.replicate 4000 'x' }
    [{ seq := 1, kind := "turn.start".toList }] (by decide) (renderText [] _ [])
    (by rw [run_cons, run_nil, passed_start]; exact List.mem_singleton_self _)
  have hheader : Config.header { prompt := List.replicate 4000 'x' } =
      "shamsu telegram> ".toList ++ List.replicate 4000 'x' := by
    rw [Config.header, List.replicate_succ']
    exact List.rdropWhile_concat_neg _ ("shamsu telegram> ".toList ++ List.replicate 3999 'x') 'x'
      (by decide)
  have hlong := length_le_escape (Config.header { prompt := List.replicate 4000 'x' })
  rw [length_renderText] at hsent
  rw [hheader, List.length_append, List.length_replicate] at hlong
  rw [hheader] at hsent
  dsimp only at hsent
  omega

end Card

end Shamsu.Telegram.TurnCard
