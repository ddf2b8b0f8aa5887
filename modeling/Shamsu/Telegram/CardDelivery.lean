import Shamsu.Telegram.TurnCard

/-!
# What a turn card has delivered

The messages of a turn together show its lines. Lines that were not sent wait on the
card; a card that is sealed is sent a last time, and is given up whether that send got
through or not.

`lines_delivered`: a turn that ended, and whose last send got through, is in the chat
line by line, when every card was shown as it was sealed. `sealed_unseen`: otherwise
its lines are lost.
-/

namespace Shamsu.Telegram.TurnCard.Card

open Shamsu.Lib Shamsu.Py Shamsu.Runtime

/-- The message reads as a card with these lines. -/
def Shows (m : Sent) (lines : List Text) : Prop :=
  ∃ header footer, m.text = renderText lines header footer

/-- The messages show the lines of the turn, in order, each line once. -/
def Complete (s : Card) : Prop :=
  ∃ parts, List.Forall₂ Shows s.chat parts ∧ parts.flatten = s.allLines

/-- The card was delivered with the lines it has. -/
def Shown (s : Card) : Prop := ∃ footer, s.lastText = renderText s.cardLines s.header footer

/-- The message of the card, if there is one, is the last of the chat and shows the
card as it was at some time. -/
def Current (s : Card) (closed : List Sent) : Prop :=
  (s.messageId = none ∧ s.chat = closed ∧ s.lastText = []) ∨
    ∃ id part footer, s.messageId = some id ∧ s.chat = closed ++ [Sent.mk id s.lastText] ∧
      (∀ m ∈ closed, m.id ≠ id) ∧ part <+: s.cardLines ∧
      s.lastText = renderText part s.header footer

/-- `closed` are the messages of sealed cards, with the lines in `parts`; `rest` are
lines that are on no card yet. -/
structure Tracked (w : World) (s : Card) (closed : List Sent) (parts : List (List Text))
    (rest : List Text) : Prop where
  shows : List.Forall₂ Shows closed parts
  lines : s.allLines = parts.flatten ++ s.cardLines ++ rest
  known : ∀ m ∈ s.chat, ∃ n < s.passed.length, m.id = w.messageId n
  current : s.Current closed

variable {w : World} {c : Config} {s : Card} {closed : List Sent} {parts : List (List Text)}
  {rest : List Text}

/-! ## A send -/

theorem edited_last {id : Nat} {old text : Text} (h : ∀ m ∈ closed, m.id ≠ id) :
    edited (closed ++ [Sent.mk id old]) id text = closed ++ [Sent.mk id text] := by
  have hclosed : closed.map (fun m => if m.id = id then { m with text } else m) = closed :=
    (List.map_congr_left fun m hm => if_neg (h m hm)).trans (List.map_id' _)
  rw [edited, List.map_append, hclosed]
  simp

/-- A text that gets through is what the message of the card shows. -/
theorem accept_tracked (h : Tracked w s closed parts rest) (footer : Text) :
    Tracked w (accept w s (renderText s.cardLines s.header footer)) closed parts rest ∧
      (accept w s (renderText s.cardLines s.header footer)).Shown := by
  have hid : w.messageId s.passed.length ≠ 0 := (w.positive _).ne'
  -- a first message for the card, or an edit of the one it has
  rcases h.current with ⟨hnone, hchat, -⟩ | ⟨id, part, old, hsome, hchat, hids, -, -⟩
  · have heq : accept w s (renderText s.cardLines s.header footer) =
        { s with
          passed := s.passed ++ [renderText s.cardLines s.header footer]
          consecutiveFailures := 0
          lastText := renderText s.cardLines s.header footer
          chat := s.chat ++
            [Sent.mk (w.messageId s.passed.length) (renderText s.cardLines s.header footer)]
          messageId := some (w.messageId s.passed.length)
          messageIds := s.messageIds ++ [w.messageId s.passed.length] } := by
      simp only [accept, hnone, if_neg hid]
    -- ids that were given out before are of earlier sends
    have hfresh : ∀ m ∈ closed, m.id ≠ w.messageId s.passed.length := by
      intro m hm hmid
      obtain ⟨n, hn, hmn⟩ := h.known m (hchat ▸ hm)
      exact Nat.ne_of_lt hn (w.distinct (hmn.symm.trans hmid))
    rw [heq]
    refine ⟨⟨h.shows, h.lines, ?_, .inr ⟨_, s.cardLines, footer, rfl, ?_, hfresh,
      List.prefix_rfl, rfl⟩⟩, footer, rfl⟩
    · intro m hm
      rw [List.length_append, List.length_singleton]
      rcases List.mem_append.mp hm with hm | hm
      · obtain ⟨n, hn, hmn⟩ := h.known m hm
        exact ⟨n, Nat.lt_succ_of_lt hn, hmn⟩
      · rw [List.mem_singleton.mp hm]
        exact ⟨_, Nat.lt_succ_self _, rfl⟩
    · rw [hchat]
  · have heq : accept w s (renderText s.cardLines s.header footer) =
        { s with
          passed := s.passed ++ [renderText s.cardLines s.header footer]
          consecutiveFailures := 0
          lastText := renderText s.cardLines s.header footer
          chat := edited s.chat id (renderText s.cardLines s.header footer) } := by
      simp only [accept, hsome]
    have hedited := @edited_last closed id s.lastText (renderText s.cardLines s.header footer) hids
    rw [heq]
    refine ⟨⟨h.shows, h.lines, ?_, .inr ⟨id, s.cardLines, footer, hsome, ?_, hids,
      List.prefix_rfl, rfl⟩⟩, footer, rfl⟩
    · intro m hm
      obtain ⟨m', hm', rfl⟩ := List.mem_map.mp hm
      obtain ⟨n, hn, hmn⟩ := h.known m' hm'
      refine ⟨n, ?_, ?_⟩
      · rw [List.length_append]
        exact Nat.lt_add_right _ hn
      · rw [← hmn]
        split <;> rfl
    · rw [hchat, hedited]

/-- What a refused send leaves as it is. -/
structure Untouched (s t : Card) : Prop where
  same : SameCard s t
  messageId : t.messageId = s.messageId
  lastText : t.lastText = s.lastText
  chat : t.chat = s.chat
  passed : s.passed.length ≤ t.passed.length

theorem refuse_untouched (w : World) (s : Card) (text error : Text) :
    Untouched s (refuse w s text error).1 := by
  refine ⟨refuse_same s text error, ?_, ?_, ?_, ?_⟩
  · unfold refuse
    dsimp only
    split <;> rfl
  · unfold refuse
    dsimp only
    split <;> rfl
  · unfold refuse
    dsimp only
    split <;> rfl
  · rw [passed_refuse, List.length_append]
    exact Nat.le_add_right _ _

theorem Tracked.untouched {t : Card} (h : Tracked w s closed parts rest) (hu : Untouched s t) :
    Tracked w t closed parts rest := by
  refine ⟨h.shows, ?_, ?_, ?_⟩
  · rw [hu.same.allLines, hu.same.cardLines]
    exact h.lines
  · rw [hu.chat]
    intro m hm
    obtain ⟨n, hn, hmn⟩ := h.known m hm
    exact ⟨n, hn.trans_le hu.passed, hmn⟩
  · unfold Current
    rw [hu.messageId, hu.chat, hu.lastText, hu.same.cardLines, hu.same.header]
    exact h.current

theorem Shown.untouched {t : Card} (h : s.Shown) (hu : Untouched s t) : t.Shown := by
  unfold Shown
  rw [hu.lastText, hu.same.cardLines, hu.same.header]
  exact h

theorem deliver_refused {text error : Text} (h : w.refusal s.passed.length = some error) :
    deliver w s text = refuse w s text error := by
  rw [deliver, h]

theorem deliver_accepted {text : Text} (h : w.refusal s.passed.length = none) :
    deliver w s text = (accept w s text, true) := by
  rw [deliver, h]

theorem deliver_tracked (h : Tracked w s closed parts rest) (footer : Text) :
    Tracked w (deliver w s (renderText s.cardLines s.header footer)).1 closed parts rest := by
  cases hrefusal : w.refusal s.passed.length with
  | some error =>
    rw [deliver_refused hrefusal]
    exact h.untouched (refuse_untouched w s _ _)
  | none =>
    rw [deliver_accepted hrefusal]
    exact (accept_tracked h footer).1

/-- The card was shown, or the last send was refused. -/
def Settled (w : World) (s : Card) : Prop :=
  s.Shown ∨ w.refusal (s.passed.length - 1) ≠ none

theorem deliver_settles (h : Tracked w s closed parts rest) (footer : Text) :
    Settled w (deliver w s (renderText s.cardLines s.header footer)).1 := by
  cases hrefusal : w.refusal s.passed.length with
  | some error =>
    refine .inr ?_
    rw [passed_deliver, List.length_append, List.length_singleton, Nat.add_sub_cancel, hrefusal]
    exact Option.some_ne_none _
  | none =>
    rw [deliver_accepted hrefusal]
    exact .inl (accept_tracked h footer).2

/-! ## A flush -/

theorem flush_tracked (h : Tracked w s closed parts rest) (force : Bool) :
    Tracked w (flush w c s force).1 closed parts rest := by
  rcases @flush_cases w c s force with ⟨_, heq, -⟩ | ⟨readings, lastFlush, heq⟩
  · rw [heq]
    exact ⟨h.shows, h.lines, h.known, h.current⟩
  · have hs : Tracked w { s with readings, lastFlush } closed parts rest :=
      ⟨h.shows, h.lines, h.known, h.current⟩
    rw [heq]
    exact deliver_tracked hs s.footer

/-- A flush that must be settles the card. -/
theorem flush_settles (h : Tracked w s closed parts rest) : Settled w (flush w c s true).1 := by
  rcases @flush_cases w c s true with ⟨_, heq, hsame⟩ | ⟨readings, lastFlush, heq⟩
  · rw [heq]
    exact .inl ⟨s.footer, (hsame rfl).symm⟩
  · have hs : Tracked w { s with readings, lastFlush } closed parts rest :=
      ⟨h.shows, h.lines, h.known, h.current⟩
    rw [heq]
    exact deliver_settles hs s.footer

theorem isSealed_flush (s : Card) (force : Bool) :
    (flush w c s force).1.isSealed = s.isSealed := by
  rcases @flush_cases w c s force with ⟨_, heq, -⟩ | ⟨_, _, heq⟩
  · rw [heq]
  · rw [heq, (deliver_same _ _).isSealed]

/-! ## A line -/

variable (w c) in
/-- Whether the card is shown as it is sealed: the send gets through, or the card was
shown with its lines before, and the refusal raises nothing. -/
def Seals (s : Card) (e : TurnEvent) : Prop :=
  s.appends c e = true → s.overflows c (s.fit c e.text) = true →
    w.refusal s.passed.length = none ∨ s.Shown ∧ s.consecutiveFailures + 1 < 1024

/-- A card that was shown is closed, and a new one opened. -/
theorem close_tracked {line : Text} (h : Tracked w s closed parts [line]) (hshown : s.Shown) :
    Tracked w
      { s with
        messageId := none
        lastText := []
        header := continuationHeader
        cardLines := [line] } s.chat (parts ++ [s.cardLines]) [] := by
  obtain ⟨footer, htext⟩ := hshown
  rcases h.current with ⟨-, -, hnil⟩ | ⟨id, -, -, -, hchat, -, -, -⟩
  · exact absurd (htext.symm.trans hnil) (renderText_ne_nil _ _ _)
  · refine ⟨?_, ?_, h.known, .inl ⟨rfl, rfl, rfl⟩⟩
    · rw [hchat]
      exact List.rel_append h.shows (.cons ⟨s.header, footer, htext⟩ .nil)
    · rw [h.lines, List.flatten_append, List.flatten_singleton, List.append_nil]

/-- What sealing a card comes to when it is shown after the send. -/
theorem seal_shown {line : Text} {t : Card}
    (hd : deliver w s (renderText s.cardLines s.header []) = (t, true))
    (h : Tracked w t closed parts [line]) (hshown : t.Shown) :
    ∃ t', sealForOverflow w s = (t', true) ∧
      ∃ closed parts, Tracked w { t' with cardLines := [line] } closed parts [] := by
  have hseal : sealForOverflow w s =
      ({ t with messageId := none, lastText := [], header := continuationHeader }, true) := by
    rw [sealForOverflow, hd]
  have hclosed := close_tracked h hshown
  exact ⟨_, hseal, t.chat, parts ++ [t.cardLines], hclosed⟩

theorem seal_tracked {line : Text} (h : Tracked w s closed parts [line])
    (hseals : w.refusal s.passed.length = none ∨ s.Shown ∧ s.consecutiveFailures + 1 < 1024) :
    ∃ t, sealForOverflow w s = (t, true) ∧
      ∃ closed parts, Tracked w { t with cardLines := [line] } closed parts [] := by
  cases hrefusal : w.refusal s.passed.length with
  | none =>
    obtain ⟨htracked, hshown⟩ := accept_tracked h []
    exact seal_shown (deliver_accepted hrefusal) htracked hshown
  | some error =>
    rw [hrefusal] at hseals
    obtain ⟨hshown, hcount⟩ := hseals.resolve_left (Option.some_ne_none _)
    have hu := refuse_untouched w s (renderText s.cardLines s.header []) error
    have hreturns : (refuse w s (renderText s.cardLines s.header []) error).2 = true := by
      unfold refuse
      dsimp only
      rw [if_pos hcount]
    refine seal_shown ?_ (h.untouched hu) (hshown.untouched hu)
    rw [deliver_refused hrefusal, ← hreturns]

theorem append_tracked {text : Text} (h : Tracked w s closed parts [])
    (hseals : s.overflows c (s.fit c text) = true →
      w.refusal s.passed.length = none ∨ s.Shown ∧ s.consecutiveFailures + 1 < 1024) :
    ∃ closed parts, Tracked w (append w c s text).1 closed parts [] := by
  rcases @append_cases w c s text with ⟨-, heq⟩ | ⟨hover, t, ok, hseal, heq⟩
  · refine ⟨closed, parts, ?_⟩
    rw [heq]
    refine ⟨h.shows, ?_, h.known, ?_⟩
    · rw [h.lines, List.append_nil, List.append_nil, List.append_assoc]
    · rcases h.current with hnone | ⟨id, part, footer, hsome, hchat, hids, hpart, htext⟩
      · exact .inl hnone
      · exact .inr ⟨id, part, footer, hsome, hchat, hids, hpart.trans (List.prefix_append _ _), htext⟩
  · have hline : Tracked w { s with allLines := s.allLines ++ [s.fit c text] } closed parts
        [s.fit c text] := by
      refine ⟨h.shows, ?_, h.known, h.current⟩
      rw [h.lines, List.append_nil]
    obtain ⟨t', hseal', closed', parts', htracked⟩ := seal_tracked hline (hseals hover)
    rw [hseal'] at hseal
    cases hseal
    rw [heq, if_pos rfl]
    exact ⟨closed', parts', flush_tracked htracked true⟩

theorem isSealed_append (s : Card) (text : Text) :
    (append w c s text).1.isSealed = s.isSealed := by
  rcases @append_cases w c s text with ⟨-, heq⟩ | ⟨-, t, ok, hseal, heq⟩
  · rw [heq]
  · have ht : t.isSealed = s.isSealed := by
      have hsame := (@deliver_same w { s with allLines := s.allLines ++ [s.fit c text] }
        (renderText s.cardLines s.header [])).isSealed
      unfold sealForOverflow at hseal
      rcases hd : deliver w { s with allLines := s.allLines ++ [s.fit c text] }
          (renderText s.cardLines s.header []) with ⟨r, _ | _⟩
      · simp only [hd, Prod.mk.injEq] at hseal
        rw [hd] at hsame
        rw [← hseal.1, hsame]
      · simp only [hd, Prod.mk.injEq] at hseal
        rw [hd] at hsame
        rw [← hseal.1]
        exact hsame
    rw [heq]
    split
    · rw [isSealed_flush]
      exact ht
    · exact ht

theorem appendAndFlush_tracked {text : Text} (h : Tracked w s closed parts [])
    (hseals : s.overflows c (s.fit c text) = true →
      w.refusal s.passed.length = none ∨ s.Shown ∧ s.consecutiveFailures + 1 < 1024)
    (force : Bool) : ∃ closed parts, Tracked w (appendAndFlush w c s text force) closed parts [] := by
  obtain ⟨closed', parts', ht⟩ := append_tracked h hseals
  refine ⟨closed', parts', ?_⟩
  unfold appendAndFlush
  split
  next t happend =>
    rw [happend] at ht
    exact flush_tracked ht force
  next t happend =>
    rw [happend] at ht
    exact ht

theorem isSealed_appendAndFlush (s : Card) (text : Text) (force : Bool) :
    (appendAndFlush w c s text force).isSealed = s.isSealed := by
  have hsealed := @isSealed_append w c s text
  unfold appendAndFlush
  split
  next t happend =>
    rw [happend] at hsealed
    rw [isSealed_flush, hsealed]
  next t happend =>
    rw [happend] at hsealed
    exact hsealed

/-! ## A turn -/

/-- The lines are accounted for, and a card whose turn has ended is settled. -/
def Accounted (w : World) (s : Card) : Prop :=
  (∃ closed parts, Tracked w s closed parts []) ∧ (s.isSealed = true → Settled w s)

theorem tickTyping_tracked (h : Tracked w s closed parts rest) :
    Tracked w (tickTyping w c s) closed parts rest := by
  unfold tickTyping
  dsimp only
  split
  · exact h
  · split <;> exact ⟨h.shows, h.lines, h.known, h.current⟩

theorem isSealed_tickTyping (s : Card) : (tickTyping w c s).isSealed = s.isSealed := by
  unfold tickTyping
  dsimp only
  split
  · rfl
  · split <;> rfl

theorem call_accounted {e : TurnEvent} (h : Accounted w s) (hseals : Seals w c s e) :
    Accounted w (call w c s e) := by
  obtain ⟨⟨closed, parts, ht⟩, hsettled⟩ := h
  have hfooter : Tracked w { s with footer := e.text } closed parts [] :=
    ⟨ht.shows, ht.lines, ht.known, ht.current⟩
  rcases @call_cases w c s e with heq | ⟨hopen, heq | ⟨-, heq⟩ | ⟨-, t, ok, hflush, heq⟩ |
    ⟨happends, force, heq⟩⟩
  · rw [heq]
    exact ⟨⟨closed, parts, ht⟩, hsettled⟩
  · refine ⟨⟨closed, parts, ?_⟩, fun hseal => ?_⟩
    · rw [heq]
      exact flush_tracked ht true
    · rw [heq, isSealed_flush, hopen] at hseal
      cases hseal
  · refine ⟨⟨closed, parts, ?_⟩, fun hseal => ?_⟩
    · rw [heq]
      exact flush_tracked (tickTyping_tracked hfooter) false
    · rw [heq, isSealed_flush, isSealed_tickTyping] at hseal
      rw [hopen] at hseal
      cases hseal
  · have htracked := @flush_tracked w c _ closed parts [] hfooter true
    have hsettles := @flush_settles w c _ closed parts [] hfooter
    have hsame := @isSealed_flush w c { s with footer := e.text } true
    rw [hflush] at htracked hsettles hsame
    rw [heq]
    split
    · exact ⟨⟨closed, parts, htracked.shows, htracked.lines, htracked.known, htracked.current⟩,
        fun _ => hsettles⟩
    · refine ⟨⟨closed, parts, htracked⟩, fun hseal => ?_⟩
      rw [hsame.trans hopen] at hseal
      cases hseal
  · refine ⟨?_, fun hseal => ?_⟩
    · rw [heq]
      exact appendAndFlush_tracked ht (hseals happends) force
    · rw [heq, isSealed_appendAndFlush, hopen] at hseal
      cases hseal

theorem start_accounted (w : World) (c : Config) : Accounted w (start c) :=
  ⟨⟨[], [], .nil, rfl, fun _ hm => absurd hm List.not_mem_nil, .inl ⟨rfl, rfl, rfl⟩⟩, nofun⟩

/-- A card that was shown makes the chat complete. -/
theorem Tracked.complete (h : Tracked w s closed parts []) (hshown : s.Shown) : s.Complete := by
  obtain ⟨footer, htext⟩ := hshown
  rcases h.current with ⟨-, -, hnil⟩ | ⟨id, -, -, -, hchat, -, -, -⟩
  · exact absurd (htext.symm.trans hnil) (renderText_ne_nil _ _ _)
  · refine ⟨parts ++ [s.cardLines], ?_, ?_⟩
    · rw [hchat]
      exact List.rel_append h.shows (.cons ⟨s.header, footer, htext⟩ .nil)
    · rw [h.lines, List.flatten_append, List.flatten_singleton, List.append_nil]

/-- A turn that has ended with a send that got through is in the chat line by line,
when every card of it was shown as it was sealed. -/
theorem lines_delivered (w : World) (c : Config) (events : List TurnEvent)
    (hend : (run (call w c) (start c) events).isSealed = true)
    (hlast : w.refusal ((run (call w c) (start c) events).passed.length - 1) = none)
    (h : Along (call w c) (Seals w c) (start c) events) :
    (run (call w c) (start c) events).Complete := by
  obtain ⟨⟨closed, parts, ht⟩, hsettled⟩ :=
    run_invariant (fun s e hs he => call_accounted hs he) (start_accounted w c) h
  exact ht.complete ((hsettled hend).resolve_right (not_not.mpr hlast))

/-- A turn of two lines that do not fit on one card. -/
def twoLines : List TurnEvent :=
  [{ seq := 1, kind := "turn.start".toList },
    { seq := 2, kind := "tool.call".toList, text := List.replicate 150 'a' },
    { seq := 3, kind := "tool.call".toList, text := List.replicate 150 'b' },
    { seq := 4, kind := "turn.end".toList }]

/-- A card of 300 characters. -/
def smallCard : Config := { prompt := "go".toList, maxChars := 300 }

theorem lines_delivered_calm :
    (run (call calmWorld smallCard) (start smallCard) twoLines).Complete :=
  lines_delivered calmWorld smallCard twoLines (by decide +kernel) rfl
    (along_of_forall (fun _ _ _ _ => .inl rfl) _ _)

theorem infix_join {line : Text} : ∀ {lines : List Text}, line ∈ lines → line <:+: join '\n' lines
  | [only], h => by
    rw [List.mem_singleton.mp h, join_singleton]
  | first :: second :: lines, h => by
    rw [join_cons_cons]
    rcases List.mem_cons.mp h with rfl | h
    · exact (List.prefix_append _ _).isInfix
    · exact (infix_join h).trans ((List.suffix_cons _ _).trans (List.suffix_append _ _)).isInfix

theorem escape_mono {a b : Text} (h : a <:+: b) : escape a <:+: escape b := by
  obtain ⟨x, y, rfl⟩ := h
  exact ⟨escape x, escape y, by rw [escape_append, escape_append]⟩

theorem exists_shows {chat : List Sent} (h : List.Forall₂ Shows chat parts) {part : List Text}
    (hpart : part ∈ parts) : ∃ m ∈ chat, Shows m part := by
  induction h with
  | nil => cases hpart
  | cons hhead _ ih =>
    rcases List.mem_cons.mp hpart with rfl | hpart
    · exact ⟨_, List.mem_cons_self, hhead⟩
    · obtain ⟨m, hm, hshow⟩ := ih hpart
      exact ⟨m, List.mem_cons_of_mem _ hm, hshow⟩

/-- A line of a complete chat is in one of its messages. -/
theorem Complete.mem (h : s.Complete) {line : Text} (hline : line ∈ s.allLines) :
    ∃ m ∈ s.chat, escape line <:+: m.text := by
  obtain ⟨parts, hshows, hlines⟩ := h
  rw [← hlines] at hline
  obtain ⟨part, hpart, hmem⟩ := List.mem_flatten.mp hline
  obtain ⟨m, hm, header, footer, htext⟩ := exists_shows hshows hpart
  refine ⟨m, hm, (escape_mono (infix_join hmem)).trans ?_⟩
  rw [htext, renderText, if_neg (List.ne_nil_of_mem hmem)]
  refine List.IsInfix.trans ?_ (List.prefix_append _ _).isInfix
  refine List.IsInfix.trans ?_ (List.suffix_append _ _).isInfix
  exact ⟨"\n<pre>".toList, "</pre>".toList, rfl⟩

/-- Telegram refuses the second send only. -/
def refusingWorld : World :=
  { calmWorld with refusal := fun n => if n = 1 then some "Bad Gateway".toList else none }

/-- The card is sealed with a send that is refused, and its line was not sent before. -/
theorem sealed_unseen :
    ¬ ∀ (w : World) (c : Config) (events : List TurnEvent),
      (run (call w c) (start c) events).isSealed = true →
      w.refusal ((run (call w c) (start c) events).passed.length - 1) = none →
      (run (call w c) (start c) events).Complete := by
  intro h
  have hrun : (run (call refusingWorld smallCard) (start smallCard) twoLines).isSealed = true ∧
      (run (call refusingWorld smallCard) (start smallCard) twoLines).passed.length = 3 ∧
      List.replicate 150 'a' ∈
        (run (call refusingWorld smallCard) (start smallCard) twoLines).allLines ∧
      ∀ m ∈ (run (call refusingWorld smallCard) (start smallCard) twoLines).chat,
        ¬ escape (List.replicate 150 'a') <:+: m.text := by
    decide +kernel
  obtain ⟨hend, hsends, hline, hunseen⟩ := hrun
  obtain ⟨m, hm, hin⟩ := (h _ _ _ hend (by rw [hsends]; rfl)).mem hline
  exact hunseen m hm hin

end Shamsu.Telegram.TurnCard.Card
