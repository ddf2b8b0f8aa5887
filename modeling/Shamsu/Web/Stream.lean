import Shamsu.Lib.Run
import Shamsu.Py.Lines

/-!
# The event stream

`shamsu/webui/sse.py`: `_read_from`, `tail_events` and `resume_line`, over a file
that grows by bytes, with polls, lost connections and reconnects as the steps of a
run. The id of a frame is meant to be the number of its line, since the browser
resumes after it; `frames` counts it back from the end of what a poll has read, and
looks equal records up by the first of them. So it is the number of the line where
nothing was skipped behind it and no equal record came before it (`Numbered`).
-/

namespace Shamsu.Web

open Shamsu.Lib Shamsu.Py

section

variable {R : Type} (loads : Text → Option R)

/-- The record of a line, by what `json.loads` makes of it: a blank line, one that
does not parse and one that is no object have none. -/
def record (line : Text) : Option R := if (strip line).isEmpty then none else loads (strip line)

/-- The records of some lines. -/
def records (lines : List Text) : List R := lines.filterMap (record loads)

/-- `_read_from`. -/
def readFrom (b : Bytes) (consumed : Nat) : List R × Nat :=
  let lines := readLines b
  if lines.length ≤ consumed then
    if lines.length < consumed then ([], lines.length) else ([], consumed)
  else (records loads (lines.drop consumed), lines.length)

/-- The index of the last `turn.start` (`true`) that no `turn.end` (`false`) follows. -/
def openTurn (kind : R → Option Bool) : Option Nat → Nat → List R → Option Nat
  | openAt, _, [] => openAt
  | openAt, i, r :: rs =>
    match kind r with
    | some true => openTurn kind (some i) (i + 1) rs
    | some false => openTurn kind none (i + 1) rs
    | none => openTurn kind openAt (i + 1) rs

/-- `resume_line`. -/
def resumeLine (kind : R → Option Bool) (b : Bytes) : Nat :=
  let (rs, total) := readFrom loads b 0
  if rs.isEmpty then 0 else (openTurn kind none 0 rs).getD total

variable {loads} {lines lines' : List Text} {start n m : Nat}

theorem records_append (xs ys : List Text) :
    records loads (xs ++ ys) = records loads xs ++ records loads ys := List.filterMap_append ..

theorem records_length_le (loads : Text → Option R) (lines : List Text) : (records loads lines).length ≤ lines.length :=
  List.length_filterMap_le ..

/-- Lines that are all records. -/
theorem records_length_of_all (h : ∀ line ∈ lines, (record loads line).isSome = true) :
    (records loads lines).length = lines.length := by
  induction lines with
  | nil => rfl
  | cons line lines ih =>
    obtain ⟨r, hr⟩ := Option.isSome_iff_exists.mp (h line List.mem_cons_self)
    unfold records
    rw [List.filterMap_cons_some hr, List.length_cons, List.length_cons]
    exact congrArg (· + 1) (ih fun l hl => h l (List.mem_cons_of_mem _ hl))

/-- A poll of a cursor that is not beyond the file. -/
theorem readFrom_eq {b : Bytes} (h : n ≤ (readLines b).length) :
    readFrom loads b n = (records loads ((readLines b).drop n), (readLines b).length) := by
  unfold readFrom
  dsimp only
  split
  next hle =>
    have he : (readLines b).length = n := Nat.le_antisymm hle h
    rw [if_neg (by omega), ← he, List.drop_length]
    rfl
  next => rfl

theorem openTurn_lt {kind : R → Option Bool} {rs : List R} {openAt : Option Nat} {i j : Nat}
    (hopen : ∀ j ∈ openAt, j < i) (h : openTurn kind openAt i rs = some j) : j < i + rs.length := by
  induction rs generalizing openAt i with
  | nil => exact Nat.lt_add_right _ (hopen j h)
  | cons r rs ih =>
    have hlt : ∀ {openAt}, (∀ j ∈ openAt, j < i + 1) →
        openTurn kind openAt (i + 1) rs = some j → j < i + (r :: rs).length := by
      intro openAt hopen h
      have := ih hopen h
      rw [List.length_cons]
      omega
    unfold openTurn at h
    split at h
    · refine hlt (fun j hj => ?_) h
      rw [← Option.some.inj hj]
      exact Nat.lt_succ_self i
    · exact hlt (fun j hj => by cases hj) h
    · exact hlt (fun j hj => Nat.lt_succ_of_lt (hopen j hj)) h

/-- The code starts a connection within the file. -/
theorem resumeLine_le (kind : R → Option Bool) (b : Bytes) :
    resumeLine loads kind b ≤ (readLines b).length := by
  unfold resumeLine
  rw [readFrom_eq (Nat.zero_le _), List.drop_zero]
  dsimp only
  split
  · exact Nat.zero_le _
  · cases hopen : openTurn kind none 0 (records loads (readLines b)) with
    | none => exact Nat.le_refl _
    | some i =>
      have hlt := openTurn_lt (fun j hj => by cases hj) hopen
      have hle := records_length_le loads (readLines b)
      show i ≤ _
      omega

/-! ## The records up to a line -/

/-- The records in the lines after `start` up to `n`. -/
def upTo (loads : Text → Option R) (start n : Nat) (lines : List Text) : List R :=
  records loads ((lines.take n).drop start)

theorem upTo_all : upTo loads start lines.length lines = records loads (lines.drop start) := by
  unfold upTo
  rw [List.take_length]

theorem upTo_le : upTo loads start n lines <+: records loads (lines.drop start) := by
  unfold upTo
  rw [List.drop_take]
  refine ⟨records loads ((lines.drop start).drop (n - start)), ?_⟩
  rw [← records_append, List.take_append_drop]

/-- More lines at the end do not matter. -/
theorem upTo_grown (h : lines <+: lines') (hn : n ≤ lines.length) :
    upTo loads start n lines' = upTo loads start n lines := by
  obtain ⟨more, rfl⟩ := h
  unfold upTo
  rw [List.take_append_of_le_length hn]

theorem upTo_add (hstart : start ≤ n) (hn : n ≤ lines.length) :
    upTo loads start (n + m) lines =
      upTo loads start n lines ++ records loads ((lines.drop n).take m) := by
  unfold upTo
  rw [List.take_add, List.drop_append_of_le_length (by rw [List.length_take]; omega),
    records_append]

/-- All but the last `m` records, where the last `m` lines are records. -/
theorem records_take_of_all (hall : ∀ line ∈ lines.drop (lines.length - m),
    (record loads line).isSome = true) (hm : m ≤ lines.length) :
    records loads (lines.take (lines.length - m)) =
      (records loads lines).take ((records loads lines).length - m) := by
  have hsplit : records loads lines = records loads (lines.take (lines.length - m)) ++
      records loads (lines.drop (lines.length - m)) := by
    rw [← records_append, List.take_append_drop]
  have hlast : (records loads (lines.drop (lines.length - m))).length = m := by
    rw [records_length_of_all hall, List.length_drop]
    omega
  have hlength := congrArg List.length hsplit
  rw [List.length_append, hlast] at hlength
  rw [hsplit, List.take_append_of_le_length (by rw [List.length_append]; omega)]
  rw [List.length_append, hlast, Nat.add_sub_cancel, List.take_length]

end

/-! ## The portal -/

/-- The file, the cursor of the connection, and what the browser has: the id it would
resume from, and the records. -/
structure Portal (R : Type) where
  bytes : Bytes
  consumed : Nat
  last : Nat
  received : List R

/-- Somebody appends to the file; the server polls, and the browser receives all
frames; or the connection is lost after some of them, and the browser resumes; or it
is lost between polls. -/
inductive StreamAction where
  | append (more : Bytes)
  | poll
  | pollLost (k : Nat)
  | reconnect

section

variable {R : Type} [BEq R] (loads : Text → Option R)

/-- The frames of one pass of `tail_events`: `records.index` finds the first that is
equal, itself at the latest. -/
def frames (rs : List R) (consumed : Nat) : List (Nat × R) :=
  rs.mapIdx fun i r => (consumed - rs.length + (rs.take i).findIdx (· == r) + 1, r)

namespace Portal

/-- A first connection. -/
def connect (b : Bytes) (start : Nat) : Portal R := ⟨b, start, start, []⟩

/-- The browser receives frames. -/
def receive (s : Portal R) (fs : List (Nat × R)) : Portal R :=
  { s with
    last := (fs.getLast?.map Prod.fst).getD s.last
    received := s.received ++ fs.map Prod.snd }

def step (s : Portal R) : StreamAction → Portal R
  | .append more => { s with bytes := s.bytes ++ more }
  | .poll =>
    let (rs, consumed) := readFrom loads s.bytes s.consumed
    { s.receive (frames rs consumed) with consumed }
  | .pollLost k =>
    let (rs, consumed) := readFrom loads s.bytes s.consumed
    let s := s.receive ((frames rs consumed).take k)
    { s with consumed := s.last }
  | .reconnect => { s with consumed := s.last }

/-- What a poll would read. -/
def fresh (s : Portal R) : List Text := (readLines s.bytes).drop s.consumed

/-- The last of `k` frames carries the number of its line: nothing that the poll has
read is skipped behind it, and no record before it is equal. -/
def Numbered (s : Portal R) (k : Nat) : Prop :=
  let rs := records loads s.fresh
  rs.take k ≠ [] →
    (∀ r ∈ (rs.take k).getLast?, ∀ r' ∈ (rs.take k).dropLast, (r' == r) = false) ∧
    ∀ line ∈ s.fresh.drop (s.fresh.length - (rs.length - k)), (record loads line).isSome = true

/-- Polls number the frame that is received last. -/
def Exact (s : Portal R) : StreamAction → Prop
  | .poll => s.Numbered loads (records loads s.fresh).length
  | .pollLost k => s.Numbered loads k
  | _ => True

instance (s : Portal R) (k : Nat) : Decidable (s.Numbered loads k) :=
  inferInstanceAs (Decidable ((records loads s.fresh).take k ≠ [] →
    (∀ r ∈ ((records loads s.fresh).take k).getLast?,
      ∀ r' ∈ ((records loads s.fresh).take k).dropLast, (r' == r) = false) ∧
    ∀ line ∈ s.fresh.drop (s.fresh.length - ((records loads s.fresh).length - k)),
      (record loads line).isSome = true))

instance (s : Portal R) : (a : StreamAction) → Decidable (s.Exact loads a)
  | .poll => inferInstanceAs (Decidable (s.Numbered loads (records loads s.fresh).length))
  | .pollLost k => inferInstanceAs (Decidable (s.Numbered loads k))
  | .append _ | .reconnect => inferInstanceAs (Decidable True)

/-- **Delivery**: what is received are the records behind the starting point, in
order and once each, up to some line; and after a poll, all of them. -/
def Delivers (start : Nat) (s : Portal R) (a : StreamAction) : Prop :=
  (s.step loads a).received <+:
    records loads ((readLines (s.step loads a).bytes).drop start) ∧
  (a = .poll → (s.step loads a).received =
    records loads ((readLines (s.step loads a).bytes).drop start))

variable {loads} {s : Portal R} {start k : Nat} {a : StreamAction} {rs : List R} {c : Nat}

/-- Both cursors stand behind exactly what was received. -/
structure Sound (loads : Text → Option R) (start : Nat) (s : Portal R) : Prop where
  start_le : start ≤ s.consumed ∧ start ≤ s.last
  le_length : s.consumed ≤ (readLines s.bytes).length ∧ s.last ≤ (readLines s.bytes).length
  consumed : s.received = upTo loads start s.consumed (readLines s.bytes)
  last : s.received = upTo loads start s.last (readLines s.bytes)

theorem step_poll (h : s.consumed ≤ (readLines s.bytes).length) : s.step loads .poll =
    { s with
      consumed := (readLines s.bytes).length
      last := (((frames (records loads s.fresh) (readLines s.bytes).length).getLast?).map
        Prod.fst).getD s.last
      received := s.received ++ (frames (records loads s.fresh)
        (readLines s.bytes).length).map Prod.snd } := by
  unfold step
  dsimp only
  rw [readFrom_eq h]
  rfl

theorem step_pollLost (h : s.consumed ≤ (readLines s.bytes).length) : s.step loads (.pollLost k) =
    let fs := (frames (records loads s.fresh) (readLines s.bytes).length).take k
    { s with
      consumed := (fs.getLast?.map Prod.fst).getD s.last
      last := (fs.getLast?.map Prod.fst).getD s.last
      received := s.received ++ fs.map Prod.snd } := by
  unfold step
  dsimp only
  rw [readFrom_eq h]
  rfl

theorem map_snd_frames (rs : List R) (c k : Nat) :
    ((frames rs c).take k).map Prod.snd = rs.take k := by
  have : (frames rs c).map Prod.snd = rs := by
    refine List.ext_getElem (by simp [frames]) fun i h₁ h₂ => ?_
    simp [frames]
  rw [List.map_take, this]

/-- The id of the frame received last, where no record before it is equal. -/
theorem last_frame
    (hdistinct : ∀ r ∈ (rs.take k).getLast?, ∀ r' ∈ (rs.take k).dropLast, (r' == r) = false)
    (hk : rs.take k ≠ []) (hc : rs.length ≤ c) (default : Nat) :
    ((((frames rs c).take k).getLast?).map Prod.fst).getD default = c - (rs.length - k) := by
  have hpos := List.length_pos_of_ne_nil hk
  rw [List.length_take] at hpos
  have hi : min k rs.length - 1 < rs.length := by omega
  have hlast : (rs.take k).getLast? = some rs[min k rs.length - 1] := by
    rw [List.getLast?_eq_getElem?, List.length_take, List.getElem?_take_of_lt (by omega),
      List.getElem?_eq_getElem hi]
  have hbefore : (rs.take k).dropLast = rs.take (min k rs.length - 1) := by
    rw [List.dropLast_eq_take, List.length_take, List.take_take]
    congr 1
    omega
  have hidx : (rs.take (min k rs.length - 1)).findIdx (· == rs[min k rs.length - 1])
      = min k rs.length - 1 := by
    have hnone := hdistinct _ hlast
    rw [hbefore] at hnone
    rw [List.findIdx_eq_length.mpr hnone, List.length_take]
    omega
  have hframe : ((frames rs c).take k).getLast? =
      some (c - rs.length + (min k rs.length - 1) + 1, rs[min k rs.length - 1]) := by
    rw [List.getLast?_eq_getElem?, List.length_take, frames, List.length_mapIdx,
      List.getElem?_take_of_lt (by omega), List.getElem?_mapIdx, List.getElem?_eq_getElem hi,
      Option.map_some, hidx]
  rw [hframe]
  show c - rs.length + (min k rs.length - 1) + 1 = c - (rs.length - k)
  omega

/-- What is received moves both cursors to the line of its last record. -/
theorem received_upTo (hs : s.Sound loads start) (hk : s.Numbered loads k)
    (hne : (records loads s.fresh).take k ≠ []) :
    let n := (readLines s.bytes).length - ((records loads s.fresh).length - k)
    s.consumed ≤ n ∧ n ≤ (readLines s.bytes).length ∧
      ((((frames (records loads s.fresh) (readLines s.bytes).length).take k).getLast?).map
        Prod.fst).getD s.last = n ∧
      s.received ++ (records loads s.fresh).take k = upTo loads start n (readLines s.bytes) := by
  obtain ⟨hdistinct, hall⟩ := hk hne
  have hle := records_length_le loads s.fresh
  have hfresh : s.fresh.length = (readLines s.bytes).length - s.consumed := List.length_drop
  have hc := hs.le_length.1
  have hn : (readLines s.bytes).length - ((records loads s.fresh).length - k) =
      s.consumed + (s.fresh.length - ((records loads s.fresh).length - k)) := by omega
  refine ⟨by omega, by omega, last_frame hdistinct hne (by omega) _, ?_⟩
  rw [hn, upTo_add hs.start_le.1 hc, ← hs.consumed]
  show _ = s.received ++ records loads (s.fresh.take _)
  rw [records_take_of_all hall (by omega)]
  congr 1
  rcases Nat.le_total k (records loads s.fresh).length with hle | hle
  · congr 1
    omega
  · rw [List.take_of_length_le hle, List.take_of_length_le (by omega)]

omit [BEq R] in
theorem received_all (hs : s.Sound loads start) :
    s.received ++ records loads s.fresh =
      upTo loads start (readLines s.bytes).length (readLines s.bytes) := by
  have hc := hs.le_length.1
  have hsplit : (readLines s.bytes).length =
      s.consumed + ((readLines s.bytes).length - s.consumed) := by omega
  rw [hs.consumed]
  conv_rhs => rw [hsplit, upTo_add hs.start_le.1 hc, ← List.length_drop, List.take_length]
  rfl

theorem sound_step (hs : s.Sound loads start) (ha : s.Exact loads a) :
    (s.step loads a).Sound loads start := by
  cases a with
  | append more =>
    have hprefix := readLines_append s.bytes more
    have hle := hprefix.length_le
    exact
      { start_le := hs.start_le
        le_length := ⟨hs.le_length.1.trans hle, hs.le_length.2.trans hle⟩
        consumed := (upTo_grown hprefix hs.le_length.1).symm ▸ hs.consumed
        last := (upTo_grown hprefix hs.le_length.2).symm ▸ hs.last }
  | reconnect => exact ⟨⟨hs.start_le.2, hs.start_le.2⟩, ⟨hs.le_length.2, hs.le_length.2⟩, hs.last, hs.last⟩
  | pollLost k =>
    rw [step_pollLost hs.le_length.1]
    by_cases hne : (records loads s.fresh).take k = []
    · -- nothing was received: the browser stays where it was
      have hframes : (frames (records loads s.fresh) (readLines s.bytes).length).take k = [] := by
        rw [← List.map_eq_nil_iff, map_snd_frames, hne]
      rw [hframes]
      have hlast : s.received ++ ([] : List (Nat × R)).map Prod.snd =
          upTo loads start s.last (readLines s.bytes) := by
        rw [List.map_nil, List.append_nil, hs.last]
      exact ⟨⟨hs.start_le.2, hs.start_le.2⟩, ⟨hs.le_length.2, hs.le_length.2⟩, hlast, hlast⟩
    · obtain ⟨hge, hle, hid, hreceived⟩ := received_upTo hs ha hne
      have hstart := hs.start_le.1.trans hge
      dsimp only
      rw [map_snd_frames, hid]
      exact ⟨⟨hstart, hstart⟩, ⟨hle, hle⟩, hreceived, hreceived⟩
  | poll =>
    have hall := received_all hs
    have hstart := hs.start_le.1.trans hs.le_length.1
    rw [step_poll hs.le_length.1]
    have hframes : ((frames (records loads s.fresh) (readLines s.bytes).length).take
        (records loads s.fresh).length) = frames (records loads s.fresh) (readLines s.bytes).length := by
      rw [List.take_of_length_le]
      rw [frames, List.length_mapIdx]
    have hreceived : s.received ++ (frames (records loads s.fresh) (readLines s.bytes).length).map
        Prod.snd = upTo loads start (readLines s.bytes).length (readLines s.bytes) := by
      rw [← hframes, map_snd_frames, List.take_length, hall]
    by_cases hne : (records loads s.fresh).take (records loads s.fresh).length = []
    · have hlast : (frames (records loads s.fresh) (readLines s.bytes).length) = [] := by
        rw [← hframes, ← List.map_eq_nil_iff, map_snd_frames, hne]
      refine ⟨⟨hstart, ?_⟩, ⟨Nat.le_refl _, ?_⟩, hreceived, ?_⟩
      · rw [hlast]
        exact hs.start_le.2
      · rw [hlast]
        exact hs.le_length.2
      · rw [hlast]
        show s.received ++ ([] : List R) = upTo loads start s.last _
        rw [List.append_nil, hs.last]
    · obtain ⟨_, _, hid, _⟩ := received_upTo hs ha hne
      rw [hframes, Nat.sub_self, Nat.sub_zero] at hid
      rw [hid]
      exact ⟨⟨hstart, hstart⟩, ⟨Nat.le_refl _, Nat.le_refl _⟩, hreceived, hreceived⟩

theorem delivers_of_sound (hs : s.Sound loads start) (ha : s.Exact loads a) :
    s.Delivers loads start a := by
  have hs' := sound_step hs ha
  refine ⟨hs'.consumed ▸ upTo_le, ?_⟩
  intro heq
  subst heq
  have hconsumed : (s.step loads .poll).consumed = (readLines s.bytes).length := by
    rw [step_poll hs.le_length.1]
  have hbytes : (s.step loads .poll).bytes = s.bytes := rfl
  rw [hs'.consumed, hconsumed, hbytes, upTo_all]

/-- **Delivery of a stream**, from a starting point within the file, as long as the
frame that a browser may resume from carries the number of its line. -/
theorem stream_delivers (loads : Text → Option R) (b : Bytes) (start : Nat)
    (hstart : start ≤ (readLines b).length) (as : List StreamAction)
    (h : Along (step loads) (Exact loads) (connect b start) as) :
    Along (step loads) (Delivers loads start) (connect b start) as := by
  have hempty : ([] : List R) = upTo loads start start (readLines b) := by
    unfold upTo
    rw [List.drop_eq_nil_of_le (by rw [List.length_take]; omega)]
    rfl
  have hs : Sound loads start (connect b start) :=
    ⟨⟨Nat.le_refl _, Nat.le_refl _⟩, ⟨hstart, hstart⟩, hempty, hempty⟩
  exact along_of_invariant (fun s a hs ha => sound_step hs ha)
    (fun s a hs ha => delivers_of_sound hs ha) hs h

end Portal

end

/-- `json.loads` on the lines of the runs below, with records as their text. -/
private def braced (line : Text) : Option Text :=
  if line.head? == some '\x7b' && line.getLast? == some '\x7d' then some line else none

/-- Two records, of which the second comes in two pieces, and a lost connection. -/
theorem stream_delivers_example :
    Along (Portal.step braced) (Portal.Delivers braced 0)
      (Portal.connect (encodeUtf8 "\n\x7b\"a\": 1\x7d\n\x7b\"b\"".toList) 0)
      [.poll, .append (encodeUtf8 ": 2\x7d\n".toList), .pollLost 0, .poll, .reconnect, .poll] :=
  Portal.stream_delivers braced _ 0 (Nat.zero_le _) _ (by decide +kernel)

/-- A record, another, and a blank line, with the connection lost after the first: the
second is never sent. And two equal records: after a reconnect the second comes again. -/
theorem stream_loses_and_repeats :
    ¬ Along (Portal.step braced) (Portal.Delivers braced 0)
      (Portal.connect (encodeUtf8 "\x7b\"a\": 1\x7d\n\x7b\"b\": 2\x7d\n\n".toList) 0) [.pollLost 1, .poll] ∧
    ¬ Along (Portal.step braced) (Portal.Delivers braced 0)
      (Portal.connect (encodeUtf8 "\x7b\"a\": 1\x7d\n\x7b\"a\": 1\x7d\n".toList) 0)
      [.poll, .reconnect, .poll] := by
  constructor
  · intro hsome
    obtain ⟨_, ⟨_, h⟩, _⟩ := hsome
    exact absurd (h rfl) (by decide +kernel)
  · intro hsome
    obtain ⟨_, _, ⟨_, h⟩, _⟩ := hsome
    exact absurd (h rfl) (by decide +kernel)

end Shamsu.Web
