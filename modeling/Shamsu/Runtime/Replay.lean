import Shamsu.Chat.ToolBudget

/-!
# The turn stream, read back

`TurnStream.replay` and `TurnEvent.from_dict` of `shamsu/runtime/turn_stream.py`. A line that
is no JSON is passed over; the fields of an object are converted with `int`, `float` and
`str`, and nothing catches what these raise.

`replay_iff` is for which files the records come back; `replay_raises` is a file from which
none does.
-/

namespace Shamsu.Runtime.Replay

open Shamsu.Py Shamsu.Session
open Shamsu.Chat.ToolBudget (key get isInt intOf)

/-- What the interpreter is asked for: whether `json.loads` meets its limits (of the depth
of a value, of the digits of an `int`), `str` of what is no string (`none` where that meets
them), and `int` and `float`, of a float by its text. A float is an `F`. -/
structure Env (F : Type) where
  tooDeep : Text → Bool
  tooLong : Text → Bool
  str : Json → Option (List Nat)
  isZero : Text → Bool
  intOfFloat : Text → Option Int
  intOfString : List Nat → Option Int
  zero : F
  one : F
  floatOfInt : Int → Option F
  floatOfFloat : Text → F
  floatOfString : List Nat → Option F

/-- `TurnEvent`. -/
structure Event (F : Type) where
  seq : Int
  kind : List Nat
  text : List Nat
  data : List (List Nat × Json)
  ts : F
  turnId : List Nat
  sessionId : List Nat
  workspace : List Nat
  source : List Nat

variable {F : Type} (e : Env F)

/-! ## `from_dict` -/

/-- `bool(v)`. -/
def truthy : Json → Bool
  | .null => false
  | .bool b => b
  | .number t => if isInt t then decide (intOf t ≠ 0) else !e.isZero t
  | .string s => s ≠ []
  | .array items => !items.isEmpty
  | .object fields => !fields.isEmpty

/-- `raw.get(name)`, where `or` keeps it. -/
def given (raw : List (List Nat × Json)) (name : String) : Option Json :=
  (get raw name).filter (truthy e)

/-- `int(v)`. -/
def int : Json → Option Int
  | .bool b => some (if b then 1 else 0)
  | .number t => if isInt t then some (intOf t) else e.intOfFloat t
  | .string s => e.intOfString s
  | _ => none

/-- `float(v)`. -/
def float : Json → Option F
  | .bool b => some (if b then e.one else e.zero)
  | .number t => if isInt t then e.floatOfInt (intOf t) else some (e.floatOfFloat t)
  | .string s => e.floatOfString s
  | _ => none

/-- `str(v)`. -/
def str : Json → Option (List Nat)
  | .string s => some s
  | v => e.str v

/-- `int(raw.get(name) or 0)`. -/
def intField (raw : List (List Nat × Json)) (name : String) : Option Int :=
  match given e raw name with
  | none => some 0
  | some v => int e v

/-- `float(raw.get(name) or 0.0)`. -/
def floatField (raw : List (List Nat × Json)) (name : String) : Option F :=
  match given e raw name with
  | none => some e.zero
  | some v => float e v

/-- `str(raw.get(name) or "")`. -/
def strField (raw : List (List Nat × Json)) (name : String) : Option (List Nat) :=
  match given e raw name with
  | none => some []
  | some v => str e v

def dataField (raw : List (List Nat × Json)) : List (List Nat × Json) :=
  match get raw "data" with
  | some (.object fields) => fields
  | _ => []

/-- `from_dict`; `none` where it raises. -/
def fromDict (raw : List (List Nat × Json)) : Option (Event F) := do
  let seq ← intField e raw "seq"
  let kind ← strField e raw "kind"
  let text ← strField e raw "text"
  let ts ← floatField e raw "ts"
  let turnId ← strField e raw "turn_id"
  let sessionId ← strField e raw "session_id"
  let workspace ← strField e raw "workspace"
  let source ← strField e raw "source"
  return { seq, kind, text, data := dataField raw, ts, turnId, sessionId, workspace, source }

/-! ## `replay` -/

/-- What one line comes to. -/
inductive Line (F : Type) where
  | raised
  | skipped
  | event (event : Event F)

/-- The body of the loop, at a line with something in it. -/
def readLine (line : Text) : Line F :=
  if e.tooDeep line then .raised
  else if e.tooLong line then .skipped
  else
    match loads line with
    | some (.object raw) =>
      match fromDict e raw with
      | none => .raised
      | some event => .event event
    | _ => .skipped

/-- The lines that are looked at. -/
def lines (file : Text) : List Text :=
  ((splitlines (translateNewlines file)).map strip).filter (· ≠ [])

/-- The loop; `none` where it raises. -/
def replayLines : List Text → Option (List (Event F))
  | [] => some []
  | line :: lines =>
    match readLine e line with
    | .raised => none
    | .skipped => replayLines lines
    | .event event => (replayLines lines).map (event :: ·)

/-- `_after`. -/
def after (events : List (Event F)) (sinceSeq : Int) (sinceTurn : List Nat) : List (Event F) :=
  if sinceSeq < 0 then events
  else
    let resume :=
      if sinceTurn = [] then (events.getLast?.map Event.turnId).getD [] else sinceTurn
    events.filter fun event => !(event.turnId == resume && decide (event.seq ≤ sinceSeq))

/-- `replay`, of the characters of the file; a file that cannot be read has none. -/
def replay (file : Option Text) (sinceSeq : Int) (sinceTurn : List Nat) : Option (List (Event F)) :=
  match file with
  | none => some []
  | some file => (replayLines e (lines file)).map fun events => after events sinceSeq sinceTurn

/-! ## What a file should give -/

/-- The event of a record as `to_dict` makes them: each field is there with its type. -/
def record (raw : List (List Nat × Json)) : Option (Event F) :=
  match get raw "seq", get raw "kind", get raw "text", get raw "data", get raw "ts",
    get raw "turn_id", get raw "session_id", get raw "workspace", get raw "source" with
  | some (.number seq), some (.string kind), some (.string text), some (.object data),
    some (.number ts), some (.string turnId), some (.string sessionId),
    some (.string workspace), some (.string source) =>
    if isInt seq && !isInt ts then
      some {
        seq := intOf seq, kind, text, data,
        ts := if e.isZero ts then e.zero else e.floatOfFloat ts
        turnId, sessionId, workspace, source }
    else none
  | _, _, _, _, _, _, _, _, _ => none

/-- The event of a line that is a well-formed record. -/
def recordLine (line : Text) : Option (Event F) :=
  if e.tooDeep line || e.tooLong line then none
  else
    match loads line with
    | some (.object raw) => record e raw
    | _ => none

def records (file : Text) : List (Event F) := (lines file).filterMap (recordLine e)

/-- `int` reads the field: it is missing or empty, a number that is not infinite, a `bool`,
or the text of a number. -/
def IntReads : Option Json → Prop
  | some (.number t) => isInt t = true ∨ e.isZero t = true ∨ e.intOfFloat t ≠ none
  | some (.string s) => s = [] ∨ e.intOfString s ≠ none
  | some (.array items) => items = []
  | some (.object fields) => fields = []
  | _ => True

/-- `float` reads the field. -/
def FloatReads : Option Json → Prop
  | some (.number t) => isInt t = true → intOf t = 0 ∨ e.floatOfInt (intOf t) ≠ none
  | some (.string s) => s = [] ∨ e.floatOfString s ≠ none
  | some (.array items) => items = []
  | some (.object fields) => fields = []
  | _ => True

/-- `str` reads the field. -/
def StrReads : Option Json → Prop
  | some (.string _) => True
  | some v => truthy e v = true → e.str v ≠ none
  | none => True

/-- The fields that are read as texts. -/
def textFields : List String := ["kind", "text", "turn_id", "session_id", "workspace", "source"]

/-- Every field of the object can be read. -/
def Readable (raw : List (List Nat × Json)) : Prop :=
  IntReads e (get raw "seq") ∧ FloatReads e (get raw "ts") ∧
    ∀ name ∈ textFields, StrReads e (get raw name)

variable {e}

theorem intField_isSome {raw : List (List Nat × Json)} {name : String} :
    intField e raw name ≠ none ↔ IntReads e (get raw name) := by
  unfold intField given
  cases get raw name with
  | none => simp [IntReads]
  | some v =>
    cases v with
    | null => simp [IntReads, truthy, Option.filter]
    | bool b => cases b <;> simp [IntReads, truthy, Option.filter, int]
    | number t =>
      by_cases hint : isInt t = true
      · by_cases hzero : intOf t = 0 <;> simp [IntReads, truthy, Option.filter, int, hint, hzero]
      · by_cases hzero : e.isZero t = true <;>
          simp [IntReads, truthy, Option.filter, int, hint, hzero]
    | string s =>
      by_cases hs : s = [] <;> simp [IntReads, truthy, Option.filter, int, hs]
    | array items => cases items <;> simp [IntReads, truthy, Option.filter, int]
    | object fields => cases fields <;> simp [IntReads, truthy, Option.filter, int]

theorem floatField_isSome {raw : List (List Nat × Json)} {name : String} :
    floatField e raw name ≠ none ↔ FloatReads e (get raw name) := by
  unfold floatField given
  cases get raw name with
  | none => simp [FloatReads]
  | some v =>
    cases v with
    | null => simp [FloatReads, truthy, Option.filter]
    | bool b => cases b <;> simp [FloatReads, truthy, Option.filter, float]
    | number t =>
      by_cases hint : isInt t = true
      · by_cases hzero : intOf t = 0 <;>
          simp [FloatReads, truthy, Option.filter, float, hint, hzero]
      · by_cases hzero : e.isZero t = true <;>
          simp [FloatReads, truthy, Option.filter, float, hint, hzero]
    | string s =>
      by_cases hs : s = [] <;> simp [FloatReads, truthy, Option.filter, float, hs]
    | array items => cases items <;> simp [FloatReads, truthy, Option.filter, float]
    | object fields => cases fields <;> simp [FloatReads, truthy, Option.filter, float]

theorem strField_isSome {raw : List (List Nat × Json)} {name : String} :
    strField e raw name ≠ none ↔ StrReads e (get raw name) := by
  unfold strField given
  cases get raw name with
  | none => simp [StrReads]
  | some v =>
    by_cases htruthy : truthy e v = true
    · cases v <;> simp_all [StrReads, Option.filter, str]
    · cases v <;> simp_all [StrReads, Option.filter]

theorem bind_ne_none_iff {α β : Type} {o : Option α} {f : α → Option β} {Q : Prop}
    (h : ∀ a, f a ≠ none ↔ Q) : o.bind f ≠ none ↔ o ≠ none ∧ Q := by
  cases o with
  | none => exact ⟨fun h => absurd rfl h, fun h => absurd rfl h.1⟩
  | some a => exact (h a).trans ⟨fun hq => ⟨nofun, hq⟩, fun hq => hq.2⟩

/-- `from_dict` raises exactly where a field cannot be read. -/
theorem fromDict_isSome {raw : List (List Nat × Json)} :
    fromDict e raw ≠ none ↔ Readable e raw := by
  have hfields := @bind_ne_none_iff _ _ (intField e raw "seq") _ _ fun seq =>
    @bind_ne_none_iff _ _ (strField e raw "kind") _ _ fun kind =>
    @bind_ne_none_iff _ _ (strField e raw "text") _ _ fun text =>
    @bind_ne_none_iff _ _ (floatField e raw "ts") _ _ fun ts =>
    @bind_ne_none_iff _ _ (strField e raw "turn_id") _ _ fun turnId =>
    @bind_ne_none_iff _ _ (strField e raw "session_id") _ _ fun sessionId =>
    @bind_ne_none_iff _ _ (strField e raw "workspace") _ _ fun workspace =>
    @bind_ne_none_iff _ _ (strField e raw "source") (fun source =>
      some (Event.mk seq kind text (dataField raw) ts turnId sessionId workspace source)) _
      fun _ => iff_of_true nofun trivial
  refine Iff.trans (b := _) hfields ?_
  simp only [intField_isSome, floatField_isSome, strField_isSome, Readable, textFields,
    List.forall_mem_cons]
  constructor
  · intro h
    obtain ⟨hseq, hkind, htext, hts, hturn, hsession, hworkspace, hsource, -⟩ := h
    exact ⟨hseq, hts, hkind, htext, hturn, hsession, hworkspace, hsource, nofun⟩
  · intro h
    obtain ⟨hseq, hts, hkind, htext, hturn, hsession, hworkspace, hsource, -⟩ := h
    exact ⟨hseq, hkind, htext, hts, hturn, hsession, hworkspace, hsource, trivial⟩

theorem intField_int {raw : List (List Nat × Json)} {name : String} {t : Text}
    (hget : get raw name = some (.number t)) (hint : isInt t = true) :
    intField e raw name = some (intOf t) := by
  unfold intField given
  by_cases hzero : intOf t = 0
  · simp [hget, truthy, Option.filter, hint, hzero]
  · simp [hget, truthy, Option.filter, int, hint, hzero]

theorem floatField_float {raw : List (List Nat × Json)} {name : String} {t : Text}
    (hget : get raw name = some (.number t)) (hfloat : isInt t = false) :
    floatField e raw name = some (if e.isZero t then e.zero else e.floatOfFloat t) := by
  unfold floatField given
  by_cases hzero : e.isZero t = true
  · simp [hget, truthy, Option.filter, hfloat, hzero]
  · simp [hget, truthy, Option.filter, float, hfloat, hzero]

theorem strField_string {raw : List (List Nat × Json)} {name : String} {s : List Nat}
    (hget : get raw name = some (.string s)) : strField e raw name = some s := by
  unfold strField given
  by_cases hs : s = []
  · simp [hget, truthy, Option.filter, hs]
  · simp [hget, truthy, Option.filter, str, hs]

/-- A well-formed record is read as its event. -/
theorem fromDict_record {raw : List (List Nat × Json)} {event : Event F}
    (h : record e raw = some event) : fromDict e raw = some event := by
  unfold record at h
  split at h
  next hseq hkind htext hdata hts hturn hsession hworkspace hsource =>
    split at h
    next htypes =>
      cases h
      rw [Bool.and_eq_true, Bool.not_eq_true'] at htypes
      unfold fromDict dataField
      rw [intField_int hseq htypes.1, strField_string hkind, strField_string htext,
        floatField_float hts htypes.2, strField_string hturn, strField_string hsession,
        strField_string hworkspace, strField_string hsource, hdata]
      rfl
    · cases h
  · cases h

/-! ## The lines -/

theorem readLine_raised_iff {line : Text} :
    readLine e line = .raised ↔ e.tooDeep line = true ∨ e.tooLong line = false ∧
      ∃ raw, loads line = some (.object raw) ∧ ¬ Readable e raw := by
  unfold readLine
  by_cases hdeep : e.tooDeep line = true
  · rw [if_pos hdeep]
    exact iff_of_true rfl (.inl hdeep)
  · rw [if_neg hdeep]
    by_cases hlong : e.tooLong line = true
    · rw [if_pos hlong]
      refine iff_of_false nofun ?_
      intro hcase
      rcases hcase with h | ⟨h, -⟩
      · exact hdeep h
      · rw [hlong] at h
        cases h
    · rw [if_neg hlong]
      rw [Bool.not_eq_true] at hlong
      split
      next raw hraw =>
        have hreads := @fromDict_isSome F e raw
        split
        next hnone =>
          rw [hnone] at hreads
          exact iff_of_true rfl (.inr ⟨hlong, raw, hraw, fun h => hreads.mpr h rfl⟩)
        next event hevent =>
          rw [hevent] at hreads
          refine iff_of_false nofun ?_
          intro hcase
          rcases hcase with h | ⟨-, raw', hraw', hnot⟩
          · exact hdeep h
          · cases hraw.symm.trans hraw'
            exact hnot (hreads.mp nofun)
      next hother =>
        refine iff_of_false nofun ?_
        intro hcase
        rcases hcase with h | ⟨-, raw', hraw', -⟩
        · exact hdeep h
        · exact hother raw' hraw'

theorem readLine_record {line : Text} {event : Event F} (h : recordLine e line = some event) :
    readLine e line = .event event := by
  unfold recordLine at h
  split at h
  · cases h
  next hlimits =>
    rw [Bool.or_eq_true, not_or] at hlimits
    split at h
    next raw hraw =>
      unfold readLine
      rw [if_neg hlimits.1, if_neg hlimits.2, hraw]
      dsimp only
      rw [fromDict_record h]
    · cases h

/-- The loop raises exactly where a line does. -/
theorem replayLines_isSome {ls : List Text} :
    replayLines e ls ≠ none ↔ ∀ line ∈ ls, readLine e line ≠ .raised := by
  induction ls with
  | nil => exact iff_of_true nofun nofun
  | cons line ls ih =>
    rw [List.forall_mem_cons, ← ih, replayLines]
    cases readLine e line with
    | raised => exact iff_of_false (fun h => h rfl) fun h => h.1 rfl
    | skipped => exact ⟨fun h => ⟨nofun, h⟩, fun h => h.2⟩
    | event event =>
      rw [ne_eq, Option.map_eq_none_iff]
      exact ⟨fun h => ⟨nofun, h⟩, fun h => h.2⟩

/-- Where it does not, the records are among the events, in their order. -/
theorem records_sublist {ls : List Text} {events : List (Event F)}
    (h : replayLines e ls = some events) : (ls.filterMap (recordLine e)).Sublist events := by
  induction ls generalizing events with
  | nil => exact List.nil_sublist _
  | cons line ls ih =>
    rw [replayLines] at h
    cases hline : recordLine e line with
    | some event =>
      rw [readLine_record hline] at h
      obtain ⟨rest, hrest, rfl⟩ := Option.map_eq_some_iff.mp h
      rw [List.filterMap_cons_some hline]
      exact (ih hrest).cons_cons event
    | none =>
      rw [List.filterMap_cons_none hline]
      split at h
      · cases h
      · exact ih h
      · obtain ⟨rest, hrest, rfl⟩ := Option.map_eq_some_iff.mp h
        exact (ih hrest).cons _

/-- **The records come back** exactly when no line of the file is nested too deep for
`json.loads`, and each object that is read has a number that `int` reads, a time that `float`
reads and fields that `str` reads. -/
theorem replay_iff (e : Env F) (file : Text) :
    (∃ events, replay e (some file) (-1) [] = some events ∧ (records e file).Sublist events) ↔
      ∀ line ∈ lines file, e.tooDeep line = false ∧ (e.tooLong line = false →
        ∀ raw, loads line = some (.object raw) → Readable e raw) := by
  have hreplay : replay e (some file) (-1) [] = replayLines e (lines file) :=
    Option.map_id_apply
  have hlines : (∀ line ∈ lines file, readLine e line ≠ .raised) ↔
      ∀ line ∈ lines file, e.tooDeep line = false ∧ (e.tooLong line = false →
        ∀ raw, loads line = some (.object raw) → Readable e raw) := by
    refine forall₂_congr fun line _ => ?_
    rw [ne_eq, readLine_raised_iff, not_or, Bool.not_eq_true, not_and, not_exists]
    refine and_congr_right fun _ => forall₂_congr fun _ raw => ?_
    rw [not_and, not_not]
  rw [hreplay, ← hlines, ← replayLines_isSome]
  constructor
  · intro hsome hnone
    obtain ⟨events, h, -⟩ := hsome
    rw [h] at hnone
    cases hnone
  · intro h
    obtain ⟨events, hevents⟩ := Option.ne_none_iff_exists'.mp h
    exact ⟨events, hevents, records_sublist hevents⟩

/-- One line is enough. -/
theorem replay_none {file line : Text} (hline : line ∈ lines file)
    (hraised : readLine e line = .raised) (sinceSeq : Int) (sinceTurn : List Nat) :
    replay e (some file) sinceSeq sinceTurn = none := by
  have hlines : replayLines e (lines file) = none := by
    by_contra hnone
    exact replayLines_isSome.mp hnone line hline hraised
  show (replayLines e (lines file)).map _ = none
  rw [hlines]
  rfl

/-- An interpreter that meets no limits, with the floats that can be told from a text. -/
def textEnv : Env Text where
  tooDeep _ := false
  tooLong _ := false
  str _ := none
  isZero t := t == "0.0".toList
  intOfFloat _ := none
  intOfString _ := none
  zero := "0.0".toList
  one := "1.0".toList
  floatOfInt n := some (toString n).toList
  floatOfFloat t := t
  floatOfString _ := none

/-- A line whose number is a list. -/
def listSeq : Text := '{' :: "\"seq\":[[]]\x7d".toList

theorem loads_listSeq : loads listSeq = some (.object [(key "seq", .array [.array []])]) := by
  have hspelled : Spelled "seq".toList (key "seq") :=
    .plain (by decide) (by decide) (by decide) (.plain (by decide) (by decide) (by decide)
      (.plain (by decide) (by decide) (by decide) .nil))
  have hkey : KeyLaid (key "seq") "\"seq\":".toList :=
    @KeyLaid.mk _ [] _ [] [] nofun hspelled nofun nofun
  have hitems : ItemsLaid [.array []] "[]]".toList :=
    @ItemsLaid.last _ [] _ [] nofun (@Laid.emptyArray [] nofun) nofun
  exact loads_laid (.object (@FieldsLaid.last _ _ _ _ [] hkey (.array hitems) nofun)
    (List.pairwise_singleton _ _))

theorem lines_listSeq : lines listSeq = [listSeq] := by
  decide

/-- Not one event comes back. -/
theorem replay_raises :
    ¬ ∀ file, ∃ events, replay textEnv (some file) (-1) [] = some events ∧
      (records textEnv file).Sublist events := by
  intro h
  obtain ⟨events, hreplay, -⟩ := h listSeq
  have hmem : listSeq ∈ lines listSeq := by
    rw [lines_listSeq]
    exact List.mem_singleton_self _
  have hraised : readLine textEnv listSeq = .raised :=
    readLine_raised_iff.mpr (.inr ⟨rfl, _, loads_listSeq, fun hread => by cases hread.1⟩)
  rw [replay_none hmem hraised] at hreplay
  cases hreplay

end Shamsu.Runtime.Replay
