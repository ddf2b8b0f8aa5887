import Shamsu.Py.Json
import Shamsu.Py.Lines

/-!
# The messages of a session, read back

`read_messages` of `shamsu/session/manager.py`. The transcript is one record a line, and each
line is parsed by itself. If more lines fail than parse, the file is read as a stream of objects,
however they are laid out, and the longer of the two readings is taken.

A value inside a record can be a line of its own, and then counts as one. `read_messages_iff` is
when the records come back; `message_replaced` is a record of which only a text in it does.
-/

namespace Shamsu.Session

open Shamsu.Py

/-- `json.loads`. -/
def loads (s : Text) : Option Json :=
  if s.head? = some '\uFEFF' then none
  else
    match scanValue (skipSpace s).length (skipSpace s) with
    | some (v, rest) => if skipSpace rest = [] then some v else none
    | none => none

def isDict : Json → Bool
  | .object _ => true
  | _ => false

/-- `_decode_json_stream`. Each round takes a character or more. -/
def decodeStream : Nat → Text → List Json
  | 0, _ => []
  | fuel + 1, s =>
    let t := skipSpace s
    if t = [] then []
    else
      match scanValue t.length t with
      | some (v, rest) => (if isDict v then [v] else []) ++ decodeStream fuel rest
      | none =>
        match find ['{'] t.tail with
        | none => []
        | some next => decodeStream fuel (t.tail.drop next)

def decodeJsonStream (text : Text) : List Json := decodeStream (text.length + 1) text

/-- The lines that are looked at. -/
def messageLines (text : Text) : List Text := (splitlines text).filter fun line => strip line != []

/-- What the lines parse to, and how many do not. -/
def parsed (text : Text) : List Json := (messageLines text).filterMap loads

def failures (text : Text) : Nat := (messageLines text).countP fun line => (loads line).isNone

/-- `read_messages`, of the characters of the file. -/
def readMessages (file : Option Text) (count : Option Nat) : List Json :=
  match file with
  | none => []
  | some file =>
    let text := translateNewlines file
    let records := parsed text
    let recovered := decodeJsonStream text
    let records := if records.length < failures text ∧ records.length < recovered.length
      then recovered else records
    match count with
    | none => records
    | some 0 => records
    | some n => records.drop (records.length - n)

/-- Records one after the other, with any white space around them. -/
inductive StreamLaid : List Json → Text → Prop
  | nil {space : Text} (h : IsSpace space) : StreamLaid [] space
  | cons {fields : List (List Nat × Json)} {records : List Json} {before t rest : Text}
      (hbefore : IsSpace before) (h : Laid (.object fields) t) (hrest : StreamLaid records rest) :
      StreamLaid (.object fields :: records) (before ++ (t ++ rest))

/-- A number ends at white space. -/
theorem ends_space {space rest : Text} (hspace : IsSpace space) (hrest : Ends rest) :
    Ends (space ++ rest) := by
  cases space with
  | nil => exact hrest
  | cons y ys =>
    intro x hx
    cases hx
    have hy := hspace _ List.mem_cons_self
    simp only [isJsonSpace, Bool.or_eq_true, beq_iff_eq] at hy
    rcases hy with ((rfl | rfl) | rfl) | rfl <;> decide

theorem laid_object {fields : List (List Nat × Json)} {t : Text} (h : Laid (.object fields) t) :
    ∃ u, t = '{' :: u := by
  generalize hv : Json.object fields = v at h
  cases h with
  | @constant p hp =>
    have hno : ∀ p ∈ constants, isDict p.2 = false := by decide
    have := hno p hp
    rw [← hv] at this
    cases this
  | number => cases hv
  | string => cases hv
  | emptyArray => cases hv
  | array => cases hv
  | emptyObject => exact ⟨_, rfl⟩
  | object => exact ⟨_, rfl⟩

theorem streamLaid_ends {records : List Json} {t : Text} (h : StreamLaid records t) : Ends t := by
  cases h with
  | nil h =>
    rw [← List.append_nil t]
    exact ends_space h ends_nil
  | cons hbefore h hrest =>
    obtain ⟨u, rfl⟩ := laid_object h
    refine ends_space hbefore fun x hx => ?_
    cases hx
    decide

theorem decodeStream_laid {records : List Json} {t : Text} (h : StreamLaid records t) {fuel : Nat}
    (hfuel : t.length < fuel) : decodeStream fuel t = records := by
  induction h generalizing fuel with
  | @nil space h =>
    obtain ⟨fuel, rfl⟩ := Nat.exists_eq_add_of_le' (Nat.succ_le_of_lt (Nat.zero_lt_of_lt hfuel))
    have hskip : skipSpace space = [] := by
      rw [← List.append_nil space, skipSpace_space h]
      rfl
    show (if skipSpace space = [] then [] else _) = _
    rw [if_pos hskip]
  | @cons fields records before t rest hbefore h hrest ih =>
    obtain ⟨fuel, rfl⟩ := Nat.exists_eq_add_of_le' (Nat.succ_le_of_lt (Nat.zero_lt_of_lt hfuel))
    obtain ⟨c, u, ht, _⟩ := laid_cons h
    have hskip : skipSpace (before ++ (t ++ rest)) = t ++ rest := by
      rw [skipSpace_space hbefore, skipSpace_laid h]
    have hne : t ++ rest ≠ [] := by
      rw [ht]
      exact List.cons_ne_nil _ _
    have hlen : rest.length < fuel := by
      rw [List.length_append, List.length_append, ht, List.length_cons] at hfuel
      omega
    rw [decodeStream]
    simp only [hskip]
    rw [if_neg hne, scanValue_laid h (streamLaid_ends hrest)]
    show [Json.object fields] ++ decodeStream fuel rest = _
    rw [ih hlen]
    rfl

/-- The stream is read as its records, however they are laid out. -/
theorem decodeJsonStream_laid {records : List Json} {text : Text} (h : StreamLaid records text) :
    decodeJsonStream text = records := decodeStream_laid h (Nat.lt_succ_self _)

/-- A file keeps its records when its line breaks are translated. -/
theorem streamLaid_read {records : List Json} {t : Text} (h : StreamLaid records t) :
    StreamLaid records (translateNewlines t) := by
  induction h with
  | nil h =>
    obtain ⟨space', hspace', hread⟩ := translateNewlines_space [] (by simp) h
    rw [List.append_nil] at hread
    rw [hread]
    exact .nil (by simpa [translateNewlines] using hspace')
  | @cons fields records before t rest hbefore h hrest ih =>
    obtain ⟨t', ht', hread⟩ := (laid_read t.length).1 rest h (Nat.le_refl _)
    obtain ⟨before', hbefore', hspace⟩ := translateNewlines_space (t ++ rest) (head_laid h rest)
      hbefore
    have hread : translateNewlines (t ++ rest) = t' ++ translateNewlines rest := hread
    rw [hspace, hread]
    exact .cons hbefore' ht' ih

/-- **When the records come back**: the lines that parse are the records, or more lines fail than
parse and fewer parse than there are records. -/
theorem read_messages_iff {records : List Json} {file : Text} (h : StreamLaid records file) :
    readMessages (some file) none = records ↔ parsed (translateNewlines file) = records ∨
      (parsed (translateNewlines file)).length < failures (translateNewlines file) ∧
        (parsed (translateNewlines file)).length < records.length := by
  unfold readMessages
  dsimp only
  rw [decodeJsonStream_laid (streamLaid_read h)]
  split
  next hrecovers => exact iff_of_true rfl (Or.inr hrecovers)
  next hparses => exact ⟨Or.inl, fun hor => hor.resolve_right hparses⟩

/-- A value on a line of its own is what the line parses to. -/
theorem loads_laid {fields : List (List Nat × Json)} {t : Text} (h : Laid (.object fields) t) :
    loads t = some (.object fields) := by
  obtain ⟨u, hu⟩ := laid_object h
  have hmark : t.head? ≠ some '\uFEFF' := by
    rw [hu]
    show some '{' ≠ some '\uFEFF'
    decide
  have hskip : skipSpace t = t := by
    rw [hu]
    exact skipSpace_cons rfl _
  have hread : scanValue t.length t = some (.object fields, []) := by
    have := scanValue_laid h ends_nil
    rwa [List.append_nil] at this
  unfold loads
  rw [if_neg hmark, hskip, hread]
  rfl

/-- The transcript as it is written, a record a line. -/
def transcriptText (lines : List Text) : Text := lines.flatMap fun line => line ++ ['\n']

theorem splitlinesFrom_line {line : Text} (h : line.any isLineBreak = false)
    (acc rest : Text) :
    splitlinesFrom acc (line ++ '\n' :: rest) = (acc.reverse ++ line) :: splitlines rest := by
  induction line generalizing acc with
  | nil =>
    show splitlinesFrom acc ('\n' :: rest) = _
    rw [splitlinesFrom_cons (by decide), if_pos (by decide), List.append_nil]
    rfl
  | cons c line ih =>
    rw [List.any_cons, Bool.or_eq_false_iff] at h
    obtain ⟨hc, hline⟩ := h
    have hne : c ≠ '\r' := by
      intro heq
      subst heq
      cases hc
    show splitlinesFrom acc (c :: (line ++ '\n' :: rest)) = _
    rw [splitlinesFrom_cons hne, if_neg (by rw [hc]; decide),
      ih hline]
    simp

/-- A text that is not all white space is not stripped to nothing. -/
theorem strip_ne_nil {t : Text} {c : Char} (hc : c ∈ t) (hspace : isSpace c = false) :
    strip t ≠ [] := by
  intro hnil
  have hall : ∀ x ∈ rstrip t, isSpace x = true := List.dropWhile_eq_nil_iff.mp hnil
  by_cases hempty : rstrip t = []
  · have := List.rdropWhile_eq_nil_iff.mp hempty c hc
    rw [hspace] at this
    cases this
  · exact List.rdropWhile_last_not _ _ hempty (hall _ (List.getLast_mem hempty))

/-- **Records that are a line each come back.** -/
theorem parsed_transcriptText (lines : List (List (List Nat × Json) × Text))
    (h : ∀ p ∈ lines, Laid (.object p.1) p.2 ∧ p.2.any isLineBreak = false) :
    parsed (transcriptText (lines.map Prod.snd)) = lines.map fun p => .object p.1 := by
  induction lines with
  | nil => rfl
  | cons p lines ih =>
    obtain ⟨hlaid, hbreaks⟩ := h p List.mem_cons_self
    have hlines : messageLines (transcriptText ((p :: lines).map Prod.snd)) =
        p.2 :: messageLines (transcriptText (lines.map Prod.snd)) := by
      obtain ⟨u, hu⟩ := laid_object hlaid
      have hbrace : '{' ∈ p.2 := hu ▸ List.mem_cons_self
      unfold messageLines
      show (splitlines ((p.2 ++ ['\n']) ++ transcriptText (lines.map Prod.snd))).filter _ = _
      rw [List.append_assoc]
      show (splitlinesFrom [] (p.2 ++ '\n' :: transcriptText (lines.map Prod.snd))).filter _ = _
      rw [splitlinesFrom_line hbreaks, List.reverse_nil, List.nil_append,
        List.filter_cons_of_pos (by simpa using strip_ne_nil hbrace rfl)]
    unfold parsed
    rw [hlines, List.filterMap_cons_some (loads_laid hlaid)]
    exact congrArg _ (ih fun q hq => h q (List.mem_cons_of_mem p hq))

/-- The characters of a string that needs no escapes. -/
def codes (s : String) : List Nat := joinSurrogates (s.toList.map Char.toNat)

def isPlain (c : Char) : Bool := decide (32 ≤ c.toNat) && c != '"' && c != '\\'

theorem spelled_plain {t : Text} (h : t.all isPlain = true) : Spelled t (t.map Char.toNat) := by
  induction t with
  | nil => exact .nil
  | cons c t ih =>
    rw [List.all_cons, Bool.and_eq_true] at h
    have hc := h.1
    simp only [isPlain, Bool.and_eq_true, decide_eq_true_eq, bne_iff_ne] at hc
    exact .plain hc.1.1 hc.1.2 hc.2 (ih h.2)

/-- A call that reads one file. -/
private def callRecord : Json := .object [(codes "role", .string (codes "assistant")),
  (codes "tool_calls", .array [.object [(codes "paths", .array [.string (codes "a.py")])]])]

/-- It with some white space wherever an editor breaks the line. -/
private def callText (space : Text) : Text :=
  '{' :: (space ++ ("\"role\": \"assistant\",".toList ++ (space ++
    ("\"tool_calls\": [".toList ++ (space ++ ('{' :: (space ++ ("\"paths\": [".toList ++
      (space ++ ("\"a.py\"".toList ++ (space ++ (']' :: (space ++ ('}' :: (space ++
        (']' :: (space ++ ['}'])))))))))))))))))

theorem laid_plain {t : Text} (h : t.all isPlain = true) :
    Laid (.string (joinSurrogates (t.map Char.toNat))) ('"' :: (t ++ ['"'])) :=
  .string (spelled_plain h)

theorem keyLaid_plain {t before next : Text} (h : t.all isPlain = true)
    (hbefore : IsSpace before) (hnext : IsSpace next) :
    KeyLaid (joinSurrogates (t.map Char.toNat))
      (before ++ '"' :: (t ++ '"' :: ([] ++ ':' :: next))) :=
  .mk hbefore (spelled_plain h) (fun _ hc => absurd hc List.not_mem_nil) hnext

theorem isSpace_iff {t : Text} : IsSpace t ↔ t.all isJsonSpace = true := List.all_eq_true.symm

private theorem laid_callText {space : Text} (h : IsSpace space) :
    Laid callRecord (callText space) := by
  have hnone : IsSpace [] := isSpace_iff.mpr rfl
  have hblank : IsSpace [' '] := isSpace_iff.mpr rfl
  have hpaths : Laid _ _ := .object
    (.last (keyLaid_plain (t := "paths".toList) (by decide) h hblank)
      (.array (.last h (laid_plain (t := "a.py".toList) (by decide)) h)) h)
    (by decide)
  obtain ⟨t, hrecord, rfl⟩ : ∃ t, Laid callRecord t ∧ t = callText space :=
    ⟨_, .object
      (.cons (keyLaid_plain (t := "role".toList) (by decide) h hblank)
        (laid_plain (t := "assistant".toList) (by decide)) hnone
        (.last (keyLaid_plain (t := "tool_calls".toList) (by decide) h hblank)
          (.array (.last h hpaths h)) h))
      (by decide), by simp [callText]⟩
  exact hrecord

theorem read_messages_line :
    readMessages (some (transcriptText [callText []])) none = [callRecord] := by
  have hlaid := laid_callText (isSpace_iff.mpr rfl : IsSpace [])
  have hstream : StreamLaid [callRecord] (transcriptText [callText []]) :=
    .cons (isSpace_iff.mpr rfl : IsSpace []) hlaid (.nil (isSpace_iff.mpr rfl : IsSpace ['\n']))
  have hplain : translateNewlines (transcriptText [callText []]) = transcriptText [callText []] := by
    decide
  refine (read_messages_iff hstream).mpr (Or.inl ?_)
  rw [hplain]
  exact parsed_transcriptText [(_, callText [])] fun p hp => by
    cases List.mem_singleton.mp hp
    exact ⟨hlaid, by decide⟩

/-- The file that is read is the one line in it that parses. -/
theorem message_replaced : ¬ ∀ records file, StreamLaid records file →
    readMessages (some file) none = records := by
  intro h
  have hread : (readMessages (some (callText ['\n'])) none).all isDict = false := by
    decide +kernel
  have hspace : IsSpace ['\n'] := isSpace_iff.mpr rfl
  have hstream : StreamLaid [callRecord] (callText ['\n']) := by
    have htext : callText ['\n'] = [] ++ (callText ['\n'] ++ []) := (List.append_nil _).symm
    rw [htext]
    exact .cons (isSpace_iff.mpr rfl) (laid_callText hspace) (.nil (isSpace_iff.mpr rfl))
  rw [h [callRecord] _ hstream] at hread
  exact Bool.noConfusion hread

end Shamsu.Session
