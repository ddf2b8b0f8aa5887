import Shamsu.Py.Text

/-!
# Ids and file names of a run

`shamsu/action_ledger/ledger.py`: `_next_id` and the names of the attachments. An id
is a stem and a padded number, and the number can be read back (`Counter.idAt_injective`).
Files of evidence are numbered (`packetName`, `exceptionName`, `unparsedName`) or named
after a command; how a name ends tells which (`ending`).
-/

namespace Shamsu.Ledger

open Shamsu.Py

/-- `f"{n:0{width}d}"`. -/
def padded (width n : Nat) : Text :=
  List.replicate (width - (Nat.toDigits 10 n).length) '0' ++ Nat.toDigits 10 n

theorem ofDigitChars_zeros (k : Nat) (t : Text) :
    Nat.ofDigitChars 10 (List.replicate k '0' ++ t) 0 = Nat.ofDigitChars 10 t 0 := by
  induction k with
  | zero => rfl
  | succ k ih =>
    rw [List.replicate_succ, List.cons_append, Nat.ofDigitChars_cons]
    exact ih

theorem ofDigitChars_padded (width n : Nat) : Nat.ofDigitChars 10 (padded width n) 0 = n := by
  unfold padded
  rw [ofDigitChars_zeros, Nat.ofDigitChars_ten_toDigits]

theorem padded_injective {width m n : Nat} (h : padded width m = padded width n) : m = n := by
  have hvalue := congrArg (fun t => Nat.ofDigitChars 10 t 0) h
  simpa only [ofDigitChars_padded] using hvalue

theorem isDigit_padded {width n : Nat} {c : Char} (h : c ∈ padded width n) : c.isDigit = true := by
  rcases List.mem_append.mp h with h | h
  · rw [List.eq_of_mem_replicate h]
    rfl
  · exact Nat.isDigit_of_mem_toDigits (by omega) (by omega) h

/-- The number is what is before the first character that is no digit. -/
theorem takeWhile_padded {width n : Nat} {c : Char} (hc : c.isDigit = false) (t : Text) :
    (padded width n ++ c :: t).takeWhile Char.isDigit = padded width n := by
  rw [List.takeWhile_append_of_pos fun _ h => isDigit_padded h]
  simp [hc]

/-! ## Ids -/

/-- The counters of `_next_id` whose ids are those of records. -/
inductive Counter where
  | event | decision | tool | model | context
  deriving DecidableEq, Repr

def Counter.stem : Counter → String
  | .event => "evt_"
  | .decision => "dec_"
  | .tool => "tool_"
  | .model => "model_"
  | .context => "context_"

/-- The id that `_next_id` makes of a number. -/
def Counter.idAt (k : Counter) (n : Nat) : Text := k.stem.toList ++ padded 4 n

theorem Counter.idAt_injective {k : Counter} {m n : Nat} (h : k.idAt m = k.idAt n) : m = n :=
  padded_injective (List.append_cancel_left h)

/-- The id of a command. -/
def commandId (n : Nat) : Text := "cmd_".toList ++ padded 3 n

theorem commandId_injective {m n : Nat} (h : commandId m = commandId n) : m = n :=
  padded_injective (List.append_cancel_left h)

/-! ## Files -/

def stdoutName (cmdId : Text) : Text := cmdId ++ ".stdout.log".toList

def stderrName (cmdId : Text) : Text := cmdId ++ ".stderr.log".toList

/-- The file of a packet. -/
def packetName (actionable : Bool) (n : Nat) : Text :=
  (if actionable then "error_packet_" else "diagnostic_packet_").toList ++
    (padded 3 n ++ ".json".toList)

/-- The file of a traceback: `tag` is what `safe_phase` keeps of the phase. -/
def exceptionName (n : Nat) (tag : Text) : Text :=
  "exception_".toList ++ (padded 3 n ++ '_' :: (tag ++ ".traceback.log".toList))

/-- The file of a response: `tag` is what `safe_reason` keeps of the reason. -/
def unparsedName (n : Nat) (tag : Text) : Text :=
  "unparsed_response_".toList ++ (padded 3 n ++ '_' :: (tag ++ ".txt".toList))

/-- The number in what follows a stem. -/
private theorem number_eq {m n : Nat} {c d : Char} {s t : Text} (hc : c.isDigit = false)
    (hd : d.isDigit = false) (h : padded 3 m ++ c :: s = padded 3 n ++ d :: t) : m = n := by
  have hnumber := congrArg (List.takeWhile Char.isDigit) h
  rw [takeWhile_padded hc, takeWhile_padded hd] at hnumber
  exact padded_injective hnumber

theorem packetName_injective {a b : Bool} {m n : Nat} (h : packetName a m = packetName b n) :
    m = n := by
  unfold packetName at h
  cases a with
  | true =>
    cases b with
    | true => exact number_eq rfl rfl (List.append_cancel_left h)
    | false =>
      have hhead : some 'e' = some 'd' := congrArg List.head? h
      exact absurd hhead (by decide)
  | false =>
    cases b with
    | true =>
      have hhead : some 'd' = some 'e' := congrArg List.head? h
      exact absurd hhead (by decide)
    | false => exact number_eq rfl rfl (List.append_cancel_left h)

theorem exceptionName_injective {m n : Nat} {s t : Text} (h : exceptionName m s = exceptionName n t) :
    m = n := number_eq rfl rfl (List.append_cancel_left h)

theorem unparsedName_injective {m n : Nat} {s t : Text} (h : unparsedName m s = unparsedName n t) :
    m = n := number_eq rfl rfl (List.append_cancel_left h)

/-- The last five characters, from the end. -/
def ending (name : Text) : Text := name.reverse.take 5

theorem ending_append (s : Text) {t : Text} (h : 5 ≤ t.length) : ending (s ++ t) = ending t := by
  unfold ending
  rw [List.reverse_append, List.take_append_of_le_length (by simpa using h)]

@[simp] theorem ending_stdoutName (c : Text) : ending (stdoutName c) = "gol.t".toList :=
  ending_append c (by decide)

@[simp] theorem ending_stderrName (c : Text) : ending (stderrName c) = "gol.r".toList :=
  ending_append c (by decide)

@[simp] theorem ending_packetName (a : Bool) (n : Nat) :
    ending (packetName a n) = "nosj.".toList := by
  unfold packetName
  rw [← List.append_assoc]
  exact ending_append _ (by decide)

@[simp] theorem ending_exceptionName (n : Nat) (tag : Text) :
    ending (exceptionName n tag) = "gol.k".toList := by
  have happ : exceptionName n tag =
      ("exception_".toList ++ (padded 3 n ++ '_' :: tag)) ++ ".traceback.log".toList := by
    unfold exceptionName
    simp only [List.append_assoc, List.cons_append]
  rw [happ]
  exact ending_append _ (by decide)

/-- Four letters and one of the tag or the underscore. -/
theorem take_ending_unparsedName (n : Nat) (tag : Text) :
    (ending (unparsedName n tag)).take 4 = "txt.".toList := by
  have happ : unparsedName n tag =
      ("unparsed_response_".toList ++ (padded 3 n ++ '_' :: tag)) ++ ".txt".toList := by
    unfold unparsedName
    simp only [List.append_assoc, List.cons_append]
  rw [happ]
  unfold ending
  rw [List.take_take, List.reverse_append]
  rfl

end Shamsu.Ledger
