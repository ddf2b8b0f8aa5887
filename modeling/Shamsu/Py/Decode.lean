import Shamsu.Py.Text

/-!
# Reading text that may not be text

`read_text(encoding="utf-8", errors=…)`: bytes that are no UTF-8 do not raise,
they become U+FFFD (`replace`) or nothing (`ignore`), one for each longest
start of a code that breaks off; then the line ends are translated. What is
read this way is the text of the file exactly when the file is UTF-8 without a
carriage return (`encode_readReplace_iff`).
-/

namespace Shamsu.Py

/-- A byte that continues a code. -/
def isContinuation (b : UInt8) : Bool := 0x80 ≤ b && b ≤ 0xbf

/-- May `b` follow `a` in the code of a character? -/
def mayFollow (a b : UInt8) : Bool :=
  if a == 0xe0 then 0xa0 ≤ b && b ≤ 0xbf
  else if a == 0xed then 0x80 ≤ b && b ≤ 0x9f
  else if a == 0xf0 then 0x90 ≤ b && b ≤ 0xbf
  else if a == 0xf4 then 0x80 ≤ b && b ≤ 0x8f
  else isContinuation b

/-- How many bytes the decoder skips where no character starts: the longest
start of a code, at least one byte. -/
def badLength : Bytes → Nat
  | a :: b :: c :: _ =>
    if 0xf0 ≤ a && a ≤ 0xf4 && mayFollow a b then if isContinuation c then 3 else 2
    else if 0xe0 ≤ a && a ≤ 0xef && mayFollow a b then 2
    else 1
  | [a, b] => if 0xe0 ≤ a && a ≤ 0xf4 && mayFollow a b then 2 else 1
  | _ => 1

/-- Decoding with `bad` for what is no character. -/
def decodeLossyFuel (bad : Text) : Nat → Bytes → Text
  | _, [] => []
  | 0, _ => []
  | fuel + 1, b =>
    match decodeChar b with
    | some (c, r) => c :: decodeLossyFuel bad fuel r
    | none => bad ++ decodeLossyFuel bad fuel (b.drop (badLength b))

/-- `b.decode("utf-8", "replace")`. Each round takes a byte or more. -/
def decodeReplace (b : Bytes) : Text := decodeLossyFuel ['\uFFFD'] b.length b

/-- `b.decode("utf-8", "ignore")`. -/
def decodeIgnore (b : Bytes) : Text := decodeLossyFuel [] b.length b

/-- `read_text(encoding="utf-8", errors="replace")`. -/
def readReplace (b : Bytes) : Text := translateNewlines (decodeReplace b)

theorem badLength_pos (b : Bytes) : 0 < badLength b := by
  unfold badLength
  split
  · split_ifs <;> omega
  · split_ifs <;> omega
  · omega

/-- Fuel beyond the number of bytes changes nothing. -/
theorem decodeLossyFuel_eq (bad : Text) : ∀ (b : Bytes) (fuel : Nat), b.length ≤ fuel →
    decodeLossyFuel bad fuel b = decodeLossyFuel bad b.length b := by
  intro b
  induction hn : b.length using Nat.strong_induction_on generalizing b with
  | _ n ih =>
    subst hn
    intro fuel hfuel
    cases b with
    | nil => cases fuel <;> rfl
    | cons x xs =>
      obtain ⟨fuel, rfl⟩ : ∃ f, fuel = f + 1 := ⟨fuel - 1, by simp at hfuel; omega⟩
      simp only [List.length_cons, Nat.add_le_add_iff_right] at hfuel
      simp only [List.length_cons, decodeLossyFuel]
      cases hd : decodeChar (x :: xs) with
      | none =>
        have hpos := badLength_pos (x :: xs)
        have hlen : ((x :: xs).drop (badLength (x :: xs))).length ≤ xs.length := by
          rw [List.length_drop, List.length_cons]; omega
        have hlt : ((x :: xs).drop (badLength (x :: xs))).length < (x :: xs).length := by
          rw [List.length_cons]; omega
        show bad ++ _ = bad ++ _
        rw [ih _ hlt _ rfl fuel (by omega), ih _ hlt _ rfl xs.length hlen]
      | some cr =>
        obtain ⟨c, r⟩ := cr
        have hc : 0 < (String.utf8EncodeChar c).length :=
          List.length_pos_of_ne_nil (utf8EncodeChar_ne_nil c)
        have hlen := congrArg List.length (decodeChar_sound hd)
        rw [List.length_append, List.length_cons] at hlen
        have hlt : r.length < (x :: xs).length := by rw [List.length_cons]; omega
        show c :: _ = c :: _
        rw [ih _ hlt _ rfl fuel (by omega), ih _ hlt _ rfl xs.length (by omega)]

/-- A character at the front is decoded first. -/
theorem decodeReplace_char (c : Char) (r : Bytes) :
    decodeReplace (String.utf8EncodeChar c ++ r) = c :: decodeReplace r := by
  have hc : 0 < (String.utf8EncodeChar c).length :=
    List.length_pos_of_ne_nil (utf8EncodeChar_ne_nil c)
  cases hb : String.utf8EncodeChar c ++ r with
  | nil => exact absurd (List.append_eq_nil_iff.mp hb).1 (utf8EncodeChar_ne_nil c)
  | cons x xs =>
    have hd : decodeChar (x :: xs) = some (c, r) := by rw [← hb, decodeChar_encode]
    have hlen := congrArg List.length hb
    rw [List.length_append, List.length_cons] at hlen
    simp only [decodeReplace, List.length_cons, decodeLossyFuel, hd]
    rw [decodeLossyFuel_eq _ r xs.length (by omega)]

theorem decodeReplace_append (t : Text) (r : Bytes) :
    decodeReplace (encodeUtf8 t ++ r) = t ++ decodeReplace r := by
  induction t with
  | nil => rfl
  | cons c t ih =>
    rw [encodeUtf8_cons, List.append_assoc, decodeReplace_char, ih]
    rfl

@[simp] theorem decodeReplace_encode (t : Text) : decodeReplace (encodeUtf8 t) = t := by
  have h := decodeReplace_append t []
  rwa [List.append_nil, show decodeReplace [] = [] from rfl, List.append_nil] at h

/-- Whatever is there is decoded to something. -/
theorem decodeReplace_eq_nil {b : Bytes} (h : decodeReplace b = []) : b = [] := by
  cases b with
  | nil => rfl
  | cons x xs =>
    simp only [decodeReplace, List.length_cons, decodeLossyFuel] at h
    cases hd : decodeChar (x :: xs) with
    | none => rw [hd] at h; cases h
    | some cr => rw [hd] at h; cases h

/-! ## Line ends -/

theorem not_cr_translateNewlines : ∀ t : Text, '\r' ∉ translateNewlines t := by
  intro t
  induction t using translateNewlines.induct with
  | case1 => simp [translateNewlines]
  | case2 s ih => simp [translateNewlines, ih]
  | case3 c s hne ih =>
    rw [translateNewlines]
    · by_cases hc : c = '\r'
      · simp [hc, ih]
      · simp only [hc, if_false, List.mem_cons, not_or]
        exact ⟨fun e => hc e.symm, ih⟩
    · exact hne

theorem translateNewlines_of_not_mem {t : Text} (h : '\r' ∉ t) : translateNewlines t = t := by
  induction t with
  | nil => rfl
  | cons c t ih =>
    have hc : c ≠ '\r' := fun e => h (e ▸ List.mem_cons_self ..)
    have ht : '\r' ∉ t := fun e => h (List.mem_cons_of_mem _ e)
    rw [translateNewlines, ih ht, if_neg hc]
    exact fun s e _ => hc e

/-- The text that is read back is the file, byte by byte, exactly for UTF-8
without carriage returns. -/
theorem encode_readReplace_iff {b : Bytes} :
    encodeUtf8 (readReplace b) = b ↔ ∃ t : Text, '\r' ∉ t ∧ b = encodeUtf8 t := by
  constructor
  · exact fun h => ⟨readReplace b, not_cr_translateNewlines _, h.symm⟩
  · intro hsome
    obtain ⟨t, ht, rfl⟩ := hsome
    rw [readReplace, decodeReplace_encode, translateNewlines_of_not_mem ht]

theorem translateNewlines_append {t : Text} (h : '\r' ∉ t) (u : Text) :
    translateNewlines (t ++ u) = t ++ translateNewlines u := by
  induction t with
  | nil => rfl
  | cons c t ih =>
    have hc : c ≠ '\r' := fun e => h (e ▸ List.mem_cons_self ..)
    rw [List.cons_append, translateNewlines, ih fun e => h (List.mem_cons_of_mem _ e), if_neg hc]
    · rfl
    · exact fun s e _ => hc e

theorem translateNewlines_eq_nil {t : Text} (h : translateNewlines t = []) : t = [] := by
  induction t using translateNewlines.induct with
  | case1 => rfl
  | case2 s ih => simp [translateNewlines] at h
  | case3 c s hne ih => rw [translateNewlines] at h; cases h; exact hne

/-- More text behind it does not help bytes to be the beginning of the text
they are read as. -/
theorem prefix_readReplace_append {b : Bytes} {u : Text} :
    b <+: encodeUtf8 (readReplace b ++ u) ↔ b <+: encodeUtf8 (readReplace b) := by
  rw [encodeUtf8_append]
  constructor
  · intro h
    rcases List.prefix_or_prefix_of_prefix h (List.prefix_append _ _) with h | ⟨rest, hrest⟩
    · exact h
    · -- what is left of `b` behind its text would be read as more text
      have hread : readReplace b = readReplace b ++ translateNewlines (decodeReplace rest) := by
        have hcr : '\r' ∉ readReplace b := not_cr_translateNewlines _
        calc readReplace b
            = translateNewlines (decodeReplace (encodeUtf8 (readReplace b) ++ rest)) := by
              rw [hrest]; rfl
          _ = readReplace b ++ translateNewlines (decodeReplace rest) := by
              rw [decodeReplace_append, translateNewlines_append hcr]
      have hnil := List.self_eq_append_right.mp hread
      have hr := decodeReplace_eq_nil (translateNewlines_eq_nil hnil)
      rw [hr, List.append_nil] at hrest
      exact ⟨[], by rw [List.append_nil, hrest]⟩
  · exact fun h => h.trans (List.prefix_append _ _)

end Shamsu.Py
