import Mathlib

/-!
# Python strings and text files

A `str` is a list of characters. This file has the `str` methods the program
calls, with Python's own conventions: `isSpace` is `str.isspace`, `splitlines`
breaks at every Unicode line boundary (not only at `\n`), `count` and `replace`
take occurrences from the left without overlap.

Text files are UTF-8 on disk and are read with universal newlines: `\r\n` and a
lone `\r` both become `\n` (`translateNewlines`), and what is written keeps its
`\n` (the POSIX convention; `newline=None` on write translates nothing there).
`decodeUtf8` is the strict decoder, so it is a partial inverse of `encodeUtf8`
(`decodeUtf8_iff`).
-/

namespace Shamsu.Py

abbrev Text := List Char
abbrev Bytes := List UInt8

instance : LawfulBEq Text := inferInstance

-- over the text: the library has another, over all of `Char`
instance {p : Char → Prop} [DecidablePred p] (s : Text) : Decidable (∀ c ∈ s, p c) :=
  List.decidableBAll p s

/-- For messages. -/
def str (t : Text) : String := String.ofList t

/-! ## White space and lines -/

/-- `str.isspace` for one character. -/
def isSpace (c : Char) : Bool :=
  let n := c.toNat
  (9 ≤ n && n ≤ 13) || (28 ≤ n && n ≤ 32) || n == 0x85 || n == 0xa0 || n == 0x1680
    || (0x2000 ≤ n && n ≤ 0x200a) || n == 0x2028 || n == 0x2029 || n == 0x202f
    || n == 0x205f || n == 0x3000

def lstrip (s : Text) : Text := s.dropWhile isSpace

def rstrip (s : Text) : Text := s.rdropWhile isSpace

def strip (s : Text) : Text := lstrip (rstrip s)

/-- `str.split()`. -/
def words (s : Text) : List Text := (s.splitOnP isSpace).filter fun word => !word.isEmpty

/-- `s.strip()` is empty. -/
def isBlank (s : Text) : Bool := s.all isSpace

/-- The characters `str.splitlines` breaks at. -/
def isLineBreak (c : Char) : Bool :=
  let n := c.toNat
  (10 ≤ n && n ≤ 13) || (28 ≤ n && n ≤ 30) || n == 0x85 || n == 0x2028 || n == 0x2029

/-- `splitlines` with the current line in `acc` (reversed). A final line
without a terminator counts only when it is not empty. -/
def splitlinesFrom : Text → Text → List Text
  | acc, [] => if acc.isEmpty then [] else [acc.reverse]
  | acc, '\r' :: '\n' :: s => acc.reverse :: splitlinesFrom [] s
  | acc, c :: s =>
    if isLineBreak c then acc.reverse :: splitlinesFrom [] s
    else splitlinesFrom (c :: acc) s

def splitlines (s : Text) : List Text := splitlinesFrom [] s

/-- `sep.join(parts)` for a one-character separator. -/
def join (sep : Char) (parts : List Text) : Text := [sep].intercalate parts

theorem join_cons_cons {sep : Char} (a b : Text) (l : List Text) :
    join sep (a :: b :: l) = a ++ sep :: join sep (b :: l) := by
  simp [join]

theorem join_singleton {sep : Char} (a : Text) : join sep [a] = a := by simp [join]

/-- No line of `splitlines` has a newline in it. -/
theorem not_mem_splitlinesFrom {s : Text} : ∀ {acc line : Text}, '\n' ∉ acc →
    line ∈ splitlinesFrom acc s → '\n' ∉ line := by
  intro acc
  induction acc, s using splitlinesFrom.induct with
  | case1 acc hacc =>
    intro line _ h
    simp [splitlinesFrom, hacc] at h
  | case2 acc hacc =>
    intro line hn h
    simp only [splitlinesFrom, hacc] at h
    simp only [Bool.false_eq_true, if_false, List.mem_singleton] at h
    subst h
    simpa using hn
  | case3 acc s ih =>
    intro line hn h
    rw [splitlinesFrom] at h
    rcases List.mem_cons.mp h with rfl | h
    · simpa using hn
    · exact ih (by simp) h
  | case4 acc c s hne hbreak ih =>
    intro line hn h
    rw [splitlinesFrom, if_pos hbreak] at h
    · rcases List.mem_cons.mp h with rfl | h
      · simpa using hn
      · exact ih (by simp) h
    · exact hne
  | case5 acc c s hne hbreak ih =>
    intro line hn h
    rw [splitlinesFrom, if_neg hbreak] at h
    · refine ih ?_ h
      have hc : c ≠ '\n' := fun hc => hbreak (hc ▸ by decide)
      simpa [List.mem_cons, hc.symm] using hn
    · exact hne

theorem not_mem_splitlines {s line : Text} (h : line ∈ splitlines s) : '\n' ∉ line :=
  not_mem_splitlinesFrom List.not_mem_nil h

/-! ## Decimal digits -/

/-- The zeros of the decimal digit runs of Unicode 15 (category `Nd`). -/
def digitZeros : List Nat :=
  [0x30, 0x660, 0x6f0, 0x7c0, 0x966, 0x9e6, 0xa66, 0xae6, 0xb66, 0xbe6, 0xc66, 0xce6, 0xd66,
    0xde6, 0xe50, 0xed0, 0xf20, 0x1040, 0x1090, 0x17e0, 0x1810, 0x1946, 0x19d0, 0x1a80, 0x1a90,
    0x1b50, 0x1bb0, 0x1c40, 0x1c50, 0xa620, 0xa8d0, 0xa900, 0xa9d0, 0xa9f0, 0xaa50, 0xabf0,
    0xff10, 0x104a0, 0x10d30, 0x11066, 0x110f0, 0x11136, 0x111d0, 0x112f0, 0x11450, 0x114d0,
    0x11650, 0x116c0, 0x11730, 0x118e0, 0x11950, 0x11c50, 0x11d50, 0x11da0, 0x11f50, 0x16a60,
    0x16ac0, 0x16b50, 0x1d7ce, 0x1d7d8, 0x1d7e2, 0x1d7ec, 0x1d7f6, 0x1e140, 0x1e2f0, 0x1e4f0,
    0x1e950, 0x1fbf0]

/-- The value of a character that `\d` matches. -/
def digitValue (c : Char) : Option Nat :=
  digitZeros.findSome? fun z =>
    if z ≤ c.toNat && c.toNat < z + 10 then some (c.toNat - z) else none

def isDigit (c : Char) : Bool := (digitValue c).isSome

/-- `int(s)` for a string of digits. -/
def digitsValue (s : Text) : Nat := s.foldl (fun n c => n * 10 + (digitValue c).getD 0) 0

/-! ## Searching and replacing -/

/-- `s.find(sub)`: the first offset where `sub` occurs. -/
def find (sub : Text) : Text → Option Nat
  | [] => if sub.isEmpty then some 0 else none
  | c :: s => if sub.isPrefixOf (c :: s) then some 0 else (find sub s).map (· + 1)

/-- `s.split(sub)` for a non-empty `sub`: cut at each occurrence found from the
left. Every cut consumes a character, so the length of `s` is fuel enough. -/
def splitFuel (sub : Text) : Nat → Text → List Text
  | 0, s => [s]
  | fuel + 1, s =>
    match find sub s with
    | none => [s]
    | some i => s.take i :: splitFuel sub fuel (s.drop (i + sub.length))

def split (sub s : Text) : List Text := splitFuel sub s.length s

/-- `s.count(sub)` for a non-empty `sub`. -/
def count (sub s : Text) : Nat := (split sub s).length - 1

/-- `s.replace(old, new)` for a non-empty `old`. -/
def replace (old new s : Text) : Text := new.intercalate (split old s)

/-- `s.replace(old, new, 1)`. -/
def replaceOne (old new s : Text) : Text :=
  match find old s with
  | none => s
  | some i => s.take i ++ new ++ s.drop (i + old.length)

/-! ## Text files -/

/-- Universal newlines, on read. -/
def translateNewlines : Text → Text
  | [] => []
  | '\r' :: '\n' :: s => '\n' :: translateNewlines s
  | c :: s => (if c = '\r' then '\n' else c) :: translateNewlines s

/-- `text.encode("utf-8")`. -/
def encodeUtf8 (t : Text) : Bytes := t.flatMap String.utf8EncodeChar

/-- The characters that may open a byte string, one for each length of code,
and what follows them. -/
def firstChars : Bytes → List (Char × Bytes)
  | [] => []
  | [a] => [(Char.ofNat a.toNat, [])]
  | [a, b] =>
    [(Char.ofNat a.toNat, [b]), (Char.ofNat ((a.toNat - 192) * 64 + (b.toNat - 128)), [])]
  | [a, b, c] =>
    [(Char.ofNat a.toNat, [b, c]), (Char.ofNat ((a.toNat - 192) * 64 + (b.toNat - 128)), [c]),
      (Char.ofNat ((a.toNat - 224) * 4096 + (b.toNat - 128) * 64 + (c.toNat - 128)), [])]
  | a :: b :: c :: d :: r =>
    [(Char.ofNat a.toNat, b :: c :: d :: r),
      (Char.ofNat ((a.toNat - 192) * 64 + (b.toNat - 128)), c :: d :: r),
      (Char.ofNat ((a.toNat - 224) * 4096 + (b.toNat - 128) * 64 + (c.toNat - 128)), d :: r),
      (Char.ofNat ((a.toNat - 240) * 262144 + (b.toNat - 128) * 4096 + (c.toNat - 128) * 64
        + (d.toNat - 128)), r)]

/-- The first character of a byte string: the candidate whose code it is. -/
def decodeChar (b : Bytes) : Option (Char × Bytes) :=
  (firstChars b).find? fun (c, r) => decide (String.utf8EncodeChar c ++ r = b)

def decodeFuel : Nat → Bytes → Option Text
  | _, [] => some []
  | 0, _ => none
  | fuel + 1, b => do
    let (c, r) ← decodeChar b
    let t ← decodeFuel fuel r
    return c :: t

/-- `b.decode("utf-8")`, strict: `none` is `UnicodeDecodeError`. -/
def decodeUtf8 (b : Bytes) : Option Text := decodeFuel b.length b

@[simp] theorem encodeUtf8_cons (c : Char) (t : Text) :
    encodeUtf8 (c :: t) = String.utf8EncodeChar c ++ encodeUtf8 t := rfl

theorem encodeUtf8_append (s t : Text) : encodeUtf8 (s ++ t) = encodeUtf8 s ++ encodeUtf8 t :=
  List.flatMap_append ..

theorem decodeChar_sound {b r : Bytes} {c : Char} (h : decodeChar b = some (c, r)) :
    String.utf8EncodeChar c ++ r = b := by
  have := List.find?_some h
  simpa using this

theorem decodeFuel_sound : ∀ (fuel : Nat) {b : Bytes} {t : Text},
    decodeFuel fuel b = some t → encodeUtf8 t = b
  | _, [], t, h => by
    cases fuel_eq : t with
    | nil => rfl
    | cons c t' => subst fuel_eq; simp [decodeFuel] at h
  | 0, _ :: _, _, h => by simp [decodeFuel] at h
  | fuel + 1, a :: b, t, h => by
    simp only [decodeFuel, Option.bind_eq_bind, Option.bind_eq_some_iff] at h
    obtain ⟨⟨c, r⟩, hc, t', ht, hE⟩ := h
    have hE : c :: t' = t := by simpa using hE
    subst hE
    rw [encodeUtf8_cons, decodeFuel_sound fuel ht]
    exact decodeChar_sound hc

/-- What decodes is the code of its text. -/
theorem decodeUtf8_sound {b : Bytes} {t : Text} (h : decodeUtf8 b = some t) :
    encodeUtf8 t = b := decodeFuel_sound _ h

/-- The code of a character, by its length. -/
theorem utf8EncodeChar_cases (c : Char) :
    (c.toNat ≤ 127 ∧ String.utf8EncodeChar c = [UInt8.ofNat c.toNat]) ∨
    (127 < c.toNat ∧ c.toNat ≤ 2047 ∧ String.utf8EncodeChar c =
      [UInt8.ofNat (c.toNat / 64 % 32 + 192), UInt8.ofNat (c.toNat % 64 + 128)]) ∨
    (2047 < c.toNat ∧ c.toNat ≤ 65535 ∧ String.utf8EncodeChar c =
      [UInt8.ofNat (c.toNat / 4096 % 16 + 224), UInt8.ofNat (c.toNat / 64 % 64 + 128),
        UInt8.ofNat (c.toNat % 64 + 128)]) ∨
    (65535 < c.toNat ∧ c.toNat ≤ 1114111 ∧ String.utf8EncodeChar c =
      [UInt8.ofNat (c.toNat / 262144 % 8 + 240), UInt8.ofNat (c.toNat / 4096 % 64 + 128),
        UInt8.ofNat (c.toNat / 64 % 64 + 128), UInt8.ofNat (c.toNat % 64 + 128)]) := by
  have hmax : c.toNat ≤ 1114111 := by
    have h : c.toNat.isValidChar := c.valid
    unfold Nat.isValidChar at h
    omega
  have hn : c.val.toNat = c.toNat := rfl
  unfold String.utf8EncodeChar
  simp only [hn]
  by_cases h1 : c.toNat ≤ 127
  · exact Or.inl ⟨h1, by rw [if_pos h1]⟩
  · by_cases h2 : c.toNat ≤ 2047
    · exact Or.inr (Or.inl ⟨by omega, h2, by rw [if_neg h1, if_pos h2]⟩)
    · by_cases h3 : c.toNat ≤ 65535
      · exact Or.inr (Or.inr (Or.inl ⟨by omega, h3, by rw [if_neg h1, if_neg h2, if_pos h3]⟩))
      · exact Or.inr (Or.inr (Or.inr
          ⟨by omega, hmax, by rw [if_neg h1, if_neg h2, if_neg h3]⟩))

theorem ofNat_toNat_eq {n : Nat} (c : Char) (h : n = c.toNat) : Char.ofNat n = c := by
  rw [h]; exact Char.ofNat_toNat c

/-- No code is the beginning of another. -/
theorem utf8EncodeChar_prefixFree {c c' : Char} {r r' : Bytes}
    (h : String.utf8EncodeChar c ++ r = String.utf8EncodeChar c' ++ r') : c = c' ∧ r = r' := by
  have key : c.toNat = c'.toNat → c = c' := fun e => by
    rw [← ofNat_toNat_eq c rfl, e, ofNat_toNat_eq c' rfl]
  rcases utf8EncodeChar_cases c with ⟨h1, e⟩ | ⟨h1, h2, e⟩ | ⟨h1, h2, e⟩ | ⟨h1, h2, e⟩ <;>
  rcases utf8EncodeChar_cases c' with ⟨h1', e'⟩ | ⟨h1', h2', e'⟩ | ⟨h1', h2', e'⟩ | ⟨h1', h2', e'⟩ <;>
  rw [e, e'] at h <;>
  simp only [List.cons_append, List.nil_append, List.cons.injEq, ← UInt8.toNat_inj,
    UInt8.toNat_ofNat'] at h
  case inl.inl => exact ⟨key (by omega), h.2⟩
  case inr.inl.inr.inl => exact ⟨key (by omega), h.2.2⟩
  case inr.inr.inl.inr.inr.inl => exact ⟨key (by omega), h.2.2.2⟩
  case inr.inr.inr.inr.inr.inr => exact ⟨key (by omega), h.2.2.2.2⟩
  all_goals omega

theorem firstChars_one (a : UInt8) (r : Bytes) :
    (Char.ofNat a.toNat, r) ∈ firstChars (a :: r) := by
  rcases r with _ | ⟨x, _ | ⟨y, _ | ⟨z, r⟩⟩⟩ <;> simp [firstChars]

theorem firstChars_two (a b : UInt8) (r : Bytes) :
    (Char.ofNat ((a.toNat - 192) * 64 + (b.toNat - 128)), r) ∈ firstChars (a :: b :: r) := by
  rcases r with _ | ⟨x, _ | ⟨y, r⟩⟩ <;> simp [firstChars]

theorem firstChars_three (a b c : UInt8) (r : Bytes) :
    (Char.ofNat ((a.toNat - 224) * 4096 + (b.toNat - 128) * 64 + (c.toNat - 128)), r)
      ∈ firstChars (a :: b :: c :: r) := by
  rcases r with _ | ⟨x, r⟩ <;> simp [firstChars]

theorem firstChars_four (a b c d : UInt8) (r : Bytes) :
    (Char.ofNat ((a.toNat - 240) * 262144 + (b.toNat - 128) * 4096 + (c.toNat - 128) * 64
      + (d.toNat - 128)), r) ∈ firstChars (a :: b :: c :: d :: r) := by
  simp [firstChars]

/-- A character is among the candidates for its own code. -/
theorem mem_firstChars (c : Char) (r : Bytes) :
    (c, r) ∈ firstChars (String.utf8EncodeChar c ++ r) := by
  rcases utf8EncodeChar_cases c with ⟨h1, e⟩ | ⟨h1, h2, e⟩ | ⟨h1, h2, e⟩ | ⟨h1, h2, e⟩ <;> rw [e]
  · have h := firstChars_one (UInt8.ofNat c.toNat) r
    rwa [ofNat_toNat_eq c (by simp only [UInt8.toNat_ofNat']; omega)] at h
  · have h := firstChars_two (UInt8.ofNat (c.toNat / 64 % 32 + 192))
      (UInt8.ofNat (c.toNat % 64 + 128)) r
    rwa [ofNat_toNat_eq c (by simp only [UInt8.toNat_ofNat']; omega)] at h
  · have h := firstChars_three (UInt8.ofNat (c.toNat / 4096 % 16 + 224))
      (UInt8.ofNat (c.toNat / 64 % 64 + 128)) (UInt8.ofNat (c.toNat % 64 + 128)) r
    rwa [ofNat_toNat_eq c (by simp only [UInt8.toNat_ofNat']; omega)] at h
  · have h := firstChars_four (UInt8.ofNat (c.toNat / 262144 % 8 + 240))
      (UInt8.ofNat (c.toNat / 4096 % 64 + 128)) (UInt8.ofNat (c.toNat / 64 % 64 + 128))
      (UInt8.ofNat (c.toNat % 64 + 128)) r
    rwa [ofNat_toNat_eq c (by simp only [UInt8.toNat_ofNat']; omega)] at h

theorem decodeChar_encode (c : Char) (r : Bytes) :
    decodeChar (String.utf8EncodeChar c ++ r) = some (c, r) := by
  cases h : decodeChar (String.utf8EncodeChar c ++ r) with
  | none =>
    have := List.find?_eq_none.mp h (c, r) (mem_firstChars c r)
    simp at this
  | some q =>
    obtain ⟨hc, hr⟩ := utf8EncodeChar_prefixFree (decodeChar_sound h)
    rw [← hc, ← hr]

theorem utf8EncodeChar_ne_nil (c : Char) : String.utf8EncodeChar c ≠ [] := by
  rcases utf8EncodeChar_cases c with ⟨_, e⟩ | ⟨_, _, e⟩ | ⟨_, _, e⟩ | ⟨_, _, e⟩ <;> simp [e]

theorem decodeFuel_encode : ∀ (t : Text) (fuel : Nat), (encodeUtf8 t).length ≤ fuel →
    decodeFuel fuel (encodeUtf8 t) = some t
  | [], fuel, _ => by cases fuel <;> rfl
  | c :: t, fuel, h => by
    have hne := utf8EncodeChar_ne_nil c
    have hlen : 0 < (String.utf8EncodeChar c).length := List.length_pos_of_ne_nil hne
    rw [encodeUtf8_cons] at h ⊢
    cases fuel with
    | zero => rw [List.length_append] at h; omega
    | succ fuel =>
      have ht := decodeFuel_encode t fuel (by rw [List.length_append] at h; omega)
      cases hb : String.utf8EncodeChar c ++ encodeUtf8 t with
      | nil => simp [hne] at hb
      | cons a b =>
        simp only [decodeFuel]
        rw [← hb, decodeChar_encode]
        simp [ht]

/-- Decoding undoes encoding, and only codes decode. -/
theorem decodeUtf8_iff {b : Bytes} {t : Text} : decodeUtf8 b = some t ↔ encodeUtf8 t = b :=
  ⟨decodeUtf8_sound, fun h => h ▸ decodeFuel_encode t _ (Nat.le_refl _)⟩

theorem encodeUtf8_injective {s t : Text} (h : encodeUtf8 s = encodeUtf8 t) : s = t :=
  Option.some.inj ((decodeUtf8_iff.mpr h).symm.trans (decodeUtf8_iff.mpr rfl))

end Shamsu.Py
