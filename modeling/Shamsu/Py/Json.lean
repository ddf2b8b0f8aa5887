import Shamsu.Py.Text

/-!
# JSON texts

The reader of Python's `json`, and the texts that it reads a value from. A string is its code
points, since an escape may be one half of a surrogate pair; a number is kept as it is written.

`Laid v t` says that `t` is a text of `v`, with any white space between its tokens and any
spelling of its strings. `scanValue_laid` is that such a text is read as the value, whatever
follows it.
-/

namespace Shamsu.Py

inductive Json where
  | null
  | bool (b : Bool)
  | number (text : Text)
  | string (s : List Nat)
  | array (items : List Json)
  | object (fields : List (List Nat × Json))

/-! ## The reader -/

/-- The white space of JSON. -/
def isJsonSpace (c : Char) : Bool := c == ' ' || c == '\t' || c == '\n' || c == '\r'

def skipSpace (s : Text) : Text := s.dropWhile isJsonSpace

/-- A digit in base 16. -/
def hexValue (c : Char) : Option Nat :=
  let n := c.toNat
  if 48 ≤ n ∧ n ≤ 57 then some (n - 48)
  else if 97 ≤ n ∧ n ≤ 102 then some (n - 87)
  else if 65 ≤ n ∧ n ≤ 70 then some (n - 55)
  else none

/-- `_decode_uXXXX`. -/
def hex4 (a b c d : Char) : Option Nat :=
  match hexValue a, hexValue b, hexValue c, hexValue d with
  | some a, some b, some c, some d => some (((a * 16 + b) * 16 + c) * 16 + d)
  | _, _, _, _ => none

/-- `BACKSLASH`. -/
def backslash : Char → Option Nat
  | '"' => some 34
  | '\\' => some 92
  | '/' => some 47
  | 'b' => some 8
  | 'f' => some 12
  | 'n' => some 10
  | 'r' => some 13
  | 't' => some 9
  | _ => none

/-- `scanstring`, after the opening quote, with the two halves of a pair apart. -/
def scanString : Text → Option (List Nat × Text)
  | [] => none
  | '"' :: t => some ([], t)
  | '\\' :: 'u' :: a :: b :: c :: d :: t =>
    match hex4 a b c d with
    | some n => (scanString t).map fun p => (n :: p.1, p.2)
    | none => none
  | '\\' :: c :: t =>
    match backslash c with
    | some n => (scanString t).map fun p => (n :: p.1, p.2)
    | none => none
  | c :: t =>
    if c.toNat < 32 ∨ c = '\\' then none
    else (scanString t).map fun p => (c.toNat :: p.1, p.2)

/-- The pairs put together. -/
def joinSurrogates : List Nat → List Nat
  | high :: low :: t =>
    if 0xd800 ≤ high ∧ high ≤ 0xdbff ∧ 0xdc00 ≤ low ∧ low ≤ 0xdfff then
      (0x10000 + (high - 0xd800) * 0x400 + (low - 0xdc00)) :: joinSurrogates t
    else high :: joinSurrogates (low :: t)
  | t => t

def isAsciiDigit (c : Char) : Bool := 48 ≤ c.toNat && c.toNat ≤ 57

/-- The parts of `NUMBER_RE`, each with what is left. -/
def scanMinus : Text → Text × Text
  | '-' :: t => (['-'], t)
  | t => ([], t)

def scanInt : Text → Option (Text × Text)
  | '0' :: t => some (['0'], t)
  | c :: t =>
    if isAsciiDigit c then some (c :: t.takeWhile isAsciiDigit, t.dropWhile isAsciiDigit) else none
  | [] => none

def scanFrac (s : Text) : Text × Text :=
  match s with
  | '.' :: t =>
    if t.takeWhile isAsciiDigit = [] then ([], s)
    else ('.' :: t.takeWhile isAsciiDigit, t.dropWhile isAsciiDigit)
  | _ => ([], s)

def scanSign : Text → Text × Text
  | '+' :: t => (['+'], t)
  | '-' :: t => (['-'], t)
  | t => ([], t)

def scanExp (s : Text) : Text × Text :=
  match s with
  | [] => ([], s)
  | e :: t =>
    if e = 'e' ∨ e = 'E' then
      if (scanSign t).2.takeWhile isAsciiDigit = [] then ([], s)
      else (e :: (scanSign t).1 ++ (scanSign t).2.takeWhile isAsciiDigit,
        (scanSign t).2.dropWhile isAsciiDigit)
    else ([], s)

/-- A number. -/
def scanNumber (s : Text) : Option (Json × Text) :=
  (scanInt (scanMinus s).2).map fun int =>
    let frac := scanFrac int.2
    let exp := scanExp frac.2
    (.number ((scanMinus s).1 ++ int.1 ++ frac.1 ++ exp.1), exp.2)

/-- The constants, with those that only Python has. -/
def constants : List (Text × Json) :=
  [("null".toList, .null), ("true".toList, .bool true), ("false".toList, .bool false),
    ("NaN".toList, .number "NaN".toList), ("Infinity".toList, .number "Infinity".toList),
    ("-Infinity".toList, .number "-Infinity".toList)]

def scanAtom (s : Text) : Option (Json × Text) :=
  match constants.find? fun p => p.1.isPrefixOf s with
  | some p => some (p.2, s.drop p.1.length)
  | none => scanNumber s

/-- `d[key] = v`. -/
def setItem (key : List Nat) (v : Json) : List (List Nat × Json) → List (List Nat × Json)
  | [] => [(key, v)]
  | p :: fields => if p.1 = key then (key, v) :: fields else p :: setItem key v fields

/-- The `dict` of some pairs. -/
def dictOf (pairs : List (List Nat × Json)) : List (List Nat × Json) :=
  pairs.foldl (fun fields p => setItem p.1 p.2 fields) []

/-- A key with its colon. -/
def scanKey : Text → Option (List Nat × Text)
  | '"' :: t =>
    match scanString t with
    | none => none
    | some (key, t) =>
      match skipSpace t with
      | ':' :: t => some (joinSurrogates key, skipSpace t)
      | _ => none
  | _ => none

mutual

/-- `scan_once`. -/
def scanValue : Nat → Text → Option (Json × Text)
  | 0, _ => none
  | fuel + 1, s =>
    match s with
    | '"' :: t => (scanString t).map fun p => (.string (joinSurrogates p.1), p.2)
    | '{' :: t =>
      match skipSpace t with
      | '}' :: t => some (.object [], t)
      | t => (scanFields fuel t).map fun p => (.object (dictOf p.1), p.2)
    | '[' :: t =>
      match skipSpace t with
      | ']' :: t => some (.array [], t)
      | t => (scanItems fuel t).map fun p => (.array p.1, p.2)
    | s => scanAtom s

/-- The loop of `JSONArray`, at an item. -/
def scanItems : Nat → Text → Option (List Json × Text)
  | 0, _ => none
  | fuel + 1, s =>
    match scanValue fuel s with
    | none => none
    | some (v, t) =>
      match skipSpace t with
      | ']' :: t => some ([v], t)
      | ',' :: t => (scanItems fuel (skipSpace t)).map fun p => (v :: p.1, p.2)
      | _ => none

/-- The loop of `JSONObject`, at a key. -/
def scanFields : Nat → Text → Option (List (List Nat × Json) × Text)
  | 0, _ => none
  | fuel + 1, s =>
    match scanKey s with
    | none => none
    | some (key, t) =>
      match scanValue fuel t with
      | none => none
      | some (v, t) =>
        match skipSpace t with
        | '}' :: t => some ([(key, v)], t)
        | ',' :: t => (scanFields fuel (skipSpace t)).map fun p => ((key, v) :: p.1, p.2)
        | _ => none

end

/-! ## The texts of a value -/

/-- White space of JSON. -/
def IsSpace (t : Text) : Prop := ∀ c ∈ t, isJsonSpace c = true

/-- The characters that spell a string, and its code points with the halves of a pair apart. -/
inductive Spelled : Text → List Nat → Prop
  | nil : Spelled [] []
  | plain {c : Char} {t : Text} {s : List Nat} (hc : 32 ≤ c.toNat) (hquote : c ≠ '"')
      (hslash : c ≠ '\\') (h : Spelled t s) : Spelled (c :: t) (c.toNat :: s)
  | escape {c : Char} {n : Nat} {t : Text} {s : List Nat} (hc : backslash c = some n)
      (h : Spelled t s) : Spelled ('\\' :: c :: t) (n :: s)
  | code {a b c d : Char} {n : Nat} {t : Text} {s : List Nat} (hn : hex4 a b c d = some n)
      (h : Spelled t s) : Spelled ('\\' :: 'u' :: a :: b :: c :: d :: t) (n :: s)

/-- Some digits. -/
def IsDigits (t : Text) : Prop := t ≠ [] ∧ ∀ c ∈ t, isAsciiDigit c = true

inductive IntText : Text → Prop
  | zero : IntText ['0']
  | digits {c : Char} {t : Text} (hc : c ≠ '0') (h : IsDigits (c :: t)) : IntText (c :: t)

inductive FracText : Text → Prop
  | none : FracText []
  | some {t : Text} (h : IsDigits t) : FracText ('.' :: t)

inductive ExpText : Text → Prop
  | none : ExpText []
  | some {e : Char} {sign t : Text} (he : e = 'e' ∨ e = 'E')
      (hsign : sign = [] ∨ sign = ['+'] ∨ sign = ['-']) (h : IsDigits t) :
      ExpText (e :: (sign ++ t))

/-- A number, as JSON writes it. -/
inductive NumberText : Text → Prop
  | mk {sign int frac exp : Text} (hsign : sign = [] ∨ sign = ['-']) (hint : IntText int)
      (hfrac : FracText frac) (hexp : ExpText exp) : NumberText (sign ++ int ++ frac ++ exp)

/-- A key and its colon, with the white space around them. -/
inductive KeyLaid : List Nat → Text → Prop
  | mk {s : List Nat} {before t after next : Text} (hbefore : IsSpace before) (h : Spelled t s)
      (hafter : IsSpace after) (hnext : IsSpace next) :
      KeyLaid (joinSurrogates s) (before ++ '"' :: (t ++ '"' :: (after ++ ':' :: next)))

mutual

/-- A text of a value, from its first character to its last. -/
inductive Laid : Json → Text → Prop
  | constant {p : Text × Json} (h : p ∈ constants) : Laid p.2 p.1
  | number {t : Text} (h : NumberText t) : Laid (.number t) t
  | string {t : Text} {s : List Nat} (h : Spelled t s) :
      Laid (.string (joinSurrogates s)) ('"' :: (t ++ ['"']))
  | emptyArray {space : Text} (h : IsSpace space) : Laid (.array []) ('[' :: (space ++ [']']))
  | array {items : List Json} {t : Text} (h : ItemsLaid items t) : Laid (.array items) ('[' :: t)
  | emptyObject {space : Text} (h : IsSpace space) :
      Laid (.object []) ('{' :: (space ++ ['}']))
  | object {fields : List (List Nat × Json)} {t : Text} (h : FieldsLaid fields t)
      (hkeys : (fields.map Prod.fst).Nodup) : Laid (.object fields) ('{' :: t)

/-- Items with the commas between them, to the bracket. -/
inductive ItemsLaid : List Json → Text → Prop
  | last {v : Json} {before t after : Text} (hbefore : IsSpace before) (h : Laid v t)
      (hafter : IsSpace after) : ItemsLaid [v] (before ++ (t ++ (after ++ [']'])))
  | cons {v : Json} {items : List Json} {before t after rest : Text} (hbefore : IsSpace before)
      (h : Laid v t) (hafter : IsSpace after) (hrest : ItemsLaid items rest) :
      ItemsLaid (v :: items) (before ++ (t ++ (after ++ ',' :: rest)))

/-- Fields with the commas between them, to the brace. -/
inductive FieldsLaid : List (List Nat × Json) → Text → Prop
  | last {key : List Nat} {v : Json} {k t after : Text} (hkey : KeyLaid key k) (h : Laid v t)
      (hafter : IsSpace after) : FieldsLaid [(key, v)] (k ++ (t ++ (after ++ ['}'])))
  | cons {key : List Nat} {v : Json} {fields : List (List Nat × Json)} {k t after rest : Text}
      (hkey : KeyLaid key k) (h : Laid v t) (hafter : IsSpace after)
      (hrest : FieldsLaid fields rest) :
      FieldsLaid ((key, v) :: fields) (k ++ (t ++ (after ++ ',' :: rest)))

end

/-- A number ends here. -/
def Ends (rest : Text) : Prop :=
  ∀ c ∈ rest.head?, isAsciiDigit c = false ∧ c ≠ '.' ∧ c ≠ 'e' ∧ c ≠ 'E'

/-! ## What is read -/

theorem skipSpace_space {space : Text} (h : IsSpace space) (rest : Text) :
    skipSpace (space ++ rest) = skipSpace rest := List.dropWhile_append_of_pos h

theorem skipSpace_cons {c : Char} (hc : isJsonSpace c = false) (rest : Text) :
    skipSpace (c :: rest) = c :: rest := List.dropWhile_cons_of_neg (by rw [hc]; decide)

/-- White space is skipped to the character that ends it. -/
theorem skipSpace_to {space : Text} {c : Char} (h : IsSpace space) (hc : isJsonSpace c = false)
    (rest : Text) : skipSpace (space ++ c :: rest) = c :: rest := by
  rw [skipSpace_space h, skipSpace_cons hc]

theorem scanString_spelled {t : Text} {s : List Nat} (h : Spelled t s) (rest : Text) :
    scanString (t ++ '"' :: rest) = some (s, rest) := by
  induction h with
  | nil => rfl
  | @plain c t s hc hquote hslash _ ih =>
    show scanString (c :: (t ++ '"' :: rest)) = _
    rw [scanString, if_neg (by simp [hslash]; omega), ih]
    · rfl
    · exact hquote
    · intro a b c' d t' heq
      exact absurd heq hslash
    · intro c' t' heq
      exact absurd heq hslash
  | @escape c n t s hc _ ih =>
    have hu : c ≠ 'u' := by
      intro he
      subst he
      cases hc
    show scanString ('\\' :: c :: (t ++ '"' :: rest)) = _
    rw [scanString, hc, ih]
    · rfl
    · intro a b c' d t' heq
      exact absurd heq hu
  | @code a b c d n t s hn _ ih =>
    show scanString ('\\' :: 'u' :: a :: b :: c :: d :: (t ++ '"' :: rest)) = _
    rw [scanString, hn, ih]
    rfl

/-- Digits are taken to the last. -/
theorem takeWhile_digits {t rest : Text} (h : ∀ c ∈ t, isAsciiDigit c = true)
    (hrest : ∀ c ∈ rest.head?, isAsciiDigit c = false) :
    (t ++ rest).takeWhile isAsciiDigit = t ∧ (t ++ rest).dropWhile isAsciiDigit = rest := by
  rw [List.takeWhile_append_of_pos h, List.dropWhile_append_of_pos h]
  cases rest with
  | nil => exact ⟨List.append_nil t, rfl⟩
  | cons c rest =>
    have hc := hrest c rfl
    rw [List.takeWhile_cons_of_neg (by rw [hc]; decide),
      List.dropWhile_cons_of_neg (by rw [hc]; decide)]
    exact ⟨List.append_nil t, rfl⟩

theorem isDigits_cons {t : Text} (h : IsDigits t) : ∃ c u, t = c :: u ∧ isAsciiDigit c = true := by
  obtain ⟨hne, hall⟩ := h
  cases t with
  | nil => exact absurd rfl hne
  | cons c u => exact ⟨c, u, rfl, hall c List.mem_cons_self⟩

theorem scanInt_text {int rest : Text} (h : IntText int)
    (hrest : ∀ c ∈ rest.head?, isAsciiDigit c = false) :
    scanInt (int ++ rest) = some (int, rest) := by
  cases h with
  | zero => rfl
  | @digits c t hc h =>
    obtain ⟨htake, hdrop⟩ := takeWhile_digits (fun d hd => h.2 d (List.mem_cons_of_mem c hd)) hrest
    show scanInt (c :: (t ++ rest)) = _
    rw [scanInt, if_pos (h.2 c List.mem_cons_self), htake, hdrop]
    exact fun heq => absurd heq hc

theorem scanExp_text {exp rest : Text} (h : ExpText exp) (hrest : Ends rest) :
    scanExp (exp ++ rest) = (exp, rest) := by
  cases h with
  | none =>
    cases rest with
    | nil => rfl
    | cons c rest =>
      have hc := hrest c rfl
      exact if_neg fun he => he.elim hc.2.2.1 hc.2.2.2
  | @some e sign t he hsign h =>
    obtain ⟨htake, hdrop⟩ := takeWhile_digits h.2 fun c hc => (hrest c hc).1
    have hscan : scanSign (sign ++ (t ++ rest)) = (sign, t ++ rest) := by
      obtain ⟨c, u, rfl, hc⟩ := isDigits_cons h
      rcases hsign with rfl | rfl | rfl
      · show scanSign (c :: (u ++ rest)) = _
        rw [scanSign]
        · rfl
        · intro v heq
          cases heq
          cases hc
        · intro v heq
          cases heq
          cases hc
      · rfl
      · rfl
    show scanExp (e :: ((sign ++ t) ++ rest)) = _
    rw [List.append_assoc]
    unfold scanExp
    dsimp only
    rw [if_pos he, hscan]
    dsimp only
    rw [htake, hdrop, if_neg h.1]
    rfl

theorem head_exp {exp rest : Text} (h : ExpText exp) (hrest : Ends rest) :
    ∀ c ∈ (exp ++ rest).head?, isAsciiDigit c = false ∧ c ≠ '.' := by
  cases h with
  | none => exact fun c hc => ⟨(hrest c hc).1, (hrest c hc).2.1⟩
  | some he =>
    intro c hc
    cases hc
    rcases he with rfl | rfl <;> decide

theorem scanFrac_text {frac rest : Text} (h : FracText frac)
    (hrest : ∀ c ∈ rest.head?, isAsciiDigit c = false ∧ c ≠ '.') :
    scanFrac (frac ++ rest) = (frac, rest) := by
  cases h with
  | none =>
    cases rest with
    | nil => rfl
    | cons c rest =>
      show scanFrac (c :: rest) = _
      unfold scanFrac
      split
      next heq =>
        cases heq
        exact absurd rfl (hrest _ rfl).2
      · rfl
  | @some t h =>
    obtain ⟨htake, hdrop⟩ := takeWhile_digits h.2 fun c hc => (hrest c hc).1
    show (if (t ++ rest).takeWhile isAsciiDigit = [] then ([], '.' :: (t ++ rest))
      else ('.' :: (t ++ rest).takeWhile isAsciiDigit, (t ++ rest).dropWhile isAsciiDigit)) = _
    rw [htake, hdrop, if_neg h.1]

theorem head_frac {frac rest : Text} (h : FracText frac)
    (hrest : ∀ c ∈ rest.head?, isAsciiDigit c = false ∧ c ≠ '.') :
    ∀ c ∈ (frac ++ rest).head?, isAsciiDigit c = false := by
  cases h with
  | none => exact fun c hc => (hrest c hc).1
  | some h =>
    intro c hc
    cases hc
    rfl

/-- A number begins with its sign or with a digit. -/
theorem intText_cons {int : Text} (h : IntText int) :
    ∃ c t, int = c :: t ∧ isAsciiDigit c = true := by
  cases h with
  | zero => exact ⟨_, _, rfl, rfl⟩
  | digits hc h => exact ⟨_, _, rfl, h.2 _ List.mem_cons_self⟩

theorem scanNumber_text {t rest : Text} (h : NumberText t) (hrest : Ends rest) :
    scanNumber (t ++ rest) = some (.number t, rest) := by
  obtain ⟨hsign, hint, hfrac, hexp⟩ := h
  rename_i sign int frac exp
  have hhead := head_exp hexp hrest
  have hminus : scanMinus (sign ++ (int ++ (frac ++ (exp ++ rest)))) =
      (sign, int ++ (frac ++ (exp ++ rest))) := by
    rcases hsign with rfl | rfl
    · obtain ⟨c, u, rfl, hc⟩ := intText_cons hint
      show scanMinus (c :: (u ++ (frac ++ (exp ++ rest)))) = _
      rw [scanMinus]
      · rfl
      · intro t heq
        cases heq
        cases hc
    · rfl
  rw [List.append_assoc, List.append_assoc, List.append_assoc]
  unfold scanNumber
  rw [hminus, scanInt_text hint (head_frac hfrac hhead)]
  dsimp only [Option.map_some]
  rw [scanFrac_text hfrac hhead, scanExp_text hexp hrest]

/-- A number is none of the constants, and no string, array or object. -/
theorem numberText_cons {t : Text} (h : NumberText t) : ∃ c u, t = c :: u ∧
    (isAsciiDigit c = true ∨ c = '-' ∧ ∃ d v, u = d :: v ∧ isAsciiDigit d = true) := by
  obtain ⟨hsign, hint, hfrac, hexp⟩ := h
  rename_i sign int frac exp
  obtain ⟨c, u, rfl, hc⟩ := intText_cons hint
  rcases hsign with rfl | rfl
  · exact ⟨c, _, rfl, Or.inl hc⟩
  · exact ⟨'-', _, rfl, Or.inr ⟨rfl, c, _, rfl, hc⟩⟩

/-- A number begins with nothing but a digit or its sign. -/
theorem numberText_head {t : Text} (h : NumberText t) : ∃ c u, t = c :: u ∧
    ∀ x : Char, isAsciiDigit x = false → x ≠ '-' → c ≠ x := by
  obtain ⟨c, u, rfl, hc⟩ := numberText_cons h
  refine ⟨c, u, rfl, ?_⟩
  intro x hx hminus heq
  subst heq
  rcases hc with hc | ⟨hc, _⟩
  · rw [hx] at hc
    cases hc
  · exact hminus hc

/-- What the constants begin with: no digit, no white space, no bracket and no quote. -/
theorem constants_cons {p : Text × Json} (h : p ∈ constants) : ∃ c u, p.1 = c :: u ∧
    isAsciiDigit c = false ∧ isJsonSpace c = false ∧ c ≠ ']' ∧ c ≠ '}' ∧ c ≠ '"' ∧ c ≠ '{' ∧
      c ≠ '[' := by
  simp only [constants, List.mem_cons, List.not_mem_nil, or_false] at h
  rcases h with rfl | rfl | rfl | rfl | rfl | rfl <;> exact ⟨_, _, rfl, by decide⟩

theorem scanAtom_number {t rest : Text} (h : NumberText t) (hrest : Ends rest) :
    scanAtom (t ++ rest) = some (.number t, rest) := by
  have hnone : (constants.find? fun p => p.1.isPrefixOf (t ++ rest)) = none := by
    obtain ⟨c, u, rfl, hc⟩ := numberText_cons h
    rcases hc with hc | ⟨rfl, d, v, rfl, hd⟩
    · refine List.find?_eq_none.mpr fun p hp hprefix => ?_
      obtain ⟨w, hw⟩ := List.isPrefixOf_iff_prefix.mp hprefix
      obtain ⟨x, xs, hhead, hx, _⟩ := constants_cons hp
      rw [hhead] at hw
      rw [(List.cons.inj hw).1, hc] at hx
      cases hx
    · have hI : ('I' == d) = false := by
        rw [beq_eq_false_iff_ne]
        intro heq
        subst heq
        cases hd
      simp [constants, List.isPrefixOf, hI]
  unfold scanAtom
  rw [hnone]
  exact scanNumber_text h hrest

theorem scanAtom_constant {p : Text × Json} (h : p ∈ constants) (rest : Text) :
    scanAtom (p.1 ++ rest) = some (p.2, rest) := by
  simp only [constants, List.mem_cons, List.not_mem_nil, or_false] at h
  rcases h with rfl | rfl | rfl | rfl | rfl | rfl <;> rfl

theorem scanValue_atom {c : Char} (hquote : c ≠ '"') (hbrace : c ≠ '{') (hbracket : c ≠ '[')
    (fuel : Nat) (t : Text) : scanValue (fuel + 1) (c :: t) = scanAtom (c :: t) := by
  rw [scanValue]
  · exact fun u heq => absurd (List.cons.inj heq).1 hquote
  · exact fun u heq => absurd (List.cons.inj heq).1 hbrace
  · exact fun u heq => absurd (List.cons.inj heq).1 hbracket

/-- What a value begins with. -/
theorem laid_cons {v : Json} {t : Text} (h : Laid v t) :
    ∃ c u, t = c :: u ∧ isJsonSpace c = false ∧ c ≠ ']' ∧ c ≠ '}' := by
  cases h with
  | constant h =>
    obtain ⟨c, u, hu, _, hspace, hbracket, hbrace, _⟩ := constants_cons h
    exact ⟨c, u, hu, hspace, hbracket, hbrace⟩
  | number h =>
    obtain ⟨c, u, rfl, hnot⟩ := numberText_head h
    refine ⟨c, u, rfl, ?_, hnot ']' rfl (by decide), hnot '}' rfl (by decide)⟩
    unfold isJsonSpace
    simp [hnot ' ' rfl (by decide), hnot '\t' rfl (by decide), hnot '\n' rfl (by decide),
      hnot '\r' rfl (by decide)]
  | string => exact ⟨_, _, rfl, rfl, by decide, by decide⟩
  | emptyArray => exact ⟨_, _, rfl, rfl, by decide, by decide⟩
  | array => exact ⟨_, _, rfl, rfl, by decide, by decide⟩
  | emptyObject => exact ⟨_, _, rfl, rfl, by decide, by decide⟩
  | object => exact ⟨_, _, rfl, rfl, by decide, by decide⟩

theorem skipSpace_laid {v : Json} {t : Text} (h : Laid v t) (rest : Text) :
    skipSpace (t ++ rest) = t ++ rest := by
  obtain ⟨c, u, rfl, hc, _⟩ := laid_cons h
  exact skipSpace_cons hc _

theorem itemsLaid_cons {items : List Json} {t : Text} (h : ItemsLaid items t) (rest : Text) :
    ∃ c u, skipSpace (t ++ rest) = c :: u ∧ c ≠ ']' := by
  cases h with
  | last hbefore h hafter =>
    obtain ⟨c, u, rfl, hc, hne, _⟩ := laid_cons h
    rw [List.append_assoc, skipSpace_space hbefore]
    exact ⟨c, _, skipSpace_cons hc _, hne⟩
  | cons hbefore h hafter hrest =>
    obtain ⟨c, u, rfl, hc, hne, _⟩ := laid_cons h
    rw [List.append_assoc, skipSpace_space hbefore]
    exact ⟨c, _, skipSpace_cons hc _, hne⟩

theorem keyLaid_quote {key : List Nat} {k : Text} (h : KeyLaid key k) (rest : Text) :
    ∃ u, skipSpace (k ++ rest) = '"' :: u := by
  cases h with
  | mk hbefore h hafter hnext =>
    rw [List.append_assoc, skipSpace_space hbefore]
    exact ⟨_, skipSpace_cons rfl _⟩

theorem fieldsLaid_quote {fields : List (List Nat × Json)} {t : Text} (h : FieldsLaid fields t)
    (rest : Text) : ∃ u, skipSpace (t ++ rest) = '"' :: u := by
  cases h with
  | last hkey h hafter =>
    rw [List.append_assoc]
    exact keyLaid_quote hkey _
  | cons hkey h hafter hrest =>
    rw [List.append_assoc]
    exact keyLaid_quote hkey _

theorem scanKey_laid {key : List Nat} {k : Text} (h : KeyLaid key k) (rest : Text) :
    scanKey (skipSpace (k ++ rest)) = some (key, skipSpace rest) := by
  cases h with
  | @mk s before t after next hbefore h hafter hnext =>
    have hkey : skipSpace (before ++ '"' :: (t ++ '"' :: (after ++ ':' :: next)) ++ rest) =
        '"' :: (t ++ '"' :: (after ++ ':' :: (next ++ rest))) := by
      rw [List.append_assoc, skipSpace_space hbefore]
      simp only [List.cons_append, List.append_assoc]
      exact skipSpace_cons rfl _
    have hcolon := skipSpace_to (c := ':') hafter rfl (next ++ rest)
    rw [hkey, scanKey, scanString_spelled h]
    simp only [hcolon, skipSpace_space hnext]

/-- What comes after an item or a field ends a number. -/
theorem ends_after {after : Text} {c : Char} (rest : Text) (hafter : IsSpace after)
    (hc : c = ',' ∨ c = ']' ∨ c = '}') : Ends (after ++ c :: rest) := by
  intro x hx
  cases after with
  | nil =>
    cases hx
    rcases hc with rfl | rfl | rfl <;> decide
  | cons y ys =>
    cases hx
    have hy := hafter x List.mem_cons_self
    simp only [isJsonSpace, Bool.or_eq_true, beq_iff_eq] at hy
    rcases hy with ((rfl | rfl) | rfl) | rfl <;> decide

theorem ends_nil : Ends [] := fun _ hc => by cases hc

theorem setItem_new {key : List Nat} {v : Json} {fields : List (List Nat × Json)}
    (h : key ∉ fields.map Prod.fst) : setItem key v fields = fields ++ [(key, v)] := by
  induction fields with
  | nil => rfl
  | cons p fields ih =>
    rw [List.map_cons, List.mem_cons, not_or] at h
    rw [setItem, if_neg fun heq => h.1 heq.symm, ih h.2]
    rfl

/-- Pairs with keys of their own are the items of their dictionary. -/
theorem dictOf_nodup {fields : List (List Nat × Json)} (h : (fields.map Prod.fst).Nodup) :
    dictOf fields = fields := by
  have hfold : ∀ before : List (List Nat × Json), ((before ++ fields).map Prod.fst).Nodup →
      fields.foldl (fun fields p => setItem p.1 p.2 fields) before = before ++ fields := by
    clear h
    induction fields with
    | nil => exact fun before _ => (List.append_nil before).symm
    | cons p fields ih =>
      intro before h
      have hnew : p.1 ∉ before.map Prod.fst := by
        rw [List.map_append, List.map_cons] at h
        intro hmem
        exact (List.nodup_append.mp h).2.2 _ hmem _ List.mem_cons_self rfl
      rw [List.foldl_cons, setItem_new hnew, ih]
      · rw [List.append_assoc]
        rfl
      · rw [List.append_assoc]
        exact h
  exact hfold [] h

/-- **A text is read as its value**, whatever comes after it: of a value, of items and of fields,
by induction on the fuel. -/
theorem scan_laid (n : Nat) :
    (∀ {v t} (rest : Text), Laid v t → t.length ≤ n → Ends rest →
      scanValue n (t ++ rest) = some (v, rest)) ∧
    (∀ {items t} (rest : Text), ItemsLaid items t → t.length ≤ n →
      scanItems n (skipSpace (t ++ rest)) = some (items, rest)) ∧
    (∀ {fields t} (rest : Text), FieldsLaid fields t → t.length ≤ n →
      scanFields n (skipSpace (t ++ rest)) = some (fields, rest)) := by
  induction n with
  | zero =>
    refine ⟨fun rest h hlen => ?_, fun rest h hlen => ?_, fun rest h hlen => ?_⟩
    · obtain ⟨c, u, rfl, _⟩ := laid_cons h
      exact absurd hlen (by simp)
    · cases h <;> exact absurd hlen (by simp)
    · cases h <;> exact absurd hlen (by simp)
  | succ n ih =>
    obtain ⟨ihValue, ihItems, ihFields⟩ := ih
    refine ⟨fun rest h hlen hends => ?_, fun rest h hlen => ?_, fun rest h hlen => ?_⟩
    · cases h with
      | constant h =>
        obtain ⟨c, u, hu, _, _, _, _, hquote, hbrace, hbracket⟩ := constants_cons h
        have hatom := scanAtom_constant h rest
        rw [hu] at hatom ⊢
        rw [← hatom]
        exact scanValue_atom hquote hbrace hbracket n _
      | number h =>
        have hatom := scanAtom_number h hends
        obtain ⟨c, u, rfl, hnot⟩ := numberText_head h
        rw [← hatom]
        exact scanValue_atom (hnot _ rfl (by decide)) (hnot _ rfl (by decide))
          (hnot _ rfl (by decide)) n _
      | @string t s h =>
        have htext : '"' :: (t ++ ['"']) ++ rest = '"' :: (t ++ '"' :: rest) := by simp
        rw [htext, scanValue, scanString_spelled h]
        rfl
      | @emptyArray space h =>
        have hskip : skipSpace (space ++ [']'] ++ rest) = ']' :: rest := by
          rw [List.append_assoc]
          exact skipSpace_to h rfl rest
        show scanValue (n + 1) ('[' :: (space ++ [']'] ++ rest)) = _
        rw [scanValue, hskip]
        rfl
      | @array items t h =>
        have hread := ihItems rest h (Nat.le_of_succ_le_succ hlen)
        obtain ⟨c, u, hskip, hne⟩ := itemsLaid_cons h rest
        show scanValue (n + 1) ('[' :: (t ++ rest)) = _
        rw [scanValue]
        rw [hskip] at hread ⊢
        split
        next heq => exact absurd (List.cons.inj heq).1 hne
        next => rw [hread]; rfl
      | @emptyObject space h =>
        have hskip : skipSpace (space ++ ['}'] ++ rest) = '}' :: rest := by
          rw [List.append_assoc]
          exact skipSpace_to h rfl rest
        show scanValue (n + 1) ('{' :: (space ++ ['}'] ++ rest)) = _
        rw [scanValue, hskip]
        rfl
      | @object fields t h hkeys =>
        have hread := ihFields rest h (Nat.le_of_succ_le_succ hlen)
        obtain ⟨u, hskip⟩ := fieldsLaid_quote h rest
        show scanValue (n + 1) ('{' :: (t ++ rest)) = _
        rw [scanValue]
        rw [hskip] at hread ⊢
        show (scanFields n ('"' :: u)).map (fun p => (Json.object (dictOf p.1), p.2)) = _
        rw [hread]
        show some (Json.object (dictOf fields), rest) = _
        rw [dictOf_nodup hkeys]
    · cases h with
      | @last v before t after hbefore h hafter =>
        have hlen' : t.length ≤ n := by
          simp only [List.length_append, List.length_cons] at hlen
          omega
        have hread := ihValue _ h hlen' (ends_after rest hafter (Or.inr (Or.inl rfl)))
        have htext : skipSpace (before ++ (t ++ (after ++ [']'])) ++ rest) =
            t ++ (after ++ ']' :: rest) := by
          rw [List.append_assoc, skipSpace_space hbefore]
          simp only [List.append_assoc, List.singleton_append, skipSpace_laid h]
        have hskip := skipSpace_to (c := ']') hafter rfl rest
        rw [htext, scanItems, hread]
        simp only [hskip]
      | @cons v items before t after more hbefore h hafter hmore =>
        have hlen' : t.length ≤ n ∧ more.length ≤ n := by
          simp only [List.length_append, List.length_cons] at hlen
          omega
        have hread := ihValue _ h hlen'.1
          (ends_after (more ++ rest) hafter (Or.inl rfl))
        have htext : skipSpace (before ++ (t ++ (after ++ ',' :: more)) ++ rest) =
            t ++ (after ++ ',' :: (more ++ rest)) := by
          rw [List.append_assoc, skipSpace_space hbefore]
          simp only [List.append_assoc, List.cons_append, skipSpace_laid h]
        have hskip := skipSpace_to (c := ',') hafter rfl (more ++ rest)
        rw [htext, scanItems, hread]
        simp only [hskip, ihItems rest hmore hlen'.2, Option.map_some]
    · cases h with
      | @last key v k t after hkey h hafter =>
        have hlen' : t.length ≤ n := by
          simp only [List.length_append, List.length_cons] at hlen
          omega
        have hread := ihValue _ h hlen' (ends_after rest hafter (Or.inr (Or.inr rfl)))
        have htext : k ++ (t ++ (after ++ ['}'])) ++ rest = k ++ (t ++ (after ++ '}' :: rest)) := by
          simp only [List.append_assoc, List.singleton_append]
        have hskip := skipSpace_to (c := '}') hafter rfl rest
        rw [htext, scanFields, scanKey_laid hkey]
        simp only [skipSpace_laid h, hread, hskip]
      | @cons key v fields k t after more hkey h hafter hmore =>
        have hlen' : t.length ≤ n ∧ more.length ≤ n := by
          simp only [List.length_append, List.length_cons] at hlen
          omega
        have hread := ihValue _ h hlen'.1
          (ends_after (more ++ rest) hafter (Or.inl rfl))
        have htext : k ++ (t ++ (after ++ ',' :: more)) ++ rest =
            k ++ (t ++ (after ++ ',' :: (more ++ rest))) := by
          simp only [List.append_assoc, List.cons_append]
        have hskip := skipSpace_to (c := ',') hafter rfl (more ++ rest)
        rw [htext, scanFields, scanKey_laid hkey]
        simp only [skipSpace_laid h, hread, hskip, ihFields rest hmore hlen'.2, Option.map_some]

theorem scanValue_laid {v : Json} {t rest : Text} (h : Laid v t) (hends : Ends rest) :
    scanValue (t ++ rest).length (t ++ rest) = some (v, rest) :=
  (scan_laid _).1 rest h (by rw [List.length_append]; omega) hends

/-! ## A file of it -/

theorem translateNewlines_cons {c : Char} (hc : c ≠ '\r') (rest : Text) :
    translateNewlines (c :: rest) = c :: translateNewlines rest := by
  rw [translateNewlines, if_neg hc]
  intro t heq
  subst heq
  exact fun _ => hc rfl

theorem translateNewlines_plain {t : Text} (h : '\r' ∉ t) (rest : Text) :
    translateNewlines (t ++ rest) = t ++ translateNewlines rest := by
  induction t with
  | nil => rfl
  | cons c t ih =>
    have hc : c ≠ '\r' := fun heq => h (heq ▸ List.mem_cons_self)
    rw [List.cons_append, translateNewlines_cons hc, ih fun hmem => h (List.mem_cons_of_mem c hmem)]
    rfl

/-- White space stays white space, if it does not end in the middle of a line break. -/
theorem translateNewlines_space {space : Text} (rest : Text) (hrest : rest.head? ≠ some '\n')
    (h : IsSpace space) : ∃ space', IsSpace space' ∧
      translateNewlines (space ++ rest) = space' ++ translateNewlines rest := by
  induction space using translateNewlines.induct with
  | case1 => exact ⟨[], h, rfl⟩
  | case2 space ih =>
    obtain ⟨space', hspace', heq⟩ := ih fun c hc =>
      h c (List.mem_cons_of_mem _ (List.mem_cons_of_mem _ hc))
    refine ⟨'\n' :: space', List.forall_mem_cons.mpr ⟨rfl, hspace'⟩, ?_⟩
    show '\n' :: translateNewlines (space ++ rest) = _
    rw [heq]
    rfl
  | case3 c space hbreak ih =>
    obtain ⟨space', hspace', heq⟩ := ih fun d hd => h d (List.mem_cons_of_mem c hd)
    have hc : isJsonSpace (if c = '\r' then '\n' else c) = true := by
      split
      · rfl
      · exact h c List.mem_cons_self
    refine ⟨(if c = '\r' then '\n' else c) :: space', List.forall_mem_cons.mpr ⟨hc, hspace'⟩, ?_⟩
    rw [List.cons_append, translateNewlines, heq]
    · rfl
    · intro t he ht
      subst he
      cases space with
      | nil => exact hrest (by rw [List.nil_append] at ht; rw [ht]; rfl)
      | cons d space =>
        cases ht
        exact hbreak _ rfl rfl

theorem not_mem_digits {t : Text} (h : ∀ c ∈ t, isAsciiDigit c = true) : '\r' ∉ t := by
  intro hmem
  have := h _ hmem
  cases this

theorem not_mem_spelled {t : Text} {s : List Nat} (h : Spelled t s) : '\r' ∉ t := by
  have hhex : ∀ {c : Char} {n : Nat}, hexValue c = some n → '\r' ≠ c := by
    intro c n hn heq
    subst heq
    cases hn
  induction h with
  | nil => exact List.not_mem_nil
  | plain hc hquote hslash _ ih =>
    refine List.not_mem_cons_of_ne_of_not_mem ?_ ih
    intro heq
    subst heq
    exact absurd hc (by decide)
  | escape hc _ ih =>
    refine List.not_mem_cons_of_ne_of_not_mem (by decide) ?_
    refine List.not_mem_cons_of_ne_of_not_mem ?_ ih
    intro heq
    subst heq
    cases hc
  | @code a b c d n t s hn _ ih =>
    unfold hex4 at hn
    split at hn
    next ha hb hc hd =>
      simp [hhex ha, hhex hb, hhex hc, hhex hd, ih]
    next => cases hn

theorem not_mem_number {t : Text} (h : NumberText t) : '\r' ∉ t := by
  obtain ⟨hsign, hint, hfrac, hexp⟩ := h
  simp only [List.mem_append, not_or]
  refine ⟨⟨⟨?_, ?_⟩, ?_⟩, ?_⟩
  · rcases hsign with rfl | rfl <;> decide
  · cases hint with
    | zero => decide
    | digits hc h => exact not_mem_digits h.2
  · cases hfrac with
    | none => exact List.not_mem_nil
    | some h => exact List.not_mem_cons_of_ne_of_not_mem (by decide) (not_mem_digits h.2)
  · cases hexp with
    | none => exact List.not_mem_nil
    | some he hsign h =>
      refine List.not_mem_cons_of_ne_of_not_mem ?_ ?_
      · rcases he with rfl | rfl <;> decide
      · rw [List.mem_append, not_or]
        refine ⟨?_, not_mem_digits h.2⟩
        rcases hsign with rfl | rfl | rfl <;> decide

/-- What `t` is read as is `t'`, and the rest as it is read by itself. -/
def ReadAs (t t' : Text) (rest : Text) : Prop :=
  translateNewlines (t ++ rest) = t' ++ translateNewlines rest

theorem readAs_cons {c : Char} {t t' rest : Text} (hc : c ≠ '\r') (h : ReadAs t t' rest) :
    ReadAs (c :: t) (c :: t') rest := by
  unfold ReadAs
  rw [List.cons_append, translateNewlines_cons hc, h]
  rfl

theorem readAs_append {t t' u u' rest : Text} (ht : ReadAs t t' (u ++ rest))
    (hu : ReadAs u u' rest) : ReadAs (t ++ u) (t' ++ u') rest := by
  unfold ReadAs at *
  rw [List.append_assoc, ht, hu, List.append_assoc]

theorem readAs_plain {t : Text} (h : '\r' ∉ t) (rest : Text) : ReadAs t t rest :=
  translateNewlines_plain h rest

theorem head_laid {v : Json} {t : Text} (h : Laid v t) (rest : Text) :
    (t ++ rest).head? ≠ some '\n' := by
  obtain ⟨c, u, rfl, hc, _⟩ := laid_cons h
  intro heq
  cases heq
  cases hc

theorem keyLaid_read {key : List Nat} {k : Text} (h : KeyLaid key k) (rest : Text)
    (hrest : rest.head? ≠ some '\n') : ∃ k', KeyLaid key k' ∧ ReadAs k k' rest := by
  cases h with
  | @mk s before t after next hbefore h hafter hnext =>
    obtain ⟨next', hnext', hread₃⟩ := translateNewlines_space rest hrest hnext
    obtain ⟨after', hafter', hread₂⟩ :=
      translateNewlines_space (':' :: (next ++ rest)) (by simp) hafter
    obtain ⟨before', hbefore', hread₁⟩ := translateNewlines_space
      ('"' :: (t ++ '"' :: (after ++ ':' :: next)) ++ rest) (by simp) hbefore
    have hcolon : ReadAs (after ++ ':' :: next) (after' ++ ':' :: next') rest :=
      readAs_append hread₂ (readAs_cons (by decide) hread₃)
    have htext : ReadAs (t ++ '"' :: (after ++ ':' :: next)) (t ++ '"' :: (after' ++ ':' :: next'))
        rest :=
      readAs_append (readAs_plain (not_mem_spelled h) _) (readAs_cons (by decide) hcolon)
    exact ⟨_, .mk hbefore' h hafter' hnext',
      readAs_append hread₁ (readAs_cons (by decide) htext)⟩

/-- **A text of a value is read as one**, whatever its line breaks are. -/
theorem laid_read (n : Nat) :
    (∀ {v t} (rest : Text), Laid v t → t.length ≤ n → ∃ t', Laid v t' ∧ ReadAs t t' rest) ∧
    (∀ {items t} (rest : Text), ItemsLaid items t → t.length ≤ n →
      ∃ t', ItemsLaid items t' ∧ ReadAs t t' rest) ∧
    (∀ {fields t} (rest : Text), FieldsLaid fields t → t.length ≤ n →
      ∃ t', FieldsLaid fields t' ∧ ReadAs t t' rest) := by
  induction n with
  | zero =>
    refine ⟨fun rest h hlen => ?_, fun rest h hlen => ?_, fun rest h hlen => ?_⟩
    · obtain ⟨c, u, rfl, _⟩ := laid_cons h
      exact absurd hlen (by simp)
    · cases h <;> exact absurd hlen (by simp)
    · cases h <;> exact absurd hlen (by simp)
  | succ n ih =>
    obtain ⟨ihValue, ihItems, ihFields⟩ := ih
    -- white space and the character that ends it
    have hclose : ∀ (c : Char) {space t t' rest : Text}, c ≠ '\n' → c ≠ '\r' → IsSpace space →
        ReadAs t t' rest →
        ∃ space', IsSpace space' ∧ ReadAs (space ++ c :: t) (space' ++ c :: t') rest := by
      intro c space t t' rest hc hc' hspace hread
      obtain ⟨space', hspace', hread'⟩ := translateNewlines_space
        (c :: t ++ rest) (by simpa using hc) hspace
      exact ⟨space', hspace', readAs_append hread' (readAs_cons hc' hread)⟩
    have hnil : ∀ rest : Text, ReadAs [] [] rest := fun rest => rfl
    refine ⟨fun rest h hlen => ?_, fun rest h hlen => ?_, fun rest h hlen => ?_⟩
    · cases h with
      | constant h =>
        have hno : ∀ p ∈ constants, '\r' ∉ p.1 := by decide
        exact ⟨_, .constant h, readAs_plain (hno _ h) rest⟩
      | number h => exact ⟨_, .number h, readAs_plain (not_mem_number h) rest⟩
      | string h =>
        refine ⟨_, .string h, readAs_cons (by decide) (readAs_plain ?_ rest)⟩
        rw [List.mem_append, not_or]
        exact ⟨not_mem_spelled h, by decide⟩
      | emptyArray h =>
        obtain ⟨space', hspace', hread⟩ := hclose ']' (by decide) (by decide) h (hnil rest)
        exact ⟨_, .emptyArray hspace', readAs_cons (by decide) hread⟩
      | array h =>
        obtain ⟨t', ht', hread⟩ := ihItems rest h (Nat.le_of_succ_le_succ hlen)
        exact ⟨_, .array ht', readAs_cons (by decide) hread⟩
      | emptyObject h =>
        obtain ⟨space', hspace', hread⟩ := hclose '}' (by decide) (by decide) h (hnil rest)
        exact ⟨_, .emptyObject hspace', readAs_cons (by decide) hread⟩
      | object h hkeys =>
        obtain ⟨t', ht', hread⟩ := ihFields rest h (Nat.le_of_succ_le_succ hlen)
        exact ⟨_, .object ht' hkeys, readAs_cons (by decide) hread⟩
    · cases h with
      | @last v before t after hbefore h hafter =>
        have hlen' : t.length ≤ n := by
          simp only [List.length_append, List.length_cons] at hlen
          omega
        obtain ⟨after', hafter', hread₃⟩ := hclose ']' (by decide) (by decide) hafter (hnil rest)
        obtain ⟨t', ht', hread₂⟩ := ihValue (after ++ [']'] ++ rest) h hlen'
        obtain ⟨before', hbefore', hread₁⟩ := translateNewlines_space
          (t ++ (after ++ [']']) ++ rest)
          (by rw [List.append_assoc]; exact head_laid h _) hbefore
        exact ⟨_, .last hbefore' ht' hafter', readAs_append hread₁ (readAs_append hread₂ hread₃)⟩
      | @cons v items before t after more hbefore h hafter hmore =>
        have hlen' : t.length ≤ n ∧ more.length ≤ n := by
          simp only [List.length_append, List.length_cons] at hlen
          omega
        obtain ⟨more', hmore', hread₄⟩ := ihItems rest hmore hlen'.2
        obtain ⟨after', hafter', hread₃⟩ := hclose ',' (by decide) (by decide) hafter hread₄
        obtain ⟨t', ht', hread₂⟩ := ihValue (after ++ ',' :: more ++ rest) h hlen'.1
        obtain ⟨before', hbefore', hread₁⟩ := translateNewlines_space
          (t ++ (after ++ ',' :: more) ++ rest)
          (by rw [List.append_assoc]; exact head_laid h _) hbefore
        exact ⟨_, .cons hbefore' ht' hafter' hmore',
          readAs_append hread₁ (readAs_append hread₂ hread₃)⟩
    · cases h with
      | @last key v k t after hkey h hafter =>
        have hlen' : t.length ≤ n := by
          simp only [List.length_append, List.length_cons] at hlen
          omega
        obtain ⟨after', hafter', hread₃⟩ := hclose '}' (by decide) (by decide) hafter (hnil rest)
        obtain ⟨t', ht', hread₂⟩ := ihValue (after ++ ['}'] ++ rest) h hlen'
        obtain ⟨k', hkey', hread₁⟩ := keyLaid_read hkey (t ++ (after ++ ['}']) ++ rest)
          (by rw [List.append_assoc]; exact head_laid h _)
        exact ⟨_, .last hkey' ht' hafter', readAs_append hread₁ (readAs_append hread₂ hread₃)⟩
      | @cons key v fields k t after more hkey h hafter hmore =>
        have hlen' : t.length ≤ n ∧ more.length ≤ n := by
          simp only [List.length_append, List.length_cons] at hlen
          omega
        obtain ⟨more', hmore', hread₄⟩ := ihFields rest hmore hlen'.2
        obtain ⟨after', hafter', hread₃⟩ := hclose ',' (by decide) (by decide) hafter hread₄
        obtain ⟨t', ht', hread₂⟩ := ihValue (after ++ ',' :: more ++ rest) h hlen'.1
        obtain ⟨k', hkey', hread₁⟩ := keyLaid_read hkey (t ++ (after ++ ',' :: more) ++ rest)
          (by rw [List.append_assoc]; exact head_laid h _)
        exact ⟨_, .cons hkey' ht' hafter' hmore',
          readAs_append hread₁ (readAs_append hread₂ hread₃)⟩

end Shamsu.Py
