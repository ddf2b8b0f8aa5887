import Shamsu.Py.Json

/-!
# JSON texts, written

`json.dumps(value, ensure_ascii=False)`. A number is written as it was read, as it is where
a text of `json.dumps` is read and written again. Half of a surrogate pair is no character:
with one in it, no text is written.

What is read is well formed (`wellFormed_scan`), and what is written of a well formed value
is a text of it (`laid_dumps`).
-/

namespace Shamsu.Py

/-! ## The writer -/

/-- The character of a code point. -/
def charOf (n : Nat) : Option Char := if h : n.isValidChar then some (Char.ofNatAux n h) else none

/-- `ESCAPE_DCT`, and `\u` for the other control characters. -/
def escapeChar (c : Char) : Text :=
  if c = '"' then ['\\', '"']
  else if c = '\\' then ['\\', '\\']
  else if c = '\n' then ['\\', 'n']
  else if c = '\r' then ['\\', 'r']
  else if c = '\t' then ['\\', 't']
  else if c.toNat = 8 then ['\\', 'b']
  else if c.toNat = 12 then ['\\', 'f']
  else if c.toNat < 32 then
    ['\\', 'u', '0', '0', Nat.digitChar (c.toNat / 16), Nat.digitChar (c.toNat % 16)]
  else [c]

/-- `encode_basestring`. -/
def dumpsString (s : List Nat) : Option Text :=
  (s.mapM charOf).map fun t => '"' :: (t.flatMap escapeChar ++ ['"'])

mutual

/-- `json.dumps`. -/
def dumps : Json → Option Text
  | .null => some "null".toList
  | .bool b => some (if b then "true".toList else "false".toList)
  | .number t => some t
  | .string s => dumpsString s
  | .array items => if items.isEmpty then some "[]".toList else (dumpsItems items).map ('[' :: ·)
  | .object fields =>
    if fields.isEmpty then some ['{', '}'] else (dumpsFields fields).map ('{' :: ·)

/-- Items, to the bracket. -/
def dumpsItems : List Json → Option Text
  | [] => some [']']
  | v :: items =>
    (dumps v).bind fun t =>
      if items.isEmpty then some (t ++ [']'])
      else (dumpsItems items).map fun rest => t ++ ',' :: ' ' :: rest

/-- Fields, to the brace. -/
def dumpsFields : List (List Nat × Json) → Option Text
  | [] => some ['}']
  | (key, v) :: fields =>
    (dumpsString key).bind fun k => (dumps v).bind fun t =>
      if fields.isEmpty then some (k ++ ':' :: ' ' :: (t ++ ['}']))
      else (dumpsFields fields).map fun rest => k ++ ':' :: ' ' :: (t ++ ',' :: ' ' :: rest)

end

/-! ## Well formed values -/

mutual

/-- The numbers are numbers, and no key of an object comes twice. -/
def Json.WellFormed : Json → Prop
  | .number t => NumberText t ∨ (t, Json.number t) ∈ constants
  | .array items => ItemsWellFormed items
  | .object fields => (fields.map Prod.fst).Nodup ∧ FieldsWellFormed fields
  | _ => True

def ItemsWellFormed : List Json → Prop
  | [] => True
  | v :: items => v.WellFormed ∧ ItemsWellFormed items

def FieldsWellFormed : List (List Nat × Json) → Prop
  | [] => True
  | (_, v) :: fields => v.WellFormed ∧ FieldsWellFormed fields

end

theorem fieldsWellFormed_iff (fields : List (List Nat × Json)) :
    FieldsWellFormed fields ↔ ∀ p ∈ fields, p.2.WellFormed := by
  induction fields with
  | nil => exact iff_of_true trivial nofun
  | cons p fields ih =>
    obtain ⟨key, v⟩ := p
    rw [FieldsWellFormed, ih, List.forall_mem_cons]

/-- A field set to a well formed value. -/
theorem mem_setItem {key : List Nat} {v : Json} {p : List Nat × Json}
    {fields : List (List Nat × Json)} (h : p ∈ setItem key v fields) :
    p = (key, v) ∨ p ∈ fields := by
  induction fields with
  | nil => exact .inl (List.mem_singleton.mp h)
  | cons q fields ih =>
    unfold setItem at h
    split at h
    · exact (List.mem_cons.mp h).imp_right (.tail _)
    · rcases List.mem_cons.mp h with rfl | h
      · exact .inr (.head _)
      · exact (ih h).imp_right (.tail _)

theorem keys_setItem {key : List Nat} {v : Json} {fields : List (List Nat × Json)}
    (h : (fields.map Prod.fst).Nodup) : ((setItem key v fields).map Prod.fst).Nodup := by
  induction fields with
  | nil => simp [setItem]
  | cons q fields ih =>
    rw [List.map_cons, List.nodup_cons] at h
    unfold setItem
    split
    next heq =>
      rw [List.map_cons, List.nodup_cons]
      exact ⟨heq ▸ h.1, h.2⟩
    next hne =>
      rw [List.map_cons, List.nodup_cons]
      refine ⟨fun hmem => ?_, ih h.2⟩
      obtain ⟨p, hp, hfst⟩ := List.mem_map.mp hmem
      rcases mem_setItem hp with rfl | hp
      · exact hne hfst.symm
      · exact h.1 (List.mem_map.mpr ⟨p, hp, hfst⟩)

theorem wellFormed_setItem {key : List Nat} {v : Json} {fields : List (List Nat × Json)}
    (h : (Json.object fields).WellFormed) (hv : v.WellFormed) :
    (Json.object (setItem key v fields)).WellFormed := by
  rw [Json.WellFormed, fieldsWellFormed_iff] at h ⊢
  refine ⟨keys_setItem h.1, fun p hp => ?_⟩
  rcases mem_setItem hp with rfl | hp
  · exact hv
  · exact h.2 p hp

theorem wellFormed_dictOf {pairs : List (List Nat × Json)} (h : ∀ p ∈ pairs, p.2.WellFormed) :
    (Json.object (dictOf pairs)).WellFormed := by
  have hfold : ∀ fields, (Json.object fields).WellFormed → (Json.object
      (pairs.foldl (fun fields p => setItem p.1 p.2 fields) fields)).WellFormed := by
    induction pairs with
    | nil => exact fun fields hfields => hfields
    | cons p pairs ih =>
      intro fields hfields
      exact ih (fun q hq => h q (.tail _ hq)) _ (wellFormed_setItem hfields (h p (.head _)))
  exact hfold [] ⟨List.nodup_nil, trivial⟩

/-! ## What is read is well formed -/

theorem isDigits_takeWhile {s : Text} (h : s.takeWhile isAsciiDigit ≠ []) :
    IsDigits (s.takeWhile isAsciiDigit) := ⟨h, fun _ hc => List.mem_takeWhile_imp hc⟩

theorem intText_scanInt {s t rest : Text} (h : scanInt s = some (t, rest)) : IntText t := by
  unfold scanInt at h
  split at h
  · cases h
    exact .zero
  next c s hc =>
    split at h
    next hdigit =>
      cases h
      refine .digits (fun heq => hc heq) ⟨by simp, ?_⟩
      intro d hd
      rcases List.mem_cons.mp hd with rfl | hd
      · exact hdigit
      · exact List.mem_takeWhile_imp hd
    next => cases h
  · cases h

theorem fracText_scanFrac (s : Text) : FracText (scanFrac s).1 := by
  unfold scanFrac
  split
  · split
    · exact .none
    next h => exact .some (isDigits_takeWhile h)
  · exact .none

theorem scanSign_fst (s : Text) :
    (scanSign s).1 = [] ∨ (scanSign s).1 = ['+'] ∨ (scanSign s).1 = ['-'] := by
  unfold scanSign
  split
  · exact .inr (.inl rfl)
  · exact .inr (.inr rfl)
  · exact .inl rfl

theorem expText_scanExp (s : Text) : ExpText (scanExp s).1 := by
  unfold scanExp
  split
  · exact .none
  next e t =>
    split
    next he =>
      split
      · exact .none
      next h => exact .some he (scanSign_fst t) (isDigits_takeWhile h)
    next => exact .none

theorem wellFormed_scanNumber {s rest : Text} {v : Json} (h : scanNumber s = some (v, rest)) :
    v.WellFormed := by
  unfold scanNumber at h
  obtain ⟨int, hint, hv⟩ := Option.map_eq_some_iff.mp h
  cases hv
  have hsign : (scanMinus s).1 = [] ∨ (scanMinus s).1 = ['-'] := by
    unfold scanMinus
    split
    · exact .inr rfl
    · exact .inl rfl
  exact .inl (.mk hsign (intText_scanInt hint) (fracText_scanFrac _) (expText_scanExp _))

theorem wellFormed_constant {p : Text × Json} (h : p ∈ constants) : p.2.WellFormed := by
  simp only [constants, List.mem_cons, List.not_mem_nil, or_false] at h
  rcases h with rfl | rfl | rfl | rfl | rfl | rfl
  · trivial
  · trivial
  · trivial
  all_goals exact .inr (by simp [constants])

theorem wellFormed_scanAtom {s rest : Text} {v : Json} (h : scanAtom s = some (v, rest)) :
    v.WellFormed := by
  unfold scanAtom at h
  split at h
  next p hp =>
    cases h
    exact wellFormed_constant (List.mem_of_find?_eq_some hp)
  next => exact wellFormed_scanNumber h

/-- What is scanned is well formed: a value, items and fields, by induction on the fuel. -/
theorem wellFormed_scan (n : Nat) :
    (∀ {s v rest}, scanValue n s = some (v, rest) → v.WellFormed) ∧
    (∀ {s items rest}, scanItems n s = some (items, rest) → ItemsWellFormed items) ∧
    (∀ {s fields rest}, scanFields n s = some (fields, rest) →
      ∀ p ∈ fields, p.2.WellFormed) := by
  induction n with
  | zero => exact ⟨nofun, nofun, nofun⟩
  | succ n ih =>
    obtain ⟨ihValue, ihItems, ihFields⟩ := ih
    refine ⟨fun {s v rest} h => ?_, fun {s items rest} h => ?_, fun {s fields rest} h => ?_⟩
    · unfold scanValue at h
      split at h
      · obtain ⟨p, _, hv⟩ := Option.map_eq_some_iff.mp h
        cases hv
        trivial
      · split at h
        · cases h
          exact ⟨List.nodup_nil, trivial⟩
        · obtain ⟨p, hp, hv⟩ := Option.map_eq_some_iff.mp h
          cases hv
          exact wellFormed_dictOf (ihFields hp)
      · split at h
        · cases h
          trivial
        · obtain ⟨p, hp, hv⟩ := Option.map_eq_some_iff.mp h
          cases hv
          exact ihItems hp
      · exact wellFormed_scanAtom h
    · unfold scanItems at h
      split at h
      · cases h
      next v t hvalue =>
        split at h
        · cases h
          exact ⟨ihValue hvalue, trivial⟩
        · obtain ⟨p, hp, hv⟩ := Option.map_eq_some_iff.mp h
          cases hv
          exact ⟨ihValue hvalue, ihItems hp⟩
        · cases h
    · unfold scanFields at h
      split at h
      · cases h
      next key t hkey =>
        split at h
        · cases h
        next v t hvalue =>
          split at h
          · cases h
            exact List.forall_mem_singleton.mpr (ihValue hvalue)
          · obtain ⟨p, hp, hv⟩ := Option.map_eq_some_iff.mp h
            cases hv
            exact List.forall_mem_cons.mpr ⟨ihValue hvalue, ihFields hp⟩
          · cases h

/-! ## What is written is a text of the value -/

theorem spelled_append {t u : Text} {s r : List Nat} (ht : Spelled t s) (hu : Spelled u r) :
    Spelled (t ++ u) (s ++ r) := by
  induction ht with
  | nil => exact hu
  | plain hc hquote hslash _ ih => exact .plain hc hquote hslash ih
  | escape hc _ ih => exact .escape hc ih
  | code hn _ ih => exact .code hn ih

theorem hex4_control : ∀ n < 32,
    hex4 '0' '0' (Nat.digitChar (n / 16)) (Nat.digitChar (n % 16)) = some n := by decide

theorem spelled_escapeChar (c : Char) : Spelled (escapeChar c) [c.toNat] := by
  unfold escapeChar
  iterate 7
    split
    next h => rw [h]; exact .escape rfl .nil
  split
  next h => exact .code (hex4_control _ h) .nil
  next hquote hslash _ _ _ _ _ hplain => exact .plain (by omega) hquote hslash .nil

theorem spelled_flatMap (t : Text) : Spelled (t.flatMap escapeChar) (t.map Char.toNat) := by
  induction t with
  | nil => exact .nil
  | cons c t ih => exact spelled_append (spelled_escapeChar c) ih

theorem joinSurrogates_chars (t : Text) : joinSurrogates (t.map Char.toNat) = t.map Char.toNat := by
  induction t with
  | nil => rfl
  | cons c t ih =>
    cases t with
    | nil => rfl
    | cons d t =>
      simp only [List.map_cons] at ih ⊢
      rw [joinSurrogates, if_neg, ih]
      have hvalid := c.valid
      intro h
      rcases hvalid with hlow | hhigh
      · exact absurd h.1 (by have := c.toNat_val; omega)
      · exact absurd h.2.1 (by have := c.toNat_val; omega)

theorem mapM_charOf {s : List Nat} {t : Text} (h : s.mapM charOf = some t) :
    s = t.map Char.toNat := by
  induction s generalizing t with
  | nil => cases h; rfl
  | cons n s ih =>
    rw [List.mapM_cons] at h
    obtain ⟨c, hc, h⟩ := Option.bind_eq_some_iff.mp h
    obtain ⟨u, hu, h⟩ := Option.bind_eq_some_iff.mp h
    cases h
    unfold charOf at hc
    split at hc
    next hvalid =>
      cases hc
      rw [List.map_cons, ← ih hu]
      rfl
    next => cases hc

/-- The characters are written, and nothing else is. -/
theorem dumpsString_eq_some {s : List Nat} {q : Text} (h : dumpsString s = some q) :
    ∃ t : Text, s = t.map Char.toNat ∧ q = '"' :: (t.flatMap escapeChar ++ ['"']) := by
  obtain ⟨t, ht, hq⟩ := Option.map_eq_some_iff.mp h
  exact ⟨t, mapM_charOf ht, hq.symm⟩

theorem laid_dumpsString {s : List Nat} {q : Text} (h : dumpsString s = some q) :
    Laid (.string s) q := by
  obtain ⟨t, rfl, rfl⟩ := dumpsString_eq_some h
  have hlaid := Laid.string (spelled_flatMap t)
  rwa [joinSurrogates_chars] at hlaid

theorem keyLaid_dumpsString {s : List Nat} {q : Text} (h : dumpsString s = some q) :
    KeyLaid s (q ++ [':', ' ']) := by
  obtain ⟨t, rfl, rfl⟩ := dumpsString_eq_some h
  have hnone : IsSpace [] := nofun
  have hblank : IsSpace [' '] := by simp [IsSpace, isJsonSpace]
  have hlaid := KeyLaid.mk hnone (spelled_flatMap t) hnone hblank
  rw [joinSurrogates_chars] at hlaid
  simpa using hlaid

theorem isSpace_nil : IsSpace [] := nofun

theorem isSpace_cons {space : Text} (h : IsSpace space) : IsSpace (' ' :: space) := by
  intro c hc
  rcases List.mem_cons.mp hc with rfl | hc
  · rfl
  · exact h c hc

theorem itemsLaid_space {items : List Json} {t : Text} (h : ItemsLaid items t) :
    ItemsLaid items (' ' :: t) := by
  cases h with
  | last hbefore hv hafter => exact ItemsLaid.last (isSpace_cons hbefore) hv hafter
  | cons hbefore hv hafter hrest => exact ItemsLaid.cons (isSpace_cons hbefore) hv hafter hrest

theorem keyLaid_space {key : List Nat} {k : Text} (h : KeyLaid key k) :
    KeyLaid key (' ' :: k) := by
  cases h with
  | mk hbefore hs hafter hnext => exact KeyLaid.mk (isSpace_cons hbefore) hs hafter hnext

theorem fieldsLaid_space {fields : List (List Nat × Json)} {t : Text} (h : FieldsLaid fields t) :
    FieldsLaid fields (' ' :: t) := by
  cases h with
  | last hkey hv hafter => exact FieldsLaid.last (keyLaid_space hkey) hv hafter
  | cons hkey hv hafter hrest => exact FieldsLaid.cons (keyLaid_space hkey) hv hafter hrest

mutual

/-- What is written of a well formed value is a text of it. -/
theorem laid_dumps : ∀ (v : Json) {t : Text}, v.WellFormed → dumps v = some t → Laid v t
  | .null, _, _, h => by
    rw [dumps] at h
    cases h
    exact .constant (p := ("null".toList, .null)) (by simp [constants])
  | .bool b, _, _, h => by
    rw [dumps] at h
    cases h
    cases b with
    | false => exact .constant (p := ("false".toList, .bool false)) (by simp [constants])
    | true => exact .constant (p := ("true".toList, .bool true)) (by simp [constants])
  | .number t, _, hwf, h => by
    rw [dumps] at h
    cases h
    rw [Json.WellFormed] at hwf
    rcases hwf with hnumber | hconstant
    · exact .number hnumber
    · exact .constant hconstant
  | .string s, _, _, h => laid_dumpsString (by rw [dumps] at h; exact h)
  | .array items, t, hwf, h => by
    rw [dumps] at h
    rw [Json.WellFormed] at hwf
    split at h
    next hempty =>
      cases h
      rw [List.isEmpty_iff.mp hempty]
      exact Laid.emptyArray isSpace_nil
    next hne =>
      obtain ⟨u, hu, rfl⟩ := Option.map_eq_some_iff.mp h
      exact .array (laid_dumpsItems items hwf (by simpa using hne) hu)
  | .object fields, t, hwf, h => by
    rw [dumps] at h
    rw [Json.WellFormed] at hwf
    split at h
    next hempty =>
      cases h
      rw [List.isEmpty_iff.mp hempty]
      exact Laid.emptyObject isSpace_nil
    next hne =>
      obtain ⟨u, hu, rfl⟩ := Option.map_eq_some_iff.mp h
      exact .object (laid_dumpsFields fields hwf.2 (by simpa using hne) hu) hwf.1

theorem laid_dumpsItems : ∀ (items : List Json) {t : Text}, ItemsWellFormed items →
    items ≠ [] → dumpsItems items = some t → ItemsLaid items t
  | [], _, _, hne, _ => absurd rfl hne
  | v :: items, t, hwf, _, h => by
    rw [dumpsItems] at h
    rw [ItemsWellFormed] at hwf
    obtain ⟨u, hu, h⟩ := Option.bind_eq_some_iff.mp h
    have hv := laid_dumps v hwf.1 hu
    split at h
    next hempty =>
      cases h
      rw [List.isEmpty_iff.mp hempty]
      exact ItemsLaid.last isSpace_nil hv isSpace_nil
    next hne =>
      obtain ⟨rest, hrest, rfl⟩ := Option.map_eq_some_iff.mp h
      have hitems := laid_dumpsItems items hwf.2 (by simpa using hne) hrest
      exact ItemsLaid.cons isSpace_nil hv isSpace_nil (itemsLaid_space hitems)

theorem laid_dumpsFields : ∀ (fields : List (List Nat × Json)) {t : Text},
    FieldsWellFormed fields → fields ≠ [] → dumpsFields fields = some t → FieldsLaid fields t
  | [], _, _, hne, _ => absurd rfl hne
  | (key, v) :: fields, t, hwf, _, h => by
    rw [dumpsFields] at h
    rw [FieldsWellFormed] at hwf
    obtain ⟨k, hk, h⟩ := Option.bind_eq_some_iff.mp h
    obtain ⟨u, hu, h⟩ := Option.bind_eq_some_iff.mp h
    have hkey := keyLaid_dumpsString hk
    have hv := laid_dumps v hwf.1 hu
    split at h
    next hempty =>
      cases h
      rw [List.isEmpty_iff.mp hempty]
      have hlaid := FieldsLaid.last hkey hv isSpace_nil
      simpa using hlaid
    next hne =>
      obtain ⟨rest, hrest, rfl⟩ := Option.map_eq_some_iff.mp h
      have hfields := laid_dumpsFields fields hwf.2 (by simpa using hne) hrest
      have hlaid := FieldsLaid.cons hkey hv isSpace_nil (fieldsLaid_space hfields)
      simpa using hlaid

end

end Shamsu.Py
