import Shamsu.Py.Json

/-!
# The objects in a model's text

`shamsu/llm/output.py`: `_scan_json_objects` runs over the text once and notes where its
outermost objects start and stop, `_iter_json_objects` starts again behind an object that is
never closed. A span is where it starts and where it stops.

`spans_ordered` and `span_balanced` are what holds for every text; `object_found_iff` is
which prose before an object does not hide it.
-/

namespace Shamsu.Llm.JsonSpans

open Shamsu.Py

structure JsonScan where
  objects : List (Nat × Nat) := []
  depth : Nat := 0
  spanStart : Option Nat := none
  inString : Bool := false
  escape : Bool := false
  deriving DecidableEq, Repr

/-- The body of the loop of `_scan_json_objects`. -/
def JsonScan.char (s : JsonScan) (i : Nat) (ch : Char) : JsonScan :=
  if s.inString then
    if s.escape then { s with escape := false }
    else if ch = '\\' then { s with escape := true }
    else if ch = '"' then { s with inString := false }
    else s
  else if ch = '"' then { s with inString := true }
  else if ch = '{' then
    { s with
      spanStart := if s.depth = 0 then some i else s.spanStart
      depth := s.depth + 1 }
  else if ch = '}' then
    if 0 < s.depth then
      match decide (s.depth - 1 = 0), s.spanStart with
      | true, some start =>
        { s with objects := s.objects ++ [(start, i + 1)], depth := s.depth - 1, spanStart := none }
      | _, _ => { s with depth := s.depth - 1 }
    else s
  else s

/-- The loop, at an index. -/
def JsonScan.run (s : JsonScan) (i : Nat) : Text → JsonScan
  | [] => s
  | ch :: t => (s.char i ch).run (i + 1) t

def JsonScan.unmatched (s : JsonScan) : Option Nat :=
  if 0 < s.depth then s.spanStart else none

def scanJsonObjects (text : Text) (start : Nat) : List (Nat × Nat) × Option Nat :=
  let s := ({} : JsonScan).run start (text.drop start)
  (s.objects, s.unmatched)

namespace JsonScan

theorem run_append (s : JsonScan) (i : Nat) (t u : Text) :
    s.run i (t ++ u) = (s.run i t).run (i + t.length) u := by
  induction t generalizing s i with
  | nil => rfl
  | cons ch t ih =>
    rw [List.cons_append, run, run, ih, List.length_cons, Nat.add_right_comm, Nat.add_assoc]

/-- A span starts at the index or where it started before. -/
theorem char_spanStart {s : JsonScan} {i : Nat} {ch : Char} {start : Nat}
    (h : (s.char i ch).spanStart = some start) : start = i ∨ s.spanStart = some start := by
  unfold char at h
  grind

theorem run_spanStart {s : JsonScan} {i : Nat} {t : Text} {start : Nat}
    (h : (s.run i t).spanStart = some start) :
    (i ≤ start ∧ start < i + t.length) ∨ s.spanStart = some start := by
  induction t generalizing s i with
  | nil => exact .inr h
  | cons ch t ih =>
    rw [List.length_cons]
    rcases ih h with hlater | hhere
    · exact .inl (by omega)
    · rcases char_spanStart hhere with rfl | hbefore
      · exact .inl (by omega)
      · exact .inr hbefore

end JsonScan

/-- An object that is never closed starts where the scan is. -/
theorem scan_unmatched {text : Text} {start u : Nat}
    (h : (scanJsonObjects text start).2 = some u) : start ≤ u ∧ u < text.length := by
  have hspan : (({} : JsonScan).run start (text.drop start)).spanStart = some u := by
    unfold scanJsonObjects JsonScan.unmatched at h
    dsimp only at h
    split at h
    · exact h
    · cases h
  rcases JsonScan.run_spanStart hspan with ⟨hle, hlt⟩ | hnone
  · rw [List.length_drop] at hlt
    exact ⟨hle, by omega⟩
  · cases hnone

/-- The `while` of `_iter_json_objects`. -/
def iterSpans (text : Text) (searchFrom : Nat) : List (Nat × Nat) :=
  if searchFrom < text.length then
    (scanJsonObjects text searchFrom).1 ++
      match h : (scanJsonObjects text searchFrom).2 with
      | none => []
      | some unmatched =>
        have := scan_unmatched h
        iterSpans text (unmatched + 1)
  else []
termination_by text.length - searchFrom

def slice (text : Text) (span : Nat × Nat) : Text :=
  (text.drop span.1).take (span.2 - span.1)

/-- `_iter_json_objects`. -/
def iterJsonObjects (text : Text) : List Text :=
  (iterSpans text 0).map (slice text)

/-! ## Texts with strings and braces -/

/-- What is between the quotes of a string. -/
inductive StringBody : Text → Prop
  | nil : StringBody []
  | plain {c : Char} {t : Text} (hquote : c ≠ '"') (hslash : c ≠ '\\') (h : StringBody t) :
      StringBody (c :: t)
  | escape {c : Char} {t : Text} (h : StringBody t) : StringBody ('\\' :: c :: t)

/-- Every brace outside the strings has its partner, and every string ends. -/
inductive Balanced : Text → Prop
  | nil : Balanced []
  | plain {c : Char} {t : Text} (hquote : c ≠ '"') (hopen : c ≠ '{') (hclose : c ≠ '}')
      (h : Balanced t) : Balanced (c :: t)
  | string {b t : Text} (hb : StringBody b) (h : Balanced t) :
      Balanced ('"' :: (b ++ '"' :: t))
  | braces {inner t : Text} (hinner : Balanced inner) (h : Balanced t) :
      Balanced ('{' :: (inner ++ '}' :: t))

theorem StringBody.append {a b : Text} (ha : StringBody a) (hb : StringBody b) :
    StringBody (a ++ b) := by
  induction ha with
  | nil => exact hb
  | plain hquote hslash _ ih => exact .plain hquote hslash ih
  | escape _ ih => exact .escape ih

theorem Balanced.append {a b : Text} (ha : Balanced a) (hb : Balanced b) : Balanced (a ++ b) := by
  induction ha with
  | nil => exact hb
  | plain hquote hopen hclose _ ih => exact .plain hquote hopen hclose ih
  | string hbody _ ih =>
    rw [List.cons_append, List.append_assoc, List.cons_append]
    exact .string hbody ih
  | braces hinner _ _ ih =>
    rw [List.cons_append, List.append_assoc, List.cons_append]
    exact .braces hinner ih

/-- A text without quotes and braces. -/
def Unmarked (t : Text) : Prop := ∀ c ∈ t, c ≠ '"' ∧ c ≠ '{' ∧ c ≠ '}'

theorem Unmarked.of_all {t : Text} (h : t.all fun c => decide (c ≠ '"' ∧ c ≠ '{' ∧ c ≠ '}')) :
    Unmarked t :=
  fun c hc => of_decide_eq_true (List.all_eq_true.mp h c hc)

theorem Unmarked.balanced {t : Text} (h : Unmarked t) : Balanced t := by
  induction t with
  | nil => exact .nil
  | cons c t ih =>
    obtain ⟨⟨hquote, hopen, hclose⟩, ht⟩ := List.forall_mem_cons.mp h
    exact .plain hquote hopen hclose (ih ht)

/-! ## What the reader of JSON has read -/

theorem skipSpace_split (t : Text) : ∃ space, t = space ++ skipSpace t ∧ Balanced space := by
  refine ⟨t.takeWhile isJsonSpace, List.takeWhile_append_dropWhile.symm, Unmarked.balanced ?_⟩
  intro c hc
  have hspace := List.mem_takeWhile_imp hc
  refine ⟨?_, ?_, ?_⟩ <;> rintro rfl <;> exact absurd hspace (by decide)

theorem digits_plain (t : Text) : Unmarked (t.takeWhile isAsciiDigit) := by
  intro c hc
  have hdigit := List.mem_takeWhile_imp hc
  refine ⟨?_, ?_, ?_⟩ <;> rintro rfl <;> exact absurd hdigit (by decide)

theorem hexValue_plain {c : Char} {n : Nat} (h : hexValue c = some n) : c ≠ '"' ∧ c ≠ '\\' := by
  constructor <;> rintro rfl <;> exact nomatch h

theorem hex4_plain {a b c d : Char} {n : Nat} (h : hex4 a b c d = some n) :
    (a ≠ '"' ∧ a ≠ '\\') ∧ (b ≠ '"' ∧ b ≠ '\\') ∧ (c ≠ '"' ∧ c ≠ '\\') ∧ d ≠ '"' ∧ d ≠ '\\' := by
  unfold hex4 at h
  split at h
  next ha hb hc hd =>
    exact ⟨hexValue_plain ha, hexValue_plain hb, hexValue_plain hc, hexValue_plain hd⟩
  next => cases h

theorem scanString_split {t rest : Text} {s : List Nat} (h : scanString t = some (s, rest)) :
    ∃ b, t = b ++ '"' :: rest ∧ StringBody b := by
  fun_induction scanString t generalizing s rest with
  | case1 => cases h
  | case2 t =>
    cases h
    exact ⟨[], rfl, .nil⟩
  | case3 a b c d t n hn ih =>
    obtain ⟨p, hp, hrest⟩ := Option.map_eq_some_iff.mp h
    cases hrest
    obtain ⟨body, rfl, hbody⟩ := ih hp
    obtain ⟨⟨ha, ha'⟩, ⟨hb, hb'⟩, ⟨hc, hc'⟩, hd, hd'⟩ := hex4_plain hn
    exact ⟨_, rfl, .escape (.plain ha ha' (.plain hb hb' (.plain hc hc' (.plain hd hd' hbody))))⟩
  | case4 => cases h
  | case5 c t hnot n hn ih =>
    obtain ⟨p, hp, hrest⟩ := Option.map_eq_some_iff.mp h
    cases hrest
    obtain ⟨body, rfl, hbody⟩ := ih hp
    exact ⟨_, rfl, .escape hbody⟩
  | case6 => cases h
  | case7 => cases h
  | case8 c t hquote hu hslash hplain ih =>
    obtain ⟨p, hp, hrest⟩ := Option.map_eq_some_iff.mp h
    cases hrest
    obtain ⟨body, rfl, hbody⟩ := ih hp
    rw [not_or] at hplain
    refine ⟨_, rfl, .plain hquote hplain.2 hbody⟩

theorem scanMinus_split (t : Text) : ∃ c, t = c ++ (scanMinus t).2 ∧ Unmarked c := by
  unfold scanMinus
  split
  · exact ⟨['-'], rfl, Unmarked.of_all (by decide)⟩
  · exact ⟨[], rfl, nofun⟩

theorem scanInt_split {t rest int : Text} (h : scanInt t = some (int, rest)) :
    ∃ c, t = c ++ rest ∧ Unmarked c := by
  unfold scanInt at h
  split at h
  · cases h
    exact ⟨['0'], rfl, Unmarked.of_all (by decide)⟩
  next c t _ =>
    split at h
    next hdigit =>
      cases h
      refine ⟨c :: t.takeWhile isAsciiDigit, ?_, ?_⟩
      · rw [List.cons_append, List.takeWhile_append_dropWhile]
      · have hplain := digits_plain (c :: t)
        rwa [List.takeWhile_cons_of_pos hdigit] at hplain
    · cases h
  · cases h

theorem scanFrac_split (t : Text) : ∃ c, t = c ++ (scanFrac t).2 ∧ Unmarked c := by
  unfold scanFrac
  split
  next t =>
    split
    · exact ⟨[], rfl, nofun⟩
    · refine ⟨'.' :: t.takeWhile isAsciiDigit, ?_, ?_⟩
      · rw [List.cons_append, List.takeWhile_append_dropWhile]
      · exact List.forall_mem_cons.mpr ⟨by decide, digits_plain t⟩
  · exact ⟨[], rfl, nofun⟩

theorem scanSign_split (t : Text) : ∃ c, t = c ++ (scanSign t).2 ∧ Unmarked c := by
  unfold scanSign
  split
  · exact ⟨['+'], rfl, Unmarked.of_all (by decide)⟩
  · exact ⟨['-'], rfl, Unmarked.of_all (by decide)⟩
  · exact ⟨[], rfl, nofun⟩

theorem scanExp_split (t : Text) : ∃ c, t = c ++ (scanExp t).2 ∧ Unmarked c := by
  unfold scanExp
  split
  · exact ⟨[], rfl, nofun⟩
  next e t =>
    split
    next he =>
      split
      · exact ⟨[], rfl, nofun⟩
      · obtain ⟨sign, hsign, hplain⟩ := scanSign_split t
        refine ⟨e :: (sign ++ (scanSign t).2.takeWhile isAsciiDigit), ?_, ?_⟩
        · rw [List.cons_append, List.append_assoc, List.takeWhile_append_dropWhile, ← hsign]
        · refine List.forall_mem_cons.mpr ⟨?_, ?_⟩
          · rcases he with rfl | rfl <;> decide
          · intro c hc
            rcases List.mem_append.mp hc with hc | hc
            · exact hplain c hc
            · exact digits_plain _ c hc
    · exact ⟨[], rfl, nofun⟩

theorem scanNumber_split {t rest : Text} {v : Json} (h : scanNumber t = some (v, rest)) :
    ∃ c, t = c ++ rest ∧ Balanced c := by
  unfold scanNumber at h
  obtain ⟨⟨int, after⟩, hint, hrest⟩ := Option.map_eq_some_iff.mp h
  cases hrest
  obtain ⟨minus, hminus, hplain₁⟩ := scanMinus_split t
  obtain ⟨digits, hdigits, hplain₂⟩ := scanInt_split hint
  obtain ⟨frac, hfrac, hplain₃⟩ := scanFrac_split after
  obtain ⟨exp, hexp, hplain₄⟩ := scanExp_split (scanFrac after).2
  refine ⟨minus ++ (digits ++ (frac ++ exp)), ?_, ?_⟩
  · rw [List.append_assoc, List.append_assoc, List.append_assoc, ← hexp, ← hfrac, ← hdigits,
      ← hminus]
  · exact hplain₁.balanced.append (hplain₂.balanced.append
      (hplain₃.balanced.append hplain₄.balanced))

theorem constants_plain : ∀ p ∈ constants, Unmarked p.1 ∧ ∀ fields, p.2 ≠ .object fields := by
  intro p hp
  simp only [constants, List.mem_cons, List.not_mem_nil, or_false] at hp
  rcases hp with rfl | rfl | rfl | rfl | rfl | rfl <;>
    refine ⟨Unmarked.of_all (by decide), fun fields hobject => ?_⟩ <;> cases hobject

theorem scanAtom_split {t rest : Text} {v : Json} (h : scanAtom t = some (v, rest)) :
    (∃ c, t = c ++ rest ∧ Balanced c) ∧ ∀ fields, v ≠ .object fields := by
  unfold scanAtom at h
  split at h
  next p hp =>
    cases h
    obtain ⟨hplain, hobject⟩ := constants_plain p (List.mem_of_find?_eq_some hp)
    have hprefix := List.find?_some hp
    obtain ⟨u, rfl⟩ := List.isPrefixOf_iff_prefix.mp (show p.1.isPrefixOf t = true from hprefix)
    exact ⟨⟨p.1, by rw [List.drop_left], hplain.balanced⟩, hobject⟩
  · refine ⟨scanNumber_split h, ?_⟩
    unfold scanNumber at h
    obtain ⟨_, _, hrest⟩ := Option.map_eq_some_iff.mp h
    cases hrest
    exact nofun

theorem scanKey_split {t rest : Text} {key : List Nat} (h : scanKey t = some (key, rest)) :
    ∃ c, t = c ++ rest ∧ Balanced c := by
  unfold scanKey at h
  split at h
  next t =>
    split at h
    · cases h
    next s after hs =>
      split at h
      next u hcolon =>
        cases h
        obtain ⟨body, rfl, hbody⟩ := scanString_split hs
        obtain ⟨space, hspace, hbalanced⟩ := skipSpace_split after
        obtain ⟨space', hspace', hbalanced'⟩ := skipSpace_split u
        refine ⟨'"' :: (body ++ '"' :: (space ++ ':' :: space')), ?_, ?_⟩
        · rw [List.cons_append, List.append_assoc, List.cons_append, List.append_assoc,
            List.cons_append, ← hspace', ← hcolon, ← hspace]
        · exact .string hbody (hbalanced.append (.plain (by decide) (by decide) (by decide)
            hbalanced'))
      · cases h
  · cases h

/-- What is read as a value is balanced, and an object is its braces with something balanced
between. -/
def ValueSplit (fuel : Nat) : Prop :=
  ∀ {t rest : Text} {v : Json}, scanValue fuel t = some (v, rest) →
    (∃ c, t = c ++ rest ∧ Balanced c) ∧
      ∀ fields, v = .object fields → ∃ c, t = '{' :: (c ++ '}' :: rest) ∧ Balanced c

/-- The items are balanced up to the bracket that ends them. -/
def ItemsSplit (fuel : Nat) : Prop :=
  ∀ {t rest : Text} {items : List Json}, scanItems fuel t = some (items, rest) →
    ∃ c, t = c ++ ']' :: rest ∧ Balanced c

/-- The fields are balanced up to the brace that ends them. -/
def FieldsSplit (fuel : Nat) : Prop :=
  ∀ {t rest : Text} {fields : List (List Nat × Json)}, scanFields fuel t = some (fields, rest) →
    ∃ c, t = c ++ '}' :: rest ∧ Balanced c

theorem valueSplit_succ {fuel : Nat} (hitems : ItemsSplit fuel) (hfields : FieldsSplit fuel) :
    ValueSplit (fuel + 1) := by
  intro t rest v h
  rw [scanValue.eq_def] at h
  dsimp only at h
  split at h
  next t =>
    obtain ⟨p, hp, hrest⟩ := Option.map_eq_some_iff.mp h
    cases hrest
    obtain ⟨body, rfl, hbody⟩ := scanString_split hp
    refine ⟨⟨'"' :: (body ++ '"' :: []), ?_, .string hbody .nil⟩, fun fields hv => (by cases hv)⟩
    rw [List.cons_append, List.append_assoc]
    rfl
  next t =>
    obtain ⟨space, hspace, hbalanced⟩ := skipSpace_split t
    have hobject : ∃ c, '{' :: t = '{' :: (c ++ '}' :: rest) ∧ Balanced c := by
      split at h
      next u hclose =>
        cases h
        exact ⟨space, by rw [hspace, hclose], hbalanced⟩
      next hopen =>
        obtain ⟨p, hp, hrest⟩ := Option.map_eq_some_iff.mp h
        cases hrest
        obtain ⟨c, hc, hinner⟩ := hfields hp
        exact ⟨space ++ c, by rw [hspace, hc, List.append_assoc], hbalanced.append hinner⟩
    obtain ⟨c, hc, hinner⟩ := hobject
    refine ⟨⟨'{' :: (c ++ '}' :: []), ?_, .braces hinner .nil⟩, fun _ _ => ⟨c, hc, hinner⟩⟩
    rw [hc, List.cons_append, List.append_assoc]
    rfl
  next t =>
    obtain ⟨space, hspace, hbalanced⟩ := skipSpace_split t
    have harray : ∃ c, '[' :: t = '[' :: (c ++ ']' :: rest) ∧ Balanced c ∧
        ∃ items, v = .array items := by
      split at h
      next u hclose =>
        cases h
        exact ⟨space, by rw [hspace, hclose], hbalanced, _, rfl⟩
      next hopen =>
        obtain ⟨p, hp, hrest⟩ := Option.map_eq_some_iff.mp h
        cases hrest
        obtain ⟨c, hc, hinner⟩ := hitems hp
        exact ⟨space ++ c, by rw [hspace, hc, List.append_assoc], hbalanced.append hinner,
          _, rfl⟩
    obtain ⟨c, hc, hinner, items, rfl⟩ := harray
    refine ⟨⟨'[' :: (c ++ [']']), ?_, ?_⟩, fun fields hv => (by cases hv)⟩
    · rw [hc, List.cons_append, List.append_assoc]
      rfl
    · exact .plain (by decide) (by decide) (by decide)
        (hinner.append (.plain (by decide) (by decide) (by decide) .nil))
  next =>
    obtain ⟨hsplit, hatom⟩ := scanAtom_split h
    exact ⟨hsplit, fun fields hv => absurd hv (hatom fields)⟩

theorem itemsSplit_succ {fuel : Nat} (hvalues : ValueSplit fuel) (hitems : ItemsSplit fuel) :
    ItemsSplit (fuel + 1) := by
  intro t rest items h
  rw [scanItems] at h
  split at h
  · cases h
  next v u hv =>
    obtain ⟨⟨c, hc, hvalue⟩, -⟩ := hvalues hv
    obtain ⟨space, hspace, hbalanced⟩ := skipSpace_split u
    split at h
    next w hclose =>
      cases h
      exact ⟨c ++ space, by rw [hc, hspace, hclose, List.append_assoc],
        hvalue.append hbalanced⟩
    next w hcomma =>
      obtain ⟨p, hp, hrest⟩ := Option.map_eq_some_iff.mp h
      cases hrest
      obtain ⟨space', hspace', hbalanced'⟩ := skipSpace_split w
      obtain ⟨c', hc', hothers⟩ := hitems hp
      refine ⟨c ++ (space ++ ',' :: (space' ++ c')), ?_, ?_⟩
      · rw [hc, hspace, hcomma, hspace', hc']
        simp only [List.append_assoc, List.cons_append]
      · exact hvalue.append (hbalanced.append (.plain (by decide) (by decide) (by decide)
          (hbalanced'.append hothers)))
    · cases h

theorem fieldsSplit_succ {fuel : Nat} (hvalues : ValueSplit fuel) (hfields : FieldsSplit fuel) :
    FieldsSplit (fuel + 1) := by
  intro t rest fields h
  rw [scanFields] at h
  split at h
  · cases h
  next key u hkey =>
    obtain ⟨k, hk, hkeyed⟩ := scanKey_split hkey
    split at h
    · cases h
    next v w hv =>
      obtain ⟨⟨c, hc, hvalue⟩, -⟩ := hvalues hv
      obtain ⟨space, hspace, hbalanced⟩ := skipSpace_split w
      split at h
      next x hclose =>
        cases h
        exact ⟨k ++ (c ++ space), by rw [hk, hc, hspace, hclose]; simp only [List.append_assoc],
          hkeyed.append (hvalue.append hbalanced)⟩
      next x hcomma =>
        obtain ⟨p, hp, hrest⟩ := Option.map_eq_some_iff.mp h
        cases hrest
        obtain ⟨space', hspace', hbalanced'⟩ := skipSpace_split x
        obtain ⟨c', hc', hothers⟩ := hfields hp
        refine ⟨k ++ (c ++ (space ++ ',' :: (space' ++ c'))), ?_, ?_⟩
        · rw [hk, hc, hspace, hcomma, hspace', hc']
          simp only [List.append_assoc, List.cons_append]
        · exact hkeyed.append (hvalue.append (hbalanced.append (.plain (by decide) (by decide)
            (by decide) (hbalanced'.append hothers))))
      · cases h

theorem scan_split (fuel : Nat) : ValueSplit fuel ∧ ItemsSplit fuel ∧ FieldsSplit fuel := by
  induction fuel with
  | zero =>
    refine ⟨fun h => ?_, fun h => ?_, fun h => ?_⟩
    · rw [scanValue] at h; cases h
    · rw [scanItems] at h; cases h
    · rw [scanFields] at h; cases h
  | succ fuel ih =>
    obtain ⟨hvalues, hitems, hfields⟩ := ih
    exact ⟨valueSplit_succ hitems hfields, itemsSplit_succ hvalues hitems,
      fieldsSplit_succ hvalues hfields⟩

/-- What `json` reads as an object, all of it. -/
def IsObjectText (j : Text) : Prop :=
  ∃ fuel fields, scanValue fuel j = some (.object fields, [])

theorem IsObjectText.split {j : Text} (h : IsObjectText j) :
    ∃ inner, j = '{' :: (inner ++ ['}']) ∧ Balanced inner := by
  obtain ⟨fuel, fields, hscan⟩ := h
  exact ((scan_split fuel).1 hscan).2 fields rfl

/-! ## The scan of a balanced text -/

namespace JsonScan

variable {objects : List (Nat × Nat)} {d start : Nat} {spanStart : Option Nat}

theorem run_body {b : Text} (hb : StringBody b) (i : Nat) :
    (⟨objects, d, spanStart, true, false⟩ : JsonScan).run i b =
      ⟨objects, d, spanStart, true, false⟩ := by
  induction hb generalizing i with
  | nil => rfl
  | plain hquote hslash _ ih =>
    rw [run, show char _ i _ = ⟨objects, d, spanStart, true, false⟩ by simp [char, hquote, hslash]]
    exact ih _
  | escape _ ih =>
    rw [run, run, show char _ i _ = ⟨objects, d, spanStart, true, true⟩ by simp [char],
      show char _ _ _ = ⟨objects, d, spanStart, true, false⟩ by simp [char]]
    exact ih _

/-- Within an object a balanced text changes nothing. -/
theorem run_balanced {b : Text} (hb : Balanced b) (i d : Nat) :
    (⟨objects, d + 1, some start, false, false⟩ : JsonScan).run i b =
      ⟨objects, d + 1, some start, false, false⟩ := by
  induction hb generalizing i d with
  | nil => rfl
  | plain hquote hopen hclose _ ih =>
    rw [run, show char _ i _ = ⟨objects, d + 1, some start, false, false⟩ by
      simp [char, hquote, hopen, hclose]]
    exact ih _ _
  | string hbody _ ih =>
    rw [run, show char _ i _ = ⟨objects, d + 1, some start, true, false⟩ by simp [char],
      run_append, run_body hbody, run,
      show char _ _ _ = ⟨objects, d + 1, some start, false, false⟩ by simp [char]]
    exact ih _ _
  | braces _ _ ihinner ih =>
    rw [run, show char _ i _ = ⟨objects, d + 1 + 1, some start, false, false⟩ by simp [char],
      run_append, ihinner, run,
      show char _ _ _ = ⟨objects, d + 1, some start, false, false⟩ by simp [char]]
    exact ih _ _

/-- An object that is met outside of any other. -/
theorem run_object {inner : Text} (hinner : Balanced inner) (i : Nat) :
    (⟨objects, 0, none, false, false⟩ : JsonScan).run i ('{' :: (inner ++ ['}'])) =
      ⟨objects ++ [(i, i + 1 + inner.length + 1)], 0, none, false, false⟩ := by
  rw [run, show char _ i _ = ⟨objects, 0 + 1, some i, false, false⟩ by simp [char],
    run_append, run_balanced hinner]
  rfl

end JsonScan

/-! ## Prose -/

/-- The rest of a string and a balanced text. -/
def Inside (t : Text) : Prop := ∃ b u, t = b ++ '"' :: u ∧ StringBody b ∧ Balanced u

theorem balanced_cons_iff {c : Char} {t : Text} (hquote : c ≠ '"') (hopen : c ≠ '{')
    (hclose : c ≠ '}') : Balanced (c :: t) ↔ Balanced t := by
  constructor
  · intro h
    cases h with
    | plain _ _ _ h => exact h
    | string => exact absurd rfl hquote
    | braces => exact absurd rfl hopen
  · exact .plain hquote hopen hclose

theorem balanced_quote_iff {t : Text} : Balanced ('"' :: t) ↔ Inside t := by
  constructor
  · intro h
    cases h with
    | plain hquote => exact absurd rfl hquote
    | string hb h => exact ⟨_, _, rfl, hb, h⟩
  · intro hsome
    obtain ⟨b, u, rfl, hb, h⟩ := hsome
    exact .string hb h

theorem inside_quote_iff {t : Text} : Inside ('"' :: t) ↔ Balanced t := by
  constructor
  · intro hsome
    obtain ⟨b, u, ht, hb, h⟩ := hsome
    cases hb with
    | nil =>
      cases ht
      exact h
    | plain hquote => exact absurd (List.cons.inj ht).1.symm hquote
    | escape => exact absurd (List.cons.inj ht).1 (by decide)
  · exact fun h => ⟨[], t, rfl, .nil, h⟩

theorem inside_cons_iff {c : Char} {t : Text} (hquote : c ≠ '"') (hslash : c ≠ '\\') :
    Inside (c :: t) ↔ Inside t := by
  constructor
  · intro hsome
    obtain ⟨b, u, ht, hb, h⟩ := hsome
    cases hb with
    | nil => exact absurd (List.cons.inj ht).1 hquote
    | plain _ _ hb => exact ⟨_, u, (List.cons.inj ht).2, hb, h⟩
    | escape => exact absurd (List.cons.inj ht).1 hslash
  · intro hsome
    obtain ⟨b, u, rfl, hb, h⟩ := hsome
    exact ⟨c :: b, u, rfl, .plain hquote hslash hb, h⟩

theorem inside_slash_iff {c : Char} {t : Text} : Inside ('\\' :: c :: t) ↔ Inside t := by
  constructor
  · intro hsome
    obtain ⟨b, u, ht, hb, h⟩ := hsome
    cases hb with
    | nil => exact absurd (List.cons.inj ht).1 (by decide)
    | plain _ hslash => exact absurd (List.cons.inj ht).1.symm hslash
    | escape hb => exact ⟨_, u, (List.cons.inj (List.cons.inj ht).2).2, hb, h⟩
  · intro hsome
    obtain ⟨b, u, rfl, hb, h⟩ := hsome
    exact ⟨'\\' :: c :: b, u, rfl, .escape hb, h⟩

theorem not_inside_nil : ¬ Inside [] := by
  intro h
  obtain ⟨b, u, ht, -⟩ := h
  exact absurd ht (by simp)

theorem not_inside_slash : ¬ Inside ['\\'] := by
  intro h
  obtain ⟨b, u, ht, hb, -⟩ := h
  cases hb with
  | nil => exact absurd (List.cons.inj ht).1 (by decide)
  | plain _ hslash => exact absurd (List.cons.inj ht).1.symm hslash
  | escape => exact absurd (List.cons.inj ht).2 (by simp)

/-- Where the scan is after a text without braces, from outside a string and from inside
one: outside again exactly when the strings end. -/
theorem run_prose (n : Nat) : ∀ {t : Text}, t.length ≤ n → (∀ c ∈ t, c ≠ '{' ∧ c ≠ '}') →
    ∀ i, (∃ q e, (⟨[], 0, none, false, false⟩ : JsonScan).run i t = ⟨[], 0, none, q, e⟩ ∧
        (q = false ∧ e = false ∧ Balanced t ∨ q = true ∧ ¬ Balanced t)) ∧
      ∃ q e, (⟨[], 0, none, true, false⟩ : JsonScan).run i t = ⟨[], 0, none, q, e⟩ ∧
        (q = false ∧ e = false ∧ Inside t ∨ q = true ∧ ¬ Inside t) := by
  induction n with
  | zero =>
    intro t hlen _ i
    obtain rfl := List.eq_nil_of_length_eq_zero (Nat.le_zero.mp hlen)
    exact ⟨⟨_, _, rfl, .inl ⟨rfl, rfl, .nil⟩⟩, _, _, rfl, .inr ⟨rfl, not_inside_nil⟩⟩
  | succ n ih =>
    intro t hlen hbraces i
    cases t with
    | nil => exact ⟨⟨_, _, rfl, .inl ⟨rfl, rfl, .nil⟩⟩, _, _, rfl, .inr ⟨rfl, not_inside_nil⟩⟩
    | cons c t =>
      obtain ⟨⟨hopen, hclose⟩, ht⟩ := List.forall_mem_cons.mp hbraces
      obtain ⟨hout, hin⟩ := ih (Nat.le_of_succ_le_succ hlen) ht (i + 1)
      constructor
      · by_cases hquote : c = '"'
        · subst hquote
          rw [balanced_quote_iff]
          exact hin
        · rw [balanced_cons_iff hquote hopen hclose, JsonScan.run,
            show JsonScan.char _ i _ = ⟨[], 0, none, false, false⟩ by
              simp [JsonScan.char, hquote, hopen, hclose]]
          exact hout
      · by_cases hquote : c = '"'
        · subst hquote
          rw [inside_quote_iff]
          exact hout
        · by_cases hslash : c = '\\'
          · subst hslash
            cases t with
            | nil => exact ⟨_, _, rfl, .inr ⟨rfl, not_inside_slash⟩⟩
            | cons c' t =>
              -- the character after the backslash is of the string, whatever it is
              rw [inside_slash_iff]
              have hlen' : t.length ≤ n := by
                simp only [List.length_cons] at hlen
                omega
              exact (ih hlen' (List.forall_mem_cons.mp ht).2 (i + 1 + 1)).2
          · rw [inside_cons_iff hquote hslash, JsonScan.run,
              show JsonScan.char _ i _ = ⟨[], 0, none, true, false⟩ by
                simp [JsonScan.char, hquote, hslash]]
            exact hin

/-! ## The spans of any text -/

/-- A text with that many braces open. -/
inductive Opened : Nat → Text → Prop
  | zero {b : Text} (hb : Balanced b) : Opened 0 b
  | succ {d : Nat} {u b : Text} (h : Opened d u) (hb : Balanced b) :
      Opened (d + 1) (u ++ '{' :: b)

theorem Opened.append {d : Nat} {w b : Text} (h : Opened d w) (hb : Balanced b) :
    Opened d (w ++ b) := by
  cases h with
  | zero hw => exact .zero (hw.append hb)
  | succ h hw =>
    rw [List.append_assoc, List.cons_append]
    exact .succ h (hw.append hb)

theorem Opened.close {d : Nat} {w : Text} (h : Opened (d + 1) w) : Opened d (w ++ ['}']) := by
  cases h with
  | succ h hb =>
    rw [List.append_assoc, List.cons_append]
    exact h.append (.braces hb .nil)

/-- The same with the state of the string that the text may end in. -/
inductive Within : Nat → Bool → Bool → Text → Prop
  | outside {d : Nat} {w : Text} (h : Opened d w) : Within d false false w
  | inside {d : Nat} {u b : Text} (h : Opened d u) (hb : StringBody b) :
      Within d true false (u ++ '"' :: b)
  | escaped {d : Nat} {u b : Text} (h : Opened d u) (hb : StringBody b) :
      Within d true true (u ++ '"' :: (b ++ ['\\']))

/-- The object that is open, if one is. -/
inductive Current (text : Text) : JsonScan → Prop
  | closed {s : JsonScan} (hdepth : s.depth = 0) (hspan : s.spanStart = none)
      (hescape : s.inString = false → s.escape = false) : Current text s
  | opened {s : JsonScan} {d : Nat} {before w : Text} (hdepth : s.depth = d + 1)
      (hspan : s.spanStart = some before.length) (htext : text = before ++ '{' :: w)
      (hw : Within d s.inString s.escape w) : Current text s

/-- A span of the text is an object's. -/
def IsSpan (text : Text) (span : Nat × Nat) : Prop :=
  ∃ before inner after, text = before ++ '{' :: (inner ++ '}' :: after) ∧
    span = (before.length, before.length + 1 + inner.length + 1) ∧ Balanced inner

theorem IsSpan.append {text : Text} {span : Nat × Nat} (h : IsSpan text span) (more : Text) :
    IsSpan (text ++ more) span := by
  obtain ⟨before, inner, after, rfl, hspan, hinner⟩ := h
  exact ⟨before, inner, after ++ more, by simp only [List.append_assoc, List.cons_append], hspan,
    hinner⟩

theorem IsSpan.bounds {text : Text} {span : Nat × Nat} (h : IsSpan text span) :
    span.1 < span.2 ∧ span.2 ≤ text.length := by
  obtain ⟨before, inner, after, rfl, rfl, -⟩ := h
  simp only [List.length_append, List.length_cons]
  omega

theorem IsSpan.slice {text : Text} {span : Nat × Nat} (h : IsSpan text span) :
    ∃ inner, slice text span = '{' :: (inner ++ ['}']) ∧ Balanced inner := by
  obtain ⟨before, inner, after, rfl, rfl, hinner⟩ := h
  refine ⟨inner, ?_, hinner⟩
  unfold JsonSpans.slice
  rw [List.drop_left,
    show '{' :: (inner ++ '}' :: after) = '{' :: (inner ++ ['}']) ++ after by
      simp only [List.append_assoc, List.cons_append, List.nil_append]]
  refine List.take_left' ?_
  simp only [List.length_append, List.length_cons, List.length_nil]
  omega

/-- What is so of the scan when it has read so much of the text. -/
structure Tracks (start : Nat) (text : Text) (s : JsonScan) : Prop where
  current : Current text s
  spans : ∀ span ∈ s.objects, IsSpan text span
  ordered : s.objects.Pairwise fun a b => a.2 ≤ b.1
  before : ∀ span ∈ s.objects, ∀ a, s.spanStart = some a → span.2 ≤ a
  after : ∀ span ∈ s.objects, start ≤ span.1

theorem tracks_start {start : Nat} {text : Text} : Tracks start text {} where
  current := .closed rfl rfl fun _ => rfl
  spans := nofun
  ordered := .nil
  before := nofun
  after := nofun

variable {start : Nat} {text : Text} {s : JsonScan}

/-- A step that adds no span. -/
theorem Tracks.keep {s' : JsonScan} {c : Char} (h : Tracks start text s)
    (hobjects : s'.objects = s.objects)
    (hspan : ∀ a, s'.spanStart = some a → s.spanStart = some a ∨ a = text.length)
    (hcurrent : Current (text ++ [c]) s') : Tracks start (text ++ [c]) s' where
  current := hcurrent
  spans := by
    rw [hobjects]
    exact fun span hmem => (h.spans span hmem).append _
  ordered := by
    rw [hobjects]
    exact h.ordered
  before := by
    rw [hobjects]
    intro span hmem a ha
    rcases hspan a ha with hold | rfl
    · exact h.before span hmem a hold
    · exact (h.spans span hmem).bounds.2
  after := by
    rw [hobjects]
    exact h.after

/-- A character that opens and closes no brace. -/
theorem Current.next {q e : Bool} {c : Char} (h : Current text s) (hq : q = false → e = false)
    (hw : ∀ {d w}, Within d s.inString s.escape w → Within d q e (w ++ [c])) :
    Current (text ++ [c]) { s with inString := q, escape := e } := by
  cases h with
  | closed hdepth hspan => exact .closed hdepth hspan hq
  | opened hdepth hspan htext hwithin =>
    refine .opened hdepth hspan ?_ (hw hwithin)
    rw [htext, List.append_assoc, List.cons_append]

theorem StringBody.snoc {b : Text} {c : Char} (hb : StringBody b) (hquote : c ≠ '"')
    (hslash : c ≠ '\\') : StringBody (b ++ [c]) :=
  hb.append (.plain hquote hslash .nil)

/-- A character of a string. -/
theorem Tracks.inString {objects : List (Nat × Nat)} {depth : Nat} {spanStart : Option Nat}
    {e : Bool} (h : Tracks start text ⟨objects, depth, spanStart, true, e⟩) (c : Char) :
    Tracks start (text ++ [c])
      ((⟨objects, depth, spanStart, true, e⟩ : JsonScan).char text.length c) := by
  unfold JsonScan.char
  rw [if_pos rfl]
  cases e with
  | true =>
    refine h.keep rfl (fun a ha => .inl ha) (h.current.next nofun fun hw => ?_)
    cases hw with
    | escaped hu hb =>
      rw [List.append_assoc, List.cons_append, List.append_assoc]
      exact .inside hu (hb.append (.escape .nil))
  | false =>
    dsimp only
    rw [if_neg (by decide)]
    split
    next hslash =>
      refine h.keep rfl (fun a ha => .inl ha) (h.current.next nofun fun hw => ?_)
      cases hw with
      | inside hu hb =>
        rw [List.append_assoc, List.cons_append, hslash]
        exact .escaped hu hb
    next hslash =>
      split
      next hquote =>
        refine h.keep rfl (fun a ha => .inl ha) (h.current.next (fun _ => rfl) fun hw => ?_)
        cases hw with
        | inside hu hb =>
          rw [List.append_assoc, List.cons_append, hquote]
          exact .outside (hu.append (.string hb .nil))
      next hquote =>
        refine h.keep rfl (fun a ha => .inl ha) (h.current.next nofun fun hw => ?_)
        cases hw with
        | inside hu hb =>
          rw [List.append_assoc, List.cons_append]
          exact .inside hu (hb.snoc hquote hslash)

/-- The object that is open outside of the strings. -/
theorem Current.outside {objects : List (Nat × Nat)} {depth : Nat} {spanStart : Option Nat}
    {e : Bool} (h : Current text ⟨objects, depth, spanStart, false, e⟩) :
    (depth = 0 ∧ spanStart = none ∧ e = false) ∨
      ∃ d before w, depth = d + 1 ∧ spanStart = some before.length ∧
        text = before ++ '{' :: w ∧ e = false ∧ Opened d w := by
  cases h with
  | closed hdepth hspan hescape => exact .inl ⟨hdepth, hspan, hescape rfl⟩
  | opened hdepth hspan htext hw =>
    cases hw with
    | outside hw => exact .inr ⟨_, _, _, hdepth, hspan, htext, rfl, hw⟩

/-- An opening brace. -/
theorem Tracks.openBrace {objects : List (Nat × Nat)} {depth : Nat} {spanStart : Option Nat}
    {e : Bool} (h : Tracks start text ⟨objects, depth, spanStart, false, e⟩) :
    Tracks start (text ++ ['{'])
      ⟨objects, depth + 1, if depth = 0 then some text.length else spanStart, false, e⟩ := by
  rcases h.current.outside with ⟨rfl, rfl, rfl⟩ | ⟨d, before, w, rfl, rfl, rfl, rfl, hw⟩
  · refine h.keep rfl (fun a ha => .inr (Option.some.inj ha).symm) ?_
    exact .opened rfl rfl rfl (.outside (.zero .nil))
  · refine h.keep rfl (fun a ha => .inl ha) (.opened rfl rfl ?_ (.outside (hw.succ .nil)))
    rw [List.append_assoc, List.cons_append]

/-- A closing brace. -/
theorem Tracks.closeBrace {objects : List (Nat × Nat)} {depth : Nat} {spanStart : Option Nat}
    {e : Bool} (h : Tracks start text ⟨objects, depth, spanStart, false, e⟩)
    (hafter : ∀ a, spanStart = some a → start ≤ a) :
    Tracks start (text ++ ['}'])
      ((⟨objects, depth, spanStart, false, e⟩ : JsonScan).char text.length '}') := by
  rcases h.current.outside with ⟨rfl, rfl, rfl⟩ | ⟨d, before, w, rfl, rfl, rfl, rfl, hw⟩
  · exact h.keep rfl (fun a ha => .inl ha) (.closed rfl rfl fun _ => rfl)
  · cases d with
    | zero =>
      -- the outermost brace: a span, behind those that were there
      cases hw with
      | zero hw =>
      have hspan : IsSpan ((before ++ '{' :: w) ++ ['}'])
          (before.length, (before ++ '{' :: w).length + 1) := by
        refine ⟨before, w, [], by rw [List.append_assoc, List.cons_append], ?_, hw⟩
        rw [List.length_append, List.length_cons, Nat.add_assoc, Nat.add_comm w.length 1,
          Nat.add_assoc, Nat.add_assoc, Nat.add_assoc]
      refine ⟨.closed rfl rfl fun _ => rfl, ?_, ?_, nofun, ?_⟩
      · intro span hmem
        rcases List.mem_append.mp hmem with hmem | hmem
        · exact (h.spans span hmem).append _
        · rw [List.mem_singleton.mp hmem]
          exact hspan
      · refine List.pairwise_append.mpr ⟨h.ordered, List.pairwise_singleton _ _, ?_⟩
        intro span hmem last hlast
        rw [List.mem_singleton.mp hlast]
        exact h.before span hmem _ rfl
      · intro span hmem
        rcases List.mem_append.mp hmem with hmem | hmem
        · exact h.after span hmem
        · rw [List.mem_singleton.mp hmem]
          exact hafter _ rfl
    | succ d =>
      refine h.keep rfl (fun a ha => .inl ha) (.opened rfl rfl ?_ (.outside hw.close))
      rw [List.append_assoc, List.cons_append]

/-- One character. -/
theorem Tracks.char (h : Tracks start text s) (hafter : ∀ a, s.spanStart = some a → start ≤ a)
    (c : Char) : Tracks start (text ++ [c]) (s.char text.length c) := by
  obtain ⟨objects, depth, spanStart, q, e⟩ := s
  cases q with
  | true => exact h.inString c
  | false =>
    by_cases hclose : c = '}'
    · subst hclose
      exact h.closeBrace hafter
    · have hescape : e = false := by
        rcases h.current.outside with ⟨-, -, rfl⟩ | ⟨d, before, w, -, -, -, rfl, -⟩ <;> rfl
      unfold JsonScan.char
      rw [if_neg (show ¬ false = true by decide), if_neg hclose]
      split
      next hquote =>
        refine h.keep rfl (fun a ha => .inl ha) (h.current.next nofun fun hw => ?_)
        cases hw with
        | outside hw =>
          rw [hquote]
          exact .inside hw .nil
      next hquote =>
        split
        next hopen =>
          rw [hopen]
          exact h.openBrace
        next hopen =>
          refine h.keep rfl (fun a ha => .inl ha) (h.current.next (fun _ => hescape) fun hw => ?_)
          cases hw with
          | outside hw => exact .outside (hw.append (.plain hquote hopen hclose .nil))

theorem Tracks.run (h : Tracks start text s) (hstart : start ≤ text.length)
    (hafter : ∀ a, s.spanStart = some a → start ≤ a) (t : Text) :
    Tracks start (text ++ t) (s.run text.length t) := by
  induction t generalizing text s with
  | nil =>
    rw [List.append_nil]
    exact h
  | cons c t ih =>
    have hnext := ih (h.char hafter c) (by rw [List.length_append]; omega) fun a ha => by
      rcases JsonScan.char_spanStart ha with rfl | hbefore
      · exact hstart
      · exact hafter a hbefore
    rwa [List.append_assoc, List.length_append] at hnext

/-- The spans of one scan, and where the next one starts. -/
theorem scan_tracks {text : Text} {start : Nat} (h : start ≤ text.length) :
    (∀ span ∈ (scanJsonObjects text start).1, IsSpan text span ∧ start ≤ span.1) ∧
      (scanJsonObjects text start).1.Pairwise (fun a b => a.2 ≤ b.1) ∧
      ∀ u, (scanJsonObjects text start).2 = some u →
        ∀ span ∈ (scanJsonObjects text start).1, span.2 ≤ u := by
  have htracks := (@tracks_start start (text.take start)).run
    (by rw [List.length_take]; omega) nofun (text.drop start)
  rw [List.take_append_drop, List.length_take_of_le h] at htracks
  refine ⟨fun span hmem => ⟨htracks.spans span hmem, htracks.after span hmem⟩, htracks.ordered,
    fun u hu span hmem => ?_⟩
  unfold scanJsonObjects JsonScan.unmatched at hu
  dsimp only at hu
  split at hu
  · exact htracks.before span hmem u hu
  · cases hu

theorem iterSpans_eq {text : Text} {searchFrom : Nat} (h : searchFrom < text.length) :
    iterSpans text searchFrom = (scanJsonObjects text searchFrom).1 ++
      match (scanJsonObjects text searchFrom).2 with
      | none => []
      | some unmatched => iterSpans text (unmatched + 1) := by
  rw [iterSpans, if_pos h]
  split <;> simp_all

/-- All of it, from an index on. -/
theorem iterSpans_spec (text : Text) (searchFrom : Nat) :
    (∀ span ∈ iterSpans text searchFrom, IsSpan text span ∧ searchFrom ≤ span.1) ∧
      (iterSpans text searchFrom).Pairwise fun a b => a.2 ≤ b.1 := by
  induction searchFrom using iterSpans.induct text with
  | case1 searchFrom hlt ih =>
    obtain ⟨hspans, hordered, hbefore⟩ := scan_tracks (Nat.le_of_lt hlt)
    rw [iterSpans_eq hlt]
    cases hscan : (scanJsonObjects text searchFrom).2 with
    | none =>
      rw [List.append_nil]
      exact ⟨hspans, hordered⟩
    | some u =>
      obtain ⟨hlater, hlater'⟩ := ih u hscan
      obtain ⟨hle, -⟩ := scan_unmatched hscan
      constructor
      · intro span hmem
        rcases List.mem_append.mp hmem with hmem | hmem
        · exact hspans span hmem
        · obtain ⟨hspan, hfrom⟩ := hlater span hmem
          exact ⟨hspan, by omega⟩
      · refine List.pairwise_append.mpr ⟨hordered, hlater', fun a ha b hb => ?_⟩
        have hend := hbefore u hscan a ha
        have hfrom := (hlater b hb).2
        omega
  | case2 searchFrom hlt =>
    rw [iterSpans, if_neg hlt]
    exact ⟨nofun, .nil⟩

/-! ## An object behind prose -/

namespace JsonScan

theorem char_objects {s : JsonScan} {i : Nat} {ch : Char} {span : Nat × Nat}
    (h : span ∈ (s.char i ch).objects) : span ∈ s.objects ∨ s.spanStart = some span.1 := by
  unfold char at h
  grind

theorem char_keeps {s : JsonScan} {i : Nat} {ch : Char} {span : Nat × Nat}
    (h : span ∈ s.objects) : span ∈ (s.char i ch).objects := by
  unfold char
  grind

theorem run_keeps {s : JsonScan} {i : Nat} {t : Text} {span : Nat × Nat} (h : span ∈ s.objects) :
    span ∈ (s.run i t).objects := by
  induction t generalizing s i with
  | nil => exact h
  | cons ch t ih => exact ih (char_keeps h)

/-- A new span starts where the open object did, or later than the scan. -/
theorem run_objects {s : JsonScan} {i : Nat} {t : Text} {span : Nat × Nat}
    (h : span ∈ (s.run i t).objects) :
    span ∈ s.objects ∨ s.spanStart = some span.1 ∨ i ≤ span.1 := by
  induction t generalizing s i with
  | nil => exact .inl h
  | cons ch t ih =>
    rcases ih h with hold | hspan | hlater
    · rcases char_objects hold with hold | hspan
      · exact .inl hold
      · exact .inr (.inl hspan)
    · rcases char_spanStart hspan with hhere | hbefore
      · exact .inr (.inr hhere.ge)
      · exact .inr (.inl hbefore)
    · exact .inr (.inr (by omega))

end JsonScan

variable {prose j rest : Text}

theorem noBraces_of_all {t : Text} (h : t.all fun c => decide (c ≠ '{' ∧ c ≠ '}')) :
    ∀ c ∈ t, c ≠ '{' ∧ c ≠ '}' :=
  fun c hc => of_decide_eq_true (List.all_eq_true.mp h c hc)

theorem scan_prose (hbraces : ∀ c ∈ prose, c ≠ '{' ∧ c ≠ '}') (t : Text) :
    ∃ q e, (({} : JsonScan).run 0 (prose ++ t)) =
        (⟨[], 0, none, q, e⟩ : JsonScan).run prose.length t ∧
      (q = false ∧ e = false ∧ Balanced prose ∨ q = true ∧ ¬ Balanced prose) := by
  obtain ⟨q, e, hrun, hstate⟩ := (run_prose prose.length le_rfl hbraces 0).1
  refine ⟨q, e, ?_, hstate⟩
  rw [JsonScan.run_append, Nat.zero_add]
  exact congrArg (fun s => JsonScan.run s prose.length t) hrun

/-- The object is found behind prose whose strings end. -/
theorem mem_iterSpans (hbraces : ∀ c ∈ prose, c ≠ '{' ∧ c ≠ '}') (hprose : Balanced prose)
    (hj : IsObjectText j) :
    (prose.length, prose.length + j.length) ∈ iterSpans (prose ++ (j ++ rest)) 0 := by
  obtain ⟨inner, rfl, hinner⟩ := hj.split
  obtain ⟨q, e, hrun, hstate⟩ := scan_prose hbraces ('{' :: (inner ++ ['}']) ++ rest)
  obtain ⟨rfl, rfl, -⟩ := hstate.resolve_right fun h => h.2 hprose
  rw [JsonScan.run_append _ prose.length, JsonScan.run_object hinner] at hrun
  rw [iterSpans_eq (by rw [List.length_append, List.cons_append, List.length_cons]; omega)]
  refine List.mem_append_left _ ?_
  show _ ∈ (({} : JsonScan).run 0 (prose ++ ('{' :: (inner ++ ['}']) ++ rest))).objects
  rw [hrun]
  refine JsonScan.run_keeps (List.mem_append_right _ (List.mem_singleton.mpr ?_))
  simp only [List.length_cons, List.length_append, List.length_nil]
  rw [Prod.mk.injEq]
  exact ⟨rfl, by omega⟩

/-- Behind prose with a string that does not end no span starts where the object does. -/
theorem not_mem_iterSpans (hbraces : ∀ c ∈ prose, c ≠ '{' ∧ c ≠ '}') (hprose : ¬ Balanced prose)
    {t : Text} {span : Nat × Nat} (h : span ∈ iterSpans (prose ++ '{' :: t) 0) :
    prose.length < span.1 := by
  obtain ⟨q, e, hrun, hstate⟩ := scan_prose hbraces ('{' :: t)
  obtain ⟨rfl, -⟩ := hstate.resolve_left fun h => hprose h.2.2
  -- the brace is read as a character of the string
  have hbrace : (⟨[], 0, none, true, e⟩ : JsonScan).run prose.length ('{' :: t) =
      (⟨[], 0, none, true, false⟩ : JsonScan).run (prose.length + 1) t := by
    cases e <;> rfl
  rw [hbrace] at hrun
  rw [iterSpans_eq (by rw [List.length_append, List.length_cons]; omega)] at h
  rcases List.mem_append.mp h with hfirst | hlater
  · replace hfirst : span ∈ (({} : JsonScan).run 0 (prose ++ '{' :: t)).objects := hfirst
    rw [hrun] at hfirst
    rcases JsonScan.run_objects hfirst with hold | hspan | hlt
    · cases hold
    · cases hspan
    · exact hlt
  · split at hlater
    · cases hlater
    next u hu =>
      have hfrom := ((iterSpans_spec _ _).1 span hlater).2
      have hspan : (({} : JsonScan).run 0 (prose ++ '{' :: t)).spanStart = some u := by
        unfold scanJsonObjects JsonScan.unmatched at hu
        dsimp only [List.drop_zero] at hu
        split at hu
        · exact hu
        · cases hu
      rw [hrun] at hspan
      rcases JsonScan.run_spanStart hspan with ⟨hle, -⟩ | hnone
      · omega
      · cases hnone

/-- **An object is found behind prose** exactly when every string of the prose ends. The spans
of any text are apart from each other, and balanced. -/
theorem object_found_iff (text : Text) {prose j : Text} (rest : Text)
    (hbraces : ∀ c ∈ prose, c ≠ '{' ∧ c ≠ '}') (hj : IsObjectText j) :
    ((iterSpans text 0).Pairwise (fun a b => a.2 ≤ b.1) ∧
      ∀ span ∈ iterSpans text 0, span.1 < span.2 ∧ span.2 ≤ text.length ∧
        ∃ inner, slice text span = '{' :: (inner ++ ['}']) ∧ Balanced inner) ∧
    ((∃ span ∈ iterSpans (prose ++ (j ++ rest)) 0, span.1 = prose.length ∧
      slice (prose ++ (j ++ rest)) span = j) ↔ Balanced prose) := by
  constructor
  · obtain ⟨hspans, hordered⟩ := iterSpans_spec text 0
    exact ⟨hordered, fun span hmem => ⟨(hspans span hmem).1.bounds.1, (hspans span hmem).1.bounds.2,
      (hspans span hmem).1.slice⟩⟩
  · constructor
    · intro h
      obtain ⟨span, hmem, hstart, -⟩ := h
      by_contra hprose
      obtain ⟨inner, rfl, -⟩ := hj.split
      exact absurd hstart (not_mem_iterSpans hbraces hprose hmem).ne'
    · intro hprose
      refine ⟨_, mem_iterSpans hbraces hprose hj, rfl, ?_⟩
      unfold slice
      rw [List.drop_left, Nat.add_sub_cancel_left, List.take_left]

/-- A call behind a quoted word. -/
theorem object_found_quoted :
    ∃ span ∈ iterSpans ("the \"a\" of ".toList ++ ("\x7b\x7d".toList ++ "!".toList)) 0,
      span.1 = 11 ∧ slice ("the \"a\" of ".toList ++ ("\x7b\x7d".toList ++ "!".toList)) span =
        "\x7b\x7d".toList :=
  (@object_found_iff [] "the \"a\" of ".toList "\x7b\x7d".toList "!".toList
    (noBraces_of_all (by decide)) ⟨1, [], rfl⟩).2.mpr
    (.plain (by decide) (by decide) (by decide) (.plain (by decide) (by decide) (by decide)
      (.plain (by decide) (by decide) (by decide) (.plain (by decide) (by decide) (by decide)
        (@Balanced.string ['a'] _ (.plain (by decide) (by decide) .nil)
          (@Unmarked.balanced " of ".toList (.of_all (by decide))))))))

/-- One quote in the prose hides the object. -/
theorem quote_hides_object :
    ¬ ∀ prose j rest : Text, (∀ c ∈ prose, c ≠ '{' ∧ c ≠ '}') → IsObjectText j →
      j ∈ iterJsonObjects (prose ++ (j ++ rest)) := by
  intro h
  have hmem := h "5\" pipe: ".toList "\x7b\x7d".toList []
    (noBraces_of_all (by decide)) ⟨1, [], rfl⟩
  have hspans : iterSpans ("5\" pipe: ".toList ++ ("\x7b\x7d".toList ++ [])) 0 = [] := by
    rw [iterSpans_eq (by decide),
      show scanJsonObjects _ 0 = ([], none) by decide]
    rfl
  rw [iterJsonObjects, hspans] at hmem
  cases hmem

end Shamsu.Llm.JsonSpans
