import Shamsu.Py.Strip
import Shamsu.Telegram.Controller

/-!
# Answers in pages

An answer that is too long for a message is cut into pages, at line ends and blanks
where there are some. The pages have a header, which is put before a piece that may
be as long as a whole message, and of the pages the controller sends the first.

`pages_complete`: the pages carry the answer. `answer_delivered`: the reply does, in
pages of the right size, exactly when the answer is one page.
-/

namespace Shamsu.Telegram.Pages

open Shamsu.Py

/-! ## `paginate` -/

/-- `s.rfind(c)`. -/
def rfind (c : Char) : Text → Int
  | [] => -1
  | d :: s => if 0 ≤ rfind c s then rfind c s + 1 else if d = c then 0 else -1

/-- The piece the loop takes off what remains. -/
def firstChunk (maxChars : Nat) (remaining : Text) : Text :=
  let chunk := remaining.take maxChars
  let splitAt := max (rfind '\n' chunk) (rfind ' ' chunk)
  -- a line end or blank in the first half is no place to cut
  if splitAt > (maxChars / 2 : Nat) then chunk.take splitAt.toNat else chunk

/-- The loop; `none` when it is still running after `fuel` rounds. -/
def chunks (maxChars : Nat) : Nat → Text → Option (List Text)
  | _, [] => some []
  | 0, _ :: _ => none
  | fuel + 1, remaining@(_ :: _) =>
    let chunk := firstChunk maxChars remaining
    (chunks maxChars fuel (lstrip (remaining.drop chunk.length))).map (rstrip chunk :: ·)

/-- A `Page`: its text is a header, which is empty or names the page, and a piece
of the answer. -/
structure Page where
  header : Text
  body : Text
  index : Nat
  total : Nat
  deriving DecidableEq, Repr

def Page.text (page : Page) : Text := page.header ++ page.body

/-- `f"Page {index} / {total}\n\n"`. -/
def pageHeader (index total : Nat) : Text :=
  "Page ".toList ++ Nat.toDigits 10 index ++ " / ".toList ++ Nat.toDigits 10 total
    ++ "\n\n".toList

/-- `enumerate(chunks, 1)`, from `index` on. -/
def numbered (total : Nat) : Nat → List Text → List Page
  | _, [] => []
  | index, chunk :: rest =>
    { header := pageHeader index total, body := chunk, index, total }
      :: numbered total (index + 1) rest

/-- `TelegramFormatter.paginate`. -/
def paginate (redact : Text → Text) (maxChars fuel : Nat) (text : Text) : Option (List Page) :=
  let clean := redact text
  if clean.length ≤ maxChars then
    some [{ header := [], body := clean, index := 1, total := 1 }]
  else (chunks maxChars fuel clean).map fun cs => numbered cs.length 1 cs

/-! ## The reply -/

/-- An outbound message: its text is what goes before, and a piece of the answer. -/
structure Reply where
  chatId : Int
  lead : Text
  body : Text
  deriving DecidableEq, Repr

/-- `response = pages[0].text`, behind the prefix if there is one. -/
def responseTo (chatId : Int) (heard : Text) : List Page → Option Reply
  | [] => none
  | page :: _ =>
    some
      { chatId
        lead := if heard = [] then page.header else heard ++ "\n\n".toList ++ page.header
        body := page.body }

/-- What `_handle_message` returns for a text or a voice note of an authorized user:
`answer` is the text of the gateway's result. -/
def routeTextMessage (redact : Text → Text) (maxChars fuel : Nat) (chatId : Int)
    (heard answer : Text) : Option (List Reply) := do
  let pages ← paginate redact maxChars fuel answer
  -- only the first page is sent
  let reply ← responseTo chatId heard pages
  some [reply]

/-! ## White space -/

/-- The characters that are no white space. -/
def nonblank (t : Text) : Text := t.filter fun c => !isSpace c

@[simp] theorem nonblank_append (a b : Text) : nonblank (a ++ b) = nonblank a ++ nonblank b :=
  List.filter_append ..

theorem nonblank_eq_nil {t : Text} : nonblank t = [] ↔ ∀ c ∈ t, isSpace c = true := by
  simp [nonblank, List.filter_eq_nil_iff]

@[simp] theorem nonblank_lstrip (t : Text) : nonblank (lstrip t) = nonblank t := by
  have hsplit : t.takeWhile isSpace ++ lstrip t = t := List.takeWhile_append_dropWhile
  have hwhite : nonblank (t.takeWhile isSpace) = [] :=
    nonblank_eq_nil.mpr fun c hc => List.mem_takeWhile_imp hc
  conv_rhs => rw [← hsplit, nonblank_append, hwhite, List.nil_append]

@[simp] theorem nonblank_rstrip (t : Text) : nonblank (rstrip t) = nonblank t := by
  have hsplit : rstrip t ++ t.rtakeWhile isSpace = t := List.rdropWhile_append_rtakeWhile
  have hwhite : nonblank (t.rtakeWhile isSpace) = [] :=
    nonblank_eq_nil.mpr fun c hc => List.mem_rtakeWhile_imp hc
  conv_rhs => rw [← hsplit, nonblank_append, hwhite, List.append_nil]

theorem lstrip_eq_nil_iff {t : Text} : lstrip t = [] ↔ nonblank t = [] := by
  rw [nonblank_eq_nil]
  exact List.dropWhile_eq_nil_iff

/-- What follows a position is white space, when the stripped text does not reach it. -/
theorem blank_drop_iff {s : Text} {n : Nat} :
    (∀ c ∈ s.drop n, isSpace c = true) ↔ (rstrip s).length ≤ n := by
  have hsplit : rstrip s ++ s.rtakeWhile isSpace = s := List.rdropWhile_append_rtakeWhile
  constructor
  · intro hblank
    have hstrip : rstrip s = rstrip (s.take n) := by
      conv_lhs => rw [← List.take_append_drop n s]
      rw [rstrip_append, if_pos (rstrip_spaces hblank)]
    rw [hstrip]
    exact (List.rdropWhile_prefix _ _).length_le.trans (List.length_take_le _ _)
  · intro hle c hc
    rw [← hsplit, List.drop_append, List.drop_eq_nil_of_le hle, List.nil_append] at hc
    exact List.mem_rtakeWhile_imp (List.mem_of_mem_drop hc)

/-! ## Where a piece ends -/

/-- A line end or a blank: `paginate` cuts before one. -/
def isCut (c : Char) : Bool := c == '\n' || c == ' '

/-- The last occurrence is at `k` or behind when there is one from `k` on. -/
theorem le_rfind (c : Char) (s : Text) : ∀ k : Nat, (k : Int) ≤ rfind c s ↔ c ∈ s.drop k := by
  induction s with
  | nil =>
    intro k
    simp only [rfind, List.drop_nil, List.not_mem_nil, iff_false]
    omega
  | cons d s ih =>
    have hmem : (0 : Int) ≤ rfind c s ↔ c ∈ s := by simpa using ih 0
    intro k
    cases k with
    | zero =>
      simp only [rfind, List.drop_zero, List.mem_cons, ← hmem]
      split
      · simp only [Int.ofNat_zero, ‹0 ≤ rfind c s›, or_true, iff_true]
        omega
      · split <;> simp_all [eq_comm]
    | succ k =>
      rw [List.drop_succ_cons, ← ih k, rfind]
      split
      · omega
      · split <;> omega

/-- `max(chunk.rfind("\n"), chunk.rfind(" "))`. -/
def lastCut (s : Text) : Int := max (rfind '\n' s) (rfind ' ' s)

theorem le_lastCut {s : Text} {k : Nat} :
    (k : Int) ≤ lastCut s ↔ ∃ c ∈ s.drop k, isCut c = true := by
  have hmax : (k : Int) ≤ lastCut s ↔ (k : Int) ≤ rfind '\n' s ∨ (k : Int) ≤ rfind ' ' s := by
    unfold lastCut
    omega
  simp only [hmax, le_rfind, isCut, Bool.or_eq_true, beq_iff_eq]
  constructor
  · intro hcase
    rcases hcase with h | h
    · exact ⟨_, h, .inl rfl⟩
    · exact ⟨_, h, .inr rfl⟩
  · intro hsome
    obtain ⟨c, h, rfl | rfl⟩ := hsome
    · exact .inl h
    · exact .inr h

theorem lastCut_lt (s : Text) : lastCut s < s.length := by
  by_contra h
  obtain ⟨c, hc, -⟩ := le_lastCut.mp (Int.not_lt.mp h)
  rw [List.drop_length] at hc
  cases hc

variable {maxChars : Nat} {s : Text}

theorem firstChunk_eq (maxChars : Nat) (s : Text) :
    firstChunk maxChars s =
      if lastCut (s.take maxChars) > (maxChars / 2 : Nat)
      then (s.take maxChars).take (lastCut (s.take maxChars)).toNat else s.take maxChars := rfl

theorem firstChunk_opens (maxChars : Nat) (s : Text) : firstChunk maxChars s <+: s := by
  rw [firstChunk_eq]
  split
  · exact (List.take_prefix _ _).trans (List.take_prefix _ _)
  · exact List.take_prefix _ _

/-- A piece, and what remains. -/
theorem firstChunk_split (maxChars : Nat) (s : Text) :
    firstChunk maxChars s ++ s.drop (firstChunk maxChars s).length = s := by
  conv_rhs => rw [← List.take_append_drop (firstChunk maxChars s).length s]
  rw [← List.prefix_iff_eq_take.mp (firstChunk_opens maxChars s)]

theorem length_firstChunk (maxChars : Nat) (s : Text) :
    (firstChunk maxChars s).length =
      if lastCut (s.take maxChars) > (maxChars / 2 : Nat)
      then (lastCut (s.take maxChars)).toNat else min maxChars s.length := by
  have hlt := lastCut_lt (s.take maxChars)
  rw [List.length_take] at hlt
  rw [firstChunk_eq]
  split
  · rw [List.length_take, List.length_take]
    omega
  · rw [List.length_take]

/-- Every round takes something off. -/
theorem length_firstChunk_pos (hmax : 0 < maxChars) (hs : s ≠ []) :
    0 < (firstChunk maxChars s).length := by
  have := List.length_pos_of_ne_nil hs
  rw [length_firstChunk]
  split <;> omega

/-! ## The loop -/

theorem chunks_cons {s : Text} (hs : s ≠ []) (fuel : Nat) :
    chunks maxChars (fuel + 1) s =
      (chunks maxChars fuel (lstrip (s.drop (firstChunk maxChars s).length))).map
        (rstrip (firstChunk maxChars s) :: ·) := by
  cases s with
  | nil => exact absurd rfl hs
  | cons c s => rfl

theorem chunks_nil (fuel : Nat) : chunks maxChars fuel [] = some [] := by
  cases fuel <;> rfl

/-- As many rounds as there are characters are enough. -/
theorem chunks_terminates (hmax : 0 < maxChars) : ∀ (fuel : Nat) (s : Text), s.length ≤ fuel →
    (chunks maxChars fuel s).isSome = true := by
  intro fuel
  induction fuel with
  | zero =>
    intro s hs
    rw [List.eq_nil_of_length_eq_zero (Nat.le_zero.mp hs)]
    rfl
  | succ fuel ih =>
    intro s hs
    by_cases hnil : s = []
    · rw [hnil, chunks_nil]
      rfl
    · rw [chunks_cons hnil, Option.isSome_map]
      refine ih _ ?_
      -- every round takes a character off what remains
      have hpos := length_firstChunk_pos hmax hnil
      have hle : (lstrip (s.drop (firstChunk maxChars s).length)).length
          ≤ (s.drop (firstChunk maxChars s).length).length :=
        (List.dropWhile_suffix _).length_le
      rw [List.length_drop] at hle
      omega

/-- The pieces lose no character but white space. -/
theorem chunks_complete : ∀ (fuel : Nat) {s : Text} {cs : List Text},
    chunks maxChars fuel s = some cs → nonblank cs.flatten = nonblank s := by
  intro fuel
  induction fuel with
  | zero =>
    intro s cs h
    cases s with
    | nil =>
      cases h
      rfl
    | cons c s => cases h
  | succ fuel ih =>
    intro s cs h
    by_cases hnil : s = []
    · rw [hnil, chunks_nil] at h
      cases h
      rw [hnil]
      rfl
    · rw [chunks_cons hnil] at h
      obtain ⟨rest, hrest, rfl⟩ := Option.map_eq_some_iff.mp h
      rw [List.flatten_cons, nonblank_append, nonblank_rstrip, ih hrest, nonblank_lstrip,
        ← nonblank_append, firstChunk_split]

/-! ## Pages -/

theorem body_numbered (total : Nat) : ∀ (index : Nat) (cs : List Text),
    (numbered total index cs).map Page.body = cs
  | _, [] => rfl
  | index, chunk :: rest => congrArg (chunk :: ·) (body_numbered total (index + 1) rest)

variable {redact : Text → Text} {answer : Text}

theorem paginate_terminates (hmax : 0 < maxChars) (redact : Text → Text) (answer : Text) :
    ∃ fuel, (paginate redact maxChars fuel answer).isSome = true := by
  refine ⟨(redact answer).length, ?_⟩
  simp only [paginate]
  split
  · rfl
  · rw [Option.isSome_map]
    exact chunks_terminates hmax _ _ le_rfl

/-- All pages together carry the answer. -/
theorem pages_complete {fuel : Nat} {pages : List Page}
    (h : paginate redact maxChars fuel answer = some pages) :
    nonblank (pages.flatMap Page.body) = nonblank (redact answer) := by
  simp only [paginate] at h
  split at h
  · cases h
    simp
  · obtain ⟨cs, hcs, rfl⟩ := Option.map_eq_some_iff.mp h
    rw [List.flatMap_def, body_numbered, chunks_complete fuel hcs]

/-- Three pages of two characters. -/
theorem pages_complete_three :
    nonblank ((numbered 3 1 ["ab".toList, "c".toList, "de".toList]).flatMap Page.body) =
      nonblank "ab c\nde".toList :=
  @pages_complete 2 id "ab c\nde".toList 3 _ (by decide)

/-! ## What is delivered -/

/-- The reply carries every character of the redacted answer that is no white space,
in order, and the pages have the size they should have. -/
def Delivered (redact : Text → Text) (maxChars : Nat) (chatId : Int) (heard answer : Text) : Prop :=
  ∃ fuel pages replies, paginate redact maxChars fuel answer = some pages ∧
    routeTextMessage redact maxChars fuel chatId heard answer = some replies ∧
    (∀ page ∈ pages, page.text.length ≤ maxChars) ∧
    nonblank (replies.flatMap Reply.body) = nonblank (redact answer)

/-- The text fits a message; or all but trailing white space does together with a
header, and the cut is not made before that white space. -/
def OnePage (maxChars : Nat) (clean : Text) : Prop :=
  clean.length ≤ maxChars ∨
    (rstrip clean).length + 12 ≤ maxChars ∧
      ((∃ c ∈ (clean.take maxChars).drop (rstrip clean).length, isCut c = true) ∨
        ∀ c ∈ (clean.take maxChars).drop (maxChars / 2 + 1), isCut c = false)

/-- Nothing but white space remains behind the first piece. -/
theorem rest_blank_iff (hroom : (rstrip s).length ≤ maxChars) (hlong : maxChars < s.length) :
    (∀ c ∈ s.drop (firstChunk maxChars s).length, isSpace c = true) ↔
      ((∃ c ∈ (s.take maxChars).drop (rstrip s).length, isCut c = true) ∨
        ∀ c ∈ (s.take maxChars).drop (maxChars / 2 + 1), isCut c = false) := by
  have hfar : (∀ c ∈ (s.take maxChars).drop (maxChars / 2 + 1), isCut c = false) ↔
      ¬ lastCut (s.take maxChars) > (maxChars / 2 : Nat) := by
    have hcut := @le_lastCut (s.take maxChars) (maxChars / 2 + 1)
    rw [gt_iff_lt, ← Int.add_one_le_iff, ← Int.natCast_succ, hcut]
    simp
  rw [blank_drop_iff, length_firstChunk, ← le_lastCut, hfar]
  split <;> omega

/-- When the rest is blank, the first piece is the text up to white space. -/
theorem rstrip_firstChunk
    (hblank : ∀ c ∈ s.drop (firstChunk maxChars s).length, isSpace c = true) :
    rstrip (firstChunk maxChars s) = rstrip s := by
  conv_rhs => rw [← firstChunk_split maxChars s, rstrip_append, if_pos (rstrip_spaces hblank)]

/-- The pages of a text that is too long for one message. -/
theorem paginate_long (hlong : maxChars < (redact answer).length) (fuel : Nat) :
    paginate redact maxChars (fuel + 1) answer =
      (chunks maxChars fuel
          (lstrip ((redact answer).drop (firstChunk maxChars (redact answer)).length))).map
        fun rest =>
          numbered (rest.length + 1) 1 (rstrip (firstChunk maxChars (redact answer)) :: rest) := by
  have hnil : redact answer ≠ [] := List.ne_nil_of_length_pos (by omega)
  simp only [paginate, if_neg (Nat.not_le.mpr hlong), chunks_cons hnil, Option.map_map]
  rfl

/-- The only page of a text that is too long. -/
def lonePage (body : Text) : Page := { header := pageHeader 1 1, body, index := 1, total := 1 }

theorem length_lonePage (body : Text) : (lonePage body).text.length = body.length + 12 := by
  rw [Page.text, List.length_append, Nat.add_comm]
  rfl

theorem delivered_short (hshort : (redact answer).length ≤ maxChars) (chatId : Int)
    (heard : Text) : Delivered redact maxChars chatId heard answer := by
  let page : Page := { header := [], body := redact answer, index := 1, total := 1 }
  have hpages : paginate redact maxChars 0 answer = some [page] := by
    simp [paginate, hshort, page]
  refine ⟨0, [page], _, hpages, by rw [routeTextMessage, hpages]; rfl, ?_, ?_⟩
  · intro p hp
    rw [List.mem_singleton.mp hp]
    exact hshort
  · simp [page]

/-- The first page carries the answer exactly when only white space follows its piece. -/
theorem delivered_long (hlong : maxChars < (redact answer).length) (chatId : Int)
    (heard : Text) :
    Delivered redact maxChars chatId heard answer ↔
      (rstrip (redact answer)).length + 12 ≤ maxChars ∧
        ∀ c ∈ (redact answer).drop (firstChunk maxChars (redact answer)).length,
          isSpace c = true := by
  constructor
  · intro h
    obtain ⟨fuel, pages, replies, hpages, hreplies, hsize, hcarry⟩ := h
    cases fuel with
    | zero =>
      have hnone : chunks maxChars 0 (redact answer) = none := by
        cases hclean : redact answer with
        | nil => simp [hclean] at hlong
        | cons c clean => rfl
      simp [paginate, Nat.not_le.mpr hlong, hnone] at hpages
    | succ fuel =>
      rw [paginate_long hlong] at hpages
      obtain ⟨rest, hrest, rfl⟩ := Option.map_eq_some_iff.mp hpages
      have hfirst : nonblank (firstChunk maxChars (redact answer)) = nonblank (redact answer) := by
        rw [routeTextMessage, paginate_long hlong, hrest] at hreplies
        cases hreplies
        rw [← hcarry, List.flatMap_singleton, nonblank_rstrip]
      have hparts := congrArg nonblank (firstChunk_split maxChars (redact answer))
      rw [nonblank_append, hfirst] at hparts
      have hblank := List.append_right_eq_self.mp hparts
      rw [lstrip_eq_nil_iff.mpr hblank, chunks_nil] at hrest
      cases hrest
      have hfits : (lonePage _).text.length ≤ maxChars := hsize _ List.mem_cons_self
      rw [length_lonePage, rstrip_firstChunk (nonblank_eq_nil.mp hblank)] at hfits
      exact ⟨hfits, nonblank_eq_nil.mp hblank⟩
  · intro h
    obtain ⟨hroom, hblank⟩ := h
    have hpages := paginate_long hlong 0
    rw [lstrip_eq_nil_iff.mpr (nonblank_eq_nil.mpr hblank), chunks_nil] at hpages
    refine ⟨1, [lonePage _], _, hpages, by rw [routeTextMessage, hpages]; rfl, ?_, ?_⟩
    · intro p hp
      rw [List.mem_singleton.mp hp, length_lonePage, rstrip_firstChunk hblank]
      exact hroom
    · rw [List.flatMap_singleton, rstrip_firstChunk hblank, nonblank_rstrip]

/-- A reply with the first page only is whole when there is no second. -/
theorem delivered_iff (redact : Text → Text) (maxChars : Nat) (chatId : Int)
    (heard answer : Text) :
    Delivered redact maxChars chatId heard answer ↔ OnePage maxChars (redact answer) := by
  by_cases hshort : (redact answer).length ≤ maxChars
  · exact iff_of_true (delivered_short hshort chatId heard) (.inl hshort)
  · have hlong : maxChars < (redact answer).length := Nat.not_le.mp hshort
    rw [delivered_long hlong, OnePage, or_iff_right hshort]
    exact and_congr_right fun hroom => rest_blank_iff (by omega) hlong

/-- The loop ends, and the reply delivers the answer exactly when it is one page. -/
theorem answer_delivered (redact : Text → Text) (maxChars : Nat) (hmax : 2 ≤ maxChars)
    (chatId : Int) (heard answer : Text) :
    (∃ fuel, (paginate redact maxChars fuel answer).isSome = true) ∧
      (Delivered redact maxChars chatId heard answer ↔ OnePage maxChars (redact answer)) :=
  ⟨paginate_terminates (by omega) redact answer, delivered_iff redact maxChars chatId heard answer⟩

/-- `MAX_MESSAGE_CHARS`. -/
def maxMessageChars : Nat := 3900

theorem answer_delivered_done :
    Delivered id maxMessageChars 1 [] "Done.".toList :=
  (answer_delivered id maxMessageChars (by decide) 1 [] "Done.".toList).2.mpr (.inl (by decide))

/-- 5000 letters: the second page is not sent. -/
theorem answer_cut :
    ¬ ∀ answer : Text, Delivered id maxMessageChars 1 [] answer := by
  intro h
  rcases (delivered_iff id maxMessageChars 1 [] (List.replicate 5000 'x')).mp (h _) with
    hshort | ⟨hroom, -⟩
  · rw [id, List.length_replicate] at hshort
    exact absurd hshort (by decide)
  · have hstrip : rstrip (List.replicate 5000 'x') = List.replicate 5000 'x' := by
      rw [List.replicate_succ']
      exact List.rdropWhile_concat_neg _ _ _ (by decide)
    rw [id, hstrip, List.length_replicate] at hroom
    exact absurd hroom (by decide)

end Shamsu.Telegram.Pages
