import Shamsu.Context.Budget

/-!
# Trimming the state frame

`shamsu/context/compiler.py`: `ContextCompiler._trim` is given the system message and the
state frame, the last message, and a number of tokens. When they have more tokens together it
cuts the frame to four characters a token, section by section and at last in the middle
(`_trim_state_frame`). It does not take off what the other messages have, and it does not
count again.

`trim_fits_iff`: what comes back fits, whatever the frame, exactly when every frame of that
many characters fits with the other messages. The one half is that a frame is cut to that
many characters (`length_trimStateFrame_le`), the other that a frame which has no more is
left alone.
-/

namespace Shamsu.Context

open Shamsu.Py

structure Message where
  role : Text
  content : Text
  deriving DecidableEq, Repr

/-! ## Cutting a frame -/

/-- `[TITLE]`, the title of two letters or more. -/
def sectionTitle (line : Text) : Option Text :=
  match line with
  | '[' :: c :: more =>
    let title := c :: more.dropLast
    if more.getLast? = some ']' ∧ more.length ≠ 1 ∧ c.isUpper ∧
      more.dropLast.all (fun c => c.isUpper || c == ' ') then some title else none
  | _ => none

/-- The sections of lines that each have a newline behind them, then of the last line. -/
def sectionsOf : List Text → Text → List (Text × List Text)
  | [], _ => []
  | line :: lines, last =>
    match sectionTitle line with
    | some title =>
      (title, (lines.takeWhile fun l => (sectionTitle l).isNone) ++
        if lines.all fun l => (sectionTitle l).isNone then [last] else []) ::
        sectionsOf lines last
    | none => sectionsOf lines last

/-- `_split_state_frame`. -/
def splitStateFrame (frame : Text) : List (Text × Text) :=
  let lines := frame.splitOn '\n'
  (sectionsOf lines.dropLast (lines.getLast?.getD [])).map fun s => (s.1, strip (join '\n' s.2))

/-- `_render_sections`. -/
def renderSections (sections : List (Text × Text)) : Text :=
  ['\n', '\n'].intercalate (sections.map fun s => '[' :: (s.1 ++ ("]\n".toList ++ strip s.2)))

/-- `_clip_section`. -/
def clipSection (body : Text) (maxChars : Nat) : Text :=
  if body.length ≤ maxChars then body
  else if maxChars ≤ 40 then rstrip (body.take maxChars)
  else rstrip (body.take (maxChars - 16)) ++ "\n...[truncated]".toList

/-- `caps`. -/
def sectionCaps : List (String × Nat) :=
  [("PROJECT FACTS", 1400), ("RELEVANT ARTIFACTS", 900), ("CONVERSATION SO FAR", 1400),
    ("ALREADY DEFINED IN THIS PROJECT", 900), ("RELEVANT SOURCE CODE", 8000),
    ("LATEST OBSERVATION", 1200), ("COMPLETED STEP SUMMARY", 800)]

/-- `low_priority`. -/
def lowPriority : List String :=
  ["PROJECT FACTS", "COMPLETED STEP SUMMARY", "RELEVANT ARTIFACTS", "LATEST OBSERVATION",
    "RELEVANT SOURCE CODE"]

/-- `caps.get(title, len(body))`. -/
def capOf (title body : Text) : Nat :=
  ((sectionCaps.find? fun cap => cap.1.toList == title).map Prod.snd).getD body.length

/-- The sections of one title are cut by what is too much, down to a minimum. -/
def clipTitle (title : String) (overflow : Nat) (sections : List (Text × Text)) :
    List (Text × Text) :=
  let minimum := if title = "RELEVANT SOURCE CODE" then 500 else 180
  sections.map fun s =>
    if s.1 = title.toList then (s.1, clipSection s.2 (max minimum (s.2.length - overflow - 120)))
    else s

/-- The loop over `low_priority`: the first rendering that is short enough, or the last one. -/
def clipTitles (charBudget : Nat) : List String → List (Text × Text) → Text
  | [], sections => renderSections sections
  | title :: titles, sections =>
    let rendered := renderSections sections
    if rendered.length ≤ charBudget then rendered
    else clipTitles charBudget titles
      (clipTitle title (rendered.length - charBudget) sections)

/-- `int(n * 0.7)`: the product with the double nearest to 0.7, rounded to 53 bits. -/
def sevenTenths (n : Nat) : Nat :=
  let product := n * 6305039478318694
  let unit := 2 ^ (product.log2 - 52)
  let below := product / unit
  let twice := 2 * (product % unit)
  let rounded := if twice < unit ∨ (twice = unit ∧ below % 2 = 0) then below else below + 1
  rounded * unit / 2 ^ 53

/-- `int(n * 0.75)`. -/
def threeQuarters (n : Nat) : Nat := n * 3 / 4

/-- `text[-n:]`. -/
def lastChars (n : Nat) (text : Text) : Text :=
  if n = 0 then text else text.drop (text.length - n)

def truncationMarker : Text := "\n...[context frame truncated to fit model window]...\n".toList

/-- The beginning and the end of a text, with the marker between. -/
def cutMiddle (headOf : Nat → Nat) (charBudget : Nat) (text : Text) : Text :=
  let keep := max 1000 (charBudget - truncationMarker.length)
  let head := headOf keep
  rstrip (text.take head) ++ truncationMarker ++ lstrip (lastChars (keep - head) text)

/-- `_trim_state_frame`. -/
def trimStateFrame (frame : Text) (charBudget : Nat) : Text :=
  match splitStateFrame frame with
  | [] => cutMiddle sevenTenths charBudget frame
  | sections =>
    let trimmed := sections.map fun s => (s.1, clipSection s.2 (capOf s.1 s.2))
    let rendered := clipTitles charBudget lowPriority trimmed
    if rendered.length ≤ charBudget then rendered
    else cutMiddle threeQuarters charBudget rendered

/-! ## Trimming the messages -/

/-- `SAFETY_MARGIN_TOKENS`. -/
def safetyMarginTokens : Int := 512

/-- What `_trim` wants the messages to fit. -/
def trimTarget (reserveOutputTokens tokenBudget : Int) : Nat :=
  (max 1024 (tokenBudget - reserveOutputTokens - safetyMarginTokens)).toNat

/-- The tokens of messages, as `_trim` counts them. -/
def totalTokens (countTokens : Text → Nat) (messages : List Message) : Nat :=
  countTokens (join '\n' (messages.map Message.content))

/-- `_trim`; `none` is the `IndexError` of an empty list. -/
def trim (countTokens : Text → Nat) (reserveOutputTokens tokenBudget : Int)
    (messages : List Message) : Option (List Message × Bool) :=
  let target := trimTarget reserveOutputTokens tokenBudget
  if totalTokens countTokens messages ≤ target then some (messages, false)
  else do
    let last ← messages.getLast?
    let charBudget := max 2000 (target * 4)
    if charBudget < last.content.length then
      some (messages.dropLast ++ [{ last with content := trimStateFrame last.content charBudget }],
        true)
    else some (messages, true)

/-! ## How long a frame is afterwards -/

theorem length_rstrip_le (s : Text) : (rstrip s).length ≤ s.length :=
  (List.rdropWhile_prefix _ _).length_le

theorem length_lstrip_le (s : Text) : (lstrip s).length ≤ s.length :=
  (List.dropWhile_suffix _).length_le

theorem length_lastChars_le {n : Nat} (hn : 0 < n) (text : Text) :
    (lastChars n text).length ≤ n := by
  unfold lastChars
  rw [if_neg (by omega), List.length_drop]
  omega

/-- Some of what is kept is for the end. -/
theorem sevenTenths_lt {n : Nat} (hn : 0 < n) : sevenTenths n < n := by
  unfold sevenTenths
  dsimp only
  generalize hproduct : n * 6305039478318694 = product
  have hlog : 2 ^ product.log2 ≤ product := Nat.log2_self_le (by omega)
  have hbits : 52 ≤ product.log2 := (Nat.le_log2 (by omega)).mpr (by omega)
  -- the unit of the last place is small against the product
  have hunit : 2 ^ (product.log2 - 52) * 4503599627370496 ≤ product := by
    have hpow : 2 ^ (product.log2 - 52) * 2 ^ 52 = 2 ^ product.log2 := by
      rw [← Nat.pow_add, Nat.sub_add_cancel hbits]
    omega
  generalize 2 ^ (product.log2 - 52) = unit at hunit
  have hbelow : product / unit * unit ≤ product := Nat.div_mul_le_self _ _
  have hrounded : ∀ rounded, rounded = product / unit ∨ rounded = product / unit + 1 →
      rounded * unit / 2 ^ 53 < n := by
    intro rounded h
    have : rounded * unit ≤ product + unit := by
      rcases h with rfl | rfl
      · omega
      · rw [Nat.add_mul, Nat.one_mul]
        omega
    omega
  split
  · exact hrounded _ (Or.inl rfl)
  · exact hrounded _ (Or.inr rfl)

theorem length_cutMiddle_le {headOf : Nat → Nat} (hhead : ∀ n, 0 < n → headOf n < n)
    {charBudget : Nat} (hbudget : 2000 ≤ charBudget) (text : Text) :
    (cutMiddle headOf charBudget text).length ≤ charBudget := by
  unfold cutMiddle
  dsimp only
  have hmarker : truncationMarker.length = 53 := by decide
  generalize hkeep : max 1000 (charBudget - truncationMarker.length) = keep
  have hlt := hhead keep (by omega)
  have hfront := (length_rstrip_le (text.take (headOf keep))).trans (List.length_take_le _ _)
  have hback := (length_lstrip_le _).trans
    (length_lastChars_le (n := keep - headOf keep) (by omega) text)
  rw [List.length_append, List.length_append, hmarker]
  omega

/-- **A frame is cut to the characters it may have.** -/
theorem length_trimStateFrame_le {charBudget : Nat} (hbudget : 2000 ≤ charBudget) (frame : Text) :
    (trimStateFrame frame charBudget).length ≤ charBudget := by
  unfold trimStateFrame
  split
  · exact length_cutMiddle_le (fun _ => sevenTenths_lt) hbudget frame
  · dsimp only
    split
    next h => exact h
    next => exact length_cutMiddle_le (fun n hn => by unfold threeQuarters; omega) hbudget _

/-! ## When the messages fit -/

section Trim

variable {countTokens : Text → Nat} {reserve budget : Int} {others : List Message} {last : Message}

theorem trimTarget_ge (reserve budget : Int) : 1024 ≤ trimTarget reserve budget := by
  unfold trimTarget
  omega

/-- What `_trim` returns for a list with a last message. -/
theorem trim_concat : trim countTokens reserve budget (others ++ [last]) =
    some (if totalTokens countTokens (others ++ [last]) ≤ trimTarget reserve budget
      then (others ++ [last], false)
      else if trimTarget reserve budget * 4 < last.content.length
        then (others ++ [{ last with
          content := trimStateFrame last.content (trimTarget reserve budget * 4) }], true)
        else (others ++ [last], true)) := by
  have htarget := trimTarget_ge reserve budget
  unfold trim
  dsimp only
  rw [List.getLast?_concat, Nat.max_eq_right (by omega), List.dropLast_concat]
  split
  · rfl
  · dsimp only [Option.bind_eq_bind, Option.bind_some]
    split <;> rfl

/-- Every frame comes back so that all fits when each frame that is not cut fits. -/
theorem frames_fit_iff {role : Text} :
    (∀ (frame : Text) (trimmed : List Message × Bool),
      trim countTokens reserve budget (others ++ [⟨role, frame⟩]) = some trimmed →
      totalTokens countTokens trimmed.1 ≤ trimTarget reserve budget) ↔
    ∀ frame : Text, frame.length ≤ trimTarget reserve budget * 4 →
      totalTokens countTokens (others ++ [⟨role, frame⟩]) ≤ trimTarget reserve budget := by
  have htarget := trimTarget_ge reserve budget
  constructor
  · intro hall frame hshort
    by_contra hmore
    have hfits := hall frame _ trim_concat
    rw [if_neg hmore, if_neg (Nat.not_lt.mpr hshort)] at hfits
    exact hmore hfits
  · intro hshort frame trimmed htrim
    rw [trim_concat, Option.some.injEq] at htrim
    rw [← htrim]
    split
    next hfits => exact hfits
    next hmore =>
      split
      · exact hshort _ (length_trimStateFrame_le (by omega) frame)
      next hlen => exact hshort frame (Nat.le_of_not_lt hlen)

end Trim

end Shamsu.Context
