import Shamsu.Py.Value

/-!
# What a serialized tool result keeps

`shamsu/tools/agent_tools.py`: `_compact_value` cuts the strings of a result to a
limit. The fields of a dictionary share its limit by what each needs
(`shareBudget_eq`: there is a level under which every field is whole, and above which
it is cut to it), but only strings count, and a list or a dictionary in a field gets
the least share.

`compact_keeps`: a result is returned as it is exactly when each of its strings is
within what its place is given.
-/

namespace Shamsu.Tools.Compact

open Shamsu.Py

/-! ## The budget -/

/-- `COMPACT_VALUE_LIMIT`. -/
def compactValueLimit : Nat := 24000

/-- `MIN_FIELD_CHARS`. -/
def minFieldChars : Nat := 500

/-- The loop of `_share_budget`, as far as `fuel` goes; `size` and `budgets` are by
index. -/
def shareLoop (size : Nat → Nat) : Nat → Nat → List Nat → (Nat → Nat) → Nat → Nat
  | 0, _, _, budgets => budgets
  | fuel + 1, remaining, unsatisfied, budgets =>
    if unsatisfied = [] then budgets
    else
      let share := max (remaining / unsatisfied.length) minFieldChars
      let settled := unsatisfied.filter fun i => size i ≤ share
      -- nobody fits in an equal share, so everybody left is cut to it
      if settled = [] then fun i => if i ∈ unsatisfied then share else budgets i
      else
        shareLoop size fuel (remaining - (settled.map size).sum)
          (unsatisfied.filter fun i => share < size i)
          fun i => if i ∈ settled then max (size i) minFieldChars else budgets i

/-- `_share_budget`, of the sizes of the items. -/
def shareBudget (sizes : List Nat) (limit : Nat) : List Nat :=
  let indices := List.range sizes.length
  indices.map (shareLoop (fun i => sizes.getD i 0) (sizes.length + 1) limit indices fun _ => 0)

/-- `f"\n... [truncated {cut} chars]"`. -/
def truncatedNote (cut : Nat) : Text :=
  "\n... [truncated ".toList ++ (Nat.toDigits 10 cut ++ " chars]".toList)

/-- `_truncate_text`. -/
def truncateText (text : Text) (limit : Nat) : Text :=
  if text.length ≤ limit then text
  else text.take limit ++ truncatedNote (text.length - limit)

/-- `len(item) if isinstance(item, str) else 0`. -/
def fieldSize : Value → Nat
  | .str t => t.length
  -- what is inside a list or a dictionary does not count
  | _ => 0

/-- `d[key] = value`, of a dictionary's items. -/
def setItem (items : Dict) (key : Text) (value : Value) : Dict :=
  if items.any fun item => item.1 == key then
    items.map fun item => if item.1 == key then (key, value) else item
  else items ++ [(key, value)]

mutual

/-- `_compact_value`. -/
def compactValue : Value → Nat → Value
  | .str t, limit => .str (truncateText t limit)
  | .list items, limit =>
    .list (compactItems items 20 (max (limit / 4) 500) ++
      if items.length > 20 then
        [.str ("... [truncated ".toList ++
          (Nat.toDigits 10 (items.length - 20) ++ " item(s)]".toList))]
      else [])
  | .dict items, limit =>
    let compacted :=
      compactFields items (shareBudget ((items.take 40).map fun item => fieldSize item.2) limit)
    .dict (if items.length > 40 then
        setItem compacted "...".toList (.str ("truncated ".toList ++
          (Nat.toDigits 10 (items.length - 40) ++ " key(s)".toList)))
      else compacted)
  | .none, _ => .none
  | .bool b, _ => .bool b
  | .int n, _ => .int n
  | .float text nonzero, _ => .float text nonzero

/-- The first `n` items of a list. -/
def compactItems : List Value → Nat → Nat → List Value
  | [], _, _ => []
  | _ :: _, 0, _ => []
  | item :: items, n + 1, limit => compactValue item limit :: compactItems items n limit

/-- The items of a dictionary, as many as there are budgets. -/
def compactFields : List (Text × Value) → List Nat → List (Text × Value)
  | [], _ => []
  | _ :: _, [] => []
  | (key, item) :: items, budget :: budgets =>
    (key, compactValue item budget) :: compactFields items budgets

end

/-! ## The level of a budget -/

/-- What a string gets at a level: what it needs, but not more than the level. -/
def budgetAt (level size : Nat) : Nat := if size ≤ level then max size minFieldChars else level

/-- Some sizes are over the level, which is their equal share of what the others
leave. -/
def Stuck (limit : Nat) (sizes : List Nat) (level : Nat) : Prop :=
  (∃ z ∈ sizes, level < z) ∧
    level = max ((limit - (sizes.filter (· ≤ level)).sum) / (sizes.filter (level < ·)).length)
      minFieldChars

/-- Every size is within the level, and the sizes within the limit, or all within the
least share. -/
def Roomy (limit : Nat) (sizes : List Nat) : Prop :=
  sizes.sum ≤ limit ∨ ∀ z ∈ sizes, z ≤ minFieldChars

theorem sum_filter_add (p : Nat → Bool) (l : List Nat) :
    (l.filter p).sum + (l.filter fun z => !p z).sum = l.sum := by
  induction l with
  | nil => rfl
  | cons z l ih =>
    cases hp : p z with
    | true =>
      rw [List.filter_cons_of_pos hp, List.filter_cons_of_neg (by simp [hp]), List.sum_cons,
        List.sum_cons]
      omega
    | false =>
      rw [List.filter_cons_of_neg (by simp [hp]), List.filter_cons_of_pos (by simp [hp]),
        List.sum_cons, List.sum_cons]
      omega

/-- The sizes over a level and those within it. -/
theorem sum_level (level : Nat) (l : List Nat) :
    (l.filter (· ≤ level)).sum + (l.filter (level < ·)).sum = l.sum := by
  have hsplit := sum_filter_add (fun z => decide (z ≤ level)) l
  have hover : (l.filter fun z => !decide (z ≤ level)) = l.filter (level < ·) := by
    refine List.filter_congr fun z _ => ?_
    rw [← decide_not, decide_eq_decide]
    exact Nat.not_le
  rwa [hover] at hsplit

theorem mul_length_le_sum {k : Nat} {l : List Nat} (h : ∀ z ∈ l, k ≤ z) : k * l.length ≤ l.sum := by
  induction l with
  | nil => exact Nat.le_refl _
  | cons z l ih =>
    have hz := h z List.mem_cons_self
    have hrest := ih fun y hy => h y (List.mem_cons_of_mem _ hy)
    rw [List.length_cons, List.sum_cons, Nat.mul_succ]
    omega

theorem sum_le_mul_length {k : Nat} {l : List Nat} (h : ∀ z ∈ l, z ≤ k) : l.sum ≤ k * l.length := by
  induction l with
  | nil => exact Nat.le_refl _
  | cons z l ih =>
    have hz := h z List.mem_cons_self
    have hrest := ih fun y hy => h y (List.mem_cons_of_mem _ hy)
    rw [List.length_cons, List.sum_cons, Nat.mul_succ]
    omega

/-- What is over a level is more than its number times the level. -/
theorem over_level_sum (level : Nat) (l : List Nat) :
    (level + 1) * (l.filter (level < ·)).length ≤ (l.filter (level < ·)).sum :=
  mul_length_le_sum fun _ hz => of_decide_eq_true (List.mem_filter.mp hz).2

variable {limit level : Nat} {sizes : List Nat}

theorem over_level_pos (h : ∃ z ∈ sizes, level < z) : 0 < (sizes.filter (level < ·)).length := by
  obtain ⟨z, hz, hlt⟩ := h
  exact List.length_pos_of_mem (List.mem_filter.mpr ⟨hz, decide_eq_true hlt⟩)

theorem Stuck.least (h : Stuck limit sizes level) : minFieldChars ≤ level := by
  rw [h.2]
  exact Nat.le_max_right _ _

/-- Where sizes are over their share, they need more than there is. -/
theorem Stuck.not_roomy (h : Stuck limit sizes level) : ¬ Roomy limit sizes := by
  have hpos := over_level_pos h.1
  have hsum := sum_level level sizes
  have hover := over_level_sum level sizes
  intro hcase
  rcases hcase with hle | hleast
  · have hshare : level + 1 ≤ (limit - (sizes.filter (· ≤ level)).sum) /
        (sizes.filter (level < ·)).length := by
      rw [Nat.le_div_iff_mul_le hpos]
      omega
    have hlevel := h.2
    have := Nat.le_max_left ((limit - (sizes.filter (· ≤ level)).sum) /
      (sizes.filter (level < ·)).length) minFieldChars
    omega
  · obtain ⟨z, hz, hlt⟩ := h.1
    have := h.least
    have := hleast z hz
    omega

theorem length_level (level : Nat) (l : List Nat) :
    (l.filter (· ≤ level)).length + (l.filter (level < ·)).length = l.length := by
  have hover : l.filter (level < ·) = l.filter fun z => !decide (z ≤ level) := by
    refine List.filter_congr fun z _ => ?_
    rw [← decide_not, decide_eq_decide]
    exact Nat.not_le.symm
  rw [hover]
  exact (List.length_eq_length_filter_add _).symm

section Levels

variable {other : Nat} (hlt : level ≤ other) (l : List Nat)
include hlt

theorem within_within : (l.filter (· ≤ other)).filter (· ≤ level) = l.filter (· ≤ level) := by
  rw [List.filter_filter]
  refine List.filter_congr fun z _ => ?_
  rw [← Bool.decide_and, decide_eq_decide]
  omega

theorem over_over : (l.filter (level < ·)).filter (other < ·) = l.filter (other < ·) := by
  rw [List.filter_filter]
  refine List.filter_congr fun z _ => ?_
  rw [← Bool.decide_and, decide_eq_decide]
  omega

/-- What a higher level leaves is what the lower one does, but for what is between. -/
theorem between_levels : ∃ more count, (l.filter (· ≤ other)).sum = (l.filter (· ≤ level)).sum + more ∧
    (l.filter (level < ·)).length = (l.filter (other < ·)).length + count ∧
    (level + 1) * count ≤ more ∧ more ≤ other * count := by
  have hsum := sum_level level (l.filter (· ≤ other))
  have hlen := length_level other (l.filter (level < ·))
  rw [within_within hlt] at hsum
  rw [over_over hlt] at hlen
  have hswap : (l.filter (· ≤ other)).filter (level < ·) = (l.filter (level < ·)).filter (· ≤ other) :=
    List.filter_comm _ _ _
  refine ⟨((l.filter (level < ·)).filter (· ≤ other)).sum,
    ((l.filter (level < ·)).filter (· ≤ other)).length, ?_, by omega, ?_, ?_⟩
  · rw [← hswap]
    omega
  · refine mul_length_le_sum fun z hz => ?_
    exact of_decide_eq_true (List.mem_filter.mp (List.mem_filter.mp hz).1).2
  · exact sum_le_mul_length fun z hz => of_decide_eq_true (List.mem_filter.mp hz).2

end Levels

/-- A lower level would be over by what is between. -/
theorem Stuck.not_lt {other : Nat} (h : Stuck limit sizes level) (h' : Stuck limit sizes other) :
    ¬ level < other := by
  intro hlt
  have hpos := over_level_pos h.1
  obtain ⟨more, count, hsum, hlen, hmore, -⟩ := between_levels (Nat.le_of_lt hlt) sizes
  have hleast := h.least
  have hlevel := h.2
  have hother := h'.2
  have hshare : other ≤ (limit - (sizes.filter (· ≤ other)).sum) /
      (sizes.filter (other < ·)).length := by omega
  have hfits := Nat.mul_le_of_le_div _ _ _ hshare
  have hroom : (level + 1) * (sizes.filter (level < ·)).length ≤
      limit - (sizes.filter (· ≤ level)).sum := by
    have hhigh : (level + 1) * (sizes.filter (other < ·)).length ≤
        other * (sizes.filter (other < ·)).length := Nat.mul_le_mul_right _ hlt
    have hpos' : 0 < other * (sizes.filter (other < ·)).length :=
      Nat.mul_pos (by omega) (over_level_pos h'.1)
    rw [hlen, Nat.mul_add]
    omega
  have hover := (Nat.le_div_iff_mul_le hpos).mpr hroom
  omega

theorem Stuck.unique {other : Nat} (h : Stuck limit sizes level) (h' : Stuck limit sizes other) :
    level = other :=
  Nat.le_antisymm (Nat.not_lt.mp (h'.not_lt h)) (Nat.not_lt.mp (h.not_lt h'))

/-! ## The loop -/

/-- Where the loop ends: there is enough, or the rest is stuck. -/
def Settles (limit : Nat) (sizes : List Nat) (level : Nat) : Prop :=
  ((∀ z ∈ sizes, z ≤ level) ∧ Roomy limit sizes) ∨ Stuck limit sizes level

/-- A round that settles all that is left. -/
theorem settles_all {remaining share : Nat}
    (hshare : share = max (remaining / sizes.length) minFieldChars)
    (hall : ∀ z ∈ sizes, z ≤ share) : Settles remaining sizes share := by
  refine .inl ⟨hall, ?_⟩
  rcases Nat.le_total (remaining / sizes.length) minFieldChars with hle | hle
  · rw [Nat.max_eq_right hle] at hshare
    exact .inr (hshare ▸ hall)
  · rw [Nat.max_eq_left hle] at hshare
    refine .inl ((sum_le_mul_length hall).trans ?_)
    rw [hshare]
    exact Nat.div_mul_le_self _ _

theorem share_le_next {remaining share : Nat}
    (hshare : share = max (remaining / sizes.length) minFieldChars)
    (hrest : sizes.filter (share < ·) ≠ []) :
    share ≤ max ((remaining - (sizes.filter (· ≤ share)).sum) / (sizes.filter (share < ·)).length)
      minFieldChars := by
  have hlen := length_level share sizes
  have hsum : (sizes.filter (· ≤ share)).sum ≤ share * (sizes.filter (· ≤ share)).length :=
    sum_le_mul_length fun z hz => of_decide_eq_true (List.mem_filter.mp hz).2
  have hpos := List.length_pos_of_ne_nil hrest
  rcases Nat.le_total (remaining / sizes.length) minFieldChars with hle | hle
  · omega
  · rw [Nat.max_eq_left hle] at hshare
    refine Nat.le_trans ?_ (Nat.le_max_left _ _)
    rw [Nat.le_div_iff_mul_le hpos]
    have hall : share * sizes.length ≤ remaining := by
      rw [hshare]
      exact Nat.div_mul_le_self _ _
    rw [← hlen, Nat.mul_add] at hall
    omega

theorem settles_rest {remaining share : Nat} (hleast : minFieldChars ≤ share)
    (hrest : sizes.filter (share < ·) ≠ []) (hle : share ≤ level)
    (h : Settles (remaining - (sizes.filter (· ≤ share)).sum) (sizes.filter (share < ·)) level) :
    Settles remaining sizes level := by
  have hsum := sum_level share sizes
  obtain ⟨z, hz⟩ := List.exists_mem_of_ne_nil _ hrest
  obtain ⟨hmem, hlt⟩ := List.mem_filter.mp hz
  rcases h with ⟨hall, hroomy⟩ | ⟨hover, hlevel⟩
  · refine .inl ⟨fun y hy => ?_, ?_⟩
    · rcases Nat.lt_or_ge share y with hy' | hy'
      · exact hall y (List.mem_filter.mpr ⟨hy, decide_eq_true hy'⟩)
      · exact hy'.trans hle
    · rcases hroomy with hfits | hmin
      · have hover := over_level_sum share sizes
        have hpos := Nat.mul_le_mul_left (share + 1) (List.length_pos_of_mem hz)
        exact .inl (by omega)
      · have := hmin z hz
        have : share < z := of_decide_eq_true hlt
        omega
  · obtain ⟨y, hy, hylt⟩ := hover
    have hwithin := sum_level share (sizes.filter (· ≤ level))
    rw [within_within hle, List.filter_comm] at hwithin
    have hleft : remaining - (sizes.filter (· ≤ share)).sum -
        ((sizes.filter (share < ·)).filter (· ≤ level)).sum =
        remaining - (sizes.filter (· ≤ level)).sum := by omega
    rw [over_over hle, hleft] at hlevel
    exact .inr ⟨⟨y, (List.mem_filter.mp hy).1, hylt⟩, hlevel⟩

/-- The budgets that a result gives are those of one level, a share of what is left at
least. -/
def Shares (size : Nat → Nat) (remaining : Nat) (unsatisfied : List Nat)
    (budgets result : Nat → Nat) : Prop :=
  ∃ level, minFieldChars ≤ level ∧
    (unsatisfied ≠ [] → remaining / unsatisfied.length ≤ level) ∧
    Settles remaining (unsatisfied.map size) level ∧
    ∀ i, result i = if i ∈ unsatisfied then budgetAt level (size i) else budgets i

section Round

variable {size budgets result : Nat → Nat} {unsatisfied : List Nat} {remaining share : Nat}

theorem map_over : (unsatisfied.filter fun i => share < size i).map size =
    (unsatisfied.map size).filter (share < ·) := by
  rw [List.filter_map]
  rfl

theorem map_within : (unsatisfied.filter fun i => size i ≤ share).map size =
    (unsatisfied.map size).filter (· ≤ share) := by
  rw [List.filter_map]
  rfl

/-- What fits its share is left out of the next round. -/
theorem length_over_lt (hsettled : unsatisfied.filter (fun i => size i ≤ share) ≠ []) :
    (unsatisfied.filter fun i => share < size i).length < unsatisfied.length := by
  have hlen := length_level share (unsatisfied.map size)
  rw [← map_over, ← map_within, List.length_map, List.length_map, List.length_map] at hlen
  have hpos := List.length_pos_of_ne_nil hsettled
  omega

theorem shares_nil : Shares size remaining [] budgets budgets :=
  ⟨minFieldChars, Nat.le_refl _, fun hne => absurd rfl hne, .inl ⟨nofun, .inl (Nat.zero_le _)⟩,
    fun i => by simp⟩

/-- A round in which nothing fits its share. -/
theorem shares_stuck (hshare : share = max (remaining / unsatisfied.length) minFieldChars)
    (hnil : unsatisfied ≠ []) (hsettled : unsatisfied.filter (fun i => size i ≤ share) = []) :
    Shares size remaining unsatisfied budgets
      fun i => if i ∈ unsatisfied then share else budgets i := by
  have hover : ∀ i ∈ unsatisfied, share < size i := fun i hi =>
    Nat.not_le.mp (by simpa using List.filter_eq_nil_iff.mp hsettled i hi)
  refine ⟨share, hshare ▸ Nat.le_max_right _ _, fun _ => hshare ▸ Nat.le_max_left _ _,
    .inr ⟨?_, ?_⟩, fun i => ?_⟩
  · obtain ⟨i, hi⟩ := List.exists_mem_of_ne_nil _ hnil
    exact ⟨size i, List.mem_map_of_mem hi, hover i hi⟩
  · have hnone : (unsatisfied.map size).filter (· ≤ share) = [] := by
      rw [← map_within, hsettled, List.map_nil]
    have hall : (unsatisfied.map size).filter (share < ·) = unsatisfied.map size := by
      rw [List.filter_eq_self]
      intro z hz
      obtain ⟨i, hi, rfl⟩ := List.mem_map.mp hz
      exact decide_eq_true (hover i hi)
    rw [hnone, hall, List.length_map]
    exact hshare
  · dsimp only
    by_cases hi : i ∈ unsatisfied
    · rw [if_pos hi, if_pos hi, budgetAt, if_neg (Nat.not_le.mpr (hover i hi))]
    · rw [if_neg hi, if_neg hi]

/-- A round in which everything fits its share. -/
theorem shares_all (hshare : share = max (remaining / unsatisfied.length) minFieldChars)
    (hall : ∀ i ∈ unsatisfied, size i ≤ share)
    (hresult : ∀ i, result i = if i ∈ unsatisfied.filter (fun i => size i ≤ share) then
      max (size i) minFieldChars else budgets i) :
    Shares size remaining unsatisfied budgets result := by
  have hsizes : share = max (remaining / (unsatisfied.map size).length) minFieldChars := by
    rwa [List.length_map]
  refine ⟨share, hshare ▸ Nat.le_max_right _ _, fun _ => hshare ▸ Nat.le_max_left _ _,
    settles_all hsizes ?_, fun i => ?_⟩
  · intro z hz
    obtain ⟨i, hi, rfl⟩ := List.mem_map.mp hz
    exact hall i hi
  · rw [hresult]
    by_cases hi : i ∈ unsatisfied
    · rw [if_pos (List.mem_filter.mpr ⟨hi, decide_eq_true (hall i hi)⟩), if_pos hi, budgetAt,
        if_pos (hall i hi)]
    · rw [if_neg fun hf => hi (List.mem_filter.mp hf).1, if_neg hi]

/-- A round that leaves the others to the next. -/
theorem shares_rest (hshare : share = max (remaining / unsatisfied.length) minFieldChars)
    (hempty : unsatisfied.filter (fun i => share < size i) ≠ [])
    (hrest : Shares size (remaining - ((unsatisfied.filter fun i => size i ≤ share).map size).sum)
      (unsatisfied.filter fun i => share < size i)
      (fun i => if i ∈ unsatisfied.filter (fun i => size i ≤ share) then
        max (size i) minFieldChars else budgets i) result) :
    Shares size remaining unsatisfied budgets result := by
  obtain ⟨level, hmin, hnext, hrest, hbudgets⟩ := hrest
  have hsizes : share = max (remaining / (unsatisfied.map size).length) minFieldChars := by
    rwa [List.length_map]
  have hrestne : (unsatisfied.map size).filter (share < ·) ≠ [] := by
    rw [← map_over]
    exact fun h => hempty (List.map_eq_nil_iff.mp h)
  rw [map_over, map_within] at hrest
  have hle : share ≤ level := by
    have hshares := share_le_next hsizes hrestne
    have hquot := hnext hempty
    rw [map_within, ← @List.length_map _ _ _ size, map_over] at hquot
    omega
  refine ⟨level, hmin, fun _ => (hshare ▸ Nat.le_max_left _ _ : _ ≤ share).trans hle,
    settles_rest (hshare ▸ Nat.le_max_right _ _) hrestne hle hrest, fun i => ?_⟩
  rw [hbudgets]
  dsimp only
  by_cases hi : i ∈ unsatisfied
  · rcases Nat.lt_or_ge share (size i) with hlt | hge
    · rw [if_pos (List.mem_filter.mpr ⟨hi, decide_eq_true hlt⟩), if_pos hi]
    · rw [if_neg, if_pos (List.mem_filter.mpr ⟨hi, decide_eq_true hge⟩), if_pos hi, budgetAt,
        if_pos (hge.trans hle)]
      intro hf
      have := of_decide_eq_true (List.mem_filter.mp hf).2
      omega
  · rw [if_neg fun hf => hi (List.mem_filter.mp hf).1,
      if_neg fun hf => hi (List.mem_filter.mp hf).1, if_neg hi]

end Round

theorem shareLoop_spec (size : Nat → Nat) : ∀ (fuel remaining : Nat) (unsatisfied : List Nat)
    (budgets : Nat → Nat), unsatisfied.length < fuel →
      Shares size remaining unsatisfied budgets
        (shareLoop size fuel remaining unsatisfied budgets) := by
  intro fuel
  -- a round that settles somebody leaves fewer, so the fuel is not used up
  induction fuel with
  | zero =>
    intro _ unsatisfied _ h
    exact absurd h (Nat.not_lt_zero _)
  | succ fuel ih =>
    intro remaining unsatisfied budgets h
    rw [shareLoop]
    by_cases hnil : unsatisfied = []
    · subst hnil
      exact shares_nil
    · rw [if_neg hnil]
      obtain ⟨share, hshare⟩ : ∃ share, share = max (remaining / unsatisfied.length) minFieldChars :=
        ⟨_, rfl⟩
      rw [← hshare]
      by_cases hsettled : unsatisfied.filter (fun i => size i ≤ share) = []
      · rw [if_pos hsettled]
        exact shares_stuck hshare hnil hsettled
      · rw [if_neg hsettled]
        have hlen := length_over_lt hsettled
        have hrest := ih
          (remaining - ((unsatisfied.filter fun i => size i ≤ share).map size).sum)
          (unsatisfied.filter fun i => share < size i)
          (fun i => if i ∈ unsatisfied.filter (fun i => size i ≤ share) then
            max (size i) minFieldChars else budgets i) (by omega)
        by_cases hempty : unsatisfied.filter (fun i => share < size i) = []
        · obtain ⟨_, _, _, _, hbudgets⟩ := hrest
          refine shares_all hshare (fun i hi => ?_) fun i => ?_
          · exact Nat.not_lt.mp (by simpa using List.filter_eq_nil_iff.mp hempty i hi)
          · rw [hbudgets, hempty, if_neg List.not_mem_nil]
        · exact shares_rest hshare hempty hrest

/-- The budgets are those of one level. -/
theorem shareBudget_eq (sizes : List Nat) (limit : Nat) : ∃ level, minFieldChars ≤ level ∧
    Settles limit sizes level ∧ shareBudget sizes limit = sizes.map (budgetAt level) := by
  have hsizes : (List.range sizes.length).map (fun i => sizes.getD i 0) = sizes := by
    refine List.ext_getElem (by simp) fun i hi _ => ?_
    rw [List.length_map, List.length_range] at hi
    simp [hi]
  obtain ⟨level, hmin, -, hsettles, hbudgets⟩ := shareLoop_spec (fun i => sizes.getD i 0)
    (sizes.length + 1) limit (List.range sizes.length) (fun _ => 0) (by simp)
  rw [hsizes] at hsettles
  refine ⟨level, hmin, hsettles, ?_⟩
  conv_rhs => rw [← hsizes, List.map_map]
  refine List.map_congr_left fun i hi => ?_
  rw [hbudgets, if_pos hi]
  rfl

/-! ## What is kept -/

/-- A text is within its limit, or what is over it is the very note of a cut. -/
def Uncut (limit : Nat) (text : Text) : Prop :=
  text.length ≤ limit ∨ text.drop limit = truncatedNote 25

theorem add_lt_pow (m : Nat) : m + 26 < 10 ^ (m + 2) := by
  induction m with
  | zero => decide
  | succ m ih =>
    rw [Nat.pow_succ]
    omega

theorem length_truncatedNote (cut : Nat) :
    (truncatedNote cut).length = 23 + (Nat.toDigits 10 cut).length := by
  have hopen : "\n... [truncated ".toList.length = 16 := by decide
  have hclose : " chars]".toList.length = 7 := by decide
  unfold truncatedNote
  generalize Nat.toDigits 10 cut = digits
  rw [List.length_append, List.length_append, hopen, hclose]
  omega

/-- A note that is as long as it says is the one of 25 characters. -/
theorem eq_of_length_truncatedNote {cut : Nat} (h : (truncatedNote cut).length = cut) : cut = 25 := by
  rw [length_truncatedNote] at h
  have hpos : 0 < (Nat.toDigits 10 cut).length := List.length_pos_of_ne_nil Nat.toDigits_ne_nil
  have hdigits : ∀ k, 0 < k → ((Nat.toDigits 10 cut).length ≤ k ↔ cut < 10 ^ k) := fun k hk =>
    Nat.length_toDigits_le_iff (by decide) hk
  by_contra hne
  rcases Nat.lt_or_gt_of_ne hne with hlt | hgt
  · have := (hdigits 1 (by decide)).mp (by omega)
    omega
  · -- more digits than the length of the note has
    obtain ⟨m, rfl⟩ : ∃ m, cut = m + 26 := ⟨cut - 26, by omega⟩
    have := (hdigits (m + 2) (by omega)).mpr (add_lt_pow m)
    omega

theorem truncateText_eq_self (text : Text) (limit : Nat) :
    truncateText text limit = text ↔ Uncut limit text := by
  unfold truncateText Uncut
  by_cases hle : text.length ≤ limit
  · rw [if_pos hle]
    exact iff_of_true rfl (.inl hle)
  · rw [if_neg hle, or_iff_right hle]
    have hcut : text.take limit ++ truncatedNote (text.length - limit) = text ↔
        text.drop limit = truncatedNote (text.length - limit) := by
      conv_lhs => rhs; rw [← List.take_append_drop limit text]
      rw [List.append_cancel_left_eq]
      exact eq_comm
    rw [hcut]
    constructor
    · intro h
      have hlen := congrArg List.length h
      rw [List.length_drop] at hlen
      rw [h, eq_of_length_truncatedNote hlen.symm]
    · intro h
      have hlen := congrArg List.length h
      rw [List.length_drop, length_truncatedNote] at hlen
      rw [h, hlen]
      rfl

/-- The strings among the fields are kept: they are within the limit together or each
within the least share; or those that are over their share end in the note of a cut. -/
def FieldsUncut (limit : Nat) (fields : List (Text × Value)) : Prop :=
  Roomy limit (fields.map fun field => fieldSize field.2) ∨
    ∃ share, Stuck limit (fields.map fun field => fieldSize field.2) share ∧
      ∀ key text, (key, Value.str text) ∈ fields → Uncut share text

mutual

/-- Every string is within what its place is given: a list gives each item a quarter
of its limit, but 500 at least, and a dictionary gives 500 to a list or a dictionary. -/
def Kept : Value → Nat → Prop
  | .str text, limit => Uncut limit text
  | .list items, limit => KeptItems items (max (limit / 4) 500)
  | .dict fields, limit => FieldsUncut limit fields ∧ KeptFields fields
  | .none, _ | .bool _, _ | .int _, _ | .float .., _ => True

def KeptItems : List Value → Nat → Prop
  | [], _ => True
  | item :: items, limit => Kept item limit ∧ KeptItems items limit

/-- The lists and dictionaries among the fields. -/
def KeptFields : List (Text × Value) → Prop
  | [] => True
  | (_, .str _) :: fields => KeptFields fields
  | (_, item) :: fields => Kept item minFieldChars ∧ KeptFields fields

end

mutual

/-- No dictionary has more than 40 keys, and no list more than 20 items. -/
def Small : Value → Prop
  | .list items => items.length ≤ 20 ∧ SmallItems items
  | .dict fields => fields.length ≤ 40 ∧ SmallFields fields
  | .none | .bool _ | .int _ | .float .. | .str _ => True

def SmallItems : List Value → Prop
  | [] => True
  | item :: items => Small item ∧ SmallItems items

def SmallFields : List (Text × Value) → Prop
  | [] => True
  | (_, item) :: fields => Small item ∧ SmallFields fields

end

theorem budgetAt_zero (level : Nat) : budgetAt level 0 = minFieldChars := by
  rw [budgetAt, if_pos (Nat.zero_le _)]
  exact Nat.max_eq_right (Nat.zero_le _)

/-- A string gets the level, or all it needs. -/
theorem uncut_budgetAt (text : Text) : Uncut (budgetAt level text.length) text ↔ Uncut level text := by
  unfold budgetAt
  split
  next hle => exact iff_of_true (.inl (Nat.le_max_left _ _)) (.inl hle)
  next => rfl

/-- The strings among the fields are kept at the level where the budget settles. -/
theorem fieldsUncut_iff {fields : List (Text × Value)}
    (h : Settles limit (fields.map fun field => fieldSize field.2) level) :
    (∀ key text, (key, Value.str text) ∈ fields → Uncut level text) ↔ FieldsUncut limit fields := by
  have hsize : ∀ key text, (key, Value.str text) ∈ fields →
      text.length ∈ fields.map fun field => fieldSize field.2 := fun key text hmem =>
    List.mem_map.mpr ⟨(key, .str text), hmem, rfl⟩
  rcases h with ⟨hall, hroomy⟩ | hstuck
  · exact iff_of_true (fun key text hmem => .inl (hall _ (hsize key text hmem))) (.inl hroomy)
  · constructor
    · exact fun huncut => .inr ⟨level, hstuck, huncut⟩
    · intro hcase
      rcases hcase with hroomy | ⟨share, hshare, huncut⟩
      · exact absurd hroomy hstuck.not_roomy
      · rwa [hstuck.unique hshare]

theorem compactFields_eq_self (budget : Value → Nat) (fields : List (Text × Value)) :
    compactFields fields (fields.map fun field => budget field.2) = fields ↔
      ∀ field ∈ fields, compactValue field.2 (budget field.2) = field.2 := by
  induction fields with
  | nil => simp [compactFields]
  | cons field fields ih =>
    obtain ⟨key, item⟩ := field
    rw [List.map_cons, compactFields, List.cons.injEq, ih, Prod.mk.injEq, List.forall_mem_cons]
    simp

theorem fieldSize_other {item : Value} (h : ∀ text, item ≠ .str text) : fieldSize item = 0 := by
  cases item with
  | str text => exact absurd rfl (h text)
  | _ => rfl

theorem keptFields_other {key : Text} {item : Value} {fields : List (Text × Value)}
    (h : ∀ text, item ≠ .str text) :
    KeptFields ((key, item) :: fields) = (Kept item minFieldChars ∧ KeptFields fields) := by
  rw [KeptFields]
  exact h

/-- The limit of a dictionary is shared, and its lists and dictionaries get the least. -/
theorem dict_eq_self {fields : List (Text × Value)} {level : Nat}
    (hlist : ∀ field ∈ fields, (∀ text, field.2 ≠ .str text) →
      (compactValue field.2 minFieldChars = field.2 ↔ Kept field.2 minFieldChars)) :
    (∀ field ∈ fields, compactValue field.2 (budgetAt level (fieldSize field.2)) = field.2) ↔
      (∀ key text, (key, Value.str text) ∈ fields → Uncut level text) ∧ KeptFields fields := by
  induction fields with
  | nil => simp [KeptFields]
  | cons field fields ih =>
    obtain ⟨key, item⟩ := field
    have hrest := ih fun f hf => hlist f (List.mem_cons_of_mem _ hf)
    rw [List.forall_mem_cons, hrest]
    by_cases hstr : ∃ text, item = .str text
    · obtain ⟨text, rfl⟩ := hstr
      rw [KeptFields, fieldSize, compactValue, Value.str.injEq, truncateText_eq_self, uncut_budgetAt]
      constructor
      · intro hsome
        obtain ⟨huncut, hall, hkept⟩ := hsome
        refine ⟨fun k t hmem => ?_, hkept⟩
        rcases List.mem_cons.mp hmem with heq | hmem
        · cases heq
          exact huncut
        · exact hall k t hmem
      · intro hsome
        obtain ⟨hall, hkept⟩ := hsome
        exact ⟨hall key text List.mem_cons_self,
          fun k t hmem => hall k t (List.mem_cons_of_mem _ hmem), hkept⟩
    · have hne : ∀ text, item ≠ .str text := fun text h => hstr ⟨text, h⟩
      rw [fieldSize_other hne, budgetAt_zero, keptFields_other hne,
        hlist (key, item) List.mem_cons_self hne]
      constructor
      · intro hsome
        obtain ⟨hitem, hall, hkept⟩ := hsome
        refine ⟨fun k t hmem => ?_, hitem, hkept⟩
        rcases List.mem_cons.mp hmem with heq | hmem
        · cases heq
          exact absurd rfl (hne t)
        · exact hall k t hmem
      · intro hsome
        obtain ⟨hall, hitem, hkept⟩ := hsome
        exact ⟨hitem, fun k t hmem => hall k t (List.mem_cons_of_mem _ hmem), hkept⟩

mutual

theorem compactValue_eq_self : ∀ (v : Value) (limit : Nat), Small v →
    (compactValue v limit = v ↔ Kept v limit)
  | .str text, limit, _ => by
    rw [compactValue, Kept, Value.str.injEq, truncateText_eq_self]
  | .list items, limit, h => by
    have hitems := compactItems_eq_self items (max (limit / 4) 500) 20 h.1 h.2
    rw [compactValue, Kept, if_neg (Nat.not_lt.mpr h.1), List.append_nil, Value.list.injEq, hitems]
  | .dict fields, limit, h => by
    obtain ⟨level, hmin, hsettles, hbudget⟩ :=
      shareBudget_eq (fields.map fun field => fieldSize field.2) limit
    have hfields := smallFields_eq_self fields h.2
    rw [compactValue, Kept, List.take_of_length_le h.1, hbudget, if_neg (Nat.not_lt.mpr h.1),
      Value.dict.injEq, List.map_map]
    rw [← fieldsUncut_iff hsettles, ← dict_eq_self hfields]
    exact compactFields_eq_self (fun item => budgetAt level (fieldSize item)) fields
  | .none, _, _ => by simp [compactValue, Kept]
  | .bool b, _, _ => by simp [compactValue, Kept]
  | .int n, _, _ => by simp [compactValue, Kept]
  | .float text nonzero, _, _ => by simp [compactValue, Kept]

theorem compactItems_eq_self : ∀ (items : List Value) (limit n : Nat), items.length ≤ n →
    SmallItems items → (compactItems items n limit = items ↔ KeptItems items limit)
  | [], _, _, _, _ => by simp [compactItems, KeptItems]
  | item :: items, limit, 0, h, _ => absurd h (Nat.not_succ_le_zero _)
  | item :: items, limit, n + 1, h, hsmall => by
    have hitem := compactValue_eq_self item limit hsmall.1
    have hrest := compactItems_eq_self items limit n (Nat.le_of_succ_le_succ h) hsmall.2
    rw [compactItems, KeptItems, List.cons.injEq, hitem, hrest]

theorem smallFields_eq_self : ∀ (fields : List (Text × Value)), SmallFields fields →
    ∀ field ∈ fields, (∀ text, field.2 ≠ .str text) →
      (compactValue field.2 minFieldChars = field.2 ↔ Kept field.2 minFieldChars)
  | [], _, field, h, _ => absurd h List.not_mem_nil
  | (key, item) :: fields, hsmall, field, h, hne => by
    rcases List.mem_cons.mp h with rfl | h
    · exact compactValue_eq_self item minFieldChars hsmall.1
    · exact smallFields_eq_self fields hsmall.2 field h hne

end

/-! ## Shares -/

/-- The fields that are cut, with what they get. -/
def cutShares (sizes : List Nat) (limit : Nat) : List Nat :=
  ((sizes.zip (shareBudget sizes limit)).filter fun p => p.2 < p.1).map Prod.snd

theorem cutShares_level (level : Nat) (sizes : List Nat) :
    ((sizes.zip (sizes.map (budgetAt level))).filter fun p => p.2 < p.1).map Prod.snd =
      List.replicate (sizes.filter (level < ·)).length level := by
  induction sizes with
  | nil => rfl
  | cons z sizes ih =>
    rw [List.map_cons, List.zip_cons_cons]
    rcases Nat.lt_or_ge level z with hlt | hle
    · have hbudget : budgetAt level z = level := if_neg (Nat.not_le.mpr hlt)
      have hover : (z :: sizes).filter (level < ·) = z :: sizes.filter (level < ·) :=
        List.filter_cons_of_pos (by simpa using hlt)
      rw [List.filter_cons_of_pos (by simpa [hbudget] using hlt), hover, List.map_cons, ih,
        List.length_cons, List.replicate_succ, hbudget]
    · have hbudget : budgetAt level z = max z minFieldChars := if_pos hle
      rw [List.filter_cons_of_neg (by simp [hbudget, Nat.le_max_left]),
        List.filter_cons_of_neg (by simpa using hle), ih]

/-- What the cut fields get is the limit at most, or the least share of each. -/
theorem sum_cutShares_le (sizes : List Nat) (limit : Nat) :
    (cutShares sizes limit).sum ≤ max limit (minFieldChars * (cutShares sizes limit).length) := by
  obtain ⟨level, -, hsettles, hbudget⟩ := shareBudget_eq sizes limit
  rw [cutShares, hbudget, cutShares_level, List.sum_replicate_nat, List.length_replicate]
  rcases hsettles with ⟨hall, -⟩ | ⟨hover, hlevel⟩
  · have hnone : sizes.filter (level < ·) = [] := by
      simpa [List.filter_eq_nil_iff] using hall
    rw [hnone, List.length_nil, Nat.zero_mul]
    exact Nat.zero_le _
  -- the cut fields get one level each: a share of what the others leave, or the least
  · have hshare : (limit - (sizes.filter (· ≤ level)).sum) / (sizes.filter (level < ·)).length *
        (sizes.filter (level < ·)).length ≤ limit :=
      (Nat.div_mul_le_self _ _).trans (Nat.sub_le _ _)
    rcases Nat.le_total ((limit - (sizes.filter (· ≤ level)).sum) /
        (sizes.filter (level < ·)).length) minFieldChars with hle | hle
    · rw [Nat.max_eq_right hle] at hlevel
      rw [hlevel, Nat.mul_comm]
      exact Nat.le_max_right _ _
    · rw [Nat.max_eq_left hle] at hlevel
      rw [← hlevel] at hshare
      rw [Nat.mul_comm _ level]
      exact hshare.trans (Nat.le_max_left _ _)

end Shamsu.Tools.Compact
