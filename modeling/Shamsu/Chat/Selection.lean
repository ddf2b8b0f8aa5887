import Shamsu.Chat.History

/-!
# What of the history goes into the prompt

`select_for_budget` walks over the turns from the last on and adds up what they cost. The
loop never looks at a longer suffix than the first that does not fit, which is enough since
no message costs less than nothing.

`select_longest`: it is the longest suffix that begins at a user's message and fits, or the
last turn if none does.
-/

namespace Shamsu.Chat

open Shamsu.Py

/-- What some messages cost. -/
def Budget.cost (b : Budget) (l : List ChatMessage) : Int := (l.map b.messageTokens).sum

/-- The budget that is left for the history. -/
def Budget.forHistory (b : Budget) (systemPrompt : Text) : Int :=
  max 0 (b.maxTokens - b.tokenCounter systemPrompt - b.perMessageOverhead)

/-- A suffix of the history that begins at a user's message and fits. -/
structure Fitting (b : Budget) (history : List ChatMessage) (limit : Int)
    (l : List ChatMessage) : Prop where
  suffix : l <:+ history
  userLed : ∃ m ∈ l.head?, m.role = .user
  fits : b.cost l ≤ limit

/-- The suffix from the last message of the user on; nothing, where there is none. -/
def LastTurn (history tail : List ChatMessage) : Prop :=
  (∃ front m rest, history = front ++ m :: rest ∧ m.role = .user ∧
      (∀ x ∈ rest, x.role ≠ .user) ∧ tail = m :: rest) ∨
    ((∀ m ∈ history, m.role ≠ .user) ∧ tail = [])

/-- The longest suffix that begins at a user's message and fits, or the last turn. -/
def Selects (b : Budget) (history : List ChatMessage) (limit : Int)
    (tail : List ChatMessage) : Prop :=
  (Fitting b history limit tail ∧ ∀ l, Fitting b history limit l → l.length ≤ tail.length) ∨
    ((∀ l, ¬ Fitting b history limit l) ∧ LastTurn history tail)

/-- The messages of the user, by where they stand. -/
def userStarts (history : List ChatMessage) : List Nat :=
  history.findIdxs fun m => m.role == .user

section

variable {b : Budget} {history : List ChatMessage} {limit : Int} {i j : Nat}

theorem cost_append (l l' : List ChatMessage) : b.cost (l ++ l') = b.cost l + b.cost l' := by
  rw [Budget.cost, List.map_append, List.sum_append]
  rfl

theorem cost_nonneg (hcost : ∀ m, 0 ≤ b.messageTokens m) (l : List ChatMessage) :
    0 ≤ b.cost l := by
  induction l with
  | nil => exact Int.le_refl 0
  | cons m l ih =>
    have hm := hcost m
    rw [Budget.cost] at ih
    rw [Budget.cost, List.map_cons, List.sum_cons]
    omega

/-- From `i` to `j`, and from `j` on. -/
theorem cost_drop (hij : i ≤ j) :
    b.cost ((history.take j).drop i) + b.cost (history.drop j) = b.cost (history.drop i) := by
  rw [← cost_append]
  congr 1
  have hsplit : (history.take j ++ history.drop j).drop i =
      (history.take j).drop i ++ (history.drop j).drop (i - (history.take j).length) :=
    List.drop_append
  rw [List.take_append_drop] at hsplit
  rw [hsplit]
  congr 1
  rw [List.length_take]
  rcases Nat.le_total j history.length with hlen | hlen
  · rw [Nat.min_eq_left hlen, Nat.sub_eq_zero_of_le hij, List.drop_zero]
  · rw [List.drop_eq_nil_of_le hlen, List.drop_nil]

/-- The longer suffix costs no less. -/
theorem cost_drop_le (hcost : ∀ m, 0 ≤ b.messageTokens m) (hij : i ≤ j) :
    b.cost (history.drop j) ≤ b.cost (history.drop i) := by
  have hsplit := @cost_drop b history i j hij
  have hfront := cost_nonneg hcost ((history.take j).drop i)
  omega

theorem mem_userStarts : i ∈ userStarts history ↔ ∃ m, history[i]? = some m ∧ m.role = .user := by
  unfold userStarts
  rw [List.mem_findIdxs_iff_exists_getElem_pos]
  constructor
  · intro h
    obtain ⟨hi, hrole⟩ := h
    exact ⟨history[i], List.getElem?_eq_getElem hi, by simpa using hrole⟩
  · intro h
    obtain ⟨m, hm, hrole⟩ := h
    obtain ⟨hi, rfl⟩ := List.getElem?_eq_some_iff.mp hm
    exact ⟨hi, by simpa using hrole⟩

theorem lt_of_mem_userStarts (h : i ∈ userStarts history) : i < history.length := by
  obtain ⟨m, hm, _⟩ := mem_userStarts.mp h
  exact (List.getElem?_eq_some_iff.mp hm).1

/-- A fitting suffix stands at a message of the user. -/
theorem fitting_iff {l : List ChatMessage} :
    Fitting b history limit l ↔
      ∃ i ∈ userStarts history, l = history.drop i ∧ b.cost (history.drop i) ≤ limit := by
  constructor
  · intro h
    obtain ⟨hsuffix, ⟨m, hm, hrole⟩, hfits⟩ := h
    have hl := List.suffix_iff_eq_drop.mp hsuffix
    rw [hl, List.head?_drop] at hm
    exact ⟨_, mem_userStarts.mpr ⟨m, hm, hrole⟩, hl, hl ▸ hfits⟩
  · intro h
    obtain ⟨i, hi, rfl, hfits⟩ := h
    obtain ⟨m, hm, hrole⟩ := mem_userStarts.mp hi
    exact ⟨List.drop_suffix _ _, ⟨m, by rw [List.head?_drop]; exact hm, hrole⟩, hfits⟩

/-- Where no start before the selected one fits, the selected one is the longest. -/
theorem selects_of_start {r : Nat} (hr : r ∈ userStarts history)
    (hfits : b.cost (history.drop r) ≤ limit)
    (hbefore : ∀ i ∈ userStarts history, i < r → limit < b.cost (history.drop i)) :
    Selects b history limit (history.drop r) := by
  refine .inl ⟨fitting_iff.mpr ⟨r, hr, rfl, hfits⟩, fun l hl => ?_⟩
  obtain ⟨i, hi, rfl, hi'⟩ := fitting_iff.mp hl
  have hle : r ≤ i := by
    by_contra hlt
    have := hbefore i hi (Nat.lt_of_not_le hlt)
    omega
  rw [List.length_drop, List.length_drop]
  omega

/-- The loop, once a turn fits. -/
theorem selectFrom_within (hcost : ∀ m, 0 ≤ b.messageTokens m) {starts : List Nat} {stop : Nat}
    (hdown : starts.Pairwise (· > ·)) (hbefore : ∀ i ∈ starts, i < stop)
    (hstop : stop < history.length) (hfits : b.cost (history.drop stop) ≤ limit) {r : Nat}
    (h : b.selectFrom history limit starts (b.cost (history.drop stop)) stop stop = r) :
    (r = stop ∨ r ∈ starts) ∧ b.cost (history.drop r) ≤ limit ∧
      ∀ i ∈ starts, i < r → limit < b.cost (history.drop i) := by
  induction starts generalizing stop with
  | nil =>
    cases h
    exact ⟨.inl rfl, hfits, nofun⟩
  | cons start starts ih =>
    have hlt := hbefore start List.mem_cons_self
    obtain ⟨hfirst, hdown⟩ := List.pairwise_cons.mp hdown
    have hsum := @cost_drop b history start stop hlt.le
    rw [Int.add_comm] at hsum
    unfold Budget.selectFrom at h
    dsimp only at h
    rw [← Budget.cost, hsum] at h
    by_cases hover : limit < b.cost (history.drop start)
    · -- the turn does not fit, so neither does any before it
      rw [if_pos ⟨hstop.ne, hover⟩] at h
      refine ⟨.inl h.symm, h ▸ hfits, fun i hi _ => ?_⟩
      have hle : i ≤ start := by
        rcases List.mem_cons.mp hi with rfl | hi
        · exact Nat.le_refl _
        · exact (hfirst i hi).le
      have := @cost_drop_le b history i start hcost hle
      omega
    · rw [if_neg fun h => hover h.2, if_neg hover] at h
      obtain ⟨hr, hle, hlonger⟩ := ih hdown hfirst (hlt.trans hstop) (by omega) h
      refine ⟨.inr ?_, hle, fun i hi hir => ?_⟩
      · rcases hr with hr | hr
        · rw [hr]
          exact List.mem_cons_self
        · exact List.mem_cons_of_mem _ hr
      · rcases List.mem_cons.mp hi with rfl | hi
        · rcases hr with hr | hr
          · omega
          · exact absurd (hfirst _ hr) (by omega)
        · exact hlonger i hi hir

/-- Behind the last of the starts there is no message of the user. -/
theorem lastTurn_drop {last : Nat} (h : (userStarts history).getLast? = some last) :
    LastTurn history (history.drop last) := by
  have hmem := List.mem_of_getLast? h
  obtain ⟨m, hm, hrole⟩ := mem_userStarts.mp hmem
  obtain ⟨hlt, rfl⟩ := List.getElem?_eq_some_iff.mp hm
  refine .inl ⟨history.take last, history[last], history.drop (last + 1), ?_, hrole, ?_, ?_⟩
  · rw [List.getElem_cons_drop, List.take_append_drop]
  · intro x hx hxrole
    obtain ⟨k, hk, rfl⟩ := List.getElem_of_mem hx
    rw [List.getElem_drop] at hxrole
    have hlater : last + 1 + k ∈ userStarts history :=
      mem_userStarts.mpr ⟨_, List.getElem?_eq_getElem _, hxrole⟩
    obtain ⟨front, hfront⟩ := List.getLast?_eq_some_iff.mp h
    have hup : (userStarts history).Pairwise (· < ·) := List.pairwise_findIdxs
    rw [hfront] at hup hlater
    rcases List.mem_append.mp hlater with hin | hin
    · have := (List.pairwise_append.mp hup).2.2 _ hin _ (List.mem_singleton_self _)
      omega
    · have := List.mem_singleton.mp hin
      omega
  · exact (List.getElem_cons_drop ..).symm

end

/-- **The selection** is the longest suffix of whole turns that fits, or the last turn;
no message and no envelope costs less than nothing. -/
theorem select_longest (s : ChatState) (b : Budget) (hcounter : ∀ t, 0 ≤ b.tokenCounter t)
    (hoverhead : 0 ≤ b.perMessageOverhead) :
    Selects b (s.messages.drop 1) (b.forHistory s.systemPrompt) (s.selectForBudget b).1 := by
  have hcost : ∀ m, 0 ≤ b.messageTokens m := by
    intro m
    have hcontent := hcounter m.content
    have hcalls := hcounter (b.dumps m.toolCalls)
    unfold Budget.messageTokens
    split <;> omega
  -- without a message of the user nothing can be selected
  have hnone : ∀ {history : List ChatMessage}, userStarts history = [] →
      Selects b history (b.forHistory s.systemPrompt) [] := by
    intro history hnil
    have hno : ∀ i, i ∉ userStarts history := by simp [hnil]
    refine .inr ⟨fun l hl => ?_, .inr ⟨fun m hm hrole => ?_, rfl⟩⟩
    · obtain ⟨i, hi, _⟩ := fitting_iff.mp hl
      exact hno i hi
    · obtain ⟨i, hi, rfl⟩ := List.getElem_of_mem hm
      exact hno i (mem_userStarts.mpr ⟨_, List.getElem?_eq_getElem hi, hrole⟩)
  unfold ChatState.selectForBudget
  generalize hhistory : s.messages.drop 1 = history
  dsimp only
  split
  next hnil => exact hnone (by rw [hnil]; rfl)
  next =>
    split
    next hlast => exact hnone (List.getLast?_eq_none_iff.mp hlast)
    next last hlast =>
      change (userStarts history).getLast? = some last at hlast
      obtain ⟨front, hfront⟩ := List.getLast?_eq_some_iff.mp hlast
      have hmem := List.mem_of_getLast? hlast
      have hup : (userStarts history).Pairwise (· < ·) := List.pairwise_findIdxs
      have hbefore : ∀ i ∈ front, i < last := by
        rw [hfront] at hup
        exact fun i hi => (List.pairwise_append.mp hup).2.2 i hi _ (List.mem_singleton_self _)
      have hdown : front.reverse.Pairwise (· > ·) := by
        rw [hfront] at hup
        exact List.pairwise_reverse.mpr (List.pairwise_append.mp hup).1
      have hdrop : ∀ r, s.messages.drop (r + 1) = history.drop r := by
        intro r
        rw [← hhistory, List.drop_drop, Nat.add_comm]
      rw [hdrop]
      show Selects b history _ (history.drop (b.selectFrom history (b.forHistory s.systemPrompt)
        (userStarts history).reverse 0 last history.length))
      rw [hfront, List.reverse_append, List.reverse_singleton, List.singleton_append,
        Budget.selectFrom]
      rw [if_neg fun h => h.1 rfl, List.take_length, ← Budget.cost, Int.zero_add]
      by_cases hover : b.forHistory s.systemPrompt < b.cost (history.drop last)
      · -- not even the last turn fits
        rw [if_pos hover]
        refine .inr ⟨fun l hl => ?_, lastTurn_drop hlast⟩
        obtain ⟨i, hi, _, hfits⟩ := fitting_iff.mp hl
        have hle : i ≤ last := by
          rw [hfront] at hi
          rcases List.mem_append.mp hi with hi | hi
          · exact (hbefore i hi).le
          · exact (List.mem_singleton.mp hi).le
        have := @cost_drop_le b history i last hcost hle
        omega
      · rw [if_neg hover]
        obtain ⟨hr, hfits, hlonger⟩ := selectFrom_within hcost hdown
          (fun i hi => hbefore i (List.mem_reverse.mp hi)) (lt_of_mem_userStarts hmem)
          (Int.not_lt.mp hover) rfl
        refine selects_of_start ?_ hfits fun i hi hir => ?_
        · rw [hfront]
          rcases hr with hr | hr
          · rw [hr]
            exact List.mem_append_right _ (List.mem_singleton_self _)
          · exact List.mem_append_left _ (List.mem_reverse.mp hr)
        · have hi' := hi
          rw [hfront] at hi'
          rcases List.mem_append.mp hi' with hin | hin
          · exact hlonger i (List.mem_reverse.mpr hin) hir
          · -- nothing that is selected is behind the last start
            rw [List.mem_singleton.mp hin] at hir
            rcases hr with hr | hr
            · omega
            · have := hbefore _ (List.mem_reverse.mp hr)
              omega

/-- A character a token, and room for the last two messages of a history. -/
def narrow : Budget := ⟨32, fun t => t.length, fun _ => [], 8⟩

def twoTurns : ChatState :=
  { systemPrompt := []
    messages := [{ role := .system, content := [] }, { role := .user, content := ['a'] },
      { role := .user, content := ['b'] }, { role := .assistant, content := ['c'] }]
    rollingSummary := []
    summarizedUpto := 1 }

theorem select_longest_narrow :
    Selects narrow (twoTurns.messages.drop 1) (narrow.forHistory twoTurns.systemPrompt)
        (twoTurns.selectForBudget narrow).1 ∧
      (twoTurns.selectForBudget narrow).1 = twoTurns.messages.drop 2 :=
  ⟨select_longest twoTurns narrow (fun t => Int.natCast_nonneg t.length) (by decide), by decide⟩

end Shamsu.Chat
