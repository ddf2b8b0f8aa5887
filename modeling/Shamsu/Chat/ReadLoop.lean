import Shamsu.Py.Text

/-!
# A model that reads instead of answering

`ReadLoopDetector` of `shamsu/agents/loop_guards.py`. It counts the calls that only look, round
by round, as long as nothing is produced: a warning, a firm word, and then the signal on which the
turn is ended.

A round is judged as a whole, so what is bounded is the rounds that look, and the looking calls
when a round has a bounded number of them: `read_loop_ends`. The calls of bookkeeping tools change
nothing: `signals_withoutBookkeeping`.
-/

namespace Shamsu.Chat.ReadLoop

open Shamsu.Py

def readsBeforeNudge : Nat := 5
def readsBeforeInsisting : Nat := 8
def readsAfterInsistingBeforeStopping : Nat := 8

def readLoopExhausted : Text := "read_loop_exhausted".toList

def bookkeepingTools : List Text :=
  ["contract_create", "contract_status", "contract_from_plan", "contract_assert_pass",
    "contract_assert_fail", "contract_assert_skip"].map String.toList

def lookingTools : List Text :=
  ["read_file", "read_symbol", "list_files", "find_files", "search_files", "find_and_read",
    "search_and_read", "graph_search", "explain_symbol", "memory_load", "memory_list",
    "history_search", "git_status", "git_diff", "git_log"].map String.toList

/-- `Signal`. -/
structure Signal where
  reason : Text
  activity : String
  correction : String
  deriving DecidableEq, Repr

/-- `ReadLoopDetector`. -/
structure ReadLoopDetector where
  streak : Nat := 0
  nudged : Bool := false
  insisted : Bool := false
  /-- The reads since the firm word. -/
  sinceInsisting : Nat := 0
  /-- What was read, each once. -/
  seen : List Text := []
  deriving DecidableEq, Repr

/-- The calls of one round, as `record` is told of them. -/
structure Round where
  toolNames : List Text
  producedSomething : Bool := false
  targets : List Text := []
  deriving DecidableEq, Repr

def Round.looked (r : Round) : List Text := r.toolNames.filter (lookingTools.contains ·)

/-! ## What is said -/

def exhaustedSignal : Signal where
  reason := readLoopExhausted
  activity := s!"read {readsAfterInsistingBeforeStopping} more things after being asked to " ++
    "stop; ended the turn"
  correction := "I have stopped this turn. After being asked twice to answer, I " ++
    s!"made {readsAfterInsistingBeforeStopping} more read calls " ++
    "without writing anything, running anything, or answering.\n\n" ++
    "Everything I read is still in the conversation, so nothing is " ++
    "lost. Ask for one concrete thing - a single function to change, " ++
    "or one question to answer - and I will do that instead of " ++
    "looking for more context."

/-- The firm word. -/
def insistingSignal (count : Nat) (exploring : Bool) : Signal :=
  if exploring then
    { reason := "read_loop".toList
      activity := s!"read {count} different things without producing anything; " ++
        "asked it to say what it is after"
      correction := s!"You have now opened {count} different files in this turn and " ++
        "produced nothing - no answer, no file changed, no command run." ++
        "\n\nWrite down what you have found so far and what is still " ++
        "missing, in the reply, before reading anything else. If what " ++
        "is missing is one specific thing, fetch exactly that and then " ++
        "answer. If you already know the cause, make the change now." }
  else
    { reason := "read_loop".toList
      activity := s!"read {count} things without producing anything; asked it to answer"
      correction := s!"You have now made {count} read or search calls in this turn and " ++
        "produced nothing - no answer, no file changed, no command run, and " ++
        "you are re-reading things you already have.\n\n" ++
        "Stop reading. Write your answer, or make the change you were asked " ++
        "for, in this turn. If one specific thing is genuinely still missing, " ++
        "fetch exactly that one thing and then answer immediately." }

/-- The gentle word. -/
def nudgingSignal (count : Nat) (exploring : Bool) : Signal :=
  if exploring then
    { reason := "read_loop_warning".toList
      activity := s!"read {count} different things without producing anything"
      correction := s!"You have opened {count} different files and produced " ++
        "nothing yet - no answer, no change, nothing run.\n\n" ++
        "If you already know what is wrong, make the change now. If you " ++
        "are still looking, say in one line WHAT you are looking for " ++
        "before your next read, and read only the thing that would " ++
        "settle it. Do not open more files to see what is in them." }
  else
    { reason := "read_loop_warning".toList
      activity := s!"read {count} things without producing anything"
      correction := s!"You have read {count} things and produced nothing yet, and " ++
        "you are re-reading what you already have. You probably have " ++
        "enough. After your next call, write the answer or make the change " ++
        "- do not keep reading." }

namespace ReadLoopDetector

/-- Every read was of something it had not read before. -/
def exploring (d : ReadLoopDetector) : Bool := !d.seen.isEmpty && decide (d.streak ≤ d.seen.length)

/-- What the round has read is seen. -/
def see (d : ReadLoopDetector) (targets : List Text) : ReadLoopDetector :=
  { d with
    seen := (targets.filter (!·.isEmpty)).foldl (fun seen target => seen.insert target) d.seen }

/-- The looks of a round, added to what was counted. -/
def look (d : ReadLoopDetector) (looks : Nat) : ReadLoopDetector × Option Signal :=
  let d := { d with streak := d.streak + looks }
  if d.insisted then
    let d := { d with sinceInsisting := d.sinceInsisting + looks }
    if readsAfterInsistingBeforeStopping ≤ d.sinceInsisting then
      ({ d with sinceInsisting := 0 }, some exhaustedSignal)
    else (d, none)
  else if readsBeforeInsisting ≤ d.streak then
    ({ d with insisted := true, streak := 0 }, some (insistingSignal d.streak d.exploring))
  else if readsBeforeNudge ≤ d.streak ∧ d.nudged = false then
    ({ d with nudged := true }, some (nudgingSignal d.streak d.exploring))
  else (d, none)

def record (d : ReadLoopDetector) (r : Round) : ReadLoopDetector × Option Signal :=
  if r.producedSomething then ({ d with streak := 0, sinceInsisting := 0, seen := [] }, none)
  else
    let d := d.see r.targets
    if r.looked = [] then
      if r.toolNames ≠ [] ∧ ¬ r.toolNames ⊆ bookkeepingTools then ({ d with streak := 0 }, none)
      else (d, none)
    else d.look r.looked.length

/-- What is said in a run, round by round. -/
def signals : ReadLoopDetector → List Round → List (Option Signal)
  | _, [] => []
  | d, r :: rs => (d.record r).2 :: signals (d.record r).1 rs

/-- The signal on which the turn is ended. -/
def Exhausted (d : ReadLoopDetector) (rounds : List Round) : Prop :=
  ∃ signal, some signal ∈ d.signals rounds ∧ signal.reason = readLoopExhausted

end ReadLoopDetector

/-- Nothing is produced, and only looking and bookkeeping tools are called. -/
def Round.Idle (r : Round) : Prop :=
  r.producedSomething = false ∧ ∀ name ∈ r.toolNames, name ∈ lookingTools ∨ name ∈ bookkeepingTools

/-- The looking calls of a run. -/
def looks (rounds : List Round) : Nat := (rounds.map fun r => r.looked.length).sum

/-- The rounds with a looking call. -/
def lookingRounds (rounds : List Round) : Nat := rounds.countP fun r => decide (r.looked ≠ [])

/-! ## One round -/

namespace ReadLoopDetector

variable {d : ReadLoopDetector} {r : Round}

/-- A round of bookkeeping advances no count and forgives none. -/
theorem record_bookkeeping (hidle : r.Idle) (hlooked : r.looked = []) :
    d.record r = (d.see r.targets, none) := by
  have hbook : r.toolNames ⊆ bookkeepingTools := by
    intro name hname
    rcases hidle.2 name hname with hlook | hbook
    · have hmem : name ∈ r.looked := List.mem_filter.mpr ⟨hname, by simpa using hlook⟩
      rw [hlooked] at hmem
      cases hmem
    · exact hbook
  unfold record
  rw [if_neg (by rw [hidle.1]; decide), if_pos hlooked]
  exact if_neg fun hother => hother.2 hbook

theorem record_looked (hidle : r.Idle) (hlooked : r.looked ≠ []) :
    d.record r = (d.see r.targets).look r.looked.length := by
  unfold record
  rw [if_neg (by rw [hidle.1]; decide)]
  exact if_neg hlooked

/-- What the detector still lets pass, of rounds that weigh `m` at most. -/
def left (d : ReadLoopDetector) (m : Nat) : Nat :=
  if d.insisted then 7 - d.sinceInsisting + m else 7 - d.streak + m + (7 - d.sinceInsisting + m)

theorem left_le (d : ReadLoopDetector) (m : Nat) : d.left m ≤ 14 + 2 * m := by
  unfold left
  split
  · omega
  · omega

theorem le_left (d : ReadLoopDetector) (m : Nat) : m ≤ d.left m := by
  unfold left
  split
  · omega
  · omega

/-- A round that looks is paid for by what it weighs, or it is the last. -/
theorem look_pays {looks weight m : Nat} (hlooks : weight ≤ looks) (hm : weight ≤ m) :
    (d.look looks).2 = some exhaustedSignal ∨ (d.look looks).1.left m + weight ≤ d.left m := by
  have hstop : readsAfterInsistingBeforeStopping = 8 := rfl
  have hinsist : readsBeforeInsisting = 8 := rfl
  unfold look
  dsimp only
  by_cases hinsisted : d.insisted = true
  · rw [if_pos hinsisted]
    by_cases hover : readsAfterInsistingBeforeStopping ≤ d.sinceInsisting + looks
    · apply Or.inl
      rw [if_pos hover]
    · apply Or.inr
      rw [if_neg hover]
      unfold left
      dsimp only
      rw [if_pos hinsisted, if_pos hinsisted]
      omega
  · rw [if_neg hinsisted]
    apply Or.inr
    by_cases hover : readsBeforeInsisting ≤ d.streak + looks
    · -- the firm word is said: what is left is counted from there
      rw [if_pos hover]
      unfold left
      dsimp only
      rw [if_pos rfl, if_neg hinsisted]
      omega
    · rw [if_neg hover]
      have hkept : ∀ d' : ReadLoopDetector, d'.insisted = d.insisted →
          d'.streak = d.streak + looks → d'.sinceInsisting = d.sinceInsisting →
          d'.left m + weight ≤ d.left m := by
        intro d' hsame hstreak hsince
        unfold left
        rw [hsame, if_neg hinsisted, if_neg hinsisted, hstreak, hsince]
        omega
      split
      · exact hkept _ rfl rfl rfl
      · exact hkept _ rfl rfl rfl

/-- Before the firm word nothing ends the turn. -/
theorem look_reason {looks : Nat} {signal : Signal} (hinsisted : d.insisted = false)
    (h : (d.look looks).2 = some signal) : signal.reason ≠ readLoopExhausted := by
  unfold look at h
  dsimp only at h
  rw [if_neg (by rw [hinsisted]; decide)] at h
  split at h
  · cases h
    unfold insistingSignal
    split
    · show "read_loop".toList ≠ _
      decide
    · show "read_loop".toList ≠ _
      decide
  · split at h
    · cases h
      unfold nudgingSignal
      split
      · show "read_loop_warning".toList ≠ _
        decide
      · show "read_loop_warning".toList ≠ _
        decide
    · cases h

/-! ## A run -/

/-- **The ceiling**, for any weight of the rounds: a round weighs its looks at most, and `m`. -/
theorem exhausted_of_weight {weight : Round → Nat} {m : Nat} (hm : 0 < m)
    (hlooks : ∀ r, weight r ≤ r.looked.length) {rounds : List Round}
    (hidle : ∀ r ∈ rounds, r.Idle) (hweight : ∀ r ∈ rounds, weight r ≤ m)
    (h : d.left m ≤ (rounds.map weight).sum) : d.Exhausted rounds := by
  induction rounds generalizing d with
  | nil =>
    have := le_left d m
    simp only [List.map_nil, List.sum_nil] at h
    omega
  | cons r rounds ih =>
    rw [List.map_cons, List.sum_cons] at h
    have hr : r.Idle := hidle r List.mem_cons_self
    have hlater : (d.record r).2 = some exhaustedSignal ∨
        (d.record r).1.left m + weight r ≤ d.left m := by
      by_cases hlooked : r.looked = []
      · -- a round that does not look weighs nothing
        have hnone := hlooks r
        rw [hlooked, List.length_nil] at hnone
        rw [record_bookkeeping hr hlooked]
        apply Or.inr
        show d.left m + weight r ≤ d.left m
        omega
      · rw [record_looked hr hlooked]
        exact look_pays (hlooks r) (hweight r List.mem_cons_self)
    rcases hlater with hlast | hpaid
    · exact ⟨exhaustedSignal, by rw [signals, hlast]; exact List.mem_cons_self, rfl⟩
    · obtain ⟨signal, hmem, hreason⟩ := ih (d := (d.record r).1)
        (fun r hr => hidle r (List.mem_cons_of_mem _ hr))
        (fun r hr => hweight r (List.mem_cons_of_mem _ hr)) (by omega)
      exact ⟨signal, List.mem_cons_of_mem _ hmem, hreason⟩

end ReadLoopDetector

/-! ## Bookkeeping -/

/-- The round without its calls of bookkeeping tools. -/
def Round.withoutBookkeeping (r : Round) : Round :=
  { r with toolNames := r.toolNames.filter fun name => !bookkeepingTools.contains name }

theorem looked_withoutBookkeeping (r : Round) : r.withoutBookkeeping.looked = r.looked := by
  have hapart : ∀ name ∈ lookingTools, name ∉ bookkeepingTools := by decide
  unfold Round.looked Round.withoutBookkeeping
  rw [List.filter_filter]
  apply List.filter_congr
  intro name _
  by_cases hlook : name ∈ lookingTools
  · simp [hlook, hapart name hlook]
  · simp [hlook]

theorem Round.Idle.withoutBookkeeping {r : Round} (h : r.Idle) : r.withoutBookkeeping.Idle := by
  refine ⟨h.1, ?_⟩
  intro name hname
  exact h.2 name (List.mem_of_mem_filter hname)

namespace ReadLoopDetector

variable {d : ReadLoopDetector}

theorem record_withoutBookkeeping {r : Round} (h : r.Idle) :
    d.record r.withoutBookkeeping = d.record r := by
  by_cases hlooked : r.looked = []
  · rw [record_bookkeeping h hlooked, record_bookkeeping h.withoutBookkeeping
      (by rw [looked_withoutBookkeeping, hlooked])]
    rfl
  · rw [record_looked h hlooked, record_looked h.withoutBookkeeping
      (by rw [looked_withoutBookkeeping]; exact hlooked), looked_withoutBookkeeping]
    rfl

/-- The calls of bookkeeping tools change nothing of what is said. -/
theorem signals_withoutBookkeeping {rounds : List Round} (h : ∀ r ∈ rounds, r.Idle) :
    d.signals (rounds.map Round.withoutBookkeeping) = d.signals rounds := by
  induction rounds generalizing d with
  | nil => rfl
  | cons r rounds ih =>
    rw [List.map_cons, signals, signals, record_withoutBookkeeping (h r List.mem_cons_self),
      ih fun r hr => h r (List.mem_cons_of_mem _ hr)]

end ReadLoopDetector

/-- The rounds that look, each of the weight 1. -/
theorem sum_looked (rounds : List Round) :
    (rounds.map fun r => if r.looked = [] then 0 else 1).sum = lookingRounds rounds := by
  induction rounds with
  | nil => rfl
  | cons r rounds ih =>
    rw [List.map_cons, List.sum_cons, ih, lookingRounds, lookingRounds, List.countP_cons]
    by_cases hlooked : r.looked = []
    · rw [if_pos hlooked, if_neg (by rw [hlooked]; decide)]
      omega
    · rw [if_neg hlooked, if_pos (decide_eq_true hlooked)]
      omega

theorem looks_eq_zero {rounds : List Round} (h : ∀ r ∈ rounds, r.looked.length ≤ 0) :
    looks rounds = 0 := by
  induction rounds with
  | nil => rfl
  | cons r rounds ih =>
    have hr := h r List.mem_cons_self
    have hrest := ih fun r hr => h r (List.mem_cons_of_mem _ hr)
    show r.looked.length + looks rounds = 0
    omega

open ReadLoopDetector in
/-- **The turn is ended**, whatever was counted before: at the latest in the sixteenth round that
looks, and after `14 + 2 * m` looking calls when no round makes more than `m`. Bookkeeping has no
part in it. -/
theorem read_loop_ends (d : ReadLoopDetector) (rounds : List Round) (hidle : ∀ r ∈ rounds, r.Idle) :
    (16 ≤ lookingRounds rounds → d.Exhausted rounds) ∧
      (∀ m, (∀ r ∈ rounds, r.looked.length ≤ m) → 14 + 2 * m ≤ looks rounds →
        d.Exhausted rounds) ∧
      d.signals (rounds.map Round.withoutBookkeeping) = d.signals rounds := by
  refine ⟨?_, ?_, signals_withoutBookkeeping hidle⟩
  · intro hrounds
    refine exhausted_of_weight Nat.one_pos ?_ hidle ?_
      ((left_le d 1).trans (sum_looked rounds ▸ hrounds))
    · intro r
      split
      · exact Nat.zero_le _
      · exact List.length_pos_iff.mpr ‹_›
    · intro r _
      split
      · exact Nat.zero_le _
      · exact Nat.le_refl _
  · intro m hm hlooks
    rcases Nat.eq_zero_or_pos m with hzero | hpos
    · -- then no round looks at all
      subst hzero
      have hnone := looks_eq_zero hm
      omega
    · exact exhausted_of_weight hpos (fun _ => Nat.le_refl _) hidle hm ((left_le d m).trans hlooks)

/-- Reads, with an assertion marked passed between them. -/
theorem read_loop_ends_alternating :
    let rounds := List.replicate 16
      ({ toolNames := ["contract_assert_pass".toList, "read_file".toList] } : Round)
    (16 ≤ lookingRounds rounds → ReadLoopDetector.Exhausted {} rounds) ∧
      (∀ m, (∀ r ∈ rounds, r.looked.length ≤ m) → 14 + 2 * m ≤ looks rounds →
        ReadLoopDetector.Exhausted {} rounds) ∧
      ReadLoopDetector.signals {} (rounds.map Round.withoutBookkeeping) =
        ReadLoopDetector.signals {} rounds := by
  apply read_loop_ends
  intro r hr
  rw [List.eq_of_mem_replicate hr]
  exact ⟨rfl, by decide⟩

/-- No number of looking calls is enough: a single round may make them all. -/
theorem no_bound_on_looks : ¬ ∃ bound, ∀ rounds : List Round, (∀ r ∈ rounds, r.Idle) →
    bound ≤ looks rounds → ReadLoopDetector.Exhausted {} rounds := by
  intro h
  obtain ⟨bound, h⟩ := h
  let r : Round := { toolNames := List.replicate bound "read_file".toList }
  have hread : "read_file".toList ∈ lookingTools := by decide
  have hlooked : r.looked = List.replicate bound "read_file".toList :=
    List.filter_eq_self.mpr fun name hname => by
      rw [List.eq_of_mem_replicate hname]
      decide
  have hidle : ∀ r' ∈ [r], r'.Idle := by
    intro r' hr'
    rw [List.mem_singleton.mp hr']
    exact ⟨rfl, fun name hname => .inl ((List.eq_of_mem_replicate hname) ▸ hread)⟩
  have hlooks : bound ≤ looks [r] := by
    show bound ≤ r.looked.length + 0
    rw [hlooked, List.length_replicate]
    omega
  obtain ⟨signal, hmem, hreason⟩ := h [r] hidle hlooks
  have hsignal : (ReadLoopDetector.record {} r).2 = some signal :=
    (List.mem_singleton.mp hmem).symm
  by_cases hnone : r.looked = []
  · have hsilent : (ReadLoopDetector.record {} r).2 = none := by
      rw [ReadLoopDetector.record_bookkeeping (hidle r List.mem_cons_self) hnone]
    rw [hsilent] at hsignal
    cases hsignal
  · rw [ReadLoopDetector.record_looked (hidle r List.mem_cons_self) hnone] at hsignal
    exact ReadLoopDetector.look_reason rfl hsignal hreason

end Shamsu.Chat.ReadLoop
