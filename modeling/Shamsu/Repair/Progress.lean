import Shamsu.Py.SourceLines
import Shamsu.Repair.Kept

/-!
# The errors get better

Along the attempts that a repair run keeps, each error list is `Better` than every one that was
current before it: it has fewer errors, or it is one failure of the same test at a later line. So
the count never grows, no multiset of signatures comes back (`signature_later`), and the count
with the distance from the last line that is named falls in the lexicographic order of `ℕ × ℕ`
(`measure_lt`).

`run_progresses` says this of the runs of the loop, with the packets of its verifications.
-/

namespace Shamsu.Repair

open Shamsu.Lib Shamsu.Py Shamsu.Safety Shamsu.Patch

/-! ## What is kept -/

/-- The packets of the attempts that are kept, of those that the verifier hands back after the
attempts: an empty list of errors and a solved one end the run. -/
def keptPackets (lower : Text → Text) :
    List RepairError → List ErrorPacket → List (RepairOutcome × ErrorPacket)
  | _, [] => []
  | before, p :: ps =>
    if before = [] then []
    else
      let outcome := compare lower before p.errors p.exitCode
      if outcome.isProgress then
        (outcome, p) :: (if outcome = .solved then [] else keptPackets lower p.errors ps)
      else keptPackets lower before ps

/-- The error lists that are current in the course of a run. -/
def currents (before : List RepairError) (kept : List (RepairOutcome × ErrorPacket)) :
    List (List RepairError) :=
  before :: kept.map fun k => k.2.errors

/-! ## Better errors -/

/-- One failure, at a later line of the same test. -/
structure Later (lower : Text → Text) (x y : RepairError) : Prop where
  symbol : x.symbol ≠ []
  same : x.symbol = y.symbol
  file : lower (posixText x.file) = lower (posixText y.file)
  line : ∃ n m, x.line = some n ∧ y.line = some m ∧ n < m

/-- Fewer errors, or one failure at a later line. -/
def Better (lower : Text → Text) (before after : List RepairError) : Prop :=
  after.length < before.length ∨ ∃ x y, before = [x] ∧ after = [y] ∧ Later lower x y

section Better

variable {lower : Text → Text} {before after errors : List RepairError} {x y z : RepairError}

theorem Later.trans (hxy : Later lower x y) (hyz : Later lower y z) : Later lower x z := by
  obtain ⟨n, m, hn, hm, hlt⟩ := hxy.line
  obtain ⟨m', k, hm', hk, hlt'⟩ := hyz.line
  rw [hm] at hm'
  cases hm'
  exact ⟨hxy.symbol, hxy.same.trans hyz.same, hxy.file.trans hyz.file, n, k, hn, hk, by omega⟩

theorem Better.length_le (h : Better lower before after) : after.length ≤ before.length := by
  rcases h with hfewer | ⟨x, y, rfl, rfl, _⟩
  · omega
  · exact Nat.le_refl _

theorem Better.trans (h₁ : Better lower before after) (h₂ : Better lower after errors) :
    Better lower before errors := by
  rcases h₁ with hfewer | ⟨x, y, rfl, rfl, hxy⟩
  · have hle := h₂.length_le
    exact .inl (by omega)
  · rcases h₂ with hfewer | ⟨y', z, hy, rfl, hyz⟩
    · exact .inl hfewer
    · cases hy
      exact .inr ⟨x, z, rfl, rfl, hxy.trans hyz⟩

theorem later_of_sameTestAdvanced (h : sameTestAdvanced lower before after = true) :
    ∃ x y, before = [x] ∧ after = [y] ∧ Later lower x y := by
  unfold sameTestAdvanced at h
  split at h
  next old new =>
    simp only [Bool.and_eq_true, bne_iff_ne, beq_iff_eq] at h
    obtain ⟨⟨⟨⟨_, hsymbol⟩, hsame⟩, hfile⟩, hline⟩ := h
    refine ⟨old, new, rfl, rfl, hsymbol, hsame, hfile, ?_⟩
    split at hline
    next n m hn hm => exact ⟨n, m, hn, hm, of_decide_eq_true hline⟩
    next => cases hline
  next => cases h

/-- **What is kept is better.** -/
theorem better_of_progress {exitCode : Int} (hbefore : before ≠ [])
    (h : (compare lower before after exitCode).isProgress = true) : Better lower before after := by
  unfold compare at h
  split at h
  next hsolved =>
    rw [hsolved.2]
    exact .inl (List.length_pos_iff.mpr hbefore)
  next =>
    split at h
    · cases h
    · split at h
      next hfewer => exact .inl hfewer
      next =>
        split at h
        · cases h
        · split at h
          next hadvanced => exact .inr (later_of_sameTestAdvanced hadvanced)
          next => cases h

/-! ## Signatures -/

/-- In lower case a longer text is longer still. -/
def Lengthens (lower : Text → Text) : Prop :=
  ∀ s t : Text, t ≠ [] → (lower s).length < (lower (s ++ t)).length

/-- What the digest promises of an error with a symbol: its code has no colon. -/
def PlainCode (e : RepairError) : Prop := e.symbol ≠ [] → ':' ∉ e.code

theorem join_cons {part : Text} {parts : List Text} (h : parts ≠ []) :
    join ':' (part :: parts) = part ++ ':' :: join ':' parts := by
  cases parts with
  | nil => exact absurd rfl h
  | cons next parts =>
    unfold join
    rw [List.intercalate_cons_cons, List.append_assoc]
    rfl

theorem colon_not_mem_kind (kind : ErrorKind) : ':' ∉ kind.value := by
  cases kind with
  | _ => decide

theorem not_mem_repr {c : Char} (hc : c.isDigit = false) (k : Nat) : c ∉ (Nat.repr k).toList := by
  intro hk
  rw [Nat.toList_repr] at hk
  rw [Nat.isDigit_of_mem_toDigits (by omega) (by omega) hk] at hc
  cases hc

theorem colon_not_mem_int (n : Int) : ':' ∉ (toString n).toList := by
  rw [Int.toString_eq_repr, Int.repr_eq_if]
  split
  · exact not_mem_repr (by decide) _
  · rw [String.toList_append]
    intro hmem
    rcases List.mem_append.mp hmem with hminus | hmem
    · exact absurd hminus (by decide)
    · exact not_mem_repr (by decide) _ hmem

theorem repr_injective {a b : Nat} (h : (Nat.repr a).toList = (Nat.repr b).toList) : a = b := by
  rw [Nat.toList_repr, Nat.toList_repr] at h
  have hvalue := congrArg (Nat.ofDigitChars 10 · 0) h
  rwa [Nat.ofDigitChars_ten_toDigits, Nat.ofDigitChars_ten_toDigits] at hvalue

theorem toString_int_injective {n m : Int} (h : (toString n).toList = (toString m).toList) :
    n = m := by
  have hminus : ∀ a b : Nat, (Nat.repr a).toList ≠ ("-" ++ Nat.repr b).toList := by
    intro a b heq
    rw [String.toList_append] at heq
    refine not_mem_repr (c := '-') (by decide) a ?_
    rw [heq]
    exact List.mem_append_left _ (by decide)
  rw [Int.toString_eq_repr, Int.toString_eq_repr, Int.repr_eq_if, Int.repr_eq_if] at h
  split at h
  · split at h
    · have := repr_injective h
      omega
    · exact absurd h (hminus _ _)
  · split at h
    · exact absurd h.symm (hminus _ _)
    · rw [String.toList_append, String.toList_append] at h
      have := repr_injective (List.append_cancel_left h)
      omega

/-- With one beginning, one of the two files is the other with more behind it. -/
theorem file_eq {f g s t : Text} (hlower : Lengthens lower)
    (hfile : lower (posixText f) = lower (posixText g)) (h : f ++ s = g ++ t) : f = g := by
  have hlonger : ∀ {f g extra : Text}, lower (posixText f) = lower (posixText g) →
      g = f ++ extra → f = g := by
    intro f g extra hfile hg
    by_cases hextra : extra = []
    · rw [hg, hextra, List.append_nil]
    · have hlt := hlower (posixText f) (posixText extra)
        (fun hnil => hextra (List.map_eq_nil_iff.mp hnil))
      have hposix : posixText f ++ posixText extra = posixText g := by
        rw [hg]
        exact (List.map_append ..).symm
      rw [hposix, hfile] at hlt
      exact absurd hlt (Nat.lt_irrefl _)
  rcases List.append_eq_append_iff.mp h with ⟨extra, hg, _⟩ | ⟨extra, hf, _⟩
  · exact hlonger hfile hg
  · exact (hlonger hfile.symm hf).symm

/-- **A later failure has another signature.** -/
theorem signature_later (hlower : Lengthens lower) (hx : PlainCode x) (hy : PlainCode y)
    (h : Later lower x y) : x.signature ≠ y.signature := by
  obtain ⟨n, m, hn, hm, hlt⟩ := h.line
  intro hsame
  unfold RepairError.signature at hsame
  rw [hn, hm] at hsame
  dsimp only at hsame
  simp only [join_cons (List.cons_ne_nil _ _)] at hsame
  obtain ⟨_, hsame⟩ := append_cons_cancel (colon_not_mem_kind _) (colon_not_mem_kind _) hsame
  obtain ⟨_, hsame⟩ := append_cons_cancel (hx h.symbol) (hy (h.same ▸ h.symbol)) hsame
  have hfile := file_eq hlower h.file hsame
  rw [hfile] at hsame
  have hline := (List.cons.inj (List.append_cancel_left hsame)).2
  obtain ⟨hdigits, _⟩ := append_cons_cancel (colon_not_mem_int n) (colon_not_mem_int m) hline
  have hequal := toString_int_injective hdigits
  omega

/-- The multiset of signatures is another. -/
theorem Better.signatures (hlower : Lengthens lower) (hbefore : ∀ e ∈ before, PlainCode e)
    (hafter : ∀ e ∈ after, PlainCode e) (h : Better lower before after) :
    ¬ (before.map RepairError.signature).Perm (after.map RepairError.signature) := by
  intro hperm
  rcases h with hfewer | ⟨x, y, rfl, rfl, hxy⟩
  · have hlength := hperm.length_eq
    rw [List.length_map, List.length_map] at hlength
    omega
  · have hsame := List.singleton_perm_singleton.mp hperm
    exact signature_later hlower (hbefore x List.mem_cons_self) (hafter y List.mem_cons_self)
      hxy hsame

/-! ## The measure -/

/-- How far the failure is from the last line. -/
def distance (last : Int) : List RepairError → Nat
  | [e] => (last - e.line.getD last).toNat
  | _ => 0

/-- The count of errors, and behind it how far a single one is from the last line. -/
def errorMeasure (last : Int) (errors : List RepairError) : ℕ ×ₗ ℕ :=
  toLex (errors.length, distance last errors)

theorem Better.measure_lt {last : Int} (hlast : ∀ e ∈ after, ∀ n, e.line = some n → n ≤ last)
    (h : Better lower before after) : errorMeasure last after < errorMeasure last before := by
  rw [errorMeasure, errorMeasure, Prod.Lex.toLex_lt_toLex]
  rcases h with hfewer | ⟨x, y, rfl, rfl, hxy⟩
  · exact .inl hfewer
  · obtain ⟨n, m, hn, hm, hlt⟩ := hxy.line
    have hle := hlast y List.mem_cons_self m hm
    refine .inr ⟨rfl, ?_⟩
    show (last - y.line.getD last).toNat < (last - x.line.getD last).toNat
    rw [hn, hm, Option.getD_some, Option.getD_some]
    omega

end Better

/-! ## The trace -/

section Trace

variable {lower : Text → Text} {before : List RepairError} {p : ErrorPacket}
  {packets : List ErrorPacket}

theorem keptPackets_skip (h : (compare lower before p.errors p.exitCode).isProgress = false) :
    keptPackets lower before (p :: packets) = keptPackets lower before packets := by
  rw [keptPackets]
  split
  next hnil =>
    rw [hnil]
    cases packets with
    | nil => rfl
    | cons q packets => rw [keptPackets, if_pos rfl]
  next =>
    dsimp only
    rw [h]
    exact if_neg (by decide)

theorem keptPackets_keep (hbefore : before ≠ [])
    (h : (compare lower before p.errors p.exitCode).isProgress = true) :
    keptPackets lower before (p :: packets) = (compare lower before p.errors p.exitCode, p) ::
      (if compare lower before p.errors p.exitCode = .solved then []
        else keptPackets lower p.errors packets) := by
  rw [keptPackets, if_neg hbefore]
  dsimp only
  rw [if_pos h]

theorem keptPackets_nil (h : before = []) : keptPackets lower before packets = [] := by
  cases packets with
  | nil => rfl
  | cons p packets => rw [keptPackets, if_pos h]

theorem mem_of_kept {k : RepairOutcome × ErrorPacket}
    (h : k ∈ keptPackets lower before packets) : k.2 ∈ packets := by
  induction packets generalizing before with
  | nil => cases h
  | cons p packets ih =>
    by_cases hbefore : before = []
    · rw [keptPackets_nil hbefore] at h
      cases h
    · cases hprogress : (compare lower before p.errors p.exitCode).isProgress with
      | false =>
        rw [keptPackets_skip hprogress] at h
        exact List.mem_cons_of_mem _ (ih h)
      | true =>
        rw [keptPackets_keep hbefore hprogress] at h
        rcases List.mem_cons.mp h with heq | h
        · rw [heq]
          exact List.mem_cons_self
        · split at h
          · cases h
          · exact List.mem_cons_of_mem _ (ih h)

/-- **Each list is better than all that were current before it.** -/
theorem currents_better :
    (currents before (keptPackets lower before packets)).Pairwise (Better lower) := by
  induction packets generalizing before with
  | nil => exact List.pairwise_singleton _ _
  | cons p packets ih =>
    by_cases hbefore : before = []
    · rw [keptPackets_nil hbefore]
      exact List.pairwise_singleton _ _
    · cases hprogress : (compare lower before p.errors p.exitCode).isProgress with
      | false =>
        rw [keptPackets_skip hprogress]
        exact ih
      | true =>
        have hbetter := better_of_progress hbefore hprogress
        rw [keptPackets_keep hbefore hprogress]
        have hrest : (currents p.errors (if compare lower before p.errors p.exitCode = .solved
            then [] else keptPackets lower p.errors packets)).Pairwise (Better lower) := by
          split
          · exact List.pairwise_singleton _ _
          · exact ih
        refine List.Pairwise.cons ?_ hrest
        intro errors herrors
        rcases List.mem_cons.mp herrors with heq | hlater
        · rw [heq]
          exact hbetter
        · exact hbetter.trans ((List.pairwise_cons.mp hrest).1 errors hlater)

end Trace

/-- What holds along the lists that are current: the count never grows, a measure falls, and no
multiset of signatures comes back. -/
structure Progresses (lists : List (List RepairError)) : Prop where
  count : lists.Pairwise fun before after => after.length ≤ before.length
  measure : ∃ last, lists.Pairwise fun before after =>
    errorMeasure last after < errorMeasure last before
  signatures : lists.Pairwise fun before after =>
    ¬ (before.map RepairError.signature).Perm (after.map RepairError.signature)

/-- A line that is behind all of them. -/
theorem exists_last (errors : List RepairError) :
    ∃ last, ∀ e ∈ errors, ∀ n, e.line = some n → n ≤ last := by
  induction errors with
  | nil => exact ⟨0, nofun⟩
  | cons e errors ih =>
    obtain ⟨last, hlast⟩ := ih
    refine ⟨max last (e.line.getD last), ?_⟩
    intro x hx n hn
    rcases List.mem_cons.mp hx with heq | hx
    · rw [← heq, hn, Option.getD_some]
      exact Int.le_max_right _ _
    · exact Int.le_trans (hlast x hx n hn) (Int.le_max_left _ _)

/-- **Any packets**: what is kept of them progresses. -/
theorem kept_progresses {lower : Text → Text} (hlower : Lengthens lower)
    {before : List RepairError} {packets : List ErrorPacket}
    (hbefore : ∀ e ∈ before, PlainCode e) (hpackets : ∀ p ∈ packets, ∀ e ∈ p.errors, PlainCode e) :
    Progresses (currents before (keptPackets lower before packets)) := by
  have hbetter : (currents before (keptPackets lower before packets)).Pairwise (Better lower) :=
    currents_better
  have hplain : ∀ errors ∈ currents before (keptPackets lower before packets),
      ∀ e ∈ errors, PlainCode e := by
    intro errors herrors
    rcases List.mem_cons.mp herrors with heq | hmem
    · rw [heq]
      exact hbefore
    · obtain ⟨k, hk, rfl⟩ := List.mem_map.mp hmem
      exact hpackets k.2 (mem_of_kept hk)
  obtain ⟨last, hlast⟩ := exists_last (currents before (keptPackets lower before packets)).flatten
  refine ⟨hbetter.imp fun h => h.length_le, ⟨last, ?_⟩, ?_⟩
  · refine hbetter.imp_of_mem ?_
    intro a b _ hb h
    exact h.measure_lt fun e he => hlast e (List.mem_flatten.mpr ⟨b, hb, he⟩)
  · refine hbetter.imp_of_mem ?_
    intro a b ha hb h
    exact h.signatures hlower (hplain a ha) (hplain b hb)

/-! ## The runs of the loop -/

/-- What the loop remembers of the attempts that it kept. -/
def keptRecords (attempts : List RepairAttemptRecord) : List (RepairOutcome × Text) :=
  (attempts.filter fun a => a.kept).map fun a => (a.outcome, a.afterSignature)

/-- What is to be remembered of the packets that are kept. -/
def remembered (kept : List (RepairOutcome × ErrorPacket)) : List (RepairOutcome × Text) :=
  kept.map fun k => (k.1, RepairLoop.packetSignature k.2)

/-- The verifier has handed the packet back. -/
def RepairLoop.Verified (r : RepairLoop) (p : ErrorPacket) : Prop := ∃ n d, p = r.verify n d

/-- What one attempt does to the current errors. -/
inductive Attempted (r : RepairLoop) (s : LoopState) : Ending → LoopState → Prop where
  | silent {ending : Ending} {s' : LoopState} (hends : ending ≠ .solved)
      (hsame : s'.beforeErrors = s.beforeErrors)
      (hkept : keptRecords s'.attempts = keptRecords s.attempts) : Attempted r s ending s'
  | rejected {s' : LoopState} (p : ErrorPacket) (hp : r.Verified p)
      (hno : (compare r.lower s.beforeErrors p.errors p.exitCode).isProgress = false)
      (hsame : s'.beforeErrors = s.beforeErrors)
      (hkept : keptRecords s'.attempts = keptRecords s.attempts) : Attempted r s .continues s'
  | kept {ending : Ending} {s' : LoopState} (p : ErrorPacket) (hp : r.Verified p)
      (hbefore : s.beforeErrors ≠ [])
      (hyes : (compare r.lower s.beforeErrors p.errors p.exitCode).isProgress = true)
      (hsolved : ending = .solved ∧ compare r.lower s.beforeErrors p.errors p.exitCode = .solved ∨
        ending = .continues ∧ compare r.lower s.beforeErrors p.errors p.exitCode ≠ .solved ∧
          s'.beforeErrors = p.errors)
      (hkept : keptRecords s'.attempts = keptRecords s.attempts ++
        [(compare r.lower s.beforeErrors p.errors p.exitCode, RepairLoop.packetSignature p)]) :
      Attempted r s ending s'

theorem keptRecords_append (l₁ l₂ : List RepairAttemptRecord) :
    keptRecords (l₁ ++ l₂) = keptRecords l₁ ++ keptRecords l₂ := by
  unfold keptRecords
  rw [List.filter_append, List.map_append]

theorem keptRecords_kept (l : List RepairAttemptRecord) {a : RepairAttemptRecord}
    (h : a.kept = true) : keptRecords (l ++ [a]) = keptRecords l ++ [(a.outcome, a.afterSignature)] := by
  rw [keptRecords_append]
  unfold keptRecords
  rw [List.filter_singleton, h]
  rfl

theorem keptRecords_dropped (l : List RepairAttemptRecord) {a : RepairAttemptRecord}
    (h : a.kept = false) : keptRecords (l ++ [a]) = keptRecords l := by
  rw [keptRecords_append]
  unfold keptRecords
  rw [List.filter_singleton, h]
  exact List.append_nil _

section Loop

variable {r : RepairLoop} {w w' : World} {index : Nat} {s s' : LoopState} {ending : Ending}

theorem applyAttempt_attempted {primary : RepairError} {plan : RepairPlan}
    (hbefore : s.beforeErrors ≠ [])
    (hrun : r.applyAttempt index primary plan s w = (.ok (ending, s'), w')) :
    Attempted r s ending s' := by
  unfold RepairLoop.applyAttempt at hrun
  dsimp only at hrun
  split at hrun
  · cases hrun
    exact .silent nofun rfl rfl
  · rw [Prog.bind_of_ok (Prog.gets_apply _ w)] at hrun
    obtain ⟨_, w₁, _, hrun⟩ := Prog.bind_ok.mp hrun
    obtain ⟨_, w₂, _, hrun⟩ := Prog.bind_ok.mp hrun
    obtain ⟨changed, w₃, _, hrun⟩ := Prog.bind_ok.mp hrun
    split at hrun
    · -- the plan changed nothing, and is taken back
      obtain ⟨_, w₄, _, hrun⟩ := Prog.bind_ok.mp hrun
      cases hrun
      exact .silent nofun rfl (keptRecords_dropped _ rfl)
    · obtain ⟨_, w₄, _, hrun⟩ := Prog.bind_ok.mp hrun
      rw [Prog.bind_of_ok (Prog.gets_apply _ w₄)] at hrun
      have hverified : r.Verified (r.verify s.verifications w₄.disk) := ⟨_, _, rfl⟩
      split at hrun
      next hprogress =>
        obtain ⟨_, w₅, _, hrun⟩ := Prog.bind_ok.mp hrun
        obtain ⟨_, w₆, _, hrun⟩ := Prog.bind_ok.mp hrun
        split at hrun
        next hsolved =>
          cases hrun
          exact .kept _ hverified hbefore hprogress (.inl ⟨rfl, hsolved⟩)
            (keptRecords_kept _ hprogress)
        next hsolved =>
          cases hrun
          exact .kept _ hverified hbefore hprogress (.inr ⟨rfl, hsolved, rfl⟩)
            (keptRecords_kept _ hprogress)
      next hprogress =>
        -- no progress: the files are put back, and the errors stay
        obtain ⟨_, w₅, _, hrun⟩ := Prog.bind_ok.mp hrun
        cases hrun
        have hno := Bool.eq_false_iff.mpr hprogress
        exact .rejected _ hverified hno rfl (keptRecords_dropped _ hno)

/-- A plan is applied only when there is an error. -/
theorem errors_of_apply {d : FS} {primary : RepairError} {plan : RepairPlan}
    (h : r.decision d index s = .apply primary plan) : s.beforeErrors ≠ [] := by
  intro hnil
  unfold RepairLoop.decision at h
  rw [hnil] at h
  cases h

/-- **Step lemma.** -/
theorem attempt_attempted (hrun : r.attempt index s w = (.ok (ending, s'), w')) :
    Attempted r s ending s' := by
  unfold RepairLoop.attempt at hrun
  rw [Prog.bind_of_ok (Prog.gets_apply _ w)] at hrun
  cases hdecision : r.decision w.disk index s with
  | stop reason =>
    rw [hdecision] at hrun
    cases hrun
    exact .silent nofun rfl rfl
  | reject primary plan error =>
    rw [hdecision] at hrun
    cases hrun
    exact .silent nofun rfl (keptRecords_dropped _ rfl)
  | apply primary plan =>
    rw [hdecision] at hrun
    exact applyAttempt_attempted (errors_of_apply hdecision) hrun

/-- **Run lemma**: what is kept is what the comparator keeps of the packets. -/
theorem attempts_attempted {left : Nat}
    (hrun : r.attempts left index s w = (.ok (ending, s'), w')) :
    ∃ packets, (∀ p ∈ packets, r.Verified p) ∧
      keptRecords s'.attempts = keptRecords s.attempts ++
        remembered (keptPackets r.lower s.beforeErrors packets) := by
  have hnone : ∀ s : LoopState, keptRecords s.attempts = keptRecords s.attempts ++
      remembered (keptPackets r.lower s.beforeErrors []) := fun _ => (List.append_nil _).symm
  induction left generalizing index s w with
  | zero =>
    cases hrun
    exact ⟨[], nofun, hnone s'⟩
  | succ left ih =>
    obtain ⟨⟨ending₁, s₁⟩, w₁, hfirst, hrun⟩ := Prog.bind_ok.mp hrun
    dsimp only at hrun
    cases attempt_attempted hfirst with
    -- a silent attempt hands on no packet, a rejected one a packet that the comparator skips
    | silent hends hsame hkept =>
      split at hrun
      next =>
        obtain ⟨packets, hpackets, hrest⟩ := ih hrun
        rw [hsame, hkept] at hrest
        exact ⟨packets, hpackets, hrest⟩
      next =>
        cases hrun
        exact ⟨[], nofun, by rw [hkept]; exact hnone s⟩
    | rejected p hp hno hsame hkept =>
      rw [if_pos rfl] at hrun
      obtain ⟨packets, hpackets, hrest⟩ := ih hrun
      rw [hsame, hkept] at hrest
      refine ⟨p :: packets, List.forall_mem_cons.mpr ⟨hp, hpackets⟩, ?_⟩
      rw [keptPackets_skip hno]
      exact hrest
    | kept p hp hbefore hyes hsolved hkept =>
      rcases hsolved with ⟨rfl, hsolved⟩ | ⟨rfl, hsolved, herrors⟩
      · rw [if_neg (by decide)] at hrun
        cases hrun
        refine ⟨[p], List.forall_mem_singleton.mpr hp, ?_⟩
        rw [keptPackets_keep hbefore hyes, if_pos hsolved]
        exact hkept
      · rw [if_pos rfl] at hrun
        obtain ⟨packets, hpackets, hrest⟩ := ih hrun
        refine ⟨p :: packets, List.forall_mem_cons.mpr ⟨hp, hpackets⟩, ?_⟩
        rw [keptPackets_keep hbefore hyes, if_neg hsolved, hrest, hkept, herrors,
          List.append_assoc]
        rfl

end Loop

/-- **A repair run progresses.** What it keeps is what the comparator keeps of the packets of its
verifications, and along the error lists that are current the count never grows, a measure falls,
and no multiset of signatures comes back. -/
theorem run_progresses (r : RepairLoop) (hlower : Lengthens r.lower)
    (hcodes : ∀ n d, ∀ e ∈ (r.verify n d).errors, PlainCode e) {w w' : World}
    {result : RepairResult} (hrun : r.run w = (.ok result, w')) :
    ∃ packets, (∀ p ∈ packets, r.Verified p) ∧
      keptRecords result.attempts =
        remembered (keptPackets r.lower (r.verify 0 w.disk).errors packets) ∧
      Progresses (currents (r.verify 0 w.disk).errors
        (keptPackets r.lower (r.verify 0 w.disk).errors packets)) := by
  have hkept : ∃ packets, (∀ p ∈ packets, r.Verified p) ∧
      keptRecords result.attempts =
        remembered (keptPackets r.lower (r.verify 0 w.disk).errors packets) := by
    unfold RepairLoop.run at hrun
    rw [Prog.bind_of_ok (Prog.gets_apply _ w)] at hrun
    split at hrun
    · cases hrun
      exact ⟨[], nofun, rfl⟩
    · obtain ⟨⟨ending, s⟩, w₁, hattempts, hrun⟩ := Prog.bind_ok.mp hrun
      obtain ⟨packets, hpackets, hrecords⟩ := attempts_attempted hattempts
      refine ⟨packets, hpackets, ?_⟩
      cases ending with
      | continues =>
        cases hrun
        exact hrecords
      | solved =>
        cases hrun
        exact hrecords
      | stops reason =>
        cases hrun
        exact hrecords
  obtain ⟨packets, hpackets, hrecords⟩ := hkept
  refine ⟨packets, hpackets, hrecords, kept_progresses hlower (hcodes 0 w.disk) ?_⟩
  intro p hp
  obtain ⟨n, d, rfl⟩ := hpackets p hp
  exact hcodes n d

/-- The patch that solves it is kept. -/
theorem run_progresses_fix : ∃ result w', fixLoop.run fixWorld = (.ok result, w') ∧
    keptRecords result.attempts ≠ [] ∧
    ∃ packets, (∀ p ∈ packets, fixLoop.Verified p) ∧
      keptRecords result.attempts =
        remembered (keptPackets fixLoop.lower (fixLoop.verify 0 fixWorld.disk).errors packets) ∧
      Progresses (currents (fixLoop.verify 0 fixWorld.disk).errors
        (keptPackets fixLoop.lower (fixLoop.verify 0 fixWorld.disk).errors packets)) := by
  have hok : ∃ result, (fixLoop.run fixWorld).1 = .ok result ∧
      keptRecords result.attempts ≠ [] := ⟨_, rfl, by decide⟩
  obtain ⟨result, hresult, hkept⟩ := hok
  have hrun : fixLoop.run fixWorld = (.ok result, (fixLoop.run fixWorld).2) :=
    Prod.ext hresult rfl
  have hlower : Lengthens fixLoop.lower := by
    intro s t ht
    show s.length < (s ++ t).length
    rw [List.length_append]
    have := List.length_pos_iff.mpr ht
    omega
  refine ⟨result, _, hrun, hkept, run_progresses fixLoop hlower ?_ hrun⟩
  intro n d e he hsymbol
  have hnone : e.symbol = [] := by
    change e ∈ ErrorPacket.errors (if _ then _ else _) at he
    split at he
    · cases he
    · rw [List.mem_singleton.mp he]
  exact absurd hnone hsymbol

end Shamsu.Repair
