import Shamsu.Contract.Calls

/-!
# Open contracts are kept

What has been recorded of a contract, by creating it or by a verdict, is remembered beside the
files (`Tracked`). An open contract is lost when it is neither the active one nor in the file of
its slug as it was recorded.
-/

namespace Shamsu.Contracts

open Shamsu.Lib Shamsu.Py
open Shamsu.Tools (Casing)

/-- A workspace with what has been recorded of its contracts, the latest first. -/
structure Tracked where
  workspace : Workspace
  recorded : List Contract

namespace Tracked

/-- What a call leaves, and what it has recorded. -/
def after (t : Tracked) (r : Workspace × Reply) : Tracked :=
  { workspace := r.1
    recorded := if r.2.records then r.1.active.toList ++ t.recorded else t.recorded }

/-- A contract call, of a loop that has seen some runs and writes. -/
def step (h : Harness) (t : Tracked) (call : Observed × Call) : Tracked :=
  t.after (contractTool h call.1 t.workspace call.2)

/-- A workspace without contracts. -/
def fresh : Tracked :=
  { workspace := { active := none, phases := fun _ => none, made := 0 }, recorded := [] }

/-- The contract as it was last recorded. -/
def latest (t : Tracked) (created : Nat) : Option Contract :=
  t.recorded.find? fun c => c.created == created

end Tracked

/-- The same contract, with the same texts, states and evidence. -/
structure Same (a b : Contract) : Prop where
  created : a.created = b.created
  slug : a.slug = b.slug
  assertions : a.assertions = b.assertions

/-- **No open contract is lost.** -/
def NothingLost (t : Tracked) : Prop :=
  ∀ n c, t.latest n = some c → c.blockers ≠ [] →
    (∃ d, t.workspace.loadContract = some d ∧ Same d c) ∨
      ∃ d, t.workspace.loadPhaseContract c.slug = some d ∧ Same d c

/-- `contract_create` finds no open contract that has no file of its own. -/
def CreatesGuarded (h : Harness) (t : Tracked) : Observed × Call → Prop
  | (_, .create _ _ assertions) =>
    h.disabled = false → assertions.items ≠ [] →
      ∀ c, t.workspace.loadContract = some c → c.blockers = [] ∨ c.slug ≠ []
  | _ => True

section Facts

variable {h : Harness} {seen : Observed} {w : Workspace} {call : Call}

theorem Same.refl (c : Contract) : Same c c := ⟨rfl, rfl, rfl⟩

theorem Same.symm {a b : Contract} (h : Same a b) : Same b a :=
  ⟨h.created.symm, h.slug.symm, h.assertions.symm⟩

theorem Same.trans {a b c : Contract} (h : Same a b) (h' : Same b c) : Same a c :=
  ⟨h.created.trans h'.created, h.slug.trans h'.slug, h.assertions.trans h'.assertions⟩

theorem Same.reread (c : Contract) : Same c.reread c := ⟨rfl, rfl, rfl⟩

theorem Same.blockers {a b : Contract} (h : Same a b) : a.blockers = b.blockers := by
  unfold Contract.blockers
  rw [h.assertions]

theorem assertions_ne_nil {c : Contract} (h : c.blockers ≠ []) : c.assertions ≠ [] := by
  intro hnil
  exact h (by rw [Contract.blockers, hnil]; rfl)

theorem readBack_of {file : Option Contract} {c : Contract} (hfile : file = some c)
    (h : c.assertions ≠ []) : Workspace.readBack file = some c.reread := by
  subst hfile
  exact if_neg h

theorem of_readBack {file : Option Contract} {d : Contract}
    (h : Workspace.readBack file = some d) :
    ∃ c, file = some c ∧ c.assertions ≠ [] ∧ d = c.reread := by
  cases hf : file with
  | none => rw [hf] at h; cases h
  | some c =>
    rw [hf] at h
    by_cases hc : c.assertions = []
    · rw [Workspace.readBack, Option.bind_some, if_pos hc] at h
      cases h
    · rw [Workspace.readBack, Option.bind_some, if_neg hc] at h
      exact ⟨c, rfl, hc, (Option.some.inj h).symm⟩

/-- Saving a contract writes the file of its slug and no other. -/
theorem phases_saveContract (w : Workspace) (c : Contract) (slug : Text) :
    (w.saveContract c).phases slug =
      if c.slug ≠ [] ∧ slug = c.slug then some c else w.phases slug := by
  show (if c.slug = [] then w.phases else Function.update w.phases c.slug (some c)) slug = _
  by_cases hc : c.slug = []
  · rw [if_pos hc, if_neg fun h => h.1 hc]
  · rw [if_neg hc]
    by_cases hs : slug = c.slug
    · rw [if_pos ⟨hc, hs⟩, hs, Function.update_self]
    · rw [if_neg fun h => hs h.2, Function.update_of_ne hs]

theorem loadPhaseContract_save (w : Workspace) (c : Contract) (slug : Text) :
    (w.saveContract c).loadPhaseContract slug =
      if c.slug ≠ [] ∧ slug = c.slug then Workspace.readBack (some c)
      else w.loadPhaseContract slug := by
  unfold Workspace.loadPhaseContract
  rw [phases_saveContract]
  by_cases hs : c.slug ≠ [] ∧ slug = c.slug
  · rw [if_pos hs, if_pos hs, if_neg fun h => hs.1 (hs.2 ▸ h)]
  · rw [if_neg hs, if_neg hs]

theorem phases_save {w : Workspace} {c d : Contract} {slug : Text}
    (hd : (w.saveContract c).phases slug = some d) :
    (c.slug ≠ [] ∧ slug = c.slug ∧ d = c) ∨
      (w.phases slug = some d ∧ (c.slug ≠ [] → slug ≠ c.slug)) := by
  rw [phases_saveContract] at hd
  split at hd
  case isTrue hs => exact .inl ⟨hs.1, hs.2, (Option.some.inj hd).symm⟩
  case isFalse hs => exact .inr ⟨hd, fun hne heq => hs ⟨hne, heq⟩⟩

end Facts

/-! ## What every order of the calls keeps -/

/-- A contract is in one of the files. -/
def OnDisk (w : Workspace) (c : Contract) : Prop := w.active = some c ∨ ∃ slug, w.phases slug = some c

/-- The files agree with each other and with what has been recorded. -/
structure Coherent (t : Tracked) : Prop where
  below : ∀ c ∈ t.recorded, c.created < t.workspace.made
  stored : ∀ c, t.workspace.active = some c → c.slug ≠ [] → t.workspace.phases c.slug = some c
  named : ∀ slug c, t.workspace.phases slug = some c → slug ≠ [] ∧ c.slug = slug
  asRecorded : ∀ c, OnDisk t.workspace c → ∃ r, t.latest c.created = some r ∧ Same r c

section Steps

variable {h : Harness} {t : Tracked}

theorem coherent_fresh : Coherent Tracked.fresh where
  below c hc := by cases hc
  stored c hc := by cases hc
  named slug c hc := by cases hc
  asRecorded c hc := by
    rcases hc with hc | ⟨slug, hc⟩
    · cases hc
    · cases hc

theorem latest_cons (w w' : Workspace) (c : Contract) (l : List Contract) (n : Nat) :
    Tracked.latest ⟨w, c :: l⟩ n =
      if c.created = n then some c else Tracked.latest ⟨w', l⟩ n := by
  unfold Tracked.latest
  rw [List.find?_cons]
  by_cases hn : c.created = n
  · rw [if_pos hn, beq_iff_eq.mpr hn]
  · rw [if_neg hn, beq_eq_false_iff_ne.mpr hn]

theorem created_of_latest {n : Nat} {c : Contract} (hc : t.latest n = some c) : c.created = n := by
  have := List.find?_some hc
  exact beq_iff_eq.mp this

theorem Coherent.latest_lt (ht : Coherent t) {n : Nat} {c : Contract} (hc : t.latest n = some c) :
    n < t.workspace.made :=
  created_of_latest hc ▸ ht.below c (List.mem_of_find?_eq_some hc)

/-- An active contract with a slug is also in the file of its slug. -/
theorem Coherent.loadPhaseContract (ht : Coherent t) {c : Contract}
    (hc : t.workspace.loadContract = some c) (hslug : c.slug ≠ []) :
    t.workspace.loadPhaseContract c.slug = some c := by
  obtain ⟨a, ha, hne, rfl⟩ := of_readBack hc
  have hstored := ht.stored a ha hslug
  rw [Workspace.loadPhaseContract, if_neg hslug]
  exact readBack_of hstored hne

/-- A contract that is read from the file of a slug has that slug. -/
theorem Coherent.slug_of_load (ht : Coherent t) {slug : Text} {c : Contract}
    (hc : t.workspace.loadPhaseContract slug = some c) : slug ≠ [] ∧ c.slug = slug := by
  unfold Workspace.loadPhaseContract at hc
  split at hc
  · cases hc
  case isFalse hslug =>
    obtain ⟨a, ha, _, rfl⟩ := of_readBack hc
    exact ⟨hslug, (ht.named slug a ha).2⟩

theorem Coherent.latest_of_load (ht : Coherent t) {c : Contract} {file : Option Contract}
    (hc : Workspace.readBack file = some c) (hfile : ∀ a, file = some a → OnDisk t.workspace a) :
    ∃ r, t.latest c.created = some r ∧ Same r c := by
  obtain ⟨a, ha, _, rfl⟩ := of_readBack hc
  obtain ⟨r, hr, hsame⟩ := ht.asRecorded a (hfile a ha)
  exact ⟨r, hr, hsame.trans (Same.reread a).symm⟩

theorem after_silent {reply : Reply} (hreply : reply.records = false) :
    t.after (t.workspace, reply) = t := by
  unfold Tracked.after
  rw [hreply]
  rfl

/-- Saving a contract that is as it was recorded last, while nothing else has been recorded of
the contracts in the other files. -/
theorem Coherent.save (ht : Coherent t) (c : Contract) (made : Nat) (recorded : List Contract)
    (hbelow : ∀ d ∈ recorded, d.created < made)
    (hc : ∃ r, Tracked.latest ⟨t.workspace, recorded⟩ c.created = some r ∧ Same r c)
    (hothers : ∀ d, OnDisk t.workspace d → d.slug ≠ [] → d.slug ≠ c.slug →
      Tracked.latest ⟨t.workspace, recorded⟩ d.created = t.latest d.created) :
    Coherent ⟨{ t.workspace.saveContract c with made }, recorded⟩ where
  below := hbelow
  stored d hd hslug := by
    cases hd
    show (t.workspace.saveContract c).phases c.slug = some c
    rw [phases_saveContract, if_pos ⟨hslug, rfl⟩]
  named slug d hd := by
    rcases phases_save hd with ⟨hne, hs, rfl⟩ | ⟨hd, _⟩
    · exact ⟨hs ▸ hne, hs.symm⟩
    · exact ht.named slug d hd
  asRecorded d hd := by
    rcases hd with hd | ⟨slug, hd⟩
    · cases hd
      exact hc
    · rcases phases_save hd with ⟨_, _, rfl⟩ | ⟨hd, hs⟩
      · exact hc
      · obtain ⟨hne, rfl⟩ := ht.named slug d hd
        obtain ⟨r, hr, hsame⟩ := ht.asRecorded d (.inr ⟨_, hd⟩)
        refine ⟨r, ?_, hsame⟩
        by_cases hcs : c.slug = []
        · exact (hothers d (.inr ⟨_, hd⟩) hne (hcs ▸ hne)).trans hr
        · exact (hothers d (.inr ⟨_, hd⟩) hne (hs hcs)).trans hr

theorem Coherent.step (ht : Coherent t) (call : Observed × Call) : Coherent (t.step h call) := by
  have hdoes := contractTool_does h call.1 t.workspace call.2
  unfold Tracked.step
  generalize contractTool h call.1 t.workspace call.2 = r at hdoes
  cases hdoes with
  | nothing reply hsilent =>
    rw [after_silent hsilent]
    exact ht
  | starts c hstarts =>
    -- the number of the contract is new
    refine ht.save c _ (c :: t.recorded) ?_ ⟨c, ?_, Same.refl c⟩ fun d hd _ _ => ?_
    · intro d hd
      rcases List.mem_cons.mp hd with rfl | hd
      · exact Nat.lt_succ_of_le hstarts.created.le
      · exact Nat.lt_succ_of_lt (ht.below d hd)
    · rw [latest_cons _ t.workspace, if_pos rfl]
    · obtain ⟨r, hr, _⟩ := ht.asRecorded d hd
      have hlt := ht.latest_lt hr
      exact (latest_cons _ t.workspace _ _ _).trans (if_neg (by rw [hstarts.created]; exact hlt.ne'))
  | resumes slug c hfound _ =>
    refine ht.save c t.workspace.made t.recorded ht.below ?_ fun d _ _ _ => rfl
    unfold Workspace.loadPhaseContract at hfound
    split at hfound
    · cases hfound
    · exact ht.latest_of_load hfound fun a ha => .inr ⟨slug, ha⟩
  | records verdict wanted detail c k a _ _ hload _ _ =>
    obtain ⟨r, hr, hsame⟩ := ht.latest_of_load hload fun a ha => .inl ha
    refine ht.save (c.record k a) t.workspace.made (c.record k a :: t.recorded) ?_
      ⟨c.record k a, ?_, Same.refl _⟩ fun d hd _ hslug => ?_
    · intro d hd
      rcases List.mem_cons.mp hd with rfl | hd
      · exact ht.latest_lt hr
      · exact ht.below d hd
    · rw [latest_cons _ t.workspace, if_pos rfl]
    · -- another contract with this number would be the same, and in the same file
      refine (latest_cons _ t.workspace _ _ _).trans (if_neg fun hnumber => ?_)
      obtain ⟨r', hr', hsame'⟩ := ht.asRecorded d hd
      have hnumber : c.created = d.created := hnumber
      rw [← hnumber, hr] at hr'
      cases hr'
      exact hslug (hsame'.slug.symm.trans hsame.slug)

/-- A contract that stays in the file of its slug is not lost. -/
theorem load_kept {w : Workspace} {c d e : Contract} (he : w.loadPhaseContract d.slug = some e)
    (hc : c.slug ≠ [] → d.slug ≠ c.slug) :
    (w.saveContract c).loadPhaseContract d.slug = some e := by
  rw [loadPhaseContract_save, if_neg fun hs => hc hs.1 hs.2]
  exact he

/-- What starts a contract, or a phase again, or records a verdict, loses no open contract. -/
theorem NothingLost.step (ht : Coherent t) (hkept : NothingLost t) {call : Observed × Call}
    (hguard : CreatesGuarded h t call) : NothingLost (t.step h call) := by
  have hdoes := contractTool_does h call.1 t.workspace call.2
  unfold Tracked.step
  cases hr : contractTool h call.1 t.workspace call.2 with
  | mk w' reply =>
  rw [hr] at hdoes
  cases hdoes with
  | nothing _ hsilent =>
    rw [after_silent hsilent]
    exact hkept
  | starts c hstarts =>
    -- only `create` can replace a contract that has no file of its own, and it is guarded
    have hreplaced : ∀ d, t.workspace.loadContract = some d → d.blockers = [] ∨ d.slug ≠ [] := by
      obtain ⟨seen, call⟩ := call
      cases call with
      | create title brief assertions =>
        dsimp only [contractTool] at hr
        split at hr
        · exact absurd (congrArg Prod.snd hr) nofun
        case isFalse hon =>
          split at hr
          · exact absurd (congrArg Prod.snd hr) nofun
          case isFalse hitems => exact hguard (Bool.eq_false_iff.mpr hon) hitems
      | fromSpec => exact hstarts.replaced nofun
      | fromPlan => exact hstarts.replaced nofun
      | status => exact hstarts.replaced nofun
      | assert => exact hstarts.replaced nofun
    have hphase : ∀ d e : Contract, t.workspace.loadPhaseContract d.slug = some e →
        (c.slug ≠ [] → d.slug ≠ c.slug) := by
      intro d e he hne heq
      rw [heq, hstarts.phase hne] at he
      cases he
    intro n d hd hopen
    rw [show (t.after (t.workspace.start c, .started)).latest n =
      if c.created = n then some c else t.latest n from latest_cons _ t.workspace _ _ _] at hd
    split at hd
    · cases hd
      exact .inl ⟨c.reread, readBack_of rfl (assertions_ne_nil hopen), Same.reread c⟩
    · refine .inr ?_
      rcases hkept n d hd hopen with ⟨e, he, hsame⟩ | ⟨e, he, hsame⟩
      · -- it was active, with a file of its own
        have hslug := (hreplaced e he).resolve_left (hsame.blockers ▸ hopen)
        have hload := hsame.slug ▸ ht.loadPhaseContract he hslug
        exact ⟨e, load_kept hload (hphase d e hload), hsame⟩
      · exact ⟨e, load_kept he (hphase d e he), hsame⟩
  | resumes slug c hfound hreplaced =>
    obtain ⟨hslug, rfl⟩ := ht.slug_of_load hfound
    have hne : c.assertions ≠ [] := by
      unfold Workspace.loadPhaseContract at hfound
      rw [if_neg hslug] at hfound
      obtain ⟨a, _, ha, hc⟩ := of_readBack hfound
      rw [hc]
      exact ha
    intro n d hd hopen
    -- an open contract that was active is the one resumed
    rcases hkept n d hd hopen with ⟨e, he, hsame⟩ | ⟨e, he, hsame⟩
    · have heslug := (hreplaced e he).resolve_right (hsame.blockers ▸ hopen)
      have hload := ht.loadPhaseContract he (heslug ▸ hslug)
      rw [heslug, hfound] at hload
      cases hload
      exact .inl ⟨c.reread, readBack_of rfl hne, (Same.reread c).trans hsame⟩
    · refine .inr ?_
      by_cases hs : d.slug = c.slug
      · rw [hs, hfound] at he
        cases he
        refine ⟨c.reread, ?_, (Same.reread c).trans hsame⟩
        exact (loadPhaseContract_save _ _ _).trans
          ((if_pos ⟨hslug, hs⟩).trans (readBack_of rfl hne))
      · exact ⟨e, load_kept he fun _ => hs, hsame⟩
  | records verdict wanted detail c k a _ _ hload _ _ =>
    intro n d hd hopen
    rw [show (t.after (t.workspace.saveContract (c.record k a), .recorded k a.state)).latest n =
      if c.created = n then some (c.record k a) else t.latest n from
        latest_cons _ t.workspace _ _ _] at hd
    split at hd
    · cases hd
      exact .inl ⟨_, readBack_of rfl (assertions_ne_nil hopen), Same.reread _⟩
    case isFalse hnumber =>
      -- the number tells it from the one recorded, so neither file of it is written
      have hother : ∀ e, Same e d → e ≠ c := by
        rintro e hsame rfl
        exact hnumber (hsame.created.trans (created_of_latest hd))
      rcases hkept n d hd hopen with ⟨e, he, hsame⟩ | ⟨e, he, hsame⟩
      · rw [hload] at he
        exact absurd (Option.some.inj he).symm (hother e hsame)
      · refine .inr ⟨e, load_kept he fun hne hs => ?_, hsame⟩
        have hsame' := ht.loadPhaseContract hload hne
        rw [hs] at he
        exact hother e hsame (Option.some.inj (he.symm.trans hsame'))

/-- A contract that is created in place of an open one without a file loses it. -/
theorem NothingLost.guarded (ht : Coherent t) {call : Observed × Call}
    (hkept : NothingLost (t.step h call)) : CreatesGuarded h t call := by
  obtain ⟨seen, call⟩ := call
  cases call with
  | create title brief assertions =>
    intro hon hitems c hload
    by_contra hlost
    rw [not_or, not_not] at hlost
    obtain ⟨hopen, hslug⟩ := hlost
    obtain ⟨r, hr, hsame⟩ := ht.latest_of_load hload fun a ha => .inl ha
    have hlt := ht.latest_lt hr
    have hstep : t.step h (seen, .create title brief assertions) =
        t.after (t.workspace.start
          (Contract.new t.workspace.made title brief assertions.items), .started) := by
      dsimp only [Tracked.step, contractTool]
      rw [hon, if_neg Bool.false_ne_true, if_neg hitems]
    rw [hstep] at hkept
    have hlatest : (t.after (t.workspace.start
        (Contract.new t.workspace.made title brief assertions.items), .started)).latest
          c.created = some r :=
      (latest_cons _ t.workspace _ _ _).trans ((if_neg hlt.ne').trans hr)
    rcases hkept _ r hlatest (hsame.blockers ▸ hopen) with ⟨e, he, hse⟩ | ⟨e, he, _⟩
    · obtain ⟨a, ha, _, rfl⟩ := of_readBack he
      cases ha
      exact absurd (hse.created.trans hsame.created) hlt.ne'
    · unfold Workspace.loadPhaseContract at he
      rw [hsame.slug, if_pos hslug] at he
      cases he
  | fromSpec => trivial
  | fromPlan => trivial
  | status => trivial
  | assert => trivial

end Steps

/-- **No open contract is lost**, exactly when `contract_create` is called while there is none
that it would lose: in every order of the calls, each from a loop that has seen anything. -/
theorem open_contracts_kept_iff (h : Harness) (calls : List (Observed × Call)) :
    Always (Tracked.step h) NothingLost Tracked.fresh calls ↔
      Along (Tracked.step h) (CreatesGuarded h) Tracked.fresh calls := by
  have hfresh : NothingLost Tracked.fresh := fun n c hc => nomatch hc
  have hiff : Along (Tracked.step h) (CreatesGuarded h) Tracked.fresh calls ↔
      Always (Tracked.step h) (fun t => Coherent t ∧ NothingLost t) Tracked.fresh calls := by
    refine along_iff_always (fun t call ht => ⟨fun hguard => ?_, fun hafter => ?_⟩)
      ⟨coherent_fresh, hfresh⟩
    · exact ⟨ht.1.step call, ht.2.step ht.1 hguard⟩
    · exact hafter.2.guarded ht.1
  rw [hiff, always_iff, always_iff]
  constructor
  · intro hkept calls₁ hp
    refine ⟨?_, hkept calls₁ hp⟩
    exact run_invariant (P := fun _ _ => True) (fun t call ht _ => ht.step call) coherent_fresh
      (along_of_forall (fun _ _ => trivial) _ _)
  · exact fun hboth calls₁ hp => (hboth calls₁ hp).2

/-- A loop that has seen nothing, in a workspace where every assertion is about what runs. -/
def plainHarness : Harness :=
  { disabled := false, casing := Casing.ascii, claimsRuntime := fun _ => true }

def firstContract : Call := .create "Menu".toList [] (.list ["The menu opens".toList])

def secondContract : Call := .create "Score".toList [] (.list ["The score counts".toList])

/-- The second `contract_create` leaves nothing of the first contract. -/
theorem contract_replaced : ¬ Always (Tracked.step plainHarness) NothingLost Tracked.fresh
    [(⟨[], []⟩, firstContract), (⟨[], []⟩, secondContract)] := by
  intro h
  obtain ⟨_, _, hkept⟩ := h
  have hlost := hkept 0
    { title := "Menu".toList, brief := [], created := 0
      assertions := [{ id := "a01".toList, text := "The menu opens".toList }] }
    (by decide) (by decide)
  rcases hlost with ⟨d, hd, hsame⟩ | ⟨d, hd, _⟩
  · obtain ⟨a, ha, _, rfl⟩ := of_readBack hd
    cases ha
    exact absurd hsame.created (by decide)
  · cases hd

end Shamsu.Contracts
