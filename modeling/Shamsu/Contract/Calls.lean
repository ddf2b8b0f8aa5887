import Shamsu.Ledger.Names
import Shamsu.Lib.Run
import Shamsu.Tools.Resolve

/-!
# The Definition of Done of a workspace

`shamsu/agents/simple_contract.py` and the contract calls of `shamsu/agents/simple_chat.py`. One
contract is active; one that is a phase of the plan is also in a file of its own, under its slug.

`contract_from_spec` and `contract_from_plan` do not replace an open contract that has no file of
its own. `contract_create` does, and nothing of it is left: `open_contracts_kept_iff`.
-/

namespace Shamsu.Contracts

open Shamsu.Lib Shamsu.Py
open Shamsu.Ledger (padded)
open Shamsu.Tools (Casing)

inductive State where
  | pending | passed | failed | skipped
  deriving DecidableEq, Repr

/-- `RESOLVED`. -/
def State.resolved : State → Bool
  | .pending => false
  | _ => true

/-- How a passed assertion is backed. -/
inductive Backing where
  | byRun | byWrite | byNothing
  deriving DecidableEq, Repr

/-- One checkable promise. -/
structure Assertion where
  id : Text
  text : Text
  state : State := .pending
  evidence : Text := []
  verifiedBy : Backing := .byNothing
  observation : Text := []
  deriving DecidableEq, Repr

/-- What a task means by "done". The time it was created at is a number of its own. -/
structure Contract where
  title : Text
  brief : Text
  assertions : List Assertion
  created : Nat
  source : Text := []
  slug : Text := []
  requiresRun : Bool := false
  deriving DecidableEq, Repr

/-- One phase of a plan document. -/
structure PlanPhase where
  index : Nat
  heading : Text
  steps : List Text
  deriving DecidableEq, Repr

/-- The contract files of a workspace, and how many contracts it had. -/
structure Workspace where
  active : Option Contract
  phases : Text → Option Contract
  made : Nat

/-- What the code reads beside the files: the switch, `str.lower`, and
`claims_runtime_behaviour`. -/
structure Harness where
  disabled : Bool
  casing : Casing
  claimsRuntime : Text → Bool

/-- The runs and the writes that a loop has seen. -/
structure Observed where
  runs : List Text
  writes : List Text
  deriving DecidableEq, Repr

/-! ## The contract -/

namespace Contract

/-- `" ".join(text.split())`. -/
def squeezed (text : Text) : Text := join ' ' (words text)

def untitled : Text := "Untitled".toList

/-- `new_contract`: the assertions are numbered before the blank ones are left out. -/
def new (created : Nat) (title brief : Text) (assertions : List Text) : Contract :=
  { title := squeezed (if title = [] then untitled else title)
    brief := strip brief
    assertions := (assertions.zipIdx 1).filterMap fun (text, index) =>
      if isBlank text then none else some { id := 'a' :: padded 2 index, text := squeezed text }
    created }

def blockers (c : Contract) : List Assertion := c.assertions.filter fun a => !a.state.resolved

def done (c : Contract) : Bool := !c.assertions.isEmpty && c.blockers.isEmpty

/-- `from_dict` of what `to_dict` wrote. -/
def reread (c : Contract) : Contract :=
  { c with title := if c.title = [] then untitled else c.title }

/-- The first assertion of which `p` holds. -/
def first (c : Contract) (p : Assertion → Bool) : Option (Fin c.assertions.length) :=
  (List.finRange c.assertions.length).find? fun k => p c.assertions[k]

/-- `find`: by the id, or by its digits. -/
def find (c : Contract) (casing : Casing) (wanted : Text) : Option (Fin c.assertions.length) :=
  let bare (t : Text) : Text := (t.dropWhile (· == 'a')).dropWhile (· == '0')
  let wanted := casing.lower (strip wanted)
  if wanted = [] then none
  else
    let digits := if bare wanted = [] then ['0'] else bare wanted
    (c.first fun a => casing.lower a.id == wanted).or (c.first fun a => bare a.id == digits)

/-- The id in front of the text of an assertion. -/
def leading (wanted : Text) : Text :=
  let marks := fun ch => ".:)-,".toList.contains ch
  (((words wanted).headD []).dropWhile marks).rdropWhile marks

/-- The assertion a call means. -/
def item (c : Contract) (casing : Casing) (wanted : Text) : Option (Fin c.assertions.length) :=
  let byLeading :=
    if leading wanted ≠ [] ∧ leading wanted ≠ wanted then c.find casing (leading wanted) else none
  let sole :=
    if wanted = [] ∧ c.blockers.length = 1 then c.first fun a => !a.state.resolved else none
  let byText :=
    if wanted = [] then none
    else
      let lowered := casing.lower wanted
      match (List.finRange c.assertions.length).filter fun k =>
        let text := casing.lower c.assertions[k].text
        (Py.find lowered text).isSome || (Py.find text lowered).isSome with
      | [k] => some k
      | _ => none
  (((c.find casing wanted).or byLeading).or sole).or byText

/-- The contract with what is recorded of one assertion. -/
def record (c : Contract) (k : Fin c.assertions.length) (a : Assertion) : Contract :=
  { c with assertions := c.assertions.set k a }

end Contract

namespace PlanPhase

def slug (p : PlanPhase) : Text := "phase-".toList ++ padded 2 p.index

/-- `str.removeprefix`. -/
def withoutStart (start t : Text) : Text := if start <+: t then t.drop start.length else t

/-- `matches`: by the number, or by a part of the title. -/
def isNamed (p : PlanPhase) (casing : Casing) (wanted : Text) : Bool :=
  let probe := casing.lower (Contract.squeezed wanted)
  let marks := fun ch => " :.#".toList.contains ch
  let bare := ((withoutStart "step".toList (withoutStart "phase".toList probe)).dropWhile
    marks).rdropWhile marks
  probe ≠ [] &&
    ((bare ≠ [] && bare.all isDigit && digitsValue bare == p.index) ||
      (Py.find probe (casing.lower p.heading)).isSome)

/-- `contract_from_phase`. -/
def contract (p : PlanPhase) (created : Nat) : Contract :=
  { Contract.new created p.heading
      ("Phase ".toList ++ (toString p.index).toList ++ " of PLAN.md, verbatim.".toList)
      (if p.steps = [] then [p.heading] else p.steps) with
    source := "PLAN.md / ".toList ++ p.heading
    slug := p.slug
    requiresRun := true }

end PlanPhase

/-! ## The files -/

namespace Workspace

variable (w : Workspace)

/-- What is read of a contract's file. -/
def readBack (file : Option Contract) : Option Contract :=
  file.bind fun c => if c.assertions = [] then none else some c.reread

def loadContract : Option Contract := readBack w.active

def loadPhaseContract (slug : Text) : Option Contract :=
  if slug = [] then none else readBack (w.phases slug)

/-- `save_contract`. -/
def saveContract (c : Contract) : Workspace :=
  { w with
    active := some c
    phases := if c.slug = [] then w.phases else Function.update w.phases c.slug (some c) }

/-- A contract that was not there before is saved. -/
def start (c : Contract) : Workspace := { w.saveContract c with made := w.made + 1 }

end Workspace

/-! ## The calls -/

/-- What `contract_create` gets as its assertions. -/
inductive Assertions where
  | text (raw : Text)
  | list (items : List Text)
  deriving DecidableEq, Repr

/-- `re.split` at line breaks, at semicolons, and at commas after a full stop or a bracket. -/
def splitFrom : Nat → Option Char → Text → Text → List Text
  | _, _, acc, [] => [acc.reverse]
  | skip + 1, _, acc, c :: rest => splitFrom skip (some c) acc rest
  | 0, before, acc, c :: rest =>
    let spaces := ((c :: rest).takeWhile isSpace).length
    if c = '\n' ∨ c = ';' then acc.reverse :: splitFrom 0 (some c) [] rest
    else if (before = some '.' ∨ before = some ')') ∧ (c :: rest)[spaces]? = some ',' then
      acc.reverse :: splitFrom spaces (some c) [] rest
    else splitFrom 0 (some c) (c :: acc) rest

/-- The items of `contract_create` that are not blank. -/
def Assertions.items (raw : Assertions) : List Text :=
  let items := match raw with
    | .text t => splitFrom 0 none [] t
    | .list items => items
  items.filter fun t => !isBlank t

inductive Verdict where
  | pass | fail | skip
  deriving DecidableEq, Repr

/-- A contract call. With it come the requirements that its document has, or the reason there are
none to be had, and the phases of the plan. -/
inductive Call where
  | create (title brief : Text) (assertions : Assertions)
  | fromSpec (filepath title stem : Text) (spec : Except Text (List Text))
  | fromPlan (wanted : Text) (plan : List PlanPhase)
  | status
  | assert (verdict : Verdict) (wanted detail : Text)

/-- What a call answers. -/
inductive Reply where
  | disabled
  | needsAssertion
  | started
  | needsFilepath
  | unreadable (error : Text)
  | noRequirements
  | blocked
  | noPlan
  | whichPhase
  | notOnePhase (matched : Nat)
  | resumed (slug : Text)
  | noContract
  | status (done : Bool)
  | noSuchAssertion (wanted : Text)
  | needsEvidence (id : Text)
  | noObservation (id : Text)
  | planPhaseNeedsARun (id : Text)
  | writeCannotProveRuntime (id : Text)
  | needsReason (id : Text)
  | recorded (k : Nat) (state : State)
  deriving DecidableEq, Repr

/-- `_contract_from_spec`. -/
def contractFromSpec (w : Workspace) (filepath title stem : Text)
    (spec : Except Text (List Text)) : Workspace × Reply :=
  if strip filepath = [] then (w, .needsFilepath)
  else
    match spec with
    | .error e => (w, .unreadable e)
    | .ok [] => (w, .noRequirements)
    | .ok found =>
      if (w.loadContract.all fun existing => existing.done) = true then
        let title := if strip title = [] then stem else strip title
        (w.start (Contract.new w.made title ("From ".toList ++ strip filepath) found), .started)
      else (w, .blocked)

/-- `_contract_from_plan`. -/
def contractFromPlan (h : Harness) (w : Workspace) (wanted : Text) (plan : List PlanPhase) :
    Workspace × Reply :=
  if plan = [] then (w, .noPlan)
  else if strip wanted = [] then (w, .whichPhase)
  else
    match plan.filter fun p => p.isNamed h.casing (strip wanted) with
    | [phase] =>
      if (w.loadContract.all fun current => current.slug == phase.slug || current.done) = true then
        match w.loadPhaseContract phase.slug with
        | some existing => (w.saveContract existing, .resumed phase.slug)
        | none => (w.start (phase.contract w.made), .started)
      else (w, .blocked)
    | matched => (w, .notOnePhase matched.length)

/-- What a verdict records of an assertion of the contract: the end of `_contract_tool`. -/
def judge (h : Harness) (seen : Observed) (c : Contract) (a : Assertion) (detail : Text) :
    Verdict → Except Reply Assertion
  | .pass =>
    if detail = [] then .error (.needsEvidence a.id)
    else
      match seen.runs.getLast?, seen.writes.getLast? with
      | some run, _ =>
        .ok { a with state := .passed, evidence := detail, verifiedBy := .byRun, observation := run }
      | none, some path =>
        if c.requiresRun then .error (.planPhaseNeedsARun a.id)
        else if h.claimsRuntime a.text then .error (.writeCannotProveRuntime a.id)
        else
          .ok { a with
            state := .passed, evidence := detail, verifiedBy := .byWrite
            observation := "wrote ".toList ++ path ++ " (not run)".toList }
      | none, none => .error (.noObservation a.id)
  | .fail =>
    .ok { a with
      state := .failed, evidence := if detail = [] then "no detail given".toList else detail }
  | .skip =>
    if detail = [] then .error (.needsReason a.id)
    else .ok { a with state := .skipped, evidence := detail }

/-- `_contract_tool`. -/
def contractTool (h : Harness) (seen : Observed) (w : Workspace) (call : Call) :
    Workspace × Reply :=
  if h.disabled then (w, .disabled)
  else
    match call with
    | .create title brief assertions =>
      if assertions.items = [] then (w, .needsAssertion)
      else (w.start (Contract.new w.made title brief assertions.items), .started)
    | .fromSpec filepath title stem spec => contractFromSpec w filepath title stem spec
    | .fromPlan wanted plan => contractFromPlan h w wanted plan
    | .status =>
      match w.loadContract with
      | none => (w, .noContract)
      | some c => (w, .status c.done)
    | .assert verdict wanted detail =>
      match w.loadContract with
      | none => (w, .noContract)
      | some c =>
        match c.item h.casing (strip wanted) with
        | none => (w, .noSuchAssertion (strip wanted))
        | some k =>
          match judge h seen c c.assertions[k] (strip detail) verdict with
          | .error reply => (w, reply)
          | .ok a => (w.saveContract (c.record k a), .recorded k a.state)

/-! ## What a call can do -/

/-- The answer to a call that records something of a contract. -/
def Reply.records : Reply → Bool
  | .started | .recorded .. => true
  | _ => false

section Facts

variable {h : Harness} {seen : Observed} {w : Workspace} {call : Call}

theorem blockers_of_done {c : Contract} (h : c.done = true) : c.blockers = [] := by
  simp only [Contract.done, Bool.and_eq_true, List.isEmpty_iff] at h
  exact h.2

/-- What a call that starts a contract has looked at: a phase that is started was not there, and
what is replaced is finished or has a file of its own, unless the call is `contract_create`. -/
structure Starts (w : Workspace) (call : Call) (c : Contract) : Prop where
  created : c.created = w.made
  phase : c.slug ≠ [] → w.loadPhaseContract c.slug = none
  replaced : (∀ title brief assertions, call ≠ .create title brief assertions) →
    ∀ d, w.loadContract = some d → d.blockers = [] ∨ d.slug ≠ []

/-- What a contract call can do to the files. -/
inductive Does (h : Harness) (seen : Observed) (w : Workspace) (call : Call) :
    Workspace × Reply → Prop where
  | nothing (reply : Reply) (silent : reply.records = false) : Does h seen w call (w, reply)
  | starts (c : Contract) (starts : Starts w call c) : Does h seen w call (w.start c, .started)
  | resumes (slug : Text) (c : Contract) (found : w.loadPhaseContract slug = some c)
      (replaced : ∀ d, w.loadContract = some d → d.slug = slug ∨ d.blockers = []) :
      Does h seen w call (w.saveContract c, .resumed slug)
  | records (verdict : Verdict) (wanted detail : Text) (c : Contract)
      (k : Fin c.assertions.length) (a : Assertion) (asked : call = .assert verdict wanted detail)
      (enabled : h.disabled = false) (loaded : w.loadContract = some c)
      (found : c.item h.casing (strip wanted) = some k)
      (judged : judge h seen c c.assertions[k] (strip detail) verdict = .ok a) :
      Does h seen w call (w.saveContract (c.record k a), .recorded k a.state)

theorem slug_ne_nil (p : PlanPhase) : p.slug ≠ [] := List.cons_ne_nil _ _

theorem contractFromSpec_does (filepath title stem : Text) (spec : Except Text (List Text)) :
    Does h seen w (.fromSpec filepath title stem spec)
      (contractFromSpec w filepath title stem spec) := by
  unfold contractFromSpec
  split
  · exact .nothing _ rfl
  · split
    · exact .nothing _ rfl
    · exact .nothing _ rfl
    · split
      case isTrue hdone =>
        refine .starts _ ⟨rfl, fun hslug => absurd rfl hslug, fun _ d hd => ?_⟩
        rw [hd] at hdone
        exact .inl (blockers_of_done hdone)
      case isFalse => exact .nothing _ rfl

theorem contractFromPlan_does (wanted : Text) (plan : List PlanPhase) :
    Does h seen w (.fromPlan wanted plan) (contractFromPlan h w wanted plan) := by
  unfold contractFromPlan
  split
  · exact .nothing _ rfl
  · split
    · exact .nothing _ rfl
    · split
      case h_1 phase _ =>
        split
        case isTrue hopen =>
          have hreplaced : ∀ d, w.loadContract = some d → d.slug = phase.slug ∨ d.blockers = [] := by
            intro d hd
            rw [hd] at hopen
            simp only [Option.all_some, Bool.or_eq_true, beq_iff_eq] at hopen
            exact hopen.imp_right blockers_of_done
          split
          case h_1 existing hfound => exact .resumes phase.slug existing hfound hreplaced
          case h_2 hnone =>
            refine .starts _ ⟨rfl, fun _ => hnone, fun _ d hd => ?_⟩
            rcases hreplaced d hd with hslug | hdone
            · exact .inr (hslug ▸ slug_ne_nil phase)
            · exact .inl hdone
        case isFalse => exact .nothing _ rfl
      case h_2 => exact .nothing _ rfl

theorem judge_error {c : Contract} {a : Assertion} {detail : Text} {verdict : Verdict}
    {reply : Reply} (hj : judge h seen c a detail verdict = .error reply) :
    reply.records = false := by
  cases verdict with
  | pass =>
    simp only [judge] at hj
    split at hj
    · cases hj; rfl
    · split at hj
      · cases hj
      · split at hj
        · cases hj; rfl
        · split at hj <;> cases hj
          rfl
      · cases hj; rfl
  | fail => cases hj
  | skip =>
    simp only [judge] at hj
    split at hj <;> cases hj
    rfl

theorem contractTool_does (h : Harness) (seen : Observed) (w : Workspace) (call : Call) :
    Does h seen w call (contractTool h seen w call) := by
  unfold contractTool
  split
  · exact .nothing _ rfl
  rename_i hon
  cases call with
  | create title brief assertions =>
    dsimp only
    split
    · exact .nothing _ rfl
    · exact .starts _ ⟨rfl, fun hslug => absurd rfl hslug, fun hcall => absurd rfl (hcall _ _ _)⟩
  | fromSpec filepath title stem spec => exact contractFromSpec_does filepath title stem spec
  | fromPlan wanted plan => exact contractFromPlan_does wanted plan
  | status =>
    dsimp only
    split
    · exact .nothing _ rfl
    · exact .nothing _ rfl
  | assert verdict wanted detail =>
    dsimp only
    split
    · exact .nothing _ rfl
    case h_2 c hload =>
      split
      · exact .nothing _ rfl
      case h_2 k hfound =>
        split
        case h_1 reply hj => exact .nothing _ (judge_error hj)
        case h_2 a hj =>
          exact .records verdict wanted detail c k a rfl (Bool.eq_false_iff.mpr hon) hload hfound hj

end Facts

/-! ## What a pass is backed by

`_run_tools` of `shamsu/agents/simple_chat.py` remembers the runs and the writes of a loop in two
lists. A pass that needs a run takes the last one of the list, also when something has been
written since: `passes_honest_iff`.
-/

/-- `RUNNING_TOOLS`. -/
def runningTools : List Text := ["run_command", "run_tests", "create_and_run"].map String.toList

/-- `WRITING_TOOLS`. -/
def writingTools : List Text :=
  ["write_file", "patch_file", "append_file", "read_and_patch", "create_and_run",
    "replace_symbol"].map String.toList

/-- A tool call of the loop: one about the contract, or another one, with the summary of its
arguments, its `filepath` and whether it succeeded. -/
inductive ToolCall where
  | contract (call : Call)
  | other (name summary filepath : Text) (ok : Bool)

/-- A chat loop. `sinceWrite` is what ran last, if nothing has been written after it. -/
structure Loop where
  workspace : Workspace
  observed : Observed := ⟨[], []⟩
  sinceWrite : Option Text := none

/-- What is remembered of a run. -/
def observation (name summary : Text) : Text :=
  name ++ "(".toList ++ (if summary = [] then name else summary).take 80 ++ ") exited 0".toList

namespace Loop

/-- What `_run_tools` remembers of a call that succeeded. -/
def observe (l : Loop) (name summary filepath : Text) : Observed :=
  { runs :=
      if runningTools.contains name then l.observed.runs ++ [observation name summary]
      else l.observed.runs
    writes :=
      if writingTools.contains name ∧ strip filepath ≠ [] then
        l.observed.writes ++ [strip filepath]
      else l.observed.writes }

/-- One tool call. `create_and_run` writes before it runs. -/
def step (h : Harness) (l : Loop) : ToolCall → Loop
  | .contract call => { l with workspace := (contractTool h l.observed l.workspace call).1 }
  | .other name summary filepath true =>
    { l with
      observed := l.observe name summary filepath
      sinceWrite :=
        if runningTools.contains name then some (observation name summary)
        else if writingTools.contains name then none
        else l.sinceWrite }
  | .other _ _ _ false => l

end Loop

/-- The assertion needs a run. -/
def NeedsRun (h : Harness) (c : Contract) (a : Assertion) : Prop :=
  c.requiresRun = true ∨ h.claimsRuntime a.text = true

/-- **A pass that is recorded of an assertion that needs a run is backed by the last run**, and
nothing has been written since. -/
def HonestPass (h : Harness) (l : Loop) : ToolCall → Prop
  | .contract call =>
    ∀ k c a, (contractTool h l.observed l.workspace call).2 = .recorded k .passed →
      (contractTool h l.observed l.workspace call).1.active = some c → c.assertions[k]? = some a →
      NeedsRun h c a →
      ∃ run, l.sinceWrite = some run ∧ a.verifiedBy = .byRun ∧ a.observation = run
  | .other .. => True

/-- A call that passes an assertion that needs a run, with evidence, in a loop that has seen a
run, finds nothing written since the last one. -/
def FreshRun (h : Harness) (l : Loop) : ToolCall → Prop
  | .contract (.assert .pass wanted detail) =>
    h.disabled = false → strip detail ≠ [] →
      ∀ c k, l.workspace.loadContract = some c → c.item h.casing (strip wanted) = some k →
        NeedsRun h c c.assertions[k] → l.observed.runs ≠ [] → l.sinceWrite ≠ none
  | _ => True

section Steps

variable {h : Harness} {l : Loop}

/-- What ran since the last write is the last run of the list. -/
def LastRun (l : Loop) : Prop := ∀ run, l.sinceWrite = some run → l.observed.runs.getLast? = some run

theorem LastRun.step (hl : LastRun l) (call : ToolCall) : LastRun (l.step h call) := by
  cases call with
  | contract call => exact hl
  | other name summary filepath ok =>
    cases ok with
    | false => exact hl
    | true =>
      intro run hrun
      dsimp only [Loop.step, Loop.observe] at hrun ⊢
      by_cases hname : runningTools.contains name = true
      · rw [if_pos hname] at hrun ⊢
        rw [List.getLast?_concat]
        exact hrun
      · rw [if_neg hname] at hrun ⊢
        split at hrun
        · cases hrun
        · exact hl run hrun

/-- What a pass records of an assertion that needs a run. -/
theorem judge_pass {seen : Observed} {c : Contract} {a b : Assertion} {detail : Text}
    (hneeds : NeedsRun h c a) :
    judge h seen c a detail .pass = .ok b ↔
      detail ≠ [] ∧ ∃ run, seen.runs.getLast? = some run ∧
        b = { a with
          state := .passed, evidence := detail, verifiedBy := .byRun, observation := run } := by
  simp only [judge]
  by_cases hdetail : detail = []
  · rw [if_pos hdetail]
    exact ⟨fun hb => (by cases hb), fun hb => absurd hdetail hb.1⟩
  · rw [if_neg hdetail]
    cases hrun : seen.runs.getLast? with
    | some run =>
      constructor
      · intro hb
        exact ⟨hdetail, run, rfl, (Except.ok.inj hb).symm⟩
      · intro hsome
        obtain ⟨_, _, hlast, rfl⟩ := hsome
        cases hlast
        rfl
    | none =>
      -- a write does not do for it
      refine ⟨fun hb => ?_, fun hsome => ?_⟩
      swap
      · obtain ⟨_, _, hlast, _⟩ := hsome
        cases hlast
      cases hwrite : seen.writes.getLast? with
      | none => rw [hwrite] at hb; cases hb
      | some path =>
        rw [hwrite] at hb
        dsimp only at hb
        split at hb
        · cases hb
        case isFalse hrequires =>
          rw [if_pos (hneeds.resolve_left hrequires)] at hb
          cases hb

theorem contractTool_pass {seen : Observed} {w : Workspace} {wanted detail : Text} {c : Contract}
    {k : Fin c.assertions.length} {a : Assertion} (hon : h.disabled = false)
    (hload : w.loadContract = some c) (hfound : c.item h.casing (strip wanted) = some k)
    (hjudge : judge h seen c c.assertions[k] (strip detail) .pass = .ok a) :
    contractTool h seen w (.assert .pass wanted detail) =
      (w.saveContract (c.record k a), .recorded k a.state) := by
  unfold contractTool
  rw [hon, if_neg Bool.false_ne_true]
  dsimp only
  rw [hload]
  dsimp only
  rw [hfound]
  dsimp only
  rw [hjudge]

/-- Only a pass leaves an assertion passed, and its text stays. -/
theorem judge_passed {seen : Observed} {c : Contract} {a b : Assertion} {detail : Text}
    {verdict : Verdict} (hj : judge h seen c a detail verdict = .ok b) (hb : b.state = .passed) :
    verdict = .pass ∧ b.text = a.text := by
  cases verdict with
  | pass =>
    refine ⟨rfl, ?_⟩
    simp only [judge] at hj
    split at hj
    · cases hj
    · split at hj
      · cases hj; rfl
      · split at hj
        · cases hj
        · split at hj <;> cases hj
          rfl
      · cases hj
  | fail => cases hj; cases hb
  | skip =>
    simp only [judge] at hj
    split at hj <;> cases hj
    cases hb

/-- One call: a pass is honest, exactly when nothing has been written since the last run. -/
theorem honest_iff_fresh (hl : LastRun l) (call : ToolCall) :
    HonestPass h l call ↔ FreshRun h l call := by
  cases call with
  | other => exact Iff.rfl
  | contract call =>
    constructor
    · intro hpass
      cases call with
      | assert verdict wanted detail =>
        cases verdict with
        | pass =>
          intro hon hdetail c k hload hfound hneeds hruns
          obtain ⟨run, hrun⟩ := Option.ne_none_iff_exists'.mp (mt List.getLast?_eq_none_iff.mp hruns)
          -- with no fresh run the last one, however old, is what the call would cite
          have hjudge := (@judge_pass h l.observed c _ _ (strip detail) hneeds).mpr
            ⟨hdetail, run, hrun, rfl⟩
          have htool := contractTool_pass hon hload hfound hjudge
          dsimp only [HonestPass] at hpass
          rw [htool] at hpass
          obtain ⟨_, hsince, _⟩ := hpass k _ _ rfl rfl
            (List.getElem?_set_self k.isLt) hneeds
          exact Option.ne_none_iff_exists'.mpr ⟨_, hsince⟩
        | fail => trivial
        | skip => trivial
      | create => trivial
      | fromSpec => trivial
      | fromPlan => trivial
      | status => trivial
    · intro hfresh k c a hreply hactive ha hneeds
      have hdoes := contractTool_does h l.observed l.workspace call
      generalize contractTool h l.observed l.workspace call = r at hdoes hreply hactive
      cases hdoes with
      | nothing reply hsilent =>
        rw [show reply = _ from hreply] at hsilent
        cases hsilent
      | starts => cases hreply
      | resumes => cases hreply
      | records verdict wanted detail c' k' a' hcall hon hload hfound hjudged =>
        have hpassed : a'.state = .passed := congrArg (fun | .recorded _ s => s | _ => .failed) hreply
        have hk : k'.val = k := congrArg (fun | .recorded n _ => n | _ => k) hreply
        subst hk hcall
        cases hactive
        obtain ⟨rfl, htext⟩ := judge_passed hjudged hpassed
        rw [show (c'.record k' a').assertions[k'.val]? = some a' from
          List.getElem?_set_self k'.isLt] at ha
        cases ha
        have hneeds : NeedsRun h c' c'.assertions[k'] := hneeds.imp_right fun hclaims => htext ▸ hclaims
        obtain ⟨hdetail, run, hlast, rfl⟩ := (judge_pass hneeds).mp hjudged
        have hruns : l.observed.runs ≠ [] := fun hnil => by rw [hnil] at hlast; cases hlast
        obtain ⟨since, hsince⟩ := Option.ne_none_iff_exists'.mp
          (hfresh hon hdetail c' k' hload hfound hneeds hruns)
        have hsame := (hl since hsince).symm.trans hlast
        exact ⟨since, hsince, rfl, (Option.some.inj hsame).symm⟩

end Steps

/-- **A recorded pass is backed by a run after the last write**, exactly when each one is called
for while there is such a run: in every order of the tool calls of a loop, on any contract. -/
theorem passes_honest_iff (h : Harness) (w : Workspace) (calls : List ToolCall) :
    Along (Loop.step h) (HonestPass h) { workspace := w } calls ↔
      Along (Loop.step h) (FreshRun h) { workspace := w } calls := by
  have hstart : LastRun { workspace := w } := fun run hrun => nomatch hrun
  constructor
  · exact along_of_invariant (I := LastRun) (fun l call hl _ => hl.step call)
      (fun l call hl hpass => (honest_iff_fresh hl call).mp hpass) hstart
  · exact along_of_invariant (I := LastRun) (fun l call hl _ => hl.step call)
      (fun l call hl hfresh => (honest_iff_fresh hl call).mpr hfresh) hstart

/-- A phase of a plan, with one assertion. -/
def gamePhase : Workspace :=
  { active := some
      { title := "Phase 1".toList, brief := [], created := 0, slug := "phase-01".toList
        requiresRun := true
        assertions := [{ id := "a01".toList, text := "The loop runs".toList }] }
    phases := fun _ => none
    made := 1 }

/-- What ran before the file was written again passes the assertion. -/
theorem pass_after_write : ¬ ∀ (h : Harness) (w : Workspace) (calls : List ToolCall),
    Along (Loop.step h) (HonestPass h) { workspace := w } calls := by
  intro hall
  obtain ⟨_, _, hpass, _⟩ := hall ⟨false, Casing.ascii, fun _ => true⟩ gamePhase
    [.other "run_tests".toList [] [] true,
      .other "write_file".toList "game.js".toList "game.js".toList true,
      .contract (.assert .pass "a01".toList "all green".toList)]
  have hhonest := hpass 0
    { title := "Phase 1".toList, brief := [], created := 0, slug := "phase-01".toList
      requiresRun := true
      assertions := [{ id := "a01".toList, text := "The loop runs".toList, state := .passed
                       evidence := "all green".toList, verifiedBy := .byRun
                       observation := "run_tests(run_tests) exited 0".toList }] }
    _ (by decide) (by decide) rfl (.inl rfl)
  obtain ⟨run, hrun, _⟩ := hhonest
  cases (show (none : Option Text) = some run from hrun)

end Shamsu.Contracts
