import Shamsu.Chat.PutBack
import Shamsu.Lib.Run

/-!
# The user's constraints in a chat turn

`SimpleChatLoop._run_turn` sets what the request asks for on the tool registry,
and the calls of the turn come one after the other, with shell commands in
between. A call that goes to the registry keeps the constraints
(`turn_constrained`); taking an edit back changes nothing that the edit has not
changed (`judged_only`). `append_file` and `replace_symbol` write for
themselves.
-/

namespace Shamsu.Chat

open Shamsu.Lib Shamsu.Py Shamsu.Safety Shamsu.Patch Shamsu.Tools

/-- What is read off the user's request. -/
structure Request where
  /-- `read_only.applies`. -/
  readOnly : Bool
  /-- `read_only.is_scoped`. -/
  isScoped : Bool
  /-- `requested_paths`. -/
  requested : List Text
  /-- There is a recorder of the dry run. -/
  dryRun : Bool

/-- `set_allowed_write_paths`. -/
def Request.scope (casing : Casing) (q : Request) : List Text :=
  ((q.requested.filter (· ≠ [])).map fun p => casing.lower (normalizeWorkspacePath p)).dedup

/-- What the loop remembers, as the calls before have left it. -/
structure Memory where
  readAliases : List (Text × Text)
  refuseRewrite : FS → Text → Option String
  /-- `_refuse_blind_delete`. -/
  refuseBlindDelete : FS → Text → Option String

/-- Nothing is remembered. -/
def Memory.blank : Memory where
  readAliases := []
  refuseRewrite := fun _ _ => none
  refuseBlindDelete := fun _ _ => none

/-- A call that may change files. -/
inductive FileCall where
  | edit (call : EditCall)
  /-- The file of `create_and_run`; the command it runs is an action of its own. -/
  | createAndRun (filepath content : Text)
  | moveFile (source destination : Text)
  | deleteFile (filepath : Text)

/-- A call that goes to the registry. -/
def FileCall.registered : FileCall → Bool
  | .edit (.appendFile ..) | .edit (.replaceSymbol ..) => false
  | _ => true

/-- What happens in a turn: a call, or a command that leaves any world behind. -/
inductive Action where
  | call (memory : Memory) (stamp : Stamp) (call : FileCall)
  | command (w : World)

/-- An action that is a command or goes to the registry. -/
def Action.registered : Action → Bool
  | .command _ => true
  | .call _ _ c => c.registered

namespace Loop

variable (c : Loop)

/-- The constraints that `_run_turn` sets. -/
def constrain (q : Request) : Loop :=
  { c with registry := { c.registry with
    readOnly := c.registry.readOnly || q.readOnly
    dryRun := c.registry.dryRun || q.dryRun
    allowedWritePaths := if q.isScoped = true ∧ q.requested ≠ [] then
      some (q.scope c.registry.casing) else c.registry.allowedWritePaths } }

/-- The loop with its memory. -/
def remembering (m : Memory) : Loop :=
  { c with
    registry := { c.registry with readAliases := m.readAliases }
    refuseRewrite := m.refuseRewrite }

/-- An exception of a tool is an answer. -/
def answered (tool : Prog Exn World Reply) : Prog Exn World Reply :=
  Prog.handle tool fun e => pure { ok := false, message := s!"{e.kind.className}: {e.message}" }

/-- `_execute`, for the calls that may change files. -/
def file (m : Memory) (stamp : Stamp) : FileCall → Prog Exn World Reply
  | .edit call => (c.remembering m).execute stamp call
  | .createAndRun filepath content => (c.remembering m).execute stamp (.writeFile filepath content)
  | .moveFile source destination =>
    answered ((c.remembering m).registry.moveFile stamp source destination)
  | .deleteFile filepath => do
    let refusal ← Prog.gets fun w => m.refuseBlindDelete w.disk (strip filepath)
    match refusal with
    | some why => pure { ok := false, message := why, filepath := strip filepath }
    | none => answered ((c.remembering m).registry.deleteFile stamp filepath)

def act (w : World) : Action → World
  | .call m stamp call => (c.file m stamp call w).2
  | .command w' => w'

/-! ## One call -/

variable {c} {S : Path → Prop} {w : World}

theorem answered_disk (tool : Prog Exn World Reply) (w : World) :
    (answered tool w).2 = (tool w).2 := by
  unfold answered
  rw [Prog.handle_apply]
  cases tool w with
  | mk res w₁ => cases res <;> rfl

/-- Nothing is erased from a text that is as it was. -/
theorem symbolsErased_self (text suffix : Text) : c.symbolsErased text text suffix = [] := by
  simp [symbolsErased]

/-- **Taking an edit back** touches only the file the edit has changed. -/
theorem erasedADefinition_only {filepath : Text} {d : FS} {w : World} {before : Text}
    (hbefore : before = (textAt d (locate c.root (strip filepath))).getD [])
    (h : Only S d w.disk) : Only S d (c.erasedADefinition filepath before w).2.disk := by
  unfold erasedADefinition
  cases hv : validate c.root (strip filepath) with
  | error e => exact h
  | ok target =>
    obtain ⟨_, _, rfl⟩ := validate_ok.mp hv
    dsimp only
    cases hafter : textAt w.disk (locate c.root (strip filepath)) with
    | none => exact h
    | some after =>
      dsimp only
      split
      · exact h
      next erased herased =>
        -- something is missing, so the file is not as it was
        have hS : S (locate c.root (strip filepath)) := by
          apply h
          intro hsame
          have htext : textAt w.disk (locate c.root (strip filepath))
              = textAt d (locate c.root (strip filepath)) := by
            unfold textAt
            rw [hsame]
          rw [← htext, hafter] at hbefore
          subst hbefore
          exact herased (symbolsErased_self _ _)
        refine IsTrans.trans _ _ _ h ?_
        refine Prog.Keeps.handle (R := fun w w' : World => Only S w.disk w'.disk)
          (fun _ _ _ => IsTrans.trans _ _ _)
          (DiskKeeps.bind (DiskKeeps.disk (writeText_only hS)) fun _ => DiskKeeps.pure _)
          (fun e => ?_) w
        split
        · exact DiskKeeps.pure _
        · exact DiskKeeps.raise e

/-- A tool that is judged changes no more than it would alone. -/
theorem judged_only {filepath : Text} {tool : Prog Exn World Reply}
    (h : Only S w.disk (tool w).2.disk) : Only S w.disk (c.judged filepath tool w).2.disk := by
  have hcatch : Only S w.disk (answered tool w).2.disk := answered_disk tool w ▸ h
  cases hrun : c.judged filepath tool w with
  | mk res w₂ =>
    unfold judged at hrun
    rcases Prog.read_bind hrun with ⟨e, _, _, rfl⟩ | ⟨before, hbefore, hrun⟩
    · exact Std.Refl.refl w.disk
    rcases Prog.bind_cases hrun with ⟨e, htool, _⟩ | ⟨reply, w₁, htool, hrun⟩
    · have htool : answered tool w = (.error e, w₂) := htool
      rw [htool] at hcatch
      exact hcatch
    have htool : answered tool w = (.ok reply, w₁) := htool
    rw [htool] at hcatch
    split at hrun
    next hok =>
      have hne : strip filepath ≠ [] := by simpa using (Bool.and_eq_true_iff.mp hok).2
      rw [if_neg hne] at hbefore
      split at hbefore
      · cases hbefore
      have herased := erasedADefinition_only (Except.ok.inj hbefore).symm hcatch
      rcases Prog.bind_cases hrun with ⟨e, he, _⟩ | ⟨refusal, w₃, he, hrun⟩
      · rw [he] at herased
        exact herased
      · rw [he] at herased
        cases refusal <;> cases hrun <;> exact herased
    next => cases hrun; exact hcatch

/-- A call that goes to the registry does there what one of the write tools does. -/
theorem file_only {m : Memory} {stamp : Stamp} {call : FileCall} (hcall : call.registered = true)
    (h : ∀ wc, Only S w.disk ((c.remembering m).registry.call stamp wc w).2.disk) :
    Only S w.disk (c.file m stamp call w).2.disk := by
  have hwrite : ∀ filepath content,
      Only S w.disk ((c.remembering m).execute stamp (.writeFile filepath content) w).2.disk := by
    intro filepath content
    rw [execute, Prog.bind_apply]
    cases hr : (c.remembering m).refuseRewrite w.disk (strip filepath) with
    | some why =>
      simp only [Prog.gets, hr]
      exact Std.Refl.refl w.disk
    | none =>
      simp only [Prog.gets, hr]
      exact judged_only (h (.writeFile filepath content true))
  cases call with
  | edit call =>
    cases call with
    | patchFile filepath old new replaceAll => exact judged_only (h (.editFile filepath _ _ _))
    | readAndPatch filepath old new => exact judged_only (h (.editFile filepath _ _ _))
    | writeFile filepath content => exact hwrite filepath content
    | appendFile => cases hcall
    | replaceSymbol => cases hcall
  | createAndRun filepath content => exact hwrite filepath content
  | moveFile source destination =>
    rw [file, answered_disk]
    exact h (.moveFile source destination)
  | deleteFile filepath =>
    rw [file, Prog.bind_apply]
    cases hr : m.refuseBlindDelete w.disk (strip filepath) with
    | some why =>
      simp only [Prog.gets, hr]
      exact Std.Refl.refl w.disk
    | none =>
      simp only [Prog.gets, hr]
      rw [answered_disk]
      exact h (.deleteFile filepath)

/-! ## The turn -/

variable (c)

/-- What the constraints of `q` ask of an action: with a read-only request or a
dry run a call changes no file, and with a scope only what lies in it. -/
def Respects (q : Request) (w : World) : Action → Prop
  | .command _ => True
  | .call m stamp call =>
    let w' := (c.constrain q).act w (.call m stamp call)
    let r := ((c.constrain q).remembering m).registry
    (q.readOnly = true ∨ q.dryRun = true → ∀ p, w'.disk.content p = w.disk.content p) ∧
    (q.isScoped = true → q.requested ≠ [] → ∀ p, w'.disk.content p ≠ w.disk.content p →
      r.MayChange stamp.id (r.Locked w.disk (q.scope c.registry.casing)) p)

variable {c}

theorem respects_registered {q : Request} (hroot : ∀ n ∈ c.root, IsName n) {m : Memory}
    {stamp : Stamp} {call : FileCall} (hcall : call.registered = true) :
    c.Respects q w (.call m stamp call) := by
  constructor
  · intro hstop p
    by_contra hne
    have hnone : Only (fun _ => False) w.disk
        ((c.constrain q).file m stamp call w).2.disk := by
      refine file_only hcall fun wc => ?_
      rw [Registry.call_unchanged]
      · exact Std.Refl.refl w.disk
      · rcases hstop with h | h
        · exact Or.inl (by simp [remembering, constrain, h])
        · exact Or.inr (Or.inl (by simp [remembering, constrain, h]))
    exact hnone p hne
  · intro hs hne
    have hnames : ∀ n ∈ ((c.constrain q).remembering m).registry.root, IsName n := hroot
    have ha : ((c.constrain q).remembering m).registry.allowedWritePaths
        = some (q.scope c.registry.casing) := by
      simp only [remembering, constrain]
      rw [if_pos ⟨hs, hne⟩]
    exact file_only hcall fun wc => Registry.call_only hnames ha stamp wc w

/-- **The constraints hold** of every call that goes to the registry, whatever
else happens in the turn. -/
theorem turn_constrained (c : Loop) (hroot : ∀ n ∈ c.root, IsName n) (q : Request) (w : World)
    (actions : List Action) :
    Along (c.constrain q).act (fun w a => a.registered = true → c.Respects q w a) w actions := by
  apply along_of_forall
  intro w a ha
  cases a with
  | command => trivial
  | call m stamp call => exact respects_registered hroot ha

/-- A turn of two calls on a scope of one file. -/
theorem turn_constrained_two :
    Along (agreeable.constrain ⟨false, true, ["a.txt".toList], false⟩).act
      (fun w a => a.registered = true →
        agreeable.Respects ⟨false, true, ["a.txt".toList], false⟩ w a)
      (World.ofFiles [("a.txt", "a")])
      [.call .blank ⟨['t'], ['1']⟩ (.createAndRun "a.txt".toList "b".toList),
        .call .blank ⟨['u'], ['2']⟩ (.deleteFile "a.txt".toList)] :=
  turn_constrained agreeable (by decide) _ _ _

/-- A file may be changed that only its name lets into the scope; and
`append_file` writes although the request is read-only. -/
theorem turn_not_constrained :
    (¬ ∀ p, ((agreeable.constrain ⟨false, true, ["notes.md".toList], false⟩).act
        (World.ofFiles [("src/notes.md", "a")])
        (.call .blank ⟨['t'], ['1']⟩
          (.createAndRun "src/notes.md".toList "b".toList))).disk.content p
            ≠ (World.ofFiles [("src/notes.md", "a")]).disk.content p →
      IsUserPath agreeable.root p →
        Inside Casing.ascii agreeable.root ["notes.md".toList] p) ∧
    ¬ ∀ p, IsUserPath agreeable.root p →
      ((agreeable.constrain ⟨true, false, [], false⟩).act (World.ofFiles [("a.txt", "a")])
        (.call .blank ⟨['t'], ['1']⟩
          (.edit (.appendFile "a.txt".toList "b".toList)))).disk.content p
            = (World.ofFiles [("a.txt", "a")]).disk.content p := by
  constructor
  · intro h
    have hin := h ["ws".toList, "src".toList, "notes.md".toList] (by decide) (by decide)
    revert hin
    decide
  · intro h
    have hsame := h ["ws".toList, "a.txt".toList] (by decide)
    revert hsame
    decide

end Loop

end Shamsu.Chat
