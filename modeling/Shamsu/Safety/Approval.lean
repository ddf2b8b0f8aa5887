import Shamsu.Py.Text

/-!
# Approvals

`shamsu/safety/approval_manager.py`: a change is put to the user as a request
with an action type. Only the types in `AUTO_APPROVABLE_ACTION_TYPES` may be
answered from a remembered permission; `ask_of_not_autoApprovable` is the fact
the rest relies on: every other type reaches the user, whatever is remembered.

The prompts are the user's and are parameters (`Prompts`).
-/

namespace Shamsu.Safety

open Shamsu.Py

inductive ActionType where
  | fileWrite | fileEdit | fileDelete | runCommand | webSearch | mcpTool
  deriving DecidableEq, Repr

/-- What is asked, as far as the engine decides by it; the texts shown with the
question are left out. -/
structure ApprovalRequest where
  actionType : ActionType
  targetPaths : List Text

/-- Where a remembered permission lives. -/
inductive Scope where
  | session | workspace
  deriving DecidableEq, Repr

/-- `PermissionMemory`: the remembered action types of each scope. -/
structure PermissionMemory where
  session : List ActionType
  workspace : List ActionType
  deriving Repr

namespace PermissionMemory

def isRemembered (m : PermissionMemory) (a : ActionType) : Bool :=
  m.session.contains a || m.workspace.contains a

def remember (m : PermissionMemory) (a : ActionType) : Scope → PermissionMemory
  | .session => { m with session := a :: m.session }
  | .workspace => { m with workspace := a :: m.workspace }

end PermissionMemory

/-- `is_auto_approvable_action`. -/
def isAutoApprovableAction : ActionType → Bool
  | .fileWrite | .fileEdit => true
  | _ => false

/-- What the user is asked with: a menu that also offers to remember, or a plain
question with an optional second one. `none` as a scope is "this once". -/
structure Prompts where
  menu : Option (ApprovalRequest → Bool → Bool × Option Scope)
  approval : ApprovalRequest → Bool
  rememberPrompt : Option (ActionType → Option Scope)

/-- Remember the answer when a scope was chosen. -/
def rememberIn (memory : Option PermissionMemory) (a : ActionType) (scope : Option Scope) :
    Option PermissionMemory :=
  match memory, scope with
  | some m, some s => some (m.remember a s)
  | m, _ => m

/-- `ApprovalManager.ask`: the answer, and the memory after it. -/
def ask (prompts : Prompts) (memory : Option PermissionMemory) (request : ApprovalRequest) :
    Bool × Option PermissionMemory :=
  let a := request.actionType
  let remembered := match memory with
    | some m => m.isRemembered a
    | none => false
  if isAutoApprovableAction a && remembered then (true, memory)
  else
    match prompts.menu with
    | some menu =>
      let offer := isAutoApprovableAction a && memory.isSome
      let (approved, scope) := menu request offer
      (approved, if approved && offer then rememberIn memory a scope else memory)
    | none =>
      let approved := prompts.approval request
      match prompts.rememberPrompt with
      | some rememberPrompt =>
        (approved, if approved && isAutoApprovableAction a then
          rememberIn memory a (rememberPrompt a) else memory)
      | none => (approved, memory)

/-- What the user answers when the request does reach them. -/
def userApproves (prompts : Prompts) (memory : Option PermissionMemory)
    (request : ApprovalRequest) : Bool :=
  match prompts.menu with
  | some menu => (menu request (isAutoApprovableAction request.actionType && memory.isSome)).1
  | none => prompts.approval request

/-- **A type that is not auto-approvable is never answered from memory**: the
answer is the user's. -/
theorem ask_of_not_autoApprovable {prompts : Prompts} {memory : Option PermissionMemory}
    {request : ApprovalRequest} (h : isAutoApprovableAction request.actionType = false) :
    (ask prompts memory request).1 = userApproves prompts memory request := by
  unfold ask userApproves
  simp only [h, Bool.false_and, Bool.false_eq_true, if_false, Bool.and_false]
  cases prompts.menu with
  | some menu => rfl
  | none => cases prompts.rememberPrompt <;> rfl

end Shamsu.Safety
