import Shamsu.Lib.Regex
import Shamsu.Py.Strip

/-!
# Which commands run without being asked for

`shamsu/safety/commands.py`, `command_needs_approval` and `make_approval_func` of
`shamsu/agents/simple_chat.py`, and the gate of `shamsu/tools/executor.py`. Both classifiers look
at how a command begins. What is run is the whole command, by a shell: `unasked_single_iff`.
-/

namespace Shamsu.Safety

open Shamsu.Lib Shamsu.Py

/-- What the patterns take from the Unicode tables. -/
structure Tables where
  isAlnum : Char → Bool
  lower : Text → Text

/-! ## Patterns -/

abbrev Pattern := Regex Char

namespace Pattern

/-- What `re.IGNORECASE` makes of a letter: four others are taken for ASCII ones. -/
def fold (c : Char) : Char :=
  if c = 'İ' ∨ c = 'ı' then 'i' else if c = 'ſ' then 's' else if c = '\u212A' then 'k'
  else c.toLower

def char (x : Char) : Pattern := .set fun c => fold c == fold x

def sequence (parts : List Pattern) : Pattern := parts.foldr .seq .nothing

def oneOf (parts : List Pattern) : Pattern := parts.foldr .alt .empty

def lit (s : String) : Pattern := sequence (s.toList.map char)

def anyOf (words : List String) : Pattern := oneOf (words.map lit)

def maybe (r : Pattern) : Pattern := .alt r .nothing

def some (p : Char → Bool) : Pattern := .seq (.set p) (.star (.set p))

/-- `\s+`, `\s*` and `\S+`. -/
def gap : Pattern := some isSpace

def spaces : Pattern := .star (.set isSpace)

def solid : Pattern := some fun c => !isSpace c

/-- `.*`. -/
def anything : Pattern := .star (.set fun c => c != '\n')

/-- `\b`. -/
def boundary (t : Tables) : Pattern :=
  let isWord : Option Char → Bool := fun c => c.any fun c => t.isAlnum c || c == '_'
  .look fun before after => isWord before != isWord after

end Pattern

open Pattern

/-! ## The first classifier -/

inductive CommandRisk where
  | safe | medium | blocked
  deriving DecidableEq, Repr

/-- `SAFE_COMMANDS`. -/
def safeCommands : List Text :=
  ["pytest", "python -m pytest", "python manage.py test", "npm test", "npm run build",
    "npm run dev", "git status", "git diff", "git log --oneline", "make test"].map String.toList

/-- `BLOCKED_PATTERNS`. -/
def blockedPatterns (t : Tables) : List Pattern :=
  [sequence [lit "rm", gap, lit "-rf", gap, oneOf [lit "/", lit "~"]],
    lit "sudo",
    sequence [boundary t, lit "su", .set isSpace],
    sequence [lit "chmod", gap, lit "-R", gap, lit "777"],
    sequence [lit "dd", gap, lit "if="],
    lit "mkfs",
    lit "shutdown",
    lit "reboot",
    sequence [lit "kill", gap, lit "-9", gap, lit "-1"],
    sequence [lit ":()\x7b", anything, lit "\x7d"],
    sequence [lit "curl", anything, lit "|", spaces, lit "bash"],
    sequence [lit "wget", anything, lit "|", spaces, lit "sh"],
    sequence [lit ">", spaces, lit "/dev/sd"]]

/-- `re.sub` of a pattern that holds at the beginning only. The longest match is the one that is
taken: the patterns below have no shorter one that comes first. -/
def withoutStart (r : Pattern) (new s : Text) : Text :=
  match r.longest none s with
  | .some n => new ++ s.drop n
  | none => s

/-- `(?:poetry|uv)\s+run\s+`. -/
def runner : Pattern := sequence [anyOf ["poetry", "uv"], gap, lit "run", gap]

/-- A program of a virtual environment, in quotes or without. -/
def venvProgram (name : String) : Pattern :=
  let slash := oneOf [lit "\\", lit "/"]
  let program := sequence [lit ".venv", slash, anyOf ["Scripts", "bin"], slash, lit name,
    maybe (lit ".exe")]
  oneOf
    [sequence [lit "\"", .star (.set fun c => c != '"'), program, lit "\""],
      sequence [.star (.set fun c => !isSpace c && c != '"' && c != '\''), program]]

/-- `_classification_view`. -/
def classificationView (t : Tables) (command : Text) : Text :=
  let normalized := withoutStart runner [] (strip command)
  let normalized := withoutStart (venvProgram "python") "python".toList normalized
  t.lower (withoutStart (venvProgram "pip") "pip".toList normalized)

/-- `classify_command`. The commands that are listed as medium are as risky as unknown ones. -/
def classifyCommand (t : Tables) (command : Text) : CommandRisk :=
  if (blockedPatterns t).any fun r => r.search command then .blocked
  else if safeCommands.any fun safe => safe.isPrefixOf (classificationView t command) then .safe
  else .medium

/-! ## The second classifier -/

/-- `_READ_ONLY_GIT`. -/
def readOnlyGit (t : Tables) : Pattern :=
  sequence
    [lit "git", gap, maybe (sequence [lit "-C", gap, solid, gap]),
      oneOf
        [anyOf ["status", "diff", "log", "show", "rev-parse", "ls-files", "describe", "shortlog",
            "blame"],
          sequence [lit "branch", gap, anyOf ["--show-current", "--list"]],
          sequence [lit "remote", gap, lit "-v"]],
      boundary t]

/-- `_READ_ONLY_COMMANDS`. -/
def readOnlyCommands (t : Tables) : Pattern :=
  sequence
    [oneOf
        [anyOf ["ls", "dir", "pwd", "cat", "type", "head", "tail", "wc", "find", "which", "where",
            "echo"],
          sequence [lit "node", gap, lit "--version"],
          sequence [lit "python", gap, lit "--version"],
          sequence [lit "npm", gap, anyOf ["ls", "list", "--version"]],
          sequence [lit "pip", gap, anyOf ["list", "show"]]],
      boundary t]

/-- `command_needs_approval`. -/
def commandNeedsApproval (t : Tables) (command : Text) : Bool :=
  let text := strip command
  if text = [] then true
  else if ((readOnlyGit t).longest none text).isSome ∨
      ((readOnlyCommands t).longest none text).isSome then false
  else classifyCommand t text ≠ .safe

/-! ## The gate -/

/-- A request for approval, with its command where it carries one. -/
structure CommandRequest where
  action : Text
  command : Text
  deriving DecidableEq, Repr

/-- An answer, and whether it was asked for. -/
structure Answer where
  approved : Bool
  asked : Bool
  deriving DecidableEq, Repr

/-- `approve` of `make_approval_func`, with no override set. -/
def approve (t : Tables) (console : CommandRequest → Bool) (request : CommandRequest) : Answer :=
  let isOne (names : List String) := names.any fun name => name.toList == request.action
  if isOne ["file_write", "file_edit", "file_read"] then ⟨true, false⟩
  else if (isOne ["run_command"] ∨ request.command ≠ []) ∧
      commandNeedsApproval t request.command = false then ⟨true, false⟩
  else ⟨console request, true⟩

inductive GateOutcome where
  | blocked
  | denied
  | runs (asked : Bool)
  deriving DecidableEq, Repr

/-- What becomes of a command. `named` says whether the request that is made for it carries the
command: that of `executor.py` does not, and is asked for. -/
def gate (t : Tables) (named : Bool) (console : CommandRequest → Bool) (command : Text) :
    GateOutcome :=
  match classifyCommand t command with
  | .blocked => .blocked
  | .safe => .runs false
  | .medium =>
    let request : CommandRequest :=
      { action := "run_command".toList, command := if named then command else [] }
    let answer := approve t console request
    if answer.approved then .runs answer.asked else .denied

/-! ## What a shell makes of it -/

/-- Where a shell is in a command line. -/
inductive Place where
  | blank
  | word
  | comment
  | single
  | double
  | escaped (quoted : Bool)
  | duplicated
  deriving DecidableEq, Repr

/-- How far the commands of the line are. -/
inductive Progress where
  | before | inside | ended
  deriving DecidableEq, Repr

/-- A command substitution begins. -/
def substitutes (c : Char) (rest : Text) : Bool :=
  c == '`' || (c == '$' && rest.head? == .some '(' && rest[1]? != .some '(')

/-- A redirection to another descriptor. -/
def duplicates (c : Char) (rest : Text) : Bool :=
  (c == '<' || c == '>') && rest.head? == .some '&' &&
    rest[1]?.any fun d => d.isDigit || d == '-'

/-- A line has an operator, in no quotes, by which a second command is run or a file is written:
`;`, `&`, `&&`, `|`, `||`, a line break, a redirection, a substitution. -/
def runsMoreFrom : Progress → Place → Text → Bool
  | _, _, [] => false
  | progress, .comment, c :: rest =>
    if c = '\n' then runsMoreFrom (if progress = .before then .before else .ended) .blank rest
    else runsMoreFrom progress .comment rest
  | progress, .single, c :: rest => runsMoreFrom progress (if c = '\'' then .word else .single) rest
  | progress, .double, c :: rest =>
    if c = '"' then runsMoreFrom progress .word rest
    else if c = '\\' then runsMoreFrom progress (.escaped true) rest
    else substitutes c rest || runsMoreFrom progress .double rest
  | progress, .escaped quoted, _ :: rest =>
    runsMoreFrom progress (if quoted then .double else .word) rest
  | progress, .duplicated, _ :: rest => runsMoreFrom progress .word rest
  | progress, place, c :: rest =>
    if c = ' ' ∨ c = '\t' then runsMoreFrom progress .blank rest
    else if c = '#' ∧ place = .blank then runsMoreFrom progress .comment rest
    else if c = '\n' ∨ c = ';' ∨ c = '&' ∨ c = '|' then
      runsMoreFrom (if progress = .before then .before else .ended) .blank rest
    else
      progress = .ended || substitutes c rest || (c == '<' && rest.head? == .some '(') ||
        (c == '>' && !duplicates c rest) ||
        runsMoreFrom .inside
          (if duplicates c rest then .duplicated
          else if c = '\'' then .single
          else if c = '"' then .double
          else if c = '\\' then .escaped false
          else .word) rest

def runsMore (command : Text) : Bool := runsMoreFrom .before .blank command

/-- **A command that runs without being asked for is a single one.** -/
def UnaskedSingle (t : Tables) (command : Text) : Prop :=
  ∀ named console, gate t named console command = .runs false → runsMore command = false

/-! ## How a command begins -/

/-- The pattern is met somewhere in the text. -/
def Occurs (r : Pattern) (s : Text) : Prop :=
  ∃ s₁ s₂ s₃, s = s₁ ++ s₂ ++ s₃ ∧ r.Matches s₁.getLast? s₂ s₃.head?

/-- The text begins with the pattern. -/
def Begins (r : Pattern) (s : Text) : Prop :=
  ∃ s₁ s₂, s = s₁ ++ s₂ ∧ r.Matches none s₁ s₂.head?

/-- A command begins with a form that one of the classifiers lets pass. -/
def BeginsAllowed (t : Tables) (command : Text) : Prop :=
  (∃ safe ∈ safeCommands, safe <+: classificationView t command) ∨
    Begins (readOnlyGit t) (strip command) ∨ Begins (readOnlyCommands t) (strip command)

section Gate

variable {t : Tables} {command : Text}

theorem classify_blocked :
    classifyCommand t command = .blocked ↔ ∃ r ∈ blockedPatterns t, Occurs r command := by
  have hany : ((blockedPatterns t).any fun r => r.search command) = true ↔
      ∃ r ∈ blockedPatterns t, Occurs r command := by
    rw [List.any_eq_true]
    exact exists_congr fun r => and_congr_right fun _ => Regex.search_iff
  unfold classifyCommand
  rw [← hany]
  constructor
  · intro h
    by_contra hno
    rw [if_neg hno] at h
    split at h <;> cases h
  · exact fun h => if_pos h

theorem safe_of_classify (h : classifyCommand t command = .safe) :
    ∃ safe ∈ safeCommands, safe <+: classificationView t command := by
  unfold classifyCommand at h
  split at h
  · cases h
  · split at h
    case isTrue hsafe =>
      obtain ⟨safe, hmem, hpre⟩ := List.any_eq_true.mp hsafe
      exact ⟨safe, hmem, List.isPrefixOf_iff_prefix.mp hpre⟩
    case isFalse => cases h

theorem classify_safe (hblocked : classifyCommand t command ≠ .blocked) {safe : Text}
    (hmem : safe ∈ safeCommands) (hpre : safe <+: classificationView t command) :
    classifyCommand t command = .safe := by
  unfold classifyCommand at hblocked ⊢
  split at hblocked
  · exact absurd rfl hblocked
  case isFalse hno =>
    rw [if_neg hno]
    refine if_pos ?_
    rw [List.any_eq_true]
    exact ⟨safe, hmem, List.isPrefixOf_iff_prefix.mpr hpre⟩

theorem view_strip (t : Tables) (command : Text) :
    classificationView t (strip command) = classificationView t command := by
  unfold classificationView
  rw [strip_strip]

/-- The second classifier says no, for a command that begins with a form that passes. -/
theorem beginsAllowed_of_needs (h : commandNeedsApproval t command = false) :
    BeginsAllowed t command := by
  unfold commandNeedsApproval at h
  dsimp only at h
  split at h
  · cases h
  · split at h
    case isTrue hread =>
      exact .inr (hread.imp Regex.longest_isSome.mp Regex.longest_isSome.mp)
    case isFalse =>
      have hsafe : classifyCommand t (strip command) = .safe := by simpa using h
      obtain ⟨safe, hmem, hpre⟩ := safe_of_classify hsafe
      exact .inl ⟨safe, hmem, view_strip t command ▸ hpre⟩

theorem needs_of_read
    (h : Begins (readOnlyGit t) (strip command) ∨ Begins (readOnlyCommands t) (strip command)) :
    commandNeedsApproval t command = false := by
  have hread : ((readOnlyGit t).longest none (strip command)).isSome = true ∨
      ((readOnlyCommands t).longest none (strip command)).isSome = true :=
    h.imp Regex.longest_isSome.mpr Regex.longest_isSome.mpr
  have hne : strip command ≠ [] := by
    intro hnil
    rw [hnil] at hread
    rcases hread with h | h
    · cases h
    · cases h
  unfold commandNeedsApproval
  dsimp only
  rw [if_neg hne, if_pos hread]

theorem approve_run (console : CommandRequest → Bool) (command : Text) :
    approve t console ⟨"run_command".toList, command⟩ =
      if commandNeedsApproval t command = false then ⟨true, false⟩
      else ⟨console ⟨"run_command".toList, command⟩, true⟩ := by
  have hfile : (["file_write", "file_edit", "file_read"].any fun name =>
      name.toList == "run_command".toList) = false := by decide
  have hrun : (["run_command"].any fun name => name.toList == "run_command".toList) = true := by
    decide
  simp only [approve, hfile, hrun, Bool.false_eq_true, if_false, true_or, true_and]

/-- **Which commands run without being asked for**: those that match no blocked pattern and begin
with a form that passes. The rest of the command is not looked at. -/
theorem unasked_iff :
    (∃ named console, gate t named console command = .runs false) ↔
      (¬ ∃ r ∈ blockedPatterns t, Occurs r command) ∧ BeginsAllowed t command := by
  rw [← classify_blocked]
  constructor
  · intro hsome
    obtain ⟨named, console, h⟩ := hsome
    unfold gate at h
    cases hrisk : classifyCommand t command with
    | blocked => rw [hrisk] at h; cases h
    | safe => exact ⟨nofun, .inl (safe_of_classify hrisk)⟩
    | medium =>
      refine ⟨nofun, beginsAllowed_of_needs ?_⟩
      rw [hrisk] at h
      dsimp only at h
      rw [approve_run] at h
      by_contra hneeds
      -- a request without a command is asked for
      have hasks : ¬ commandNeedsApproval t (if named = true then command else []) = false := by
        cases named with
        | false => exact nofun
        | true => exact hneeds
      rw [if_neg hasks] at h
      generalize console _ = approved at h
      cases approved with
      | false => cases h
      | true => cases h
  · intro hsome
    obtain ⟨hopen, hbegins⟩ := hsome
    by_cases hsafe : classifyCommand t command = .safe
    · refine ⟨true, fun _ => false, ?_⟩
      unfold gate
      rw [hsafe]
    · have hmedium : classifyCommand t command = .medium := by
        cases hrisk : classifyCommand t command with
        | blocked => exact absurd hrisk hopen
        | safe => exact absurd hrisk hsafe
        | medium => rfl
      have hread := hbegins.resolve_left fun ⟨safe, hmem, hpre⟩ =>
        hsafe (classify_safe hopen hmem hpre)
      refine ⟨true, fun _ => false, ?_⟩
      unfold gate
      rw [hmedium]
      dsimp only
      rw [if_pos rfl, approve_run, if_pos (needs_of_read hread)]
      rfl

end Gate

/-- **A command that runs without being asked for is a single one**, exactly when it has no operator
that runs more, or matches a blocked pattern, or does not begin with a form that passes. -/
theorem unasked_single_iff (t : Tables) (command : Text) :
    UnaskedSingle t command ↔
      runsMore command = false ∨ (∃ r ∈ blockedPatterns t, Occurs r command) ∨
        ¬ BeginsAllowed t command := by
  have hunasked : UnaskedSingle t command ↔
      ((∃ named console, gate t named console command = .runs false) → runsMore command = false) :=
    ⟨fun h ⟨named, console, hrun⟩ => h named console hrun,
      fun h named console hrun => h ⟨named, console, hrun⟩⟩
  rw [hunasked, unasked_iff]
  constructor
  · intro h
    by_cases hblocked : ∃ r ∈ blockedPatterns t, Occurs r command
    · exact .inr (.inl hblocked)
    · by_cases hbegins : BeginsAllowed t command
      · exact .inl (h ⟨hblocked, hbegins⟩)
      · exact .inr (.inr hbegins)
  · intro hcase hsome
    obtain ⟨hopen, hallowed⟩ := hsome
    rcases hcase with hsingle | hblocked | hbegins
    · exact hsingle
    · exact absurd hblocked hopen
    · exact absurd hallowed hbegins

/-- Tables for ASCII texts. -/
def Tables.ascii : Tables := { isAlnum := Char.isAlphanum, lower := List.map Char.toLower }

/-- A command behind a safe one runs too. -/
theorem second_command_unasked : ¬ ∀ t command, UnaskedSingle t command := by
  intro h
  have hsingle := h .ascii "git status; rm notes.txt".toList false (fun _ => false) (by decide)
  exact absurd hsingle (by decide)

end Shamsu.Safety
