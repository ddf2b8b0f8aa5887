import Shamsu.Lib.Choices
import Shamsu.Py.Value

/-!
# Calls in what a model says

`shamsu/llm/output.py`: `parse_model_turn`, as far as it looks for raw fences. Reasoning is taken
out, each fence that names a tool and a path on its first line is found, and its body is the
content as it stands.

A pattern is its parts, each with the ways in which it can take the text (`Shamsu.Lib.greedy`);
the salvagers that come after, and the readers of JSON and of search blocks, are arguments.
-/

namespace Shamsu.Llm

open Shamsu.Lib Shamsu.Py

/-! ## Reasoning -/

/-- A character of a pattern, read with `IGNORECASE`: two letters have relatives outside ASCII. -/
def ignoresCase (p c : Char) : Bool :=
  c == p || ('a' ≤ p && p ≤ 'z' && c.toNat + 32 == p.toNat) ||
    (p == 'i' && (c == '\u0130' || c == '\u0131')) || (p == 'k' && c == '\u212a')

/-- What is left of a text after a tag. -/
def afterTag : Text → Text → Option Text
  | [], s => some s
  | _ :: _, [] => none
  | p :: tag, c :: s => if ignoresCase p c then afterTag tag s else none

/-- The same, wherever the tag is first. -/
def findTag (tag : Text) : Text → Option Text
  | [] => afterTag tag []
  | c :: s =>
    match afterTag tag (c :: s) with
    | some rest => some rest
    | none => findTag tag s

def openTag : Text := "<think>".toList

def closeTag : Text := "</think>".toList

/-- `_THINK_RE.sub("", content)`. -/
def stripClosed : Nat → Text → Text
  | 0, s => s
  | _ + 1, [] => []
  | fuel + 1, c :: s =>
    match (afterTag openTag (c :: s)).bind (findTag closeTag) with
    | some rest => stripClosed fuel rest
    | none => c :: stripClosed fuel s

/-- `_DANGLING_THINK_RE.sub("", content)`. -/
def stripDangling : Text → Text
  | [] => []
  | c :: s => if (afterTag openTag (c :: s)).isSome then [] else c :: stripDangling s

/-- `_strip_think_spans`. -/
def stripThinkSpans (content : Text) : Text := stripDangling (stripClosed content.length content)

/-- The same, with the relative of `s`. -/
def ignoresAnyCase (p c : Char) : Bool := ignoresCase p c || (p == 's' && c == '\u017f')

/-! ## `_RAW_TOOL_FENCE_RE` -/

/-- `[ \t]`, `[^\r\n]` and `[^\s\r\n]`. -/
def isBlankChar (c : Char) : Bool := c == ' ' || c == '\t'

def isLineChar (c : Char) : Bool := c != '\r' && c != '\n'

def isPathChar (c : Char) : Bool := !isSpace c && isLineChar c

abbrev Ways := List (Text × Text)

/-- A word of a pattern that is read with `IGNORECASE`. -/
def anyCase (word : String) (s : Text) : Ways := literalBy ignoresAnyCase word.toList s

/-- `\r?\n`. -/
def newline (s : Text) : Ways := literal ['\r', '\n'] s ++ literal ['\n'] s

/-- Some of a character, as many as there are: `c{n,}`. -/
def atLeast (n : Nat) (c : Char) (s : Text) : Ways :=
  (greedy (· == c) s).filter fun way => decide (n ≤ way.1.length)

/-- The fence. -/
def fenceMark (s : Text) : Ways := atLeast 3 '`' s ++ atLeast 3 '~' s

/-- The sign that a comment begins with, if there is one. -/
def commentMark (s : Text) : Ways :=
  atLeast 1 '#' s ++ (literal ['/'] s).flatMap (fun way => atLeast 1 '/' way.2) ++
    literal "--".toList s ++ literal "<!--".toList s ++ literal "/*".toList s ++
    literal "*".toList s ++ [([], s)]

/-- The sign that it ends with. -/
def commentEnd (s : Text) : Ways := literal "-->".toList s ++ literal "*/".toList s ++ [([], s)]

def toolName (s : Text) : Ways :=
  literal "write_file".toList s ++ literal "append_file".toList s ++ literal "edit_file".toList s

def separator (s : Text) : Ways := literal [':'] s ++ literal ['='] s

/-- The rest of the line of a path: blanks, the end of a comment and the line break. -/
def pathEnd (s : Text) : List Text :=
  (greedy isBlankChar s).flatMap fun a =>
    (commentEnd a.2).flatMap fun b =>
      (greedy isBlankChar b.2).flatMap fun c => (newline c.2).map fun d => d.2

/-- What a header names, and what comes after it. -/
structure Header where
  name : Text
  path : Text
  rest : Text

def toolHeader (s : Text) : List Header :=
  (greedy isBlankChar s).flatMap fun a =>
    (commentMark a.2).flatMap fun b =>
      (greedy isBlankChar b.2).flatMap fun c =>
        (toolName c.2).flatMap fun name =>
          (greedy isBlankChar name.2).flatMap fun d =>
            (separator d.2).flatMap fun e =>
              (greedy isBlankChar e.2).flatMap fun f =>
                (lazily isPathChar f.2).flatMap fun path =>
                  if path.1 = [] then []
                  else (pathEnd path.2).map fun rest => ⟨name.1, path.1, rest⟩

/-- `^[ \t]*(?P=fence)[ \t]*$`, after what is taken of the body. -/
def fenceEnd (fence : Text) (body rest : Text) : List Text :=
  if body = [] ∨ body.getLast? = some '\n' then
    (greedy isBlankChar rest).flatMap fun a =>
      (literal fence a.2).flatMap fun b =>
        ((greedy isBlankChar b.2).map Prod.snd).filter fun rest =>
          decide (rest = [] ∨ rest.head? = some '\n')
  else []

/-- A match. -/
structure RawFence where
  fence : Text
  name : Text
  path : Text
  body : Text
  rest : Text
  deriving DecidableEq

/-- The matches at the start of a line, in the order in which they are tried. -/
def rawToolFence (s : Text) : List RawFence :=
  (greedy isBlankChar s).flatMap fun a =>
    (fenceMark a.2).flatMap fun fence =>
      (greedy isLineChar fence.2).flatMap fun info =>
        (newline info.2).flatMap fun b =>
          (toolHeader b.2).flatMap fun header =>
            (lazily (fun _ => true) header.rest).flatMap fun body =>
              (fenceEnd fence.1 body.1 body.2).map fun rest =>
                ⟨fence.1, header.name, header.path, body.1, rest⟩

/-- `_RAW_TOOL_FENCE_RE.finditer`. -/
def findFences : Nat → Bool → Text → List RawFence
  | 0, _, _ => []
  | fuel + 1, lineStart, s =>
    match if lineStart then (rawToolFence s).head? else none with
    | some m => m :: findFences fuel false m.rest
    | none =>
      match s with
      | [] => []
      | c :: s => findFences fuel (c == '\n') s

/-! ## `_salvage_raw_tool_fences` -/

structure ToolCall where
  id : Text
  name : Text
  arguments : Dict

structure ParseFailure where
  kind : String
  tool : Text
  path : Text
  error : String

/-- What the salvager calls: Python's `lower`, `\w` and `str` of a number, the readers of JSON, of
which only the dictionaries count, and the search blocks of a body. -/
structure Salvage where
  lower : Text → Text
  isWord : Char → Bool
  number : Nat → Text
  loadToolCallJson : Option (List Text) → Text → Option Dict
  loadJson : Text → Option Dict
  searchReplace : Text → List (Text × Text)

def nameKeys : List String := ["name", "action", "tool", "tool_name", "function"]

def argKeys : List String := ["arguments", "parameters", "args", "params", "input"]

/-- `_FENCE_UNSAFE_SUFFIXES`. -/
def fenceUnsafeSuffixes : List String := [".md", ".mdx", ".markdown"]

/-- `_first_str`. -/
def firstStr (obj : Dict) (keys : List String) : Text :=
  (keys.findSome? fun key =>
    match dictGet obj key with
    | some (.str t) => if strip t = [] then none else some (strip t)
    | _ => none).getD []

/-- `{**d, **new}`. -/
def dictUpdate (d new : Dict) : Dict :=
  new.foldl (fun d p =>
    if d.any (fun q => q.1 == p.1) then d.map fun q => if q.1 = p.1 then p else q else d ++ [p]) d

/-- `rstrip("\r\n")`. -/
def rstripNewlines (body : Text) : Text := body.rdropWhile fun ch => !isLineChar ch

def isRegistered (registered : Option (List Text)) (name : Text) : Bool :=
  match registered with
  | none => true
  | some tools => tools.contains name

/-- `_is_tool_call_envelope`. -/
def isToolCallEnvelope (obj : Dict) (registered : Option (List Text)) : Bool :=
  firstStr obj nameKeys != [] && isRegistered registered (firstStr obj nameKeys)

namespace Salvage

variable (c : Salvage)

/-- `re.search(r"\.\w{1,8}$", text)`. -/
def hasSuffix (text : Text) : Bool :=
  text.tails.any fun t =>
    match t with
    | '.' :: word =>
      let word := if word.getLast? = some '\n' then word.dropLast else word
      decide (1 ≤ word.length ∧ word.length ≤ 8) && word.all c.isWord
    | _ => false

/-- `_looks_like_path`. -/
def looksLikePath (text : Text) : Bool :=
  text != [] && !(strip text).contains ' ' && decide (text.length ≤ 200) &&
    (text.contains '/' || text.contains '\\' || c.hasSuffix text)

/-- The two checks of a path. -/
def badPath (path : Text) : Bool :=
  !c.looksLikePath path || path.head? == some '/' || path.head? == some '\\' ||
    (path.splitOnP fun ch => ch == '/' || ch == '\\').contains "..".toList

/-- A Markdown file. -/
def isMarkdown (path : Text) : Bool :=
  fenceUnsafeSuffixes.any fun suffix => suffix.toList.isSuffixOf (c.lower path)

/-- `_first_dict`. -/
def firstDict (obj : Dict) (keys : List String) : Option Dict :=
  keys.findSome? fun key =>
    match dictGet obj key with
    | some (.dict d) => some d
    | some (.str t) => c.loadJson t
    | _ => none

/-- The arguments of a call that is written as JSON inside of the fence. -/
def envelope (registered : Option (List Text)) (body : Text) : Option Dict :=
  if (lstrip body).head? = some '{' then
    match c.loadToolCallJson registered body with
    | some parsed =>
      if isToolCallEnvelope parsed registered then
        (c.firstDict parsed argKeys).filter fun inner => !inner.isEmpty
      else none
    | none => none
  else none

def rawId (name : Text) (count : Nat) : Text :=
  "raw_".toList ++ name ++ '_' :: c.number (count + 1)

/-- The calls of the search blocks of an `edit_file`. -/
def editCalls (path : Text) (count : Nat) (pairs : List (Text × Text)) : List ToolCall :=
  pairs.zipIdx.map fun p =>
    { id := c.rawId "edit_file".toList (count + p.2)
      name := "edit_file".toList
      arguments := [("filepath".toList, .str path), ("old_string".toList, .str p.1.1),
        ("new_string".toList, .str p.1.2)] }

/-- What one match adds to the calls and to the failures, after `count` calls. -/
def fenceCalls (registered : Option (List Text)) (count : Nat) (m : RawFence) :
    List ToolCall × List ParseFailure :=
  let body := rstripNewlines m.body
  let content := body ++ ['\n']
  if !isRegistered registered m.name then ([], [])
  else if c.badPath m.path then ([], [⟨"raw_envelope_bad_path", m.name, m.path, ""⟩])
  else if m.fence.length = 3 ∧ c.isMarkdown m.path = true then
    ([], [⟨"raw_envelope_fence_collision", m.name, m.path,
      "a markdown target needs a 4-backtick envelope; a " ++
        "3-backtick one closes at the file's own first fence"⟩])
  else if strip body = [] then ([], [⟨"raw_envelope_empty_body", m.name, m.path, ""⟩])
  else
    match c.envelope registered content with
    | some inner =>
      ([⟨c.rawId m.name count, m.name, dictUpdate [("filepath".toList, .str m.path)] inner⟩], [])
    | none =>
      if m.name = "edit_file".toList then
        let pairs := c.searchReplace content
        if pairs = [] then
          ([], [⟨"edit_envelope_without_search_replace", m.name, m.path,
            "edit_file needs <<<<<<< SEARCH / ======= / " ++
              ">>>>>>> REPLACE pairs in the block body"⟩])
        else (c.editCalls m.path count pairs, [])
      else
        ([⟨c.rawId m.name count, m.name,
          [("filepath".toList, .str m.path), ("content".toList, .str content)]⟩], [])

/-- `_salvage_raw_tool_fences`. -/
def salvageRawToolFences (registered : Option (List Text)) (content : Text) :
    List ToolCall × List ParseFailure :=
  (findFences (content.length + 1) true content).foldl (fun so m =>
    let more := c.fenceCalls registered so.1.length m
    (so.1 ++ more.1, so.2 ++ more.2)) ([], [])

/-- `parse_model_turn`, the calls of it: the native ones, those of the raw fences, or those of the
first of the other salvagers that finds some. -/
def parseModelTurn (registered : Option (List Text)) (laterSalvagers : List (Text → List ToolCall))
    (nativeCalls : List ToolCall) (rawContent : Text) : List ToolCall :=
  if !nativeCalls.isEmpty then nativeCalls
  else
    let calls := (c.salvageRawToolFences registered (stripThinkSpans rawContent)).1
    if !calls.isEmpty then calls
    else ((laterSalvagers.map fun salvager => salvager rawContent).find? fun calls =>
      !calls.isEmpty).getD []

end Salvage

end Shamsu.Llm
