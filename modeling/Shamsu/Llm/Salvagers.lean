import Shamsu.Llm.JsonSpans
import Shamsu.Llm.Layout
import Shamsu.Llm.Output

/-!
# The salvagers

`shamsu/llm/output.py`: the forms in which a call is found in what a model says, where the turn
has no native calls. Raw fences are read in `Shamsu.Llm.Output`; here are the commented fences,
the JSON objects of the text, the search blocks and the `<tool_call>` tags.

Each form takes the name from another place: from the header of a fence, from one of five keys of
an object, from an object inside of it. `salvaged_registered`: whichever it is, the call names a
registered tool.
-/

namespace Shamsu.Llm.Salvagers

open Shamsu.Lib Shamsu.Py

/-- What the salvagers call besides: the other two results of `_load_tool_call_json`, and `str`
of a value. -/
structure Reader extends Salvage where
  strictError : Option (List Text) → Text → String
  repaired : Option (List Text) → Text → Bool
  textOf : Value → Text

/-! ## Patterns -/

abbrev Matches (α : Type) := List (α × Text)

/-- `finditer`, with the text before each match. -/
def findIter {α : Type} (pattern : Text → Matches α) : Nat → Text → Text → List (Text × α)
  | 0, _, _ => []
  | fuel + 1, before, s =>
    match (pattern s).head? with
    | some (m, rest) =>
      (before, m) :: findIter pattern fuel (before ++ s.take (s.length - rest.length)) rest
    | none =>
      match s with
      | [] => []
      | c :: s => findIter pattern fuel (before ++ [c]) s

def findAll {α : Type} (pattern : Text → Matches α) (s : Text) : List (Text × α) :=
  findIter pattern (s.length + 1) [] s

def anyChar (_ : Char) : Bool := true

def isNameStart (c : Char) : Bool :=
  ('a' ≤ c && c ≤ 'z') || ('A' ≤ c && c ≤ 'Z') || c == '_'

/-- `[A-Za-z_][\w-]*`. -/
def someName (isWord : Char → Bool) : Text → Ways
  | [] => []
  | c :: s =>
    if isNameStart c then
      (greedy (fun ch => isWord ch || ch == '-') s).map fun way => (c :: way.1, way.2)
    else []

/-- `\b`, between what is taken and what is left. -/
def isBoundary (isWord : Char → Bool) (taken left : Text) : Bool :=
  (taken.getLast?.map isWord).getD false != (left.head?.map isWord).getD false

structure CommentedFence where
  name : Text
  body : Text
  deriving DecidableEq, Repr

def threeTicks : Text := "\x60\x60\x60".toList

/-- `_COMMENTED_TOOL_FENCE_RE`. -/
def commentedToolFence (isWord : Char → Bool) (s : Text) : Matches CommentedFence :=
  (literal threeTicks s).flatMap fun a =>
    (greedy isLineChar a.2).flatMap fun info =>
      (newline info.2).flatMap fun b =>
        (greedy isSpace b.2).flatMap fun d =>
          (literal ['#'] d.2).flatMap fun e =>
            (greedy isSpace e.2).flatMap fun f =>
              ((someName isWord f.2).filter fun way => isBoundary isWord way.1 way.2).flatMap
                fun name =>
                  (lazily anyChar name.2).flatMap fun body =>
                    (literal threeTicks body.2).map fun close => (⟨name.1, body.1⟩, close.2)

structure SearchReplace where
  old : Text
  new : Text
  deriving DecidableEq, Repr

/-- `_SEARCH_REPLACE_RE`. -/
def searchReplace (s : Text) : Matches SearchReplace :=
  (atLeast 5 '<' s).flatMap fun a =>
    (greedy isSpace a.2).flatMap fun b =>
      (literal "SEARCH".toList b.2).flatMap fun c =>
        (lazily isSpace c.2).flatMap fun d =>
          (literal ['\n'] d.2).flatMap fun e =>
            (lazily anyChar e.2).flatMap fun old =>
              (literal ['\n'] old.2).flatMap fun f =>
                (atLeast 5 '=' f.2).flatMap fun g =>
                  (lazily isSpace g.2).flatMap fun h =>
                    (literal ['\n'] h.2).flatMap fun i =>
                      (lazily anyChar i.2).flatMap fun new =>
                        (literal ['\n'] new.2).flatMap fun j =>
                          (atLeast 5 '>' j.2).flatMap fun k =>
                            (greedy isSpace k.2).flatMap fun l =>
                              (literal "REPLACE".toList l.2).map fun m =>
                                (⟨old.1, new.1⟩, m.2)

/-- `_XML_TOOL_CALL_RE`: the body. -/
def xmlToolCall (s : Text) : Matches Text :=
  (literal "<tool_call>".toList s).flatMap fun a =>
    (greedy isSpace a.2).flatMap fun b =>
      (literal ['\x7b'] b.2).flatMap fun c =>
        (lazily anyChar c.2).flatMap fun inner =>
          (literal ['\x7d'] inner.2).flatMap fun d =>
            (greedy isSpace d.2).flatMap fun e =>
              (literal "</tool_call>".toList e.2).map fun f =>
                ('\x7b' :: (inner.1 ++ ['\x7d']), f.2)

/-- `_TOOL_CALL_SHAPE_RE`: the tool. -/
def toolCallShape (isWord : Char → Bool) (s : Text) : Matches Text :=
  (literal ['"'] s).flatMap fun a =>
    (nameKeys.flatMap fun key => literal key.toList a.2).flatMap fun b =>
      (literal ['"'] b.2).flatMap fun c =>
        (greedy isSpace c.2).flatMap fun d =>
          (literal [':'] d.2).flatMap fun e =>
            (greedy isSpace e.2).flatMap fun f =>
              (literal ['"'] f.2).flatMap fun g =>
                (someName isWord g.2).flatMap fun tool =>
                  (literal ['"'] tool.2).map fun h => (tool.1, h.2)

/-- `"key"\s*:\s*"(?P<value>[^"\\]{1,200})"`: the value. -/
def keyValue (key : Text) (s : Text) : Matches Text :=
  (literal ('"' :: key ++ ['"']) s).flatMap fun a =>
    (greedy isSpace a.2).flatMap fun b =>
      (literal [':'] b.2).flatMap fun c =>
        (greedy isSpace c.2).flatMap fun d =>
          (literal ['"'] d.2).flatMap fun e =>
            ((greedy (fun ch => ch != '"' && ch != '\\') e.2).filter fun way =>
              decide (1 ≤ way.1.length ∧ way.1.length ≤ 200)).flatMap fun value =>
                (literal ['"'] value.2).map fun f => (value.1, f.2)

/-- `_probable_filepath`. -/
def probableFilepath (span : Text) : Text :=
  (["filepath", "file_path", "path"].findSome? fun key =>
    (findAll (keyValue key.toList) span).head?.map (·.2)).getD []

/-! ## Arguments -/

def quoteRepairTools : List Text :=
  ["write_file".toList, "append_file".toList, "edit_file".toList]

/-- `_names_quote_repair_tool`. -/
def namesQuoteRepairTool (isWord : Char → Bool) (registered : Option (List Text)) (span : Text) :
    Text :=
  match (findAll (toolCallShape isWord) span).head? with
  | some (_, tool) =>
    if quoteRepairTools.contains tool && isRegistered registered tool then tool else []
  | none => []

/-- The fields of a tool that carry source. -/
def payloadFields (name : Text) : List Text :=
  if name = "write_file".toList ∨ name = "append_file".toList then ["content".toList]
  else if name = "edit_file".toList then ["old_string".toList, "new_string".toList]
  else []

/-- A payload that came with the escapes of its line breaks, and with none of them. -/
def decodePayload : Value → Value
  | .str t =>
    if '\n' ∉ t ∧ (find "\\n".toList t).isSome then .str (Layout.decodeEscapedLayout t) else .str t
  | v => v

/-- `_normalize_tool_arguments`, where the payload went through JSON. -/
def normalizeToolArguments (name : Text) (arguments : Dict) : Dict :=
  arguments.map fun p => if p.1 ∈ payloadFields name then (p.1, decodePayload p.2) else p

/-! ## The salvagers -/

abbrev Salvaged := List ToolCall × List ParseFailure

/-- The calls and the failures of each match; `find` knows how many calls there are before. -/
def collect {α : Type} (find : Nat → α → Salvaged) (found : List α) : Salvaged :=
  found.foldl (fun so m =>
    let more := find so.1.length m
    (so.1 ++ more.1, so.2 ++ more.2)) ([], [])

namespace Reader

variable (c : Reader)

/-- `str(arguments.get("filepath") or "")`. -/
def filepathOf (arguments : Dict) : Text :=
  match dictGet arguments "filepath" with
  | some v => if v.truthy then c.textOf v else []
  | none => []

/-- One match of `_salvage_commented_tool_fences`. -/
def commentedCalls (registered : Option (List Text)) (count : Nat) (m : CommentedFence) :
    Salvaged :=
  let body := strip m.body
  if !isRegistered registered m.name then ([], [])
  else if body.head? = some '\x7b' then
    let error := c.strictError registered body
    match c.loadToolCallJson registered body with
    | none =>
      ([], if quoteRepairTools.contains m.name && error != "" then
        [⟨"fence_body_not_json", m.name, probableFilepath body, error⟩] else [])
    | some arguments =>
      ([⟨"salvaged_".toList ++ m.name ++ '_' :: c.number (count + 1), m.name,
          normalizeToolArguments m.name arguments⟩],
        if c.repaired registered body then
          [⟨"quote_repaired", m.name, c.filepathOf arguments, error⟩] else [])
  else if m.name = "run_command".toList ∧ body ≠ [] then
    ([⟨"salvaged_".toList ++ m.name ++ '_' :: c.number (count + 1), m.name,
      normalizeToolArguments m.name [("command".toList, .str body)]⟩], [])
  else ([], [])

/-- `_salvage_commented_tool_fences`. -/
def salvageCommentedToolFences (registered : Option (List Text)) (content : Text) : Salvaged :=
  collect (c.commentedCalls registered) ((findAll (commentedToolFence c.isWord) content).map (·.2))

/-- The name in an object, which may be in a `function` object inside of it, and the object that
the arguments are in. -/
def nameIn (obj : Dict) : Text × Dict :=
  let name := firstStr obj nameKeys
  match dictGet obj "function" with
  | some (.dict inner) =>
    if name = [] then (firstStr inner ["name"], dictUpdate obj inner) else (name, obj)
  | _ => (name, obj)

/-- The arguments in an object: an object with nothing but names has none. -/
def argumentsIn (obj : Dict) : Option Dict :=
  match c.firstDict obj argKeys with
  | some args => some args
  | none => if obj.all fun p => nameKeys.any fun key => key.toList == p.1 then some [] else none

/-- `_tool_call_from_obj`. -/
def toolCallFromObj (registered : Option (List Text)) (obj : Dict) : Option ToolCall :=
  let named := nameIn obj
  if named.1 = [] then none
  else if !isRegistered registered named.1 then none
  else
    (c.argumentsIn named.2).map fun args =>
      ⟨"salvaged_".toList ++ named.1, named.1, normalizeToolArguments named.1 args⟩

/-- One span of `_salvage_embedded_json`, or one body of `_salvage_xml_tool_call`. -/
def spanCalls (registered : Option (List Text)) (span : Text) : Salvaged :=
  let error := c.strictError registered span
  match c.loadToolCallJson registered span with
  | none =>
    let tool := namesQuoteRepairTool c.isWord registered span
    ([], if tool != [] && error != "" then
      [⟨"json_decode", tool, probableFilepath span, error⟩] else [])
  | some obj =>
    match c.toolCallFromObj registered obj with
    | none => ([], [])
    | some call =>
      ([call], if c.repaired registered span then
        [⟨"quote_repaired", call.name, c.filepathOf call.arguments, error⟩] else [])

/-- `_salvage_embedded_json`. -/
def salvageEmbeddedJson (registered : Option (List Text)) (content : Text) : Salvaged :=
  collect (fun _ => c.spanCalls registered) (JsonSpans.iterJsonObjects content)

/-- `_salvage_xml_tool_call`. -/
def salvageXmlToolCall (registered : Option (List Text)) (content : Text) : Salvaged :=
  collect (fun _ => c.spanCalls registered) ((findAll xmlToolCall content).map (·.2))

/-- `^(?:file|path|filename)\s*[:=]\s*`, taken away. -/
def withoutLabel (candidate : Text) : Text :=
  (["file", "path", "filename"].findSome? fun label =>
    (afterTag label.toList candidate).bind fun rest =>
      match rest.dropWhile isSpace with
      | ':' :: rest => some (rest.dropWhile isSpace)
      | '=' :: rest => some (rest.dropWhile isSpace)
      | _ => none).getD candidate

def isPathFrame (c : Char) : Bool := c == '\x60' || c == '*' || c == ':' || c == '#' || c == ' '

/-- The path that a line of `_path_before` reads as. -/
def candidateOf (line : Text) : Text :=
  let candidate := withoutLabel (strip ((strip line).dropWhile (· == '\x60')))
  strip ((candidate.rdropWhile isPathFrame).dropWhile isPathFrame)

/-- `_path_before`, for the text before the block. -/
def pathBefore (before : Text) : Text :=
  match (splitlines before).reverse.find? fun line => strip line != [] with
  | some line => if c.looksLikePath (candidateOf line) then candidateOf line else []
  | none => []

/-- `_salvage_search_replace`. -/
def salvageSearchReplace (registered : Option (List Text)) (content : Text) : Salvaged :=
  if !isRegistered registered "edit_file".toList then ([], [])
  else
    collect (fun _ (m : Text × SearchReplace) =>
      let filepath := c.pathBefore m.1
      if filepath = [] then ([], [])
      else ([⟨"salvaged_edit_file".toList, "edit_file".toList,
        [("filepath".toList, .str filepath), ("old_string".toList, .str m.2.old),
          ("new_string".toList, .str m.2.new)]⟩], []))
      (findAll searchReplace content)

/-- The salvagers that come after the raw fences, in their order. -/
def laterSalvagers (registered : Option (List Text)) : List (Text → List ToolCall) :=
  [fun content => (c.salvageCommentedToolFences registered content).1,
    fun content => (c.salvageEmbeddedJson registered content).1,
    fun content => (c.salvageSearchReplace registered content).1,
    fun content => (c.salvageXmlToolCall registered content).1]

/-- The calls of `parse_model_turn` for a message without native calls. -/
def salvagedCalls (registered : Option (List Text)) (rawContent : Text) : List ToolCall :=
  c.parseModelTurn registered (c.laterSalvagers registered) [] rawContent

end Reader

/-! ## Names -/

/-- Each call names a registered tool. -/
def AllRegistered (registered : Option (List Text)) (calls : List ToolCall) : Prop :=
  ∀ call ∈ calls, isRegistered registered call.name = true

section Names

variable {registered : Option (List Text)} {a b : List ToolCall} {call : ToolCall} {c : Reader}

theorem allRegistered_nil : AllRegistered registered [] := by
  intro call hcall
  cases hcall

theorem allRegistered_one (h : isRegistered registered call.name = true) :
    AllRegistered registered [call] := by
  intro other hother
  rwa [List.mem_singleton.mp hother]

theorem AllRegistered.append (ha : AllRegistered registered a) (hb : AllRegistered registered b) :
    AllRegistered registered (a ++ b) := by
  intro call hcall
  rcases List.mem_append.mp hcall with h | h
  · exact ha call h
  · exact hb call h

/-- What every match keeps to, all of them do. -/
theorem collect_registered {α : Type} {find : Nat → α → Salvaged} {found : List α}
    (h : ∀ count m, AllRegistered registered (find count m).1) :
    AllRegistered registered (collect find found).1 := by
  have hrun : ∀ (l : List α) (so : Salvaged), AllRegistered registered so.1 →
      AllRegistered registered (l.foldl (fun so m =>
        (so.1 ++ (find so.1.length m).1, so.2 ++ (find so.1.length m).2)) so).1 := by
    intro l
    induction l with
    | nil => exact fun _ hso => hso
    | cons m l ih => exact fun so hso => ih _ (hso.append (h _ m))
  exact hrun found _ allRegistered_nil

theorem fenceCalls_registered (c : Salvage) (count : Nat) (m : RawFence) :
    AllRegistered registered (c.fenceCalls registered count m).1 := by
  unfold Salvage.fenceCalls
  cases hname : isRegistered registered m.name with
  | false => exact allRegistered_nil
  | true =>
    simp only [Bool.not_true, Bool.false_eq_true, if_false]
    split
    · exact allRegistered_nil
    · split
      · exact allRegistered_nil
      · split
        · exact allRegistered_nil
        · split
          · exact allRegistered_one hname
          · split
            next hedit =>
              split
              · exact allRegistered_nil
              · intro call hcall
                obtain ⟨p, _, rfl⟩ := List.mem_map.mp hcall
                rwa [← hedit]
            · exact allRegistered_one hname

theorem rawFences_registered (c : Salvage) (content : Text) :
    AllRegistered registered (c.salvageRawToolFences registered content).1 :=
  collect_registered fun count m => fenceCalls_registered c count m

theorem commentedCalls_registered (c : Reader) (count : Nat) (m : CommentedFence) :
    AllRegistered registered (c.commentedCalls registered count m).1 := by
  unfold Reader.commentedCalls
  cases hname : isRegistered registered m.name with
  | false => exact allRegistered_nil
  | true =>
    simp only [Bool.not_true, Bool.false_eq_true, if_false]
    split
    · split
      · exact allRegistered_nil
      · exact allRegistered_one hname
    · split
      · exact allRegistered_one hname
      · exact allRegistered_nil

/-- The name is checked after it is chosen, wherever it comes from. -/
theorem toolCallFromObj_registered {obj : Dict}
    (h : c.toolCallFromObj registered obj = some call) :
    isRegistered registered call.name = true := by
  unfold Reader.toolCallFromObj at h
  dsimp only at h
  cases hname : isRegistered registered (Reader.nameIn obj).1 with
  | false =>
    rw [hname] at h
    simp at h
  | true =>
    by_cases hblank : (Reader.nameIn obj).1 = []
    · rw [if_pos hblank] at h
      cases h
    · rw [if_neg hblank, hname, Bool.not_true, if_neg Bool.false_ne_true] at h
      obtain ⟨args, _, hcall⟩ := Option.map_eq_some_iff.mp h
      rwa [← hcall]

theorem spanCalls_registered (c : Reader) (span : Text) :
    AllRegistered registered (c.spanCalls registered span).1 := by
  unfold Reader.spanCalls
  dsimp only
  split
  · exact allRegistered_nil
  · split
    · exact allRegistered_nil
    next hcall => exact allRegistered_one (toolCallFromObj_registered hcall)

theorem searchReplace_registered (c : Reader) (content : Text) :
    AllRegistered registered (c.salvageSearchReplace registered content).1 := by
  unfold Reader.salvageSearchReplace
  cases hname : isRegistered registered "edit_file".toList with
  | false => exact allRegistered_nil
  | true =>
    simp only [Bool.not_true, Bool.false_eq_true, if_false]
    apply collect_registered
    intro _ m
    split
    · exact allRegistered_nil
    · exact allRegistered_one hname

/-- The first of several forms with a call. -/
theorem find_registered {forms : List (List ToolCall)}
    (h : ∀ calls ∈ forms, AllRegistered registered calls) :
    AllRegistered registered ((forms.find? fun calls => !calls.isEmpty).getD []) := by
  cases hfind : forms.find? fun calls => !calls.isEmpty with
  | none => exact allRegistered_nil
  | some calls => exact h calls (List.mem_of_find?_eq_some hfind)

theorem salvagedCalls_registered (c : Reader) (rawContent : Text) :
    AllRegistered registered (c.salvagedCalls registered rawContent) := by
  unfold Reader.salvagedCalls Salvage.parseModelTurn
  rw [if_neg (by simp)]
  dsimp only
  split
  · exact rawFences_registered _ _
  · apply find_registered
    intro calls hcalls
    simp only [Reader.laterSalvagers, List.map_cons, List.map_nil, List.mem_cons,
      List.not_mem_nil, or_false] at hcalls
    rcases hcalls with rfl | rfl | rfl | rfl
    · exact collect_registered fun count m => commentedCalls_registered c count m
    · exact collect_registered fun _ span => spanCalls_registered c span
    · exact searchReplace_registered c rawContent
    · exact collect_registered fun _ span => spanCalls_registered c span

end Names

/-- **Whichever form a call is found in, it names a registered tool.** -/
theorem salvaged_registered (c : Reader) (tools : List Text) (rawContent : Text) :
    ∀ call ∈ c.salvagedCalls (some tools) rawContent, call.name ∈ tools := by
  intro call hcall
  apply List.contains_iff_mem.mp
  exact salvagedCalls_registered c rawContent call hcall

/-- Python on ASCII, where each object names `list_files`. -/
private def listingReader : Reader where
  lower t := t.map Char.toLower
  isWord ch := ch.isAlphanum || ch == '_'
  number n := (toString n).toList
  loadToolCallJson _ _ := some [("name".toList, .str "list_files".toList)]
  loadJson _ := none
  searchReplace _ := []
  strictError _ _ := ""
  repaired _ _ := false
  textOf _ := []

private def listing : List ToolCall := listingReader.salvagedCalls (some ["list_files".toList])
  "\x7b\"name\": \"list_files\"\x7d".toList

private theorem listing_pos : 0 < listing.length := by decide +kernel

theorem salvaged_registered_listing :
    (listing.head (List.length_pos_iff.mp listing_pos)).name ∈ [("list_files".toList : Text)] :=
  salvaged_registered listingReader ["list_files".toList] _ _
    (List.head_mem (List.length_pos_iff.mp listing_pos))

end Shamsu.Llm.Salvagers
