import Shamsu.Lib.Choices
import Shamsu.Py.Strip
import Shamsu.Tools.Resolve
import Shamsu.Verify.JsNoise

/-!
# Helpers that nobody wrote

`shamsu/verify/wiring.py`, as far as it looks for calls in plain JavaScript: the calls and the names
that are bound are read from the code without its comments and literals, and a name that is called
in two files and bound in none is reported.

Names are bound by one pattern with five forms, whose matches do not overlap: a declaration that
an earlier match runs into is not read. `boundIn_declared`: every other one is.
-/

namespace Shamsu.Verify.Helpers

open Shamsu.Lib Shamsu.Py JsNoise

/-! ## Calls -/

def isIdStart (c : Char) : Bool :=
  ('a' ≤ c && c ≤ 'z') || ('A' ≤ c && c ≤ 'Z') || c == '_' || c == '$'

def isIdChar (c : Char) : Bool := isIdStart c || ('0' ≤ c && c ≤ '9')

/-- `_JS_KEYWORDS`. -/
def jsKeywords : List Text :=
  ["if", "for", "while", "switch", "catch", "return", "typeof", "function", "new", "delete", "void",
    "in", "of", "do", "else", "case", "throw", "await", "yield", "super", "this", "class", "const",
    "let", "var"].map String.toList

/-- A name of JavaScript, as far as it is ASCII. -/
def IsName (name : Text) : Prop :=
  ∃ c t, name = c :: t ∧ isIdStart c = true ∧ ∀ d ∈ t, isIdChar d = true

/-- What the scanners call: the characters of `\w`, and `str.isidentifier`, which takes the ASCII
names without a dollar. -/
structure Unicode where
  isWord : Char → Bool
  isIdentifier : Text → Bool
  isIdentifier_ascii : ∀ name, IsName name → '$' ∉ name → isIdentifier name = true

/-- `_JS_CALL`: the name, and what is left. -/
def callAt (s : Text) : Option (Text × Text) :=
  match s with
  | [] => none
  | c :: _ =>
    if isIdStart c then
      match (s.dropWhile isIdChar).dropWhile isSpace with
      | '(' :: rest => some (s.takeWhile isIdChar, rest)
      | _ => none
    else none

/-- `finditer`, with the text before each name. -/
def callsFrom (u : Unicode) : Nat → Text → Text → List (Text × Text)
  | 0, _, _ => []
  | _, _, [] => []
  | fuel + 1, before, c :: s =>
    let free := match before.getLast? with
      | some p => !(p == '.' || u.isWord p || p == '$')
      | none => true
    match if free then callAt (c :: s) else none with
    | some (name, rest) =>
      (before, name) ::
        callsFrom u fuel (before ++ (c :: s).take ((c :: s).length - rest.length)) rest
    | none => callsFrom u fuel (before ++ [c]) s

/-- `_PRECEDED_BY_NEW.search`, for the text before a name. -/
def precededByNew (before : Text) : Bool :=
  let code := before.rdropWhile isSpace
  decide (code.length < before.length) && "new".toList.isSuffixOf code &&
    match (code.take (code.length - 3)).getLast? with
    | some c => !isIdChar c
    | none => true

structure Symbol where
  file : Text
  line : Nat
  name : Text
  deriving DecidableEq, Repr

/-- The calls of a code whose comments and literals are blanked. -/
def callsIn (u : Unicode) (file code : Text) : List Symbol :=
  ((callsFrom u (code.length + 1) [] code).filter fun call =>
    !jsKeywords.contains call.2 && !precededByNew call.1).map fun call =>
      ⟨file, call.1.count '\n' + 1, call.2⟩

/-- `_js_calls`. -/
def jsCalls (u : Unicode) (file text : Text) : List Symbol := callsIn u file (stripJsNoise text)

/-! ## Names that are bound -/

abbrev Ways := List (Text × Text)

def spaces (s : Text) : Ways := greedy isSpace s

def someSpaces (s : Text) : Ways := (greedy isSpace s).filter fun way => way.1 != []

/-- `[A-Za-z_$][A-Za-z0-9_$]*`. -/
def identifier : Text → Ways
  | [] => []
  | c :: s => if isIdStart c then (greedy isIdChar s).map fun way => (c :: way.1, way.2) else []

def declarators : List Text := ["const", "let", "var", "function", "class"].map String.toList

/-- What is in parentheses. -/
def inParens (inside : Char → Bool) (s : Text) : Ways :=
  (literal ['('] s).flatMap fun a =>
    (greedy inside a.2).flatMap fun b => (literal [')'] b.2).map fun c => (b.1, c.2)

def notParen (c : Char) : Bool := c != '(' && c != ')'

def declared (s : Text) : Ways :=
  (declarators.flatMap fun word => literal word s).flatMap fun a =>
    (someSpaces a.2).flatMap fun b => identifier b.2

def generator (s : Text) : Ways :=
  (literal "function".toList s).flatMap fun a =>
    (spaces a.2).flatMap fun b =>
      (literal ['*'] b.2).flatMap fun c =>
        (spaces c.2).flatMap fun d =>
          (greedy isIdChar d.2).flatMap fun e =>
            (spaces e.2).flatMap fun f => inParens (· != ')') f.2

def arrow (s : Text) : Ways :=
  (inParens notParen s).flatMap fun a =>
    (spaces a.2).flatMap fun b => (literal "=>".toList b.2).map fun c => (a.1, c.2)

/-- A method: its name, its parameters, and what is left. -/
def method (s : Text) : List (Text × Text × Text) :=
  (identifier s).flatMap fun a =>
    (spaces a.2).flatMap fun b =>
      (inParens notParen b.2).flatMap fun c =>
        (spaces c.2).flatMap fun d => (literal ['\x7b'] d.2).map fun e => (a.1, c.1, e.2)

def caught (s : Text) : Ways :=
  (literal "catch".toList s).flatMap fun a =>
    (spaces a.2).flatMap fun b =>
      (literal ['('] b.2).flatMap fun c => (spaces c.2).flatMap fun d => identifier d.2

/-- `_JS_BINDING`: the groups, and what is left. -/
def bindingAt (s : Text) : Option (List Text × Text) :=
  ((declared s ++ generator s ++ arrow s).map (fun way => ([way.1], way.2)) ++
    (method s).map (fun way => ([way.1, way.2.1], way.2.2)) ++
    (caught s).map fun way => ([way.1], way.2)).head?

/-- `finditer`. -/
def bindingsFrom : Nat → Text → List (List Text)
  | 0, _ => []
  | _, [] => []
  | fuel + 1, c :: s =>
    match bindingAt (c :: s) with
    | some (groups, rest) => groups :: bindingsFrom fuel rest
    | none => bindingsFrom fuel s

def isFrame (c : Char) : Bool := c == '\x7b' || c == '\x7d' || c == ' ' || c == '[' || c == ']'

/-- The name in a part of a group. -/
def cleanedName (part : Text) : Text :=
  let name := (strip (part.takeWhile (· != '='))).dropWhile (· == '.')
  (name.rdropWhile isFrame).dropWhile isFrame

/-- The names of a group. -/
def namesOf (u : Unicode) (group : Text) : List Text :=
  if group = [] then []
  else ((group.splitOn ',').map cleanedName).filter fun name => name != [] && u.isIdentifier name

/-- The names that a code binds whose comments and literals are blanked. -/
def boundIn (u : Unicode) (code : Text) : List Text :=
  (bindingsFrom (code.length + 1) code).flatMap fun groups => groups.flatMap (namesOf u)

/-- `_js_bound_names`. -/
def jsBoundNames (u : Unicode) (text : Text) : List Text := boundIn u (stripJsNoise text)

/-! ## The report -/

structure WiringDiagnostic where
  file : Text
  line : Nat
  kind : String
  message : Text
  deriving DecidableEq, Repr

/-- The first use, by file and line. -/
def firstUse : Symbol → List Symbol → Symbol
  | best, [] => best
  | best, s :: ss =>
    firstUse (if s.file ≠ best.file ∧ Tools.textLe s.file best.file = true ∨
      s.file = best.file ∧ s.line < best.line then s else best) ss

/-- `_JS_GLOBALS`. -/
def jsGlobals : List Text :=
  ["Array", "Boolean", "Date", "Error", "Function", "JSON", "Map", "Math", "Number", "Object",
    "Promise", "Proxy", "RegExp", "Set", "String", "Symbol", "WeakMap", "WeakSet", "BigInt", "Intl",
    "Reflect", "parseInt", "parseFloat", "isNaN", "isFinite", "encodeURIComponent",
    "decodeURIComponent", "encodeURI", "decodeURI", "structuredClone", "setTimeout", "setInterval",
    "clearTimeout", "clearInterval", "queueMicrotask", "requestAnimationFrame",
    "cancelAnimationFrame", "fetch", "alert", "confirm", "prompt", "console", "document", "window",
    "navigator", "localStorage", "sessionStorage", "location", "history", "screen", "AudioContext",
    "webkitAudioContext", "Audio", "Image", "Worker", "Blob", "File", "FileReader", "FormData",
    "Headers", "Request", "Response", "URL", "URLSearchParams", "AbortController", "Event",
    "CustomEvent", "EventTarget", "MutationObserver", "IntersectionObserver", "ResizeObserver",
    "CanvasRenderingContext2D", "Path2D", "DOMParser", "TextEncoder", "TextDecoder", "atob", "btoa",
    "escape", "unescape", "require", "import", "process", "Buffer", "module", "exports", "describe",
    "it", "test", "expect", "beforeEach", "afterEach", "Float32Array", "Float64Array", "Int8Array",
    "Int16Array", "Int32Array", "Uint8Array", "Uint8ClampedArray", "Uint16Array", "Uint32Array",
    "BigInt64Array", "BigUint64Array", "ArrayBuffer", "DataView"].map String.toList

/-- The names that are called in two files or more, and neither bound nor global. -/
def reportedNames (bound : List Text) (calls : List Symbol) : List Text :=
  ((calls.map (·.name)).dedup.filter fun name =>
    !bound.contains name && !jsGlobals.contains name &&
      decide (2 ≤ ((calls.filter fun c => c.name == name).map (·.file)).dedup.length)).insertionSort
        fun a b => Tools.textLe a b = true

/-- The diagnostic of a name. -/
def helperDiagnostic (calls : List Symbol) (name : Text) : List WiringDiagnostic :=
  match calls.filter fun c => c.name == name with
  | [] => []
  | use :: uses =>
    let first := firstUse use uses
    let files := (((use :: uses).map (·.file)).dedup).length
    [⟨first.file, first.line, "undefined_helper",
      name ++ "() is called from ".toList ++ Nat.toDigits 10 files ++ " files (".toList ++
        Nat.toDigits 10 (uses.length + 1) ++ " times) and defined in none of them".toList⟩]

/-- `_undefined_helpers`. -/
def undefinedHelpers (calls : List Symbol) (bound : List Text) : List WiringDiagnostic :=
  (reportedNames bound calls).flatMap (helperDiagnostic calls)

/-- A JavaScript file of the project. -/
structure SourceFile where
  path : Text
  text : Text

def allCalls (u : Unicode) (files : List SourceFile) : List Symbol :=
  files.flatMap fun f => jsCalls u f.path f.text

def allBound (u : Unicode) (files : List SourceFile) : List Text :=
  files.flatMap fun f => jsBoundNames u f.text

/-- The part of `verify_wiring` about helpers. -/
def verifyHelpers (u : Unicode) (files : List SourceFile) : List WiringDiagnostic :=
  undefinedHelpers (allCalls u files) (allBound u files)

/-- The names that it reports. -/
def reportedHelpers (u : Unicode) (files : List SourceFile) : List Text :=
  reportedNames (allBound u files) (allCalls u files)

/-! ## Declarations -/

/-- No identifier runs on behind the text. -/
def Ends (t : Text) : Prop := ∀ c ∈ t.getLast?, isIdChar c = false

/-- The text of a `function name(` and what is behind it. -/
structure Declaration (name : Text) where
  gap : Text
  gap' : Text
  post : Text
  isName : IsName name
  gap_ne_nil : gap ≠ []
  gap_space : ∀ c ∈ gap, isSpace c = true
  gap'_space : ∀ c ∈ gap', isSpace c = true

def Declaration.text {name : Text} (d : Declaration name) : Text :=
  "function".toList ++ (d.gap ++ (name ++ (d.gap' ++ '(' :: d.post)))

theorem Declaration.text_eq {name : Text} (d : Declaration name) :
    d.text = "function".toList ++ (d.gap ++ (name ++ (d.gap' ++ '(' :: d.post))) := rfl

/-- The code declares the name after `pre`. -/
def Declares (code pre name : Text) : Prop :=
  Ends pre ∧ ∃ d : Declaration name, code = pre ++ d.text

/-- The ends of a text from which a match of another binding goes on into a declaration: a
declarator with nothing but white space behind it, an open `catch (`, and the open parameters of a
generator. -/
inductive RunInto : Text → Prop
  | declarator {word gap : Text} (pre : Text) (hword : word ∈ declarators) (hgap : gap ≠ [])
    (hspace : ∀ c ∈ gap, isSpace c = true) : RunInto (pre ++ (word ++ gap))
  | caught {gap gap' : Text} (pre : Text) (hgap : ∀ c ∈ gap, isSpace c = true)
    (hgap' : ∀ c ∈ gap', isSpace c = true) :
    RunInto (pre ++ ("catch".toList ++ (gap ++ ('(' :: gap'))))
  | generator {gap gap' name gap'' inside : Text} (pre : Text) (hgap : ∀ c ∈ gap, isSpace c = true)
    (hgap' : ∀ c ∈ gap', isSpace c = true) (hname : ∀ c ∈ name, isIdChar c = true)
    (hgap'' : ∀ c ∈ gap'', isSpace c = true) (hinside : ')' ∉ inside) :
    RunInto (pre ++ ("function".toList ++ (gap ++ ('*' :: (gap' ++ (name ++ (gap'' ++
      ('(' :: inside))))))))

theorem declarators_ids : ∀ word ∈ declarators, word ≠ [] ∧ ∀ c ∈ word, isIdChar c = true := by
  intro word hword
  have hall : declarators.all (fun word => word != [] && word.all isIdChar) = true := rfl
  obtain ⟨hne, hids⟩ := Bool.and_eq_true_iff.mp (List.all_eq_true.mp hall word hword)
  exact ⟨bne_iff_ne.mp hne, List.all_eq_true.mp hids⟩

theorem RunInto.append {p : Text} (h : RunInto p) (q : Text) : RunInto (q ++ p) := by
  cases h with
  | declarator pre hword hgap hspace =>
    rw [← List.append_assoc]
    exact .declarator (q ++ pre) hword hgap hspace
  | caught pre hgap hgap' =>
    rw [← List.append_assoc]
    exact .caught (q ++ pre) hgap hgap'
  | generator pre hgap hgap' hname hgap'' hinside =>
    rw [← List.append_assoc]
    exact .generator (q ++ pre) hgap hgap' hname hgap'' hinside

/-- A match that runs on has read a word. -/
theorem RunInto.exists_id {p : Text} (h : RunInto p) : ∃ c ∈ p, isIdChar c = true := by
  cases h with
  | declarator pre hword hgap hspace =>
    obtain ⟨hne, hids⟩ := declarators_ids _ hword
    obtain ⟨c, t, rfl⟩ := List.exists_cons_of_ne_nil hne
    exact ⟨c, List.mem_append_right _ List.mem_cons_self, hids c List.mem_cons_self⟩
  | caught pre hgap hgap' => exact ⟨'c', List.mem_append_right _ List.mem_cons_self, rfl⟩
  | generator pre hgap hgap' hname hgap'' hinside =>
    exact ⟨'f', List.mem_append_right _ List.mem_cons_self, rfl⟩

theorem Ends.right {q p : Text} (h : Ends (q ++ p)) : Ends p := by
  intro c hc
  refine h c ?_
  rw [List.getLast?_append, Option.mem_def.mp hc]
  rfl

/-! ## Where a part of a match ends -/

theorem function_ids : ∀ c ∈ "function".toList, isIdChar c = true :=
  List.all_eq_true.mp (by decide)

/-- An identifier has no white space. -/
theorem isSpace_of_isIdChar {c : Char} (h : isIdChar c = true) : isSpace c = false := by
  have hrange : c = '_' ∨ c = '$' ∨ (48 ≤ c.toNat ∧ c.toNat ≤ 57) ∨
      (65 ≤ c.toNat ∧ c.toNat ≤ 90) ∨ (97 ≤ c.toNat ∧ c.toNat ≤ 122) := by
    simp only [isIdChar, isIdStart, Bool.or_eq_true, Bool.and_eq_true, decide_eq_true_eq,
      beq_iff_eq] at h
    rcases h with (((⟨ha, hz⟩ | ⟨ha, hz⟩) | h) | h) | ⟨ha, hz⟩
    · exact .inr (.inr (.inr (.inr ⟨UInt32.le_iff_toNat_le.mp ha, UInt32.le_iff_toNat_le.mp hz⟩)))
    · exact .inr (.inr (.inr (.inl ⟨UInt32.le_iff_toNat_le.mp ha, UInt32.le_iff_toNat_le.mp hz⟩)))
    · exact .inl h
    · exact .inr (.inl h)
    · exact .inr (.inr (.inl ⟨UInt32.le_iff_toNat_le.mp ha, UInt32.le_iff_toNat_le.mp hz⟩))
  rcases hrange with rfl | rfl | hrange
  · rfl
  · rfl
  · unfold isSpace
    simp only [Bool.or_eq_false_iff, Bool.and_eq_false_iff, decide_eq_false_iff_not,
      beq_eq_false_iff_ne]
    omega

theorem isIdChar_of_isIdStart {c : Char} (h : isIdStart c = true) : isIdChar c = true := by
  rw [isIdChar, h]
  rfl

theorem isIdChar_of_isSpace {c : Char} (h : isSpace c = true) : isIdChar c = false := by
  cases hc : isIdChar c with
  | false => rfl
  | true =>
    rw [isSpace_of_isIdChar hc] at h
    cases h

/-- A part that cannot take the first character of `D` ends before it. -/
theorem inside_of_head {P : Char → Bool} {p D u rest : Text} (h : p ++ D = u ++ rest)
    (hu : ∀ c ∈ u, P c = true) (hD : ∀ c ∈ D.head?, P c = false) :
    ∃ q, p = u ++ q ∧ rest = q ++ D := by
  rcases List.append_eq_append_iff.mp h with ⟨x, hux, hDx⟩ | ⟨q, hp, hrest⟩
  · cases x with
    | nil => exact ⟨[], by rw [hux, List.append_nil, List.append_nil], hDx.symm⟩
    | cons c x =>
      have hc : P c = true := by
        apply hu
        rw [hux]
        exact List.mem_append_right _ List.mem_cons_self
      rw [hD c (by rw [hDx]; rfl)] at hc
      cases hc
  · exact ⟨q, hp, hrest⟩

/-- A part of identifier characters ends where the identifiers of `p` do. -/
theorem inside_of_last {p D u rest : Text} (h : p ++ D = u ++ rest)
    (hu : ∀ c ∈ u, isIdChar c = true) (hp : p ≠ []) (hends : Ends p) :
    ∃ q, p = u ++ q ∧ rest = q ++ D := by
  rcases List.append_eq_append_iff.mp h with ⟨x, hux, -⟩ | ⟨q, hp, hrest⟩
  · have hlast := hends _ (List.getLast?_eq_getLast_of_ne_nil hp)
    rw [hu _ (by rw [hux]; exact List.mem_append_left _ (List.getLast_mem hp))] at hlast
    cases hlast
  · exact ⟨q, hp, hrest⟩

/-- A part that takes no parenthesis, with the one behind it, ends before `D` or behind the first
opening one of `D`. -/
theorem inside_of_parens {p E F u rest : Text} (h : p ++ (E ++ '(' :: F) = u ++ ')' :: rest)
    (hu : '(' ∉ u) (hE : ')' ∉ E) : ∃ q, p = u ++ ')' :: q ∧ rest = q ++ (E ++ '(' :: F) := by
  rcases List.append_eq_append_iff.mp h with ⟨x, hux, hDx⟩ | ⟨q, hp, hrest⟩
  · rcases List.append_eq_append_iff.mp hDx with ⟨y, hxy, hy⟩ | ⟨y, hEy, hy⟩
    · cases y with
      | nil => exact absurd (List.cons.inj hy).1 (by decide)
      | cons c y =>
        obtain rfl : '(' = c := (List.cons.inj hy).1
        refine absurd ?_ hu
        rw [hux, hxy]
        exact List.mem_append_right _ (List.mem_append_right _ List.mem_cons_self)
    · cases y with
      | nil => exact absurd (List.cons.inj hy).1 (by decide)
      | cons c y =>
        obtain rfl : ')' = c := (List.cons.inj hy).1
        refine absurd ?_ hE
        rw [hEy]
        exact List.mem_append_right _ List.mem_cons_self
  · cases q with
    | nil =>
      -- the parenthesis would be the first of what is behind `p`
      cases E with
      | nil => exact absurd (List.cons.inj hrest).1 (by decide)
      | cons c E =>
        obtain rfl : ')' = c := (List.cons.inj hrest).1
        exact absurd List.mem_cons_self hE
    | cons c q =>
      obtain rfl : ')' = c := (List.cons.inj hrest).1
      exact ⟨q, hp, (List.cons.inj hrest).2⟩

/-! ## What a match of another binding leaves of a declaration -/

theorem mem_identifier {s : Text} {way : Text × Text} (h : way ∈ identifier s) :
    s = way.1 ++ way.2 ∧ (∀ c ∈ way.1, isIdChar c = true) ∧ way.1 ≠ [] := by
  cases s with
  | nil => cases h
  | cons c s =>
    rw [identifier] at h
    split at h
    case isTrue hc =>
      obtain ⟨way', hway', rfl⟩ := List.mem_map.mp h
      obtain ⟨hs, hall⟩ := mem_greedy hway'
      exact ⟨congrArg (c :: ·) hs, List.forall_mem_cons.mpr ⟨isIdChar_of_isIdStart hc, hall⟩,
        List.cons_ne_nil _ _⟩
    case isFalse => cases h

theorem mem_someSpaces {s : Text} {way : Text × Text} (h : way ∈ someSpaces s) :
    s = way.1 ++ way.2 ∧ (∀ c ∈ way.1, isSpace c = true) ∧ way.1 ≠ [] := by
  obtain ⟨hway, hne⟩ := List.mem_filter.mp h
  obtain ⟨hs, hall⟩ := mem_greedy hway
  exact ⟨hs, hall, bne_iff_ne.mp hne⟩

theorem mem_inParens {inside : Char → Bool} {s : Text} {way : Text × Text}
    (h : way ∈ inParens inside s) :
    s = '(' :: (way.1 ++ ')' :: way.2) ∧ ∀ c ∈ way.1, inside c = true := by
  unfold inParens at h
  obtain ⟨a, ha, h⟩ := List.mem_flatMap.mp h
  obtain ⟨b, hb, h⟩ := List.mem_flatMap.mp h
  obtain ⟨c, hc, rfl⟩ := List.mem_map.mp h
  obtain ⟨-, hs⟩ := mem_literal.mp ha
  obtain ⟨hab, hall⟩ := mem_greedy hb
  obtain ⟨-, hbc⟩ := mem_literal.mp hc
  exact ⟨by rw [hs, hab, hbc]; rfl, hall⟩

theorem IsName.ids {name : Text} (h : IsName name) : ∀ c ∈ name, isIdChar c = true := by
  obtain ⟨c, t, rfl, hstart, hids⟩ := h
  exact List.forall_mem_cons.mpr ⟨isIdChar_of_isIdStart hstart, hids⟩

theorem IsName.dropWhile_space {name : Text} (h : IsName name) (rest : Text) :
    (name ++ rest).dropWhile isSpace = name ++ rest := by
  obtain ⟨c, t, rfl, hstart, -⟩ := h
  rw [List.cons_append, List.dropWhile_cons_of_neg]
  rw [isSpace_of_isIdChar (isIdChar_of_isIdStart hstart)]
  decide

theorem IsName.append_ne {name : Text} (h : IsName name) (rest : Text) {rest' : Text} :
    name ++ rest ≠ '(' :: rest' := by
  obtain ⟨c, t, rfl, hstart, -⟩ := h
  intro heq
  obtain rfl : c = '(' := (List.cons.inj heq).1
  exact absurd hstart (by decide)

section Stops

variable {name p : Text} (d : Declaration name)

/-- What is left, of `p` and the declaration, is a smaller end of `p` and all of the declaration. -/
def LeavesAll (p rest : Text) : Prop := ∃ u q, u ≠ [] ∧ p = u ++ q ∧ rest = q ++ d.text

/-- A part that takes no `f` takes nothing of the declaration. -/
theorem head_not {P : Char → Bool} (h : P 'f' = false) : ∀ c ∈ d.text.head?, P c = false := by
  intro c hc
  obtain rfl : 'f' = c := Option.some.inj hc
  exact h

/-- A single character other than the first of the declaration. -/
theorem char_stops {c : Char} {rest : Text} (hc : c ≠ 'f') (h : p ++ d.text = c :: rest) :
    ∃ q, p = c :: q ∧ rest = q ++ d.text :=
  inside_of_head (P := fun x => x == c) (u := [c]) h
    (fun x hx => by rw [List.mem_singleton.mp hx]; exact beq_self_eq_true c)
    (head_not d (beq_eq_false_iff_ne.mpr hc.symm))

/-- The name of the declaration is no `(`. -/
theorem no_parens {u gap rest : Text} (hu : ∀ c ∈ u, isIdChar c = true)
    (hgap : ∀ c ∈ gap, isSpace c = true) : d.text ≠ u ++ (gap ++ '(' :: rest) := by
  intro h
  obtain ⟨e, gap', hgap'⟩ := List.exists_cons_of_ne_nil d.gap_ne_nil
  have hmem : e ∈ d.gap := hgap' ▸ List.mem_cons_self
  have he : isIdChar e = false := isIdChar_of_isSpace (d.gap_space e hmem)
  -- the same letters are read first, and the same white space behind them
  have hletters : d.text.dropWhile isIdChar = d.gap ++ (name ++ (d.gap' ++ '(' :: d.post)) := by
    rw [d.text_eq, List.dropWhile_append_of_pos function_ids, hgap', List.cons_append,
      List.dropWhile_cons_of_neg (by rw [he]; decide)]
  have hletters' : d.text.dropWhile isIdChar = gap ++ '(' :: rest := by
    rw [h, List.dropWhile_append_of_pos hu]
    cases gap with
    | nil => rfl
    | cons k gap =>
      rw [List.cons_append, List.dropWhile_cons_of_neg]
      rw [isIdChar_of_isSpace (hgap k List.mem_cons_self)]
      decide
  have hspaces := congrArg (List.dropWhile isSpace) (hletters.symm.trans hletters')
  rw [List.dropWhile_append_of_pos d.gap_space, List.dropWhile_append_of_pos hgap,
    d.isName.dropWhile_space] at hspaces
  exact d.isName.append_ne _ hspaces

variable (hp : p ≠ []) (hends : Ends p) (hreach : ¬ RunInto p)

include hp hends hreach in
theorem declared_stops {way : Text × Text} (h : way ∈ declared (p ++ d.text)) :
    LeavesAll d p way.2 := by
  unfold declared at h
  obtain ⟨a, ha, h⟩ := List.mem_flatMap.mp h
  obtain ⟨word, hword, ha⟩ := List.mem_flatMap.mp ha
  obtain ⟨b, hb, h⟩ := List.mem_flatMap.mp h
  obtain ⟨hne, hids⟩ := declarators_ids word hword
  obtain ⟨-, hs⟩ := mem_literal.mp ha
  obtain ⟨hab, hspace, hsome⟩ := mem_someSpaces hb
  obtain ⟨hbway, hname, -⟩ := mem_identifier h
  obtain ⟨q, rfl, hq⟩ := inside_of_last hs hids hp hends
  obtain ⟨r, rfl, hr⟩ := inside_of_head (hq.symm.trans hab) hspace (head_not d rfl)
  have hr_ne : r ≠ [] := by
    intro hnil
    rw [hnil, List.append_nil] at hreach
    exact hreach (.declarator [] hword hsome hspace)
  obtain ⟨t, rfl, ht⟩ := inside_of_last (hr.symm.trans hbway) hname hr_ne hends.right.right
  refine ⟨word ++ (b.1 ++ way.1), t, ?_, by simp only [List.append_assoc], ht⟩
  exact List.append_ne_nil_of_left_ne_nil hne _

include hp hends hreach in
theorem caught_stops {way : Text × Text} (h : way ∈ caught (p ++ d.text)) :
    LeavesAll d p way.2 := by
  simp only [caught, List.mem_flatMap] at h
  obtain ⟨a, ha, b, hb, c, hc, e, he, h⟩ := h
  obtain ⟨-, hs⟩ := mem_literal.mp ha
  obtain ⟨hab, hgap⟩ := mem_greedy hb
  obtain ⟨-, hbc⟩ := mem_literal.mp hc
  obtain ⟨hce, hgap'⟩ := mem_greedy he
  obtain ⟨heway, hname, -⟩ := mem_identifier h
  obtain ⟨q, rfl, hq⟩ := inside_of_last hs (List.all_eq_true.mp rfl) hp hends
  obtain ⟨r, rfl, hr⟩ := inside_of_head (hq.symm.trans hab) hgap (head_not d rfl)
  obtain ⟨t, rfl, ht⟩ := char_stops d (by decide) (hr.symm.trans hbc)
  obtain ⟨v, rfl, hv⟩ := inside_of_head (ht.symm.trans hce) hgap' (head_not d rfl)
  have hv_ne : v ≠ [] := by
    intro hnil
    rw [hnil, List.append_nil] at hreach
    exact hreach (.caught [] hgap hgap')
  have hends' : Ends v := by
    have : Ends ('(' :: (e.1 ++ v)) := hends.right.right
    exact Ends.right (q := '(' :: e.1) this
  obtain ⟨w, rfl, hw⟩ := inside_of_last (hv.symm.trans heway) hname hv_ne hends'
  refine ⟨"catch".toList ++ (b.1 ++ ('(' :: (e.1 ++ way.1))), w, List.cons_ne_nil _ _, ?_, hw⟩
  simp only [List.append_assoc, List.cons_append]

include hp hends hreach in
theorem generator_stops {way : Text × Text} (h : way ∈ generator (p ++ d.text)) :
    LeavesAll d p way.2 := by
  simp only [generator, List.mem_flatMap] at h
  obtain ⟨a, ha, b, hb, c, hc, e, he, f, hf, g, hg, h⟩ := h
  obtain ⟨-, hs⟩ := mem_literal.mp ha
  obtain ⟨hab, hgap⟩ := mem_greedy hb
  obtain ⟨-, hbc⟩ := mem_literal.mp hc
  obtain ⟨hce, hgap'⟩ := mem_greedy he
  obtain ⟨hef, hname⟩ := mem_greedy hf
  obtain ⟨hfg, hgap''⟩ := mem_greedy hg
  obtain ⟨hgway, hinside⟩ := mem_inParens h
  obtain ⟨q, rfl, hq⟩ := inside_of_last hs function_ids hp hends
  obtain ⟨r, rfl, hr⟩ := inside_of_head (hq.symm.trans hab) hgap (head_not d rfl)
  obtain ⟨t, rfl, ht⟩ := char_stops d (by decide) (hr.symm.trans hbc)
  obtain ⟨v, rfl, hv⟩ := inside_of_head (ht.symm.trans hce) hgap' (head_not d rfl)
  have hends' : Ends v := by
    have : Ends ('*' :: (e.1 ++ v)) := hends.right.right
    exact Ends.right (q := '*' :: e.1) this
  have hv_ne : v ≠ [] := by
    -- else `function` would be the name of the generator, with a parenthesis behind it
    intro hnil
    subst hnil
    exact no_parens d hname hgap'' (hv.symm.trans (hef.trans (congrArg (f.1 ++ ·) (hfg.trans
      (congrArg (g.1 ++ ·) hgway)))))
  obtain ⟨w, rfl, hw⟩ := inside_of_last (hv.symm.trans hef) hname hv_ne hends'
  obtain ⟨x, rfl, hx⟩ := inside_of_head (hw.symm.trans hfg) hgap'' (head_not d rfl)
  obtain ⟨y, rfl, hy⟩ := char_stops d (by decide) (hx.symm.trans hgway)
  -- the parameters are closed before the declaration
  rcases List.append_eq_append_iff.mp hy.symm with ⟨z, hyz, -⟩ | ⟨z, hyz, hz⟩
  · refine absurd (.generator [] hgap hgap' hname hgap'' fun hclose => ?_) hreach
    refine bne_iff_ne.mp (hinside ')' ?_) rfl
    rw [hyz]
    exact List.mem_append_left _ hclose
  · cases z with
    | nil => exact absurd (Option.some.inj (congrArg List.head? hz)) (by decide)
    | cons k z =>
      obtain rfl : ')' = k := (List.cons.inj hz).1
      refine ⟨"function".toList ++ (b.1 ++ ('*' :: (e.1 ++ (f.1 ++ (g.1 ++
        ('(' :: (way.1 ++ [')']))))))), z, List.cons_ne_nil _ _, ?_, (List.cons.inj hz).2⟩
      rw [hyz]
      simp only [List.append_assoc, List.cons_append, List.nil_append]

/-- A group of plain parentheses ends before the declaration. -/
theorem parens_stop {r u rest : Text} (h : r ++ d.text = '(' :: (u ++ ')' :: rest))
    (hu : ∀ c ∈ u, notParen c = true) :
    ∃ q, r = '(' :: (u ++ ')' :: q) ∧ rest = q ++ d.text := by
  have hclose : ')' ∉ "function".toList ++ (d.gap ++ (name ++ d.gap')) := by
    intro hmem
    rcases List.mem_append.mp hmem with hmem | hmem
    · exact absurd (function_ids _ hmem) (by decide)
    rcases List.mem_append.mp hmem with hmem | hmem
    · exact absurd (d.gap_space _ hmem) (by decide)
    rcases List.mem_append.mp hmem with hmem | hmem
    · exact absurd (d.isName.ids _ hmem) (by decide)
    · exact absurd (d.gap'_space _ hmem) (by decide)
  have htext : d.text = ("function".toList ++ (d.gap ++ (name ++ d.gap'))) ++ '(' :: d.post := by
    rw [d.text_eq]
    simp only [List.append_assoc]
  obtain ⟨q, rfl, hq⟩ := char_stops d (by decide) h
  rw [htext] at hq
  have hopen : '(' ∉ u := fun hmem => absurd (hu _ hmem) (by decide)
  obtain ⟨v, rfl, hv⟩ := inside_of_parens hq.symm hopen hclose
  exact ⟨v, rfl, htext ▸ hv⟩

theorem arrow_stops {way : Text × Text} (h : way ∈ arrow (p ++ d.text)) : LeavesAll d p way.2 := by
  unfold arrow at h
  obtain ⟨a, ha, h⟩ := List.mem_flatMap.mp h
  obtain ⟨b, hb, h⟩ := List.mem_flatMap.mp h
  obtain ⟨c, hc, rfl⟩ := List.mem_map.mp h
  obtain ⟨hs, hinside⟩ := mem_inParens ha
  obtain ⟨hab, hgap⟩ := mem_greedy hb
  obtain ⟨-, hbc⟩ := mem_literal.mp hc
  obtain ⟨q, rfl, hq⟩ := parens_stop d hs hinside
  obtain ⟨r, rfl, hr⟩ := inside_of_head (hq.symm.trans hab) hgap (head_not d rfl)
  obtain ⟨t, rfl, ht⟩ := char_stops d (c := '=') (by decide) (hr.symm.trans hbc)
  obtain ⟨v, rfl, hv⟩ := char_stops d (c := '>') (by decide) ht.symm
  refine ⟨'(' :: (a.1 ++ ')' :: (b.1 ++ "=>".toList)), v, List.cons_ne_nil _ _, ?_, hv⟩
  simp only [List.append_assoc, List.cons_append]
  rfl

include hp hends in
theorem method_stops {way : Text × Text × Text} (h : way ∈ method (p ++ d.text)) :
    LeavesAll d p way.2.2 := by
  simp only [method, List.mem_flatMap] at h
  obtain ⟨a, ha, b, hb, c, hc, e, he, h⟩ := h
  obtain ⟨f, hf, rfl⟩ := List.mem_map.mp h
  obtain ⟨hs, hname, hne⟩ := mem_identifier ha
  obtain ⟨hab, hgap⟩ := mem_greedy hb
  obtain ⟨hbc, hinside⟩ := mem_inParens hc
  obtain ⟨hce, hgap'⟩ := mem_greedy he
  obtain ⟨-, hef⟩ := mem_literal.mp hf
  obtain ⟨q, rfl, hq⟩ := inside_of_last hs hname hp hends
  obtain ⟨r, rfl, hr⟩ := inside_of_head (hq.symm.trans hab) hgap (head_not d rfl)
  obtain ⟨t, rfl, ht⟩ := parens_stop d (hr.symm.trans hbc) hinside
  obtain ⟨v, rfl, hv⟩ := inside_of_head (ht.symm.trans hce) hgap' (head_not d rfl)
  obtain ⟨w, rfl, hw⟩ := char_stops d (by decide) (hv.symm.trans hef)
  refine ⟨a.1 ++ (b.1 ++ '(' :: (c.1 ++ ')' :: (e.1 ++ ['\x7b']))), w,
    List.append_ne_nil_of_left_ne_nil hne _, ?_, hw⟩
  simp only [List.append_assoc, List.cons_append, List.nil_append]

include hp hends hreach in
/-- **No earlier match takes a part of the declaration.** -/
theorem bindingAt_stops {groups : List Text} {rest : Text}
    (h : bindingAt (p ++ d.text) = some (groups, rest)) : LeavesAll d p rest := by
  have hmem := List.mem_of_head? h
  rcases List.mem_append.mp hmem with hmem | hmem
  · rcases List.mem_append.mp hmem with hmem | hmem
    · obtain ⟨way, hway, heq⟩ := List.mem_map.mp hmem
      obtain ⟨-, rfl⟩ := Prod.mk.inj heq
      rcases List.mem_append.mp hway with hway | hway
      · rcases List.mem_append.mp hway with hway | hway
        · exact declared_stops d hp hends hreach hway
        · exact generator_stops d hp hends hreach hway
      · exact arrow_stops d hway
    · obtain ⟨way, hway, heq⟩ := List.mem_map.mp hmem
      obtain ⟨-, rfl⟩ := Prod.mk.inj heq
      exact method_stops d hp hends hway
  · obtain ⟨way, hway, heq⟩ := List.mem_map.mp hmem
    obtain ⟨-, rfl⟩ := Prod.mk.inj heq
    exact caught_stops d hp hends hreach hway

end Stops

/-! ## The declaration is read -/

section Reads

variable {name : Text} (d : Declaration name)

theorem identifier_first {rest : Text} (h : IsName name)
    (hrest : ∀ c ∈ rest.head?, isIdChar c = false) :
    (identifier (name ++ rest)).head? = some (name, rest) := by
  obtain ⟨c, t, rfl, hstart, hids⟩ := h
  show (identifier (c :: (t ++ rest))).head? = _
  rw [identifier, if_pos hstart, List.head?_map, first_greedy hids hrest]
  rfl

theorem someSpaces_first {gap rest : Text} (hgap : ∀ c ∈ gap, isSpace c = true) (hne : gap ≠ [])
    (hrest : ∀ c ∈ rest.head?, isSpace c = false) :
    (someSpaces (gap ++ rest)).head? = some (gap, rest) := by
  obtain ⟨ways, hways⟩ := List.head?_eq_some_iff.mp (first_greedy hgap hrest)
  rw [someSpaces, hways, List.filter_cons, if_pos (bne_iff_ne.mpr hne)]
  rfl

/-- The first way of the first form. -/
theorem declared_first : (declared d.text).head? = some (name, d.gap' ++ '(' :: d.post) := by
  have hname : ∀ c ∈ (name ++ (d.gap' ++ '(' :: d.post)).head?, isSpace c = false := by
    intro c hc
    have hstays := d.isName.dropWhile_space (d.gap' ++ '(' :: d.post)
    have hfirst := List.head?_dropWhile_not isSpace (name ++ (d.gap' ++ '(' :: d.post))
    rw [hstays, Option.mem_def.mp hc] at hfirst
    exact hfirst
  have hrest : ∀ c ∈ (d.gap' ++ '(' :: d.post).head?, isIdChar c = false := by
    intro c hc
    cases hgap : d.gap' with
    | nil =>
      rw [hgap] at hc
      obtain rfl : '(' = c := Option.some.inj hc
      decide
    | cons e gap' =>
      rw [hgap] at hc
      obtain rfl : e = c := Option.some.inj hc
      exact isIdChar_of_isSpace (d.gap'_space e (hgap ▸ List.mem_cons_self))
  have hword : (declarators.flatMap fun word => literal word d.text).head? =
      some ("function".toList, d.gap ++ (name ++ (d.gap' ++ '(' :: d.post))) := by
    have hwords : declarators = ["const".toList, "let".toList, "var".toList] ++
      "function".toList :: ["class".toList] := rfl
    refine first_flatMap hwords ?_ (congrArg List.head? (literal_append _ _))
    intro word hword
    rw [d.text_eq]
    rcases List.mem_cons.mp hword with rfl | hword
    · rfl
    rcases List.mem_cons.mp hword with rfl | hword
    · rfl
    · rw [List.mem_singleton.mp hword]
      rfl
  exact first_of_first hword (first_of_first (someSpaces_first d.gap_space d.gap_ne_nil hname)
    (identifier_first d.isName hrest))

theorem bindingAt_declaration : bindingAt d.text = some ([name], d.gap' ++ '(' :: d.post) := by
  simp only [bindingAt, List.map_append, List.append_assoc, List.head?_append, List.head?_map,
    declared_first d, Option.map_some, Option.some_or]

/-- The scan comes to the declaration, whatever it reads before. -/
theorem declaration_scanned {p : Text} (hends : Ends p) (hreach : ¬ RunInto p) {fuel : Nat}
    (hfuel : p.length < fuel) : [name] ∈ bindingsFrom fuel (p ++ d.text) := by
  induction fuel generalizing p with
  | zero => exact absurd hfuel (Nat.not_lt_zero _)
  | succ fuel ih =>
    cases p with
    | nil =>
      have hfirst := bindingAt_declaration d
      show [name] ∈ bindingsFrom (fuel + 1) d.text
      cases hd : d.text with
      | nil => exact absurd (congrArg List.head? hd) nofun
      | cons c s =>
        rw [hd] at hfirst
        rw [bindingsFrom, hfirst]
        exact List.mem_cons_self
    | cons c p =>
      -- one character on, or behind a match that leaves the declaration whole
      show [name] ∈ bindingsFrom (fuel + 1) (c :: (p ++ d.text))
      rw [bindingsFrom]
      rw [List.length_cons] at hfuel
      cases hfirst : bindingAt (c :: (p ++ d.text)) with
      | none =>
        refine ih (Ends.right (q := [c]) hends) (fun h => hreach (h.append [c])) (by omega)
      | some first =>
        obtain ⟨groups, rest⟩ := first
        have hmatch : bindingAt ((c :: p) ++ d.text) = some (groups, rest) := hfirst
        obtain ⟨u, q, hu, hp, rfl⟩ := bindingAt_stops d (List.cons_ne_nil c p) hends hreach hmatch
        have hlen := congrArg List.length hp
        have hpos := List.length_pos_iff.mpr hu
        rw [List.length_cons, List.length_append] at hlen
        rw [hp] at hends hreach
        exact List.mem_cons_of_mem _ (ih hends.right (fun h => hreach (h.append u)) (by omega))

end Reads

theorem trim_none {P : Char → Bool} {t : Text} (h : ∀ c ∈ t, P c = false) :
    t.dropWhile P = t ∧ t.rdropWhile P = t := by
  have hnone : ∀ l : Text, (∀ c ∈ l, P c = false) → l.dropWhile P = l := by
    intro l hl
    cases l with
    | nil => rfl
    | cons c l => exact List.dropWhile_cons_of_neg (by rw [hl c List.mem_cons_self]; decide)
  refine ⟨hnone t h, ?_⟩
  have hreverse := hnone t.reverse fun c hc => h c (List.mem_reverse.mp hc)
  rw [List.rdropWhile, hreverse, List.reverse_reverse]

/-- A name is its only name. -/
theorem namesOf_name (u : Unicode) {name : Text} (h : IsName name) (hdollar : '$' ∉ name) :
    namesOf u name = [name] := by
  have hne : name ≠ [] := by
    obtain ⟨c, t, rfl, -⟩ := h
    exact List.cons_ne_nil c t
  have hnot : ∀ c, isIdChar c = false → c ∉ name := by
    intro c hc hmem
    rw [h.ids c hmem] at hc
    cases hc
  have hequals : name.takeWhile (· != '=') = name := by
    apply List.takeWhile_eq_self_iff.mpr
    intro c hc
    exact bne_iff_ne.mpr (ne_of_mem_of_not_mem hc (hnot '=' (by decide)))
  have hspace := trim_none fun c hc => isSpace_of_isIdChar (h.ids c hc)
  have hdot := trim_none (P := (· == '.')) fun c hc =>
    beq_eq_false_iff_ne.mpr (ne_of_mem_of_not_mem hc (hnot '.' (by decide)))
  -- nothing of an identifier is trimmed off
  have hframe := trim_none (P := isFrame) (t := name) fun c hc => by
    cases hf : isFrame c with
    | false => rfl
    | true =>
      have hid := h.ids c hc
      unfold isFrame at hf
      simp only [Bool.or_eq_true, beq_iff_eq] at hf
      rcases hf with (((rfl | rfl) | rfl) | rfl) | rfl
      all_goals exact absurd hid (by decide)
  have hstrip : strip name = name := by
    rw [strip, lstrip, rstrip, hspace.2, hspace.1]
  have hcleaned : cleanedName name = name := by
    show ((((strip (name.takeWhile (· != '='))).dropWhile (· == '.')).rdropWhile isFrame).dropWhile
      isFrame) = name
    rw [hequals, hstrip, hdot.1, hframe.2, hframe.1]
  rw [namesOf, if_neg hne, List.splitOn_eq_singleton (hnot ',' (by decide)), List.map_singleton,
    hcleaned, List.filter_singleton, bne_iff_ne.mpr hne, u.isIdentifier_ascii name h hdollar]
  rfl

/-- **A declaration that no earlier match runs into binds its name.** -/
theorem boundIn_declared (u : Unicode) {code pre name : Text} (h : Declares code pre name)
    (hreach : ¬ RunInto pre) (hdollar : '$' ∉ name) : name ∈ boundIn u code := by
  obtain ⟨hends, d, rfl⟩ := h
  unfold boundIn
  refine List.mem_flatMap.mpr ⟨[name], declaration_scanned d hends hreach ?_, ?_⟩
  · rw [List.length_append]
    omega
  · rw [List.flatMap_singleton, namesOf_name u d.isName hdollar]
    exact List.mem_singleton_self name

/-! ## The project -/

/-- A file, as JavaScript reads it. -/
structure JsFile where
  path : Text
  pieces : List Piece
  reads : Reads pieces

def JsFile.source (f : JsFile) : SourceFile := ⟨f.path, textOf f.pieces⟩

/-- The names that are called outside of comments and literals. -/
def calledNames (u : Unicode) (fs : List JsFile) : List Text :=
  fs.flatMap fun f => (callsIn u f.path (codeOf f.pieces)).map (·.name)

theorem mem_reportedNames {bound : List Text} {calls : List Symbol} {name : Text}
    (h : name ∈ reportedNames bound calls) : name ∈ calls.map (·.name) ∧ name ∉ bound := by
  obtain ⟨hmem, hfree⟩ := List.mem_filter.mp ((List.mem_insertionSort _).mp h)
  simp only [Bool.and_eq_true, Bool.not_eq_true', List.contains_eq_mem,
    decide_eq_false_iff_not] at hfree
  exact ⟨List.mem_dedup.mp hmem, hfree.1.1⟩

section Project

variable (u : Unicode) {fs : List JsFile} (hclean : ∀ f ∈ fs, ∀ p ∈ f.pieces, p.Clean)

include hclean

theorem allCalls_names : (allCalls u (fs.map JsFile.source)).map (·.name) = calledNames u fs := by
  unfold allCalls calledNames
  rw [List.flatMap_map, List.map_flatMap]
  apply List.flatMap_congr
  intro f hf
  show (callsIn u f.path (stripJsNoise (textOf f.pieces))).map (·.name) = _
  rw [strip_eq_codeOf f.reads (hclean f hf)]

theorem mem_allBound {f : JsFile} (hf : f ∈ fs) {name : Text}
    (h : name ∈ boundIn u (codeOf f.pieces)) : name ∈ allBound u (fs.map JsFile.source) := by
  refine List.mem_flatMap.mpr ⟨f.source, List.mem_map_of_mem hf, ?_⟩
  show name ∈ boundIn u (stripJsNoise (textOf f.pieces))
  rw [strip_eq_codeOf f.reads (hclean f hf)]
  exact h

end Project

/-- A character that is code wherever it stands. -/
def isPlain (c : Char) : Bool := !isQuote c && c != '/'

theorem reads_code {t : Text} {ps : List Piece} (ht : t.all isPlain = true) (h : Reads ps) :
    Reads (t.map Piece.code ++ ps) := by
  induction t with
  | nil => exact h
  | cons c t ih =>
    rw [List.all_cons, Bool.and_eq_true, isPlain, Bool.and_eq_true] at ht
    obtain ⟨⟨hquote, hslash⟩, ht⟩ := ht
    exact ⟨(Bool.not_eq_true' _).mp hquote, fun hc => absurd hc (bne_iff_ne.mp hslash), ih ht⟩

def isLiteral : Piece → Bool
  | .literal _ _ => true
  | _ => false

theorem clean_of_not_literal {p : Piece} (h : isLiteral p = false) : p.Clean := by
  cases p with
  | literal quote body => cases h
  | code c => trivial
  | line t => trivial
  | block t => trivial

private def asciiUnicode : Unicode where
  isWord c := isIdChar c && c != '$'
  isIdentifier name := name.head?.any isIdStart && name.all fun c => isIdChar c && c != '$'
  isIdentifier_ascii name h hdollar := by
    have hall : name.all (fun c => isIdChar c && c != '$') = true := by
      apply List.all_eq_true.mpr
      intro c hc
      exact Bool.and_eq_true_iff.mpr ⟨h.ids c hc, bne_iff_ne.mpr (ne_of_mem_of_not_mem hc hdollar)⟩
    obtain ⟨c, t, rfl, hstart, -⟩ := h
    exact Bool.and_eq_true_iff.mpr ⟨hstart, hall⟩

/-- A file that calls `f`. -/
private def caller (path : Text) : JsFile where
  path := path
  pieces := "f()".toList.map Piece.code ++ []
  reads := reads_code rfl trivial

private theorem blank_ne_nil : [' '] ≠ [] := List.cons_ne_nil _ _

private theorem name_f : ∀ c ∈ ([] : Text), isIdChar c = true := List.forall_mem_nil _

private theorem no_gap : ∀ c ∈ ([] : Text), isSpace c = true := List.forall_mem_nil _

private def declarationF : Declaration ['f'] where
  gap := [' ']
  gap' := []
  post := "n) \x7b\x7d".toList
  isName := ⟨'f', [], rfl, rfl, name_f⟩
  gap_ne_nil := blank_ne_nil
  gap_space := List.all_eq_true.mp rfl
  gap'_space := no_gap

private def prose : Piece := .line " body (skip)".toList

/-- Prose about a call, and the declaration. -/
private def library : JsFile where
  path := "lib.js".toList
  pieces := prose :: ("\nfunction f(n) \x7b\x7d".toList.map Piece.code ++ [])
  reads := by
    refine ⟨by decide, fun d hd => ?_, reads_code rfl trivial⟩
    have hfirst : some '\n' = some d := hd
    exact (Option.some.inj hfirst).symm

private def libraryProject : List JsFile := [library, caller ['a'], caller ['b']]

private theorem libraryProject_calls :
    calledNames asciiUnicode libraryProject = [['f'], ['f'], ['f']] := by
  decide +kernel

private theorem libraryProject_plain :
    (libraryProject.all fun f => f.pieces.all fun p => !isLiteral p) = true := rfl

/-- The declaration is behind a literal with two slashes. -/
private def hidden : JsFile where
  path := "lib.js".toList
  pieces := "u=".toList.map Piece.code ++
    (.literal '\'' ['/', '/'] :: (";function f(n) \x7b\x7d".toList.map Piece.code ++ []))
  reads := by
    apply reads_code rfl
    exact ⟨rfl, by simp [IsBody], reads_code rfl trivial⟩

private def hiddenProject : List JsFile := [hidden, caller ['a'], caller ['b']]

private theorem hiddenProject_calls :
    calledNames asciiUnicode hiddenProject = [['f'], ['f'], ['f']] := by
  decide +kernel

private theorem hiddenProject_reported :
    (verifyHelpers asciiUnicode (hiddenProject.map JsFile.source)).length = 1 := by
  decide +kernel

end Shamsu.Verify.Helpers
