import Shamsu.Tools.CodeChunks
import Shamsu.Verify.Helpers

/-!
# Entities from SQL

`shamsu/prd/sql_schema.py`: every `CREATE TABLE` of a text is an entity, and every column of it a
field. The body of a statement is found by its parentheses and quotes, it is split at the commas
that are in neither, and what begins like a table constraint is no column.

A text is `Nested` if its quotes and parentheses close. `bodyFrom_nested` and `splitFrom_nested`
say that both scanners pass over such a text.
-/

namespace Shamsu.Prd

open Shamsu.Lib Shamsu.Py Shamsu.Llm Shamsu.Llm.Salvagers Shamsu.Tools
open Shamsu.Verify.Helpers (someSpaces)

/-- What the module asks of Python. -/
structure Sql where
  casing : Casing
  /-- `\w` and `\d`. -/
  isWord : Char → Bool
  isDigit : Char → Bool
  /-- `str.title`. -/
  title : Text → Text
  /-- `int(text)` and `float(text)`, or the `ValueError`. -/
  intOf : Text → Except Exn Int
  floatOf : Text → Except Exn Value

/-- `EntityFieldSpec`. -/
structure EntityField where
  name : Text
  djangoType : String
  kwargs : Dict

/-- `EntitySpec`. -/
structure Entity where
  name : Text
  fields : List EntityField
  relationships : List Text

/-! ## Names -/

/-- `_singularize`. -/
def singularize (casing : Casing) (name : Text) : Text :=
  let lowered := casing.lower name
  if "ies".toList.isSuffixOf lowered then name.take (name.length - 3) ++ ['y']
  else if ['s'].isSuffixOf lowered then name.dropLast
  else name

/-- `part[:1].upper() + part[1:]`, of letters and digits. -/
def capitalize : Text → Text
  | [] => []
  | c :: s => c.toUpper :: s

/-- `_to_pascal_case`. -/
def toPascalCase (text : Text) : Text :=
  (((text.splitOnP fun c => !c.isAlphanum).filter fun part => !part.isEmpty).map capitalize).flatten

/-- `name.removesuffix("_id") or name`. -/
def withoutId (name : Text) : Text :=
  if "_id".toList.isSuffixOf name ∧ name.length ≠ 3 then name.take (name.length - 3) else name

/-! ## Patterns -/

/-- `[A-Za-z0-9_]`, and with `IGNORECASE` four letters more. -/
def isNameChar (c : Char) : Bool := isNameStart c || ('0' ≤ c && c ≤ '9')

def isCaseless (c : Char) : Bool :=
  c == '\u0130' || c == '\u0131' || c == '\u017f' || c == '\u212a'

def isOpening (c : Char) : Bool := c == '"' || c == '\x60' || c == '['

def isClosing (c : Char) : Bool := c == '"' || c == '\x60' || c == ']'

/-- A character of a kind, if it is there. -/
def maybe (p : Char → Bool) : Text → Ways
  | [] => [([], [])]
  | c :: s => if p c then [([c], s), ([], c :: s)] else [([], c :: s)]

def identifier (start more : Char → Bool) : Text → Ways
  | [] => []
  | c :: s => if start c then (greedy more s).map fun way => (c :: way.1, way.2) else []

/-- A name, with or without quotes: the name. -/
def quotedName (start more : Char → Bool) (s : Text) : Ways :=
  (maybe isOpening s).flatMap fun a =>
    (identifier start more a.2).flatMap fun name =>
      (maybe isClosing name.2).map fun b => (name.1, b.2)

def caselessName : Text → Ways :=
  quotedName (fun c => isNameStart c || isCaseless c) (fun c => isNameChar c || isCaseless c)

/-- `(?:if\s+not\s+exists\s+)?`. -/
def ifNotExists (s : Text) : List Text :=
  ((anyCase "if" s).flatMap fun a =>
    (someSpaces a.2).flatMap fun b =>
      (anyCase "not" b.2).flatMap fun c =>
        (someSpaces c.2).flatMap fun d =>
          (anyCase "exists" d.2).flatMap fun e => (someSpaces e.2).map Prod.snd) ++ [s]

/-- `_CREATE_TABLE_RE`, after `\b`: the name, and the text from the parenthesis on. -/
def createTable (s : Text) : Matches (Text × Text) :=
  (anyCase "create" s).flatMap fun a =>
    (someSpaces a.2).flatMap fun b =>
      (anyCase "table" b.2).flatMap fun c =>
        (someSpaces c.2).flatMap fun d =>
          (ifNotExists d.2).flatMap fun e =>
            (caselessName e).flatMap fun name =>
              (greedy isSpace name.2).flatMap fun g =>
                (literal ['('] g.2).map fun h => ((name.1, '(' :: h.2), h.2)

/-- `_REFERENCES_RE`: the table. -/
def references (s : Text) : Matches Text :=
  (anyCase "references" s).flatMap fun a => (someSpaces a.2).flatMap fun b => caselessName b.2

/-- Two words with space between them. -/
def twoWords (first second : String) (s : Text) : Ways :=
  (anyCase first s).flatMap fun a =>
    (someSpaces a.2).flatMap fun b =>
      (anyCase second b.2).map fun c => (a.1 ++ (b.1 ++ c.1), c.2)

/-- `_ON_DELETE_RE`: the action. -/
def onDelete (s : Text) : Matches Text :=
  (twoWords "on" "delete" s).flatMap fun a =>
    (someSpaces a.2).flatMap fun b =>
      anyCase "cascade" b.2 ++ twoWords "set" "null" b.2 ++ twoWords "set" "default" b.2
        ++ anyCase "restrict" b.2 ++ twoWords "no" "action" b.2

/-- `'[^']*'`, and the value in it. -/
def quotedValue (s : Text) : Matches Text :=
  (literal ['\x27'] s).flatMap fun a =>
    (greedy (· != '\x27') a.2).flatMap fun value =>
      (literal ['\x27'] value.2).map fun b => (value.1, b.2)

/-- `_IN_CHOICES_RE`: the values. -/
def inChoices (s : Text) : Matches Text :=
  (anyCase "in" s).flatMap fun a =>
    (greedy isSpace a.2).flatMap fun b =>
      (literal ['('] b.2).flatMap fun c =>
        (greedy isSpace c.2).flatMap fun d =>
          (literal ['\x27'] d.2).flatMap fun e =>
            (greedy (· != ')') e.2).flatMap fun values =>
              (if values.1.getLast? = some '\x27' then (greedy isSpace values.2) else []).flatMap
                fun g => (literal [')'] g.2).map fun h => ('\x27' :: values.1, h.2)

/-- `_DEFAULT_RE`: the value. -/
def defaultClause (s : Text) : Matches Text :=
  let isPlain (c : Char) : Bool :=
    isNameChar c || isCaseless c || c == '.' || c == '+' || c == '-'
  (anyCase "default" s).flatMap fun a =>
    (someSpaces a.2).flatMap fun b =>
      (quotedValue b.2).map (fun way => ('\x27' :: (way.1 ++ ['\x27']), way.2))
        ++ (greedy isPlain b.2).filter fun way => !way.1.isEmpty

/-- `(?:…)\s*\(\s*(\d+)\s*`, and what follows. -/
def sized (isDigit : Char → Bool) (types : List String) (s : Text) : Ways :=
  (oneOf types s).flatMap fun a =>
    (greedy isSpace a.2).flatMap fun b =>
      (literal ['('] b.2).flatMap fun c =>
        (greedy isSpace c.2).flatMap fun d =>
          ((greedy isDigit d.2).filter fun way => !way.1.isEmpty).flatMap fun size =>
            (greedy isSpace size.2).map fun e => (size.1, e.2)

namespace Sql

variable (q : Sql)

/-- What a pattern that begins with `\b` finds at a place, behind a character. -/
def matchAt {α : Type} (pattern : Text → Matches α) (previous : Option Char) (s : Text) :
    Option (α × Text) :=
  if (previous.map q.isWord).getD false = (s.head?.map q.isWord).getD false then none
  else (pattern s).head?

/-- `finditer` of such a pattern. -/
def findWords {α : Type} (pattern : Text → Matches α) : Nat → Option Char → Text → List α
  | 0, _, _ => []
  | fuel + 1, previous, s =>
    match q.matchAt pattern previous s with
    | some (m, rest) =>
      m :: findWords pattern fuel ((s.take (s.length - rest.length)).getLast?.or previous) rest
    | none =>
      match s with
      | [] => []
      | c :: s => findWords pattern fuel (some c) s

/-- `search`. -/
def searchWord {α : Type} (pattern : Text → Matches α) (s : Text) : Option α :=
  (q.findWords pattern (s.length + 1) none s).head?

/-! ## The column -/

/-- `" ".join(fragment.split())`. -/
def cleaned (fragment : Text) : Text := join ' ' (words fragment)

/-- `_TABLE_CONSTRAINTS`. -/
def tableConstraints : List Text :=
  (["primary key", "foreign key", "unique", "check", "constraint", "index", "key ", "exclude"] :
    List String).map String.toList

/-- The fragment begins like a table constraint. -/
def isTableConstraint (cleaned : Text) : Bool :=
  tableConstraints.any fun marker => marker.isPrefixOf (q.casing.lower cleaned)

/-- `_SKIPPED_COLUMNS`. -/
def skippedColumns : List Text :=
  (["id", "created_at", "updated_at", "deleted_at"] : List String).map String.toList

/-- The name of the column and the rest, by `^…$`. -/
def nameAndRest (cleaned : Text) : Option (Text × Text) :=
  ((quotedName isNameStart isNameChar cleaned).flatMap fun name =>
    (someSpaces name.2).flatMap fun a =>
      ((greedy (· != '\n') a.2).filter fun rest =>
        decide (rest.1 ≠ [] ∧ (rest.2 = [] ∨ rest.2 = ['\n']))).map
          fun rest => (name.1, rest.1)).head?

/-- `_foreign_key_on_delete`. -/
def foreignKeyOnDelete (rest : Text) (nullable : Bool) : String :=
  match q.searchWord onDelete rest with
  | none => if nullable then "SET_NULL" else "CASCADE"
  | some action =>
    ([("cascade", "CASCADE"), ("set null", "SET_NULL"), ("set default", "SET_DEFAULT"),
      ("restrict", "PROTECT"), ("no action", "DO_NOTHING")].lookup
        (str (q.casing.lower (cleaned action)))).getD "CASCADE"

def maxLength (n : Int) : Dict := [("max_length".toList, .int n)]

def digits (max places : Int) : Dict :=
  [("max_digits".toList, .int max), ("decimal_places".toList, .int places)]

/-- The types without a size, by how they begin. -/
def unsizedTypes : List (List String × String × Dict) :=
  [(["varchar", "character varying", "nvarchar", "char"], "CharField", maxLength 200),
    (["decimal", "numeric", "money"], "DecimalField", digits 12 2),
    (["text"], "TextField", []),
    (["timestamp", "datetime"], "DateTimeField", []),
    (["date"], "DateField", []),
    (["time"], "TimeField", []),
    (["boolean", "bool", "bit"], "BooleanField", []),
    (["smallint", "integer", "int", "bigint", "serial", "bigserial"], "IntegerField", []),
    (["float", "double", "real"], "FloatField", []),
    (["json", "jsonb"], "JSONField", []),
    (["uuid"], "UUIDField", [])]

/-- `_django_type_for`. -/
def djangoTypeFor (rest : Text) : Except Exn (String × Dict) :=
  let lowered := q.casing.lower rest
  let varchar := (sized q.isDigit ["varchar", "character varying", "nvarchar", "char"]
    lowered).flatMap fun size => (literal [')'] size.2).map fun _ => size.1
  let numeric := (sized q.isDigit ["decimal", "numeric"] lowered).flatMap fun size =>
    (literal [','] size.2).flatMap fun a =>
      (greedy isSpace a.2).flatMap fun b =>
        ((greedy q.isDigit b.2).filter fun way => !way.1.isEmpty).flatMap fun places =>
          (greedy isSpace places.2).flatMap fun c =>
            (literal [')'] c.2).map fun _ => (size.1, places.1)
  match varchar.head?, numeric.head? with
  | some size, _ => do
    let n ← q.intOf size
    pure ("CharField", maxLength n)
  | none, some (size, places) => do
    let n ← q.intOf size
    let m ← q.intOf places
    pure ("DecimalField", digits n m)
  | none, none =>
    let begins (prefixes : List String) : Bool :=
      prefixes.any fun start => start.toList.isPrefixOf lowered
    match unsizedTypes.find? fun row => begins row.1 with
    | some (_, djangoType, kwargs) => pure (djangoType, kwargs)
    | none => pure ("CharField", maxLength 200)

/-- `_choices_from_check`. -/
def choicesFromCheck (rest : Text) : List (Text × Text) :=
  if (find "check".toList (q.casing.lower rest)).isSome then
    match q.searchWord inChoices rest with
    | none => []
    | some values =>
      ((findAll quotedValue values).filter fun m => m.2 != []).map fun m =>
        (m.2, q.title (replace ['_'] [' '] m.2))
  else []

/-- `_default_value`. -/
def defaultValue (rest : Text) (djangoType : String) : Option Value :=
  (q.searchWord defaultClause rest).bind fun value =>
    let raw := strip value
    let lowered := q.casing.lower raw
    if str lowered ∈ ["null", "current_timestamp", "now"] ∨ raw.getLast? = some '(' then none
    else if raw.head? = some '\x27' ∧ raw.getLast? = some '\x27' then some (.str raw.tail.dropLast)
    else if str lowered ∈ ["true", "false"] then some (.bool (str lowered == "true"))
    else if djangoType ∈ ["IntegerField", "FloatField", "DecimalField"] then
      if '.' ∈ raw then (q.floatOf raw).toOption else (q.intOf raw).toOption.map .int
    else none

/-- `\bunique\b`. -/
def isUnique (rest : Text) : Bool :=
  (q.searchWord (fun s => (literal "unique".toList s).filter fun way =>
    !(way.2.head?.map q.isWord).getD false) (q.casing.lower rest)).isSome

/-- `null=True, blank=True`. -/
def nullBlank (nullable : Bool) : Dict :=
  if nullable then [("null".toList, .bool true), ("blank".toList, .bool true)] else []

/-- The field of a reference to another table. -/
def foreignKey (name rest table : Text) (nullable : Bool) : EntityField where
  name := withoutId name
  djangoType := "ForeignKey"
  kwargs := [("to".toList, .str (toPascalCase (singularize q.casing table))),
    ("on_delete".toList, .str (q.foreignKeyOnDelete rest nullable).toList)] ++ nullBlank nullable

/-- The field of any other column, which has its type. -/
def plainField (name rest : Text) (nullable : Bool) (described : String × Dict) : EntityField :=
  let choices := q.choicesFromCheck rest
  let (djangoType, kwargs) := if choices = [] then described
    else ("CharField", maxLength ((choices.map fun choice => choice.1.length).foldr max 0 + 10)
      ++ [("choices".toList,
        .list (choices.map fun choice => .list [.str choice.1, .str choice.2]))])
  { name, djangoType,
    kwargs := kwargs ++ nullBlank (nullable && djangoType != "BooleanField")
      ++ (if q.isUnique rest then [("unique".toList, .bool true)] else [])
      ++ (((q.defaultValue rest djangoType).map fun v => ("default".toList, v)).toList) }

/-- `_parse_column`. -/
def parseColumn (fragment : Text) : Except Exn (Option EntityField) :=
  if q.isTableConstraint (cleaned fragment) then .ok none
  else match nameAndRest (cleaned fragment) with
    | none => .ok none
    | some (name, rest) =>
      let restLower := q.casing.lower rest
      if q.casing.lower name ∈ skippedColumns ∨ (find "primary key".toList restLower).isSome then
        .ok none
      else
        let nullable := (find "not null".toList restLower).isNone
        match q.searchWord references rest with
        | some table => .ok (some (q.foreignKey name rest table nullable))
        | none => (q.djangoTypeFor rest).map fun described =>
            some (q.plainField name rest nullable described)

/-! ## The table -/

def isQuote (c : Char) : Bool := c == '\x27' || c == '"'

/-- `_balanced_body`, in parentheses of a depth and in a quote. -/
def bodyFrom : Nat → Option Char → Text → Option Text
  | _, _, [] => none
  | depth, some quote, c :: s =>
    (bodyFrom depth (if c = quote then none else some quote) s).map (c :: ·)
  | depth, none, c :: s =>
    if isQuote c then (bodyFrom depth (some c) s).map (c :: ·)
    else if c = '(' then (bodyFrom (depth + 1) none s).map (c :: ·)
    else if c = ')' then
      if depth = 1 then some [] else (bodyFrom (depth - 1) none s).map (c :: ·)
    else (bodyFrom depth none s).map (c :: ·)

def balancedBody (s : Text) : Option Text := (bodyFrom 0 none s).map List.tail

/-- `_split_top_level`, with what is read of the part. -/
def splitFrom : Int → Option Char → Text → Text → List Text
  | _, _, current, [] => [strip current]
  | depth, some quote, current, c :: s =>
    splitFrom depth (if c = quote then none else some quote) (current ++ [c]) s
  | depth, none, current, c :: s =>
    if isQuote c then splitFrom depth (some c) (current ++ [c]) s
    else if c = ',' ∧ depth = 0 then strip current :: splitFrom depth none [] s
    else splitFrom (if c = '(' then depth + 1 else if c = ')' then depth - 1 else depth) none
      (current ++ [c]) s

def splitTopLevel (body : Text) : List Text :=
  (splitFrom 0 none [] body).filter fun part => part != []

/-- `_entity_from_table`. -/
def entityFromTable (tableName body : Text) : Except Exn (Option Entity) := do
  let columns ← (splitTopLevel body).mapM q.parseColumn
  let fields := columns.filterMap id
  let target (field : EntityField) : Option Text :=
    if field.djangoType = "ForeignKey" then
      match dictGet field.kwargs "to" with
      | some (.str table) => some ("belongs_to:".toList ++ table)
      | _ => none
    else none
  if fields = [] then pure none
  else pure (some ⟨toPascalCase (singularize q.casing tableName), fields,
    fields.filterMap target⟩)

/-- The statements one after another, with the names that are `seen`. -/
def entitiesFrom (seen : List Text) : List (Text × Text) → Except Exn (List Entity)
  | [] => .ok []
  | (name, s) :: statements =>
    match balancedBody s with
    | none => entitiesFrom seen statements
    | some body => do
      match ← q.entityFromTable name body with
      | none => entitiesFrom seen statements
      | some entity =>
        let key := q.casing.lower entity.name
        if key ∈ seen then entitiesFrom seen statements
        else
          let entities ← entitiesFrom (key :: seen) statements
          pure (entity :: entities)

/-- `entities_from_sql`. -/
def entitiesFromSql (text : Text) : Except Exn (List Entity) :=
  q.entitiesFrom [] (q.findWords createTable (text.length + 1) none text)

end Sql

/-! ## Texts whose quotes and parentheses close -/

/-- `deep`: the commas do not separate. -/
inductive Nested : Bool → Text → Prop where
  | nil {deep : Bool} : Nested deep []
  | char {deep : Bool} {c : Char} {s : Text} (hc : Sql.isQuote c = false ∧ c ≠ '(' ∧ c ≠ ')')
      (hcomma : c = ',' → deep = true) (hs : Nested deep s) : Nested deep (c :: s)
  | quoted {deep : Bool} {quote : Char} {value s : Text} (hquote : Sql.isQuote quote = true)
      (hvalue : quote ∉ value) (hs : Nested deep s) : Nested deep (quote :: (value ++ quote :: s))
  | paren {deep : Bool} {inner s : Text} (hinner : Nested true inner) (hs : Nested deep s) :
      Nested deep ('(' :: (inner ++ ')' :: s))

namespace Nested

theorem append {deep : Bool} {s t : Text} (hs : Nested deep s) (ht : Nested deep t) :
    Nested deep (s ++ t) := by
  induction hs with
  | nil => exact ht
  | char hc hcomma _ ih => exact .char hc hcomma (ih ht)
  | quoted hquote hvalue _ ih =>
    rw [List.cons_append, List.append_assoc, List.cons_append]
    exact .quoted hquote hvalue (ih ht)
  | paren hinner _ _ ih =>
    rw [List.cons_append, List.append_assoc, List.cons_append]
    exact .paren hinner (ih ht)

theorem of_plain {deep : Bool} {s : Text}
    (h : ∀ c ∈ s, Sql.isQuote c = false ∧ c ≠ '(' ∧ c ≠ ')' ∧ c ≠ ',') : Nested deep s := by
  induction s with
  | nil => exact .nil
  | cons c s ih =>
    obtain ⟨hc, hs⟩ := List.forall_mem_cons.mp h
    exact .char ⟨hc.1, hc.2.1, hc.2.2.1⟩ (fun he => absurd he hc.2.2.2) (ih hs)

theorem deepen {deep : Bool} {s : Text} (h : Nested deep s) : Nested true s := by
  induction h with
  | nil => exact .nil
  | char hc _ _ ih => exact .char hc (fun _ => rfl) ih
  | quoted hquote hvalue _ ih => exact .quoted hquote hvalue ih
  | paren hinner _ _ ih => exact .paren hinner ih

end Nested

namespace Sql

/-- In a quote nothing counts but its end. -/
theorem bodyFrom_quoted {quote : Char} {value : Text} (h : quote ∉ value) (depth : Nat)
    (rest : Text) : bodyFrom depth (some quote) (value ++ quote :: rest)
      = (bodyFrom depth none rest).map (value ++ quote :: ·) := by
  induction value with
  | nil => rw [List.nil_append, bodyFrom, if_pos rfl]; rfl
  | cons c value ih =>
    obtain ⟨hc, hvalue⟩ := not_or.mp (List.mem_cons.not.mp h)
    rw [List.cons_append, bodyFrom, if_neg (fun he => hc he.symm), ih hvalue, Option.map_map]
    rfl

/-- `_balanced_body` passes over what is nested. -/
theorem bodyFrom_nested {deep : Bool} {s : Text} (h : Nested deep s) :
    ∀ (depth : Nat) (rest : Text), bodyFrom (depth + 1) none (s ++ rest)
      = (bodyFrom (depth + 1) none rest).map (s ++ ·) := by
  induction h with
  | nil =>
    intro depth rest
    show _ = (bodyFrom (depth + 1) none rest).map id
    rw [Option.map_id]
    rfl
  | char hc _ _ ih =>
    intro depth rest
    rw [List.cons_append, bodyFrom, if_neg (by rw [hc.1]; exact Bool.false_ne_true),
      if_neg hc.2.1, if_neg hc.2.2, ih, Option.map_map]
    rfl
  | @quoted _ quote value s hquote hvalue _ ih =>
    intro depth rest
    rw [List.cons_append, List.append_assoc, List.cons_append, bodyFrom, if_pos hquote,
      bodyFrom_quoted hvalue, ih, Option.map_map, Option.map_map]
    congr 1
    funext t
    show quote :: (value ++ quote :: (s ++ t)) = quote :: (value ++ quote :: s) ++ t
    rw [List.cons_append, List.append_assoc, List.cons_append]
  | @paren _ inner s _ _ ihinner ih =>
    intro depth rest
    have hclose : bodyFrom (depth + 2) none (')' :: (s ++ rest))
        = (bodyFrom (depth + 1) none (s ++ rest)).map (')' :: ·) := by
      rw [bodyFrom, if_neg (by decide), if_neg (by decide), if_pos rfl, if_neg (by omega)]
      rfl
    rw [List.cons_append, List.append_assoc, List.cons_append, bodyFrom, if_neg (by decide),
      if_pos rfl, ihinner, hclose, ih, Option.map_map, Option.map_map, Option.map_map]
    congr 1
    funext t
    show '(' :: (inner ++ ')' :: (s ++ t)) = '(' :: (inner ++ ')' :: s) ++ t
    rw [List.cons_append, List.append_assoc, List.cons_append]

/-- The body of a statement is what is between its parentheses. -/
theorem balancedBody_nested {body : Text} (h : Nested true body) (rest : Text) :
    balancedBody ('(' :: (body ++ ')' :: rest)) = some body := by
  unfold balancedBody
  rw [bodyFrom, if_neg (by decide), if_pos rfl, bodyFrom_nested h, bodyFrom,
    if_neg (by decide), if_neg (by decide), if_pos rfl, if_pos rfl]
  show some (body ++ []) = _
  rw [List.append_nil]

theorem splitFrom_quoted {quote : Char} {value : Text} (h : quote ∉ value) (depth : Int)
    (current rest : Text) : splitFrom depth (some quote) current (value ++ quote :: rest)
      = splitFrom depth none (current ++ (value ++ [quote])) rest := by
  induction value generalizing current with
  | nil => rw [List.nil_append, splitFrom, if_pos rfl]; rfl
  | cons c value ih =>
    obtain ⟨hc, hvalue⟩ := not_or.mp (List.mem_cons.not.mp h)
    rw [List.cons_append, splitFrom, if_neg (fun he => hc he.symm), ih hvalue, List.append_assoc]
    rfl

/-- `_split_top_level` passes over what is nested, where its commas do not separate. -/
theorem splitFrom_nested {deep : Bool} {s : Text} (h : Nested deep s) :
    ∀ (depth : Int) (current rest : Text), 0 ≤ depth → (deep = true → 0 < depth) →
      splitFrom depth none current (s ++ rest) = splitFrom depth none (current ++ s) rest := by
  induction h with
  | nil =>
    intro depth current rest _ _
    rw [List.append_nil]
    rfl
  | @char deep c s hc hcomma _ ih =>
    intro depth current rest hnonneg hdeep
    have hin : ¬ (c = ',' ∧ depth = 0) := by
      rintro ⟨hc, hdepth⟩
      have := hdeep (hcomma hc)
      omega
    rw [List.cons_append, splitFrom, if_neg (by rw [hc.1]; exact Bool.false_ne_true), if_neg hin,
      if_neg hc.2.1, if_neg hc.2.2, ih _ _ _ hnonneg hdeep, List.append_assoc]
    rfl
  | @quoted _ quote value s hquote hvalue _ ih =>
    intro depth current rest hnonneg hdeep
    rw [List.cons_append, List.append_assoc, List.cons_append, splitFrom, if_pos hquote,
      splitFrom_quoted hvalue, ih _ _ _ hnonneg hdeep]
    simp only [List.append_assoc, List.cons_append, List.nil_append]
  | @paren _ inner s _ _ ihinner ih =>
    intro depth current rest hnonneg hdeep
    have hopen : ¬ (('(' : Char) = ',' ∧ depth = 0) := fun h => absurd h.1 (by decide)
    have hclose : ¬ ((')' : Char) = ',' ∧ depth + 1 = 0) := fun h => absurd h.1 (by decide)
    rw [List.cons_append, List.append_assoc, List.cons_append, splitFrom, if_neg (by decide),
      if_neg hopen, if_pos rfl, ihinner _ _ _ (by omega) (fun _ => by omega), splitFrom,
      if_neg (by decide), if_neg hclose, if_neg (by decide), if_pos rfl, Int.add_sub_cancel,
      ih _ _ _ hnonneg hdeep]
    simp only [List.append_assoc, List.cons_append, List.nil_append]

/-- Parts without a comma at the top are split where they were joined. -/
theorem splitTopLevel_join {parts : List Text} (hnested : ∀ part ∈ parts, Nested false part)
    (hfilled : ∀ part ∈ parts, strip part ≠ []) :
    splitTopLevel (join ',' parts) = parts.map strip := by
  unfold splitTopLevel
  have hkept : ∀ l : List Text, (∀ part ∈ l, strip part ≠ []) →
      (l.map strip).filter (fun part => part != []) = l.map strip := by
    intro l hl
    apply List.filter_eq_self.mpr
    intro part hpart
    obtain ⟨part', hpart', rfl⟩ := List.mem_map.mp hpart
    exact bne_iff_ne.mpr (hl part' hpart')
  cases parts with
  | nil => rfl
  | cons part parts =>
    rw [← hkept (part :: parts) hfilled]
    congr 1
    clear hfilled hkept
    induction parts generalizing part with
    | nil =>
      have hpart := splitFrom_nested (hnested part List.mem_cons_self) 0 [] [] (Int.le_refl 0)
        (fun h => by cases h)
      rw [join_singleton]
      rw [List.append_nil, List.nil_append] at hpart
      exact hpart
    | cons next parts ih =>
      obtain ⟨hpart, hparts⟩ := List.forall_mem_cons.mp hnested
      rw [join_cons_cons, splitFrom_nested hpart 0 [] _ (Int.le_refl 0) (fun h => by cases h), splitFrom,
        if_neg (by decide), if_pos ⟨rfl, rfl⟩, ih next hparts]
      rfl

end Sql

end Shamsu.Prd
