import Shamsu.Prd.SqlSchema

/-!
# Statements that are read back

Tables and columns as they are written into a text (`Table`, `Column`), and what
`entities_from_sql` makes of them. `entitiesFromSql_iff`: of a text in which the pattern of
`CREATE TABLE` matches at its statements only, it makes one entity a table and one field a column,
in order, exactly if every table has columns, no two have one name in another case, and no column
is taken for a constraint, is skipped, says `primary key` or has a size that cannot be read.
-/

namespace Shamsu.Prd

open Shamsu.Lib Shamsu.Py Shamsu.Llm Shamsu.Llm.Salvagers Shamsu.Tools
open Shamsu.Verify.Helpers (someSpaces mem_someSpaces someSpaces_first isSpace_of_isIdChar)

/-! ## What is written -/

inductive Quoting where
  | bare
  | double
  | tick
  | bracket
  deriving DecidableEq, Repr

def Quoting.opening : Quoting → Text
  | .bare => []
  | .double => ['"']
  | .tick => ['\x60']
  | .bracket => ['[']

def Quoting.closing : Quoting → Text
  | .bare => []
  | .double => ['"']
  | .tick => ['\x60']
  | .bracket => [']']

def Quoting.around (quoting : Quoting) (name : Text) : Text :=
  quoting.opening ++ (name ++ quoting.closing)

def IsIdentifier (name : Text) : Prop :=
  ∃ c s, name = c :: s ∧ isNameStart c = true ∧ ∀ d ∈ s, isNameChar d = true

def IsBlank (s : Text) : Prop := ∀ c ∈ s, isSpace c = true

instance (s : Text) : Decidable (IsBlank s) := List.decidableBAll _ s

/-- The word, in upper or lower case. -/
def Spelled (word : String) (s : Text) : Prop :=
  List.Forall₂ (fun p c => ignoresAnyCase p c = true) word.toList s

/-- A column: its name, and its type with what comes after it. -/
structure Column where
  before : Text
  quoting : Quoting
  name : Text
  gap : Text
  rest : Text
  after : Text
  blank : IsBlank before ∧ IsBlank gap ∧ IsBlank after
  separated : gap ≠ []
  isName : IsIdentifier name
  stated : ¬ IsBlank rest
  nested : Nested false rest

def Column.text (c : Column) : Text :=
  c.before ++ (c.quoting.around c.name ++ (c.gap ++ (c.rest ++ c.after)))

/-- `IF NOT EXISTS`, or nothing. -/
def IsGuard (s : Text) : Prop :=
  s = [] ∨ ∃ first gap₁ second gap₂ third gap₃, Spelled "if" first ∧ Spelled "not" second ∧
    Spelled "exists" third ∧ (IsBlank gap₁ ∧ gap₁ ≠ []) ∧ (IsBlank gap₂ ∧ gap₂ ≠ []) ∧
    (IsBlank gap₃ ∧ gap₃ ≠ []) ∧ s = first ++ (gap₁ ++ (second ++ (gap₂ ++ (third ++ gap₃))))

structure Table where
  create : Text
  gap₁ : Text
  table : Text
  gap₂ : Text
  guard : Text
  quoting : Quoting
  name : Text
  gap₃ : Text
  columns : List Column
  spelled : Spelled "create" create ∧ Spelled "table" table
  spaced : (IsBlank gap₁ ∧ gap₁ ≠ []) ∧ (IsBlank gap₂ ∧ gap₂ ≠ []) ∧ IsBlank gap₃
  guarded : IsGuard guard
  isName : IsIdentifier name

namespace Table

def head (t : Table) : Text :=
  t.create ++ (t.gap₁ ++ (t.table ++ (t.gap₂ ++ (t.guard ++ (t.quoting.around t.name ++ t.gap₃)))))

def body (t : Table) : Text := join ',' (t.columns.map Column.text)

/-- The statement, with the text behind it. -/
def before (t : Table) (rest : Text) : Text := t.head ++ '(' :: (t.body ++ ')' :: rest)

end Table

/-- Tables, each with the prose in front of it. -/
abbrev Script := List (Text × Table)

/-- The text of a script, with the prose after the last table. -/
def Script.text : Script → Text → Text
  | [], tail => tail
  | (prose, t) :: script, tail => prose ++ t.before (Script.text script tail)

/-- What the pattern of `CREATE TABLE` is to find in it. -/
def Script.heads : Script → Text → List (Text × Text)
  | [], _ => []
  | (_, t) :: script, tail =>
    (t.name, '(' :: (t.body ++ ')' :: Script.text script tail)) :: Script.heads script tail

namespace Sql

variable (q : Sql)

/-- No `CREATE TABLE` begins in `s`, between a character and a text. -/
def quiet : Option Char → Text → Text → Bool
  | _, [], _ => true
  | previous, c :: s, after =>
    (q.matchAt createTable previous (c :: (s ++ after))).isNone && quiet (some c) s after

/-- The pattern matches nowhere but at the tables, and these begin where a word can begin. -/
def alone : Option Char → Script → Text → Bool
  | previous, [], tail => q.quiet previous tail []
  | previous, (prose, t) :: script, tail =>
    let rest := Script.text script tail
    q.quiet previous prose (t.before rest)
      && ((prose.getLast?.or previous).map q.isWord).getD false != (t.head.head?.map q.isWord).getD false
      && q.quiet (some '(') (t.body ++ [')']) rest && alone (some ')') script tail

/-- The column is none of those that are left out, and its size can be read. -/
structure Kept (c : Column) : Prop where
  column : q.isTableConstraint (cleaned c.text) = false
  unskipped : q.casing.lower c.name ∉ skippedColumns
  secondary : find "primary key".toList (q.casing.lower (cleaned c.rest)) = none
  readable : q.searchWord references (cleaned c.rest) = none →
    ∃ described, q.djangoTypeFor (cleaned c.rest) = .ok described

/-- The field of a column has its name, or is a foreign key and has it without `_id`. -/
def IsFieldOf (c : Column) (field : EntityField) : Prop :=
  field.name = c.name ∨ (field.djangoType = "ForeignKey" ∧ field.name = withoutId c.name)

def entityName (t : Table) : Text := toPascalCase (singularize q.casing t.name)

/-- The entity of a table: a field for each column, in order. -/
def IsEntityOf (t : Table) (e : Entity) : Prop :=
  e.name = q.entityName t ∧ List.Forall₂ IsFieldOf t.columns e.fields

/-- Two tables whose names differ in case only are one. -/
def key (t : Table) : Text := q.casing.lower (q.entityName t)

end Sql

/-! ## Words -/

theorem isSpace_of_nameChar {c : Char} (h : isNameChar c = true) : isSpace c = false := by
  apply isSpace_of_isIdChar
  unfold isNameChar isNameStart at h
  unfold Verify.Helpers.isIdChar Verify.Helpers.isIdStart
  simp only [Bool.or_eq_true] at h ⊢
  tauto

theorem IsIdentifier.nameChars {name : Text} (h : IsIdentifier name) :
    ∀ c ∈ name, isNameChar c = true := by
  obtain ⟨c, s, rfl, hc, hs⟩ := h
  refine List.forall_mem_cons.mpr ⟨?_, hs⟩
  rw [isNameChar, hc]
  rfl

theorem Quoting.not_space (quoting : Quoting) {name : Text} (h : IsIdentifier name) :
    ∀ c ∈ quoting.around name, isSpace c = false := by
  have hmarks : ∀ c ∈ quoting.opening ++ quoting.closing, isSpace c = false := by
    cases quoting <;> decide
  obtain ⟨hopening, hclosing⟩ := List.forall_mem_append.mp hmarks
  exact List.forall_mem_append.mpr ⟨hopening, List.forall_mem_append.mpr
    ⟨fun c hc => isSpace_of_nameChar (h.nameChars c hc), hclosing⟩⟩

theorem words_append (s t : Text) {c : Char} (hc : isSpace c = true) :
    words (s ++ c :: t) = words s ++ words t := by
  unfold words
  rw [List.splitOnP_append_cons s t hc, List.filter_append]

theorem words_blank {s : Text} (h : IsBlank s) : words s = [] := by
  induction s with
  | nil => rfl
  | cons c s ih =>
    obtain ⟨hc, hs⟩ := List.forall_mem_cons.mp h
    exact (words_append [] s hc).trans (ih hs)

theorem words_pad {before after : Text} (hbefore : IsBlank before) (hafter : IsBlank after)
    (s : Text) : words (before ++ (s ++ after)) = words s := by
  induction before with
  | nil =>
    cases after with
    | nil => rw [List.append_nil]; rfl
    | cons c after =>
      obtain ⟨hc, hafter⟩ := List.forall_mem_cons.mp hafter
      rw [List.nil_append, words_append s after hc, words_blank hafter, List.append_nil]
  | cons c before ih =>
    obtain ⟨hc, hbefore⟩ := List.forall_mem_cons.mp hbefore
    exact (words_append [] _ hc).trans (ih hbefore)

theorem words_strip (s : Text) : words (strip s) = words s := by
  obtain ⟨before, after, hs, hbefore, hafter⟩ := exists_strip s
  conv_rhs => rw [hs, words_pad hbefore hafter]

theorem words_word {u : Text} (hu : ∀ c ∈ u, isSpace c = false) (hne : u ≠ []) :
    words u = [u] := by
  unfold words
  rw [List.splitOnP_eq_singleton hu, List.filter_cons_of_pos (by simpa using hne)]
  rfl

/-- A word and a gap are taken off. -/
theorem words_cons {word gap : Text} (hword : ∀ c ∈ word, isSpace c = false) (hne : word ≠ [])
    (hgap : IsBlank gap) (hgapne : gap ≠ []) (s : Text) :
    words (word ++ (gap ++ s)) = word :: words s := by
  cases gap with
  | nil => exact absurd rfl hgapne
  | cons c gap =>
    obtain ⟨hc, hgap⟩ := List.forall_mem_cons.mp hgap
    have hmore := @words_pad gap [] hgap nofun s
    rw [List.append_nil] at hmore
    rw [List.cons_append, words_append _ _ hc, hmore, words_word hword hne]
    rfl

/-- Letters in front are in the first word. -/
theorem words_head {u : Text} (hu : ∀ c ∈ u, isSpace c = false) (hne : u ≠ []) (rest : Text) :
    ∃ v more, words (u ++ rest) = (u ++ v) :: more := by
  induction rest generalizing u with
  | nil => exact ⟨[], [], by rw [List.append_nil]; exact words_word hu hne⟩
  | cons c rest ih =>
    by_cases hc : isSpace c = true
    · exact ⟨[], words rest, by rw [words_append u rest hc, words_word hu hne, List.append_nil]; rfl⟩
    · have hmore : ∀ d ∈ u ++ [c], isSpace d = false :=
        List.forall_mem_append.mpr ⟨hu, List.forall_mem_singleton.mpr (eq_false_of_ne_true hc)⟩
      obtain ⟨v, more, hv⟩ := ih hmore (List.concat_ne_nil c u)
      rw [List.append_assoc] at hv
      exact ⟨c :: v, more, hv.trans (by rw [List.append_assoc]; rfl)⟩

theorem mem_words {s word : Text} (h : word ∈ words s) :
    word ≠ [] ∧ ∀ c ∈ word, isSpace c = false := by
  obtain ⟨hmem, hne⟩ := List.mem_filter.mp h
  refine ⟨by simpa using hne, ?_⟩
  clear h hne
  induction s generalizing word with
  | nil =>
    rw [List.splitOnP_nil, List.mem_singleton] at hmem
    rw [hmem]
    exact nofun
  | cons d s ih =>
    rw [List.splitOnP_cons_eq_if_modifyHead] at hmem
    split at hmem
    · rcases List.mem_cons.mp hmem with rfl | hmem
      · exact nofun
      · exact ih hmem
    next hd =>
      obtain ⟨first, more, hsplit⟩ := List.exists_cons_of_ne_nil (List.splitOnP_ne_nil isSpace s)
      rw [hsplit] at hmem ih
      rcases List.mem_cons.mp hmem with rfl | hmem
      · exact List.forall_mem_cons.mpr ⟨eq_false_of_ne_true hd, ih List.mem_cons_self⟩
      · exact ih (List.mem_cons_of_mem _ hmem)

theorem words_ne_nil {s : Text} (h : ¬ IsBlank s) : words s ≠ [] := by
  intro hnil
  apply h
  induction s with
  | nil => exact nofun
  | cons c s ih =>
    by_cases hc : isSpace c = true
    · refine List.forall_mem_cons.mpr ⟨hc, ih ?_ ?_⟩
      · exact fun hs => h (List.forall_mem_cons.mpr ⟨hc, hs⟩)
      · exact ((words_append [] s hc).symm.trans hnil)
    · obtain ⟨v, more, hwords⟩ := words_head (List.forall_mem_singleton.mpr
        (eq_false_of_ne_true hc)) (List.cons_ne_nil c []) s
      cases hwords.symm.trans hnil

theorem mem_joined {c : Char} {parts : List Text} (h : c ∈ join ' ' parts) :
    c = ' ' ∨ ∃ part ∈ parts, c ∈ part := by
  induction parts with
  | nil => cases h
  | cons first parts ih =>
    cases parts with
    | nil => exact .inr ⟨first, List.mem_cons_self, (join_singleton first : join ' ' [first] = first) ▸ h⟩
    | cons next parts =>
      rw [join_cons_cons] at h
      rcases List.mem_append.mp h with h | h
      · exact .inr ⟨first, List.mem_cons_self, h⟩
      · rcases List.mem_cons.mp h with rfl | h
        · exact .inl rfl
        · rcases ih h with hc | ⟨part, hpart, hc⟩
          · exact .inl hc
          · exact .inr ⟨part, List.mem_cons_of_mem _ hpart, hc⟩

namespace Sql

/-- What is cleaned begins with a word and is one line. -/
theorem cleaned_spec {s : Text} (h : ¬ IsBlank s) :
    cleaned s ≠ [] ∧ (∀ c ∈ (cleaned s).head?, isSpace c = false) ∧ '\n' ∉ cleaned s := by
  have hwords : ∀ word ∈ words s, word ≠ [] ∧ ∀ c ∈ word, isSpace c = false :=
    fun word hword => mem_words hword
  have hline : ∀ parts : List Text, (∀ word ∈ parts, ∀ c ∈ word, isSpace c = false) →
      '\n' ∉ join ' ' parts := by
    intro parts hparts hmem
    rcases mem_joined hmem with he | ⟨word, hword, hc⟩
    · cases he
    · exact absurd (hparts word hword _ hc) (by decide)
  unfold cleaned
  refine ⟨?_, ?_, hline _ fun word hword => (hwords word hword).2⟩ <;>
    cases hs : words s with
    | nil => exact absurd hs (words_ne_nil h)
    | cons word more =>
      obtain ⟨hne, hspace⟩ := hwords word (hs ▸ List.mem_cons_self)
      obtain ⟨c, rest, rfl⟩ := List.exists_cons_of_ne_nil hne
      have hjoin : ∃ more', join ' ' ((c :: rest) :: more) = c :: more' := by
        cases more with
        | nil => exact ⟨rest, join_singleton _⟩
        | cons next more => exact ⟨_, join_cons_cons _ _ _⟩
      obtain ⟨more', hjoin⟩ := hjoin
      rw [hjoin]
      first
        | exact List.cons_ne_nil _ _
        | exact fun d hd => Option.some.inj hd ▸ hspace c List.mem_cons_self

/-- The name of a column, then the rest, with a blank between words. -/
theorem cleaned_column (c : Column) :
    cleaned (strip c.text) = c.quoting.around c.name ++ ' ' :: cleaned c.rest := by
  have hne : c.quoting.around c.name ≠ [] := by
    obtain ⟨d, s, hname, -⟩ := c.isName
    unfold Quoting.around
    rw [hname]
    simp
  have hwords : words (strip c.text) = c.quoting.around c.name :: words c.rest := by
    have hpad := @words_pad c.before [] c.blank.1 nofun
    have hafter := @words_pad [] c.after nofun c.blank.2.2 c.rest
    simp only [List.append_nil, List.nil_append] at hpad hafter
    rw [words_strip, Column.text, hpad, words_cons (c.quoting.not_space c.isName) hne c.blank.2.1
      c.separated, hafter]
  unfold cleaned
  rw [hwords]
  obtain ⟨word, more, hmore⟩ := List.exists_cons_of_ne_nil (words_ne_nil c.stated)
  rw [hmore, join_cons_cons]

end Sql

/-! ## The patterns find what is written -/

theorem nameChar_of_closing {c : Char} (h : isClosing c = true) :
    (isNameChar c || isCaseless c) = false := by
  unfold isClosing at h
  simp only [Bool.or_eq_true, beq_iff_eq] at h
  rcases h with (rfl | rfl) | rfl <;> decide

theorem opening_of_nameStart {c : Char} (h : (isNameStart c || isCaseless c) = true) :
    isOpening c = false := by
  by_contra hopening
  unfold isOpening at hopening
  simp only [Bool.not_eq_false, Bool.or_eq_true, beq_iff_eq] at hopening
  rcases hopening with (rfl | rfl) | rfl <;> revert h <;> decide

theorem quotedName_first {start more : Char → Bool} {name rest : Text} (quoting : Quoting)
    (hname : ∃ c s, name = c :: s ∧ start c = true ∧ ∀ d ∈ s, more d = true)
    (hstart : ∀ c, start c = true → isOpening c = false)
    (hmore : ∀ c, isClosing c = true → more c = false)
    (hrest : ∀ c ∈ rest.head?, more c = false ∧ isClosing c = false) :
    (quotedName start more (quoting.around name ++ rest)).head? = some (name, rest) := by
  obtain ⟨c, s, rfl, hc, hs⟩ := hname
  have hopening : (maybe isOpening (quoting.opening ++ (c :: s ++ (quoting.closing ++ rest)))).head?
      = some (quoting.opening, c :: s ++ (quoting.closing ++ rest)) := by
    cases quoting with
    | bare =>
      show (maybe isOpening (c :: (s ++ rest))).head? = _
      rw [maybe, if_neg (by rw [hstart c hc]; exact Bool.false_ne_true)]
      rfl
    | double | tick | bracket => rfl
  have hbehind : ∀ d ∈ (quoting.closing ++ rest).head?, more d = false := by
    cases quoting with
    | bare => exact fun d hd => (hrest d hd).1
    | double | tick | bracket => exact fun d hd => Option.some.inj hd ▸ hmore _ (by decide)
  have hclosing : (maybe isClosing (quoting.closing ++ rest)).head? = some (quoting.closing, rest) := by
    cases quoting with
    | bare =>
      cases rest with
      | nil => rfl
      | cons d rest =>
        show (maybe isClosing (d :: rest)).head? = _
        rw [maybe, if_neg (by rw [(hrest d rfl).2]; exact Bool.false_ne_true)]
        rfl
    | double | tick | bracket => rfl
  have hidentifier : (identifier start more (c :: s ++ (quoting.closing ++ rest))).head?
      = some (c :: s, quoting.closing ++ rest) := by
    rw [List.cons_append, identifier, if_pos hc, List.head?_map, first_greedy hs hbehind]
    rfl
  unfold quotedName Quoting.around
  rw [List.append_assoc, List.append_assoc]
  exact first_of_first hopening (first_of_first hidentifier (by rw [List.head?_map, hclosing]; rfl))

/-- The pattern of a column takes the name, and the rest of the line. -/
theorem nameAndRest_around {name rest : Text} (quoting : Quoting) (hname : IsIdentifier name)
    (hne : rest ≠ []) (hspace : ∀ c ∈ rest.head?, isSpace c = false) (hline : '\n' ∉ rest) :
    Sql.nameAndRest (quoting.around name ++ ' ' :: rest) = some (name, rest) := by
  have hquoted := @quotedName_first isNameStart isNameChar name (' ' :: rest) quoting hname
    (fun c hc => opening_of_nameStart (by rw [hc]; rfl))
    (fun c hc => (Bool.or_eq_false_iff.mp (nameChar_of_closing hc)).1)
    (fun c hc => Option.some.inj hc ▸ by decide)
  have hgap := @someSpaces_first [' '] rest (by decide) (by decide) hspace
  have hall := @first_greedy _ (· != '\n') rest [] (fun c hc => bne_iff_ne.mpr fun he =>
    hline (he ▸ hc)) nofun
  rw [List.append_nil] at hall
  obtain ⟨ways, hways⟩ := List.head?_eq_some_iff.mp hall
  refine first_of_first hquoted (first_of_first hgap ?_)
  rw [hways, List.filter_cons_of_pos (by simpa using hne)]
  rfl

/-! ### `CREATE TABLE` -/

/-- A letter of a pattern is read as a letter. -/
theorem plain_of_ignoresAnyCase {p c : Char} (hp : 97 ≤ p.toNat ∧ p.toNat ≤ 122)
    (h : ignoresAnyCase p c = true) : isSpace c = false ∧ c ≠ '(' := by
  have hc : (97 ≤ c.toNat ∧ c.toNat ≤ 122) ∨ (65 ≤ c.toNat ∧ c.toNat ≤ 90) ∨
      c = '\u0130' ∨ c = '\u0131' ∨ c = '\u212a' ∨ c = '\u017f' := by
    unfold ignoresAnyCase ignoresCase at h
    simp only [Bool.or_eq_true, Bool.and_eq_true, beq_iff_eq, decide_eq_true_eq] at h
    rcases h with (((rfl | ⟨_, h⟩) | ⟨_, rfl | rfl⟩) | ⟨_, rfl⟩) | ⟨_, rfl⟩
    · exact .inl hp
    · exact .inr (.inl (by omega))
    · exact .inr (.inr (.inl rfl))
    · exact .inr (.inr (.inr (.inl rfl)))
    · exact .inr (.inr (.inr (.inr (.inl rfl))))
    · exact .inr (.inr (.inr (.inr (.inr rfl))))
  rcases hc with hc | hc | rfl | rfl | rfl | rfl
  iterate 2
    · refine ⟨?_, fun he => by rw [he] at hc; revert hc; decide⟩
      unfold isSpace
      simp only [Bool.or_eq_false_iff, Bool.and_eq_false_iff, decide_eq_false_iff_not,
        beq_eq_false_iff_ne]
      omega
  all_goals decide

theorem Spelled.plain {word : String} {s : Text} (h : Spelled word s)
    (hword : ∀ p ∈ word.toList, 97 ≤ p.toNat ∧ p.toNat ≤ 122) :
    ∀ c ∈ s, isSpace c = false ∧ c ≠ '(' := by
  unfold Spelled at h
  intro c hc
  generalize word.toList = u at h hword
  induction h with
  | nil => cases hc
  | cons hpc _ ih =>
    obtain ⟨hp, hword⟩ := List.forall_mem_cons.mp hword
    rcases List.mem_cons.mp hc with rfl | hc
    · exact plain_of_ignoresAnyCase hp hpc
    · exact ih hc hword

/-- Such a word stands in front of no space. -/
theorem Spelled.head {word : String} {s : Text} (h : Spelled word s)
    (hword : ∀ p ∈ word.toList, 97 ≤ p.toNat ∧ p.toNat ≤ 122) (hne : word.toList ≠ [])
    (rest : Text) : ∀ c ∈ (s ++ rest).head?, isSpace c = false := by
  cases hs : s with
  | nil =>
    rw [hs] at h
    unfold Spelled at h
    exact absurd (List.forall₂_nil_right_iff.mp h) hne
  | cons d s =>
    exact fun c hc => Option.some.inj hc ▸ (h.plain hword d (hs ▸ List.mem_cons_self)).1

theorem anyCase_append {word : String} {s : Text} (h : Spelled word s) (rest : Text) :
    (anyCase word (s ++ rest)).head? = some (s, rest) := by
  unfold anyCase
  rw [literalBy_append h]
  rfl

theorem mem_literalBy {α : Type} {related : α → α → Bool} {u s : List α} {way : List α × List α}
    (h : way ∈ literalBy related u s) :
    s = way.1 ++ way.2 ∧ List.Forall₂ (fun a c => related a c = true) u way.1 := by
  induction u generalizing s way with
  | nil =>
    rw [List.mem_singleton.mp h]
    exact ⟨rfl, .nil⟩
  | cons a u ih =>
    cases s with
    | nil => cases h
    | cons c s =>
      rw [literalBy] at h
      split at h
      next hac =>
        obtain ⟨way', hway', rfl⟩ := List.mem_map.mp h
        obtain ⟨hs, hall⟩ := ih hway'
        exact ⟨congrArg (c :: ·) hs, .cons hac hall⟩
      · cases h

/-- Before a name and a parenthesis there is no `IF NOT EXISTS`. -/
theorem ifNotExists_none {word gap rest : Text} (hword : ∀ c ∈ word, isSpace c = false)
    (hword_ne : word ≠ []) (hgap : IsBlank gap) : ifNotExists (word ++ (gap ++ '(' :: rest))
      = [word ++ (gap ++ '(' :: rest)] := by
  unfold ifNotExists
  refine (congrArg (· ++ [word ++ (gap ++ '(' :: rest)])
    (List.flatMap_eq_nil_iff.mpr fun a ha => List.flatMap_eq_nil_iff.mpr fun b hb => ?_)).trans
      (List.nil_append _)
  have hnot : anyCase "not" b.2 = [] := by
    rw [List.eq_nil_iff_forall_not_mem]
    intro c hc
    obtain ⟨hsplit, hif⟩ := mem_literalBy ha
    obtain ⟨hsplit', hblank, hne⟩ := mem_someSpaces hb
    obtain ⟨hsplit'', hnot⟩ := mem_literalBy hc
    have hplain := (show Spelled "if" a.1 from hif).plain (by decide)
    have hplain' := (show Spelled "not" c.1 from hnot).plain (by decide)
    have hletters : ∀ d ∈ a.1, isSpace d = false := fun d hd => (hplain d hd).1
    have hif_ne : a.1 ≠ [] := fun he => by rw [he] at hif; cases hif
    have hnot_ne : c.1 ≠ [] := fun he => by rw [he] at hnot; cases hnot
    have hparen : ∀ d ∈ ['('], isSpace d = false := by decide
    -- `if` is the first word of the text, and `not` is in the second
    have hwords := congrArg words hsplit
    rw [hsplit', words_cons hletters hif_ne hblank hne, hsplit''] at hwords
    cases gap with
    | nil =>
      obtain ⟨v, more, hv⟩ := words_head (List.forall_mem_append.mpr ⟨hword, hparen⟩)
        (List.concat_ne_nil '(' word) rest
      rw [List.append_assoc] at hv
      have hmem : '(' ∈ a.1 := by
        rw [← (List.cons.inj (hv.symm.trans hwords)).1]
        exact List.mem_append_left _ (List.mem_append_right _ List.mem_cons_self)
      exact (hplain _ hmem).2 rfl
    | cons e gap =>
      obtain ⟨v, more, hv⟩ := words_head hparen (List.cons_ne_nil '(' []) rest
      obtain ⟨w, ws, hw⟩ := List.exists_cons_of_ne_nil hnot_ne
      obtain ⟨v', more', hv'⟩ := words_head (fun d hd => (hplain' d hd).1) hnot_ne c.2
      rw [words_cons hword hword_ne hgap (List.cons_ne_nil e gap)] at hwords
      have hsecond := (hv.symm.trans (List.cons.inj hwords).2).trans hv'
      rw [hw] at hsecond
      exact (hplain' w (hw ▸ List.mem_cons_self)).2 (List.cons.inj (List.cons.inj hsecond).1).1.symm
  rw [hnot]
  rfl

theorem ifNotExists_first {guard word gap rest : Text} (h : IsGuard guard)
    (hword : ∀ c ∈ word, isSpace c = false) (hne : word ≠ []) (hgap : IsBlank gap) :
    (ifNotExists (guard ++ (word ++ (gap ++ '(' :: rest)))).head?
      = some (word ++ (gap ++ '(' :: rest)) := by
  rcases h with rfl | ⟨first, gap₁, second, gap₂, third, gap₃, hfirst, hsecond, hthird, hgap₁,
    hgap₂, hgap₃, rfl⟩
  · rw [List.nil_append, ifNotExists_none hword hne hgap]
    rfl
  · have hbehind : ∀ c ∈ (word ++ (gap ++ '(' :: rest)).head?, isSpace c = false := by
      obtain ⟨d, s, rfl⟩ := List.exists_cons_of_ne_nil hne
      exact fun c hc => Option.some.inj hc ▸ hword d List.mem_cons_self
    simp only [List.append_assoc]
    unfold ifNotExists
    rw [List.head?_append, first_of_first (anyCase_append hfirst _)
      (first_of_first (someSpaces_first hgap₁.1 hgap₁.2 (hsecond.head (by decide) (by decide) _))
        (first_of_first (anyCase_append hsecond _)
          (first_of_first (someSpaces_first hgap₂.1 hgap₂.2 (hthird.head (by decide) (by decide) _))
            (first_of_first (anyCase_append hthird _)
              (by rw [List.head?_map, someSpaces_first hgap₃.1 hgap₃.2 hbehind]; rfl)))))]
    rfl

/-- Behind a name, a space or a parenthesis is no part of it. -/
theorem behind_name {gap rest : Text} (hgap : IsBlank gap) :
    ∀ c ∈ (gap ++ '(' :: rest).head?,
      (isNameChar c || isCaseless c) = false ∧ isClosing c = false := by
  cases gap with
  | nil => exact fun c hc => Option.some.inj hc ▸ by decide
  | cons d gap =>
    intro c hc
    obtain rfl := Option.some.inj hc
    have hd := hgap _ List.mem_cons_self
    constructor
    · rw [Bool.or_eq_false_iff]
      constructor
      · by_contra hname
        rw [isSpace_of_nameChar (eq_true_of_ne_false hname)] at hd
        cases hd
      · by_contra hcaseless
        unfold isCaseless at hcaseless
        simp only [Bool.not_eq_false, Bool.or_eq_true, beq_iff_eq] at hcaseless
        rcases hcaseless with ((rfl | rfl) | rfl) | rfl <;> revert hd <;> decide
    · by_contra hclosing
      unfold isClosing at hclosing
      simp only [Bool.not_eq_false, Bool.or_eq_true, beq_iff_eq] at hclosing
      rcases hclosing with (rfl | rfl) | rfl <;> revert hd <;> decide

/-- The head of a statement is found, with its name and what begins at its parenthesis. -/
theorem createTable_head (t : Table) (rest : Text) :
    (createTable (t.head ++ '(' :: rest)).head? = some ((t.name, '(' :: rest), rest) := by
  have hspace := t.quoting.not_space t.isName
  obtain ⟨d, s, hname, hd, hs⟩ := t.isName
  have hne : t.quoting.around t.name ≠ [] := by
    unfold Quoting.around
    rw [hname]
    simp
  obtain ⟨hgap₁, hgap₂, hgap₃⟩ := t.spaced
  have hquoted := @quotedName_first (fun c => isNameStart c || isCaseless c)
    (fun c => isNameChar c || isCaseless c) t.name (t.gap₃ ++ '(' :: rest) t.quoting
    ⟨d, s, hname, by rw [hd]; rfl, fun c hc => by rw [hs c hc]; rfl⟩
    (fun c => opening_of_nameStart) (fun c => nameChar_of_closing) (behind_name hgap₃)
  have hguard := t.guarded
  have htable := t.spelled.2.head (by decide) (by decide)
    (t.gap₂ ++ (t.guard ++ (t.quoting.around t.name ++ (t.gap₃ ++ '(' :: rest))))
  have hbehind : ∀ c ∈ (t.guard ++ (t.quoting.around t.name ++ (t.gap₃ ++ '(' :: rest))).head?,
      isSpace c = false := by
    rcases hguard with hnone | ⟨first, gap, second, gap', third, gap'', hfirst, -, -, -, -, -, he⟩
    · obtain ⟨e, u, he⟩ := List.exists_cons_of_ne_nil hne
      rw [hnone, List.nil_append, he]
      exact fun c hc => Option.some.inj hc ▸ hspace e (he ▸ List.mem_cons_self)
    · rw [he, List.append_assoc]
      exact hfirst.head (by decide) (by decide) _
  have hparen : (greedy isSpace (t.gap₃ ++ '(' :: rest)).head? = some (t.gap₃, '(' :: rest) :=
    first_greedy hgap₃ fun c hc => Option.some.inj hc ▸ by decide
  unfold Table.head createTable
  simp only [List.append_assoc]
  exact first_of_first (anyCase_append t.spelled.1 _)
    (first_of_first (someSpaces_first hgap₁.1 hgap₁.2 htable)
      (first_of_first (anyCase_append t.spelled.2 _)
        (first_of_first (someSpaces_first hgap₂.1 hgap₂.2 hbehind)
          (first_of_first (ifNotExists_first hguard hspace hne hgap₃)
            (first_of_first hquoted (first_of_first hparen rfl))))))

namespace Sql

variable {q : Sql}

/-! ## Columns and tables -/

/-- **A column is a field** if it is kept, and no field if not. -/
theorem parseColumn_kept (c : Column) :
    (q.Kept c ∧ ∃ field, q.parseColumn (strip c.text) = .ok (some field) ∧ IsFieldOf c field) ∨
      (¬ q.Kept c ∧ ∀ field, q.parseColumn (strip c.text) ≠ .ok (some field)) := by
  obtain ⟨hne, hspace, hline⟩ := cleaned_spec c.stated
  have hsame : cleaned (strip c.text) = cleaned c.text := by
    unfold cleaned
    rw [words_strip]
  unfold parseColumn
  rw [cleaned_column, nameAndRest_around c.quoting c.isName hne hspace hline, ← cleaned_column,
    hsame]
  dsimp only
  by_cases hconstraint : q.isTableConstraint (cleaned c.text) = true
  · rw [if_pos hconstraint]
    refine .inr ⟨fun h => ?_, fun _ h => by cases h⟩
    rw [h.column] at hconstraint
    cases hconstraint
  rw [if_neg hconstraint]
  by_cases hskipped : q.casing.lower c.name ∈ skippedColumns ∨
      (find "primary key".toList (q.casing.lower (cleaned c.rest))).isSome = true
  · rw [if_pos hskipped]
    refine .inr ⟨fun h => ?_, fun _ h => by cases h⟩
    rcases hskipped with hname | hkey
    · exact h.unskipped hname
    · rw [h.secondary] at hkey
      cases hkey
  rw [if_neg hskipped]
  obtain ⟨hname, hkey⟩ := not_or.mp hskipped
  have hkept := fun hread => (⟨eq_false_of_ne_true hconstraint, hname,
    Option.not_isSome_iff_eq_none.mp hkey, hread⟩ : q.Kept c)
  cases hreferences : q.searchWord references (cleaned c.rest) with
  | some table =>
    refine .inl ⟨hkept fun h => ?_, _, rfl, .inr ⟨rfl, rfl⟩⟩
    rw [hreferences] at h
    cases h
  | none =>
    cases htype : q.djangoTypeFor (cleaned c.rest) with
    | error e =>
      refine .inr ⟨fun h => ?_, fun _ h => by cases h⟩
      obtain ⟨_, hread⟩ := h.readable hreferences
      rw [htype] at hread
      cases hread
    | ok described =>
      exact .inl ⟨hkept fun _ => ⟨described, htype⟩, _, rfl, .inl rfl⟩

theorem nested_plain {s : Text} (h : ∀ c ∈ s, (isSpace c || isNameChar c || c == '\x60' ||
    c == '[' || c == ']') = true) : Nested false s := by
  apply Nested.of_plain
  intro c hc
  have hplain := h c hc
  refine ⟨?_, ?_, ?_, ?_⟩
  · by_contra hquote
    simp only [isQuote, Bool.not_eq_false, Bool.or_eq_true, beq_iff_eq] at hquote
    rcases hquote with rfl | rfl <;> exact absurd hplain (by decide)
  all_goals
    rintro rfl
    exact absurd hplain (by decide)

theorem nested_text (c : Column) : Nested false c.text := by
  have hblank : ∀ {s : Text}, IsBlank s → Nested false s := fun hs =>
    nested_plain fun d hd => by rw [hs d hd]; rfl
  have hname : ∀ d ∈ c.name, isNameChar d = true := c.isName.nameChars
  have hnested : Nested false (c.quoting.around c.name) := by
    have hinner := nested_plain fun d hd => by rw [hname d hd, Bool.or_true]; rfl
    cases c.quoting with
    | bare => exact .append .nil (hinner.append .nil)
    | double => exact .quoted rfl (fun hd => absurd (hname _ hd) (by decide)) .nil
    | tick => exact .append (nested_plain (by decide)) (hinner.append (nested_plain (by decide)))
    | bracket => exact .append (nested_plain (by decide)) (hinner.append (nested_plain (by decide)))
  exact (hblank c.blank.1).append (hnested.append
    ((hblank c.blank.2.1).append (c.nested.append (hblank c.blank.2.2))))

/-- The parts of a body are its columns. -/
theorem splitTopLevel_body (t : Table) :
    splitTopLevel t.body = t.columns.map fun c => strip c.text := by
  have hfilled : ∀ c : Column, strip c.text ≠ [] := by
    intro c hnil
    have hclean := cleaned_column c
    rw [hnil] at hclean
    exact List.append_ne_nil_of_right_ne_nil _ (List.cons_ne_nil _ _) hclean.symm
  unfold Table.body
  rw [splitTopLevel_join, List.map_map]
  · rfl
  · intro part hpart
    obtain ⟨c, _, rfl⟩ := List.mem_map.mp hpart
    exact nested_text c
  · intro part hpart
    obtain ⟨c, _, rfl⟩ := List.mem_map.mp hpart
    exact hfilled c

/-- The columns of a table, one after another. -/
theorem fields_kept (columns : List Column) :
    ((∀ c ∈ columns, q.Kept c) → ∃ fields,
      (columns.map fun c => strip c.text).mapM q.parseColumn = .ok fields ∧
        List.Forall₂ IsFieldOf columns (fields.filterMap id)) ∧
    ∀ fields, (columns.map fun c => strip c.text).mapM q.parseColumn = .ok fields →
      (fields.filterMap id).length ≤ columns.length ∧
        (columns.length ≤ (fields.filterMap id).length → ∀ c ∈ columns, q.Kept c) := by
  induction columns with
  | nil =>
    refine ⟨fun _ => ⟨[], rfl, .nil⟩, fun fields h => ?_⟩
    cases h
    exact ⟨le_rfl, fun _ => nofun⟩
  | cons c columns ih =>
    obtain ⟨ihkept, ihless⟩ := ih
    rw [List.map_cons]
    constructor
    · intro hkept
      obtain ⟨hc, hcolumns⟩ := List.forall_mem_cons.mp hkept
      obtain ⟨fields, hfields, hall⟩ := ihkept hcolumns
      obtain ⟨_, field, hfield, his⟩ := (parseColumn_kept c).resolve_right fun h => h.1 hc
      exact ⟨some field :: fields, by rw [List.mapM_cons, hfield, hfields]; rfl, .cons his hall⟩
    · intro fields h
      obtain ⟨field, more, hfield, hmore, rfl⟩ := mapM_cons_ok h
      obtain ⟨hle, heq⟩ := ihless more hmore
      rcases parseColumn_kept (q := q) c with ⟨hc, field', hfield', _⟩ | ⟨_, hno⟩
      · rw [hfield'] at hfield
        cases hfield
        exact ⟨Nat.succ_le_succ hle, fun h =>
          List.forall_mem_cons.mpr ⟨hc, heq (Nat.le_of_succ_le_succ h)⟩⟩
      · cases field with
        | some field => exact absurd hfield (hno field)
        | none => exact ⟨Nat.le_succ_of_le hle, fun h => absurd (h.trans hle) (Nat.not_succ_le_self _)⟩

/-- **A table is its entity** exactly if it has columns and all of them are kept. -/
theorem entityFromTable_iff (t : Table) :
    (∃ e, q.entityFromTable t.name t.body = .ok (some e) ∧ q.IsEntityOf t e) ↔
      t.columns ≠ [] ∧ ∀ c ∈ t.columns, q.Kept c := by
  obtain ⟨hkept, hless⟩ := fields_kept (q := q) t.columns
  unfold entityFromTable
  rw [splitTopLevel_body]
  constructor
  · rintro ⟨e, he, _, hall⟩
    obtain ⟨fields, hfields, he⟩ := result_bind_ok.mp he
    dsimp only at he
    split at he
    · cases he
    next hne =>
      cases he
      have hlen := hall.length_eq
      refine ⟨fun hnil => hne ?_, (hless fields hfields).2 hlen.le⟩
      exact List.length_eq_zero_iff.mp (by rw [← hlen, hnil]; rfl)
  · rintro ⟨hne, hall⟩
    obtain ⟨fields, hfields, his⟩ := hkept hall
    refine ⟨_, result_bind_ok.mpr ⟨fields, hfields, if_neg fun hnil => hne ?_⟩, rfl, his⟩
    exact List.length_eq_zero_iff.mp (by rw [his.length_eq, hnil]; rfl)

theorem entityFromTable_name {name body : Text} {e : Entity}
    (h : q.entityFromTable name body = .ok (some e)) :
    e.name = toPascalCase (singularize q.casing name) := by
  obtain ⟨fields, -, h⟩ := result_bind_ok.mp h
  dsimp only at h
  split at h
  · cases h
  · cases h
    rfl

/-- The body is nested, with its commas in parentheses. -/
theorem nested_body (t : Table) : Nested true t.body := by
  unfold Table.body
  induction t.columns with
  | nil => exact .nil
  | cons c columns ih =>
    have hc := (nested_text c).deepen
    cases columns with
    | nil =>
      rw [List.map_cons, List.map_nil, join_singleton]
      exact hc
    | cons next columns =>
      rw [List.map_cons, List.map_cons, join_cons_cons]
      exact hc.append (.char (by decide) (fun _ => rfl) ih)

/-! ## The text -/

/-- Where no statement begins, none is found. -/
theorem findWords_quiet {s after : Text} : ∀ {fuel : Nat} {previous : Option Char},
    q.quiet previous s after = true → (s ++ after).length < fuel →
      ∃ fuel', after.length < fuel' ∧ q.findWords createTable fuel previous (s ++ after) =
        q.findWords createTable fuel' (s.getLast?.or previous) after := by
  induction s with
  | nil => exact fun _ hfuel => ⟨_, hfuel, rfl⟩
  | cons c s ih =>
    intro fuel previous hquiet hfuel
    obtain ⟨hnone, hquiet⟩ := Bool.and_eq_true_iff.mp hquiet
    cases fuel with
    | zero => exact absurd hfuel (Nat.not_lt_zero _)
    | succ fuel =>
      obtain ⟨fuel', hfuel', hrun⟩ := ih hquiet (Nat.lt_of_succ_lt_succ hfuel)
      refine ⟨fuel', hfuel', ?_⟩
      rw [List.cons_append, findWords, Option.isNone_iff_eq_none.mp hnone]
      dsimp only
      rw [hrun, List.getLast?_cons]
      cases s.getLast? <;> rfl

/-- **The statements are found**, and nothing else. -/
theorem findWords_text {tail : Text} (script : Script) : ∀ {fuel : Nat} {previous : Option Char},
    q.alone previous script tail = true → (Script.text script tail).length < fuel →
      q.findWords createTable fuel previous (Script.text script tail)
        = Script.heads script tail := by
  induction script with
  | nil =>
    intro fuel previous halone hfuel
    have hquiet := @findWords_quiet q tail [] fuel previous halone
    rw [List.append_nil] at hquiet
    obtain ⟨fuel', hfuel', hrun⟩ := hquiet hfuel
    refine hrun.trans ?_
    cases fuel' with
    | zero => exact absurd hfuel' (Nat.not_lt_zero _)
    | succ fuel' =>
      have hnone : q.matchAt createTable (tail.getLast?.or previous) [] = none := by
        unfold matchAt
        split <;> rfl
      rw [findWords, hnone]
      rfl
  | cons entry script ih =>
    obtain ⟨prose, t⟩ := entry
    intro fuel previous halone hfuel
    simp only [alone, Bool.and_eq_true, bne_iff_ne] at halone
    obtain ⟨⟨⟨hprose, hboundary⟩, hbody⟩, halone⟩ := halone
    obtain ⟨fuel₁, hfuel₁, hrun₁⟩ := findWords_quiet hprose hfuel
    refine hrun₁.trans ?_
    cases fuel₁ with
    | zero => exact absurd hfuel₁ (Nat.not_lt_zero _)
    | succ fuel₁ =>
      have hfirst : (t.before (Script.text script tail)).head? = t.head.head? := by
        obtain ⟨⟨c, s, hc⟩, -⟩ : (∃ c s, t.create = c :: s) ∧ True := by
          cases hcreate : t.create with
          | nil => exact absurd (hcreate ▸ t.spelled.1) nofun
          | cons c s => exact ⟨⟨c, s, rfl⟩, trivial⟩
        unfold Table.before Table.head
        rw [hc]
        rfl
      have hmatch : q.matchAt createTable (prose.getLast?.or previous)
          (t.before (Script.text script tail)) =
            some ((t.name, '(' :: (t.body ++ ')' :: Script.text script tail)),
              t.body ++ ')' :: Script.text script tail) := by
        unfold matchAt
        rw [hfirst, if_neg hboundary]
        exact createTable_head t _
      have htaken : ((t.before (Script.text script tail)).take
          ((t.before (Script.text script tail)).length -
            (t.body ++ ')' :: Script.text script tail).length)).getLast? = some '(' := by
        have hsplit : t.before (Script.text script tail) =
            (t.head ++ ['(']) ++ (t.body ++ ')' :: Script.text script tail) := by
          rw [List.append_assoc]
          rfl
        rw [hsplit, List.length_append, Nat.add_sub_cancel, List.take_left, List.getLast?_concat]
      unfold findWords
      rw [hmatch]
      dsimp only
      rw [htaken, Script.heads]
      congr 1
      have hsplit : t.body ++ ')' :: Script.text script tail =
          (t.body ++ [')']) ++ Script.text script tail := by
        rw [List.append_assoc]
        rfl
      have hshort : ((t.body ++ [')']) ++ Script.text script tail).length < fuel₁ := by
        unfold Table.before at hfuel₁
        simp only [List.length_append, List.length_cons, List.length_nil] at hfuel₁ ⊢
        omega
      obtain ⟨fuel₂, hfuel₂, hrun₂⟩ := findWords_quiet hbody hshort
      rw [hsplit, Option.some_or, hrun₂, List.getLast?_concat, Option.some_or]
      exact ih halone hfuel₂

/-- There are no more entities than statements. -/
theorem entitiesFrom_length {statements : List (Text × Text)} : ∀ {seen : List Text}
    {es : List Entity}, q.entitiesFrom seen statements = .ok es → es.length ≤ statements.length := by
  induction statements with
  | nil =>
    intro seen es h
    cases h
    exact le_rfl
  | cons statement statements ih =>
    intro seen es h
    unfold entitiesFrom at h
    split at h
    · exact Nat.le_succ_of_le (ih h)
    · obtain ⟨found, -, h⟩ := result_bind_ok.mp h
      split at h
      · exact Nat.le_succ_of_le (ih h)
      · dsimp only at h
        split at h
        · exact Nat.le_succ_of_le (ih h)
        · obtain ⟨more, hmore, h⟩ := result_bind_ok.mp h
          cases h
          exact Nat.succ_le_succ (ih hmore)

theorem length_heads (tail : Text) (script : Script) :
    (Script.heads script tail).length = (script.map Prod.snd).length := by
  induction script with
  | nil => rfl
  | cons entry script ih => exact congrArg Nat.succ ih

/-- The statements of a script, after some names. -/
theorem entitiesFrom_iff {tail : Text} (script : Script) : ∀ {seen : List Text},
    (∃ es, q.entitiesFrom seen (Script.heads script tail) = .ok es ∧
        List.Forall₂ q.IsEntityOf (script.map Prod.snd) es) ↔
      (∀ t ∈ script.map Prod.snd, t.columns ≠ [] ∧ ∀ c ∈ t.columns, q.Kept c) ∧
        ((script.map Prod.snd).map q.key).Nodup ∧
        ∀ t ∈ script.map Prod.snd, q.key t ∉ seen := by
  induction script with
  | nil => exact fun {seen} => iff_of_true ⟨[], rfl, .nil⟩ ⟨nofun, .nil, nofun⟩
  | cons entry script ih =>
    obtain ⟨prose, t⟩ := entry
    intro seen
    -- a table that is passed over is missing in the end
    have hmissing : ∀ {es : List Entity}, q.entitiesFrom seen (Script.heads script tail) = .ok es →
        ¬ List.Forall₂ q.IsEntityOf (t :: script.map Prod.snd) es := by
      intro es hes hall
      have hless := entitiesFrom_length hes
      have hsame := hall.length_eq
      rw [length_heads] at hless
      rw [List.length_cons] at hsame
      omega
    have hname : ∀ {e : Entity}, q.entityFromTable t.name t.body = .ok (some e) →
        q.casing.lower e.name = q.key t := fun he => congrArg q.casing.lower (entityFromTable_name he)
    rw [List.map_cons, Script.heads, entitiesFrom, balancedBody_nested (nested_body t)]
    constructor
    · rintro ⟨es, hes, hall⟩
      obtain ⟨found, hfound, hes⟩ := result_bind_ok.mp hes
      cases found with
      | none => exact absurd hall (hmissing hes)
      | some e =>
        dsimp only at hes
        rw [hname hfound] at hes
        split at hes
        · exact absurd hall (hmissing hes)
        next hseen =>
          obtain ⟨more, hmore, hes⟩ := result_bind_ok.mp hes
          cases hes
          obtain ⟨his, hall⟩ := List.forall₂_cons.mp hall
          obtain ⟨hgood, hnodup, hfresh⟩ := ih.mp ⟨more, hmore, hall⟩
          refine ⟨List.forall_mem_cons.mpr ⟨entityFromTable_iff t |>.mp ⟨e, hfound, his⟩, hgood⟩,
            List.nodup_cons.mpr ⟨fun hmem => ?_, hnodup⟩, List.forall_mem_cons.mpr ⟨hseen,
              fun t' ht' hin => hfresh t' ht' (List.mem_cons_of_mem _ hin)⟩⟩
          obtain ⟨t', ht', hkey⟩ := List.mem_map.mp hmem
          exact hfresh t' ht' (hkey ▸ List.mem_cons_self)
    · rintro ⟨hgood, hnodup, hfresh⟩
      obtain ⟨ht, hgood⟩ := List.forall_mem_cons.mp hgood
      obtain ⟨hseen, hfresh⟩ := List.forall_mem_cons.mp hfresh
      obtain ⟨hnew, hnodup⟩ := List.nodup_cons.mp hnodup
      obtain ⟨e, hfound, his⟩ := (entityFromTable_iff t).mpr ht
      obtain ⟨more, hmore, hall⟩ := (@ih (q.key t :: seen)).mpr ⟨hgood, hnodup, fun t' ht' hin => by
        rcases List.mem_cons.mp hin with hkey | hin
        · exact hnew (hkey ▸ List.mem_map_of_mem ht')
        · exact hfresh t' ht' hin⟩
      refine ⟨e :: more, result_bind_ok.mpr ⟨some e, hfound, ?_⟩, .cons his hall⟩
      dsimp only
      rw [hname hfound, if_neg hseen, hmore]
      rfl

/-- **One entity a table and one field a column**, in order, exactly if every table has columns,
all of them are kept and no two tables have one name. -/
theorem entitiesFromSql_iff (q : Sql) (script : Script) (tail : Text)
    (halone : q.alone none script tail = true) :
    (∃ es, q.entitiesFromSql (Script.text script tail) = .ok es ∧
        List.Forall₂ q.IsEntityOf (script.map Prod.snd) es) ↔
      (∀ t ∈ script.map Prod.snd, t.columns ≠ [] ∧ ∀ c ∈ t.columns, q.Kept c) ∧
        ((script.map Prod.snd).map q.key).Nodup := by
  unfold entitiesFromSql
  rw [findWords_text script halone (Nat.lt_succ_self _), entitiesFrom_iff script]
  exact and_congr_right fun _ => and_iff_left nofun

end Sql

/-- Python's part, for ASCII. -/
def Sql.ascii : Sql where
  casing := Casing.ascii
  isWord c := c.isAlphanum || c == '_'
  isDigit := Char.isDigit
  title s := toPascalCase s
  intOf s := (str s).toInt?.elim (.error ⟨.value, "invalid literal for int()"⟩) .ok
  floatOf s := .ok (.float s true)

/-- `CREATE TABLE t (name TEXT)`. -/
def Table.single (name : Text) (hname : IsIdentifier name) : Table where
  create := "CREATE".toList
  gap₁ := [' ']
  table := "TABLE".toList
  gap₂ := [' ']
  guard := []
  quoting := .bare
  name := ['t']
  gap₃ := [' ']
  columns := [{
    before := []
    quoting := .bare
    name
    gap := [' ']
    rest := "TEXT".toList
    after := []
    blank := ⟨nofun, by decide, nofun⟩
    separated := List.cons_ne_nil _ _
    isName := hname
    stated := by decide
    nested := Sql.nested_plain (by decide) }]
  spelled := ⟨by unfold Spelled; decide, by unfold Spelled; decide⟩
  spaced := ⟨⟨by decide, List.cons_ne_nil _ _⟩, ⟨by decide, List.cons_ne_nil _ _⟩, by decide⟩
  guarded := .inl rfl
  isName := ⟨'t', [], rfl, rfl, nofun⟩

theorem identifier_email : IsIdentifier "email".toList :=
  ⟨'e', "mail".toList, rfl, rfl, by decide⟩

theorem identifier_uniqueCode : IsIdentifier "unique_code".toList :=
  ⟨'u', "nique_code".toList, rfl, rfl, by decide⟩

namespace Sql

theorem entitiesFromSql_iff_email :
    Sql.ascii.alone none [([], .single _ identifier_email)] [] = true ∧
      ∃ es, Sql.ascii.entitiesFromSql "CREATE TABLE t (email TEXT)".toList = .ok es ∧
        List.Forall₂ Sql.ascii.IsEntityOf [.single _ identifier_email] es := by
  have halone : Sql.ascii.alone none [([], .single _ identifier_email)] [] = true := by
    decide +kernel
  refine ⟨halone, (entitiesFromSql_iff Sql.ascii _ [] halone).mpr ⟨?_, List.nodup_singleton _⟩⟩
  refine List.forall_mem_singleton.mpr ⟨List.cons_ne_nil _ _, List.forall_mem_singleton.mpr ?_⟩
  exact ⟨by decide +kernel, by decide +kernel, by decide +kernel, fun _ => ⟨_, rfl⟩⟩

/-- The name of the column begins like a constraint: `unique_code` is lost, and the table too. -/
theorem entitiesFromSql_drops :
    Script.text [([], .single _ identifier_uniqueCode)] [] =
        "CREATE TABLE t (unique_code TEXT)".toList ∧
      Sql.ascii.entitiesFromSql "CREATE TABLE t (unique_code TEXT)".toList = .ok [] ∧
      ¬ ∃ es, Sql.ascii.entitiesFromSql "CREATE TABLE t (unique_code TEXT)".toList = .ok es ∧
        List.Forall₂ Sql.ascii.IsEntityOf [.single _ identifier_uniqueCode] es := by
  have hrun : Sql.ascii.entitiesFromSql "CREATE TABLE t (unique_code TEXT)".toList = .ok [] := rfl
  refine ⟨rfl, hrun, ?_⟩
  rintro ⟨es, hes, hall⟩
  rw [hrun] at hes
  cases hes
  cases hall

end Sql

end Shamsu.Prd
