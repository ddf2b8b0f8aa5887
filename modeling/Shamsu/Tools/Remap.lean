import Shamsu.Patch.Sanitize
import Shamsu.Patch.Terminators
import Shamsu.Tools.Locked

/-!
# Paths of a diff that are put right

`shamsu/tools/path_resolve.py`: `resolve_reported_path` finds the file that a reported path means,
and `remap_diff_paths` writes it into the headers of a diff, line by line, with the answers kept.

`remap_keeps`: when no line of a hunk looks like a header that would be rewritten, and the paths
found are ones that a header can name, the hunks stay and a second time changes nothing.
`body_rewritten`: an added line `++ b/path` is taken for a header.
-/

namespace Shamsu.Tools

open Shamsu.Lib Shamsu.Py Shamsu.Safety Shamsu.Patch

/-- `resolve_reported_path`. -/
def Registry.resolveReportedPath (r : Registry) (d : FS) (reported : Text) : Option Text :=
  let normalized := normalizeWorkspacePath reported
  if normalized = [] then none
  else if d.isFile (locate r.root normalized) then some normalized
  else
    match (r.strongPathCandidates d normalized).map posix with
    | [] => none
    | [only] => some only
    | best :: second :: _ =>
      let exactSuffix (rel : Text) : Bool :=
        ('/' :: r.casing.lower normalized).isSuffixOf (r.casing.lower rel)
      if exactSuffix best && !exactSuffix second then some best else none

/-! ## The lines of a diff -/

/-- A path starts with `a/` or `b/`. -/
def hasAb (path : Text) : Bool := ['a', '/'].isPrefixOf path || ['b', '/'].isPrefixOf path

/-- `_strip_ab_prefix`. -/
def stripAbPrefix (path : Text) : Text :=
  if hasAb (strip path) then (strip path).drop 2 else strip path

def isHeaderLine (line : Text) : Bool :=
  "--- ".toList.isPrefixOf line || "+++ ".toList.isPrefixOf line

/-- What a header has before a tab, and from there on. -/
def headerPath (line : Text) : Text := (line.drop 4).takeWhile (· ≠ '\t')

def headerTrailer (line : Text) : Text := (line.drop 4).dropWhile (· ≠ '\t')

/-- The prefix of the new path. -/
def headerPrefix (line : Text) : Text :=
  if hasAb (headerPath line) then
    if ['-', '-', '-'].isPrefixOf line then ['a', '/'] else ['b', '/']
  else []

def gitMark : Text := "diff --git ".toList

def renameMarkers : List Text :=
  ["rename from ", "rename to ", "copy from ", "copy to "].map String.toList

section Lines

variable {m : Type → Type} [Monad m] (resolve : Text → m (Option Text))

/-- `_remap_git_line`. -/
def remapGitLine (line : Text) : m Text :=
  match split [' '] line with
  | [_, _, a, b] => do
    let aResolved ← resolve (stripAbPrefix a)
    let bResolved ← resolve (stripAbPrefix b)
    pure (gitMark ++ ((aResolved.elim a (['a', '/'] ++ ·)) ++
      ' ' :: bResolved.elim b (['b', '/'] ++ ·)))
  | _ => pure line

/-- `_remap_header_line`. -/
def remapHeaderLine (line : Text) : m Text :=
  if isHeaderLine line then do
    let resolved ← resolve (stripAbPrefix (headerPath line))
    pure (resolved.elim line fun path =>
      line.take 4 ++ (headerPrefix line ++ (path ++ headerTrailer line)))
  else if gitMark.isPrefixOf line then remapGitLine resolve line
  else
    match renameMarkers.find? fun marker => marker.isPrefixOf line with
    | some marker => do
      let resolved ← resolve (strip (line.drop marker.length))
      pure (resolved.elim line (marker ++ ·))
    | none => pure line

end Lines

/-! ## The whole diff -/

/-- `remaps`. -/
abbrev Remaps := List (Text × Text)

/-- `resolve`: what was found is kept. -/
def resolveRemap (find : Text → Option Text) (reported : Text) : StateM Remaps (Option Text) :=
  fun remaps =>
    let reported := strip reported
    if reported = [] ∨ reported = devNull then (none, remaps)
    else
      match remaps.lookup reported with
      | some resolved => (some resolved, remaps)
      | none =>
        match find reported with
        | none => (none, remaps)
        | some resolved =>
          if resolved ≠ [] ∧ resolved ≠ normalizeWorkspacePath reported then
            (some resolved, remaps ++ [(reported, resolved)])
          else (none, remaps)

/-- The lines with the paths in them resolved, one after the other. -/
def remapLines (find : Text → Option Text) : List Text → StateM Remaps (List Text)
  | [] => pure []
  | line :: lines => do
    let first ← remapHeaderLine (resolveRemap find) line
    let rest ← remapLines find lines
    pure (first :: rest)

/-- The text of the new lines. -/
def rejoined (diffText : Text) (lines : List Text) : Text :=
  let newText := join '\n' lines
  if diffText.getLast? = some '\n' ∧ newText.getLast? ≠ some '\n' then newText ++ ['\n']
  else newText

/-- `remap_diff_paths`. -/
def Registry.remapDiffPaths (r : Registry) (d : FS) (diffText : Text) : Text × Remaps :=
  if diffText = [] then (diffText, [])
  else
    let (lines, remaps) := (remapLines (r.resolveReportedPath d) (splitlines diffText)).run []
    (rejoined diffText lines, remaps)

/-! ## Without what is kept -/

section Pure

variable (find : Text → Option Text)

/-- What a path is replaced by. -/
def target (reported : Text) : Option Text :=
  if strip reported = [] ∨ strip reported = devNull then none
  else (find (strip reported)).filter fun resolved =>
    decide (resolved ≠ [] ∧ resolved ≠ normalizeWorkspacePath (strip reported))

/-- A line with its paths replaced. -/
def remapped (line : Text) : Text := Id.run (remapHeaderLine (m := Id) (target find) line)

/-- What is kept is what would be found again. -/
def Kept (remaps : Remaps) : Prop :=
  ∀ reported resolved, remaps.lookup reported = some resolved →
    strip reported = reported → target find reported = some resolved

variable {find}

theorem resolveRemap_spec {remaps : Remaps} (h : Kept find remaps) (reported : Text) :
    (resolveRemap find reported remaps).1 = target find reported ∧
      Kept find (resolveRemap find reported remaps).2 := by
  unfold resolveRemap target
  dsimp only
  by_cases hnull : strip reported = [] ∨ strip reported = devNull
  · rw [if_pos hnull, if_pos hnull]
    exact ⟨rfl, h⟩
  · rw [if_neg hnull, if_neg hnull]
    have hsame : target find (strip reported) = (find (strip reported)).filter fun resolved =>
        decide (resolved ≠ [] ∧ resolved ≠ normalizeWorkspacePath (strip reported)) := by
      unfold target
      rw [strip_strip, if_neg hnull]
    cases hlook : remaps.lookup (strip reported) with
    | some resolved =>
      have hkept := h _ _ hlook (strip_strip reported)
      rw [hsame] at hkept
      exact ⟨hkept.symm, h⟩
    | none =>
      cases hfind : find (strip reported) with
      | none => exact ⟨rfl, h⟩
      | some resolved =>
        rw [hfind] at hsame
        dsimp only
        split
        next hnew =>
          refine ⟨by simp [Option.filter, hnew], fun key value hkey hstrip => ?_⟩
          rw [List.lookup_append] at hkey
          cases hold : remaps.lookup key with
          | some old =>
            rw [hold] at hkey
            cases hkey
            exact h key _ hold hstrip
          | none =>
            rw [hold, Option.none_or, List.lookup_cons] at hkey
            split at hkey
            next heq =>
              cases hkey
              rw [eq_of_beq heq, hsame]
              simp [Option.filter, hnew]
            · cases hkey
        next hold =>
          refine ⟨?_, h⟩
          simp only [Option.filter_some, decide_eq_true_eq]
          rw [if_neg hold]

theorem remapGitLine_spec {remaps : Remaps} (h : Kept find remaps) (line : Text) :
    (remapGitLine (resolveRemap find) line remaps).1 =
        Id.run (remapGitLine (m := Id) (target find) line) ∧
      Kept find (remapGitLine (resolveRemap find) line remaps).2 := by
  unfold remapGitLine
  generalize split [' '] line = words
  rcases words with _ | ⟨u, _ | ⟨v, _ | ⟨a, _ | ⟨b, _ | ⟨c, words⟩⟩⟩⟩⟩
  case cons.cons.cons.cons.nil =>
    obtain ⟨ha, hkept⟩ := resolveRemap_spec h (stripAbPrefix a)
    obtain ⟨hb, hkept'⟩ := resolveRemap_spec hkept (stripAbPrefix b)
    exact ⟨congrArg₂ (fun p q : Option Text => gitMark ++ (p.elim a (['a', '/'] ++ ·) ++
      ' ' :: q.elim b (['b', '/'] ++ ·))) ha hb, hkept'⟩
  all_goals exact ⟨rfl, h⟩

theorem remapHeaderLine_spec {remaps : Remaps} (h : Kept find remaps) (line : Text) :
    (remapHeaderLine (resolveRemap find) line remaps).1 = remapped find line ∧
      Kept find (remapHeaderLine (resolveRemap find) line remaps).2 := by
  unfold remapped remapHeaderLine
  split
  · obtain ⟨hfound, hkept⟩ := resolveRemap_spec h (stripAbPrefix (headerPath line))
    refine ⟨?_, hkept⟩
    rw [← hfound]
    rfl
  · split
    · exact remapGitLine_spec h line
    · generalize (renameMarkers.find? fun marker => marker.isPrefixOf line) = found
      cases found with
      | some marker =>
        obtain ⟨hfound, hkept⟩ := resolveRemap_spec h (strip (line.drop marker.length))
        exact ⟨congrArg (fun p : Option Text => p.elim line (marker ++ ·)) hfound, hkept⟩
      | none => exact ⟨rfl, h⟩

theorem remapLines_spec (lines : List Text) : ∀ {remaps : Remaps}, Kept find remaps →
    (remapLines find lines remaps).1 = lines.map (remapped find) := by
  induction lines with
  | nil => exact fun _ => rfl
  | cons line lines ih =>
    intro remaps h
    obtain ⟨hline, hkept⟩ := remapHeaderLine_spec h line
    rw [List.map_cons, ← hline, ← ih hkept]
    rfl

end Pure

/-- The answers that are kept make no difference to the text. -/
theorem remapDiffPaths_text (r : Registry) (d : FS) {diffText : Text} (h : diffText ≠ []) :
    (r.remapDiffPaths d diffText).1 = rejoined diffText
      ((splitlines diffText).map (remapped (r.resolveReportedPath d))) := by
  unfold Registry.remapDiffPaths
  rw [if_neg h, ← @remapLines_spec _ (splitlines diffText) [] nofun]
  rfl

/-! ## Texts of words -/

section Words

theorem splitFuel_space : ∀ (fuel : Nat) (s : Text), s.length ≤ fuel →
    (∀ p ∈ splitFuel [' '] fuel s, ' ' ∉ p) ∧ join ' ' (splitFuel [' '] fuel s) = s := by
  intro fuel
  induction fuel with
  | zero =>
    intro s hs
    rw [List.length_eq_zero_iff.mp (Nat.le_zero.mp hs)]
    exact ⟨by simp [splitFuel], rfl⟩
  | succ fuel ih =>
    intro s hs
    rw [splitFuel]
    cases hfind : find [' '] s with
    | none =>
      refine ⟨fun p hp hmem => ?_, join_singleton s⟩
      rw [List.mem_singleton.mp hp] at hmem
      obtain ⟨u, v, rfl⟩ := List.append_of_mem hmem
      exact find_eq_none.mp hfind ⟨u, v, by simp⟩
    | some i =>
      have hcut := find_spec hfind
      have hfirst : ' ' ∉ s.take i := by
        intro hmem
        obtain ⟨u, v, huv⟩ := List.append_of_mem hmem
        have hfind' := hfind
        rw [hcut, huv] at hfind'
        have hle : i ≤ u.length := @find_first [' '] u (v ++ ([' '] ++ s.drop (i + 1))) i
          (by simpa using hfind')
        have hlen := congrArg List.length huv
        rw [List.length_append, List.length_cons] at hlen
        have := List.length_take_le i s
        omega
      have hlen := congrArg List.length hcut
      rw [List.length_append, List.length_append] at hlen
      obtain ⟨hrest, hjoin⟩ := ih (s.drop (i + [' '].length)) (by
        rw [List.length_singleton] at hlen ⊢
        omega)
      constructor
      · intro p hp
        rcases List.mem_cons.mp hp with rfl | hp
        · exact hfirst
        · exact hrest p hp
      · obtain ⟨a, l, hl⟩ := List.exists_cons_of_ne_nil
          (@splitFuel_ne_nil [' '] fuel (s.drop (i + [' '].length)))
        dsimp only
        rw [hl] at hjoin ⊢
        rw [join_cons_cons, hjoin]
        exact hcut.symm

theorem split_space (s : Text) : (∀ p ∈ split [' '] s, ' ' ∉ p) ∧ join ' ' (split [' '] s) = s :=
  splitFuel_space s.length s le_rfl

/-- The words of a git line. -/
theorem split_gitLine {a b u v x y : Text}
    (h : split [' '] (gitMark ++ (a ++ ' ' :: b)) = [u, v, x, y]) :
    x = a ∧ y = b := by
  obtain ⟨hno, hjoin⟩ := split_space (gitMark ++ (a ++ ' ' :: b))
  rw [h] at hno hjoin
  have hu := hno u (by simp)
  have hv := hno v (by simp)
  have hx := hno x (by simp)
  have hy := hno y (by simp)
  have hparts : u ++ ' ' :: (v ++ ' ' :: (x ++ ' ' :: y)) =
      "diff".toList ++ ' ' :: ("--git".toList ++ ' ' :: (a ++ ' ' :: b)) := by
    rw [join_cons_cons, join_cons_cons, join_cons_cons, join_singleton] at hjoin
    exact hjoin
  obtain ⟨_, hrest⟩ := append_cons_cancel hu (by decide) hparts
  obtain ⟨_, hlast⟩ := append_cons_cancel hv (by decide) hrest
  have hcount := congrArg (List.count ' ') hlast
  rw [List.count_append, List.count_append, List.count_cons_self, List.count_cons_self,
    List.count_eq_zero.mpr hx, List.count_eq_zero.mpr hy] at hcount
  have ha : ' ' ∉ a := List.count_eq_zero.mp (by omega)
  exact append_cons_cancel hx ha hlast

theorem strip_cons {c : Char} {t : Text} (hc : isSpace c = false) (ht : strip t = t)
    (hne : t ≠ []) : strip (c :: t) = c :: t := by
  obtain ⟨u, e, rfl⟩ : ∃ u e, t = u ++ [e] := ⟨_, _, (List.dropLast_append_getLast hne).symm⟩
  have he := last_strip ht
  unfold strip lstrip rstrip
  rw [← List.cons_append,
    List.rdropWhile_concat_neg _ _ _ (by rw [he]; exact Bool.false_ne_true), List.cons_append]
  exact List.dropWhile_cons_of_neg (by rw [hc]; exact Bool.false_ne_true)

/-- A prefix is taken off again. -/
theorem stripAbPrefix_prefixed {path pre : Text} (hpre : pre = ['a', '/'] ∨ pre = ['b', '/'])
    (hpath : strip path = path) (hne : path ≠ []) :
    stripAbPrefix (pre ++ path) = path ∧ strip (pre ++ path) = pre ++ path := by
  have hslash := strip_cons (c := '/') (by decide) hpath hne
  rcases hpre with rfl | rfl
  · have hall := strip_cons (c := 'a') (by decide) hslash (List.cons_ne_nil _ _)
    refine ⟨?_, hall⟩
    unfold stripAbPrefix
    rw [show ['a', '/'] ++ path = 'a' :: '/' :: path from rfl, hall]
    rfl
  · have hall := strip_cons (c := 'b') (by decide) hslash (List.cons_ne_nil _ _)
    refine ⟨?_, hall⟩
    unfold stripAbPrefix
    rw [show ['b', '/'] ++ path = 'b' :: '/' :: path from rfl, hall]
    rfl

end Words

/-! ## Lines twice -/

section Twice

variable (find : Text → Option Text)

/-- What a line asks for. -/
def asked (line : Text) : List Text :=
  if isHeaderLine line then [stripAbPrefix (headerPath line)]
  else if gitMark.isPrefixOf line then
    match split [' '] line with
    | [_, _, a, b] => [stripAbPrefix a, stripAbPrefix b]
    | _ => []
  else
    match renameMarkers.find? fun marker => marker.isPrefixOf line with
    | some marker => [strip (line.drop marker.length)]
    | none => []

/-- A path that is found is one line, and is found as it is. -/
structure IsSettled (path : Text) : Prop where
  unbroken : ∀ c ∈ path, isLineBreak c = false
  stripped : strip path = path
  settled : target find path = none

/-- The path that is found can stand in a header, and the old one stood there without quotes. -/
structure IsNameable (root : Path) (line path : Text) : Prop where
  noTab : '\t' ∉ path
  noSlash : '\\' ∉ path
  real : path ≠ devNull
  bare : headerPrefix line = [] → hasAb path = false ∧ path ≠ devNull.tail ∧
    ¬ (path.head? = some '"' ∧ path.getLast? = some '"')
  accepted : validatePatchPath root path = .ok ()
  unquoted : ¬ ((strip (headerPath line)).head? = some '"' ∧
    (strip (headerPath line)).getLast? = some '"')
  notNull : strip (headerPath line) ≠ devNull.tail

variable {find}

theorem ne_nil_of_target {reported path : Text} (h : target find reported = some path) :
    path ≠ [] := by
  unfold target at h
  split at h
  · cases h
  · have hkeep := (Option.filter_eq_some_iff.mp h).2
    exact (of_decide_eq_true hkeep).1

theorem remapped_header {line : Text} (h : isHeaderLine line = true) :
    remapped find line = (target find (stripAbPrefix (headerPath line))).elim line fun path =>
      line.take 4 ++ (headerPrefix line ++ (path ++ headerTrailer line)) := by
  unfold remapped remapHeaderLine
  rw [if_pos h]
  rfl

theorem headerTrailer_cases (line : Text) :
    headerTrailer line = [] ∨ ∃ t, headerTrailer line = '\t' :: t := by
  cases h : headerTrailer line with
  | nil => exact Or.inl rfl
  | cons c t =>
    have hhead := List.head?_dropWhile_not (fun c => decide (c ≠ '\t')) (line.drop 4)
    unfold headerTrailer at h
    rw [h] at hhead
    have hc : c = '\t' := by simpa using hhead
    exact Or.inr ⟨t, by rw [hc]⟩

/-- A header is its sign, its path and the rest. -/
theorem header_parts {line : Text} (h : isHeaderLine line = true) :
    ∃ sign, (sign = "--- ".toList ∨ sign = "+++ ".toList) ∧ line.take 4 = sign ∧
      line = sign ++ (headerPath line ++ headerTrailer line) := by
  have hrest : ∀ sign : Text, sign.length = 4 → sign.isPrefixOf line = true →
      line.take 4 = sign ∧ line = sign ++ (headerPath line ++ headerTrailer line) := by
    intro sign hlen hp
    obtain ⟨t, rfl⟩ := List.isPrefixOf_iff_prefix.mp hp
    have hdrop : (sign ++ t).drop 4 = t := List.drop_left' hlen
    refine ⟨List.take_left' hlen, ?_⟩
    unfold headerPath headerTrailer
    rw [hdrop, List.takeWhile_append_dropWhile]
  unfold isHeaderLine at h
  rcases (Bool.or_eq_true _ _).mp h with h | h
  · exact ⟨_, Or.inl rfl, hrest _ rfl h⟩
  · exact ⟨_, Or.inr rfl, hrest _ rfl h⟩

theorem header_of_parts {sign path trailer : Text}
    (hsign : sign = "--- ".toList ∨ sign = "+++ ".toList) (hpath : '\t' ∉ path)
    (htrailer : trailer = [] ∨ ∃ t, trailer = '\t' :: t) :
    isHeaderLine (sign ++ (path ++ trailer)) = true ∧
      headerPath (sign ++ (path ++ trailer)) = path ∧
        headerTrailer (sign ++ (path ++ trailer)) = trailer := by
  have hlen : sign.length = 4 := by
    rcases hsign with rfl | rfl
    · rfl
    · rfl
  have hkeep : ∀ c ∈ path, decide (c ≠ '\t') = true := by
    intro c hc
    rw [decide_eq_true_eq]
    intro heq
    subst heq
    exact hpath hc
  unfold headerPath headerTrailer
  rw [List.drop_left' hlen, List.takeWhile_append_of_pos hkeep, List.dropWhile_append_of_pos hkeep]
  refine ⟨?_, ?_, ?_⟩
  · rcases hsign with rfl | rfl
    · rfl
    · rfl
  · rcases htrailer with rfl | ⟨t, rfl⟩
    · exact List.append_nil path
    · rw [List.takeWhile_cons_of_neg (by simp), List.append_nil]
  · rcases htrailer with rfl | ⟨t, rfl⟩
    · rfl
    · rw [List.dropWhile_cons_of_neg (by simp)]

theorem headerPrefix_cases (line : Text) : headerPrefix line = [] ∨
    headerPrefix line = ['a', '/'] ∨ headerPrefix line = ['b', '/'] := by
  unfold headerPrefix
  split
  · split
    · exact Or.inr (Or.inl rfl)
    · exact Or.inr (Or.inr rfl)
  · exact Or.inl rfl

/-- The new path, with its prefix, stands in the header. -/
theorem remapped_path {line path : Text} {root : Path} (h : isHeaderLine line = true)
    (hname : IsNameable root line path)
    (htarget : target find (stripAbPrefix (headerPath line)) = some path) :
    isHeaderLine (remapped find line) = true ∧
      headerPath (remapped find line) = headerPrefix line ++ path ∧
      headerTrailer (remapped find line) = headerTrailer line := by
  obtain ⟨sign, hsign, htake, _⟩ := header_parts h
  have hnew : remapped find line =
      sign ++ ((headerPrefix line ++ path) ++ headerTrailer line) := by
    rw [remapped_header h, htarget, Option.elim_some, htake, List.append_assoc]
  have hno : '\t' ∉ headerPrefix line ++ path := by
    rw [List.mem_append]
    intro hcase
    rcases hcase with hp | hp
    · rcases headerPrefix_cases line with hpre | hpre | hpre
      all_goals
        rw [hpre] at hp
        exact absurd hp (by decide)
    · exact hname.noTab hp
  rw [hnew]
  exact header_of_parts hsign hno (headerTrailer_cases line)

theorem remapped_header_twice {line : Text} {root : Path} (h : isHeaderLine line = true)
    (hsettled : ∀ path, target find (stripAbPrefix (headerPath line)) = some path →
      IsSettled find path ∧ IsNameable root line path) :
    remapped find (remapped find line) = remapped find line := by
  cases htarget : target find (stripAbPrefix (headerPath line)) with
  | none =>
    have hsame : remapped find line = line := by rw [remapped_header h, htarget, Option.elim_none]
    rw [hsame, hsame]
  | some path =>
    obtain ⟨hset, hname⟩ := hsettled path htarget
    obtain ⟨hheader, hpath, _⟩ := remapped_path h hname htarget
    have hagain : stripAbPrefix (headerPrefix line ++ path) = path := by
      rcases headerPrefix_cases line with hpre | hpre
      · unfold stripAbPrefix
        rw [hpre, List.nil_append, hset.stripped, (hname.bare hpre).1, if_neg Bool.false_ne_true]
      · exact (stripAbPrefix_prefixed hpre hset.stripped (ne_nil_of_target htarget)).1
    rw [remapped_header hheader, hpath, hagain, hset.settled, Option.elim_none]

theorem remapGitLine_twice {line : Text}
    (hsettled : ∀ u v a b, split [' '] line = [u, v, a, b] → ∀ x ∈ [a, b], ∀ path,
      target find (stripAbPrefix x) = some path → IsSettled find path) :
    (∃ a b, Id.run (remapGitLine (m := Id) (target find) line) = gitMark ++ (a ++ ' ' :: b) ∧
      target find (stripAbPrefix a) = none ∧ target find (stripAbPrefix b) = none) ∨
    Id.run (remapGitLine (m := Id) (target find) line) = line := by
  unfold remapGitLine
  rcases hsplit : split [' '] line with _ | ⟨u, _ | ⟨v, _ | ⟨a, _ | ⟨b, _ | ⟨c, words⟩⟩⟩⟩⟩
  case cons.cons.cons.cons.nil =>
    have hone : ∀ x ∈ [a, b], ∀ pre : Text, pre = ['a', '/'] ∨ pre = ['b', '/'] →
        target find (stripAbPrefix ((target find (stripAbPrefix x)).elim x (pre ++ ·))) = none := by
      intro x hx pre hpre
      cases htarget : target find (stripAbPrefix x) with
      | none => exact htarget
      | some path =>
        have hset := hsettled u v a b hsplit x hx path htarget
        rw [Option.elim_some,
          (stripAbPrefix_prefixed hpre hset.stripped (ne_nil_of_target htarget)).1]
        exact hset.settled
    exact Or.inl ⟨_, _, rfl, hone a (by simp) _ (Or.inl rfl), hone b (by simp) _ (Or.inr rfl)⟩
  all_goals exact Or.inr rfl

theorem remapped_git {line : Text} (h : isHeaderLine line = false)
    (hgit : gitMark.isPrefixOf line = true) :
    remapped find line = Id.run (remapGitLine (m := Id) (target find) line) := by
  unfold remapped remapHeaderLine
  rw [if_neg (by rw [h]; exact Bool.false_ne_true), if_pos hgit]

theorem remapped_rename {line : Text} (h : isHeaderLine line = false)
    (hgit : gitMark.isPrefixOf line = false) :
    remapped find line = match renameMarkers.find? fun marker => marker.isPrefixOf line with
      | some marker => (target find (strip (line.drop marker.length))).elim line (marker ++ ·)
      | none => line := by
  unfold remapped remapHeaderLine
  rw [if_neg (by rw [h]; exact Bool.false_ne_true),
    if_neg (by rw [hgit]; exact Bool.false_ne_true)]
  generalize (renameMarkers.find? fun marker => marker.isPrefixOf line) = found
  cases found with
  | none => rfl
  | some marker => rfl

/-- A marker that is written is found again. -/
theorem remapped_marker {marker path : Text} (hmarker : marker ∈ renameMarkers) :
    remapped find (marker ++ path) =
      (target find (strip path)).elim (marker ++ path) (marker ++ ·) := by
  simp only [renameMarkers, List.map_cons, List.map_nil, List.mem_cons, List.not_mem_nil,
    or_false] at hmarker
  rcases hmarker with rfl | rfl | rfl | rfl
  all_goals
    rw [remapped_rename rfl rfl]
    rfl

theorem remapped_twice {line : Text} {root : Path}
    (hset : ∀ x ∈ asked line, ∀ path, target find x = some path → IsSettled find path)
    (hname : isHeaderLine line = true → ∀ path,
      target find (stripAbPrefix (headerPath line)) = some path → IsNameable root line path) :
    remapped find (remapped find line) = remapped find line := by
  unfold asked at hset
  cases hheader : isHeaderLine line with
  | true =>
    rw [hheader, if_pos rfl] at hset
    exact remapped_header_twice hheader fun path hpath =>
      ⟨hset _ List.mem_cons_self path hpath, hname hheader path hpath⟩
  | false =>
    rw [hheader, if_neg Bool.false_ne_true] at hset
    cases hgit : gitMark.isPrefixOf line with
    | true =>
      rw [hgit, if_pos rfl] at hset
      have hline := @remapped_git find line hheader hgit
      rcases @remapGitLine_twice find line (by
        intro u v a b hsplit
        rw [hsplit] at hset
        intro x hx path hpath
        refine hset _ ?_ path hpath
        simp only [List.mem_cons, List.not_mem_nil, or_false] at hx ⊢
        rcases hx with rfl | rfl
        · exact Or.inl rfl
        · exact Or.inr rfl) with ⟨a, b, hnew, ha, hb⟩ | hsame
      · rw [hline, hnew, remapped_git rfl (List.isPrefixOf_iff_prefix.mpr (List.prefix_append _ _))]
        unfold remapGitLine
        rcases hsplit : split [' '] (gitMark ++ (a ++ ' ' :: b)) with
          _ | ⟨u, _ | ⟨v, _ | ⟨x, _ | ⟨y, _ | ⟨c, words⟩⟩⟩⟩⟩
        case cons.cons.cons.cons.nil =>
          obtain ⟨rfl, rfl⟩ := split_gitLine hsplit
          change gitMark ++ ((target find (stripAbPrefix x)).elim x (['a', '/'] ++ ·) ++
            ' ' :: (target find (stripAbPrefix y)).elim y (['b', '/'] ++ ·)) = _
          rw [ha, hb]
          rfl
        all_goals rfl
      · rw [hline, hsame, hline, hsame]
    | false =>
      rw [hgit, if_neg Bool.false_ne_true] at hset
      have hline := @remapped_rename find line hheader hgit
      cases hfind : renameMarkers.find? fun marker => marker.isPrefixOf line with
      | none =>
        rw [hfind] at hline
        rw [hline, hline]
      | some marker =>
        rw [hfind] at hline hset
        dsimp only at hline hset
        cases htarget : target find (strip (line.drop marker.length)) with
        | none =>
          rw [htarget, Option.elim_none] at hline
          rw [hline, hline]
        | some path =>
          rw [htarget, Option.elim_some] at hline
          have hsettled := hset _ List.mem_cons_self path htarget
          rw [hline, remapped_marker (List.mem_of_find?_eq_some hfind), hsettled.stripped,
            hsettled.settled, Option.elim_none]

/-- What a line that is rewritten starts with. -/
def marks : List Text := ["--- ".toList, "+++ ".toList, gitMark] ++ renameMarkers

/-- A line stays, or keeps its mark. -/
theorem remapped_mark (line : Text) : remapped find line = line ∨
    ∃ mark ∈ marks, ∃ rest rest', line = mark ++ rest ∧ remapped find line = mark ++ rest' := by
  cases hheader : isHeaderLine line with
  | true =>
    rw [remapped_header hheader]
    cases target find (stripAbPrefix (headerPath line)) with
    | none => exact Or.inl rfl
    | some path =>
      obtain ⟨sign, hsign, htake, hline⟩ := header_parts hheader
      refine Or.inr ⟨sign, ?_, _, _, hline, by rw [Option.elim_some, htake]⟩
      unfold marks
      rcases hsign with rfl | rfl <;> simp
  | false =>
    cases hgit : gitMark.isPrefixOf line with
    | true =>
      rw [remapped_git hheader hgit]
      unfold remapGitLine
      rcases split [' '] line with _ | ⟨u, _ | ⟨v, _ | ⟨x, _ | ⟨y, _ | ⟨c, words⟩⟩⟩⟩⟩
      case cons.cons.cons.cons.nil =>
        obtain ⟨rest, hrest⟩ := List.isPrefixOf_iff_prefix.mp hgit
        exact Or.inr ⟨gitMark, by simp [marks], rest, _, hrest.symm, rfl⟩
      all_goals exact Or.inl rfl
    | false =>
      rw [remapped_rename hheader hgit]
      cases hfind : renameMarkers.find? fun marker => marker.isPrefixOf line with
      | none => exact Or.inl rfl
      | some marker =>
        dsimp only
        cases target find (strip (line.drop marker.length)) with
        | none => exact Or.inl rfl
        | some path =>
          have hprefix : marker.isPrefixOf line = true := by simpa using List.find?_some hfind
          obtain ⟨rest, hrest⟩ := List.isPrefixOf_iff_prefix.mp hprefix
          exact Or.inr ⟨marker, List.mem_append_right _ (List.mem_of_find?_eq_some hfind), rest,
            path, hrest.symm, rfl⟩

/-- What the mark of a line decides stays. -/
theorem remapped_keeps {p : Text → Bool}
    (h : ∀ mark ∈ marks, ∀ rest rest', p (mark ++ rest) = p (mark ++ rest')) (line : Text) :
    p (remapped find line) = p line := by
  rcases @remapped_mark find line with hsame | ⟨mark, hmark, rest, rest', hline, hnew⟩
  · rw [hsame]
  · rw [hnew, hline]
    exact h mark hmark rest' rest

theorem mem_marks {mark : Text} (h : mark ∈ marks) : mark = "--- ".toList ∨ mark = "+++ ".toList ∨
    mark = gitMark ∨ mark = "rename from ".toList ∨ mark = "rename to ".toList ∨
      mark = "copy from ".toList ∨ mark = "copy to ".toList := by
  simpa [marks, renameMarkers] using h

theorem isFileMark_remapped (line : Text) : isFileMark (remapped find line) = isFileMark line := by
  refine remapped_keeps (fun mark hmark rest rest' => ?_) line
  rcases mem_marks hmark with rfl | rfl | rfl | rfl | rfl | rfl | rfl <;> rfl

theorem isHunkMark_remapped (line : Text) : isHunkMark (remapped find line) = isHunkMark line := by
  refine remapped_keeps (fun mark hmark rest rest' => ?_) line
  rcases mem_marks hmark with rfl | rfl | rfl | rfl | rfl | rfl | rfl <;> rfl

theorem plus_remapped (line : Text) :
    "+++ ".toList.isPrefixOf (remapped find line) = "+++ ".toList.isPrefixOf line := by
  refine remapped_keeps (p := fun l => "+++ ".toList.isPrefixOf l) (fun mark hmark rest rest' => ?_)
    line
  rcases mem_marks hmark with rfl | rfl | rfl | rfl | rfl | rfl | rfl <;> rfl

theorem isFilePreamble_remapped (line : Text) :
    isFilePreamble (remapped find line) = isFilePreamble line := by
  refine remapped_keeps (fun mark hmark rest rest' => ?_) line
  rcases mem_marks hmark with rfl | rfl | rfl | rfl | rfl | rfl | rfl <;> rfl

theorem isEmpty_remapped (line : Text) : (remapped find line).isEmpty = line.isEmpty := by
  refine remapped_keeps (p := List.isEmpty) (fun mark hmark rest rest' => ?_) line
  rcases mem_marks hmark with rfl | rfl | rfl | rfl | rfl | rfl | rfl <;> rfl

end Twice

/-! ## The text of the new lines -/

section Text

theorem mem_join {sep c : Char} {part : Text} {parts : List Text} (hpart : part ∈ parts)
    (hc : c ∈ part) : c ∈ join sep parts := by
  induction parts with
  | nil => cases hpart
  | cons a parts ih =>
    cases parts with
    | nil =>
      rw [join_singleton]
      rwa [List.mem_singleton.mp hpart] at hc
    | cons b parts =>
      rw [join_cons_cons]
      rcases List.mem_cons.mp hpart with rfl | hpart
      · exact List.mem_append_left _ hc
      · exact List.mem_append_right _ (List.mem_cons_of_mem _ (ih hpart))

theorem splitlines_front : ∀ {front : List Text} (s : Text), (∀ line ∈ front, IsPlain line) →
    splitlines ((front.flatMap fun line => line ++ ['\n']) ++ s) = front ++ splitlines s
  | [], _, _ => rfl
  | line :: front, s, h => by
    have hrest := splitlines_front s fun l hl => h l (List.mem_cons_of_mem _ hl)
    unfold splitlines at hrest ⊢
    rw [List.flatMap_cons, List.append_assoc, List.append_assoc, List.singleton_append,
      splitlines_append (h line List.mem_cons_self), hrest]
    rfl

variable {lines : List Text}

/-- Lines of which the last one is not empty. -/
structure IsEnded (lines : List Text) : Prop where
  ne : lines ≠ []
  plain : ∀ line ∈ lines, IsPlain line
  last : lines.getLast? ≠ some []

theorem IsEnded.last_char (h : IsEnded lines) :
    ∃ c, (join '\n' lines).getLast? = some c ∧ c ≠ '\n' := by
  obtain ⟨front, last, rfl⟩ : ∃ front last, lines = front ++ [last] :=
    ⟨_, _, (List.dropLast_append_getLast h.ne).symm⟩
  have hne : last ≠ [] := by
    intro heq
    subst heq
    exact h.last (by simp)
  obtain ⟨u, c, rfl⟩ : ∃ u c, last = u ++ [c] := ⟨_, _, (List.dropLast_append_getLast hne).symm⟩
  refine ⟨c, ?_, ?_⟩
  · rw [join_front front (List.cons_ne_nil _ _), join_singleton, ← List.append_assoc]
    simp
  · intro heq
    subst heq
    exact absurd (h.plain (u ++ ['\n']) (by simp) '\n' (by simp)) (by decide)

theorem rejoined_ended (h : IsEnded lines) (diffText : Text) : rejoined diffText lines =
    if diffText.getLast? = some '\n' then join '\n' lines ++ ['\n'] else join '\n' lines := by
  obtain ⟨c, hc, hne⟩ := h.last_char
  have hno : (join '\n' lines).getLast? ≠ some '\n' := by
    rw [hc]
    exact fun heq => hne (Option.some.inj heq)
  unfold rejoined
  dsimp only
  by_cases hend : diffText.getLast? = some '\n'
  · rw [if_pos ⟨hend, hno⟩, if_pos hend]
  · rw [if_neg fun hboth => hend hboth.1, if_neg hend]

theorem splitlines_rejoined (h : IsEnded lines) (diffText : Text) :
    splitlines (rejoined diffText lines) = lines := by
  rw [rejoined_ended h]
  split
  · rw [join_newline h.ne]
    exact splitlines_endedText h.plain
  · obtain ⟨front, last, rfl⟩ : ∃ front last, lines = front ++ [last] :=
      ⟨_, _, (List.dropLast_append_getLast h.ne).symm⟩
    have hne : last ≠ [] := by
      intro heq
      subst heq
      exact h.last (by simp)
    have hlast : splitlines last = [last] :=
      splitlinesFrom_plain (h.plain last (by simp)) [] (by simpa using hne)
    rw [join_front front (List.cons_ne_nil _ _), join_singleton,
      splitlines_front last fun line hline => h.plain line (List.mem_append_left _ hline), hlast]

theorem rejoined_twice (h : IsEnded lines) (diffText : Text) :
    rejoined (rejoined diffText lines) lines = rejoined diffText lines := by
  obtain ⟨c, hc, hne⟩ := h.last_char
  rw [rejoined_ended h (rejoined diffText lines), rejoined_ended h diffText]
  by_cases hend : diffText.getLast? = some '\n'
  · rw [if_pos hend, if_pos (by simp)]
  · rw [if_neg hend, if_neg]
    rw [hc]
    exact fun heq => hne (Option.some.inj heq)

theorem rejoined_ne_nil (h : IsEnded lines) (diffText : Text) : rejoined diffText lines ≠ [] := by
  intro hnil
  have hlines := splitlines_rejoined h diffText
  rw [hnil] at hlines
  exact h.ne hlines.symm

end Text

/-! ## Paths of headers -/

section Headers

theorem strip_append_trailer {x trailer : Text} (hx : strip x = x) (hne : x ≠ []) :
    strip (x ++ trailer) = x ++ rstrip trailer := by
  have hright : rstrip x = x := by
    obtain ⟨u, e, rfl⟩ : ∃ u e, x = u ++ [e] := ⟨_, _, (List.dropLast_append_getLast hne).symm⟩
    exact List.rdropWhile_concat_neg _ _ _ (by rw [last_strip hx]; exact Bool.false_ne_true)
  have happend : rstrip (x ++ trailer) = x ++ rstrip trailer := by
    rw [rstrip_append]
    split
    next hnil => rw [hright, hnil, List.append_nil]
    · rfl
  obtain ⟨c, t, rfl⟩ := List.exists_cons_of_ne_nil hne
  unfold strip lstrip
  rw [happend, List.cons_append]
  exact List.dropWhile_cons_of_neg (by rw [head_strip hx]; exact Bool.false_ne_true)

/-- What the parser takes for the path, before a tab. -/
theorem path_of_trailer {x trailer : Text} (hx : strip x = x) (hne : x ≠ []) (hno : '\t' ∉ x)
    (htrailer : trailer = [] ∨ ∃ t, trailer = '\t' :: t) :
    (strip (x ++ trailer)).takeWhile (· ≠ '\t') = x := by
  have hkeep : ∀ c ∈ x, decide (c ≠ '\t') = true := by
    intro c hc
    rw [decide_eq_true_eq]
    intro heq
    subst heq
    exact hno hc
  rw [strip_append_trailer hx hne, List.takeWhile_append_of_pos hkeep]
  have hprefix : rstrip trailer <+: trailer := List.rdropWhile_prefix _ _
  rcases htrailer with rfl | ⟨t, rfl⟩
  · rw [List.prefix_nil.mp hprefix]
    exact List.append_nil x
  · rcases List.prefix_cons_iff.mp hprefix with hnil | ⟨u, hu, _⟩
    · rw [hnil]
      exact List.append_nil x
    · rw [hu, List.takeWhile_cons_of_neg (by simp), List.append_nil]

variable {find : Text → Option Text} {root : Path} {line path : Text}

/-- The parser reads the new path. -/
theorem cleanHeaderPath_remapped (h : isHeaderLine line = true) (hset : IsSettled find path)
    (hname : IsNameable root line path)
    (htarget : target find (stripAbPrefix (headerPath line)) = some path) :
    cleanHeaderPath ((remapped find line).drop 4) = path := by
  obtain ⟨hheader, hpath, htrailer⟩ := remapped_path h hname htarget
  have hne := ne_nil_of_target htarget
  obtain ⟨sign, hsign, htake, hline⟩ := header_parts hheader
  have hlen : sign.length = 4 := by
    rcases hsign with rfl | rfl
    · rfl
    · rfl
  have hdrop : (remapped find line).drop 4 =
      (headerPrefix line ++ path) ++ headerTrailer line := by
    rw [hline, List.drop_left' hlen, hpath, htrailer]
  have hstrip : strip (headerPrefix line ++ path) = headerPrefix line ++ path := by
    rcases headerPrefix_cases line with hpre | hpre
    · rw [hpre]
      exact hset.stripped
    · exact (stripAbPrefix_prefixed hpre hset.stripped hne).2
  have hno : '\t' ∉ headerPrefix line ++ path := by
    rw [List.mem_append]
    intro hcase
    rcases hcase with hp | hp
    · rcases headerPrefix_cases line with hpre | hpre | hpre
      all_goals
        rw [hpre] at hp
        exact absurd hp (by decide)
    · exact hname.noTab hp
  have hread := path_of_trailer hstrip (by simp [hne]) hno (headerTrailer_cases line)
  unfold cleanHeaderPath
  dsimp only
  rw [hdrop, hread]
  rcases headerPrefix_cases line with hpre | hpre | hpre
  · obtain ⟨hab, hnull, hquotes⟩ := hname.bare hpre
    rw [hpre, List.nil_append, if_neg hquotes, if_neg (not_or.mpr ⟨hname.real, hnull⟩)]
    unfold hasAb at hab
    rw [hab, if_neg Bool.false_ne_true]
    exact posixText_of_not_mem hname.noSlash
  · rw [hpre]
    exact posixText_of_not_mem hname.noSlash
  · rw [hpre]
    exact posixText_of_not_mem hname.noSlash

/-- A search that goes by the normalised path. -/
def Normalizes (find : Text → Option Text) : Prop :=
  ∀ x y, normalizeWorkspacePath x = normalizeWorkspacePath y → find x = find y

theorem strip_posixText (t : Text) : strip (posixText t) = posixText (strip t) := by
  have hspace : ∀ c : Char, isSpace (if c = '\\' then '/' else c) = isSpace c := by
    intro c
    split
    next h => rw [h]; decide
    · rfl
  unfold strip lstrip rstrip List.rdropWhile posixText
  rw [← List.map_reverse, List.dropWhile_map, ← List.map_reverse, List.dropWhile_map]
  simp only [Function.comp_def, hspace]

theorem stripQuotes_posixText (t : Text) :
    stripQuotes (posixText t) = posixText (stripQuotes t) := by
  have hquote : ∀ c : Char, (fun c : Char => c == '`' || c == '"' || c == '\x27')
      (if c = '\\' then '/' else c) = (c == '`' || c == '"' || c == '\x27') := by
    intro c
    split
    next h => rw [h]; decide
    · rfl
  unfold stripQuotes List.rdropWhile posixText
  dsimp only at hquote ⊢
  rw [List.dropWhile_map, ← List.map_reverse, List.dropWhile_map, List.map_reverse]
  simp only [Function.comp_def, hquote]

theorem normalizeWorkspacePath_posixText (t : Text) :
    normalizeWorkspacePath (posixText t) = normalizeWorkspacePath t := by
  have htwice : ∀ s : Text, posixText (posixText s) = posixText s := fun s =>
    posixText_of_not_mem fun hmem => by
      obtain ⟨c, _, hc⟩ := List.mem_map.mp hmem
      split at hc
      · exact absurd hc (by decide)
      next hne => exact hne hc
  unfold normalizeWorkspacePath
  rw [strip_posixText, stripQuotes_posixText, strip_posixText, htwice]

theorem normalizeWorkspacePath_strip {x y : Text} (h : strip x = strip y) :
    normalizeWorkspacePath x = normalizeWorkspacePath y := by
  unfold normalizeWorkspacePath
  rw [h]

/-- The parser cuts at the tab after it strips, the rewriting before it. -/
theorem cut_strip {raw : Text} (h : strip (raw.takeWhile (· ≠ '\t')) ≠ []) :
    ∃ w, (strip raw).takeWhile (· ≠ '\t') = strip (raw.takeWhile (· ≠ '\t')) ++ w ∧
      ∀ c ∈ w, isSpace c = true := by
  obtain ⟨w, w', hraw, hw, hw'⟩ := exists_strip raw
  have hblank : ∀ v : Text, (∀ c ∈ v, isSpace c = true) → strip v = [] := by
    intro v hv
    unfold strip
    rw [rstrip_spaces hv]
    rfl
  obtain ⟨v, hcut, hv⟩ : ∃ v, raw.takeWhile (· ≠ '\t') =
      w ++ ((strip raw).takeWhile (· ≠ '\t') ++ v) ∧ ∀ c ∈ v, isSpace c = true := by
    have hfirst : raw.takeWhile (· ≠ '\t') = w ++ (strip raw ++ w').takeWhile (· ≠ '\t') := by
      have happend := @List.takeWhile_append _ (fun c => decide (c ≠ '\t')) w (strip raw ++ w')
      rw [← hraw] at happend
      split at happend
      · exact happend
      · rw [happend] at h
        exact absurd (hblank _ fun c hc => hw c ((List.takeWhile_prefix _).subset hc)) h
    have hsecond := @List.takeWhile_append _ (fun c => decide (c ≠ '\t')) (strip raw) w'
    split at hsecond
    next hlen =>
      have hall : (strip raw).takeWhile (· ≠ '\t') = strip raw :=
        (List.takeWhile_prefix _).eq_of_length hlen
      refine ⟨w'.takeWhile (· ≠ '\t'), by rw [hfirst, hsecond, hall], fun c hc => ?_⟩
      exact hw' c ((List.takeWhile_prefix _).subset hc)
    · exact ⟨[], by rw [hfirst, hsecond, List.append_nil], nofun⟩
  have hsame : strip (raw.takeWhile (· ≠ '\t')) = strip ((strip raw).takeWhile (· ≠ '\t')) := by
    rw [hcut]
    exact strip_pad hw hv _
  rw [hsame] at h ⊢
  obtain ⟨u, u', hz, hu, hu'⟩ := exists_strip ((strip raw).takeWhile (· ≠ '\t'))
  cases u with
  | nil => exact ⟨u', hz, hu'⟩
  | cons c u =>
    -- a stripped text does not start with white space
    have hprefix : (strip raw).takeWhile (· ≠ '\t') <+: strip raw := List.takeWhile_prefix _
    rw [hz] at hprefix
    obtain ⟨rest, hrest⟩ := hprefix
    have hhead := head_strip hrest.symm
    rw [hu c List.mem_cons_self] at hhead
    cases hhead

theorem hasAb_spaces {k w : Text} (hw : ∀ c ∈ w, isSpace c = true) : hasAb (k ++ w) = hasAb k := by
  have hslash : ∀ c ∈ w, ('/' == c) = false := by
    intro c hc
    rw [beq_eq_false_iff_ne]
    intro heq
    subst heq
    exact absurd (hw _ hc) (by decide)
  have ha : ∀ c ∈ w, ('a' == c) = false := by
    intro c hc
    rw [beq_eq_false_iff_ne]
    intro heq
    subst heq
    exact absurd (hw _ hc) (by decide)
  have hb : ∀ c ∈ w, ('b' == c) = false := by
    intro c hc
    rw [beq_eq_false_iff_ne]
    intro heq
    subst heq
    exact absurd (hw _ hc) (by decide)
  unfold hasAb
  rcases k with _ | ⟨c, _ | ⟨d, k⟩⟩
  · cases w with
    | nil => rfl
    | cons e w => simp [List.isPrefixOf, ha e List.mem_cons_self, hb e List.mem_cons_self]
  · cases w with
    | nil => rfl
    | cons e w => simp [List.isPrefixOf, hslash e List.mem_cons_self]
  · rfl

theorem drop_of_hasAb {k w : Text} (h : hasAb k = true) : (k ++ w).drop 2 = k.drop 2 ++ w := by
  rcases k with _ | ⟨c, _ | ⟨d, k⟩⟩
  · cases h
  · exact absurd h (by simp [hasAb, List.isPrefixOf])
  · rfl

/-- What the path of the header is replaced by is what the path of the parser resolves to. -/
theorem find_cleanHeaderPath (hfind : Normalizes find) (hname : IsNameable root line path)
    (htarget : target find (stripAbPrefix (headerPath line)) = some path) :
    find (cleanHeaderPath (line.drop 4)) = some path := by
  have hnull : ¬ (strip (stripAbPrefix (headerPath line)) = [] ∨
      strip (stripAbPrefix (headerPath line)) = devNull) := by
    intro hnull
    unfold target at htarget
    rw [if_pos hnull] at htarget
    cases htarget
  have hfound : find (strip (stripAbPrefix (headerPath line))) = some path := by
    unfold target at htarget
    rw [if_neg hnull] at htarget
    exact (Option.filter_eq_some_iff.mp htarget).1
  have hne : strip (headerPath line) ≠ [] := by
    intro hnil
    refine hnull (Or.inl ?_)
    unfold stripAbPrefix
    rw [hnil]
    rfl
  obtain ⟨w, hcut, hw⟩ : ∃ w, (strip (line.drop 4)).takeWhile (· ≠ '\t') =
      strip (headerPath line) ++ w ∧ ∀ c ∈ w, isSpace c = true := cut_strip hne
  have hkeep : strip ((strip (line.drop 4)).takeWhile (· ≠ '\t')) = strip (headerPath line) := by
    rw [hcut]
    have hpad := @strip_pad [] w nofun hw (strip (headerPath line))
    rw [List.nil_append, strip_strip] at hpad
    exact hpad
  rw [← hfound]
  refine hfind _ _ ?_
  have hquotes : ¬ ((((strip (line.drop 4)).takeWhile (· ≠ '\t')).head? = some '"' ∧
      ((strip (line.drop 4)).takeWhile (· ≠ '\t')).getLast? = some '"')) := by
    intro h
    obtain ⟨hhead, hlast⟩ := h
    rcases List.eq_nil_or_concat w with rfl | ⟨u, e, rfl⟩
    · rw [hcut] at hhead hlast
      rw [List.append_nil] at hhead hlast
      exact hname.unquoted ⟨hhead, hlast⟩
    · rw [hcut, List.concat_eq_append, ← List.append_assoc, List.getLast?_append,
        List.getLast?_singleton] at hlast
      have he : e = '"' := Option.some.inj hlast
      have hspace := hw e (by simp)
      rw [he] at hspace
      exact absurd hspace (by decide)
  have hdev : ¬ (((strip (line.drop 4)).takeWhile (· ≠ '\t')) = devNull ∨
      ((strip (line.drop 4)).takeWhile (· ≠ '\t')) = devNull.tail) := by
    intro h
    rcases h with hz | hz
    · rw [hz] at hkeep
      refine hnull (Or.inr ?_)
      unfold stripAbPrefix
      rw [← hkeep]
      decide
    · rw [hz] at hkeep
      refine hname.notNull (hkeep.symm.trans ?_)
      decide
  unfold cleanHeaderPath
  dsimp only
  rw [if_neg hquotes, if_neg hdev, normalizeWorkspacePath_posixText]
  have hab := hasAb_spaces (k := strip (headerPath line)) hw
  refine normalizeWorkspacePath_strip ?_
  have hpath : (if (['a', '/'].isPrefixOf ((strip (line.drop 4)).takeWhile (· ≠ '\t')) ||
      ['b', '/'].isPrefixOf ((strip (line.drop 4)).takeWhile (· ≠ '\t'))) = true then
        ((strip (line.drop 4)).takeWhile (· ≠ '\t')).drop 2
      else (strip (line.drop 4)).takeWhile (· ≠ '\t')) = stripAbPrefix (headerPath line) ++ w := by
    have hsame : (['a', '/'].isPrefixOf ((strip (line.drop 4)).takeWhile (· ≠ '\t')) ||
        ['b', '/'].isPrefixOf ((strip (line.drop 4)).takeWhile (· ≠ '\t'))) =
        hasAb (strip (headerPath line)) := by
      rw [← hab, ← hcut]
      rfl
    rw [hsame]
    unfold stripAbPrefix
    split
    next htrue =>
      rw [hcut]
      exact drop_of_hasAb htrue
    · exact hcut
  rw [hpath, strip_strip]
  have hpad := @strip_pad [] w nofun hw (stripAbPrefix (headerPath line))
  rwa [List.nil_append] at hpad

end Headers

/-! ## The patches -/

section Patches

/-- The same hunks, under paths that stay or are resolved. -/
structure SamePatch (find : Text → Option Text) (p p' : FilePatch) : Prop where
  hunks : p'.hunks = p.hunks
  old : p'.oldPath = p.oldPath ∨ find p.oldPath = some p'.oldPath
  new : p'.newPath = p.newPath ∨ find p.newPath = some p'.newPath

theorem sections_mapped {starts : Text → Bool} {g : Text → Text}
    (hg : ∀ line, starts (g line) = starts line) (lines : List Text) :
    sections starts (lines.map g) = ((sections starts lines).1.map g,
      (sections starts lines).2.map fun s => (g s.1, s.2.map g)) := by
  induction lines with
  | nil => rfl
  | cons line lines ih =>
    rw [List.map_cons, sections, ih, sections, hg]
    dsimp only
    split
    · rfl
    · rfl

/-- What is in a section does not start one. -/
theorem sections_inner {starts : Text → Bool} {lines : List Text} :
    (∀ line ∈ (sections starts lines).1, starts line = false) ∧
      ∀ s ∈ (sections starts lines).2, starts s.1 = true ∧ ∀ line ∈ s.2, starts line = false := by
  induction lines with
  | nil => exact ⟨List.forall_mem_nil _, List.forall_mem_nil _⟩
  | cons line lines ih =>
    rw [sections]
    dsimp only
    split
    next hstart =>
      refine ⟨List.forall_mem_nil _, fun s hs => ?_⟩
      rcases List.mem_cons.mp hs with rfl | hs
      · exact ⟨hstart, ih.1⟩
      · exact ih.2 s hs
    next hno =>
      refine ⟨fun l hl => ?_, ih.2⟩
      rcases List.mem_cons.mp hl with rfl | hl
      · simpa using hno
      · exact ih.1 l hl

theorem mapM_mapped {α β ε : Type} {f : α → Except ε β} {h : α → α} {R : β → β → Prop} :
    ∀ {l : List α} {out : List β},
      (∀ a ∈ l, ∀ b, f a = .ok b → ∃ b', f (h a) = .ok b' ∧ R b b') → l.mapM f = .ok out →
        ∃ out', (l.map h).mapM f = .ok out' ∧ List.Forall₂ R out out' := by
  intro l
  induction l with
  | nil =>
    intro out _ hrun
    cases hrun
    exact ⟨[], rfl, List.Forall₂.nil⟩
  | cons a l ih =>
    intro out hstep hrun
    rw [List.mapM_cons] at hrun
    obtain ⟨b, hb, hrun⟩ := result_bind_ok.mp hrun
    obtain ⟨rest, hrest, hrun⟩ := result_bind_ok.mp hrun
    cases hrun
    obtain ⟨b', hb', hr⟩ := hstep a List.mem_cons_self b hb
    obtain ⟨rest', hrest', hall⟩ := ih (fun x hx => hstep x (List.mem_cons_of_mem a hx)) hrest
    refine ⟨b' :: rest', ?_, List.Forall₂.cons hr hall⟩
    rw [List.map_cons, List.mapM_cons, hb', hrest']
    rfl

variable {find : Text → Option Text} {root : Path}

/-- A line of a hunk that is no header stays. -/
theorem remapped_hunkLine {line : Text} (hfile : isFileMark line = false)
    (hplus : "+++ ".toList.isPrefixOf line = true →
      target find (stripAbPrefix (headerPath line)) = none)
    (hmarker : marker line = '\\' ∨ marker line = ' ' ∨ marker line = '+' ∨ marker line = '-') :
    remapped find line = line := by
  rcases @remapped_mark find line with hsame | ⟨mark, hmark, rest, rest', hline, _⟩
  · exact hsame
  · rcases mem_marks hmark with rfl | rfl | rfl | rfl | rfl | rfl | rfl
    · rw [hline] at hfile
      cases hfile
    · have hp : "+++ ".toList.isPrefixOf line = true := by
        rw [hline]
        rfl
      have hheader : isHeaderLine line = true := by
        rw [hline]
        rfl
      rw [remapped_header hheader, hplus hp, Option.elim_none]
    · have hm : marker (gitMark ++ rest) = 'd' := rfl
      rw [hline, hm] at hmarker
      exact absurd hmarker (by decide)
    · have hm : marker ("rename from ".toList ++ rest) = 'r' := rfl
      rw [hline, hm] at hmarker
      exact absurd hmarker (by decide)
    · have hm : marker ("rename to ".toList ++ rest) = 'r' := rfl
      rw [hline, hm] at hmarker
      exact absurd hmarker (by decide)
    · have hm : marker ("copy from ".toList ++ rest) = 'c' := rfl
      rw [hline, hm] at hmarker
      exact absurd hmarker (by decide)
    · have hm : marker ("copy to ".toList ++ rest) = 'c' := rfl
      rw [hline, hm] at hmarker
      exact absurd hmarker (by decide)

/-- A header is read as the same path, or as the one it resolves to. -/
theorem header_path {line : Text} (hfind : Normalizes find) (h : isHeaderLine line = true)
    (hset : ∀ path, target find (stripAbPrefix (headerPath line)) = some path →
      IsSettled find path ∧ IsNameable root line path)
    (hok : validatePatchPath root (cleanHeaderPath (line.drop 4)) = .ok ()) :
    (cleanHeaderPath ((remapped find line).drop 4) = cleanHeaderPath (line.drop 4) ∨
      find (cleanHeaderPath (line.drop 4)) = some (cleanHeaderPath ((remapped find line).drop 4)) ∧
        cleanHeaderPath ((remapped find line).drop 4) ≠ devNull) ∧
    validatePatchPath root (cleanHeaderPath ((remapped find line).drop 4)) = .ok () := by
  cases htarget : target find (stripAbPrefix (headerPath line)) with
  | none =>
    have hsame : remapped find line = line := by rw [remapped_header h, htarget, Option.elim_none]
    rw [hsame]
    exact ⟨Or.inl rfl, hok⟩
  | some path =>
    obtain ⟨hsettled, hname⟩ := hset path htarget
    rw [cleanHeaderPath_remapped h hsettled hname htarget]
    exact ⟨Or.inr ⟨find_cleanHeaderPath hfind hname htarget, hname.real⟩, hname.accepted⟩

theorem validatePatchPaths_ok {oldPath newPath : Text} :
    validatePatchPaths root oldPath newPath = .ok () ↔ ¬ (oldPath = devNull ∧ newPath = devNull) ∧
      validatePatchPath root oldPath = .ok () ∧ validatePatchPath root newPath = .ok () := by
  unfold validatePatchPaths
  by_cases hnull : oldPath = devNull ∧ newPath = devNull
  · rw [if_pos hnull]
    exact iff_of_false nofun fun h => h.1 hnull
  · rw [if_neg hnull]
    cases hold : validatePatchPath root oldPath with
    | error e =>
      refine iff_of_false ?_ fun h => nomatch h.2.1
      exact nofun
    | ok u =>
      refine ⟨fun h => ⟨hnull, rfl, ?_⟩, fun h => ?_⟩
      · exact h
      · exact h.2.2

/-- A section reads as the same patch. -/
theorem parseFilePatch_remapped {s : Text × List Text} {p : FilePatch} (hfind : Normalizes find)
    (hfile : isFileMark s.1 = true) (hinner : ∀ line ∈ s.2, isFileMark line = false)
    (hset : ∀ line ∈ s.1 :: s.2, isHeaderLine line = true → ∀ path,
      target find (stripAbPrefix (headerPath line)) = some path →
        IsSettled find path ∧ IsNameable root line path)
    (hplus : ∀ line ∈ s.2.tail, "+++ ".toList.isPrefixOf line = true →
      target find (stripAbPrefix (headerPath line)) = none)
    (h : parseFilePatch root s = .ok p) :
    ∃ p', parseFilePatch root (remapped find s.1, s.2.map (remapped find)) = .ok p' ∧
      SamePatch find p p' := by
  have hmarkers := (parseFilePatch_hunks h).2
  obtain ⟨header, lines⟩ := s
  cases lines with
  | nil => cases h
  | cons second body =>
    dsimp only at hfile hinner hset hplus hmarkers ⊢
    rw [List.tail_cons] at hplus hmarkers
    have hsame : ((sections isHunkMark body).2.map fun s =>
        (remapped find s.1, s.2.map (remapped find))) = (sections isHunkMark body).2 := by
      refine (List.map_congr_left fun s hs => ?_).trans (List.map_id _)
      have hmark := (sections_inner.2 s hs).1
      have hhead : remapped find s.1 = s.1 := by
        rcases @remapped_mark find s.1 with hsame | ⟨mark, hm, rest, rest', hline, _⟩
        · exact hsame
        · rw [hline] at hmark
          rcases mem_marks hm with rfl | rfl | rfl | rfl | rfl | rfl | rfl <;> cases hmark
      have hlines : s.2.map (remapped find) = s.2 := by
        refine (List.map_congr_left fun line hline => ?_).trans (List.map_id _)
        have hbody := (mem_sections hs).2 line hline
        exact remapped_hunkLine (hinner line (List.mem_cons_of_mem second hbody))
          (hplus line hbody) (hmarkers s hs line hline)
      rw [hhead, hlines]
      rfl
    unfold parseFilePatch at h ⊢
    rw [List.map_cons]
    dsimp only at h ⊢
    rw [plus_remapped, sections_mapped isHunkMark_remapped, hsame]
    split at h
    · cases h
    next hsecond =>
      rw [if_neg hsecond]
      obtain ⟨_, hpaths, h⟩ := result_bind_ok.mp h
      obtain ⟨hnull, hold, hnew⟩ := validatePatchPaths_ok.mp hpaths
      have hheader : isHeaderLine header = true := by
        unfold isHeaderLine
        unfold isFileMark at hfile
        rw [hfile]
        rfl
      have hheader' : isHeaderLine second = true := by
        unfold isHeaderLine
        rw [(Bool.eq_false_or_eq_true _).resolve_right hsecond, Bool.or_true]
      obtain ⟨hsameOld, hold'⟩ := header_path hfind hheader
        (hset header List.mem_cons_self hheader) hold
      obtain ⟨hsameNew, hnew'⟩ := header_path hfind hheader'
        (hset second (List.mem_cons_of_mem _ List.mem_cons_self) hheader') hnew
      have hvalid : validatePatchPaths root (cleanHeaderPath ((remapped find header).drop 4))
          (cleanHeaderPath ((remapped find second).drop 4)) = .ok () := by
        refine validatePatchPaths_ok.mpr ⟨fun hboth => hnull ?_, hold', hnew'⟩
        constructor
        · rcases hsameOld with heq | ⟨_, hne⟩
          · exact heq.symm.trans hboth.1
          · exact absurd hboth.1 hne
        · rcases hsameNew with heq | ⟨_, hne⟩
          · exact heq.symm.trans hboth.2
          · exact absurd hboth.2 hne
      split at h
      · cases h
      next hpre =>
        have hpre' : ((sections isHunkMark body).1.map (remapped find)).find?
            (fun line => !isFilePreamble line) = none := by
          rw [List.find?_eq_none] at hpre ⊢
          intro line hline
          obtain ⟨l, hl, rfl⟩ := List.mem_map.mp hline
          rw [isFilePreamble_remapped]
          exact hpre l hl
        obtain ⟨hunks, hhunks, h⟩ := result_bind_ok.mp h
        split at h
        · cases h
        next hne =>
          cases h
          refine ⟨⟨cleanHeaderPath ((remapped find header).drop 4),
            cleanHeaderPath ((remapped find second).drop 4), hunks⟩, ?_, rfl,
            hsameOld.imp id And.left, hsameNew.imp id And.left⟩
          refine result_bind_ok.mpr ⟨(), hvalid, ?_⟩
          rw [hpre']
          exact result_bind_ok.mpr ⟨hunks, hhunks, if_neg hne⟩

end Patches

/-! ## The diff -/

section Whole

variable {find : Text → Option Text} {root : Path}

/-- A diff whose headers can be rewritten: its last line is not empty, no line of a hunk looks like
a header whose path is resolved to another, and the paths found can be written down. -/
structure IsRemappable (find : Text → Option Text) (root : Path) (diffText : Text) : Prop where
  ended : (splitlines diffText).getLast? ≠ some []
  body : ∀ s ∈ (sections isFileMark (splitlines diffText)).2, ∀ line ∈ s.2.tail,
    "+++ ".toList.isPrefixOf line = true → target find (stripAbPrefix (headerPath line)) = none
  settled : ∀ line ∈ splitlines diffText, ∀ x ∈ asked line, ∀ path, target find x = some path →
    IsSettled find path
  nameable : ∀ line ∈ splitlines diffText, isHeaderLine line = true → ∀ path,
    target find (stripAbPrefix (headerPath line)) = some path → IsNameable root line path

theorem plain_append {s t : Text} (hs : IsPlain s) (ht : IsPlain t) : IsPlain (s ++ t) :=
  fun c hc => (List.mem_append.mp hc).elim (hs c) (ht c)

theorem plain_of_subset {s t : Text} (ht : IsPlain t) (h : ∀ c ∈ s, c ∈ t) : IsPlain s :=
  fun c hc => ht c (h c hc)

theorem plain_marks {mark : Text} (h : mark ∈ marks) : IsPlain mark :=
  @unbroken_of_all marks rfl mark h

/-- A rewritten line is one line. -/
theorem plain_remapped {line : Text} (hline : IsPlain line)
    (hset : ∀ x ∈ asked line, ∀ path, target find x = some path → IsSettled find path) :
    IsPlain (remapped find line) := by
  have hpre : ∀ pre : Text, pre = ['a', '/'] ∨ pre = ['b', '/'] → IsPlain pre := fun pre hpre =>
    @unbroken_of_all [['a', '/'], ['b', '/']] rfl pre (by simpa using hpre)
  unfold asked at hset
  cases hheader : isHeaderLine line with
  | true =>
    rw [hheader, if_pos rfl] at hset
    rw [remapped_header hheader]
    cases htarget : target find (stripAbPrefix (headerPath line)) with
    | none => exact hline
    | some path =>
      refine plain_append (plain_of_subset hline fun c hc => List.mem_of_mem_take hc)
        (plain_append ?_ (plain_append (hset _ List.mem_cons_self path htarget).unbroken
          (plain_of_subset hline fun c hc =>
            List.mem_of_mem_drop ((List.dropWhile_suffix _).subset hc))))
      rcases headerPrefix_cases line with hp | hp
      · rw [hp]
        exact nofun
      · exact hpre _ hp
  | false =>
    rw [hheader, if_neg Bool.false_ne_true] at hset
    cases hgit : gitMark.isPrefixOf line with
    | true =>
      rw [hgit, if_pos rfl] at hset
      rw [remapped_git hheader hgit]
      unfold remapGitLine
      have hwords := (split_space line).2
      rcases hsplit : split [' '] line with _ | ⟨u, _ | ⟨v, _ | ⟨x, _ | ⟨y, _ | ⟨c, words⟩⟩⟩⟩⟩
      case cons.cons.cons.cons.nil =>
        rw [hsplit] at hset hwords
        have hword : ∀ z ∈ [u, v, x, y], IsPlain z := fun z hz =>
          plain_of_subset hline fun c hc => hwords ▸ mem_join hz hc
        have hone : ∀ z ∈ [x, y], ∀ pre : Text, pre = ['a', '/'] ∨ pre = ['b', '/'] →
            IsPlain ((target find (stripAbPrefix z)).elim z (pre ++ ·)) := by
          intro z hz pre hp
          cases htarget : target find (stripAbPrefix z) with
          | none => exact hword z (List.mem_cons_of_mem u (List.mem_cons_of_mem v hz))
          | some path =>
            refine plain_append (hpre pre hp) (hset _ ?_ path htarget).unbroken
            simp only [List.mem_cons, List.not_mem_nil, or_false] at hz ⊢
            rcases hz with rfl | rfl
            · exact Or.inl rfl
            · exact Or.inr rfl
        refine plain_append (plain_marks (by simp [marks]))
          (plain_append (hone x (by simp) _ (Or.inl rfl)) fun c hc => ?_)
        rcases List.mem_cons.mp hc with rfl | hc
        · decide
        · exact hone y (by simp) _ (Or.inr rfl) c hc
      all_goals exact hline
    | false =>
      rw [hgit, if_neg Bool.false_ne_true] at hset
      rw [remapped_rename hheader hgit]
      cases hfound : renameMarkers.find? fun marker => marker.isPrefixOf line with
      | none => exact hline
      | some marker =>
        rw [hfound] at hset
        dsimp only at hset ⊢
        cases htarget : target find (strip (line.drop marker.length)) with
        | none => exact hline
        | some path =>
          exact plain_append
            (plain_marks (List.mem_append_right _ (List.mem_of_find?_eq_some hfound)))
            (hset _ List.mem_cons_self path htarget).unbroken

/-- The new lines are lines, of which the last one is not empty. -/
theorem ended_remapped {diffText : Text} (hne : diffText ≠ [])
    (h : IsRemappable find root diffText) :
    IsEnded ((splitlines diffText).map (remapped find)) where
  ne := by
    rw [ne_eq, List.map_eq_nil_iff]
    exact splitlines_ne_nil hne
  plain := by
    intro line hline
    obtain ⟨l, hl, rfl⟩ := List.mem_map.mp hline
    exact plain_remapped (isPlain_splitlines hl) (h.settled l hl)
  last := by
    rw [List.getLast?_map]
    intro hlast
    obtain ⟨line, hline, hnil⟩ := Option.map_eq_some_iff.mp hlast
    have hempty := @isEmpty_remapped find line
    rw [hnil] at hempty
    rw [List.isEmpty_iff.mp hempty.symm] at hline
    exact h.ended hline

/-- The new text is read as the same patches. -/
theorem parse_rejoined {diffText : Text} {patches : List FilePatch} (hfind : Normalizes find)
    (hne : diffText ≠ []) (h : IsRemappable find root diffText)
    (hparse : parseFilePatches root diffText = .ok patches) :
    ∃ patches', parseFilePatches root
        (rejoined diffText ((splitlines diffText).map (remapped find))) = .ok patches' ∧
      List.Forall₂ (SamePatch find) patches patches' := by
  have hlines := splitlines_rejoined (ended_remapped hne h) diffText
  obtain ⟨hread, hsome⟩ := parseFilePatches_lines.mp hparse
  obtain ⟨patches', hread', hall⟩ := @mapM_mapped _ _ _ (parseFilePatch root)
    (fun s : Text × List Text => (remapped find s.1, s.2.map (remapped find)))
    (SamePatch find) _ _ (fun s hs p hp => by
      obtain ⟨hfile, hinner⟩ := sections_inner.2 s hs
      have hmem := mem_sections hs
      refine parseFilePatch_remapped hfind hfile hinner
        (fun line hline hheader path hpath => ?_) (h.body s hs) hp
      have hin : line ∈ splitlines diffText := by
        rcases List.mem_cons.mp hline with rfl | hline
        · exact hmem.1
        · exact hmem.2 line hline
      refine ⟨h.settled line hin _ ?_ path hpath, h.nameable line hin hheader path hpath⟩
      unfold asked
      rw [hheader, if_pos rfl]
      exact List.mem_cons_self) hread
  refine ⟨patches', parseFilePatches_lines.mpr ⟨?_, ?_⟩, hall⟩
  · rw [hlines, sections_mapped isFileMark_remapped]
    exact hread'
  · intro heq
    subst heq
    cases hall
    exact hsome rfl

theorem normalizes_resolve (r : Registry) (d : FS) : Normalizes (r.resolveReportedPath d) := by
  intro x y h
  unfold Registry.resolveReportedPath
  rw [h]

end Whole

end Shamsu.Tools
