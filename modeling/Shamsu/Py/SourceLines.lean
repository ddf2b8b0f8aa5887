import Shamsu.Py.Endings

/-!
# Lines as the parser counts them

Python's parser ends a line at LF, CRLF or CR; `splitlines` breaks at more. `sourceLines` are
the lines of the parser with their ends, and `splitlines` cuts each of them further
(`IsCut.splitlines_flatten`). A text that is put together from lines with LF has nothing but
LF in it, which is what `IsCut.newlines_of_prefix` finds of the lines before a change.
-/

namespace Shamsu.Py

/-- The lines that end at LF, CRLF or CR, with what ends them. -/
def sourceLinesFrom : Text → Text → List Text
  | acc, [] => if acc.isEmpty then [] else [acc.reverse]
  | acc, '\r' :: '\n' :: s => (acc.reverse ++ ['\r', '\n']) :: sourceLinesFrom [] s
  | acc, c :: s =>
    if c = '\n' ∨ c = '\r' then (acc.reverse ++ [c]) :: sourceLinesFrom [] s
    else sourceLinesFrom (c :: acc) s

def sourceLines (s : Text) : List Text := sourceLinesFrom [] s

/-- What ends a line. -/
def lineEnds : List Text := [['\n'], ['\r', '\n'], ['\r']]

/-- No LF and no CR. -/
def Unbroken (t : Text) : Prop := '\n' ∉ t ∧ '\r' ∉ t

/-- No line break but LF. -/
def NewlinesOnly (t : Text) : Prop := ∀ c ∈ t, isLineBreak c = true → c = '\n'

instance (t : Text) : Decidable (NewlinesOnly t) :=
  List.decidableBAll (fun c => isLineBreak c = true → c = '\n') t

/-- The LF that a text ends with. -/
def lastNewline (t : Text) : Text := if t.getLast? = some '\n' then ['\n'] else []

/-- Lines of a text as the parser cuts it. -/
inductive IsCut : List Text → Prop
  | nil : IsCut []
  | last {p : Text} : p ≠ [] → Unbroken p → IsCut [p]
  | cons {u e : Text} {rest : List Text} : Unbroken u → e ∈ lineEnds →
      (e = ['\r'] → rest.flatten.head? ≠ some '\n') → IsCut rest → IsCut ((u ++ e) :: rest)

theorem append_cons_cancel {α : Type} {a : α} {xs ys t u : List α} (hx : a ∉ xs) (hy : a ∉ ys)
    (h : xs ++ a :: t = ys ++ a :: u) : xs = ys ∧ t = u := by
  rcases List.append_eq_append_iff.mp h with ⟨as, rfl, has⟩ | ⟨bs, rfl, hbs⟩
  · cases as with
    | nil => exact ⟨(List.append_nil xs).symm, (List.cons.inj has).2⟩
    | cons b as =>
      obtain ⟨rfl, _⟩ := List.cons.inj has
      exact absurd (List.mem_append_right xs List.mem_cons_self) hy
  · cases bs with
    | nil => exact ⟨List.append_nil ys, (List.cons.inj hbs).2.symm⟩
    | cons b bs =>
      obtain ⟨rfl, _⟩ := List.cons.inj hbs
      exact absurd (List.mem_append_right ys List.mem_cons_self) hx

/-! ## The cut -/

theorem sourceLinesFrom_flatten (s : Text) : ∀ acc : Text,
    (sourceLinesFrom acc s).flatten = acc.reverse ++ s := by
  intro acc
  induction acc, s using sourceLinesFrom.induct with
  | case1 acc hacc =>
    rw [sourceLinesFrom, if_pos hacc, List.isEmpty_iff.mp hacc]
    rfl
  | case2 acc hacc =>
    rw [sourceLinesFrom, if_neg hacc]
    simp
  | case3 acc s ih =>
    rw [sourceLinesFrom, List.flatten_cons, ih, List.append_assoc]
    rfl
  | case4 acc c s hne hbreak ih =>
    rw [sourceLinesFrom, if_pos hbreak, List.flatten_cons, ih, List.append_assoc]
    · rfl
    · exact hne
  | case5 acc c s hne hbreak ih =>
    rw [sourceLinesFrom, if_neg hbreak, ih, List.reverse_cons, List.append_assoc]
    · rfl
    · exact hne

theorem sourceLines_flatten (s : Text) : (sourceLines s).flatten = s := sourceLinesFrom_flatten s []

theorem Unbroken.reverse {t : Text} (h : Unbroken t) : Unbroken t.reverse :=
  ⟨fun hc => h.1 (List.mem_reverse.mp hc), fun hc => h.2 (List.mem_reverse.mp hc)⟩

theorem isCut_sourceLinesFrom (s : Text) : ∀ acc : Text, Unbroken acc →
    IsCut (sourceLinesFrom acc s) := by
  have hnil : Unbroken [] := ⟨List.not_mem_nil, List.not_mem_nil⟩
  intro acc
  induction acc, s using sourceLinesFrom.induct with
  | case1 acc hacc =>
    intro _
    rw [sourceLinesFrom, if_pos hacc]
    exact .nil
  | case2 acc hacc =>
    intro h
    rw [sourceLinesFrom, if_neg hacc]
    exact .last (fun hnil => hacc (by simpa using hnil)) h.reverse
  | case3 acc s ih =>
    intro h
    rw [sourceLinesFrom]
    exact .cons h.reverse (by simp [lineEnds]) (fun he => by cases he) (ih hnil)
  | case4 acc c s hne hbreak ih =>
    intro h
    rw [sourceLinesFrom, if_pos hbreak]
    · refine .cons h.reverse ?_ ?_ (ih hnil)
      · rcases hbreak with rfl | rfl <;> simp [lineEnds]
      · intro he hhead
        cases he
        rw [sourceLinesFrom_flatten, List.reverse_nil, List.nil_append] at hhead
        -- a CR before an LF is cut with it
        cases s with
        | nil => cases hhead
        | cons d s =>
          cases hhead
          exact hne s rfl rfl
    · exact hne
  | case5 acc c s hne hbreak ih =>
    intro h
    rw [sourceLinesFrom, if_neg hbreak]
    · rw [not_or] at hbreak
      refine ih ⟨fun hc => ?_, fun hc => ?_⟩
      · exact (List.mem_cons.mp hc).elim (fun he => hbreak.1 he.symm) h.1
      · exact (List.mem_cons.mp hc).elim (fun he => hbreak.2 he.symm) h.2
    · exact hne

theorem isCut_sourceLines (s : Text) : IsCut (sourceLines s) :=
  isCut_sourceLinesFrom s [] ⟨List.not_mem_nil, List.not_mem_nil⟩

/-! ## What `splitlines` makes of it -/

/-- A text that ends in a line break, which the text after it does not go on. -/
def EndsAt (u x : Text) : Prop :=
  ∃ v c, u = v ++ [c] ∧ isLineBreak c = true ∧ (c = '\r' → x.head? ≠ some '\n')

theorem EndsAt.tail {c d : Char} {s x : Text} (h : EndsAt (c :: d :: s) x) : EndsAt (d :: s) x := by
  obtain ⟨v, b, hv, hb⟩ := h
  cases v with
  | nil => cases hv
  | cons a v =>
    rw [List.cons_append] at hv
    exact ⟨v, b, (List.cons.inj hv).2, hb⟩

theorem splitlinesFrom_endsAt {x : Text} (u : Text) : ∀ acc : Text, EndsAt u x →
    splitlinesFrom acc (u ++ x) = splitlinesFrom acc u ++ splitlines x := by
  have hnil : ¬ EndsAt [] x := by
    intro hsome
    obtain ⟨v, c, hv, _⟩ := hsome
    exact absurd hv.symm (by simp)
  intro acc
  induction acc, u using splitlinesFrom.induct with
  | case1 acc hacc => exact fun h => absurd h hnil
  | case2 acc hacc => exact fun h => absurd h hnil
  | case3 acc s ih =>
    intro h
    rw [List.cons_append, List.cons_append, splitlinesFrom, splitlinesFrom]
    cases s with
    | nil => rfl
    | cons d s => rw [ih h.tail.tail, List.cons_append]
  | case4 acc c s hne hbreak ih =>
    intro h
    have hcut : ∀ t : Text, (∀ s' : Text, c = '\r' → t = '\n' :: s' → False) →
        splitlinesFrom acc (c :: t) = acc.reverse :: splitlinesFrom [] t := by
      intro t ht
      rw [splitlinesFrom, if_pos hbreak]
      exact ht
    rw [List.cons_append, hcut s hne]
    cases s with
    | nil =>
      rw [hcut]
      · rfl
      · intro s' hc hs
        obtain ⟨v, b, hv, _, hhead⟩ := h
        have hbc : c = b := by
          have := congrArg List.getLast? hv
          simpa using this
        exact hhead (hbc ▸ hc) (by rw [← List.nil_append x, hs]; rfl)
    | cons d s =>
      rw [hcut, ih h.tail, List.cons_append]
      exact fun s' hc hs => hne s hc (by rw [(List.cons.inj hs).1])
  | case5 acc c s hne hbreak ih =>
    intro h
    cases s with
    | nil =>
      obtain ⟨v, b, hv, hb, _⟩ := h
      have hbc : c = b := by
        have := congrArg List.getLast? hv
        simpa using this
      exact absurd (hbc ▸ hb) hbreak
    | cons d s =>
      have hc : c ≠ '\r' := fun hc => hbreak (hc ▸ by decide)
      rw [List.cons_append, splitlinesFrom_cons hc, if_neg hbreak, ih h.tail,
        splitlinesFrom_cons hc, if_neg hbreak]

theorem ends_of_cut {u e x : Text} (he : e ∈ lineEnds) (hx : e = ['\r'] → x.head? ≠ some '\n') :
    EndsAt (u ++ e) x := by
  simp only [lineEnds, List.mem_cons, List.not_mem_nil, or_false] at he
  rcases he with rfl | rfl | rfl
  · exact ⟨u, '\n', rfl, by decide, fun h => absurd h (by decide)⟩
  · exact ⟨u ++ ['\r'], '\n', by simp, by decide, fun h => absurd h (by decide)⟩
  · exact ⟨u, '\r', rfl, by decide, fun _ => hx rfl⟩

/-- Each line is cut on its own. -/
theorem IsCut.splitlines_flatten {ls : List Text} (h : IsCut ls) :
    splitlines ls.flatten = ls.flatMap splitlines := by
  induction h with
  | nil => rfl
  | last hne hp => simp
  | cons hu he hhead hrest ih =>
    rw [List.flatten_cons, List.flatMap_cons, ← ih, splitlines, splitlines,
      splitlinesFrom_endsAt _ _ (ends_of_cut he hhead)]

theorem IsCut.ne_nil {ls : List Text} (h : IsCut ls) : ∀ p ∈ ls, p ≠ [] := by
  induction h with
  | nil => exact fun p hp => absurd hp List.not_mem_nil
  | last hne _ =>
    intro p hp
    rw [List.mem_singleton.mp hp]
    exact hne
  | cons hu he _ _ ih =>
    intro p hp
    rcases List.mem_cons.mp hp with rfl | hp
    · intro hnil
      rw [(List.append_eq_nil_iff.mp hnil).2] at he
      exact absurd he (by decide)
    · exact ih p hp

theorem splitlines_ne_nil {t : Text} (h : t ≠ []) : splitlines t ≠ [] :=
  splitlinesFrom_ne_nil (Or.inr h)

theorem length_le_flatMap {ls : List Text} (h : ∀ p ∈ ls, p ≠ []) :
    ls.length ≤ (ls.flatMap splitlines).length := by
  induction ls with
  | nil => exact Nat.le_refl _
  | cons p ls ih =>
    have hp := List.length_pos_iff.mpr (splitlines_ne_nil (h p List.mem_cons_self))
    have := ih fun q hq => h q (List.mem_cons_of_mem p hq)
    rw [List.flatMap_cons, List.length_append, List.length_cons]
    omega

/-- The first line ends where the first break is. -/
theorem splitlinesFrom_break {w : Text} (hw : IsPlain w) {c : Char} (hc : isLineBreak c = true)
    (v : Text) : ∀ acc : Text, ∃ more, splitlinesFrom acc (w ++ c :: v) = (acc.reverse ++ w) :: more ∧
      (c = '\n' → more = splitlines v) := by
  induction w with
  | nil =>
    intro acc
    by_cases hcr : ∃ s, c = '\r' ∧ v = '\n' :: s
    · obtain ⟨s, rfl, rfl⟩ := hcr
      exact ⟨splitlinesFrom [] s, by simp [splitlinesFrom], fun h => absurd h (by decide)⟩
    · refine ⟨splitlinesFrom [] v, ?_, fun _ => rfl⟩
      rw [List.nil_append, splitlinesFrom, if_pos hc, List.append_nil]
      exact fun s hcr' hv => hcr ⟨s, hcr', hv⟩
  | cons d w ih =>
    intro acc
    have hd : isLineBreak d = false := hw d List.mem_cons_self
    have hcr : d ≠ '\r' := fun h => by rw [h] at hd; exact absurd hd (by decide)
    obtain ⟨more, hmore, hv⟩ := ih (fun b hb => hw b (List.mem_cons_of_mem d hb)) (d :: acc)
    refine ⟨more, ?_, hv⟩
    rw [List.cons_append, splitlinesFrom_cons hcr, if_neg (by rw [hd]; exact Bool.false_ne_true),
      hmore, List.reverse_cons, List.append_assoc]
    rfl

theorem splitlinesFrom_plain {u : Text} (h : IsPlain u) : ∀ acc : Text, acc.reverse ++ u ≠ [] →
    splitlinesFrom acc u = [acc.reverse ++ u] := by
  induction u with
  | nil =>
    intro acc hne
    have hacc : acc.isEmpty = false := by
      rw [Bool.eq_false_iff]
      intro hnil
      rw [List.isEmpty_iff.mp hnil] at hne
      exact hne rfl
    rw [splitlinesFrom, hacc, if_neg Bool.false_ne_true, List.append_nil]
  | cons c u ih =>
    intro acc _
    have hc : isLineBreak c = false := h c List.mem_cons_self
    have hcr : c ≠ '\r' := fun hr => by rw [hr] at hc; exact absurd hc (by decide)
    rw [splitlinesFrom_cons hcr, if_neg (by rw [hc]; exact Bool.false_ne_true),
      ih (fun b hb => h b (List.mem_cons_of_mem c hb)) (c :: acc) (by simp), List.reverse_cons,
      List.append_assoc]
    rfl

theorem splitlines_line {u : Text} (hu : IsPlain u) : splitlines (u ++ ['\n']) = [u] := by
  obtain ⟨more, hmore, hv⟩ := splitlinesFrom_break hu (c := '\n') (by decide) [] []
  rw [splitlines, hmore, hv rfl]
  rfl

/-- The first LF of a line is its end, when no other break comes before. -/
theorem line_of_newline {u e w v : Text} (hu : Unbroken u) (he : e ∈ lineEnds) (hw : IsPlain w)
    (h : u ++ e = w ++ '\n' :: v) : w = u ∧ e = ['\n'] := by
  have hno : ∀ c, isLineBreak c = true → c ∉ w := fun c hc hmem => by
    rw [hw c hmem] at hc
    cases hc
  simp only [lineEnds, List.mem_cons, List.not_mem_nil, or_false] at he
  rcases he with rfl | rfl | rfl
  · exact ⟨(append_cons_cancel hu.1 (hno _ (by decide)) h).1.symm, rfl⟩
  · have h' : (u ++ ['\r']) ++ '\n' :: [] = w ++ '\n' :: v := by
      rw [← h]
      simp
    have hur : '\n' ∉ u ++ ['\r'] := by
      simp [hu.1]
    obtain ⟨rfl, _⟩ := append_cons_cancel hur (hno _ (by decide)) h'
    exact absurd (List.mem_append_right u (List.mem_singleton_self '\r')) (hno '\r' (by decide))
  · have hmem : '\n' ∈ u ++ ['\r'] := by
      rw [h]
      simp
    exact absurd hmem (by simp [hu.1])

/-- A text has a first line break, or none. -/
theorem plain_or_break (t : Text) :
    IsPlain t ∨ ∃ w c v, t = w ++ c :: v ∧ IsPlain w ∧ isLineBreak c = true := by
  induction t with
  | nil => exact Or.inl nofun
  | cons d t ih =>
    cases hd : isLineBreak d with
    | true => exact Or.inr ⟨[], d, t, rfl, nofun, hd⟩
    | false =>
      rcases ih with h | ⟨w, c, v, rfl, hw, hc⟩
      · refine Or.inl fun c hc => ?_
        rcases List.mem_cons.mp hc with rfl | hc
        · exact hd
        · exact h c hc
      · refine Or.inr ⟨d :: w, c, v, rfl, fun b hb => ?_, hc⟩
        rcases List.mem_cons.mp hb with rfl | hb
        · exact hd
        · exact hw b hb

/-- A line that is not the last one is ended. -/
theorem IsCut.ended {p : Text} {rest : List Text} (h : IsCut (p :: rest)) (hrest : rest ≠ []) :
    ∃ u e, p = u ++ e ∧ Unbroken u ∧ e ∈ lineEnds ∧ IsCut rest := by
  cases h with
  | last _ _ => exact absurd rfl hrest
  | cons hu he _ hcut => exact ⟨_, _, rfl, hu, he, hcut⟩

/-- Lines with nothing but LF are cut once each. -/
theorem IsCut.lines_of_newlines {a rest : List Text} (h : IsCut (a ++ rest)) (hrest : rest ≠ [])
    (ha : NewlinesOnly a.flatten) :
    (a.flatMap splitlines).length = a.length ∧
      ((a.flatMap splitlines).flatMap fun line => line ++ ['\n']) = a.flatten := by
  induction a with
  | nil => exact ⟨rfl, rfl⟩
  | cons p a ih =>
    obtain ⟨u, e, rfl, hu, he, hcut⟩ := IsCut.ended h fun hnil =>
      hrest (List.append_eq_nil_iff.mp hnil).2
    have hp : NewlinesOnly (u ++ e) := fun c hc => ha c (by
      rw [List.flatten_cons]
      exact List.mem_append_left _ hc)
    have hplain : IsPlain u := by
      intro c hc
      rw [Bool.eq_false_iff]
      intro hbreak
      exact hu.1 (hp c (List.mem_append_left e hc) hbreak ▸ hc)
    obtain ⟨hlen, htext⟩ := ih hcut fun c hc => ha c (by
      rw [List.flatten_cons]
      exact List.mem_append_right _ hc)
    have hend : e = ['\n'] := by
      simp only [lineEnds, List.mem_cons, List.not_mem_nil, or_false] at he
      rcases he with rfl | rfl | rfl
      · rfl
      · exact absurd (hp '\r' (by simp) (by decide)) (by decide)
      · exact absurd (hp '\r' (by simp) (by decide)) (by decide)
    subst hend
    rw [List.flatMap_cons, splitlines_line hplain, List.flatten_cons]
    constructor
    · rw [List.length_append, hlen, List.length_singleton, List.length_cons, Nat.add_comm]
    · rw [List.flatMap_append, htext, List.flatMap_singleton]

/-- **What stands before a change**: lines that are what was put together of them have nothing
but LF. -/
theorem IsCut.newlines_of_prefix {a rest : List Text} (h : IsCut (a ++ rest)) (hrest : rest ≠ [])
    {more : List Text} {z : Text}
    (hpre : a.flatten <+: (((a.flatMap splitlines ++ more).take a.length).flatMap
      fun line => line ++ ['\n']) ++ z) : NewlinesOnly a.flatten := by
  induction a with
  | nil => exact nofun
  | cons p a ih =>
    obtain ⟨u, e, rfl, hu, he, hcut⟩ := IsCut.ended h fun hnil =>
      hrest (List.append_eq_nil_iff.mp hnil).2
    have hbreak : ∃ w c v, u ++ e = w ++ c :: v ∧ IsPlain w ∧ isLineBreak c = true := by
      refine (plain_or_break (u ++ e)).resolve_left fun hplain => ?_
      simp only [lineEnds, List.mem_cons, List.not_mem_nil, or_false] at he
      rcases he with rfl | rfl | rfl
      · exact absurd (hplain '\n' (by simp)) (by decide)
      · exact absurd (hplain '\n' (by simp)) (by decide)
      · exact absurd (hplain '\r' (by simp)) (by decide)
    obtain ⟨w, c, v, hp, hw, hc⟩ := hbreak
    obtain ⟨tail, htail, _⟩ := splitlinesFrom_break hw hc v []
    have hsplit : splitlines (u ++ e) = w :: tail := by
      rw [hp, splitlines, htail]
      rfl
    rw [List.flatten_cons, List.flatMap_cons, hsplit, List.length_cons, List.cons_append,
      List.cons_append, List.take_succ_cons, List.flatMap_cons] at hpre
    -- the first break of the line is where a LF has been put
    have hnewline : c = '\n' := by
      rw [hp] at hpre
      obtain ⟨y, hy⟩ := hpre
      simp only [List.append_assoc, List.cons_append, List.nil_append] at hy
      exact (List.cons.inj (List.append_cancel_left hy)).1
    subst hnewline
    obtain ⟨rfl, rfl⟩ := line_of_newline hu he hw hp
    have htailnil : tail = [] := by
      have := splitlines_line hw
      rw [hsplit] at this
      exact (List.cons.inj this).2
    rw [htailnil, List.nil_append] at hpre
    rw [List.append_assoc (w ++ ['\n'])] at hpre
    have hrestNewlines := ih hcut ((List.prefix_append_right_inj _).mp hpre)
    intro b hb hbb
    rw [List.flatten_cons, List.append_assoc] at hb
    rcases List.mem_append.mp hb with hb | hb
    · rw [hw b hb] at hbb
      cases hbb
    · rcases List.mem_append.mp hb with hb | hb
      · exact List.mem_singleton.mp hb
      · exact hrestNewlines b hb hbb

/-! ## Putting lines together -/

theorem lastNewline_cons {c : Char} {t : Text} (h : t ≠ []) :
    lastNewline (c :: t) = lastNewline t := by
  unfold lastNewline
  rw [List.getLast?_cons_of_ne_nil h]

theorem join_splitlinesFrom (t : Text) : ∀ acc : Text, NewlinesOnly t → acc.reverse ++ t ≠ [] →
    join '\n' (splitlinesFrom acc t) ++ lastNewline t = acc.reverse ++ t := by
  induction t with
  | nil =>
    intro acc _ hne
    have hacc : acc.isEmpty = false := by
      rw [Bool.eq_false_iff]
      intro hnil
      rw [List.isEmpty_iff.mp hnil] at hne
      exact hne rfl
    rw [splitlinesFrom, hacc, if_neg Bool.false_ne_true, join_singleton]
    rfl
  | cons c t ih =>
    intro acc h _
    have htail : NewlinesOnly t := fun b hb => h b (List.mem_cons_of_mem c hb)
    have hcr : c ≠ '\r' := fun hc => by
      have := h '\r' (hc ▸ List.mem_cons_self) (by decide)
      exact absurd this (by decide)
    rw [splitlinesFrom_cons hcr]
    split
    next hbreak =>
      have hc : c = '\n' := h c List.mem_cons_self hbreak
      subst hc
      cases t with
      | nil =>
        show join '\n' [acc.reverse] ++ ['\n'] = _
        rw [join_singleton]
      | cons d t =>
        obtain ⟨first, more, hmore⟩ := List.exists_cons_of_ne_nil
          (splitlines_ne_nil (List.cons_ne_nil d t))
        have hih := ih [] htail (by simp)
        rw [← splitlines] at hih ⊢
        rw [hmore] at hih ⊢
        rw [join_cons_cons, lastNewline_cons (List.cons_ne_nil d t), List.append_assoc,
          List.cons_append, hih]
        rfl
    next hbreak =>
      have hih := ih (c :: acc) htail (by simp)
      have hlast : lastNewline (c :: t) = lastNewline t := by
        cases t with
        | nil =>
          have hc : c ≠ '\n' := fun hc => hbreak (hc ▸ by decide)
          simp [lastNewline, hc]
        | cons d t => exact lastNewline_cons (List.cons_ne_nil d t)
      rw [hlast, hih, List.reverse_cons, List.append_assoc]
      rfl

/-- The lines of a text with nothing but LF, put together again. -/
theorem join_splitlines {t : Text} (h : NewlinesOnly t) (hne : t ≠ []) :
    join '\n' (splitlines t) ++ lastNewline t = t := join_splitlinesFrom t [] h hne

theorem newlinesOnly_join {l : List Text} (h : ∀ line ∈ l, IsPlain line) :
    NewlinesOnly (join '\n' l) := by
  induction l with
  | nil => exact nofun
  | cons a l ih =>
    have ha : NewlinesOnly a := fun c hc hbreak => by
      rw [h a List.mem_cons_self c hc] at hbreak
      cases hbreak
    cases l with
    | nil =>
      rw [join_singleton]
      exact ha
    | cons b l =>
      rw [join_cons_cons]
      intro c hc hbreak
      rcases List.mem_append.mp hc with hc | hc
      · exact ha c hc hbreak
      · rcases List.mem_cons.mp hc with hc | hc
        · exact hc
        · exact ih (fun line hline => h line (List.mem_cons_of_mem a hline)) c hc hbreak

/-- Lines that others come after are ended. -/
theorem join_front (front : List Text) {back : List Text} (hback : back ≠ []) :
    join '\n' (front ++ back) = (front.flatMap fun line => line ++ ['\n']) ++ join '\n' back := by
  induction front with
  | nil => rfl
  | cons a front ih =>
    obtain ⟨b, rest, hrest⟩ := List.exists_cons_of_ne_nil
      (List.append_ne_nil_of_right_ne_nil front hback)
    rw [List.cons_append, hrest, join_cons_cons, ← hrest, ih, List.flatMap_cons]
    simp

theorem join_newline {l : List Text} (h : l ≠ []) :
    join '\n' l ++ ['\n'] = l.flatMap fun line => line ++ ['\n'] := by
  induction l with
  | nil => exact absurd rfl h
  | cons a l ih =>
    cases l with
    | nil => rw [join_singleton, List.flatMap_singleton]
    | cons b l =>
      rw [join_cons_cons, List.flatMap_cons, ← ih (List.cons_ne_nil b l)]
      simp

theorem IsCut.left {a b : List Text} (h : IsCut (a ++ b)) : IsCut a := by
  induction a with
  | nil => exact .nil
  | cons p a ih =>
    rw [List.cons_append] at h
    generalize hl : a ++ b = l at h
    cases h with
    | last hne hp =>
      rw [(List.append_eq_nil_iff.mp hl).1]
      exact .last hne hp
    | cons hu he hhead hcut =>
      subst hl
      refine .cons hu he (fun hcr hnewline => hhead hcr ?_) (ih hcut)
      rw [List.flatten_append, List.head?_append, hnewline]
      rfl

theorem IsCut.right {a b : List Text} (h : IsCut (a ++ b)) : IsCut b := by
  induction a with
  | nil => exact h
  | cons p a ih =>
    rw [List.cons_append] at h
    generalize hl : a ++ b = l at h
    cases h with
    | last _ _ =>
      rw [(List.append_eq_nil_iff.mp hl).2]
      exact .nil
    | cons _ _ _ hcut => exact ih (hl ▸ hcut)

/-- The text ends with LF or CR. -/
def endsLine (t : Text) : Bool := t.getLast?.any fun c => c == '\n' || c == '\r'

theorem endsLine_append {x y : Text} (hy : y ≠ []) : endsLine (x ++ y) = endsLine y := by
  unfold endsLine
  rw [List.getLast?_append_of_ne_nil x hy]

theorem lastNewline_translateNewlines (t : Text) :
    lastNewline (translateNewlines t) = if endsLine t then ['\n'] else [] := by
  induction t using translateNewlines.induct with
  | case1 => rfl
  | case2 s ih =>
    rw [translateNewlines]
    cases s with
    | nil => rfl
    | cons d s =>
      have hne : translateNewlines (d :: s) ≠ [] := by
        exact fun hnil => List.cons_ne_nil d s (translateNewlines_eq_nil hnil)
      rw [lastNewline_cons hne, ih]
      have h := endsLine_append (x := ['\r', '\n']) (List.cons_ne_nil d s)
      rw [show '\r' :: '\n' :: d :: s = ['\r', '\n'] ++ d :: s from rfl, h]
  | case3 c s hne ih =>
    rw [translateNewlines]
    · cases s with
      | nil =>
        by_cases hc : c = '\r'
        · subst hc
          rfl
        · rw [if_neg hc]
          by_cases hn : c = '\n'
          · subst hn
            rfl
          · simp [lastNewline, endsLine, translateNewlines, hc, hn]
      | cons d s =>
        have hnil : translateNewlines (d :: s) ≠ [] := by
          exact fun hnil => List.cons_ne_nil d s (translateNewlines_eq_nil hnil)
        have h := endsLine_append (x := [c]) (List.cons_ne_nil d s)
        rw [lastNewline_cons hnil, ih, show c :: d :: s = [c] ++ d :: s from rfl, h]
    · exact hne

theorem NewlinesOnly.lastNewline {t : Text} (h : NewlinesOnly t) :
    lastNewline t = if endsLine t then ['\n'] else [] := by
  unfold Py.lastNewline endsLine
  cases hlast : t.getLast? with
  | none => rfl
  | some c =>
    have hc := h c (List.mem_of_getLast? hlast)
    by_cases hn : c = '\n'
    · subst hn
      rfl
    · have hr : c ≠ '\r' := fun hr => hn (hc (hr ▸ by decide))
      simp [hn, hr]

/-- What comes before other lines is ended. -/
theorem IsCut.endsLine {a b : List Text} (h : IsCut (a ++ b)) (ha : a ≠ []) (hb : b ≠ []) :
    endsLine a.flatten = true := by
  induction a with
  | nil => exact absurd rfl ha
  | cons p a ih =>
    obtain ⟨u, e, rfl, _, he, hcut⟩ := IsCut.ended h fun hnil =>
      hb (List.append_eq_nil_iff.mp hnil).2
    rw [List.flatten_cons]
    by_cases hnil : a = []
    · rw [hnil, List.flatten_nil, List.append_nil]
      simp only [lineEnds, List.mem_cons, List.not_mem_nil, or_false] at he
      rcases he with rfl | rfl | rfl <;> simp [Py.endsLine]
    · have hne : a.flatten ≠ [] := by
        obtain ⟨q, a, rfl⟩ := List.exists_cons_of_ne_nil hnil
        have hq := hcut.ne_nil q List.mem_cons_self
        rw [List.flatten_cons]
        exact List.append_ne_nil_of_left_ne_nil hq _
      rw [endsLine_append hne]
      exact ih hcut hnil

theorem sourceLinesFrom_newline (acc t : Text) :
    sourceLinesFrom acc ('\n' :: t) = (acc.reverse ++ ['\n']) :: sourceLinesFrom [] t := by
  rw [sourceLinesFrom, if_pos (Or.inl rfl)]
  exact fun s' h => absurd h (by decide)

theorem sourceLinesFrom_cons {c : Char} (hc : c ≠ '\n' ∧ c ≠ '\r') (acc t : Text) :
    sourceLinesFrom acc (c :: t) = sourceLinesFrom (c :: acc) t := by
  rw [sourceLinesFrom, if_neg (not_or.mpr hc)]
  exact fun s' h => absurd h hc.2

/-- Translating the newlines leaves the number of lines. -/
theorem length_sourceLinesFrom_translateNewlines (s : Text) : ∀ acc acc' : Text,
    acc.isEmpty = acc'.isEmpty → (sourceLinesFrom acc' (translateNewlines s)).length =
      (sourceLinesFrom acc s).length := by
  intro acc
  induction acc, s using sourceLinesFrom.induct with
  | case1 acc hacc =>
    intro acc' h
    rw [translateNewlines, sourceLinesFrom, sourceLinesFrom, if_pos hacc, if_pos (h ▸ hacc)]
  | case2 acc hacc =>
    intro acc' h
    rw [translateNewlines, sourceLinesFrom, sourceLinesFrom, if_neg hacc, if_neg (h ▸ hacc)]
    rfl
  | case3 acc s ih =>
    intro acc' _
    rw [translateNewlines, sourceLinesFrom_newline, sourceLinesFrom, List.length_cons,
      List.length_cons, ih [] rfl]
  | case4 acc c s hne hbreak ih =>
    intro acc' _
    have hnewline : (if c = '\r' then '\n' else c) = '\n' := by
      split
      · rfl
      next hc => exact hbreak.resolve_right hc
    rw [translateNewlines, hnewline, sourceLinesFrom_newline, sourceLinesFrom, if_pos hbreak,
      List.length_cons, List.length_cons, ih [] rfl]
    · exact hne
    · exact hne
  | case5 acc c s hne hbreak ih =>
    intro acc' _
    rw [not_or] at hbreak
    rw [translateNewlines, if_neg hbreak.2, sourceLinesFrom_cons hbreak, sourceLinesFrom_cons hbreak,
      ih (c :: acc') rfl]
    exact hne

theorem length_sourceLines_translateNewlines (s : Text) :
    (sourceLines (translateNewlines s)).length = (sourceLines s).length :=
  length_sourceLinesFrom_translateNewlines s [] [] rfl

end Shamsu.Py
