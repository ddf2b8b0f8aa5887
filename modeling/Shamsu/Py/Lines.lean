import Shamsu.Py.Decode

/-!
# Lines of a file that grows

A reader of a file that others append to takes the lines that are ended. Bytes that
are appended later leave these as they are (`readLines_append`): they can turn the
replacement characters at the very end into a character, since a code may be there
in part, and nothing before it.
-/

namespace Shamsu.Py

/-! ## Decoding more -/

theorem decodeChar_eq_some {b r : Bytes} {c : Char} :
    decodeChar b = some (c, r) ↔ b = String.utf8EncodeChar c ++ r :=
  ⟨fun h => (decodeChar_sound h).symm, fun h => h ▸ decodeChar_encode c r⟩

theorem decodeReplace_bad {b : Bytes} (hb : b ≠ []) (h : decodeChar b = none) :
    decodeReplace b = '\uFFFD' :: decodeReplace (b.drop (badLength b)) := by
  cases b with
  | nil => exact absurd rfl hb
  | cons x xs =>
    have hpos := badLength_pos (x :: xs)
    have hlen : ((x :: xs).drop (badLength (x :: xs))).length ≤ xs.length := by
      rw [List.length_drop, List.length_cons]
      omega
    simp only [decodeReplace, List.length_cons, decodeLossyFuel, h]
    rw [decodeLossyFuel_eq _ _ _ hlen]
    rfl

/-- A code starts with a byte that continues none, and goes on with such as do. -/
theorem utf8EncodeChar_shape (c : Char) : ∃ a rest, String.utf8EncodeChar c = a :: rest ∧
    isContinuation a = false ∧ (∀ x ∈ rest, isContinuation x = true) := by
  have cont : ∀ n : Nat, isContinuation (UInt8.ofNat (n % 64 + 128)) = true := by
    intro n
    simp only [isContinuation, Bool.and_eq_true, decide_eq_true_eq, UInt8.le_iff_toNat_le,
      UInt8.toNat_ofNat']
    have : (0x80 : UInt8).toNat = 128 := rfl
    have : (0xbf : UInt8).toNat = 191 := rfl
    omega
  have lead : ∀ n : Nat, n < 128 ∨ (192 ≤ n ∧ n < 256) → isContinuation (UInt8.ofNat n) = false := by
    intro n hn
    have h₁ : (0x80 : UInt8).toNat = 128 := rfl
    have h₂ : (0xbf : UInt8).toNat = 191 := rfl
    simp only [isContinuation, Bool.and_eq_false_iff, decide_eq_false_iff_not,
      UInt8.le_iff_toNat_le, UInt8.toNat_ofNat', h₁, h₂]
    omega
  rcases utf8EncodeChar_cases c with ⟨h, e⟩ | ⟨h, h', e⟩ | ⟨h, h', e⟩ | ⟨h, h', e⟩ <;>
    refine ⟨_, _, e, lead _ (by omega), fun x hx => ?_⟩
  · cases hx
  · simp only [List.mem_singleton] at hx
    exact hx ▸ cont _
  · simp only [List.mem_cons, List.not_mem_nil, or_false] at hx
    rcases hx with rfl | rfl <;> exact cont _
  · simp only [List.mem_cons, List.not_mem_nil, or_false] at hx
    rcases hx with rfl | rfl | rfl <;> exact cont _

/-- Bytes that only continue are no characters. -/
theorem decodeReplace_continuation : ∀ (n : Nat) (b : Bytes), b.length ≤ n →
    (∀ x ∈ b, isContinuation x = true) → ∀ c ∈ decodeReplace b, c = '\uFFFD' := by
  intro n
  induction n with
  | zero =>
    intro b hb _ c hc
    rw [List.length_eq_zero_iff.mp (Nat.le_zero.mp hb)] at hc
    cases hc
  | succ n ih =>
    intro b hb hcont c hc
    cases b with
    | nil => cases hc
    | cons x xs =>
      have hnone : decodeChar (x :: xs) = none := by
        refine Option.eq_none_iff_forall_ne_some.mpr fun ⟨c', r⟩ h => ?_
        obtain ⟨a, rest, hshape, ha, _⟩ := utf8EncodeChar_shape c'
        rw [decodeChar_eq_some, hshape] at h
        have := hcont x List.mem_cons_self
        rw [(List.cons.inj h).1, ha] at this
        cases this
      rw [decodeReplace_bad (List.cons_ne_nil _ _) hnone] at hc
      rcases List.mem_cons.mp hc with rfl | hc
      · rfl
      · have hpos := badLength_pos (x :: xs)
        refine ih _ ?_ (fun y hy => hcont y (List.mem_of_mem_drop hy)) c hc
        rw [List.length_drop]
        omega

/-- The beginning of a code is no character. -/
theorem decodeReplace_part {c : Char} {b rest : Bytes} (h : String.utf8EncodeChar c = b ++ rest)
    (hrest : rest ≠ []) : ∀ c' ∈ decodeReplace b, c' = '\uFFFD' := by
  intro c' hc'
  by_cases hb : b = []
  · rw [hb] at hc'
    cases hc'
  · have hnone : decodeChar b = none := by
      refine Option.eq_none_iff_forall_ne_some.mpr fun ⟨c'', r⟩ h' => ?_
      rw [decodeChar_eq_some] at h'
      have hcodes : String.utf8EncodeChar c ++ [] = String.utf8EncodeChar c'' ++ (r ++ rest) := by
        rw [List.append_nil, h, h', List.append_assoc]
      have := (utf8EncodeChar_prefixFree hcodes).2
      exact hrest (List.append_eq_nil_iff.mp this.symm).2
    rw [decodeReplace_bad hb hnone] at hc'
    rcases List.mem_cons.mp hc' with rfl | hc'
    · rfl
    · obtain ⟨a, tail, hshape, _, hcont⟩ := utf8EncodeChar_shape c
      refine decodeReplace_continuation _ _ (Nat.le_refl _) (fun x hx => hcont x ?_) c' hc'
      cases b with
      | nil => exact absurd rfl hb
      | cons y ys =>
        rw [hshape, List.cons_append] at h
        rw [(List.cons.inj h).2]
        have hpos := badLength_pos (y :: ys)
        obtain ⟨k, hk⟩ : ∃ k, badLength (y :: ys) = k + 1 := ⟨_, (Nat.succ_pred_eq_of_pos hpos).symm⟩
        rw [hk, List.drop_succ_cons] at hx
        exact List.mem_append_left _ (List.mem_of_mem_drop hx)

/-- More bytes change how many are skipped only where these were all. -/
theorem badLength_append (b more : Bytes) (hb : b ≠ []) :
    (badLength (b ++ more) ≤ b.length ∧ badLength b = badLength (b ++ more)) ∨
      (b.length < badLength (b ++ more) ∧ badLength b = b.length) := by
  rcases b with _ | ⟨x, _ | ⟨y, _ | ⟨z, b⟩⟩⟩
  · exact absurd rfl hb
  · have hpos := badLength_pos ([x] ++ more)
    have h₁ : badLength [x] = 1 := rfl
    rw [h₁]
    show (_ ≤ 1 ∧ _) ∨ (1 < _ ∧ 1 = 1)
    omega
  · cases more with
    | nil =>
      have : badLength [x, y] ≤ 2 := by
        simp only [badLength]
        split <;> omega
      exact Or.inl ⟨this, rfl⟩
    | cons z more =>
      show (_ ≤ 2 ∧ _) ∨ (2 < _ ∧ _ = 2)
      simp only [badLength, List.cons_append, List.nil_append, Bool.and_eq_true, decide_eq_true_eq,
        UInt8.le_iff_toNat_le]
      have h₁ : (0xf0 : UInt8).toNat = 240 := rfl
      have h₂ : (0xf4 : UInt8).toNat = 244 := rfl
      have h₃ : (0xe0 : UInt8).toNat = 224 := rfl
      have h₄ : (0xef : UInt8).toNat = 239 := rfl
      rw [h₁, h₂, h₃, h₄]
      by_cases hmay : mayFollow x y = true
      · simp only [hmay, and_true]
        split_ifs <;> omega
      · simp [hmay]
  · refine Or.inl ⟨?_, rfl⟩
    have : badLength (x :: y :: z :: b ++ more) ≤ 3 := by
      simp only [badLength, List.cons_append]
      split_ifs <;> omega
    have : (x :: y :: z :: b).length = b.length + 3 := rfl
    omega

/-- **Decoding more bytes**: the text stays, but for replacement characters at its
end, where a code may now go on. -/
theorem decodeReplace_split (b more : Bytes) : ∃ u v w,
    decodeReplace b = u ++ v ∧ decodeReplace (b ++ more) = u ++ w ∧
    (∀ c ∈ v, c = '\uFFFD') ∧ (v ≠ [] → ∃ c w', w = c :: w' ∧ c ≠ '\n') := by
  induction hn : b.length using Nat.strong_induction_on generalizing b with
  | _ n ih =>
    subst hn
    by_cases hb : b = []
    · exact ⟨[], [], _, by rw [hb]; rfl, rfl, fun _ h => (by cases h), fun h => absurd rfl h⟩
    cases hd : decodeChar (b ++ more) with
    | some cr =>
      obtain ⟨c, r⟩ := cr
      rw [decodeChar_eq_some] at hd
      rcases List.append_eq_append_iff.mp hd with ⟨rest, hcode, hmore⟩ | ⟨b', hb', hr⟩
      · -- the code of `c` goes beyond `b`, or ends with it
        by_cases hrest : rest = []
        · rw [hrest, List.append_nil] at hcode
          rw [hrest, List.nil_append] at hmore
          refine ⟨[c], [], decodeReplace r, ?_, ?_, fun _ h => (by cases h), fun h => absurd rfl h⟩
          · rw [← hcode]
            have := decodeReplace_char c []
            rwa [List.append_nil] at this
          · rw [hd, decodeReplace_char]
            rfl
        · refine ⟨[], decodeReplace b, c :: decodeReplace r, rfl, ?_, decodeReplace_part hcode hrest,
            fun _ => ⟨c, _, rfl, ?_⟩⟩
          · rw [hd, decodeReplace_char]
            rfl
          · intro he
            subst he
            have hlen := congrArg List.length hcode
            rw [List.length_append, show (String.utf8EncodeChar '\n').length = 1 from rfl] at hlen
            have := List.length_pos_of_ne_nil hb
            have := List.length_pos_of_ne_nil hrest
            omega
      · have hpos := List.length_pos_of_ne_nil (utf8EncodeChar_ne_nil c)
        have hlt : b'.length < b.length := by
          rw [hb', List.length_append]
          omega
        obtain ⟨u, v, w, hu, hw, hv, hne⟩ := ih _ hlt b' rfl
        refine ⟨c :: u, v, w, ?_, ?_, hv, hne⟩
        · rw [hb', decodeReplace_char, hu]
          rfl
        · rw [hb', List.append_assoc, decodeReplace_char, hw]
          rfl
    | none =>
      have hnone : decodeChar b = none := by
        refine Option.eq_none_iff_forall_ne_some.mpr fun ⟨c, r⟩ h => ?_
        rw [decodeChar_eq_some] at h
        rw [h, List.append_assoc, decodeChar_encode] at hd
        cases hd
      have hne : b ++ more ≠ [] := fun h => hb (List.append_eq_nil_iff.mp h).1
      rcases badLength_append b more hb with ⟨hle, heq⟩ | ⟨_, hall⟩
      · have hpos := badLength_pos b
        have hlt : (b.drop (badLength b)).length < b.length := by
          rw [List.length_drop]
          have := List.length_pos_of_ne_nil hb
          omega
        obtain ⟨u, v, w, hu, hw, hv, hnev⟩ := ih _ hlt _ rfl
        refine ⟨'\uFFFD' :: u, v, w, ?_, ?_, hv, hnev⟩
        · rw [decodeReplace_bad hb hnone, hu]
          rfl
        · rw [decodeReplace_bad hne hd, List.drop_append_of_le_length hle, ← heq, hw]
          rfl
      · refine ⟨[], decodeReplace b, decodeReplace (b ++ more), rfl, rfl, ?_, fun _ => ?_⟩
        · rw [decodeReplace_bad hb hnone, hall, List.drop_length]
          intro c hc
          exact List.mem_singleton.mp hc
        · exact ⟨_, _, decodeReplace_bad hne hd, by decide⟩

/-! ## Line ends -/

theorem translateNewlines_append_cases (u w : Text) :
    translateNewlines (u ++ w) = translateNewlines u ++ translateNewlines w ∨
      ∃ w', w = '\n' :: w' ∧ translateNewlines (u ++ w) = translateNewlines u ++ translateNewlines w' := by
  induction u using translateNewlines.induct with
  | case1 => exact Or.inl rfl
  | case2 s ih =>
    rcases ih with h | ⟨w', rfl, h⟩
    · exact Or.inl (by simp [translateNewlines, h])
    · exact Or.inr ⟨w', rfl, by simp [translateNewlines, h]⟩
  | case3 c s hne ih =>
    by_cases hcr : ∃ t, c = '\r' ∧ s ++ w = '\n' :: t
    · -- only at the very end, where `w` begins with the rest of the line end
      obtain ⟨t, rfl, ht⟩ := hcr
      cases s with
      | nil =>
        rw [List.nil_append] at ht
        exact Or.inr ⟨t, ht, by rw [ht]; simp [translateNewlines]⟩
      | cons d s => exact absurd (by rw [(List.cons.inj ht).1]) (hne s rfl)
    · have hstep : translateNewlines (c :: (s ++ w)) =
          (if c = '\r' then '\n' else c) :: translateNewlines (s ++ w) := by
        rw [translateNewlines]
        intro t heq ht
        subst heq
        exact hcr ⟨t, rfl, ht⟩
      have hstep' : translateNewlines (c :: s) =
          (if c = '\r' then '\n' else c) :: translateNewlines s := by
        rw [translateNewlines]
        exact hne
      rw [List.cons_append, hstep, hstep']
      rcases ih with h | ⟨w', rfl, h⟩
      · exact Or.inl (by rw [h]; rfl)
      · exact Or.inr ⟨w', rfl, by rw [h]; rfl⟩

/-- The lines that are ended, and the line after them (reversed). -/
def ended : Text → Text → List Text × Text
  | acc, [] => ([], acc)
  | acc, c :: s =>
    if isLineBreak c then (acc.reverse :: (ended [] s).1, (ended [] s).2) else ended (c :: acc) s

theorem splitlinesFrom_cons {acc s : Text} {c : Char} (hc : c ≠ '\r') :
    splitlinesFrom acc (c :: s) =
      if isLineBreak c then acc.reverse :: splitlinesFrom [] s else splitlinesFrom (c :: acc) s := by
  rw [splitlinesFrom]
  intro t heq
  subst heq
  exact fun _ => hc rfl

theorem splitlinesFrom_append {acc u : Text} (hu : '\r' ∉ u) (x : Text) :
    splitlinesFrom acc (u ++ x) = (ended acc u).1 ++ splitlinesFrom (ended acc u).2 x := by
  induction u generalizing acc with
  | nil => rfl
  | cons c u ih =>
    have hc : c ≠ '\r' := fun h => hu (h ▸ List.mem_cons_self)
    have hu : '\r' ∉ u := fun h => hu (List.mem_cons_of_mem _ h)
    rw [List.cons_append, splitlinesFrom_cons hc, ended]
    split
    · rw [ih hu]
      rfl
    · exact ih hu

theorem splitlinesFrom_ne_nil {acc s : Text} (h : acc ≠ [] ∨ s ≠ []) : splitlinesFrom acc s ≠ [] := by
  induction acc, s using splitlinesFrom.induct with
  | case1 acc hacc =>
    rw [List.isEmpty_iff.mp hacc] at h
    simp at h
  | case2 acc hacc =>
    rw [splitlinesFrom, if_neg hacc]
    exact List.cons_ne_nil _ _
  | case3 acc s ih =>
    rw [splitlinesFrom]
    exact List.cons_ne_nil _ _
  | case4 acc c s hne hbreak ih =>
    rw [splitlinesFrom, if_pos hbreak]
    · exact List.cons_ne_nil _ _
    · exact hne
  | case5 acc c s hne hbreak ih =>
    rw [splitlinesFrom, if_neg hbreak]
    · exact ih (Or.inl (List.cons_ne_nil _ _))
    · exact hne

/-- Nothing is left after a newline. -/
theorem ended_newline (acc u : Text) : (ended acc (u ++ ['\n'])).2 = [] := by
  induction u generalizing acc with
  | nil => rfl
  | cons c u ih =>
    rw [List.cons_append, ended]
    split
    · exact ih []
    · exact ih _

/-- The ended lines of a text. -/
def endedLines (text : Text) : List Text :=
  if !text.isEmpty && text.getLast? != some '\n' then (splitlines text).dropLast
  else splitlines text

/-- Text that goes on has the lines that were ended. -/
theorem ended_le {u w : Text} (hu : '\r' ∉ u) (hw : w ≠ []) :
    (ended [] u).1 <+: endedLines (u ++ w) := by
  have hlines : splitlines (u ++ w) = (ended [] u).1 ++ splitlinesFrom (ended [] u).2 w :=
    splitlinesFrom_append hu w
  unfold endedLines
  rw [hlines]
  split
  · rw [List.dropLast_append_of_ne_nil (splitlinesFrom_ne_nil (Or.inr hw))]
    exact List.prefix_append _ _
  · exact List.prefix_append _ _

/-- Replacement characters end no line. -/
theorem splitlinesFrom_bad_length {v : Text} (hv : ∀ c ∈ v, c = '\uFFFD') (acc : Text) :
    (splitlinesFrom acc v).length ≤ 1 := by
  induction v generalizing acc with
  | nil =>
    rw [splitlinesFrom]
    split <;> simp
  | cons c v ih =>
    obtain rfl := hv c List.mem_cons_self
    rw [splitlinesFrom_cons (by decide), if_neg (by decide)]
    exact ih (fun d hd => hv d (List.mem_cons_of_mem _ hd)) _

/-- And text that breaks off has no more. -/
theorem endedLines_le {u v : Text} (hu : '\r' ∉ u) (hv : ∀ c ∈ v, c = '\uFFFD') :
    endedLines (u ++ v) <+: (ended [] u).1 := by
  have hlines : splitlines (u ++ v) = (ended [] u).1 ++ splitlinesFrom (ended [] u).2 v :=
    splitlinesFrom_append hu v
  have hone := splitlinesFrom_bad_length hv (ended [] u).2
  unfold endedLines
  split
  next =>
    rw [hlines]
    match hrest : splitlinesFrom (ended [] u).2 v with
    | [] =>
      rw [List.append_nil]
      exact List.dropLast_prefix _
    | [line] =>
      have hdrop : ((ended [] u).1 ++ [line]).dropLast = (ended [] u).1 := List.dropLast_concat
      exact ⟨[], by rw [hdrop, List.append_nil]⟩
    | _ :: _ :: _ =>
      rw [hrest] at hone
      simp at hone
  next hend =>
    -- the text is empty or ends with a newline, so nothing is left after its lines
    have hrest : splitlinesFrom (ended [] u).2 v = [] := by
      rcases List.eq_nil_or_concat v with rfl | ⟨v', c, rfl⟩
      · rcases List.eq_nil_or_concat u with rfl | ⟨u', c, rfl⟩
        · rfl
        · have hc : c = '\n' := by simpa using hend
          rw [hc, List.concat_eq_append, ended_newline]
          rfl
      · have hc : c = '\n' := by simpa using hend
        have := hv c (by simp)
        rw [hc] at this
        exact absurd this (by decide)
    have hall : splitlines (u ++ v) = (ended [] u).1 := by rw [hlines, hrest, List.append_nil]
    exact ⟨[], by rw [hall, List.append_nil]⟩

/-! ## The file -/

/-- The ended lines of a file that is read with `errors="replace"`. -/
def readLines (b : Bytes) : List Text := endedLines (readReplace b)

theorem translateNewlines_bad {v : Text} (hv : ∀ c ∈ v, c = '\uFFFD') : translateNewlines v = v :=
  translateNewlines_of_not_mem fun h => absurd (hv _ h) (by decide)

/-- **A file that grows keeps its lines.** -/
theorem readLines_append (b more : Bytes) : readLines b <+: readLines (b ++ more) := by
  obtain ⟨u, v, w, hu, hw, hv, hne⟩ := decodeReplace_split b more
  unfold readLines readReplace
  rw [hu, hw]
  have hcr : '\r' ∉ translateNewlines u := not_cr_translateNewlines u
  have hleft : translateNewlines (u ++ v) = translateNewlines u ++ v := by
    rcases translateNewlines_append_cases u v with h | ⟨v', rfl, _⟩
    · rw [h, translateNewlines_bad hv]
    · exact absurd (hv '\n' List.mem_cons_self) (by decide)
  -- what comes after `u` is not nothing, unless nothing was appended
  obtain ⟨w', hright, hw'⟩ : ∃ w', translateNewlines (u ++ w) = translateNewlines u ++ w' ∧
      (w' = [] → v = []) := by
    rcases translateNewlines_append_cases u w with h | ⟨w', rfl, h⟩
    · refine ⟨_, h, fun hnil => by_contra fun hv => ?_⟩
      obtain ⟨c, w₀, rfl, _⟩ := hne hv
      rw [translateNewlines_eq_nil hnil] at h
      cases translateNewlines_eq_nil hnil
    · refine ⟨_, h, fun _ => by_contra fun hv => ?_⟩
      obtain ⟨c, w₀, he, hc⟩ := hne hv
      exact hc (List.cons.inj he).1.symm
  rw [hleft, hright]
  by_cases hnil : w' = []
  · have hsame : v = w' := by rw [hnil, hw' hnil]
    exact hsame ▸ List.prefix_refl _
  · exact (endedLines_le hcr hv).trans (ended_le hcr hnil)

end Shamsu.Py
