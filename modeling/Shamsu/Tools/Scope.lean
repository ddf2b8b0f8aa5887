import Shamsu.Tools.Resolve

/-!
# Paths inside a scope

A scope is a list of paths in lower case. The checks compare texts (`covers`,
`scopeKey`); `inside_of_covers` says what a text that passes means for the path
it leads to.
-/

namespace Shamsu.Tools

open Shamsu.Lib Shamsu.Py Shamsu.Safety

/-! ## Names and texts -/

/-- The names of a text are names, but for `..`. -/
theorem of_mem_parts {n t : Text} (h : n ∈ parts t) (h0 : '\x00' ∉ t) :
    n ≠ [] ∧ n ≠ ['.'] ∧ '/' ∉ n ∧ '\x00' ∉ n := by
  induction hlen : t.length using Nat.strong_induction_on generalizing t with
  | _ len ih =>
    by_cases hs : '/' ∈ t
    · obtain ⟨a, b, rfl, ha⟩ := List.eq_append_cons_of_mem hs
      rw [List.length_append, List.length_cons] at hlen
      rw [parts_append_cons, List.mem_append] at h
      rcases h with h | h
      · exact ih a.length (by omega) h (fun hm => h0 (List.mem_append_left _ hm)) rfl
      · exact ih b.length (by omega) h
          (fun hm => h0 (List.mem_append_right _ (List.mem_cons_of_mem _ hm))) rfl
    · rw [parts_of_not_mem hs] at h
      split at h
      · cases h
      next hne =>
        obtain rfl := List.mem_singleton.mp h
        exact ⟨fun e => hne (Or.inl e), fun e => hne (Or.inr e), hs, h0⟩

/-- The text of names is read back as these names. -/
theorem parts_join {names : List Text} (h : ∀ n ∈ names, IsName n) :
    parts (join '/' names) = names := by
  induction names with
  | nil => decide
  | cons a l ih =>
    obtain ⟨ha, hdot, _, hslash, _⟩ := h a (List.mem_cons_self ..)
    have hpa : parts a = [a] := by
      rw [parts_of_not_mem hslash, if_neg (by simp [ha, hdot])]
    cases l with
    | nil => rw [join_singleton, hpa]
    | cons b l =>
      rw [join_cons_cons, parts_append_cons, hpa,
        ih fun n hn => h n (List.mem_cons_of_mem _ hn)]
      rfl

theorem parts_posix {names : List Text} (h : ∀ n ∈ names, IsName n) :
    parts (posix names) = names := by
  unfold posix
  split
  next he => rw [he]; decide
  next => exact parts_join h

namespace Casing

variable (c : Casing)

theorem lower_nil : c.lower [] = [] := (c.dots [] 0).mpr rfl

/-- Lower case does not make a name another kind of text. -/
theorem isName_lower {n : Text} (h : IsName n) : IsName (c.lower n) := by
  obtain ⟨hne, hdot, hdd, hs, h0⟩ := h
  exact ⟨fun e => hne ((c.dots n 0).mp e), fun e => hdot ((c.dots n 1).mp e),
    fun e => hdd ((c.dots n 2).mp e), c.plain n '/' (by simp) hs, c.plain n '\x00' (by simp) h0⟩

theorem lower_join (names : List Text) :
    c.lower (join '/' names) = join '/' (names.map c.lower) := by
  induction names with
  | nil => exact c.lower_nil
  | cons a l ih =>
    cases l with
    | nil => rw [join_singleton]; exact (join_singleton _).symm
    | cons b l => rw [join_cons_cons, c.lower_slash, ih]; exact (join_cons_cons _ _ _).symm

theorem lower_posix (names : List Text) :
    c.lower (posix names) = posix (names.map c.lower) := by
  unfold posix
  cases names with
  | nil => exact (c.dots ['.'] 1).mpr rfl
  | cons a l => exact c.lower_join (a :: l)

theorem map_lower_map_lower (names : List Text) :
    (names.map c.lower).map c.lower = names.map c.lower := by
  simp [c.lower_lower]

end Casing

/-- The names above a text of slashes are those of the text before it. -/
theorem parts_rstripSlash (item : Text) : parts (rstripSlash item) = parts item := by
  induction item using List.reverseRecOn with
  | nil => rfl
  | append_singleton s x ih =>
    unfold rstripSlash at ih ⊢
    by_cases hx : x = '/'
    · subst hx
      rw [List.rdropWhile_concat_pos _ _ _ (by simp), ih, parts_append_cons]
      simp [show parts [] = [] by decide]
    · rw [List.rdropWhile_concat_neg _ _ _ (by simpa using hx)]

/-- What is resolved from names is names. -/
theorem isName_resolveFrom : ∀ {names : List Text} {base : Path},
    (∀ n ∈ base, IsName n) →
      (∀ n ∈ names, n ≠ [] ∧ n ≠ ['.'] ∧ '/' ∉ n ∧ '\x00' ∉ n) →
      ∀ n ∈ resolveFrom base names, IsName n := by
  intro names
  induction names with
  | nil => exact fun hb _ n hn => hb n hn
  | cons m names ih =>
    intro base hb hm
    apply ih
    · intro n hn
      change n ∈ (if m = dotDot then base.dropLast else base ++ [m]) at hn
      by_cases hd : m = dotDot
      · rw [if_pos hd] at hn
        exact hb n (List.mem_of_mem_dropLast hn)
      · rw [if_neg hd, List.mem_append, List.mem_singleton] at hn
        rcases hn with hn | rfl
        · exact hb n hn
        · obtain ⟨h₁, h₂, h₃, h₄⟩ := hm n (List.mem_cons_self ..)
          exact ⟨h₁, h₂, hd, h₃, h₄⟩
    · exact fun n hn => hm n (List.mem_cons_of_mem _ hn)

/-- A text of names has no slash in front. -/
theorem isAbsolute_posix {names : List Text} (h : ∀ n ∈ names, IsName n) :
    isAbsolute (posix names) = false := by
  cases names with
  | nil => decide
  | cons a l =>
    obtain ⟨ha, _, _, hs, _⟩ := h a (List.mem_cons_self ..)
    obtain ⟨x, a, rfl⟩ := List.exists_cons_of_ne_nil ha
    have hx : x ≠ '/' := fun e => hs (e ▸ List.mem_cons_self ..)
    have hhead : (posix ((x :: a) :: l)).head? = some x := by
      cases l with
      | nil => simp [posix, join_singleton]
      | cons b l => simp [posix, join_cons_cons]
    simp [isAbsolute, hhead, hx]

theorem not_mem_posix {names : List Text} {c : Char} (h : ∀ n ∈ names, c ∉ n) (hdot : c ≠ '.')
    (hslash : c ≠ '/') : c ∉ posix names := by
  induction names with
  | nil => simpa [posix] using hdot
  | cons a l ih =>
    have ha := h a (List.mem_cons_self ..)
    cases l with
    | nil => simpa [posix, join_singleton] using ha
    | cons b l =>
      have hl := ih fun n hn => h n (List.mem_cons_of_mem _ hn)
      simp only [posix, List.cons_ne_nil, if_false, join_cons_cons, List.mem_append,
        List.mem_cons, not_or] at hl ⊢
      exact ⟨ha, hslash, hl⟩

/-- The text of names leads to them. -/
theorem locate_posix {root : Path} {names : List Text} (h : ∀ n ∈ names, IsName n) :
    locate root (posix names) = root ++ names := by
  unfold locate
  rw [isAbsolute_posix h, parts_posix h]
  exact resolveFrom_eq_append (fun hm => (h dotDot hm).2.2.1 rfl) _

theorem mem_dropDotSlash {c : Char} {x : Text} (h : c ∈ dropDotSlash x) : c ∈ x := by
  induction x using dropDotSlash.induct with
  | case1 x ih => exact List.mem_cons_of_mem _ (List.mem_cons_of_mem _ (ih h))
  | case2 x hne => rwa [dropDotSlash] at h; exact hne

theorem mem_strip {c : Char} {x : Text} (h : c ∈ strip x) : c ∈ x :=
  (List.rdropWhile_prefix _ x).subset ((List.dropWhile_suffix _).subset h)

/-- Normalising makes no null character. -/
theorem nul_normalizeWorkspacePath {x : Text} (h : '\x00' ∈ normalizeWorkspacePath x) :
    '\x00' ∈ x := by
  have h := mem_dropDotSlash (mem_strip h)
  obtain ⟨c, hc, he⟩ := List.mem_map.mp h
  have hc0 : c = '\x00' := by
    by_cases hb : c = '\\'
    · simp [hb] at he
    · simpa [hb] using he
  subst hc0
  have hq := mem_strip hc
  exact mem_strip ((List.dropWhile_suffix _).subset ((List.rdropWhile_prefix _ _).subset hq))

/-! ## The scope -/

theorem relativeTo_append (root r : Path) : relativeTo root (root ++ r) = r := by
  simp [relativeTo]

/-- `p` is one of the allowed paths or lies inside one of them. The set is kept
in lower case, so letter case does not count. -/
def Inside (c : Casing) (root : Path) (allowed : List Text) (p : Path) : Prop :=
  ∃ item ∈ allowed, root <+: locate root item ∧ root <+: p ∧
    (relativeTo root (locate root item)).map c.lower <+: (relativeTo root p).map c.lower

instance (c : Casing) (root : Path) (allowed : List Text) (p : Path) :
    Decidable (Inside c root allowed p) :=
  inferInstanceAs (Decidable (∃ item ∈ allowed, _))

variable {c : Casing} {root : Path} {allowed : List Text}

/-- **The check**: a text an allowed path covers is the text of a path in the
scope. -/
theorem inside_of_covers {item : Text} {r : List Text} (hr : ∀ n ∈ r, IsName n)
    (hitem : item ∈ allowed) (h : covers (c.lower (posix r)) item = true) :
    Inside c root allowed (root ++ r) := by
  have hlow : ∀ n ∈ r.map c.lower, IsName n := by
    intro n hn
    obtain ⟨m, hm, rfl⟩ := List.mem_map.mp hn
    exact c.isName_lower (hr m hm)
  have hdd : dotDot ∉ r.map c.lower := fun hm => (hlow dotDot hm).2.2.1 rfl
  -- the names of the item are first names of `r`, and it is no absolute path
  have key : parts item <+: r.map c.lower ∧ isAbsolute item = false := by
    rw [c.lower_posix] at h
    simp only [covers, Bool.or_eq_true, beq_iff_eq, List.isPrefixOf_iff_prefix] at h
    rcases h with rfl | ⟨rest, hrest⟩
    · rw [parts_posix hlow]
      exact ⟨List.prefix_refl _, isAbsolute_posix hlow⟩
    · have hparts := congrArg parts hrest
      rw [List.append_assoc, List.singleton_append, parts_append_cons, parts_posix hlow,
        parts_rstripSlash] at hparts
      refine ⟨⟨_, hparts⟩, ?_⟩
      have habs := isAbsolute_posix hlow
      rw [← hrest] at habs
      obtain ⟨s, hs⟩ : rstripSlash item <+: item := List.rdropWhile_prefix _ item
      cases hi : rstripSlash item with
      | nil => rw [hi] at habs; cases habs
      | cons x xs =>
        rw [hi] at habs hs
        rw [← hs]
        exact habs
  obtain ⟨hpre, habs⟩ := key
  have hloc : locate root item = root ++ parts item := by
    unfold locate
    rw [habs]
    exact resolveFrom_eq_append (fun hm => hdd (hpre.subset hm)) _
  refine ⟨item, hitem, hloc ▸ List.prefix_append _ _, List.prefix_append _ _, ?_⟩
  rw [hloc, relativeTo_append, relativeTo_append]
  have := hpre.map c.lower
  rwa [c.map_lower_map_lower] at this

/-- What the sandbox lets through is the text of names below the root. -/
theorem names_of_validate (hroot : ∀ n ∈ root, IsName n) {x : Text} {target : Path}
    (h : validate root x = .ok target) : ∃ r, target = root ++ r ∧ ∀ n ∈ r, IsName n := by
  obtain ⟨h0, ⟨r, rfl⟩, hloc⟩ := validate_ok.mp h
  refine ⟨r, rfl, fun n hn => ?_⟩
  have hbase : ∀ n ∈ (if isAbsolute x then [] else root), IsName n := by
    split
    · intro n hn; cases hn
    · exact hroot
  have hall := isName_resolveFrom hbase fun n (hn : n ∈ parts x) => of_mem_parts hn h0
  unfold locate at hloc
  rw [hloc] at hall
  exact hall n (List.mem_append_right _ hn)

end Shamsu.Tools
