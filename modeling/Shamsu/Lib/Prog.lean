import Mathlib

/-!
# Programs over a mutable state that may raise

`Prog ε σ α` is a computation that reads and writes a state `σ` and either
returns an `α` or raises an `ε`. The state survives an exception: what was done
before the raise stays done, so a handler starts from the half-finished state.

`Keeps R x`: the state `x` ends in is `R`-related to the one it started from,
whether it returned or raised. For a preorder `R` this composes through `bind`
and loops (`Keeps.bind`, `Keeps.forEach`), which is how frame facts ("every
other path is untouched") are proved.
-/

namespace Shamsu.Lib

/-- A computation over state `σ` that returns an `α` or raises an `ε`. -/
def Prog (ε σ α : Type) : Type := σ → Except ε α × σ

namespace Prog

variable {ε σ α β : Type}

/-- Sequencing: an exception skips the continuation and keeps the state. -/
protected def bind (x : Prog ε σ α) (f : α → Prog ε σ β) : Prog ε σ β := fun s =>
  match x s with
  | (.ok a, s') => f a s'
  | (.error e, s') => (.error e, s')

instance : Monad (Prog ε σ) where
  pure a := fun s => (.ok a, s)
  bind := Prog.bind

/-- Raise `e`. -/
def raise (e : ε) : Prog ε σ α := fun s => (.error e, s)

/-- Read a function of the state. -/
def gets (f : σ → α) : Prog ε σ α := fun s => (.ok (f s), s)

/-- Update the state. -/
def modify (f : σ → σ) : Prog ε σ Unit := fun s => (.ok (), f s)

/-- Return an `Except` value or raise its error. -/
def ofExcept (r : Except ε α) : Prog ε σ α := fun s => (r, s)

/-- Compute from the state, or raise. -/
def read (f : σ → Except ε α) : Prog ε σ α := fun s => (f s, s)

/-- Update the state, or raise and leave it as it is. -/
def attempt (f : σ → Except ε σ) : Prog ε σ Unit := fun s =>
  match f s with
  | .ok s' => (.ok (), s')
  | .error e => (.error e, s)

/-- Raise `e` unless the state meets `c`. -/
def ensure (c : σ → Bool) (e : ε) : Prog ε σ Unit := fun s =>
  if c s then (.ok (), s) else (.error e, s)

/-- Run `x` only in a state that meets `c`. -/
def whenever (c : σ → Bool) (x : Prog ε σ Unit) : Prog ε σ Unit := fun s =>
  if c s then x s else (.ok (), s)

/-- Run `x`; if it raises, run the handler from the state `x` left. -/
def handle (x : Prog ε σ α) (h : ε → Prog ε σ α) : Prog ε σ α := fun s =>
  match x s with
  | (.ok a, s') => (.ok a, s')
  | (.error e, s') => h e s'

/-- Run `f` on every element of the list, in order. -/
def forEach (l : List α) (f : α → Prog ε σ Unit) : Prog ε σ Unit :=
  match l with
  | [] => pure ()
  | a :: l => f a >>= fun _ => forEach l f

@[simp] theorem pure_apply (a : α) (s : σ) : (pure a : Prog ε σ α) s = (.ok a, s) := rfl
@[simp] theorem raise_apply (e : ε) (s : σ) : (raise e : Prog ε σ α) s = (.error e, s) := rfl
@[simp] theorem gets_apply (f : σ → α) (s : σ) : (gets f : Prog ε σ α) s = (.ok (f s), s) := rfl
@[simp] theorem modify_apply (f : σ → σ) (s : σ) :
    (modify f : Prog ε σ Unit) s = (.ok (), f s) := rfl
@[simp] theorem ofExcept_apply (r : Except ε α) (s : σ) :
    (ofExcept r : Prog ε σ α) s = (r, s) := rfl
@[simp] theorem read_apply (f : σ → Except ε α) (s : σ) :
    (read f : Prog ε σ α) s = (f s, s) := rfl

theorem whenever_cases {c : σ → Bool} {x : Prog ε σ Unit} {s s' : σ} {r : Except ε Unit}
    (h : whenever c x s = (r, s')) :
    (c s = true ∧ x s = (r, s')) ∨ (c s = false ∧ r = .ok () ∧ s = s') := by
  unfold whenever at h
  split at h
  next hc => exact Or.inl ⟨hc, h⟩
  next hc => cases h; exact Or.inr ⟨by simpa using hc, rfl, rfl⟩

theorem whenever_of_true {c : σ → Bool} {x : Prog ε σ Unit} {s : σ} (h : c s = true) :
    whenever c x s = x s := if_pos h

theorem whenever_of_false {c : σ → Bool} {x : Prog ε σ Unit} {s : σ} (h : c s = false) :
    whenever c x s = (.ok (), s) := if_neg (by rw [h]; simp)

theorem bind_apply (x : Prog ε σ α) (f : α → Prog ε σ β) (s : σ) :
    (x >>= f) s = match x s with
      | (.ok a, s') => f a s'
      | (.error e, s') => (.error e, s') := rfl

theorem handle_apply (x : Prog ε σ α) (h : ε → Prog ε σ α) (s : σ) :
    handle x h s = match x s with
      | (.ok a, s') => (.ok a, s')
      | (.error e, s') => h e s' := rfl

@[simp] theorem forEach_cons (a : α) (l : List α) (f : α → Prog ε σ Unit) :
    forEach (a :: l) f = f a >>= fun _ => forEach l f := rfl

/-- Peel the first computation off a sequence known to return. -/
theorem bind_ok {x : Prog ε σ α} {f : α → Prog ε σ β} {s s' : σ} {b : β} :
    (x >>= f) s = (.ok b, s') ↔ ∃ a s₁, x s = (.ok a, s₁) ∧ f a s₁ = (.ok b, s') := by
  rw [bind_apply]
  constructor
  · intro h
    match hx : x s with
    | (.ok a, s₁) => rw [hx] at h; exact ⟨a, s₁, rfl, h⟩
    | (.error e, s₁) => rw [hx] at h; simp at h
  · intro hsome
    obtain ⟨a, s₁, hx, hf⟩ := hsome
    rw [hx]; exact hf

theorem bind_of_ok {x : Prog ε σ α} {f : α → Prog ε σ β} {s s₁ : σ} {a : α}
    (h : x s = (.ok a, s₁)) : (x >>= f) s = f a s₁ := by
  rw [bind_apply, h]

theorem bind_of_error {x : Prog ε σ α} {f : α → Prog ε σ β} {s s₁ : σ} {e : ε}
    (h : x s = (.error e, s₁)) : (x >>= f) s = (.error e, s₁) := by
  rw [bind_apply, h]

/-- Either way out of a sequence: its first part raised, or its second part
decided. -/
theorem bind_cases {x : Prog ε σ α} {f : α → Prog ε σ β} {s s' : σ} {r : Except ε β}
    (h : (x >>= f) s = (r, s')) :
    (∃ e, x s = (.error e, s') ∧ r = .error e) ∨
      ∃ a s₁, x s = (.ok a, s₁) ∧ f a s₁ = (r, s') := by
  rw [bind_apply] at h
  match hx : x s with
  | (.ok a, s₁) => rw [hx] at h; exact Or.inr ⟨a, s₁, rfl, h⟩
  | (.error e, s₁) =>
    rw [hx] at h
    simp only [Prod.mk.injEq] at h
    exact Or.inl ⟨e, by rw [h.2], h.1.symm⟩

theorem ensure_bind {c : σ → Bool} {e : ε} {f : Unit → Prog ε σ β} {s s' : σ} {r : Except ε β}
    (h : (ensure c e >>= f) s = (r, s')) :
    (c s = false ∧ r = .error e ∧ s = s') ∨ (c s = true ∧ f () s = (r, s')) := by
  rw [bind_apply] at h
  unfold ensure at h
  by_cases hc : c s = true
  · rw [if_pos hc] at h; exact Or.inr ⟨hc, h⟩
  · rw [if_neg hc] at h
    simp only [Prod.mk.injEq] at h
    exact Or.inl ⟨by simpa using hc, h.1.symm, h.2⟩

theorem read_bind {g : σ → Except ε α} {f : α → Prog ε σ β} {s s' : σ} {r : Except ε β}
    (h : (read g >>= f) s = (r, s')) :
    (∃ e, g s = .error e ∧ r = .error e ∧ s = s') ∨ ∃ a, g s = .ok a ∧ f a s = (r, s') := by
  rw [bind_apply, read_apply] at h
  cases hg : g s with
  | ok a => rw [hg] at h; exact Or.inr ⟨a, rfl, h⟩
  | error e =>
    rw [hg] at h
    simp only [Prod.mk.injEq] at h
    exact Or.inl ⟨e, rfl, h.1.symm, h.2⟩

theorem ofExcept_bind {x : Except ε α} {f : α → Prog ε σ β} {s s' : σ} {r : Except ε β}
    (h : (ofExcept x >>= f) s = (r, s')) :
    (∃ e, x = .error e ∧ r = .error e ∧ s = s') ∨ ∃ a, x = .ok a ∧ f a s = (r, s') :=
  read_bind (g := fun _ => x) h

/-- The outcome of a run is a return that passes the test. -/
def returns (test : α → σ → Bool) : Except ε α × σ → Bool
  | (.ok a, s) => test a s
  | (.error _, _) => false

theorem returns_iff {test : α → σ → Bool} {outcome : Except ε α × σ} :
    returns test outcome = true ↔ ∃ a s, outcome = (.ok a, s) ∧ test a s = true := by
  constructor
  · intro h
    match outcome with
    | (.ok a, s) => exact ⟨a, s, rfl, h⟩
    | (.error e, s) => simp [returns] at h
  · rintro ⟨a, s, rfl, h⟩; exact h

/-- Every run ends somehow. -/
theorem exists_run (x : Prog ε σ α) (s : σ) : ∃ r s', x s = (r, s') := ⟨(x s).1, (x s).2, rfl⟩

/-! ## A part of the state -/

/-- A component of a state: read it, replace it. -/
structure Part (σ τ : Type) where
  get : σ → τ
  set : τ → σ → σ
  get_set : ∀ t s, get (set t s) = t
  set_get : ∀ s, set (get s) s = s

/-- Run a program of the component on the whole state. -/
def zoom {τ : Type} (P : Part σ τ) (x : Prog ε τ α) : Prog ε σ α := fun s =>
  ((x (P.get s)).1, P.set (x (P.get s)).2 s)

theorem zoom_read {τ : Type} (P : Part σ τ) (g : τ → Except ε α) :
    zoom P (read g) = read fun s => g (P.get s) := by
  funext s
  show (g (P.get s), P.set (P.get s) s) = _
  rw [P.set_get]; rfl

/-- A zoomed program is the program on the component. -/
theorem zoom_cases {τ : Type} {P : Part σ τ} {x : Prog ε τ α} {s s' : σ} {r : Except ε α}
    (h : zoom P x s = (r, s')) :
    ∃ t, x (P.get s) = (r, t) ∧ s' = P.set t s := by
  simp only [zoom, Prod.mk.injEq] at h
  exact ⟨(x (P.get s)).2, by rw [← h.1], h.2.symm⟩

/-! ## `Keeps`: a relation between the first and the last state -/

/-- Whatever the outcome, the last state is `R`-related to the first. -/
def Keeps (R : σ → σ → Prop) (x : Prog ε σ α) : Prop := ∀ s, R s (x s).2

namespace Keeps

variable {R : σ → σ → Prop}

theorem pure (hr : ∀ s, R s s) (a : α) : Keeps R (Pure.pure a : Prog ε σ α) := fun s => hr s

theorem gets (hr : ∀ s, R s s) (f : σ → α) : Keeps R (Prog.gets f : Prog ε σ α) := fun s => hr s

theorem read (hr : ∀ s, R s s) (f : σ → Except ε α) :
    Keeps R (Prog.read f : Prog ε σ α) := fun s => hr s

theorem ensure (hr : ∀ s, R s s) (c : σ → Bool) (e : ε) :
    Keeps R (Prog.ensure c e : Prog ε σ Unit) := by
  intro s
  unfold Prog.ensure
  split <;> exact hr s

theorem whenever (hr : ∀ s, R s s) {c : σ → Bool} {x : Prog ε σ Unit} (hx : Keeps R x) :
    Keeps R (Prog.whenever c x) := by
  intro s
  unfold Prog.whenever
  split
  · exact hx s
  · exact hr s

theorem modify {f : σ → σ} (h : ∀ s, R s (f s)) : Keeps R (Prog.modify f : Prog ε σ Unit) := h

theorem bind (ht : ∀ a b c, R a b → R b c → R a c) {x : Prog ε σ α} {f : α → Prog ε σ β}
    (hx : Keeps R x) (hf : ∀ a, Keeps R (f a)) : Keeps R (x >>= f) := by
  intro s
  have h := hx s
  rw [bind_apply]
  split
  next a s' he => rw [he] at h; exact ht _ _ _ h (hf a s')
  next e s' he => rw [he] at h; exact h

theorem handle (ht : ∀ a b c, R a b → R b c → R a c) {x : Prog ε σ α} {f : ε → Prog ε σ α}
    (hx : Keeps R x) (hf : ∀ e, Keeps R (f e)) : Keeps R (Prog.handle x f) := by
  intro s
  have h := hx s
  rw [handle_apply]
  split
  next a s' he => rw [he] at h; exact h
  next e s' he => rw [he] at h; exact ht _ _ _ h (hf e s')

theorem zoom {τ : Type} {P : Part σ τ} {R : τ → τ → Prop} {x : Prog ε τ α} (hx : Keeps R x) :
    Keeps (fun s s' => R (P.get s) (P.get s')) (Prog.zoom P x) := by
  intro s
  show R (P.get s) (P.get (P.set (x (P.get s)).2 s))
  rw [P.get_set]
  exact hx (P.get s)

theorem forEach (hr : ∀ s, R s s) (ht : ∀ a b c, R a b → R b c → R a c)
    {f : α → Prog ε σ Unit} : ∀ (l : List α), (∀ a ∈ l, Keeps R (f a)) → Keeps R (forEach l f)
  | [], _ => Keeps.pure hr ()
  | a :: l, h =>
    Keeps.bind ht (h a (List.mem_cons_self ..)) fun _ =>
      forEach hr ht l fun b hb => h b (List.mem_cons_of_mem _ hb)

end Keeps

end Prog

/-! ## Results -/

section Results

theorem result_bind_ok {α β ε : Type} {x : Except ε α} {f : α → Except ε β} {b : β} :
    (x >>= f) = .ok b ↔ ∃ a, x = .ok a ∧ f a = .ok b := by
  cases x with
  | error e => simp [bind, Except.bind]
  | ok a => simp [bind, Except.bind]

variable {α β ε : Type} {f : α → Except ε β} {l : List α} {r : List β}

/-- A list of results: every one returned. -/
theorem mapM_cons_ok {a : α}
    (h : (a :: l).mapM f = .ok r) : ∃ b r', f a = .ok b ∧ l.mapM f = .ok r' ∧ r = b :: r' := by
  rw [List.mapM_cons] at h
  cases hb : f a with
  | error e => rw [hb] at h; simp [bind, Except.bind] at h
  | ok b =>
    cases hr : l.mapM f with
    | error e => rw [hb, hr] at h; simp [bind, Except.bind] at h
    | ok r' => 
      rw [hb, hr] at h
      exact ⟨b, r', rfl, rfl, (Except.ok.inj h).symm⟩

theorem of_mem_mapM_ok {b : β}
    (h : l.mapM f = .ok r) (hb : b ∈ r) : ∃ a ∈ l, f a = .ok b := by
  induction l generalizing r with
  | nil => cases h; simp at hb
  | cons a l ih =>
    obtain ⟨b', r', hfa, hl, rfl⟩ := mapM_cons_ok h
    rcases List.mem_cons.mp hb with rfl | hb
    · exact ⟨a, List.mem_cons_self .., hfa⟩
    · obtain ⟨a', ha', hfa'⟩ := ih hl hb
      exact ⟨a', List.mem_cons_of_mem _ ha', hfa'⟩

theorem mapM_ok_of_mem {a : α}
    (h : l.mapM f = .ok r) (ha : a ∈ l) : ∃ b ∈ r, f a = .ok b := by
  induction l generalizing r with
  | nil => simp at ha
  | cons a' l ih =>
    obtain ⟨b', r', hfa, hl, rfl⟩ := mapM_cons_ok h
    rcases List.mem_cons.mp ha with rfl | ha
    · exact ⟨b', List.mem_cons_self .., hfa⟩
    · obtain ⟨b, hb, hfb⟩ := ih hl ha
      exact ⟨b, List.mem_cons_of_mem _ hb, hfb⟩

end Results

end Shamsu.Lib
