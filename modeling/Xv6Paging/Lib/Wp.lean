import Mathlib

/-! # Weakest preconditions for stateful code that may stop

    A small program logic for computations `EStateM ε σ α`: code that reads
    and writes a state `σ` and either returns a value or stops with an error
    `ε`, keeping the state it stopped in.

    `wp x Q E s` says that running `x` from `s` either returns a value and a
    state satisfying `Q`, or stops in an error and a state satisfying `E`.
    Taking `E := fun _ _ => False` gives total correctness, taking
    `E := fun _ _ => True` partial correctness.
-/

namespace Wp

variable {ε σ τ α β : Type}
  {x y : EStateM ε σ α} {Q Q' : α → σ → Prop} {E E' : ε → σ → Prop} {s s' : σ} {a : α}
  {e : ε} {f : α → EStateM ε σ β}

/-- Running `x` from `s` ends in `Q` when it returns, in `E` when it stops. -/
def wp (x : EStateM ε σ α) (Q : α → σ → Prop) (E : ε → σ → Prop) (s : σ) : Prop :=
  match x s with
  | .ok a s' => Q a s'
  | .error e s' => E e s'

/-- The error condition of total correctness: no stop at all. -/
def noStop : ε → σ → Prop := fun _ _ => False

/-- The error condition of partial correctness: any stop is fine. -/
def anyStop : ε → σ → Prop := fun _ _ => True

/-! ## Reading a triple back -/

theorem wp_of_ok (h : x s = .ok a s') : wp x Q E s ↔ Q a s' := by
  simp [wp, h]

theorem wp_of_error (h : x s = .error e s') : wp x Q E s ↔ E e s' := by
  simp [wp, h]

/-- Only what a computation does in the state at hand matters. -/
theorem wp_of_eq (h : x s = y s) (hy : wp y Q E s) : wp x Q E s := by
  unfold wp
  rw [h]
  exact hy

theorem wp_iff :
    wp x Q E s ↔
      (∀ a s', x s = .ok a s' → Q a s') ∧ ∀ e s', x s = .error e s' → E e s' := by
  unfold wp
  cases x s with
  | ok a s' => simp
  | error e s' => simp

/-- Total correctness gives a result. -/
theorem wp_noStop_iff :
    wp x Q noStop s ↔ ∃ a s', x s = .ok a s' ∧ Q a s' := by
  unfold wp noStop
  cases h : x s with
  | ok a s' =>
    constructor
    · intro hq
      exact ⟨a, s', rfl, hq⟩
    · rintro ⟨b, t, hb, hq⟩
      cases hb
      exact hq
  | error e s' => simp

/-- Partial correctness speaks about the results only. -/
theorem wp_anyStop_iff :
    wp x Q anyStop s ↔ ∀ a s', x s = .ok a s' → Q a s' := by
  unfold wp anyStop
  cases h : x s with
  | ok a s' => simp
  | error e s' => simp

/-- Computations that no condition tells apart give the same result. -/
theorem eq_of_wp_iff (h : ∀ (Q : α → σ → Prop) (E : ε → σ → Prop), wp x Q E s ↔ wp y Q E s) :
    x s = y s := by
  have hy : wp y (fun a s' => x s = .ok a s') (fun e s' => x s = .error e s') s := by
    rw [← h]
    unfold wp
    cases x s with
    | ok a s' => rfl
    | error e s' => rfl
  unfold wp at hy
  cases hys : y s with
  | ok b t => rwa [hys] at hy
  | error e t => rwa [hys] at hy

/-! ## Structural rules -/

theorem wp_mono (h : wp x Q E s) (hQ : ∀ a s', Q a s' → Q' a s') (hE : ∀ e s', E e s' → E' e s') :
    wp x Q' E' s := by
  unfold wp at *
  cases hx : x s with
  | ok a s' => rw [hx] at h; exact hQ a s' h
  | error e s' => rw [hx] at h; exact hE e s' h

theorem wp_post (h : wp x Q E s) (hQ : ∀ a s', Q a s' → Q' a s') : wp x Q' E s :=
  wp_mono h hQ (fun _ _ he => he)

/-- Code about which nothing has to be known. -/
theorem wp_of_forall (hQ : ∀ a s', Q a s') (hE : ∀ e s', E e s') : wp x Q E s :=
  wp_iff.mpr ⟨fun a s' _ => hQ a s', fun e s' _ => hE e s'⟩

/-- Two partial facts about one run, one of which decides how it may stop. -/
theorem wp_and (h : wp x Q E s) (h' : wp x R E' s) : wp x (fun a s' => Q a s' ∧ R a s') E s := by
  unfold wp at *
  cases hx : x s with
  | ok a s' => rw [hx] at h h'; exact ⟨h, h'⟩
  | error e s' => rw [hx] at h; exact h

/-- A postcondition may use the run it comes from. -/
theorem wp_run (h : wp x Q E s) : wp x (fun a s' => x s = .ok a s' ∧ Q a s') E s := by
  unfold wp at *
  cases hx : x s with
  | ok a s' => rw [hx] at h; exact ⟨rfl, h⟩
  | error e s' => rw [hx] at h; exact h

theorem wp_pure (a : α) (Q : α → σ → Prop) (E : ε → σ → Prop) (s : σ) :
    wp (pure a) Q E s ↔ Q a s := Iff.rfl

theorem wp_bind (x : EStateM ε σ α) (f : α → EStateM ε σ β)
    (Q : β → σ → Prop) (E : ε → σ → Prop) (s : σ) :
    wp (x >>= f) Q E s ↔ wp x (fun a s' => wp (f a) Q E s') E s := by
  unfold wp
  simp only [bind, EStateM.bind]
  cases x s with
  | ok a s' => exact Iff.rfl
  | error e s' => exact Iff.rfl

theorem wp_map (x : EStateM ε σ α) (f : α → β) (Q : β → σ → Prop) (E : ε → σ → Prop) (s : σ) :
    wp (f <$> x) Q E s ↔ wp x (fun a s' => Q (f a) s') E s := by
  unfold wp
  simp only [Functor.map, EStateM.map]
  cases x s with
  | ok a s' => exact Iff.rfl
  | error e s' => exact Iff.rfl

theorem wp_get (Q : σ → σ → Prop) (E : ε → σ → Prop) (s : σ) :
    wp get Q E s ↔ Q s s := Iff.rfl

theorem wp_set (t : σ) (Q : PUnit → σ → Prop) (E : ε → σ → Prop) (s : σ) :
    wp (set t) Q E s ↔ Q ⟨⟩ t := Iff.rfl

theorem wp_modify (f : σ → σ) (Q : PUnit → σ → Prop) (E : ε → σ → Prop) (s : σ) :
    wp (modify f) Q E s ↔ Q ⟨⟩ (f s) := Iff.rfl

theorem wp_throw (e : ε) (Q : α → σ → Prop) (E : ε → σ → Prop) (s : σ) :
    wp (throw e) Q E s ↔ E e s := Iff.rfl

theorem wp_ite (c : Prop) [Decidable c] (x y : EStateM ε σ α)
    (Q : α → σ → Prop) (E : ε → σ → Prop) (s : σ) :
    wp (if c then x else y) Q E s ↔ (c → wp x Q E s) ∧ (¬ c → wp y Q E s) := by
  by_cases h : c
  · simp [h]
  · simp [h]

attribute [simp] wp_pure wp_bind wp_map wp_get wp_set wp_modify wp_throw wp_ite

/-! ## Running a computation on a component of the state -/

/-- Run a computation on the component that `get'` reads and `put'` writes. -/
def onPart (get' : τ → σ) (put' : τ → σ → τ) (x : EStateM ε σ α) : EStateM ε τ α :=
  fun t =>
    match x (get' t) with
    | .ok a s => .ok a (put' t s)
    | .error e s => .error e (put' t s)

@[simp] theorem wp_onPart (get' : τ → σ) (put' : τ → σ → τ) (x : EStateM ε σ α)
    (Q : α → τ → Prop) (E : ε → τ → Prop) (t : τ) :
    wp (onPart get' put' x) Q E t ↔
      wp x (fun a s => Q a (put' t s)) (fun e s => E e (put' t s)) (get' t) := by
  unfold wp onPart
  cases x (get' t) with
  | ok a s => exact Iff.rfl
  | error e s => exact Iff.rfl

/-! ## Relations between the first and the last state -/

/-- Every run of `x` that returns relates its first to its last state by `R`,
    and `x` stops with errors that satisfy `B` only. -/
def Keeps (R : σ → σ → Prop) (B : ε → Prop) (x : EStateM ε σ α) : Prop :=
  ∀ s, wp x (fun _ s' => R s s') (fun e _ => B e) s

section Keeps

variable {R : σ → σ → Prop} {B : ε → Prop}

theorem keeps_pure [Std.Refl R] (a : α) : Keeps R B (pure a : EStateM ε σ α) :=
  fun s => (wp_pure a _ _ s).mpr (Std.Refl.refl s)

theorem keeps_get [Std.Refl R] : Keeps R B (get : EStateM ε σ σ) :=
  fun s => (wp_get _ _ s).mpr (Std.Refl.refl s)

theorem keeps_throw (h : B e) : Keeps R B (throw e : EStateM ε σ α) := fun _ => h

theorem keeps_modify {f : σ → σ} (h : ∀ s, R s (f s)) :
    Keeps R B (modify f : EStateM ε σ PUnit) := h

theorem keeps_bind [IsTrans σ R] (hx : Keeps R B x) (hf : ∀ a, Keeps R B (f a)) :
    Keeps R B (x >>= f) := by
  intro s
  rw [wp_bind]
  refine wp_post (hx s) ?_
  intro a s' hs
  exact wp_post (hf a s') fun _ _ ht => IsTrans.trans _ _ _ hs ht

theorem keeps_ite (c : Prop) [Decidable c] (hx : Keeps R B x) (hy : Keeps R B y) :
    Keeps R B (if c then x else y) := by
  by_cases h : c
  · simpa only [h, if_true] using hx
  · simpa only [h, if_false] using hy

/-- A relation on the whole state that a computation on a component keeps. -/
theorem keeps_onPart {B' : ε → Prop} {get' : τ → σ} {put' : τ → σ → τ}
    (hx : Keeps R B x) (h : ∀ t s, R (get' t) s → R' t (put' t s)) (hB : ∀ e, B e → B' e) :
    Keeps R' B' (onPart get' put' x) := by
  intro t
  rw [wp_onPart]
  exact wp_mono (hx (get' t)) (fun _ s hs => h t s hs) (fun e _ he => hB e he)

end Keeps

/-! ## Sequencing concrete results -/

theorem bind_ok (h : x s = .ok a s') : (x >>= f) s = f a s' := by
  simp [bind, EStateM.bind, h]

theorem bind_get (f : σ → EStateM ε σ β) (s : σ) : (get >>= f) s = f s s := rfl

theorem bind_error (h : x s = .error e s') : (x >>= f) s = .error e s' := by
  simp [bind, EStateM.bind, h]

/-- A run that returned splits at a bind. -/
theorem bind_eq_ok : (x >>= f) s = .ok b s'' ↔ ∃ a s', x s = .ok a s' ∧ f a s' = .ok b s'' := by
  simp only [bind, EStateM.bind]
  cases h : x s with
  | ok a s' =>
    constructor
    · intro hf
      exact ⟨a, s', rfl, hf⟩
    · rintro ⟨b', t, hb, hf⟩
      cases hb
      exact hf
  | error e s' => simp

end Wp
