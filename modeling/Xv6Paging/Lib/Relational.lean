import Xv6Paging.Lib.Wp

/-! # Two runs of one computation

    `Alike R S x` says that `x`, started in two states related by `R`, takes the
    same course in both: it returns the same value in states related by `R`, or
    stops with the same error in states related by `S`. With `R` as "equal but
    for a part of the state" this is the statement that `x` does not depend on
    that part.
-/

namespace Wp

variable {ε σ τ α β : Type}
  {x y : EStateM ε σ α} {f : α → EStateM ε σ β}

/-- `x` from `s` and `y` from `t` end in the same way. -/
def Both (R S : σ → σ → Prop) (x y : EStateM ε σ α) (s t : σ) : Prop :=
  match x s, y t with
  | .ok a s', .ok b t' => a = b ∧ R s' t'
  | .error e s', .error e' t' => e = e' ∧ S s' t'
  | _, _ => False

/-- `x` takes the same course from related states. -/
def Alike (R S : σ → σ → Prop) (x : EStateM ε σ α) : Prop :=
  ∀ s t, R s t → Both R S x x s t

section Rules

variable {R S : σ → σ → Prop}

theorem both_bind (hxy : Both R S x y s t) (hfg : ∀ a s' t', R s' t' → Both R S (f a) (g a) s' t') :
    Both R S (x >>= f) (y >>= g) s t := by
  unfold Both at hxy
  unfold Both
  simp only [bind, EStateM.bind]
  -- Only the two cases in which both runs end alike are left by `hxy`.
  cases hx : x s with
  | ok a s' =>
    cases hy : y t with
    | ok b t' =>
      rw [hx, hy] at hxy
      obtain ⟨rfl, hR⟩ := hxy
      exact hfg a s' t' hR
    | error e t' =>
      rw [hx, hy] at hxy
      exact hxy.elim
  | error e s' =>
    cases hy : y t with
    | ok b t' =>
      rw [hx, hy] at hxy
      exact hxy.elim
    | error e' t' =>
      rw [hx, hy] at hxy
      exact hxy

theorem alike_pure (a : α) : Alike R S (pure a : EStateM ε σ α) :=
  fun _ _ h => ⟨rfl, h⟩

theorem alike_throw (hS : ∀ s t, R s t → S s t) (e : ε) : Alike R S (throw e : EStateM ε σ α) :=
  fun s t h => ⟨rfl, hS s t h⟩

theorem alike_modify {f : σ → σ} (h : ∀ s t, R s t → R (f s) (f t)) :
    Alike R S (modify f : EStateM ε σ PUnit) :=
  fun s t hst => ⟨rfl, h s t hst⟩

theorem alike_bind (hx : Alike R S x) (hf : ∀ a, Alike R S (f a)) : Alike R S (x >>= f) :=
  fun s t h => both_bind (hx s t h) fun a s' t' h' => hf a s' t' h'

/-- The state is read by code that uses only what related states have in common. -/
theorem alike_get {f : σ → EStateM ε σ α} (hf : ∀ s t, R s t → f t = f s)
    (h : ∀ s, Alike R S (f s)) : Alike R S (get >>= f) := by
  intro s t hst
  show Both R S (f s) (f t) s t
  rw [hf s t hst]
  exact h s s t hst

theorem alike_ite (c : Prop) [Decidable c] (hx : Alike R S x) (hy : Alike R S y) :
    Alike R S (if c then x else y) := by
  by_cases h : c
  · rw [if_pos h]
    exact hx
  · rw [if_neg h]
    exact hy

/-- A computation on a component that related states have in common. -/
theorem alike_onPart {get' : τ → σ} {put' : τ → σ → τ} {R S : τ → τ → Prop}
    (hget : ∀ s t, R s t → get' s = get' t)
    (hok : ∀ s t a u, R s t → x (get' s) = .ok a u → R (put' s u) (put' t u))
    (herr : ∀ s t u, R s t → S (put' s u) (put' t u)) : Alike R S (onPart get' put' x) := by
  intro s t h
  unfold Both onPart
  rw [← hget s t h]
  cases hx : x (get' s) with
  | ok a u => exact ⟨rfl, hok s t a u h hx⟩
  | error e u => exact ⟨rfl, herr s t u h⟩

end Rules

end Wp
