import Xv6Paging.Lib.Wp

/-! # Ghost components

    Code over a larger state that also records what it does. Erasing the record leaves the
    code over the smaller state: every triple of that code holds for what is left of the
    states of the recording code.
-/

namespace Ghost

open Wp

variable {ε σ τ α β : Type} {view : τ → σ} {x : EStateM ε τ α} {y : EStateM ε σ α}

/-- What `x` does to the part that `view` shows is what `y` does. -/
def Erases (view : τ → σ) (x : EStateM ε τ α) (y : EStateM ε σ α) : Prop :=
  ∀ t Q E, wp y Q E (view t) → wp x (fun a t' => Q a (view t')) (fun e t' => E e (view t')) t

theorem erases_pure (a : α) : Erases view (pure a : EStateM ε τ α) (pure a) := fun _ _ _ h => h

theorem erases_throw (e : ε) : Erases view (throw e : EStateM ε τ α) (throw e) := fun _ _ _ h => h

theorem erases_bind (hx : Erases view x y)
    (hf : ∀ a, Erases view (f a) (g a)) : Erases view (x >>= f) (y >>= g) := by
  intro t Q E h
  rw [wp_bind] at h ⊢
  exact wp_post (hx t _ E h) fun a t' ha => hf a t' Q E ha

theorem erases_ite (c : Prop) [Decidable c] (h : Erases view x y) (h' : Erases view x' y') :
    Erases view (if c then x else x') (if c then y else y') := by
  by_cases hc : c
  · simpa only [hc, if_true] using h
  · simpa only [hc, if_false] using h'

/-- Code that works on the part alone. -/
theorem erases_onPart {put' : τ → σ → τ} (hput : ∀ t s, view (put' t s) = s) (y : EStateM ε σ α) :
    Erases view (onPart view put' y) y := by
  intro t Q E h
  rw [wp_onPart]
  simpa only [hput] using h

/-- A step that only records. -/
theorem erases_record {rec : τ → τ} (hrec : ∀ t, view (rec t) = view t) (hf : Erases view (f ⟨⟩) z) :
    Erases view (modify rec >>= f) z := by
  intro t Q E h
  rw [wp_bind, wp_modify]
  exact hf _ Q E (by rwa [hrec])

end Ghost
