import Xv6Paging.Lib.Wp

/-! # Runs

    A system is given by its operations, `exec : Op → EStateM ε σ Out`. A run
    executes a list of operations and collects what they return. `Along` states a
    condition on each operation in the state in which it is executed.

    Two rules reduce statements about runs to statements about one operation:
    `wp_invariant`, for what holds in every state reached, and `wp_simulates`, for
    runs that return what an abstract system returns.
-/

namespace Run

open List Wp

variable {Op Out ε σ A : Type}
  {x : EStateM ε σ Out} {s s' s'' : σ} {Inv P : σ → Prop} {e : ε} {op : Op} {out : Out}
  {outs : List Out} {good : Op → σ → Prop}

/-- Execute a list of operations. -/
def run (exec : Op → EStateM ε σ Out) : List Op → EStateM ε σ (List Out)
  | [] => pure []
  | op :: ops => do
    let out ← exec op
    let outs ← run exec ops
    pure (out :: outs)

/-- Every operation of the run meets the condition `ok` when it is executed. -/
def Along (exec : Op → EStateM ε σ Out) (ok : Op → σ → Prop) : List Op → σ → Prop
  | [], _ => True
  | op :: ops, s => ok op s ∧
      match exec op s with
      | .ok _ s' => Along exec ok ops s'
      | .error _ _ => True

/-- Whether a run meets a decidable condition is found out by running it. -/
instance decidableAlong (exec : Op → EStateM ε σ Out) (ok : Op → σ → Prop)
    [∀ op s, Decidable (ok op s)] : ∀ ops s, Decidable (Along exec ok ops s)
  | [], _ => .isTrue trivial
  | op :: ops, s =>
    have : Decidable (match exec op s with
        | .ok _ s' => Along exec ok ops s'
        | .error _ _ => True) :=
      match exec op s with
      | .ok _ s' => decidableAlong exec ok ops s'
      | .error _ _ => .isTrue trivial
    inferInstanceAs (Decidable (_ ∧ _))

/-- The state in which a computation ends. -/
def final (x : EStateM ε σ Out) (s : σ) : σ :=
  match x s with
  | .ok _ s' => s'
  | .error _ s' => s'

/-- Does a computation return? -/
def returns (x : EStateM ε σ Out) (s : σ) : Bool :=
  match x s with
  | .ok _ _ => true
  | .error _ _ => false

theorem exists_of_returns (h : returns x s = true) :
    ∃ out, x s = .ok out (final x s) := by
  unfold returns at h
  unfold final
  cases hx : x s with
  | ok out s' => exact ⟨out, rfl⟩
  | error e s' => simp [hx] at h

/-- Does a computation return in a state with property `P`? -/
def endsIn (x : EStateM ε σ Out) (s : σ) (P : σ → Bool) : Bool :=
  match x s with
  | .ok _ s' => P s'
  | .error _ _ => false

theorem exists_of_endsIn {P : σ → Bool} (h : endsIn x s P = true) :
    ∃ out s', x s = .ok out s' ∧ P s' = true := by
  unfold endsIn at h
  cases hx : x s with
  | ok out s' =>
    rw [hx] at h
    exact ⟨out, s', rfl, h⟩
  | error e s' => simp [hx] at h

/-- Does a computation return a value with property `P`? -/
def yields (x : EStateM ε σ Out) (s : σ) (P : Out → Bool) : Bool :=
  match x s with
  | .ok out _ => P out
  | .error _ _ => false

theorem exists_of_yields {P : Out → Bool} (h : yields x s P = true) :
    ∃ out s', x s = .ok out s' ∧ P out = true := by
  unfold yields at h
  cases hx : x s with
  | ok out s' =>
    rw [hx] at h
    exact ⟨out, s', rfl, h⟩
  | error e s' => simp [hx] at h

/-- How a computation stops, if it does. -/
def stopOf (x : EStateM ε σ Out) (s : σ) : Option ε :=
  match x s with
  | .ok _ _ => none
  | .error e _ => some e

theorem error_of_stopOf (h : stopOf x s = some e) :
    x s = .error e (final x s) := by
  unfold stopOf at h
  unfold final
  cases hx : x s with
  | ok out s' => simp [hx] at h
  | error e' s' =>
    rw [hx] at h
    cases h
    rfl

/-- What holds when a computation returns, holds in the state in which it ends. -/
theorem final_of_wp (h : wp x (fun _ s' => P s') E s) (hr : returns x s = true) : P (final x s) := by
  obtain ⟨out, hx⟩ := exists_of_returns hr
  exact (wp_of_ok hx).mp h

/-- The same operations on an abstract system. -/
def specRun (step : A → Op → Out × A) : A → List Op → List Out
  | _, [] => []
  | a, op :: ops => (step a op).1 :: specRun step (step a op).2 ops

variable {exec : Op → EStateM ε σ Out} {ok : Op → σ → Prop} {E : ε → σ → Prop} {ops : List Op}

/-- A run, one operation after the other. -/
theorem run_cons (h : exec op s = .ok out s') (ht : run exec ops s' = .ok outs s'') :
    run exec (op :: ops) s = .ok (out :: outs) s'' := by
  unfold run
  rw [bind_ok h, bind_ok ht]
  rfl

theorem run_snoc (h : run exec ops s = .ok outs s') (hop : exec op s' = .ok out s'') :
    run exec (ops ++ [op]) s = .ok (outs ++ [out]) s'' := by
  induction ops generalizing s outs with
  | nil =>
    cases h
    exact run_cons hop rfl
  | cons o ops ih =>
    unfold run at h
    cases ho : exec o s with
    | error e t =>
      rw [bind_error ho] at h
      exact nomatch h
    | ok a t =>
      rw [bind_ok ho] at h
      cases hr : run exec ops t with
      | error e u =>
        rw [bind_error hr] at h
        exact nomatch h
      | ok as u =>
        rw [bind_ok hr] at h
        cases h
        exact run_cons ho (ih hr)

/-- A condition that operations meet in every state. -/
theorem Along.of_forall (h : ∀ op ∈ ops, ∀ s, ok op s) : Along exec ok ops s := by
  induction ops generalizing s with
  | nil => trivial
  | cons op ops ih =>
    refine ⟨h op mem_cons_self s, ?_⟩
    cases exec op s with
    | ok out s' => exact ih fun op' hop' => h op' (mem_cons_of_mem op hop')
    | error e s' => trivial

theorem run_cons_error (h : exec op s = .ok out s') (ht : run exec ops s' = .error e s'') :
    run exec (op :: ops) s = .error e s'' := by
  unfold run
  rw [bind_ok h, bind_error ht]

/-- A condition along a run, one operation after the other. -/
theorem Along.of_final (h : ok op s) (ht : Along exec ok ops (final (exec op) s)) :
    Along exec ok (op :: ops) s := by
  refine ⟨h, ?_⟩
  unfold final at ht
  cases hx : exec op s with
  | ok out s' => simpa [hx] using ht
  | error e s' => trivial

/-- A condition along a run whose first operation returns. -/
theorem along_cons_ok (h : exec op s = .ok out s') :
    Along exec ok (op :: ops) s ↔ ok op s ∧ Along exec ok ops s' := by
  show (_ ∧ match exec op s with
    | .ok _ s' => Along exec ok ops s'
    | .error _ _ => True) ↔ _
  rw [h]

theorem Along.tail (h : Along exec ok (op :: ops) s) (hrun : exec op s = .ok out s') :
    Along exec ok ops s' := by
  have h2 := h.2
  rw [hrun] at h2
  exact h2

/-- The rest of a run, after a first operation that is found to return. -/
theorem Along.tail_final (h : Along exec ok (op :: ops) s) (hr : returns (exec op) s = true) :
    Along exec ok ops (final (exec op) s) := by
  obtain ⟨out, hx⟩ := exists_of_returns hr
  exact h.tail hx

/-- What each operation preserves, holds in every state that runs reach. -/
theorem wp_invariant (hstep : ∀ op s, Inv s → ok op s →
      wp (exec op) (fun _ s' => Inv s') E s) (hs : Inv s) (hok : Along exec ok ops s) :
    wp (run exec ops) (fun _ s' => Inv s') E s := by
  induction ops generalizing s with
  | nil => exact hs
  | cons op ops ih =>
    simp only [run, wp_bind]
    refine wp_post (wp_run (hstep op s hs hok.1)) ?_
    rintro out s' ⟨hrun, hs'⟩
    refine wp_post (ih hs' (hok.tail hrun)) ?_
    intro outs t ht
    exact ht

/-- What an invariant and a condition imply for each operation, holds along runs that
    meet the condition. -/
theorem Along.of_invariant
    (hstep : ∀ op s, Inv s → ok op s → wp (exec op) (fun _ s' => Inv s') anyStop s)
    (hgood : ∀ op s, Inv s → ok op s → good op s) (hs : Inv s) (hok : Along exec ok ops s) :
    Along exec good ops s := by
  induction ops generalizing s with
  | nil => trivial
  | cons op ops ih =>
    refine ⟨hgood op s hs hok.1, ?_⟩
    cases hx : exec op s with
    | ok out s' => exact ih ((wp_of_ok hx).mp (hstep op s hs hok.1)) (hok.tail hx)
    | error e s' => trivial

/-- Two conditions that agree on each operation in states with an invariant, which operations that
    meet them keep, agree along runs. -/
theorem along_iff {good' : Op → σ → Prop}
    (hiff : ∀ op s, Inv s → ok op s → (good op s ↔ good' op s))
    (hkeep : ∀ op s, Inv s → ok op s → good op s → wp (exec op) (fun _ s' => Inv s') anyStop s)
    (hs : Inv s) (hok : Along exec ok ops s) :
    Along exec good ops s ↔ Along exec good' ops s := by
  induction ops generalizing s with
  | nil => exact Iff.rfl
  | cons op ops ih =>
    refine and_congr_right_iff.mpr (fun hgood => ?_) |>.trans (and_congr_left' (hiff op s hs hok.1))
    cases hx : exec op s with
    | ok out s' => exact ih ((wp_of_ok hx).mp (hkeep op s hs hok.1 hgood)) (hok.tail hx)
    | error e s' => exact Iff.rfl

/-- The state in which a run ends, one operation after the other. -/
theorem final_run_cons (h : exec op s = .ok out s') :
    final (run exec (op :: ops)) s = final (run exec ops) s' := by
  unfold final
  cases hr : run exec ops s' with
  | ok outs t => rw [run_cons h hr]
  | error e t => rw [run_cons_error h hr]

/-- Where each operation returns, keeps an invariant, and keeps `P` exactly if it meets the
    condition `good`, `P` holds in every state of a run exactly if all operations meet it. -/
theorem forall_reached_iff (hstep : ∀ op s, Inv s → P s → ok op s →
      wp (exec op) (fun _ s' => Inv s' ∧ (P s' ↔ good op s)) noStop s) (hs : Inv s) (hP : P s)
    (hok : Along exec ok ops s) :
    (∀ pre, pre <+: ops → P (final (run exec pre) s)) ↔ Along exec good ops s := by
  induction ops generalizing s with
  | nil =>
    refine ⟨fun _ => trivial, fun _ pre hpre => ?_⟩
    rw [prefix_nil.mp hpre]
    exact hP
  | cons op ops ih =>
    obtain ⟨out, s', hx, hs', hiff⟩ := wp_noStop_iff.mp (hstep op s hs hP hok.1)
    rw [along_cons_ok hx]
    constructor
    · intro hall
      have hP' : P s' := by
        have := hall [op] (by simp)
        rwa [final_run_cons hx] at this
      refine ⟨hiff.mp hP', (ih hs' hP' (hok.tail hx)).mp fun pre hpre => ?_⟩
      have := hall (op :: pre) (cons_prefix_cons.mpr ⟨rfl, hpre⟩)
      rwa [final_run_cons hx] at this
    · rintro ⟨hgood, hrest⟩ pre hpre
      have hP' : P s' := hiff.mpr hgood
      cases pre with
      | nil => exact hP
      | cons op' pre =>
        obtain ⟨rfl, hpre'⟩ := cons_prefix_cons.mp hpre
        rw [final_run_cons hx]
        exact (ih hs' hP' (hok.tail hx)).mpr hrest pre hpre'

/-- Operations that return what the abstract system returns, and keep the two
    systems related, do so in every run. -/
theorem wp_simulates {R : A → σ → Prop} {step : A → Op → Out × A} {a : A}
    (hstep : ∀ op a s, R a s → ok op s →
      wp (exec op) (fun out s' => out = (step a op).1 ∧ R (step a op).2 s') E s)
    (hs : R a s) (hok : Along exec ok ops s) :
    wp (run exec ops) (fun outs _ => outs = specRun step a ops) E s := by
  induction ops generalizing s a with
  | nil => exact (wp_pure _ _ _ _).mpr rfl
  | cons op ops ih =>
    simp only [run, wp_bind]
    refine wp_post (wp_run (hstep op a s hs hok.1)) ?_
    rintro out s' ⟨hrun, hout, hs'⟩
    refine wp_post (ih hs' (hok.tail hrun)) ?_
    rintro outs t rfl
    rw [wp_pure, hout, specRun]

end Run
