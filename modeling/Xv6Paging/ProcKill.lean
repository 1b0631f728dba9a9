import Xv6Paging.ProcTree

/-! # kill

    `kill` looks for a pid in all slots, also in those that are not in use. Such a slot has
    pid 0, or the pid of a `fork` that failed, and `allocproc` leaves `killed` as it
    finds it: a process that is made in the slot later on starts out killed. A slot given
    back by a `fork` that failed keeps a `killed` that was set meanwhile, too.

    When every `kill` names a slot in use, and no `fork` fails for a child that has been killed,
    free slots are never killed.
-/

namespace Xv6Paging.ProcTable

open List Wp Run Function

/-- Process `p` is not UNUSED and has this pid. -/
def Named (pid : Int) (s : Table) (p : Slot) : Prop := (s.proc p).state ≠ .unused ∧ (s.proc p).pid = pid

instance (pid : Int) (s : Table) (p : Slot) : Decidable (Named pid s p) :=
  inferInstanceAs (Decidable (_ ∧ _))

/-- `kill` returns 0 exactly when some process has the pid, and then sets `killed` in such a
    process, and in no other slot. -/
def KillRight (pid : Int) (s : Table) : Prop :=
  wp (kill pid) (fun r s' => (r = 0 ↔ ∃ p, Named pid s p) ∧
    (r = 0 → ∃ p, Named pid s p ∧ (s'.proc p).killed = true) ∧
    ∀ q, (s'.proc q).killed ≠ (s.proc q).killed → Named pid s q) noStop s

/-- A slot with this pid that is not in use comes after one that is. -/
def Reaches (pid : Int) (s : Table) : Prop :=
  ∀ q, (s.proc q).pid = pid → (s.proc q).state = .unused → ∃ p, p < q ∧ Named pid s p

instance (pid : Int) (s : Table) : Decidable (Reaches pid s) :=
  inferInstanceAs (Decidable (∀ _, _ → _ → ∃ _, _ ∧ _))

/-- `kill` reaches a process, and a slot that `fork` gives back is not killed. -/
def Careful : Turn → Table → Prop
  | .kill pid, s => Reaches pid s
  | .forkGo p false, s => ∀ np, s.pos p = .alloced np ∨ s.pos p = .stacked np → (s.proc np).killed = false
  | _, _ => True

/-- Slots not in use are not killed. -/
def Clean (s : Table) : Prop := ∀ q, (s.proc q).state = .unused → (s.proc q).killed = false

section Steps

variable {s s' : Table} {p q : Slot} {pid : Int}

/-- `find?` stops at the first slot. -/
theorem find_slot_le (h : slots.find? f = some p) (hq : f q = true) : p ≤ q := by
  obtain ⟨-, pre, post, heq, hpre⟩ := find?_eq_some_iff_append.mp h
  have hsorted : slots.Pairwise (· < ·) := pairwise_lt_finRange nproc
  have hmem := mem_slots q
  rw [heq] at hsorted hmem
  rcases mem_append.mp hmem with hin | hin
  · have := hpre q hin
    rw [hq] at this
    exact nomatch this
  · rcases mem_cons.mp hin with rfl | hin
    · exact le_refl q
    · exact le_of_lt ((pairwise_cons.mp (pairwise_append.mp hsorted).2.1).1 q hin)

/-- What `kill` does when there is a slot with the pid. -/
theorem kill_some (h : slots.find? (fun p => (s.proc p).pid = pid) = some p) :
    kill pid s = .ok 0 (s.setProc p { s.proc p with
      killed := true
      state := if (s.proc p).state = .sleeping then .runnable else (s.proc p).state }) := by
  show (kill pid).run s = _
  simp only [kill, EStateM.run_bind, EStateM.run_get]
  rw [h]
  rfl

theorem kill_none (h : slots.find? (fun p => (s.proc p).pid = pid) = none) : kill pid s = .ok (-1) s := by
  show (kill pid).run s = _
  simp only [kill, EStateM.run_bind, EStateM.run_get]
  rw [h]
  rfl

/-- The slot that `kill` finds is that of a process. -/
theorem Reaches.named (h : Reaches pid s) (hf : slots.find? (fun p => (s.proc p).pid = pid) = some p) :
    Named pid s p := by
  have hpid : (s.proc p).pid = pid := by
    simpa using find?_some hf
  refine ⟨fun hu => ?_, hpid⟩
  obtain ⟨r, hlt, hr⟩ := h p hpid hu
  have hle : p ≤ r := find_slot_le hf (by simpa using hr.2)
  exact absurd hle (not_le_of_gt hlt)

/-- While free slots are not killed, `kill` does what it should exactly when it reaches a process. -/
theorem killRight_iff (hclean : Clean s) : KillRight pid s ↔ Reaches pid s := by
  cases hf : slots.find? fun p => (s.proc p).pid = pid with
  | none =>
    have hno : ∀ q, (s.proc q).pid ≠ pid := by
      intro q
      simpa using find?_eq_none.mp hf q (mem_slots q)
    constructor
    · intro _ q hq
      exact absurd hq (hno q)
    · intro _
      unfold KillRight
      rw [wp_of_ok (kill_none hf)]
      refine ⟨⟨nofun, ?_⟩, nofun, fun q hq => absurd rfl hq⟩
      rintro ⟨p, hp⟩
      exact absurd hp.2 (hno p)
  | some p =>
    have hpid : (s.proc p).pid = pid := by
      simpa using find?_some hf
    have hfirst : ∀ q, (s.proc q).pid = pid → p ≤ q := by
      intro q hq
      exact find_slot_le hf (by simpa using hq)
    unfold KillRight
    rw [wp_of_ok (kill_some hf)]
    constructor
    · rintro ⟨-, -, honly⟩
      -- the first slot with the pid gets killed, so it is in use
      have hp : Named pid s p := by
        by_cases hu : (s.proc p).state = .unused
        · refine honly p ?_
          rw [Table.setProc_proc, update_self, hclean p hu]
          nofun
        · exact ⟨hu, hpid⟩
      intro q hq hu
      have hne : p ≠ q := by
        rintro rfl
        exact hp.1 hu
      exact ⟨p, lt_of_le_of_ne (hfirst q hq) hne, hp⟩
    · intro hreach
      have hp := hreach.named hf
      refine ⟨⟨fun _ => ⟨p, hp⟩, fun _ => rfl⟩, fun _ => ⟨p, hp, ?_⟩, ?_⟩
      · rw [Table.setProc_proc, update_self]
      · intro q hq
        by_cases hqp : q = p
        · rw [hqp]
          exact hp
        · rw [Table.setProc_proc, update_of_ne hqp] at hq
          exact absurd rfl hq

/-- How a step changes `killed`: a slot is killed by a `kill` of the process in it only, and a new
    child is not killed. -/
structure Spares (t : Turn) (s s' : Table) : Prop where
  clean : Clean s'
  child : ∀ q, (s.proc q).state = .unused → (s'.proc q).state = .embryo → (s'.proc q).killed = false
  only : ∀ q, (s'.proc q).killed = true → (s.proc q).killed = true ∨ ∃ pid, t = .kill pid ∧ Named pid s q

variable {t : Turn}

section Steps

variable (hclean : Clean s)

include hclean

/-- A step that leaves `killed` alone, and frees no slot that is killed. -/
theorem Spares.of_same (hkilled : ∀ q, (s'.proc q).killed = (s.proc q).killed)
    (hfree : ∀ q, (s'.proc q).state = .unused → (s.proc q).state = .unused ∨ (s.proc q).killed = false) :
    Spares t s s' := by
  refine ⟨?_, ?_, ?_⟩
  · intro q hq
    rw [hkilled]
    exact (hfree q hq).elim (hclean q) id
  · intro q hq _
    rw [hkilled]
    exact hclean q hq
  · intro q hq
    rw [hkilled] at hq
    exact .inl hq

/-- The same for a step that changes one slot. -/
theorem Spares.setProc {nextpid : Int} {pos : Slot → Pos}
    (hkilled : x.killed = (s.proc p).killed) (hfree : x.state = .unused → (s.proc p).killed = false) :
    Spares t s ⟨update s.proc p x, nextpid, pos⟩ := by
  refine .of_same hclean ?_ ?_
  · intro q
    show (update s.proc p x q).killed = _
    by_cases hq : q = p
    · rw [hq, update_self, hkilled]
    · rw [update_of_ne hq]
  · intro q hu
    change (update s.proc p x q).state = _ at hu
    by_cases hq : q = p
    · rw [hq, update_self] at hu
      rw [hq]
      exact .inr (hfree hu)
    · rw [update_of_ne hq] at hu
      exact .inl hu

theorem Spares.refl : Spares t s s := .of_same hclean (fun _ => rfl) fun _ hq => .inl hq

theorem Spares.wakeup1 (chan : Option Chan) : Spares t s (s.wakeup1 chan) := by
  have hwoken := Woken.wakeup1 s chan
  refine .of_same hclean hwoken.killed ?_
  intro q hq
  rcases hwoken.state q with he | ⟨-, hr⟩
  · exact .inl (he ▸ hq)
  · rw [hr] at hq
    exact nomatch hq

theorem Clean.wp_fork (a : Pos) : wp (fork p a) (fun _ s' => Spares t s s') noStop s := by
  cases a with
  | user =>
    simp only [fork, allocproc, wp_bind, wp_get]
    cases hf : slots.find? fun p => (s.proc p).state = .unused with
    | none => exact .refl hclean
    | some np => exact .setProc hclean rfl (by rintro ⟨⟩)
  | _ => exact .refl hclean

theorem Clean.wp_forkGo (ok : Bool) (a : Pos)
    (hok : ok = false → ∀ np, a = .alloced np ∨ a = .stacked np → (s.proc np).killed = false) :
    wp (forkGo p ok a) (fun _ s' => Spares t s s') noStop s := by
  cases a with
  | user => exact .refl hclean
  | waiting => exact .refl hclean
  | alloced np =>
    cases ok with
    | true => exact .of_same hclean (fun _ => rfl) fun _ hq => .inl hq
    | false => exact .setProc hclean rfl fun _ => hok rfl np (.inl rfl)
  | stacked np =>
    cases ok with
    | true =>
      refine .setProc hclean rfl ?_
      exact hclean np
    | false => exact .setProc hclean rfl fun _ => hok rfl np (.inr rfl)
  | copied np => exact .setProc hclean rfl nofun

theorem Clean.wp_exit (hp : (s.proc p).state = .running) (a : Pos) :
    wp (exit p a) (fun _ s' => Spares t s s') anyStop s := by
  cases a with
  | user =>
    simp only [exit, wp_ite]
    refine ⟨fun _ => trivial, fun _ => ?_⟩
    have hex := exited p s ((s.proc p).parent.map .proc)
    exact .of_same hclean hex.killed fun q hq => .inl ((hex.unused_iff hp q).mp hq)
  | _ => exact .refl hclean

theorem Clean.wp_waitScan : wp (waitScan p) (fun _ s' => Spares t s s') noStop s := by
  simp only [waitScan, wp_bind, wp_get]
  cases hf : slots.find? fun q => (s.proc q).parent = some p ∧ (s.proc q).state = .zombie with
  | some q =>
    -- the one step that clears `killed`
    refine ⟨?_, ?_, ?_⟩
    all_goals
      intro r hr
      by_cases hrq : r = q
    · simp [hrq]
    · simp only [Table.goto_proc, Table.setProc_proc, update_of_ne hrq] at hr ⊢
      exact hclean r hr
    · intro _
      simp [hrq]
    · intro _
      simp only [Table.goto_proc, Table.setProc_proc, update_of_ne hrq]
      exact hclean r hr
    · simp [hrq] at hr
    · simp only [Table.goto_proc, Table.setProc_proc, update_of_ne hrq] at hr
      exact .inl hr
  | none =>
    rw [wp_ite]
    exact ⟨fun _ => .of_same hclean (fun _ => rfl) fun _ hq => .inl hq, fun _ => .setProc hclean rfl (by rintro ⟨⟩)⟩

theorem Clean.wp_kill (hreach : Reaches pid s) : wp (kill pid) (fun _ s' => Spares (.kill pid) s s') noStop s := by
  cases hf : slots.find? fun p => (s.proc p).pid = pid with
  | none =>
    rw [wp_of_ok (kill_none hf)]
    exact .refl hclean
  | some p =>
    rw [wp_of_ok (kill_some hf)]
    have hp := hreach.named hf
    refine ⟨?_, ?_, ?_⟩
    all_goals
      intro q hq
      by_cases hqp : q = p
    · rw [hqp, Table.setProc_proc, update_self] at hq
      simp only at hq
      split at hq
      next => exact nomatch hq
      next => exact absurd hq hp.1
    · rw [Table.setProc_proc, update_of_ne hqp] at hq ⊢
      exact hclean q hq
    · rw [hqp] at hq
      exact absurd hq hp.1
    · intro _
      rw [Table.setProc_proc, update_of_ne hqp]
      exact hclean q hq
    · rw [hqp]
      exact .inr ⟨pid, rfl, hp⟩
    · rw [Table.setProc_proc, update_of_ne hqp] at hq
      exact .inl hq

/-- What one step does to `killed`. -/
theorem Clean.wp_turn (t : Turn) (hok : Careful t s) : wp t.exec (fun _ s' => Spares t s s') anyStop s := by
  have hstay : Spares t s s := .refl hclean
  cases t with
  | schedule p =>
    simp only [Turn.exec, wp_bind, wp_get]
    by_cases hp : (s.proc p).state = .runnable
    · rw [if_pos hp]
      exact .setProc hclean rfl (by rintro ⟨⟩)
    · rw [if_neg hp]
      exact hstay
  | yield p =>
    rw [Turn.exec]
    exact wp_asRunning hstay fun _ => .setProc hclean rfl (by rintro ⟨⟩)
  | sleep p chan =>
    rw [Turn.exec]
    exact wp_asRunning hstay fun _ => .setProc hclean rfl (by rintro ⟨⟩)
  | wakeup chan => exact .wakeup1 hclean chan
  | fork p =>
    refine wp_asRunning hstay fun _ => ?_
    exact wp_mono (hclean.wp_fork _) (fun _ _ h => h) fun _ _ he => he.elim
  | forkGo p ok =>
    refine wp_asRunning hstay fun _ => ?_
    refine wp_mono (hclean.wp_forkGo ok _ ?_) (fun _ _ h => h) fun _ _ he => he.elim
    rintro rfl
    exact hok
  | exit p =>
    refine wp_asRunning hstay fun hp => ?_
    exact hclean.wp_exit hp _
  | wait p =>
    refine wp_asRunning hstay fun _ => ?_
    cases s.pos p with
    | user => exact wp_mono hclean.wp_waitScan (fun _ _ h => h) fun _ _ he => he.elim
    | waiting => exact wp_mono hclean.wp_waitScan (fun _ _ h => h) fun _ _ he => he.elim
    | alloced np => exact hstay
    | stacked np => exact hstay
    | copied np => exact hstay
  | kill pid =>
    simp only [Turn.exec, wp_bind, wp_pure]
    exact wp_mono (hclean.wp_kill hok) (fun _ _ h => h) fun _ _ he => he.elim

end Steps

end Steps

/-- A step that makes a child makes one that is not killed, `killed` is set by a `kill` of the process
    only, and `kill` does what it should. -/
def KillsNamed (t : Turn) (s : Table) : Prop :=
  wp t.exec (fun _ s' =>
    (∀ q, (s.proc q).state = .unused → (s'.proc q).state = .embryo → (s'.proc q).killed = false) ∧
    ∀ q, (s'.proc q).killed = true → (s.proc q).killed = true ∨ ∃ pid, t = .kill pid ∧ Named pid s q) anyStop s ∧
  ∀ pid, t = .kill pid → KillRight pid s

theorem Clean.along {turns : List Turn} (hclean : Clean s) (hok : Along Turn.exec Careful turns s) :
    Along Turn.exec KillsNamed turns s := by
  induction turns generalizing s with
  | nil => trivial
  | cons t turns ih =>
    have hstep := hclean.wp_turn t hok.1
    refine ⟨⟨wp_post hstep fun _ _ h => ⟨h.child, h.only⟩, ?_⟩, ?_⟩
    · rintro pid rfl
      exact (killRight_iff hclean).mpr hok.1
    · cases hx : t.exec s with
      | error e s' => trivial
      | ok out s' =>
        rw [wp_of_ok hx] at hstep
        exact ih hstep.clean (hok.tail hx)

theorem userinit_clean : Clean userinit := by
  intro q _
  rcases userinit_proc q with ⟨-, he⟩ | ⟨-, he⟩ <;> rw [he]

/-- In runs in which every `kill` reaches a process and `fork` gives back no slot that is killed, `kill`
    reaches the process it names and no other slot, and children start out not killed. In the states
    that such runs lead to, a `kill` does what it should exactly when it reaches a process. -/
theorem kill_reaches_named (turns : List Turn) (hok : Along Turn.exec Careful turns userinit) :
    Along Turn.exec KillsNamed turns userinit ∧
      wp (run Turn.exec turns) (fun _ s => ∀ pid, KillRight pid s ↔ Reaches pid s) anyStop userinit := by
  refine ⟨userinit_clean.along hok, ?_⟩
  have hinv : wp (run Turn.exec turns) (fun _ s => Clean s) anyStop userinit := by
    refine wp_invariant ?_ userinit_clean hok
    intro t s hclean ht
    exact wp_post (hclean.wp_turn t ht) fun _ _ h => h.clean
  exact wp_post hinv fun _ _ hclean _ => killRight_iff hclean

instance (t : Turn) (s : Table) : Decidable (Careful t s) :=
  match t with
  | .kill pid => inferInstanceAs (Decidable (Reaches pid s))
  | .forkGo _ false => inferInstanceAs (Decidable (∀ _, _ ∨ _ → _))
  | .forkGo _ true => .isTrue trivial
  | .schedule _ => .isTrue trivial
  | .yield _ => .isTrue trivial
  | .sleep _ _ => .isTrue trivial
  | .wakeup _ => .isTrue trivial
  | .fork _ => .isTrue trivial
  | .exit _ => .isTrue trivial
  | .wait _ => .isTrue trivial

/-- `init` forks, kills its child, which exits, and waits for it. -/
@[irreducible]
def killTurns : List Turn :=
  [.schedule 0, .fork 0, .forkGo 0 true, .forkGo 0 true, .forkGo 0 true, .kill 2, .schedule 1, .exit 1, .wait 0,
    .kill 2, .fork 0, .forkGo 0 false]

theorem kill_reaches_named_killTurns : ∃ outs s, run Turn.exec killTurns userinit = .ok outs s ∧
    Out.kill 2 0 ∈ outs ∧ Out.kill 2 (-1) ∈ outs ∧ Along Turn.exec KillsNamed killTurns userinit ∧
    ∀ pid, KillRight pid s ↔ Reaches pid s := by
  have houts : yields (run Turn.exec killTurns) userinit
      (fun outs => Out.kill 2 0 ∈ outs ∧ Out.kill 2 (-1) ∈ outs) = true := by
    decide +kernel
  obtain ⟨outs, s, hrun, hmem⟩ := exists_of_yields houts
  rw [decide_eq_true_eq] at hmem
  obtain ⟨halong, hiff⟩ := kill_reaches_named killTurns (by decide +kernel)
  rw [wp_of_ok hrun] at hiff
  exact ⟨outs, s, hrun, hmem.1, hmem.2, halong, hiff⟩

/-- `kill(0)`, and a `fork`. -/
@[irreducible]
def killZeroTurns : List Turn :=
  [.schedule 0, .kill 0, .fork 0, .forkGo 0 true, .forkGo 0 true, .forkGo 0 true]

/-- No process has pid 0, but `kill(0)` returns 0, and the next child starts out killed. -/
theorem kill_zero_kills_next_child : (∀ p, ¬ Named 0 userinit p) ∧
    ∃ outs s, run Turn.exec killZeroTurns userinit = .ok outs s ∧ Out.kill 0 0 ∈ outs ∧ Out.fork 0 2 ∈ outs ∧
      (s.proc 1).pid = 2 ∧ (s.proc 1).state = .runnable ∧ (s.proc 1).killed = true := by
  refine ⟨by decide +kernel, ?_⟩
  have houts : yields (run Turn.exec killZeroTurns) userinit
      (fun outs => Out.kill 0 0 ∈ outs ∧ Out.fork 0 2 ∈ outs) = true := by
    decide +kernel
  have hend : endsIn (run Turn.exec killZeroTurns) userinit
      (fun s => (s.proc 1).pid = 2 ∧ (s.proc 1).state = .runnable ∧ (s.proc 1).killed = true) = true := by
    decide +kernel
  obtain ⟨outs, s, hrun, hmem⟩ := exists_of_yields houts
  obtain ⟨outs', s', hrun', hchild⟩ := exists_of_endsIn hend
  rw [hrun] at hrun'
  cases hrun'
  rw [decide_eq_true_eq] at hmem hchild
  exact ⟨outs, s, hrun, hmem.1, hmem.2, hchild⟩

end Xv6Paging.ProcTable
