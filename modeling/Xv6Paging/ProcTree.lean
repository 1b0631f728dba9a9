import Xv6Paging.ProcTable

/-! # The process tree

    What holds of the process table in every state that the kernel reaches: processes have
    different pids, and the parent of a process is alive. A parent that exits passes its
    children to `initproc` in the same step, and a slot that is given back has never had a
    child, so no process is left with a parent whose slot is reused.
-/

namespace Xv6Paging.ProcTable

open List Wp Run Function

variable {a : ProcState} {out : Out} {x : Proc} {k' : Nat} {t : Table} {pid : Int}
  {turns : List Turn}

/-- The state of a process that has started and has not exited. -/
def ProcState.live : ProcState → Bool
  | .sleeping => true
  | .runnable => true
  | .running => true
  | _ => false

/-- The changes of state that a step may make. -/
inductive Change : ProcState → ProcState → Prop
  | stay (a : ProcState) : Change a a
  | alloc : Change .unused .embryo
  | start : Change .embryo .runnable
  | giveBack : Change .embryo .unused
  | schedule : Change .runnable .running
  | yield : Change .running .runnable
  | sleep : Change .running .sleeping
  | wake : Change .sleeping .runnable
  | exit : Change .running .zombie
  | reap : Change .zombie .unused

/-- The table after `k` pids were handed out by `fork`. -/
structure Inv (k : Nat) (s : Table) : Prop where
  nextpid : s.nextpid = wrap (k + 2)
  pid : ∀ p, (s.proc p).state ≠ .unused → 1 ≤ (s.proc p).pid ∧ (s.proc p).pid ≤ k + 1
  distinct : ∀ p q, (s.proc p).state ≠ .unused → (s.proc q).state ≠ .unused → (s.proc p).pid = (s.proc q).pid → p = q
  init : (s.proc initproc).state.live = true
  unused : ∀ p, (s.proc p).state = .unused → (s.proc p).parent = none
  parent : ∀ p q, (s.proc p).parent = some q → (s.proc q).state.live = true
  child : ∀ p, p ≠ initproc → (s.proc p).state ≠ .unused → (s.proc p).state ≠ .embryo → (s.proc p).parent ≠ none
  pos : ∀ p, s.pos p ≠ .user → (s.proc p).state.live = true
  embryo : ∀ p np, (s.pos p).child = some np → (s.proc np).state = .embryo
  owner : ∀ p np, (s.pos p).child = some np → (s.proc np).parent = if s.pos p = .copied np then some p else none
  lone : ∀ p q np, (s.pos p).child = some np → (s.pos q).child = some np → p = q

/-- What a step does, apart from keeping the tree. -/
structure Effect (k : Nat) (s : Table) (out : Out) (k' : Nat) (s' : Table) : Prop where
  change : ∀ q, Change (s.proc q).state (s'.proc q).state
  /-- Pids stay, or are new. -/
  pid : ∀ q, (s'.proc q).state ≠ .unused →
    (s.proc q).state ≠ .unused ∧ (s'.proc q).pid = (s.proc q).pid ∨
      (s'.proc q).state = .embryo ∧ (s'.proc q).pid = k + 2 ∧ k' = k + 1
  zombie : ∀ q, (s'.proc q).state = .zombie → (s.proc q).state = .zombie ∨ out = .exit q (s.proc q).pid
  wait : ∀ p pid, out = .wait p pid → pid ≠ -1 → ∃ q, (s.proc q).state = .zombie ∧ (s.proc q).pid = pid ∧
    (s.proc q).parent = some p ∧ (s'.proc q).state = .unused

/-- What `wakeup1` does to a process. -/
theorem wake_cases (chan : Option Chan) (x : Proc) :
    (x.wake chan).pid = x.pid ∧ (x.wake chan).parent = x.parent ∧ (x.wake chan).killed = x.killed ∧
      ((x.wake chan).state = x.state ∨ x.state = .sleeping ∧ (x.wake chan).state = .runnable) := by
  unfold Proc.wake
  split
  next h => exact ⟨rfl, rfl, rfl, .inr ⟨h.1, rfl⟩⟩
  next => exact ⟨rfl, rfl, rfl, .inl rfl⟩

/-- What holds where a function changes and where it stays. -/
theorem forall_update {A : Type} {f f' : Slot → A} {p : Slot} {b : A} (hf : f' = update f p b)
    (P : Slot → A → Prop) (hp : P p b) (hother : ∀ q, q ≠ p → P q (f q)) (q : Slot) : P q (f' q) := by
  rw [hf]
  exact (forall_update_iff f P).mpr ⟨hp, hother⟩ q

section Steps

variable {k : Nat} {s s' : Table} {p q np : Slot}

/-- A step that moves processes between the states of live processes only. -/
structure Moved (s s' : Table) : Prop where
  nextpid : s'.nextpid = s.nextpid
  pid : ∀ q, (s'.proc q).pid = (s.proc q).pid
  parent : ∀ q, (s'.proc q).parent = (s.proc q).parent
  state : ∀ q, (s'.proc q).state = (s.proc q).state ∨ (s.proc q).state.live = true ∧ (s'.proc q).state.live = true
  change : ∀ q, Change (s.proc q).state (s'.proc q).state
  pos : ∀ q, s'.pos q = s.pos q ∨
    (s.pos q).child = none ∧ (s'.pos q).child = none ∧ (s.proc q).state.live = true

theorem Moved.live (h : Moved s s') (q : Slot) : (s'.proc q).state.live = (s.proc q).state.live := by
  rcases h.state q with he | ⟨hl, hl'⟩
  · rw [he]
  · rw [hl, hl']

theorem Moved.state_iff (h : Moved s s') (ha : a.live = false) (q : Slot) :
    (s'.proc q).state = a ↔ (s.proc q).state = a := by
  rcases h.state q with he | ⟨hl, hl'⟩
  · rw [he]
  · constructor
    · intro he
      rw [he, ha] at hl'
      exact nomatch hl'
    · intro he
      rw [he, ha] at hl
      exact nomatch hl

theorem Moved.child (h : Moved s s') (q : Slot) : (s'.pos q).child = (s.pos q).child := by
  rcases h.pos q with he | ⟨hn, hn', -⟩
  · rw [he]
  · rw [hn, hn']

/-- Such a step keeps the tree: pids, parents and children in `fork` are as before. -/
theorem Moved.inv (h : Moved s s') (hi : Inv k s) : Inv k s' := by
  have hunused := fun q => (h.state_iff (a := .unused) rfl q).not
  have hembryo := fun q => h.state_iff (a := .embryo) rfl q
  constructor
  · rw [h.nextpid, hi.nextpid]
  · intro q hq
    rw [h.pid]
    exact hi.pid q ((hunused q).mp hq)
  · intro q r hq hr he
    rw [h.pid, h.pid] at he
    exact hi.distinct q r ((hunused q).mp hq) ((hunused r).mp hr) he
  · rw [h.live]
    exact hi.init
  · intro q hq
    rw [h.parent]
    exact hi.unused q ((h.state_iff rfl q).mp hq)
  · intro q r hq
    rw [h.parent] at hq
    rw [h.live]
    exact hi.parent q r hq
  · intro q hq hu he
    rw [h.parent]
    exact hi.child q hq ((hunused q).mp hu) ((hembryo q).not.mp he)
  · intro q hq
    rw [h.live]
    rcases h.pos q with he | ⟨-, -, hl⟩
    · exact hi.pos q (he ▸ hq)
    · exact hl
  · intro q r hq
    rw [h.child] at hq
    exact (hembryo r).mpr (hi.embryo q r hq)
  · intro q r hq
    rw [h.parent]
    rcases h.pos q with he | ⟨-, hn, -⟩
    · rw [he] at hq ⊢
      exact hi.owner q r hq
    · rw [hn] at hq
      exact nomatch hq
  · intro q r np hq hr
    rw [h.child] at hq hr
    exact hi.lone q r np hq hr

/-- The effects of such a step: nobody is reaped. -/
theorem Moved.effect (h : Moved s s') (hw : ∀ p pid, out = .wait p pid → pid = -1) :
    Effect k s out k s' := by
  constructor
  · exact h.change
  · intro q hq
    exact .inl ⟨(h.state_iff rfl q).not.mp hq, h.pid q⟩
  · intro q hq
    exact .inl ((h.state_iff rfl q).mp hq)
  · intro p pid ho hpid
    exact absurd (hw p pid ho) hpid

/-- One process is moved. -/
theorem Moved.setProc (hpid : x.pid = (s.proc p).pid) (hparent : x.parent = (s.proc p).parent)
    (hstate : x.state = (s.proc p).state ∨ (s.proc p).state.live = true ∧ x.state.live = true)
    (hchange : Change (s.proc p).state x.state) : Moved s (s.setProc p x) := by
  have hproc := Table.setProc_proc s p x
  refine ⟨rfl, ?_, ?_, ?_, ?_, fun _ => .inl rfl⟩
  · exact forall_update hproc (fun q y => y.pid = (s.proc q).pid) hpid fun _ _ => rfl
  · exact forall_update hproc (fun q y => y.parent = (s.proc q).parent) hparent fun _ _ => rfl
  · exact forall_update hproc (fun q y => y.state = (s.proc q).state ∨
      (s.proc q).state.live = true ∧ y.state.live = true) hstate fun _ _ => .inl rfl
  · exact forall_update hproc (fun q y => Change (s.proc q).state y.state) hchange fun _ _ => .stay _

/-- A live process changes its state, and stays alive. -/
theorem Moved.setState (hp : (s.proc p).state = a) (hchange : Change a x.state) (ha : a.live = true)
    (hx : x.state.live = true) (hpid : x.pid = (s.proc p).pid) (hparent : x.parent = (s.proc p).parent) :
    Moved s (s.setProc p x) :=
  .setProc hpid hparent (.inr ⟨by rw [hp, ha], hx⟩) (by rw [hp]; exact hchange)

/-- A live process goes to a place outside of `fork`. -/
theorem Moved.goto (h : Moved s s') (a : Pos) (hp : (s.pos p).child = none) (ha : a.child = none)
    (hl : (s.proc p).state.live = true) : Moved s (s'.goto p a) := by
  refine ⟨h.nextpid, h.pid, h.parent, h.state, h.change, ?_⟩
  intro q
  by_cases hq : q = p
  · rw [hq, Table.goto_pos, update_self]
    exact .inr ⟨hp, ha, hl⟩
  · rw [Table.goto_pos, update_of_ne hq]
    exact h.pos q

theorem Moved.refl (s : Table) : Moved s s :=
  ⟨rfl, fun _ => rfl, fun _ => rfl, fun _ => .inl rfl, fun _ => .stay _, fun _ => .inl rfl⟩

/-- `wakeup1` moves sleeping processes. -/
theorem Moved.wakeup1 (s : Table) (chan : Option Chan) : Moved s (s.wakeup1 chan) := by
  constructor
  · rfl
  all_goals intro q
  · exact (wake_cases chan (s.proc q)).1
  · exact (wake_cases chan (s.proc q)).2.1
  · rcases (wake_cases chan (s.proc q)).2.2.2 with he | ⟨hs, hr⟩
    · exact .inl he
    · rw [Table.wakeup1_proc]
      exact .inr ⟨by rw [hs]; rfl, by rw [hr]; rfl⟩
  · rw [Table.wakeup1_proc]
    rcases (wake_cases chan (s.proc q)).2.2.2 with he | ⟨hs, hr⟩
    · rw [he]
      exact .stay _
    · rw [hs, hr]
      exact .wake
  · exact .inl rfl

/-! ## A slot that no live process has -/

/-- A live process `p` changes a slot `np` that holds no live process, and goes to the place `a`: it
    takes, fills or gives back the slot of a child. -/
theorem Inv.set {a : Pos} (h : Inv k s) (hk : k ≤ k')
    (hproc : s'.proc = update s.proc np x) (hpos : s'.pos = update s.pos p a)
    (hnext : s'.nextpid = wrap (k' + 2)) (hdead : (s.proc np).state.live = false)
    (hp : (s.proc p).state.live = true) (hpid : x.state ≠ .unused → 1 ≤ x.pid ∧ x.pid ≤ k' + 1 ∧
      ∀ q, q ≠ np → (s.proc q).state ≠ .unused → (s.proc q).pid ≠ x.pid)
    (hunused : x.state = .unused → x.parent = none)
    (hparent : ∀ q, x.parent = some q → (s.proc q).state.live = true)
    (hchild : x.state ≠ .unused → x.state ≠ .embryo → x.parent ≠ none)
    (halone : ∀ q, q ≠ p → (s.pos q).child ≠ some np)
    (hnew : ∀ r, a.child = some r → r = np ∧ x.state = .embryo ∧
      x.parent = if a = .copied np then some p else none) : Inv k' s' := by
  have hself : s'.proc np = x := by
    rw [hproc, update_self]
  have hother : ∀ q, q ≠ np → s'.proc q = s.proc q := by
    intro q hq
    rw [hproc, update_of_ne hq]
  have hlive : ∀ q, (s.proc q).state.live = true → (s'.proc q).state.live = true := by
    intro q hq
    have hne : q ≠ np := by
      rintro rfl
      simp [hdead] at hq
    rwa [hother q hne]
  -- the children of the others in `fork` are as they were
  have hfar : ∀ q, q ≠ p → ∀ r, (s.pos q).child = some r → s'.proc r = s.proc r := by
    intro q hq r hr
    exact hother r fun he => halone q hq (he ▸ hr)
  refine ⟨hnext, ?_, ?_, hlive _ h.init, ?_, ?_, ?_, ?_, ?_, ?_, ?_⟩
  · refine forall_update hproc (fun _ y => y.state ≠ .unused → 1 ≤ y.pid ∧ y.pid ≤ k' + 1)
      (fun hx => ⟨(hpid hx).1, (hpid hx).2.1⟩) fun q _ hq => ?_
    have := h.pid q hq
    omega
  · refine forall_update hproc (fun q y => ∀ r, y.state ≠ .unused → (s'.proc r).state ≠ .unused →
      y.pid = (s'.proc r).pid → q = r) ?_ fun q hq => ?_
    · exact forall_update hproc (fun r y => x.state ≠ .unused → y.state ≠ .unused → x.pid = y.pid → np = r)
        (fun _ _ _ => rfl) fun r hr hx hu he => absurd he.symm ((hpid hx).2.2 r hr hu)
    · exact forall_update hproc (fun r y => (s.proc q).state ≠ .unused → y.state ≠ .unused →
        (s.proc q).pid = y.pid → q = r) (fun hu hx he => absurd he ((hpid hx).2.2 q hq hu)) fun r _ =>
        h.distinct q r
  · exact forall_update hproc (fun _ y => y.state = .unused → y.parent = none) hunused fun q _ => h.unused q
  · exact forall_update hproc (fun _ y => ∀ r, y.parent = some r → (s'.proc r).state.live = true)
      (fun r hr => hlive r (hparent r hr)) fun q _ r hr => hlive r (h.parent q r hr)
  · exact forall_update hproc (fun q y => q ≠ initproc → y.state ≠ .unused → y.state ≠ .embryo → y.parent ≠ none)
      (fun _ => hchild) fun q _ => h.child q
  · exact forall_update hpos (fun q b => b ≠ .user → (s'.proc q).state.live = true) (fun _ => hlive p hp)
      fun q _ hq => hlive q (h.pos q hq)
  · refine forall_update hpos (fun _ b => ∀ r, b.child = some r → (s'.proc r).state = .embryo) ?_ fun q hq r hr => ?_
    · intro r hr
      obtain ⟨rfl, hx, -⟩ := hnew r hr
      rwa [hself]
    · rw [hfar q hq r hr]
      exact h.embryo q r hr
  · refine forall_update hpos (fun q b => ∀ r, b.child = some r →
      (s'.proc r).parent = if b = .copied r then some q else none) ?_ fun q hq r hr => ?_
    · intro r hr
      obtain ⟨rfl, -, hx⟩ := hnew r hr
      rwa [hself]
    · rw [hfar q hq r hr]
      exact h.owner q r hr
  · refine forall_update hpos (fun q b => ∀ q' r, b.child = some r → (s'.pos q').child = some r → q = q') ?_
      fun q hq => ?_
    · exact forall_update hpos (fun q' b => ∀ r, a.child = some r → b.child = some r → p = q') (fun _ _ _ => rfl)
        fun q' hq' r hr hr' => absurd ((hnew r hr).1 ▸ hr') (halone q' hq')
    · exact forall_update hpos (fun q' b => ∀ r, (s.pos q).child = some r → b.child = some r → q = q')
        (fun r hr hr' => absurd ((hnew r hr').1 ▸ hr) (halone q hq)) fun q' _ => h.lone q q'

/-- One slot changes. -/
theorem Effect.set (hproc : s'.proc = update s.proc np x)
    (hchange : Change (s.proc np).state x.state) (hz : x.state ≠ .zombie)
    (hpid : x.state ≠ .unused →
      (s.proc np).state ≠ .unused ∧ x.pid = (s.proc np).pid ∨ x.state = .embryo ∧ x.pid = k + 2 ∧ k' = k + 1)
    (hwait : ∀ p pid, out = .wait p pid → pid ≠ -1 → (s.proc np).state = .zombie ∧ (s.proc np).pid = pid ∧
      (s.proc np).parent = some p ∧ x.state = .unused) : Effect k s out k' s' := by
  refine ⟨?_, ?_, ?_, fun p pid ho hne => ?_⟩
  · exact forall_update hproc (fun q y => Change (s.proc q).state y.state) hchange fun _ _ => .stay _
  · exact forall_update hproc (fun q y => y.state ≠ .unused → (s.proc q).state ≠ .unused ∧ y.pid = (s.proc q).pid ∨
      y.state = .embryo ∧ y.pid = k + 2 ∧ k' = k + 1) hpid fun q _ hu => .inl ⟨hu, rfl⟩
  · exact forall_update hproc (fun q y => y.state = .zombie → (s.proc q).state = .zombie ∨
      out = .exit q (s.proc q).pid) (fun hx => absurd hx hz) fun q _ hq => .inl hq
  · obtain ⟨hzn, hpidn, hparent, hx⟩ := hwait p pid ho hne
    exact ⟨np, hzn, hpidn, hparent, by rwa [hproc, update_self]⟩

/-! ## fork -/

theorem wrap_of_lt {x : Int} (h : x < 2 ^ 31) : wrap x = x := if_pos h

/-- A step keeps the tree and has the effects that steps have. -/
def Good (k : Nat) (s : Table) (k' : Nat) (out : Out) (s' : Table) : Prop := Inv k' s' ∧ Effect k s out k' s'

theorem Good.of_moved (hi : Inv k s) (h : Moved s s') (hw : ∀ p pid, out = .wait p pid → pid = -1) :
    Good k s k out s' := ⟨h.inv hi, h.effect hw⟩

theorem find_unused (h : slots.find? (fun p => (s.proc p).state = .unused) = some np) :
    (s.proc np).state = .unused := by
  simpa using find?_some h

section Calls

variable (h : Inv k s) (hp : (s.proc p).state = .running)

include h hp

/-- `fork` takes a slot and the next pid, which nobody has: fewer than 2^31 were handed out. -/
theorem Inv.wp_fork (hk : k + 2 < 2 ^ 31) :
    wp (fork p (s.pos p)) (fun out s' => ∃ k', k ≤ k' ∧ k' ≤ k + 1 ∧ Good k s k' out s') noStop s := by
  have hstay : ∃ k', k ≤ k' ∧ k' ≤ k + 1 ∧ Good k s k' .none s :=
    ⟨k, le_rfl, Nat.le_succ k, .of_moved h (.refl s) (by rintro _ _ ⟨⟩)⟩
  cases hpos : s.pos p with
  | user =>
    simp only [fork, allocproc, wp_bind, wp_get]
    cases hf : slots.find? fun p => (s.proc p).state = .unused with
    | none =>
      exact ⟨k, le_rfl, Nat.le_succ k, .of_moved h (.refl s) (by rintro _ _ ⟨⟩)⟩
    | some np =>
      have hnp := find_unused hf
      have hnext : s.nextpid = k + 2 := by
        rw [h.nextpid, wrap_of_lt (by omega)]
      refine ⟨k + 1, Nat.le_succ k, le_rfl, ?_, ?_⟩
      · refine h.set (Nat.le_succ k) rfl rfl ?_ ?_ ?_ ?_ ?_ ?_ ?_ ?_ ?_
        · show wrap (s.nextpid + 1) = _
          rw [hnext]
          congr 1
        · rw [hnp]
          rfl
        · rw [hp]
          rfl
        · intro _
          refine ⟨by show 1 ≤ s.nextpid; omega, by show s.nextpid ≤ _; omega, ?_⟩
          intro q _ hq
          -- pids in use are below the next one
          have := (h.pid q hq).2
          show _ ≠ s.nextpid
          omega
        · rintro ⟨⟩
        · intro q hq
          exact h.parent np q hq
        · intro _ he
          exact absurd rfl he
        · intro q _ hq
          have := h.embryo q np hq
          rw [hnp] at this
          cases this
        · intro r hr
          cases hr
          exact ⟨rfl, rfl, h.unused np hnp⟩
      · refine Effect.set rfl ?_ (by rintro ⟨⟩) ?_ (by rintro _ _ ⟨⟩)
        · rw [hnp]
          exact .alloc
        · intro _
          exact .inr ⟨rfl, hnext, rfl⟩
  | _ => exact hstay

/-- A process in `fork` goes on with the slot of its child: it gives the slot back, fills it, or
    starts the child. -/
theorem Inv.fill {a : Pos} (hchild : (s.pos p).child = some np)
    (hproc : s'.proc = update s.proc np x) (hpos : s'.pos = update s.pos p a) (hnext : s'.nextpid = s.nextpid)
    (hpid : x.pid = (s.proc np).pid) (hchange : Change .embryo x.state)
    (hparent : x.parent = (s.proc np).parent ∨ x.parent = some p)
    (hunused : x.state = .unused → x.parent = none) (hstart : x.state = .runnable → x.parent ≠ none)
    (hnew : ∀ r, a.child = some r → r = np ∧ x.state = .embryo ∧
      x.parent = if a = .copied np then some p else none) (hout : ∀ p pid, out ≠ .wait p pid) :
    Good k s k out s' := by
  have hembryo := h.embryo p np hchild
  have hlive : (s.proc p).state.live = true := by
    rw [hp]
    rfl
  have hused : (s.proc np).state ≠ .unused := by
    rw [hembryo]
    rintro ⟨⟩
  have hstate : x.state = .embryo ∨ x.state = .runnable ∨ x.state = .unused := by
    generalize x.state = b at hchange
    cases hchange <;> simp
  refine ⟨h.set le_rfl hproc hpos (hnext.trans h.nextpid) (by rw [hembryo]; rfl) hlive
    (fun _ => ?_) hunused ?_ ?_ (fun q hq he => hq (h.lone q p np he hchild)) hnew,
    .set hproc (by rwa [hembryo]) ?_ (fun _ => .inl ⟨hused, hpid⟩) fun p pid ho => absurd ho (hout p pid)⟩
  · rw [hpid]
    exact ⟨(h.pid np hused).1, (h.pid np hused).2, fun q hq hu he => hq (h.distinct q np hu hused he)⟩
  · intro q hq
    rcases hparent with hold | hme
    · exact h.parent np q (hold ▸ hq)
    · obtain rfl : p = q := Option.some.inj (hme.symm.trans hq)
      exact hlive
  · intro hu he
    exact hstart ((hstate.resolve_left he).resolve_right hu)
  · rcases hstate with hx | hx | hx <;> rw [hx] <;> rintro ⟨⟩

/-- A `fork` that fails gives the slot back, before anyone is its parent. -/
theorem Inv.wp_forkFail (hpos : (s.pos p).child = some np)
    (hcopied : s.pos p ≠ .copied np) : wp (forkFail p np) (Good k s k) noStop s := by
  have hparent := h.owner p np hpos
  rw [if_neg hcopied] at hparent
  exact h.fill hp hpos rfl rfl rfl rfl .giveBack (.inl rfl) (fun _ => hparent) (by rintro ⟨⟩) (by rintro _ ⟨⟩)
    (by rintro _ _ ⟨⟩)

/-- The steps of `fork` behind `allocproc`. -/
theorem Inv.wp_forkGo (ok : Bool) : wp (forkGo p ok (s.pos p)) (Good k s k) noStop s := by
  cases hpos : s.pos p with
  | alloced np =>
    have hchild : (s.pos p).child = some np := by
      rw [hpos]
      rfl
    have hcopied : s.pos p ≠ .copied np := by
      rw [hpos]
      rintro ⟨⟩
    have hembryo := h.embryo p np hchild
    have hparent := h.owner p np hchild
    rw [if_neg hcopied] at hparent
    simp only [forkGo, wp_ite]
    refine ⟨fun _ => ?_, fun _ => h.wp_forkFail hp hchild hcopied⟩
    refine h.fill hp hchild (update_eq_self np s.proc).symm rfl rfl rfl (by rw [hembryo]; exact .stay _) (.inl rfl)
      (fun _ => hparent) (by rw [hembryo]; rintro ⟨⟩) (fun r hr => ?_) (by rintro _ _ ⟨⟩)
    cases hr
    exact ⟨rfl, hembryo, hparent⟩
  | stacked np =>
    have hchild : (s.pos p).child = some np := by
      rw [hpos]
      rfl
    have hembryo := h.embryo p np hchild
    simp only [forkGo, wp_ite]
    refine ⟨fun _ => ?_, fun _ => h.wp_forkFail hp hchild (by rw [hpos]; rintro ⟨⟩)⟩
    refine h.fill hp hchild rfl rfl rfl rfl (by rw [hembryo]; exact .stay _) (.inr rfl)
      (by rw [hembryo]; rintro ⟨⟩) (by rintro _ ⟨⟩) (fun r hr => ?_) (by rintro _ _ ⟨⟩)
    cases hr
    exact ⟨rfl, hembryo, (if_pos rfl).symm⟩
  | copied np =>
    have hchild : (s.pos p).child = some np := by
      rw [hpos]
      rfl
    have hparent := h.owner p np hchild
    rw [if_pos hpos] at hparent
    refine h.fill hp hchild rfl rfl rfl rfl .start (.inl rfl) (by rintro ⟨⟩) (fun _ => ?_) (by rintro _ ⟨⟩)
      (by rintro _ _ ⟨⟩)
    show (s.proc np).parent ≠ none
    rw [hparent]
    rintro ⟨⟩
  | _ => exact .of_moved h (.refl s) (by rintro _ _ ⟨⟩)

/-! ## wait -/

/-- `wait` reaps a zombie child, sleeps, or returns -1 without children. -/
theorem Inv.wp_waitScan (hpos : (s.pos p).child = none) : wp (waitScan p) (Good k s k) noStop s := by
  have hlive : (s.proc p).state.live = true := by
    rw [hp]
    rfl
  simp only [waitScan, wp_bind, wp_get]
  cases hf : slots.find? fun q => (s.proc q).parent = some p ∧ (s.proc q).state = .zombie with
  | some q =>
    obtain ⟨hparent, hzombie⟩ : (s.proc q).parent = some p ∧ (s.proc q).state = .zombie := by
      simpa using find?_some hf
    refine ⟨?_, ?_⟩
    · refine h.set le_rfl rfl rfl h.nextpid ?_ hlive ?_ ?_ (by rintro _ ⟨⟩) ?_ ?_ (by rintro _ ⟨⟩)
      · rw [hzombie]
        rfl
      · intro he
        exact absurd rfl he
      · intro _
        rfl
      · intro he
        exact absurd rfl he
      · -- a slot that `fork` is filling holds no zombie
        intro r _ hr
        have := h.embryo r q hr
        rw [hzombie] at this
        cases this
    · refine Effect.set rfl ?_ (by rintro ⟨⟩) ?_ ?_
      · rw [hzombie]
        exact .reap
      · intro he
        exact absurd rfl he
      · intro r pid ho _
        cases ho
        exact ⟨hzombie, rfl, hparent, rfl⟩
  | none =>
    rw [wp_ite]
    constructor
    · intro _
      refine Good.of_moved h ((Moved.refl s).goto .user hpos rfl hlive) ?_
      intro r pid ho
      cases ho
      rfl
    · intro _
      have hmoved : Moved s (s.setProc p { s.proc p with chan := some (.proc p), state := .sleeping }) :=
        .setState hp .sleep rfl rfl rfl rfl
      exact .of_moved h (hmoved.goto .waiting hpos rfl hlive) (by rintro _ _ ⟨⟩)

end Calls

/-! ## exit -/

/-- Processes that slept may have been woken up, and have other parents. -/
structure Woken (s s' : Table) : Prop where
  nextpid : s'.nextpid = s.nextpid
  pos : s'.pos = s.pos
  pid : ∀ q, (s'.proc q).pid = (s.proc q).pid
  killed : ∀ q, (s'.proc q).killed = (s.proc q).killed
  state : ∀ q, (s'.proc q).state = (s.proc q).state ∨
    (s.proc q).state = .sleeping ∧ (s'.proc q).state = .runnable

/-- Processes that slept were woken up by one of the two. -/
theorem Woken.trans (h : Woken s s') (h' : Woken s' t) : Woken s t := by
  refine ⟨h'.nextpid.trans h.nextpid, h'.pos.trans h.pos, fun q => (h'.pid q).trans (h.pid q),
    fun q => (h'.killed q).trans (h.killed q), ?_⟩
  intro q
  rcases h.state q with he | ⟨hs, hr⟩
  · rw [← he]
    exact h'.state q
  · rcases h'.state q with he' | ⟨hs', -⟩
    · exact .inr ⟨hs, he'.trans hr⟩
    · rw [hr] at hs'
      exact nomatch hs'

theorem Woken.wakeup1 (s : Table) (chan : Option Chan) : Woken s (s.wakeup1 chan) :=
  ⟨rfl, rfl, fun q => (wake_cases chan (s.proc q)).1, fun q => (wake_cases chan (s.proc q)).2.2.1,
    fun q => (wake_cases chan (s.proc q)).2.2.2⟩

theorem parent_wakeup1 (s : Table) (chan : Option Chan) (q : Slot) :
    ((s.wakeup1 chan).proc q).parent = (s.proc q).parent := (wake_cases chan (s.proc q)).2.1

theorem Woken.setParent (s : Table) (p : Slot) (a : Option Slot) :
    Woken s (s.setProc p { s.proc p with parent := a }) := by
  have hproc := Table.setProc_proc s p { s.proc p with parent := a }
  refine ⟨rfl, rfl, ?_, ?_, fun q => .inl ?_⟩
  · exact forall_update hproc (fun q y => y.pid = (s.proc q).pid) rfl fun _ _ => rfl
  · exact forall_update hproc (fun q y => y.killed = (s.proc q).killed) rfl fun _ _ => rfl
  · exact forall_update hproc (fun q y => y.state = (s.proc q).state) rfl (fun _ _ => rfl) q

/-- One round of the loop of `exit`. -/
theorem abandon_spec (cur : Slot) (s : Table) (p : Slot) :
    Woken s (Table.abandon cur s p) ∧ ∀ q, ((Table.abandon cur s p).proc q).parent =
      if q = p ∧ (s.proc q).parent = some cur then some initproc else (s.proc q).parent := by
  have hset : ∀ q, (s.proc p).parent = some cur →
      ((s.setProc p { s.proc p with parent := some initproc }).proc q).parent =
        if q = p ∧ (s.proc q).parent = some cur then some initproc else (s.proc q).parent := by
    intro q hp
    by_cases hq : q = p
    · rw [hq, if_pos ⟨rfl, hp⟩, Table.setProc_proc, update_self]
    · rw [if_neg fun h => hq h.1, Table.setProc_proc, update_of_ne hq]
  unfold Table.abandon
  by_cases hp : (s.proc p).parent = some cur
  · rw [if_pos hp]
    by_cases hz : (s.proc p).state = .zombie
    · rw [if_pos hz]
      refine ⟨(Woken.setParent s p (some initproc)).trans (.wakeup1 _ _), ?_⟩
      intro q
      rw [parent_wakeup1]
      exact hset q hp
    · rw [if_neg hz]
      exact ⟨Woken.setParent s p (some initproc), fun q => hset q hp⟩
  · rw [if_neg hp]
    refine ⟨⟨rfl, rfl, fun _ => rfl, fun _ => rfl, fun _ => .inl rfl⟩, ?_⟩
    intro q
    split
    next h => exact absurd (h.1 ▸ h.2) hp
    next => rfl

theorem mem_slots (p : Slot) : p ∈ slots := mem_finRange p

/-- The loop of `exit` passes the children on to `initproc`. -/
theorem foldl_abandon_spec (cur : Slot) (l : List Slot) (s : Table) :
    Woken s (l.foldl (Table.abandon cur) s) ∧ ∀ q, ((l.foldl (Table.abandon cur) s).proc q).parent =
      if q ∈ l ∧ (s.proc q).parent = some cur then some initproc else (s.proc q).parent := by
  induction l generalizing s with
  | nil => exact ⟨⟨rfl, rfl, fun _ => rfl, fun _ => rfl, fun _ => .inl rfl⟩, fun q => by simp⟩
  | cons p l ih =>
    obtain ⟨hwoken, hparent⟩ := abandon_spec cur s p
    obtain ⟨hwoken', hparent'⟩ := ih (Table.abandon cur s p)
    refine ⟨hwoken.trans hwoken', ?_⟩
    intro q
    rw [foldl_cons, hparent', hparent]
    by_cases hc : (s.proc q).parent = some cur
    · by_cases hq : q = p
      · subst hq
        simp [hc]
      · simp [hc, hq]
    · simp [hc]

/-- The table that `exit` leaves. -/
structure Exited (p : Slot) (s s' : Table) : Prop where
  nextpid : s'.nextpid = s.nextpid
  pos : s'.pos = s.pos
  pid : ∀ q, (s'.proc q).pid = (s.proc q).pid
  killed : ∀ q, (s'.proc q).killed = (s.proc q).killed
  self : (s'.proc p).state = .zombie
  state : ∀ q, q ≠ p → (s'.proc q).state = (s.proc q).state ∨
    (s.proc q).state = .sleeping ∧ (s'.proc q).state = .runnable
  parent : ∀ q, (s'.proc q).parent = if (s.proc q).parent = some p then some initproc else (s.proc q).parent

theorem Woken.exited (h : Woken s t)
    (hparent : ∀ q, (t.proc q).parent = if (s.proc q).parent = some p then some initproc else (s.proc q).parent) :
    Exited p s (t.setState p .zombie) := by
  have hproc := Table.setState_proc t p .zombie
  refine ⟨h.nextpid, h.pos, ?_, ?_, ?_, fun q hq => ?_, ?_⟩
  · exact forall_update hproc (fun q y => y.pid = (s.proc q).pid) (h.pid p) fun q _ => h.pid q
  · exact forall_update hproc (fun q y => y.killed = (s.proc q).killed) (h.killed p) fun q _ => h.killed q
  · rw [hproc, update_self]
  · rw [hproc, update_of_ne hq]
    exact h.state q
  · exact forall_update hproc (fun q y => y.parent = if (s.proc q).parent = some p then some initproc else
      (s.proc q).parent) (hparent p) fun q _ => hparent q

/-- `exit` wakes the parent, passes the children on and ends as a zombie. -/
theorem exited (p : Slot) (s : Table) (chan : Option Chan) :
    Exited p s ((slots.foldl (Table.abandon p) (s.wakeup1 chan)).setState p .zombie) := by
  obtain ⟨hfold, hparent⟩ := foldl_abandon_spec p slots (s.wakeup1 chan)
  refine ((Woken.wakeup1 s chan).trans hfold).exited ?_
  intro q
  rw [hparent, parent_wakeup1]
  simp [mem_slots]

theorem Exited.live (h : Exited p s s') (hq : q ≠ p) : (s'.proc q).state.live = (s.proc q).state.live := by
  rcases h.state q hq with he | ⟨hs, hr⟩
  · rw [he]
  · rw [hs, hr]
    rfl

theorem Exited.state_iff (h : Exited p s s') (ha : a.live = false) (hq : q ≠ p) :
    (s'.proc q).state = a ↔ (s.proc q).state = a := by
  rcases h.state q hq with he | ⟨hs, hr⟩
  · rw [he]
  · rw [hs, hr]
    constructor
    · rintro rfl
      exact nomatch ha
    · rintro rfl
      exact nomatch ha

theorem Exited.unused_iff (h : Exited p s s') (hp : (s.proc p).state = .running) (q : Slot) :
    (s'.proc q).state = .unused ↔ (s.proc q).state = .unused := by
  by_cases hq : q = p
  · rw [hq, h.self, hp]
    constructor <;> nofun
  · exact h.state_iff rfl hq

/-- The tree after `exit`. The process was not in `fork`, so that no slot is being filled for it. -/
theorem Exited.inv (h : Exited p s s') (hi : Inv k s) (hp : (s.proc p).state = .running) (hpos : s.pos p = .user)
    (hinit : p ≠ initproc) : Inv k s' := by
  have hunused := h.unused_iff hp
  have hlive : ∀ q, q ≠ p → (s.proc q).state.live = true → (s'.proc q).state.live = true := by
    intro q hq hl
    rw [h.live hq]
    exact hl
  -- a slot that is being filled is neither `p` nor a child of `p`, who is not in `fork`
  have hfilled : ∀ q np, (s.pos q).child = some np → np ≠ p ∧ (s.proc np).parent ≠ some p := by
    intro q np hq
    constructor
    · rintro rfl
      have := hi.embryo q np hq
      rw [hp] at this
      exact nomatch this
    · intro hparent
      have hown := hi.owner q np hq
      rw [hparent] at hown
      split at hown
      next =>
        cases hown
        rw [hpos] at hq
        exact nomatch hq
      next => exact nomatch hown
  constructor
  · rw [h.nextpid, hi.nextpid]
  · intro q hq
    rw [h.pid]
    exact hi.pid q ((hunused q).not.mp hq)
  · intro q r hq hr he
    rw [h.pid, h.pid] at he
    exact hi.distinct q r ((hunused q).not.mp hq) ((hunused r).not.mp hr) he
  · exact hlive _ hinit.symm hi.init
  · intro q hq
    have hnone := hi.unused q ((hunused q).mp hq)
    rw [h.parent, hnone, if_neg nofun]
  · intro q r hq
    rw [h.parent] at hq
    split at hq
    next =>
      cases hq
      exact hlive _ hinit.symm hi.init
    next hne =>
      have hr : r ≠ p := by
        rintro rfl
        exact hne hq
      exact hlive r hr (hi.parent q r hq)
  · intro q hq hu he
    rw [h.parent]
    split
    next => nofun
    next =>
      by_cases hqp : q = p
      · rw [hqp] at hq ⊢
        refine hi.child p hq ?_ ?_
        · rw [hp]
          nofun
        · rw [hp]
          nofun
      · exact hi.child q hq ((hunused q).not.mp hu) ((h.state_iff rfl hqp).not.mp he)
  · intro q hq
    rw [h.pos] at hq
    have hqp : q ≠ p := by
      rintro rfl
      exact hq hpos
    exact hlive q hqp (hi.pos q hq)
  · intro q np hq
    rw [h.pos] at hq
    exact (h.state_iff rfl (hfilled q np hq).1).mpr (hi.embryo q np hq)
  · intro q np hq
    rw [h.pos] at hq
    rw [h.parent, if_neg (hfilled q np hq).2, h.pos]
    exact hi.owner q np hq
  · intro q r np hq hr
    rw [h.pos] at hq hr
    exact hi.lone q r np hq hr

/-- The one new zombie is the process that tells its exit. -/
theorem Exited.effect (h : Exited p s s') (hp : (s.proc p).state = .running) :
    Effect k s (.exit p (s.proc p).pid) k s' := by
  refine ⟨?_, ?_, ?_, nofun⟩
  · intro q
    by_cases hq : q = p
    · rw [hq, h.self, hp]
      exact .exit
    · rcases h.state q hq with he | ⟨hs, hr⟩
      · rw [he]
        exact .stay _
      · rw [hs, hr]
        exact .wake
  · intro q hq
    exact .inl ⟨(h.unused_iff hp q).not.mp hq, h.pid q⟩
  · intro q hz
    by_cases hq : q = p
    · rw [hq]
      exact .inr rfl
    · exact .inl ((h.state_iff rfl hq).mp hz)

theorem Inv.wp_exit (h : Inv k s) (hp : (s.proc p).state = .running) :
    wp (exit p (s.pos p)) (Good k s k) anyStop s := by
  have hstay : Good k s k .none s := .of_moved h (.refl s) nofun
  cases hpos : s.pos p with
  | user =>
    simp only [exit, wp_ite]
    refine ⟨fun _ => trivial, fun hinit => ?_⟩
    have hex := exited p s ((s.proc p).parent.map .proc)
    exact ⟨hex.inv h hp hpos hinit, hex.effect hp⟩
  | _ => exact hstay

/-! ## Steps -/

/-- `kill` sets a flag and wakes the process up. -/
theorem Moved.kill (s : Table) (p : Slot) :
    Moved s (s.setProc p { s.proc p with
      killed := true
      state := if (s.proc p).state = .sleeping then .runnable else (s.proc p).state }) := by
  by_cases hs : (s.proc p).state = .sleeping
  · rw [if_pos hs]
    exact .setState hs .wake rfl rfl rfl rfl
  · rw [if_neg hs]
    exact .setProc rfl rfl (.inl rfl) (.stay _)

/-- Code of a process that takes a step only when it is RUNNING. -/
theorem wp_asRunning {x : Pos → M Out} {Q : Out → Table → Prop} {E : Stop → Table → Prop} (hstay : Q .none s)
    (hx : (s.proc p).state = .running → wp (x (s.pos p)) Q E s) : wp (asRunning p x) Q E s := by
  simp only [asRunning, wp_bind, wp_get, wp_ite, wp_pure]
  exact ⟨hx, fun _ => hstay⟩

/-- How many pids a step may take. -/
def Turn.forks (t : Turn) : Nat := if t.isFork = true then 1 else 0

/-- What one step does. -/
theorem Inv.wp_turn (h : Inv k s) (t : Turn) (hk : k + 1 + t.forks < 2 ^ 31) :
    wp t.exec (fun out s' => ∃ k', k ≤ k' ∧ k' ≤ k + t.forks ∧ Good k s k' out s') anyStop s := by
  have hsame : ∀ {out s'}, Good k s k out s' → ∃ k', k ≤ k' ∧ k' ≤ k + t.forks ∧ Good k s k' out s' :=
    fun hg => ⟨k, le_rfl, Nat.le_add_right k _, hg⟩
  have hstay : Good k s k .none s := .of_moved h (.refl s) (by rintro _ _ ⟨⟩)
  cases t with
  | schedule p =>
    simp only [Turn.exec, wp_bind, wp_get]
    by_cases hp : (s.proc p).state = .runnable
    · rw [if_pos hp]
      have hmoved : Moved s (s.setProc p { s.proc p with state := .running, chan := none }) :=
        .setState hp .schedule rfl rfl rfl rfl
      exact hsame (.of_moved h hmoved (by rintro _ _ ⟨⟩))
    · rw [if_neg hp]
      exact hsame hstay
  | yield p =>
    rw [Turn.exec]
    refine wp_asRunning (hsame hstay) fun hp => ?_
    have hmoved : Moved s (s.setProc p { s.proc p with state := .runnable }) :=
      .setState hp .yield rfl rfl rfl rfl
    exact hsame (.of_moved h hmoved (by rintro _ _ ⟨⟩))
  | sleep p chan =>
    rw [Turn.exec]
    refine wp_asRunning (hsame hstay) fun hp => ?_
    have hmoved : Moved s (s.setProc p { s.proc p with chan := chan, state := .sleeping }) :=
      .setState hp .sleep rfl rfl rfl rfl
    exact hsame (.of_moved h hmoved (by rintro _ _ ⟨⟩))
  | wakeup chan => exact hsame (.of_moved h (.wakeup1 s chan) (by rintro _ _ ⟨⟩))
  | fork p =>
    refine wp_asRunning (hsame hstay) fun hp => ?_
    exact wp_mono (h.wp_fork hp hk) (fun _ _ hg => hg) fun _ _ he => he.elim
  | forkGo p ok =>
    refine wp_asRunning (hsame hstay) fun hp => ?_
    exact wp_mono (h.wp_forkGo hp ok) (fun _ _ hg => hsame hg) fun _ _ he => he.elim
  | exit p =>
    refine wp_asRunning (hsame hstay) fun hp => ?_
    exact wp_mono (h.wp_exit hp) (fun _ _ hg => hsame hg) fun _ _ _ => trivial
  | wait p =>
    refine wp_asRunning (hsame hstay) fun hp => ?_
    cases hpos : s.pos p with
    | user => exact wp_mono (h.wp_waitScan hp (by rw [hpos]; rfl)) (fun _ _ hg => hsame hg) fun _ _ he => he.elim
    | waiting => exact wp_mono (h.wp_waitScan hp (by rw [hpos]; rfl)) (fun _ _ hg => hsame hg) fun _ _ he => he.elim
    | alloced np => exact hsame hstay
    | stacked np => exact hsame hstay
    | copied np => exact hsame hstay
  | kill pid =>
    simp only [Turn.exec, kill, wp_bind, wp_get]
    cases hf : slots.find? fun p => (s.proc p).pid = pid with
    | some p => exact hsame (.of_moved h (.kill s p) (by rintro _ _ ⟨⟩))
    | none => exact hsame (.of_moved h (.refl s) (by rintro _ _ ⟨⟩))

/-! ## Runs -/

/-- The pid of a child that `wait` returns. -/
def Out.waited : Out → Option Int
  | .wait _ pid => if pid = -1 then Option.none else some pid
  | _ => Option.none

/-- Each pid that `wait` returns is returned once, after the process with that pid has exited. -/
structure ReapedOnce (outs : List Out) : Prop where
  once : (outs.filterMap Out.waited).Nodup
  after : ∀ pre post p pid, outs = pre ++ .wait p pid :: post → pid ≠ -1 → ∃ q, .exit q pid ∈ pre

/-- What the steps so far have told, in the state that they lead to. -/
structure Hist (k : Nat) (outs : List Out) (s : Table) : Prop where
  reaped : ReapedOnce outs
  gone : ∀ pid ∈ outs.filterMap Out.waited, pid ≤ k + 1 ∧ ∀ q, (s.proc q).state ≠ .unused → (s.proc q).pid ≠ pid
  zombie : ∀ q, (s.proc q).state = .zombie → .exit q (s.proc q).pid ∈ outs

variable {outs : List Out}

theorem filterMap_waited_wait (outs : List Out) (p : Slot) (hpid : pid ≠ -1) :
    (outs ++ [Out.wait p pid]).filterMap Out.waited = outs.filterMap Out.waited ++ [pid] := by
  simp [Out.waited, hpid]

theorem filterMap_waited_other (h : out.waited = none) :
    (outs ++ [out]).filterMap Out.waited = outs.filterMap Out.waited := by
  simp [h]

theorem ReapedOnce.after_snoc (h : ReapedOnce outs)
    (hlast : ∀ p pid, out = .wait p pid → pid ≠ -1 → ∃ q, .exit q pid ∈ outs) (pre post : List Out) (p : Slot)
    (pid : Int) (he : outs ++ [out] = pre ++ .wait p pid :: post) (hpid : pid ≠ -1) : ∃ q, .exit q pid ∈ pre := by
  rcases eq_nil_or_concat post with rfl | ⟨post', last, rfl⟩
  · obtain ⟨rfl, hout⟩ := append_inj' he rfl
    exact hlast p pid (List.cons.inj hout).1 hpid
  · rw [concat_eq_append, ← cons_append, ← append_assoc] at he
    obtain ⟨hpre, -⟩ := append_inj' he rfl
    exact h.after pre post' p pid hpre hpid

/-- A step that reaps nobody. -/
theorem ReapedOnce.other (h : ReapedOnce outs) (ho : out.waited = none) : ReapedOnce (outs ++ [out]) := by
  refine ⟨by rw [filterMap_waited_other ho]; exact h.once, h.after_snoc fun p pid he hpid => ?_⟩
  rw [he] at ho
  simp [Out.waited, hpid] at ho

/-- A step that reaps a process which has exited, and was not reaped before. -/
theorem ReapedOnce.wait {q : Slot} (h : ReapedOnce outs) (hpid : pid ≠ -1)
    (hnew : pid ∉ outs.filterMap Out.waited) (hexit : .exit q pid ∈ outs) :
    ReapedOnce (outs ++ [.wait p pid]) := by
  refine ⟨?_, h.after_snoc fun r pid' he _ => ?_⟩
  · rw [filterMap_waited_wait outs p hpid]
    exact List.Nodup.append h.once (nodup_singleton pid) (by simpa using hnew)
  · cases he
    exact ⟨q, hexit⟩

theorem Out.eq_wait_of_waited (h : out.waited = some pid) : ∃ p, out = .wait p pid ∧ pid ≠ -1 := by
  cases out with
  | wait p pid' =>
    by_cases hpid : pid' = -1
    · simp [Out.waited, hpid] at h
    · simp only [Out.waited, if_neg hpid, Option.some.injEq] at h
      subst h
      exact ⟨p, rfl, hpid⟩
  | _ => exact nomatch h

/-- A pid that no process has, and that is not new, stays so. -/
theorem Effect.pid_gone (he : Effect k s out k' s') (hle : pid ≤ k + 1)
    (hnot : ∀ q, (s.proc q).state ≠ .unused → (s'.proc q).state ≠ .unused → (s.proc q).pid ≠ pid)
    (q : Slot) (hq : (s'.proc q).state ≠ .unused) : (s'.proc q).pid ≠ pid := by
  rcases he.pid q hq with ⟨hu, hsame⟩ | ⟨-, hnew, -⟩
  · rw [hsame]
    exact hnot q hu hq
  · omega

/-- The exit of a zombie has been told. -/
theorem Effect.mem_exit (he : Effect k s out k' s') (h : Hist k outs s) (q : Slot) (hz : (s'.proc q).state = .zombie) :
    .exit q (s'.proc q).pid ∈ outs ++ [out] := by
  have hu : (s'.proc q).state ≠ .unused := by
    rw [hz]
    nofun
  rcases he.pid q hu with ⟨-, hsame⟩ | ⟨hembryo, -⟩
  · rw [hsame]
    rcases he.zombie q hz with hold | hout
    · exact mem_append_left _ (h.zombie q hold)
    · rw [hout]
      exact mem_append_right _ mem_cons_self
  · rw [hz] at hembryo
    exact nomatch hembryo

/-- One step more. -/
theorem Hist.step (h : Hist k outs s) (hi : Inv k s) (hk : k ≤ k') (he : Effect k s out k' s') :
    Hist k' (outs ++ [out]) s' := by
  cases hw : out.waited with
  | none =>
    refine ⟨h.reaped.other hw, ?_, he.mem_exit h⟩
    rw [filterMap_waited_other hw]
    intro pid hpid
    obtain ⟨hle, hnot⟩ := h.gone pid hpid
    exact ⟨by omega, he.pid_gone hle fun q hq _ => hnot q hq⟩
  | some pid =>
    obtain ⟨p, rfl, hpid⟩ := Out.eq_wait_of_waited hw
    obtain ⟨q, hz, hq, -, hfree⟩ := he.wait p pid rfl hpid
    have hu : (s.proc q).state ≠ .unused := by
      rw [hz]
      nofun
    have hnew : pid ∉ outs.filterMap Out.waited := by
      intro hmem
      exact (h.gone pid hmem).2 q hu hq
    have hexit := h.zombie q hz
    rw [hq] at hexit
    refine ⟨h.reaped.wait hpid hnew hexit, ?_, he.mem_exit h⟩
    rw [filterMap_waited_wait outs p hpid]
    intro pid' hmem
    rcases mem_append.mp hmem with hold | hlast
    · obtain ⟨hle, hnot⟩ := h.gone pid' hold
      exact ⟨by omega, he.pid_gone hle fun r hr _ => hnot r hr⟩
    · rw [mem_singleton] at hlast
      have hle : pid' ≤ k + 1 := by
        rw [hlast, ← hq]
        exact (hi.pid q hu).2
      refine ⟨by omega, he.pid_gone hle fun r hr hr' heq => ?_⟩
      -- the only process with this pid was the child, whose slot is free now
      have hrq : r = q := hi.distinct r q hr hu (by rw [heq, hlast, hq])
      rw [hrq] at hr'
      exact hr' hfree

/-- The number of pids that a run may take. -/
def forksOf (turns : List Turn) : Nat := turns.countP Turn.isFork

theorem forksOf_cons (t : Turn) (turns : List Turn) : forksOf (t :: turns) = forksOf turns + t.forks := by
  rw [forksOf, countP_cons]
  rfl

/-- What runs preserve, with what they tell. -/
theorem Inv.wp_run (hi : Inv k s) (h : Hist k outs s) (hk : k + 1 + forksOf turns < 2 ^ 31) :
    wp (run Turn.exec turns) (fun outs' s' => ∃ k', Inv k' s' ∧ Hist k' (outs ++ outs') s') anyStop s := by
  induction turns generalizing k s outs with
  | nil => exact ⟨k, hi, by rw [append_nil]; exact h⟩
  | cons t turns ih =>
    rw [forksOf_cons] at hk
    simp only [run, wp_bind]
    refine wp_mono (hi.wp_turn t (by omega)) ?_ fun _ _ _ => trivial
    rintro out s' ⟨k', hle, hle', hi', he⟩
    refine wp_mono (ih hi' (h.step hi hle he) (by omega)) ?_ fun _ _ _ => trivial
    rintro outs' t' ⟨k'', hi'', h''⟩
    rw [append_assoc] at h''
    exact ⟨k'', hi'', h''⟩

/-- Processes change their states as they should, and `wait` gives the pid of a child that has
    exited. -/
def Proper (t : Turn) (s : Table) : Prop :=
  wp t.exec (fun out s' => (∀ q, Change (s.proc q).state (s'.proc q).state) ∧
    ∀ p pid, out = .wait p pid → pid ≠ -1 →
      ∃ q, (s.proc q).state = .zombie ∧ (s.proc q).pid = pid ∧ (s.proc q).parent = some p) anyStop s

theorem Inv.along_proper (hi : Inv k s) (hk : k + 1 + forksOf turns < 2 ^ 31) :
    Along Turn.exec Proper turns s := by
  induction turns generalizing k s with
  | nil => trivial
  | cons t turns ih =>
    rw [forksOf_cons] at hk
    have hstep := hi.wp_turn t (by omega)
    constructor
    · refine wp_post hstep ?_
      rintro out s' ⟨k', -, -, -, he⟩
      refine ⟨he.change, ?_⟩
      intro p pid ho hpid
      obtain ⟨q, hz, hq, hparent, -⟩ := he.wait p pid ho hpid
      exact ⟨q, hz, hq, hparent⟩
    · cases hx : t.exec s with
      | error e s' => trivial
      | ok out s' =>
        rw [wp_of_ok hx] at hstep
        obtain ⟨k', -, hle, hi', -⟩ := hstep
        exact ih hi' (by omega)

end Steps

/-- Processes have different pids, and parents that are alive. -/
structure Tree (s : Table) : Prop where
  distinct : ∀ p q, (s.proc p).state ≠ .unused → (s.proc q).state ≠ .unused → (s.proc p).pid = (s.proc q).pid → p = q
  parent : ∀ p, p ≠ initproc → (s.proc p).state ∈ [.sleeping, .runnable, .running, .zombie] →
    ∃ q, (s.proc p).parent = some q ∧ (s.proc q).state ≠ .unused ∧ (s.proc q).state ≠ .zombie

/-- What the invariant says of the tree alone. -/
theorem Inv.tree (h : Inv k s) : Tree s := by
  refine ⟨h.distinct, ?_⟩
  intro p hp hmem
  have hu : (s.proc p).state ≠ .unused := by
    intro he
    simp [he] at hmem
  have hne : (s.proc p).state ≠ .embryo := by
    intro he
    simp [he] at hmem
  obtain ⟨q, hq⟩ := Option.ne_none_iff_exists'.mp (h.child p hp hu hne)
  have hlive := h.parent p q hq
  refine ⟨q, hq, ?_, ?_⟩
  · intro he
    rw [he] at hlive
    exact nomatch hlive
  · intro he
    rw [he] at hlive
    exact nomatch hlive

theorem userinit_proc (p : Slot) :
    p = initproc ∧ userinit.proc p = ⟨.runnable, 1, none, false, none⟩ ∨
      p ≠ initproc ∧ userinit.proc p = ⟨.unused, 0, none, false, none⟩ := by
  by_cases hp : p = initproc
  · exact .inl ⟨hp, by simp [userinit, hp]⟩
  · exact .inr ⟨hp, by simp [userinit, hp]⟩

/-- The table in which `init` is the only process. -/
theorem userinit_inv : Inv 0 userinit := by
  constructor
  · rfl
  · intro p hu
    rcases userinit_proc p with ⟨-, he⟩ | ⟨-, he⟩
    · rw [he]
      exact ⟨Int.le_refl 1, Int.le_refl 1⟩
    · rw [he] at hu
      exact absurd rfl hu
  · intro p q hp hq _
    rcases userinit_proc p with ⟨hp', -⟩ | ⟨-, he⟩
    · rcases userinit_proc q with ⟨hq', -⟩ | ⟨-, he⟩
      · rw [hp', hq']
      · rw [he] at hq
        exact absurd rfl hq
    · rw [he] at hp
      exact absurd rfl hp
  · rfl
  · intro p _
    rcases userinit_proc p with ⟨-, he⟩ | ⟨-, he⟩ <;> rw [he]
  · intro p q hq
    rcases userinit_proc p with ⟨-, he⟩ | ⟨-, he⟩ <;> rw [he] at hq <;> exact nomatch hq
  · intro p hp hu
    rcases userinit_proc p with ⟨hp', -⟩ | ⟨-, he⟩
    · exact absurd hp' hp
    · rw [he] at hu
      exact absurd rfl hu
  · intro p hp
    exact absurd rfl hp
  · nofun
  · nofun
  · nofun

theorem userinit_hist : Hist 0 [] userinit := by
  refine ⟨⟨nodup_nil, ?_⟩, nofun, ?_⟩
  · intro pre post p pid he
    simp at he
  · intro q hz
    rcases userinit_proc q with ⟨-, he⟩ | ⟨-, he⟩ <;> rw [he] at hz <;> exact nomatch hz

/-- Whatever processes do after `userinit`: processes have different pids and live parents, they
    change their states as they should, and a pid is given to the parent by one `wait` at most, when
    the process has exited. -/
theorem process_tree (turns : List Turn) (hforks : forksOf turns < 2 ^ 31 - 1) :
    Along Turn.exec Proper turns userinit ∧
      wp (run Turn.exec turns) (fun outs s => Tree s ∧ ReapedOnce outs) anyStop userinit := by
  refine ⟨userinit_inv.along_proper (by omega), ?_⟩
  refine wp_post (userinit_inv.wp_run userinit_hist (by omega)) ?_
  rintro outs s ⟨k, hi, h⟩
  exact ⟨hi.tree, h.reaped⟩

/-- `init` forks, the child forks and exits, and `init` waits for both. -/
@[irreducible]
def orphanTurns : List Turn :=
  [.schedule 0, .fork 0, .forkGo 0 true, .forkGo 0 true, .forkGo 0 true, .wait 0, .schedule 1, .fork 1,
    .forkGo 1 false, .fork 1, .forkGo 1 true, .forkGo 1 true, .forkGo 1 true, .exit 1, .schedule 0, .wait 0,
    .wait 0, .schedule 2, .exit 2, .schedule 0, .wait 0]

theorem orphanTurns_outs : yields (run Turn.exec orphanTurns) userinit
    (fun outs => Out.wait 0 2 ∈ outs ∧ Out.wait 0 4 ∈ outs) = true := by
  decide +kernel

theorem process_tree_orphanTurns : ∃ outs s, run Turn.exec orphanTurns userinit = .ok outs s ∧
    Out.wait 0 2 ∈ outs ∧ Out.wait 0 4 ∈ outs ∧ Tree s ∧ ReapedOnce outs ∧
    Along Turn.exec Proper orphanTurns userinit := by
  obtain ⟨outs, s, hrun, hmem⟩ := exists_of_yields orphanTurns_outs
  rw [decide_eq_true_eq] at hmem
  obtain ⟨hproper, htree⟩ := process_tree orphanTurns (by decide +kernel)
  rw [wp_of_ok hrun] at htree
  exact ⟨outs, s, hrun, hmem.1, hmem.2, htree.1, htree.2, hproper⟩

end Xv6Paging.ProcTable
