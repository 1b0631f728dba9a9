import Xv6Paging.Lib.Positions
import Xv6Paging.Fs.Log

/-! # Space in the log (`begin_op`, `end_op` and `log_write`)

    Operations of several processes share one transaction. `begin_op` admits an operation
    if the log would still have room when every admitted operation logged `MAXOPBLOCKS`
    blocks, and `log_write` panics when the log is full. The two tests disagree by one:
    `begin_op` reserves up to `LOGSIZE` blocks, while `mkfs` gives the log `LOGSIZE` blocks
    with its header, so that `log_write` refuses the last of them. Operations that log
    fewer than `MAXOPBLOCKS` blocks always fit.

    Processes take turns at the steps of these functions. The checks of `log_write` are
    made without the lock and are a step of their own.
-/

namespace Xv6Paging.Log

open List Wp Positions

/-! ## Admission and commit -/

/-- One turn of the loop of `begin_op`; `false` when the process goes to sleep. -/
def beginOp : D Bool := do
  let s ← get
  if s.committing = true then
    pure false
  else if logsize < s.lh.length + (s.outstanding + 1) * maxopblocks then
    pure false
  else
    set { s with outstanding := s.outstanding + 1 }
    pure true

/-- `end_op` up to the commit; `true` when this process is to commit. -/
def endOp : D Bool := do
  modify fun s => { s with outstanding := s.outstanding - 1 }
  let s ← get
  if s.committing = true then
    throw (.panic "log.committing")
  else if s.outstanding = 0 then
    set { s with committing := true }
    pure true
  else
    pure false

/-- The end of `end_op` after a commit. -/
def endCommit : D Unit := modify fun s => { s with committing := false }

/-! ## Processes in an operation -/

/-- Where a process is. -/
inductive Stage where
  /-- Between `begin_op` and `end_op`, having logged some blocks. -/
  | running (logged : List Nat)
  /-- In `log_write` of a block, after the checks. -/
  | logging (logged : List Nat) (b : Nat) (data : Block)
  /-- In `end_op`, about to commit. -/
  | toCommit
  /-- In `end_op`, after the commit. -/
  | committed

inductive LogStep where
  | beginOp
  | logCheck (b : Nat) (data : Block)
  | logAppend
  | endOp
  | commit
  | endCommit

/-- A step of a process that is at `r`; returns where it is then. A step that does not come
    next does nothing. -/
def LogStep.step (lay : Layout) : LogStep → Option Stage → D (Option Stage)
  | .beginOp, none => do
    let admitted ← Log.beginOp
    pure (if admitted = true then some (.running []) else none)
  | .logCheck b data, some (.running logged) => do
    Log.logCheck lay
    pure (some (.logging logged b data))
  | .logAppend, some (.logging logged b data) => do
    Log.logAppend b data
    pure (some (.running (absorb logged b)))
  | .endOp, some (.running _) => do
    let doCommit ← Log.endOp
    pure (if doCommit = true then some .toCommit else none)
  | .commit, some .toCommit => do
    Log.commit lay
    pure (some .committed)
  | .endCommit, some .committed => do
    Log.endCommit
    pure none
  | _, r => pure r

/-- The log and the processes in the middle of an operation. -/
structure LogSys where
  log : State
  procs : List (Nat × Stage)

/-- A process and the step it takes. -/
abbrev LogTurn : Type := Nat × LogStep

def LogTurn.exec (lay : Layout) (t : LogTurn) : EStateM Halt LogSys Unit := do
  let s ← get
  let r ← onPart LogSys.log (fun s g => { s with log := g }) (t.2.step lay (s.procs.lookup t.1))
  modify fun s => { s with procs := place s.procs t.1 r }

/-- No operation logs more than `k` different blocks. -/
def LogTurn.Within (k : Nat) (t : LogTurn) (s : LogSys) : Prop :=
  match t.2, s.procs.lookup t.1 with
  | .logCheck b _, some (.running logged) => (absorb logged b).length ≤ k
  | _, _ => True

instance (k : Nat) (t : LogTurn) (s : LogSys) : Decidable (t.Within k s) := by
  unfold LogTurn.Within
  split <;> infer_instance

/-! ## Accounting -/

/-- Blocks that an operation may log. -/
def quota : Nat := maxopblocks - 1

/-- `1` for an operation that counts as outstanding. -/
def Stage.active : Stage → Nat
  | .running _ => 1
  | .logging _ _ _ => 1
  | .toCommit => 0
  | .committed => 0

def Stage.logged : Stage → List Nat
  | .running logged => logged
  | .logging logged _ _ => logged
  | .toCommit => []
  | .committed => []

/-- What an operation may still log. -/
def Stage.left : Stage → Nat
  | .running logged => quota - logged.length
  | .logging logged _ _ => quota - logged.length
  | .toCommit => 0
  | .committed => 0

/-- A block that has passed the checks is within the quota. -/
def Stage.InQuota : Stage → Prop
  | .logging logged b _ => (absorb logged b).length ≤ quota
  | _ => True

/-- The log has room for everything that the admitted operations may still log. -/
structure Room (s : State) (l : List (Nat × Stage)) : Prop where
  outstanding : s.outstanding = (l.map fun x => x.2.active).sum
  logged : ∀ x ∈ l, ∀ b ∈ x.2.logged, b ∈ s.lh
  inQuota : ∀ x ∈ l, x.2.InQuota
  space : s.lh.length + (l.map fun x => x.2.left).sum ≤ logsize - 2
  /-- Outside a commit every process is in an operation. -/
  inOp : s.committing = false → ∀ x ∈ l, x.2.active = 1
  /-- A process that commits is alone. -/
  alone : s.committing = true → ∃ p, l = [(p, .toCommit)] ∨ l = [(p, .committed)]
  committed : ∀ p, l = [(p, .committed)] → s.lh = []
  idle : l = [] → s.lh = []

section Room

variable {s : State} {l rest : List (Nat × Stage)} {p : Nat}

theorem Room.perm (h : Room s l) (hp : l.Perm l') : Room s l' where
  outstanding := by rw [h.outstanding, (hp.map _).sum_nat]
  logged := fun x hx => h.logged x (hp.mem_iff.mpr hx)
  inQuota := fun x hx => h.inQuota x (hp.mem_iff.mpr hx)
  space := by
    rw [← (hp.map fun x => x.2.left).sum_nat]
    exact h.space
  inOp := fun hc x hx => h.inOp hc x (hp.mem_iff.mpr hx)
  alone := by
    intro hc
    obtain ⟨p, hl | hl⟩ := h.alone hc
    · exact ⟨p, .inl (perm_singleton.mp (hl ▸ hp.symm))⟩
    · exact ⟨p, .inr (perm_singleton.mp (hl ▸ hp.symm))⟩
  committed := by
    rintro p rfl
    exact h.committed p (perm_singleton.mp hp)
  idle := by
    rintro rfl
    exact h.idle (perm_nil.mp hp)

theorem Stage.left_le (st : Stage) : st.left ≤ quota := by
  cases st <;> simp [Stage.left]

theorem sum_left_le (l : List (Nat × Stage)) : (l.map fun x => x.2.left).sum ≤ quota * l.length := by
  induction l with
  | nil => simp
  | cons x l ih =>
    have := x.2.left_le
    simp only [map_cons, sum_cons, length_cons, Nat.mul_add, Nat.mul_one]
    omega

theorem sum_active (h : ∀ x ∈ l, x.2.active = 1) : (l.map fun x => x.2.active).sum = l.length := by
  induction l with
  | nil => rfl
  | cons x l ih =>
    rw [map_cons, sum_cons, length_cons, h x mem_cons_self,
      ih fun y hy => h y (mem_cons_of_mem x hy)]
    omega

theorem Room.committing_eq {st : Stage} (h : Room s ((p, st) :: rest)) (hst : st.active = 1) :
    s.committing = false := by
  cases hc : s.committing with
  | false => rfl
  | true =>
    obtain ⟨q, hl | hl⟩ := h.alone hc
    · cases hl
      exact nomatch hst
    · cases hl
      exact nomatch hst

/-- What holds of every process in an operation. -/
theorem Room.inside (h : Room s l) (hc : s.committing = false) :
    ∀ x ∈ l, x.2.active = 1 ∧ x.2.InQuota ∧ ∀ b ∈ x.2.logged, b ∈ s.lh :=
  fun x hx => ⟨h.inOp hc x hx, h.inQuota x hx, h.logged x hx⟩

/-- A process enters an operation, or goes on in it. -/
theorem Room.cons {st : Stage} (hst : st.active = 1) (hc : s.committing = false)
    (hself : st.InQuota ∧ ∀ b ∈ st.logged, b ∈ s.lh)
    (hrest : ∀ x ∈ rest, x.2.active = 1 ∧ x.2.InQuota ∧ ∀ b ∈ x.2.logged, b ∈ s.lh)
    (hout : s.outstanding = 1 + (rest.map fun x => x.2.active).sum)
    (hspace : s.lh.length + (st.left + (rest.map fun x => x.2.left).sum) ≤ logsize - 2) :
    Room s ((p, st) :: rest) := by
  have hall : ∀ x ∈ (p, st) :: rest, x.2.active = 1 ∧ x.2.InQuota ∧ ∀ b ∈ x.2.logged, b ∈ s.lh :=
    forall_mem_cons.mpr ⟨⟨hst, hself⟩, hrest⟩
  refine ⟨?_, fun x hx => (hall x hx).2.2, fun x hx => (hall x hx).2.1, hspace, fun _ x hx => (hall x hx).1,
    fun hc' => absurd (hc.symm.trans hc') (by decide), ?_, nofun⟩
  · rw [map_cons, sum_cons, hst, hout]
  · intro q hq
    cases hq
    cases hst

theorem Room.admit (h : Room s rest) (hc : s.committing = false)
    (hroom : s.lh.length + (s.outstanding + 1) * maxopblocks ≤ logsize) :
    Room { s with outstanding := s.outstanding + 1 } ((p, .running []) :: rest) := by
  have hall := h.inside hc
  have hout := h.outstanding
  refine .cons rfl hc ⟨trivial, nofun⟩ hall ?_ ?_
  · show s.outstanding + 1 = _
    omega
  · -- With other operations outstanding there is one block to spare for each of them.
    have hsum := sum_left_le rest
    rw [sum_active fun x hx => (hall x hx).1] at hout
    show s.lh.length + (quota + (rest.map fun x => x.2.left).sum) ≤ logsize - 2
    cases hr : rest with
    | nil =>
      rw [h.idle hr]
      decide
    | cons x rest' =>
      rw [← hr]
      have hpos : 1 ≤ rest.length := by
        rw [hr]
        exact Nat.succ_pos _
      simp only [quota, logsize, maxopblocks] at hsum hroom ⊢
      omega

/-- The checks of `log_write` succeed. -/
theorem Room.check {logged : List Nat} (h : Room s ((p, .running logged) :: rest)) :
    s.lh.length < logsize - 1 ∧ 1 ≤ s.outstanding := by
  have hspace := h.space
  have hout := h.outstanding
  simp only [map_cons, sum_cons] at hspace hout
  have hact : (Stage.running logged).active = 1 := rfl
  refine ⟨?_, by omega⟩
  simp only [logsize] at hspace ⊢
  omega

/-- A block has passed the checks. -/
theorem Room.checked {logged : List Nat} {data : Block}
    (h : Room s ((p, .running logged) :: rest)) (hquota : (absorb logged b).length ≤ quota) :
    Room s ((p, .logging logged b data) :: rest) := by
  have hc := h.committing_eq rfl
  obtain ⟨hself, hrest⟩ := forall_mem_cons.mp (h.inside hc)
  exact .cons rfl hc ⟨hquota, hself.2.2⟩ hrest h.outstanding h.space

/-- A block is recorded; if it is new to the log, it is new to the operation. -/
theorem Room.append {logged : List Nat} {data : Block} (h : Room s ((p, .logging logged b data) :: rest)) :
    Room ((s.setLh (absorb s.lh b)).setBuf b ⟨data, true⟩) ((p, .running (absorb logged b)) :: rest) := by
  have hc := h.committing_eq rfl
  obtain ⟨⟨-, hquota, hsub⟩, hrest⟩ := forall_mem_cons.mp (h.inside hc)
  have hmem : ∀ b' ∈ s.lh, b' ∈ absorb s.lh b := fun b' hb' => mem_absorb.mpr (.inl hb')
  refine .cons rfl hc ⟨trivial, fun b' hb' => ?_⟩ (fun x hx => ?_) h.outstanding ?_
  · rcases mem_absorb.mp hb' with hb' | rfl
    · exact hmem b' (hsub b' hb')
    · exact mem_absorb.mpr (.inr rfl)
  · obtain ⟨hact, hin, hlogged⟩ := hrest x hx
    exact ⟨hact, hin, fun b' hb' => hmem b' (hlogged b' hb')⟩
  · have hspace := h.space
    replace hquota : (absorb logged b).length ≤ quota := hquota
    simp only [map_cons, sum_cons, Stage.left] at hspace ⊢
    show (absorb s.lh b).length + _ ≤ _
    rw [length_absorb] at hquota ⊢
    rw [length_absorb]
    split at hquota
    · rename_i hin
      rw [if_pos (hsub b hin), if_pos hin]
      exact hspace
    · rename_i hout
      rw [if_neg hout]
      split <;> omega

/-- The operation ends and others are outstanding. -/
theorem Room.leave {logged : List Nat} (h : Room s ((p, .running logged) :: rest))
    (hmore : s.outstanding - 1 ≠ 0) : Room { s with outstanding := s.outstanding - 1 } rest := by
  have hc := h.committing_eq rfl
  have hout := h.outstanding
  have hspace := h.space
  simp only [map_cons, sum_cons] at hout hspace
  have hact : (Stage.running logged).active = 1 := rfl
  have hne : rest ≠ [] := by
    rintro rfl
    rw [map_nil, sum_nil] at hout
    omega
  have hall : ∀ x ∈ rest, x.2.active = 1 := fun x hx => h.inOp hc x (mem_cons_of_mem _ hx)
  refine ⟨?_, ?_, ?_, ?_, fun _ => hall, fun hc' => absurd (hc.symm.trans hc') (by decide), ?_, ?_⟩
  · show s.outstanding - 1 = _
    omega
  · exact fun x hx => h.logged x (mem_cons_of_mem _ hx)
  · exact fun x hx => h.inQuota x (mem_cons_of_mem _ hx)
  · show s.lh.length + _ ≤ _
    omega
  · rintro q rfl
    exact nomatch hall _ mem_cons_self
  · exact fun hnil => absurd hnil hne

/-- The last operation ends and its process goes on to commit. -/
theorem Room.last {logged : List Nat} (h : Room s ((p, .running logged) :: rest))
    (hlast : s.outstanding - 1 = 0) :
    Room { s with outstanding := s.outstanding - 1, committing := true } ((p, .toCommit) :: rest) := by
  have hc := h.committing_eq rfl
  have hout := h.outstanding
  have hspace := h.space
  have hall : ∀ x ∈ (p, Stage.running logged) :: rest, x.2.active = 1 := h.inOp hc
  rw [sum_active hall, length_cons] at hout
  have hnil : rest = [] := length_eq_zero_iff.mp (by omega)
  subst hnil
  refine ⟨hlast, ?_, ?_, ?_, fun hc' => (nomatch hc'), fun _ => ⟨p, .inl rfl⟩, ?_, nofun⟩
  · intro x hx b hb
    rw [mem_singleton.mp hx] at hb
    exact nomatch hb
  · intro x hx
    rw [mem_singleton.mp hx]
    trivial
  · simp only [map_cons, map_nil, sum_cons, sum_nil, Stage.left] at hspace ⊢
    show s.lh.length + _ ≤ _
    omega
  · intro q hq
    exact nomatch (List.cons.inj hq).1

/-- A process that commits is the only one in the list. -/
theorem Room.only {st : Stage} (h : Room s ((p, st) :: rest)) (hst : st.active = 0) :
    s.committing = true ∧ rest = [] := by
  cases hc : s.committing with
  | false => exact absurd (h.inOp hc _ mem_cons_self) (by rw [hst]; decide)
  | true =>
    refine ⟨rfl, ?_⟩
    obtain ⟨q, hl | hl⟩ := h.alone hc
    · exact (List.cons.inj hl).2
    · exact (List.cons.inj hl).2

/-- The commit is over; `committing` is still set. -/
theorem Room.commit (h : Room s ((p, .toCommit) :: rest)) (hlh : s'.lh = [])
    (hout : s'.outstanding = s.outstanding) (hc : s'.committing = s.committing) :
    Room s' ((p, .committed) :: rest) := by
  obtain ⟨hcom, rfl⟩ := h.only rfl
  refine ⟨hout.trans h.outstanding, ?_, ?_, ?_, ?_, fun _ => ⟨p, .inr rfl⟩, fun _ _ => hlh, nofun⟩
  · intro x hx b hb
    rw [mem_singleton.mp hx] at hb
    exact nomatch hb
  · intro x hx
    rw [mem_singleton.mp hx]
    trivial
  · rw [hlh]
    exact Nat.zero_le _
  · intro hc'
    exact absurd ((hc.trans hcom).symm.trans hc') (by decide)

theorem Room.finish (h : Room s ((p, .committed) :: rest)) :
    Room { s with committing := false } rest := by
  obtain ⟨hcom, rfl⟩ := h.only rfl
  have hlh := h.committed p rfl
  refine ⟨h.outstanding, nofun, nofun, ?_, fun _ => nofun, fun hc => (nomatch hc), nofun, fun _ => hlh⟩
  show s.lh.length + _ ≤ _
  rw [hlh]
  decide

end Room

/-! ## What a commit leaves alone -/

/-- The log in memory is as it was. -/
structure SameLog (s s' : State) : Prop where
  lh : s'.lh = s.lh
  outstanding : s'.outstanding = s.outstanding
  committing : s'.committing = s.committing

instance : Std.Refl SameLog := ⟨fun _ => ⟨rfl, rfl, rfl⟩⟩

instance : IsTrans State SameLog where
  trans _ _ _ h h' := ⟨h'.lh.trans h.lh, h'.outstanding.trans h.outstanding,
    h'.committing.trans h.committing⟩

section SameLog

variable {lay : Layout}

theorem keeps_bread (b : Nat) : Keeps SameLog (· = .crash) (bread b) := by
  intro s
  simp only [bread, wp_bind, wp_get]
  cases s.cache b with
  | none => exact ⟨rfl, rfl, rfl⟩
  | some buf => exact ⟨rfl, rfl, rfl⟩

theorem keeps_bwrite (b : Nat) (data : Block) : Keeps SameLog (· = .crash) (bwrite b data) := by
  intro s
  simp only [bwrite, wp_bind, wp_get, wp_ite, wp_throw, wp_set]
  exact ⟨fun _ => trivial, fun _ => ⟨rfl, rfl, rfl⟩⟩

theorem keeps_writeLogFrom (tail : Nat) (bs : List Nat) :
    Keeps SameLog (· = .crash) (writeLogFrom lay tail bs) := by
  induction bs generalizing tail with
  | nil => exact keeps_pure _
  | cons b bs ih =>
    unfold writeLogFrom
    refine keeps_bind (keeps_bread _) fun _ => keeps_bind (keeps_bread _) fun _ => ?_
    exact keeps_bind (keeps_bwrite _ _) fun _ => ih _

theorem keeps_installFrom (tail : Nat) (bs : List Nat) :
    Keeps SameLog (· = .crash) (installFrom lay tail bs) := by
  induction bs generalizing tail with
  | nil => exact keeps_pure _
  | cons b bs ih =>
    unfold installFrom
    refine keeps_bind (keeps_bread _) fun _ => keeps_bind (keeps_bread _) fun _ => ?_
    exact keeps_bind (keeps_bwrite _ _) fun _ => ih _

theorem keeps_writeHead : Keeps SameLog (· = .crash) (writeHead lay) := by
  refine keeps_bind (keeps_bread _) fun _ => keeps_bind keeps_get fun _ => ?_
  exact keeps_bwrite _ _

/-- A commit empties the log and stops only when power fails. -/
theorem commit_empties (s : State) : wp (commit lay) (fun _ s' => s'.lh = [] ∧
    s'.outstanding = s.outstanding ∧ s'.committing = s.committing) (fun e _ => e = .crash) s := by
  simp only [commit, writeLog, installTrans, wp_bind, wp_get, wp_ite, wp_modify, wp_pure]
  refine ⟨fun _ => ?_, fun hnil => ⟨length_eq_zero_iff.mp (by omega), trivial, trivial⟩⟩
  refine wp_post (keeps_writeLogFrom 0 s.lh s) fun _ s1 h1 => ?_
  refine wp_post (keeps_writeHead s1) fun _ s2 h2 => ?_
  refine wp_post (keeps_installFrom 0 s2.lh s2) fun _ s3 h3 => ?_
  refine wp_post (keeps_writeHead (s3.setLh [])) fun _ s4 h4 => ⟨h4.lh, ?_, ?_⟩
  · exact h4.outstanding.trans (h3.outstanding.trans (h2.outstanding.trans h1.outstanding))
  · exact h4.committing.trans (h3.committing.trans (h2.committing.trans h1.committing))

end SameLog

/-! ## Turns -/

/-- One step of a process, the others being at `rest`. -/
theorem LogStep.step_room {rest : List (Nat × Stage)} (st : LogStep) (h : Room s (entry p r ++ rest))
    (hwithin : ∀ b data logged, st = .logCheck b data → r = some (.running logged) →
      (absorb logged b).length ≤ quota) :
    wp (st.step mkfsLayout r) (fun r' s' => Room s' (entry p r' ++ rest)) (fun e _ => e = .crash) s := by
  cases r with
  | none =>
    cases st with
    | beginOp =>
      simp only [LogStep.step, Log.beginOp, wp_bind, wp_get, wp_ite, wp_pure, wp_set]
      refine ⟨fun _ => h, fun hc => ⟨fun _ => h, fun hroom => ?_⟩⟩
      exact Room.admit h (by simpa using hc) (by omega)
    | _ => exact h
  | some stage =>
    cases stage with
    | running logged =>
      cases st with
      | logCheck b data =>
        obtain ⟨hroom, hout⟩ := Room.check h
        have hfits : ¬ (logsize ≤ s.lh.length ∨ mkfsLayout.size - 1 ≤ s.lh.length) := by
          have : mkfsLayout.size = logsize := rfl
          omega
        have hin : ¬ s.outstanding < 1 := by omega
        simp only [LogStep.step, Log.logCheck, wp_bind, wp_get, wp_ite, wp_throw, wp_pure]
        refine ⟨fun hfull => absurd hfull hfits, fun _ => ⟨fun hno => absurd hno hin, fun _ => ?_⟩⟩
        exact Room.checked h (hwithin b data logged rfl rfl)
      | endOp =>
        have hc := h.committing_eq rfl
        simp only [LogStep.step, Log.endOp, wp_bind, wp_get, wp_ite, wp_throw, wp_pure, wp_set, wp_modify]
        refine ⟨fun hc' => absurd (hc.symm.trans hc') (by decide), fun _ => ⟨fun hz => ?_, fun hz => ?_⟩⟩
        · exact Room.last h hz
        · exact Room.leave h hz
      | _ => exact h
    | logging logged b data =>
      cases st with
      | logAppend =>
        simp only [LogStep.step, Log.logAppend, wp_bind, wp_modify, wp_pure]
        exact Room.append h
      | _ => exact h
    | toCommit =>
      cases st with
      | commit =>
        simp only [LogStep.step, wp_bind, wp_pure]
        exact wp_post (commit_empties s) fun _ s' hs' => Room.commit h hs'.1 hs'.2.1 hs'.2.2
      | _ => exact h
    | committed =>
      cases st with
      | endCommit =>
        simp only [LogStep.step, Log.endCommit, wp_bind, wp_modify, wp_pure]
        exact Room.finish h
      | _ => exact h

/-- Between turns. -/
structure LogSys.Inv (s : LogSys) : Prop where
  distinct : Distinct s.procs
  room : Room s.log s.procs

theorem LogTurn.exec_inv (t : LogTurn) (s : LogSys) (h : s.Inv) (hwithin : t.Within quota s) :
    wp (t.exec mkfsLayout) (fun _ s' => s'.Inv) (fun e _ => e = .crash) s := by
  obtain ⟨p, st⟩ := t
  have hroom := h.room.perm (perm_place h.distinct p)
  unfold LogTurn.exec
  rw [wp_bind, wp_get, wp_bind, wp_onPart]
  refine wp_post (st.step_room hroom ?_) ?_
  · rintro b data logged rfl hr
    unfold LogTurn.Within at hwithin
    rw [hr] at hwithin
    exact hwithin
  · intro r g hg
    exact ⟨distinct_place h.distinct p r, hg⟩

/-- A process that is committing is alone: no operation is outstanding, and `begin_op` admits
    none. -/
structure LogSys.CommitsAlone (s : LogSys) : Prop where
  outstanding : ∀ p, s.procs.lookup p = some .toCommit → s.log.outstanding = 0
  running : ∀ p, s.procs.lookup p = some .toCommit → ∀ x ∈ s.procs, x.2.active = 0
  admits : ∀ p, s.procs.lookup p = some .toCommit → Log.beginOp s.log = .ok false s.log

theorem LogSys.Inv.commitsAlone {s : LogSys} (h : s.Inv) : s.CommitsAlone := by
  have hone : ∀ p, s.procs.lookup p = some .toCommit →
      s.log.committing = true ∧ s.procs = [(p, .toCommit)] := by
    intro p hp
    have hperm := perm_put h.distinct hp
    obtain ⟨hc, hrest⟩ := (h.room.perm hperm).only rfl
    rw [put, hrest] at hperm
    exact ⟨hc, perm_singleton.mp hperm⟩
  refine ⟨fun p hp => ?_, fun p hp x hx => ?_, fun p hp => ?_⟩
  · rw [h.room.outstanding, (hone p hp).2]
    rfl
  · rw [(hone p hp).2] at hx
    rw [mem_singleton.mp hx]
    rfl
  · have hwp : wp Log.beginOp (fun r g => r = false ∧ g = s.log) noStop s.log := by
      simp only [Log.beginOp, wp_bind, wp_get, wp_ite, wp_pure, wp_set]
      exact ⟨fun _ => ⟨trivial, trivial⟩, fun hno => absurd (hone p hp).1 hno⟩
    obtain ⟨r, g, hrun, rfl, rfl⟩ := wp_noStop_iff.mp hwp
    exact hrun

/-- No operation is in progress. -/
structure LogSys.Start (s : LogSys) : Prop where
  procs : s.procs = []
  lh : s.log.lh = []
  outstanding : s.log.outstanding = 0
  committing : s.log.committing = false

theorem LogSys.Start.inv {s : LogSys} (h : s.Start) : s.Inv := by
  refine ⟨?_, ?_⟩
  · rw [h.procs]
    exact nodup_nil
  · rw [h.procs]
    refine ⟨h.outstanding, nofun, nofun, ?_, fun _ => nofun, ?_, nofun, fun _ => h.lh⟩
    · rw [h.lh]
      decide
    · intro hc
      exact absurd (h.committing.symm.trans hc) (by decide)

/-- With the log of `mkfs`, in every run in which each operation logs fewer than `MAXOPBLOCKS`
    blocks, nothing panics: the log never overflows and nobody writes to it outside an
    operation. A commit runs alone. -/
theorem log_never_full (s : LogSys) (turns : List LogTurn) (hstart : s.Start)
    (hok : Run.Along (LogTurn.exec mkfsLayout) (LogTurn.Within (maxopblocks - 1)) turns s) :
    (∀ outs s', Run.run (LogTurn.exec mkfsLayout) turns s = .ok outs s' → s'.CommitsAlone) ∧
    ∀ e s', Run.run (LogTurn.exec mkfsLayout) turns s = .error e s' → e = .crash := by
  have hrun : wp (Run.run (LogTurn.exec mkfsLayout) turns) (fun _ s' => s'.Inv) (fun e _ => e = .crash) s :=
    Run.wp_invariant (fun t g hg hw => t.exec_inv g hg hw) hstart.inv hok
  obtain ⟨hret, herr⟩ := wp_iff.mp hrun
  exact ⟨fun outs s' heq => (hret outs s' heq).commitsAlone, herr⟩

/-- No operation in progress on a disk of zeros. -/
def idleSys : LogSys where
  log := reboot (fun _ _ => 0) 200 id
  procs := []

/-- Process `p` logs a block. -/
def logBlock (p b : Nat) : List LogTurn := [(p, .logCheck b fun _ => 0), (p, .logAppend)]

/-- Three processes are in an operation at once, and each logs `n` blocks of its own. -/
def threeWriters (n : Nat) : List LogTurn :=
  [(1, .beginOp), (2, .beginOp), (3, .beginOp)] ++
    ([1, 2, 3].flatMap fun p => (List.range n).flatMap fun i => logBlock p (100 * p + i))

/-- The three processes end their operations, and the last one commits. -/
def threeEnds : List LogTurn :=
  [(1, .endOp), (2, .endOp), (3, .endOp), (1, .beginOp), (3, .commit), (3, .endCommit)]

theorem log_never_full_threeWriters :
    (∃ outs s', Run.run (LogTurn.exec mkfsLayout) (threeWriters 9 ++ threeEnds) idleSys = .ok outs s' ∧
      s'.CommitsAlone) := by
  have hok : Run.Along (LogTurn.exec mkfsLayout) (LogTurn.Within (maxopblocks - 1))
      (threeWriters 9 ++ threeEnds) idleSys := by decide +kernel
  have hmain := log_never_full idleSys _ ⟨rfl, rfl, rfl, rfl⟩ hok
  obtain ⟨outs, hrun⟩ := Run.exists_of_returns
    (x := Run.run (LogTurn.exec mkfsLayout) (threeWriters 9 ++ threeEnds)) (s := idleSys) (by decide +kernel)
  exact ⟨outs, _, hrun, hmain.1 outs _ hrun⟩

/-- Three admitted operations, none of which logs more than `MAXOPBLOCKS` blocks: the last
    block does not fit. -/
theorem threeWriters_overflow :
    Run.Along (LogTurn.exec mkfsLayout) (LogTurn.Within maxopblocks) (threeWriters 10) idleSys ∧
    ∃ s', Run.run (LogTurn.exec mkfsLayout) (threeWriters 10) idleSys =
      .error (.panic "too big a transaction") s' :=
  ⟨by decide +kernel, _, Run.error_of_stopOf (by decide +kernel)⟩

end Xv6Paging.Log
