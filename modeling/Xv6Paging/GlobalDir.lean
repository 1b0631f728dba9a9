import Xv6Paging.Lib.Positions
import Xv6Paging.Confined
import Xv6Paging.Process

/-! # The directory that the swap code works on

    `freevm` publishes the directory it releases in `global_pgdir`, under
    `global_pgdir_flag`, for as long as it runs; `choosePageToSwap`, `moveToDisk`,
    `movePageToFile` and `getPageFromFile` take their directory from there when
    the flag is set, whoever set it. Neither variable is protected by a lock, and a
    process inside `freevm` can be preempted.

    The system below cuts `freevm` into the pieces between which it can be preempted
    and lets other processes fault and grow in between. What they do is confined to
    their own directories as long as nobody is inside `freevm`; otherwise the swap
    code works on the directory that is being released.
-/

namespace Xv6Paging

open Wp Run

variable {c : Config} {q : Nat} {α : Type} {m : Machine}

/-! ## Processes that are preempted inside `freevm` -/

/-- How far a process is in `freevm(d)`. -/
inductive Releasing where
  /-- `global_pgdir_flag` is set. -/
  | flagged (d : Nat)
  /-- `global_pgdir` is set, the loops are running. -/
  | working (d : Nat)
  /-- `global_pgdir` is null again. -/
  | retracted (d : Nat)
  deriving DecidableEq, Repr

/-- The machine, the two globals of `vm.c` and the processes inside `freevm`. -/
structure Sys where
  machine : Machine
  flag : Bool
  dir : Nat
  inside : List (Nat × Releasing)

/-- `(global_pgdir_flag == 1) ? global_pgdir : ...`, as `Machine` has it. -/
def Sys.global (s : Sys) : Option Nat := if s.flag = true then some s.dir else none

/-- The machine that kernel code sees now. -/
def Sys.view (s : Sys) : Machine := { s.machine with globalPgdir := s.global }

/-- What process `p` does outside `freevm`. -/
inductive Work where
  | choosePageToSwap
  | moveToDisk (i : Nat)
  | movePageToFile (i : Nat)
  | getPageFromFile (i : Nat)
  /-- A page fault at `va`. -/
  | fault (va : Nat) (user : Bool)
  /-- `sbrk`. -/
  | grow (n : Int)
  deriving DecidableEq, Repr

def Work.exec (c : Config) (p : Nat) : Work → K Unit
  | .choosePageToSwap => do let _ ← Xv6Paging.choosePageToSwap c p
  | .moveToDisk i => do let _ ← Xv6Paging.moveToDisk c p i
  | .movePageToFile i => do let _ ← Xv6Paging.movePageToFile p i
  | .getPageFromFile i => do let _ ← Xv6Paging.getPageFromFile p i
  | .fault va user => trap c p va user
  | .grow n => do let _ ← growproc c p n

/-- What one process does between two preemptions. -/
inductive Piece where
  /-- `freevm(d)` up to `global_pgdir_flag = 1`. -/
  | enter (d : Nat)
  /-- `global_pgdir = pgdir`. -/
  | publish
  /-- The loop of `deallocuvm` from address `a` up to `b`. -/
  | pages (a b : Nat)
  /-- The loop over the page tables, for the slots `ks`. -/
  | tables (ks : List Nat)
  /-- `global_pgdir = 0`. -/
  | retract
  /-- `global_pgdir_flag = 0` and `kfree(pgdir)`. -/
  | leave
  | work (w : Work)
  deriving DecidableEq, Repr

/-- Process `q` has come to position `r` of `freevm`. -/
def Sys.moveTo (s : Sys) (q : Nat) (r : Releasing) : Sys :=
  { s with inside := Positions.put s.inside q r }

/-- Process `q` is out of `freevm`. -/
def Sys.moveOut (s : Sys) (q : Nat) : Sys := { s with inside := Positions.drop s.inside q }

/-- Run kernel code in the system. -/
def onMachine {α : Type} (x : K α) : EStateM Stop Sys α :=
  onPart Sys.view (fun s m => { s with machine := m }) x

/-- One piece of process `q`, which is at `r`, in state `s`. A piece that does not
    come next in `q` does nothing. -/
def Piece.step (c : Config) (q : Nat) (s : Sys) : Piece → Option Releasing → EStateM Stop Sys Unit
  | .enter d, none =>
    if d = 0 then
      throw (.panic "freevm: no pgdir")
    else
      set ({ s with flag := true }.moveTo q (.flagged d))
  | .publish, some (.flagged d) => set ({ s with dir := d }.moveTo q (.working d))
  | .pages a b, some (.working d) => onMachine (do let _ ← deallocuvm c q d b a)
  | .tables ks, some (.working d) => onMachine (freeTables c d ks)
  | .retract, some (.working d) => set ({ s with dir := 0 }.moveTo q (.retracted d))
  | .leave, some (.retracted d) => do
    set ({ s with flag := false }.moveOut q)
    onMachine do
      modify fun m => m.setDir d { m.dirs d with live := false }
      kfree c d
  | .work w, none => onMachine (w.exec c q)
  | _, _ => pure ()

def Piece.exec (c : Config) (q : Nat) (piece : Piece) : EStateM Stop Sys Unit := do
  let s ← get
  piece.step c q s (s.inside.lookup q)

/-- A piece and the process that executes it. -/
abbrev Turn : Type := Nat × Piece

def Turn.exec (c : Config) (t : Turn) : EStateM Stop Sys Unit := t.2.exec c t.1

/-- When the turn is work of a process outside `freevm`, all of it, and with it
    every PTE access of the swap functions, is confined to the process's directory. -/
def Turn.OwnDir (c : Config) (t : Turn) (s : Sys) : Prop :=
  match t.2 with
  | .work w => s.inside.lookup t.1 = none → OnlyUses (s.machine.proc t.1).pgdir (w.exec c t.1) s.view
  | _ => True

/-- Nobody is inside `freevm` when a process works. -/
def Turn.Alone (t : Turn) (s : Sys) : Prop :=
  match t.2 with
  | .work _ => s.inside = []
  | _ => True

instance (t : Turn) (s : Sys) : Decidable (t.Alone s) := by
  unfold Turn.Alone
  split
  · infer_instance
  · infer_instance

/-! ## The pieces in order are `freevm` -/

/-- `global_pgdir` and its flag are what they were. -/
def SameGlobal (m m' : Machine) : Prop := m'.globalPgdir = m.globalPgdir

instance : Std.Refl SameGlobal := ⟨fun _ => rfl⟩

instance : IsTrans Machine SameGlobal := ⟨fun _ _ _ h h' => Eq.trans h' h⟩

/-- Code that leaves `global_pgdir` alone. -/
abbrev KeepsGlobal {α : Type} (x : K α) : Prop := Keeps SameGlobal (fun _ => True) x

section KeepsGlobal

variable {p d : Nat}

theorem keepsGlobal_code : MoveLogic c p (fun _ => True) SameDir (@KeepsGlobal) :=
  .of_keeps (fun _ => trivial) SameDir.procLogic (fun _ _ _ => rfl) (fun _ _ _ h => h)
    (fun _ _ _ _ => rfl)

theorem keepsGlobal_freeTables (ks : List Nat) : KeepsGlobal (freeTables c d ks) := by
  induction ks with
  | nil => exact keeps_pure _
  | cons k ks ih =>
    refine keeps_bind keeps_get fun m => ?_
    cases (m.dirs d).table k with
    | none => exact ih
    | some f =>
      exact keeps_bind (keeps_modify fun _ => rfl) fun _ => keeps_bind ((keepsGlobal_code (p := 0)).kfree f) fun _ => ih

end KeepsGlobal

/-- The pieces of `freevm(d)` by process `q`. -/
def releaseTurns (q d : Nat) : List Turn :=
  [(q, .enter d), (q, .publish), (q, .pages 0 kernbase), (q, .tables (List.range npdentries)),
    (q, .retract), (q, .leave)]

/-- What a turn does, given where its process is. -/
theorem Turn.exec_of {piece : Piece} (h : s.inside.lookup q = r) :
    Turn.exec c (q, piece) s = piece.step c q s r s := by
  rw [← h]
  rfl

theorem lookup_moveTo (s : Sys) (q : Nat) (r : Releasing) :
    (s.moveTo q r).inside.lookup q = some r := Positions.lookup_put

/-- Kernel code that returns, run in the system. -/
theorem onMachine_ok (h : x s.view = .ok a m) : onMachine x s = .ok a { s with machine := m } := by
  unfold onMachine onPart
  rw [h]

/-- Without preemption the pieces do what `freevm` does. -/
theorem run_releaseTurns (hout : s.inside.lookup q = none) (h : freevm c q d s.view = .ok () m) :
    ∃ outs s', run (Turn.exec c) (releaseTurns q d) s = .ok outs s' ∧ s'.view = m := by
  unfold freevm at h
  unfold releaseTurns
  generalize List.range npdentries = ks at h ⊢
  by_cases hd : d = 0
  · rw [if_pos hd] at h
    cases h
  rw [if_neg hd] at h
  -- The states between the statements of `freevm`.
  obtain ⟨_, m1, h1, h⟩ := bind_eq_ok.mp h
  obtain ⟨_, m2, h2, h⟩ := bind_eq_ok.mp h
  obtain ⟨_, m3, h3, h⟩ := bind_eq_ok.mp h
  obtain ⟨_, m4, h4, h⟩ := bind_eq_ok.mp h
  cases h1
  cases h4
  have hg2 : m2.globalPgdir = some d := by
    exact (wp_of_ok h2).mp (keepsGlobal_code.deallocuvm trivial _ _ _)
  have hg3 : m3.globalPgdir = some d :=
    ((wp_of_ok h3).mp (keepsGlobal_freeTables ks m2)).trans hg2
  let s1 : Sys := { s with flag := true }.moveTo q (.flagged d)
  let s2 : Sys := { s1 with dir := d }.moveTo q (.working d)
  let s3 : Sys := { s2 with machine := m2 }
  let s4 : Sys := { s3 with machine := m3 }
  let s5 : Sys := { s4 with dir := 0 }.moveTo q (.retracted d)
  let s6 : Sys := { s5 with flag := false }.moveOut q
  have e1 : Turn.exec c (q, .enter d) s = .ok () s1 := by
    rw [Turn.exec_of hout]
    exact congrFun (if_neg hd) s
  have e2 : Turn.exec c (q, .publish) s1 = .ok () s2 := by
    rw [Turn.exec_of (lookup_moveTo _ q _)]
    rfl
  have e3 : Turn.exec c (q, .pages 0 kernbase) s2 = .ok () s3 := by
    rw [Turn.exec_of (lookup_moveTo _ q _)]
    apply onMachine_ok
    exact (bind_ok h2).trans rfl
  have e4 : Turn.exec c (q, .tables ks) s3 = .ok () s4 := by
    have hview : s3.view = m2 := by
      show { m2 with globalPgdir := some d } = m2
      rw [← hg2]
    have hq : s3.inside.lookup q = some (.working d) := lookup_moveTo _ _ _
    rw [Turn.exec_of hq]
    apply onMachine_ok
    rw [hview]
    exact h3
  have e5 : Turn.exec c (q, .retract) s4 = .ok () s5 := by
    have hq : s4.inside.lookup q = some (.working d) := lookup_moveTo _ _ _
    rw [Turn.exec_of hq]
    rfl
  have e6 : Turn.exec c (q, .leave) s5 = .ok () { s6 with machine := m } := by
    rw [Turn.exec_of (lookup_moveTo _ q _)]
    exact onMachine_ok (s := s6) h
  refine ⟨_, _, run_cons e1 (run_cons e2 (run_cons e3 (run_cons e4 (run_cons e5 (run_cons e6 rfl))))), ?_⟩
  have hg : m.globalPgdir = none := by
    obtain ⟨_, m5, h5, h6⟩ := bind_eq_ok.mp h
    cases h5
    exact (wp_of_ok h6).mp ((keepsGlobal_code (p := q)).kfree d _)
  show { m with globalPgdir := none } = m
  rw [← hg]

/-! ## Confinement along runs -/

/-- The flag is set by a process inside `freevm` only. -/
def Sys.Flagged (s : Sys) : Prop := s.flag = true → s.inside ≠ []

/-- Kernel code leaves the globals and the positions of the processes alone. -/
theorem wp_onMachine_flagged (x : K α) (h : s.Flagged) : wp (onMachine x) (fun _ s' => s'.Flagged) anyStop s := by
  unfold onMachine
  rw [wp_onPart]
  unfold wp
  cases x s.view with
  | ok a m => exact h
  | error e m => trivial

theorem Turn.exec_flagged (c : Config) (t : Turn) (s : Sys) (h : s.Flagged) :
    wp (t.exec c) (fun _ s' => s'.Flagged) anyStop s := by
  obtain ⟨q, piece⟩ := t
  show wp (piece.exec c q) _ _ s
  unfold Piece.exec
  rw [wp_bind, wp_get]
  unfold Piece.step
  -- Entering is the only piece that sets the flag; leaving clears it.
  split
  · rw [wp_ite]
    exact ⟨fun _ => trivial, fun _ _ => Positions.put_ne_nil⟩
  · exact fun _ => Positions.put_ne_nil
  · exact wp_onMachine_flagged _ h
  · exact wp_onMachine_flagged _ h
  · exact fun _ => Positions.put_ne_nil
  · rw [wp_bind, wp_set]
    apply wp_onMachine_flagged
    intro hf
    exact absurd hf Bool.false_ne_true
  · exact wp_onMachine_flagged _ h
  · exact h

theorem Work.onlyUses (c : Config) (p : Nat) (w : Work) (hg : m.globalPgdir = none) :
    OnlyUses (m.proc p).pgdir (w.exec c p) m := by
  have hglobal : m.globalPgdir.getD (m.proc p).pgdir = (m.proc p).pgdir := by rw [hg]; rfl
  refine Confined.onlyUses (p := p) ?_ rfl hglobal
  intro es
  cases w with
  | choosePageToSwap => exact alike_bind (confined_code c).choosePageToSwap fun _ => alike_pure _
  | moveToDisk i => exact alike_bind ((confined_code c).moveToDisk i) fun _ => alike_pure _
  | movePageToFile i => exact alike_bind ((confined_code c).movePageToFile i) fun _ => alike_pure _
  | getPageFromFile i => exact alike_bind ((confined_code c).getPageFromFile i) fun _ => alike_pure _
  | fault va user => exact confined_trap c va user
  | grow n => exact alike_bind (confined_growproc c n) fun _ => alike_pure _

/-- **Confinement.** In every interleaving in which processes fault, grow and move
    pages only while no process is inside `freevm`, they read and write no page
    directory but their own. -/
theorem swap_uses_own_dir (c : Config) (s : Sys) (turns : List Turn) (hflag : s.flag = false)
    (halone : Along (Turn.exec c) Turn.Alone turns s) :
    Along (Turn.exec c) (Turn.OwnDir c) turns s := by
  have hstart : s.Flagged := fun h => absurd h (by rw [hflag]; simp)
  refine Along.of_invariant (fun t s hs _ => Turn.exec_flagged c t s hs) ?_ hstart halone
  intro t s hf hok
  unfold Turn.OwnDir
  unfold Turn.Alone at hok
  split
  · next w hw =>
    rw [hw] at hok
    intro _
    -- With nobody inside `freevm` the flag is clear, and so is `globalPgdir`.
    have hclear : s.flag = false := by
      cases hs : s.flag with
      | false => rfl
      | true => exact absurd hok (hf hs)
    have hg : s.view.globalPgdir = none := by
      show s.global = none
      unfold Sys.global
      rw [hclear]
      rfl
    exact Work.onlyUses c t.1 w hg
  · trivial

/-- Process 3 of the sample machine, with `free` frames left, and process 4, which has
    a new image in directory 850 and still its old one, of three pages, in directory 800. -/
def sampleSys (c : Config) (free : Nat) : Sys where
  machine := { sample c free with
    proc := fun p => if p = 4 then { sampleProc with pgdir := 850 } else sampleProc
    dirs := fun d => if d = 800
      then ⟨true, fun k => if k = 0 then some 801 else none, fun v =>
        if v < 3 then ⟨1100 + v, true, true, true, false, false, false⟩ else kmapPte c v⟩
      else (sample c free).dirs d }
  flag := false
  dir := 0
  inside := []

/-- Process 3 fills its RAM, process 4 releases directory 800, and process 3 grows by
    one page more, which evicts a page. -/
def orderlyRelease : List Turn :=
  [(3, .work (.grow (13 * 4096))), (4, .enter 800), (4, .publish), (4, .pages 0 (4 * 4096)),
    (4, .tables [0]), (4, .retract), (4, .leave), (3, .work (.grow 4096))]

theorem swap_uses_own_dir_sample :
    Along (Turn.exec (sampleConfig .AQ)) (Turn.OwnDir (sampleConfig .AQ)) orderlyRelease
      (sampleSys (sampleConfig .AQ) 20) :=
  swap_uses_own_dir _ _ _ rfl (by decide +kernel)

/-- The same, but process 4 is preempted before it clears the flag. -/
def preemptedRelease : List Turn :=
  [(3, .work (.grow (13 * 4096))), (4, .enter 800), (4, .publish), (3, .work (.grow 4096))]

/-- The growth evicts page 0 of the directory that process 4 is releasing. -/
theorem swap_uses_released_dir :
    ¬ Along (Turn.exec (sampleConfig .AQ)) (Turn.OwnDir (sampleConfig .AQ)) preemptedRelease
      (sampleSys (sampleConfig .AQ) 20) := by
  intro h
  have h1 := h.tail_final (by decide +kernel)
  have h2 := h1.tail_final (by decide +kernel)
  have h3 := h2.tail_final (by decide +kernel)
  have huses := h3.1 (by decide +kernel)
  have hdir := huses.dirs_eq (e := 800) (by decide +kernel)
  -- Before the growth the page is present in directory 800, afterwards it is not.
  have hp := congrArg (fun dir => (dir.pte 0).p) hdir
  revert hp
  decide +kernel

end Xv6Paging
