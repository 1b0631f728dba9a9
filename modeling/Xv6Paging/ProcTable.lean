import Xv6Paging.Lib.Run
import Xv6Paging.Machine

/-! # The process table

    `fork`, `exit`, `wait`, `kill`, `sleep` and `wakeup`, by any processes, on any number of
    CPUs. What a process does while it holds `ptable.lock` is one step. `fork` takes the lock
    twice and gives a slot back without it, so it is cut there, and other processes may
    come in between.

    A process takes steps only while it is RUNNING; the scheduler may pick any process that
    is RUNNABLE. Kernel stacks, page tables and open files are not part of this model: that
    `kalloc` or `copyuvm` fails is up to the step.
-/

namespace Xv6Paging.ProcTable

open Wp Run Function

abbrev Slot : Type := Fin nproc

instance : NeZero nproc := ⟨by decide⟩

inductive ProcState where
  | unused
  | embryo
  | sleeping
  | runnable
  | running
  | zombie
  deriving DecidableEq

/-- An address that a process sleeps on; `wait` sleeps on the process itself. -/
inductive Chan where
  | proc (p : Slot)
  | other (addr : Nat)
  deriving DecidableEq

structure Proc where
  state : ProcState
  pid : Int
  parent : Option Slot
  killed : Bool
  chan : Option Chan
  deriving DecidableEq

/-- The body of the loop of `wakeup1`. -/
def Proc.wake (chan : Option Chan) (x : Proc) : Proc :=
  if x.state = .sleeping ∧ x.chan = chan then { x with state := .runnable } else x

/-- Where a process is, between the steps it takes. -/
inductive Pos where
  /-- Neither in `fork` nor in `wait`. -/
  | user
  /-- In `fork`: `allocproc` has the slot `np`, but no kernel stack yet. -/
  | alloced (np : Slot)
  /-- In `fork`, before `copyuvm`. -/
  | stacked (np : Slot)
  /-- In `fork`, with the parent of `np` set. -/
  | copied (np : Slot)
  /-- In the `sleep` of `wait`. -/
  | waiting
  deriving DecidableEq

/-- The slot that a process in `fork` fills. -/
def Pos.child : Pos → Option Slot
  | .alloced np => some np
  | .stacked np => some np
  | .copied np => some np
  | _ => none

structure Table where
  proc : Slot → Proc
  nextpid : Int
  pos : Slot → Pos

/-- `userinit` takes the first slot. -/
def initproc : Slot := 0

/-- The `int` that has this value modulo 2^32. -/
def wrap (x : Int) : Int := if x < 2 ^ 31 then x else x - 2 ^ 32

/-- What a step tells: what `fork`, `wait` and `kill` return, and who has exited. -/
inductive Out where
  | none
  | fork (p : Slot) (pid : Int)
  | exit (p : Slot) (pid : Int)
  | wait (p : Slot) (pid : Int)
  | kill (pid : Int) (r : Int)
  deriving DecidableEq

abbrev M : Type → Type := EStateM Stop Table

namespace Table

@[simps -fullyApplied]
def setProc (s : Table) (p : Slot) (x : Proc) : Table := { s with proc := update s.proc p x }

@[simps -fullyApplied]
def setState (s : Table) (p : Slot) (a : ProcState) : Table :=
  { s with proc := update s.proc p { s.proc p with state := a } }

@[simps -fullyApplied]
def goto (s : Table) (p : Slot) (a : Pos) : Table := { s with pos := update s.pos p a }

@[simps -fullyApplied]
def wakeup1 (s : Table) (chan : Option Chan) : Table := { s with proc := fun p => (s.proc p).wake chan }

/-- The body of the loop of `exit` that passes children to `initproc`. -/
def abandon (cur : Slot) (s : Table) (p : Slot) : Table :=
  if (s.proc p).parent = some cur then
    let s' := s.setProc p { s.proc p with parent := some initproc }
    if (s.proc p).state = .zombie then s'.wakeup1 (some (.proc initproc)) else s'
  else
    s

end Table

/-- The slots, in the order in which the loops of the kernel visit them. -/
def slots : List Slot := List.finRange nproc

/-- `allocproc`, as far as it holds the lock. -/
def allocproc : M (Option Slot) := do
  let s ← get
  match slots.find? fun p => (s.proc p).state = .unused with
  | none => pure none
  | some p =>
    set { s.setProc p { s.proc p with state := .embryo, pid := s.nextpid } with nextpid := wrap (s.nextpid + 1) }
    pure (some p)

/-- The start of `fork`. -/
def fork (p : Slot) : Pos → M Out
  | .user => do
    match ← allocproc with
    | none => pure (.fork p (-1))
    | some np =>
      modify (·.goto p (.alloced np))
      pure .none
  | _ => pure .none

/-- `fork` gives the slot back and fails. -/
def forkFail (p np : Slot) : M Out := do
  modify fun s => (s.setState np .unused).goto p .user
  pure (.fork p (-1))

/-- `fork` goes on; `ok` tells whether the `kalloc` or the `copyuvm` that comes next succeeds. -/
def forkGo (p : Slot) (ok : Bool) : Pos → M Out
  | .alloced np =>
    if ok = true then do
      modify (·.goto p (.stacked np))
      pure .none
    else
      forkFail p np
  | .stacked np =>
    if ok = true then do
      modify fun s => (s.setProc np { s.proc np with parent := some p }).goto p (.copied np)
      pure .none
    else
      forkFail p np
  | .copied np => do
    let s ← get
    set ((s.setState np .runnable).goto p .user)
    pure (.fork p (s.proc np).pid)
  | _ => pure .none

/-- `exit`, from where it takes the lock on. -/
def exit (p : Slot) : Pos → M Out
  | .user =>
    if p = initproc then
      throw (.panic "init exiting")
    else do
      let s ← get
      let s' := slots.foldl (Table.abandon p) (s.wakeup1 ((s.proc p).parent.map .proc))
      set (s'.setState p .zombie)
      pure (.exit p (s.proc p).pid)
  | _ => pure .none

/-- One round of the loop of `wait`. -/
def waitScan (p : Slot) : M Out := do
  let s ← get
  match slots.find? fun q => (s.proc q).parent = some p ∧ (s.proc q).state = .zombie with
  | some q =>
    set ((s.setProc q { s.proc q with pid := 0, parent := none, killed := false, state := .unused }).goto p .user)
    pure (.wait p (s.proc q).pid)
  | none =>
    if (slots.any fun q => (s.proc q).parent = some p) = false ∨ (s.proc p).killed = true then
      set (s.goto p .user)
      pure (.wait p (-1))
    else
      -- sleep(curproc, &ptable.lock)
      set ((s.setProc p { s.proc p with chan := some (.proc p), state := .sleeping }).goto p .waiting)
      pure .none

/-- `wait`, from its start or from where it has slept. -/
def wait (p : Slot) : Pos → M Out
  | .user => waitScan p
  | .waiting => waitScan p
  | _ => pure .none

def kill (pid : Int) : M Int := do
  let s ← get
  match slots.find? fun p => (s.proc p).pid = pid with
  | some p =>
    let a := if (s.proc p).state = .sleeping then .runnable else (s.proc p).state
    set (s.setProc p { s.proc p with killed := true, state := a })
    pure 0
  | none => pure (-1)

inductive Turn where
  /-- The scheduler of some CPU picks the process; a `sleep` then clears `chan`. -/
  | schedule (p : Slot)
  | yield (p : Slot)
  | sleep (p : Slot) (chan : Option Chan)
  | wakeup (chan : Option Chan)
  | fork (p : Slot)
  | forkGo (p : Slot) (ok : Bool)
  | exit (p : Slot)
  | wait (p : Slot)
  | kill (pid : Int)

/-- Code that process `p` executes, given where it is. -/
def asRunning (p : Slot) (x : Pos → M Out) : M Out := do
  let s ← get
  if (s.proc p).state = .running then
    x (s.pos p)
  else
    pure .none

/-- A step; one that cannot be taken does nothing. -/
def Turn.exec : Turn → M Out
  | .schedule p => do
    let s ← get
    if (s.proc p).state = .runnable then
      set (s.setProc p { s.proc p with state := .running, chan := none })
    pure .none
  | .yield p => asRunning p fun _ => do
    modify (·.setState p .runnable)
    pure .none
  | .sleep p chan => asRunning p fun _ => do
    modify fun s => s.setProc p { s.proc p with chan := chan, state := .sleeping }
    pure .none
  | .wakeup chan => do
    modify (·.wakeup1 chan)
    pure .none
  | .fork p => asRunning p (ProcTable.fork p)
  | .forkGo p ok => asRunning p (ProcTable.forkGo p ok)
  | .exit p => asRunning p (ProcTable.exit p)
  | .wait p => asRunning p (ProcTable.wait p)
  | .kill pid => do
    let r ← ProcTable.kill pid
    pure (.kill pid r)

/-- The table after `userinit`. -/
def userinit : Table where
  proc := update (fun _ => ⟨.unused, 0, none, false, none⟩) initproc ⟨.runnable, 1, none, false, none⟩
  nextpid := 2
  pos := fun _ => .user

/-- Does the step start a `fork`? -/
def Turn.isFork : Turn → Bool
  | .fork _ => true
  | _ => false

end Xv6Paging.ProcTable
