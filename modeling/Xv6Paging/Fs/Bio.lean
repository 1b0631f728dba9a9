import Xv6Paging.Lib.Ring
import Xv6Paging.Lib.Holders
import Xv6Paging.Lib.Run
import Xv6Paging.Machine

/-! # The buffer cache

    `bget`, `bread`, `bwrite` and `brelse` of bio.c, `log_write`, and the disk driver with
    its queue of requests. Any number of callers run at the same time; a caller that waits
    for the lock of a buffer or for the disk lets the others go on, so the code between
    two places where it can wait is one step.

    A caller is an access to one block: a process that holds several buffers is several
    callers. Only the blocks of one device are used. What is in a block is of any type.
-/

namespace Xv6Paging.Bio

open Wp Run Function

/-- Buffers in the cache. -/
def nbuf : Nat := 30
/-- Blocks on the disk. -/
def fssize : Nat := 1000
def logsize : Nat := 30

/-- `struct buf *`: the head of the list, or a buffer. -/
inductive Node where
  | head
  | buf (b : Fin nbuf)
  deriving DecidableEq, Repr

/-- `struct buf`, without its links. -/
structure Buf (D : Type) (n : Nat) where
  /-- `B_VALID`. -/
  valid : Bool
  /-- `B_DIRTY`. -/
  dirty : Bool
  dev : Nat
  blockno : Nat
  /-- The owner of the sleep lock. -/
  lock : Option (Fin n)
  refcnt : Nat
  data : D

/-- What a caller does with the buffer that `bget` has found for it. -/
inductive Stage where
  /-- In `bget`, waiting for the lock of the buffer. -/
  | waiting
  /-- In `bread`, waiting for the disk. -/
  | reading
  /-- `bread` has returned the buffer. -/
  | holding
  /-- In `bwrite`, waiting for the disk. -/
  | writing
  /-- In `brelse`, after `releasesleep`. -/
  | releasing
  deriving DecidableEq, Repr

/-- How far a caller is. The block is the one it has asked `bread` for. -/
inductive Pos where
  | idle
  | access (stage : Stage) (b : Fin nbuf) (blockno : Nat)
  deriving DecidableEq, Repr

/-- The buffer that a caller has a reference to. -/
def Pos.buf : Pos → Option (Fin nbuf)
  | .idle => none
  | .access _ b _ => some b

/-- The buffer whose lock a caller has. -/
def Pos.locks : Pos → Option (Fin nbuf)
  | .access .reading b _ | .access .holding b _ | .access .writing b _ => some b
  | _ => none

/-- The device in use, whether the second disk is there, and the size of the log. -/
structure Config where
  dev : Nat
  havedisk1 : Bool
  logSize : Nat

/-- The cache, the driver, the disk, the header of the log, and `n` callers. -/
structure Sys (D : Type) (n : Nat) where
  buf : Fin nbuf → Buf D n
  next : Node → Node
  prev : Node → Node
  idequeue : List (Fin nbuf)
  disk : Nat → D
  /-- `log.lh.block`, up to `log.lh.n`. -/
  lh : List Nat
  outstanding : Nat
  pos : Fin n → Pos

variable {D : Type} {n : Nat}

abbrev M (D : Type) (n : Nat) : Type → Type := EStateM Stop (Sys D n)

namespace Sys

@[simps -fullyApplied]
def setBuf (s : Sys D n) (b : Fin nbuf) (x : Buf D n) : Sys D n := { s with buf := update s.buf b x }

@[simps -fullyApplied]
def move (s : Sys D n) (p : Fin n) (a : Pos) : Sys D n := { s with pos := update s.pos p a }

@[simps -fullyApplied]
def setLinks (s : Sys D n) (links : (Node → Node) × (Node → Node)) : Sys D n :=
  { s with next := links.1, prev := links.2 }

end Sys

/-- What a step has done to a block, which is named by the caller: it is the one asked for, whatever
    the buffer says. -/
inductive Event (D : Type) where
  /-- `bread` has returned these contents. -/
  | read (blockno : Nat) (data : D)
  /-- A caller has put these contents into its buffer, for `log_write` or `bwrite`. -/
  | written (blockno : Nat) (data : D)
  deriving DecidableEq

/-! ## The list of buffers -/

/-- A property of buffers on nodes. -/
def onBuf (p : Fin nbuf → Bool) : Node → Bool
  | .head => false
  | .buf b => p b

/-- The first buffer with property `p`, from the head in one of the two directions. -/
def findBuf (step : Node → Node) (p : Fin nbuf → Bool) : M D n (Option (Fin nbuf)) :=
  match Ring.scan step .head (onBuf p) nbuf (step .head) with
  | none => throw .diverge
  | some (some (.buf b)) => pure (some b)
  | some _ => pure none

/-- Look for a block; if it is not in the cache, take a buffer for it. The lock is acquired later. -/
def bget (c : Config) (blockno : Nat) : M D n (Fin nbuf) := do
  let s ← get
  match ← findBuf s.next fun b => (s.buf b).dev == c.dev && (s.buf b).blockno == blockno with
  | some b =>
    set (s.setBuf b { s.buf b with refcnt := (s.buf b).refcnt + 1 })
    pure b
  | none =>
    match ← findBuf s.prev fun b => (s.buf b).refcnt == 0 && !(s.buf b).dirty with
    | some b =>
      set (s.setBuf b { s.buf b with
        dev := c.dev, blockno := blockno, valid := false, dirty := false, refcnt := 1 })
      pure b
    | none => throw (.panic "bget: no buffers")

/-! ## The disk -/

def idestart (b : Fin nbuf) : M D n Unit := do
  let s ← get
  if fssize ≤ (s.buf b).blockno then
    throw (.panic "incorrect blockno")
  else
    pure ()

/-- Append a request; the driver is started if it has no other. -/
def enqueue (b : Fin nbuf) : M D n Unit := do
  let s ← get
  set { s with idequeue := s.idequeue ++ [b] }
  if s.idequeue = [] then
    idestart b
  else
    pure ()

/-- `iderw`, up to the place where it waits. -/
def iderw (c : Config) (p : Fin n) (b : Fin nbuf) : M D n Unit := do
  let s ← get
  if (s.buf b).lock ≠ some p then
    throw (.panic "iderw: buf not locked")
  else if (s.buf b).valid = true ∧ (s.buf b).dirty = false then
    throw (.panic "iderw: nothing to do")
  else if (s.buf b).dev ≠ 0 ∧ c.havedisk1 = false then
    throw (.panic "iderw: ide disk 1 not present")
  else
    enqueue b

/-- The disk has written or read the block of the first request. -/
def transfer (b : Fin nbuf) : M D n Unit := do
  let s ← get
  if (s.buf b).dirty = true then
    set ({ s with disk := update s.disk (s.buf b).blockno (s.buf b).data }.setBuf b
      { s.buf b with valid := true, dirty := false })
  else
    set (s.setBuf b { s.buf b with data := s.disk (s.buf b).blockno, valid := true })

/-- The interrupt at the end of a request. -/
def ideintr : M D n Unit := do
  let s ← get
  match s.idequeue with
  | [] => pure ()
  | b :: queue =>
    transfer b
    modify fun s => { s with idequeue := queue }
    match queue with
    | [] => pure ()
    | b' :: _ => idestart b'

/-! ## Callers -/

/-- `bread` after the lock of the buffer has been acquired. -/
def breadLocked (c : Config) (p : Fin n) (b : Fin nbuf) (blockno : Nat) : M D n (Option (Event D)) := do
  let s ← get
  if (s.buf b).valid = true then
    set (s.move p (.access .holding b blockno))
    pure (some (.read blockno (s.buf b).data))
  else
    iderw c p b
    modify fun s => s.move p (.access .reading b blockno)
    pure none

/-- A caller that waits for the lock of a buffer acquires it, if it is free. -/
def acquire (c : Config) (p : Fin n) : Pos → M D n (Option (Event D))
  | .access .waiting b blockno => do
    let s ← get
    if (s.buf b).lock = none then
      set (s.setBuf b { s.buf b with lock := some p })
      breadLocked c p b blockno
    else
      pure none
  | _ => pure none

/-- Is a request done? -/
def Buf.ready (x : Buf D n) : Bool := x.valid && !x.dirty

/-- A caller that waits for the disk goes on, if its request is done. -/
def wake (p : Fin n) : Pos → M D n (Option (Event D))
  | .access .reading b blockno => do
    let s ← get
    if (s.buf b).ready = true then
      set (s.move p (.access .holding b blockno))
      pure (some (.read blockno (s.buf b).data))
    else
      pure none
  | .access .writing b blockno => do
    let s ← get
    if (s.buf b).ready = true then
      set (s.move p (.access .holding b blockno))
      pure none
    else
      pure none
  | _ => pure none

/-- `log.lh` with a block more; a block that is there is absorbed. -/
def logBlock (lh : List Nat) (blockno : Nat) : List Nat := if blockno ∈ lh then lh else lh ++ [blockno]

/-- Modify a buffer and pin it with `log_write`. -/
def logWrite (c : Config) (data : D) : Pos → M D n (Option (Event D))
  | .access .holding b blockno => do
    let s ← get
    if logsize ≤ s.lh.length ∨ c.logSize - 1 ≤ s.lh.length then
      throw (.panic "too big a transaction")
    else if s.outstanding < 1 then
      throw (.panic "log_write outside of trans")
    else
      set ({ s with lh := logBlock s.lh (s.buf b).blockno }.setBuf b { s.buf b with data := data, dirty := true })
      pure (some (.written blockno data))
  | _ => pure none

/-- Modify a buffer and write it with `bwrite`, up to where that waits. -/
def bwrite (c : Config) (p : Fin n) (data : D) : Pos → M D n (Option (Event D))
  | .access .holding b blockno => do
    let s ← get
    if (s.buf b).lock ≠ some p then
      throw (.panic "bwrite")
    else
      set (s.setBuf b { s.buf b with data := data, dirty := true })
      iderw c p b
      modify fun s => s.move p (.access .writing b blockno)
      pure (some (.written blockno data))
  | _ => pure none

/-- `brelse`, up to `releasesleep`. -/
def unlock (p : Fin n) : Pos → M D n (Option (Event D))
  | .access .holding b blockno => do
    let s ← get
    if (s.buf b).lock ≠ some p then
      throw (.panic "brelse")
    else
      set ((s.setBuf b { s.buf b with lock := none }).move p (.access .releasing b blockno))
      pure none
  | _ => pure none

/-- Take a buffer out of the list and put it in front. -/
def moveToFront (b : Fin nbuf) : M D n Unit := do
  let s ← get
  let links := Ring.unlink s.next s.prev (.buf b)
  set (s.setLinks (Ring.pushFront links.1 links.2 .head (.buf b)))

/-- The rest of `brelse`. -/
def put (p : Fin n) : Pos → M D n (Option (Event D))
  | .access .releasing b _ => do
    let s ← get
    set ((s.setBuf b { s.buf b with refcnt := (s.buf b).refcnt - 1 }).move p .idle)
    if (s.buf b).refcnt - 1 = 0 then
      moveToFront b
      pure none
    else
      pure none
  | _ => pure none

/-! ## The system -/

inductive Turn (D : Type) (n : Nat) where
  /-- An idle caller calls `bread`. -/
  | bread (p : Fin n) (blockno : Nat)
  | acquire (p : Fin n)
  | wake (p : Fin n)
  | logWrite (p : Fin n) (data : D)
  | bwrite (p : Fin n) (data : D)
  | brelse (p : Fin n)
  | put (p : Fin n)
  | ideintr
  /-- What `begin_op`, `end_op` and `commit` do to the log. -/
  | log (lh : List Nat) (outstanding : Nat)

/-- A step; one that cannot be taken does nothing. -/
def Turn.exec (c : Config) : Turn D n → M D n (Option (Event D))
  | .bread p blockno => do
    let s ← get
    if s.pos p = .idle then
      let b ← bget c blockno
      modify fun s => s.move p (.access .waiting b blockno)
      pure none
    else
      pure none
  | .acquire p => do
    let s ← get
    Bio.acquire c p (s.pos p)
  | .wake p => do
    let s ← get
    Bio.wake p (s.pos p)
  | .logWrite p data => do
    let s ← get
    Bio.logWrite c data (s.pos p)
  | .bwrite p data => do
    let s ← get
    Bio.bwrite c p data (s.pos p)
  | .brelse p => do
    let s ← get
    unlock p (s.pos p)
  | .put p => do
    let s ← get
    Bio.put p (s.pos p)
  | .ideintr => do
    Bio.ideintr
    pure none
  | .log lh outstanding => do
    modify fun s => { s with lh := lh, outstanding := outstanding }
    pure none

/-- `binit` of a zeroed cache: the buffers are put behind the head one by one. -/
def binitLinks (l : List (Fin nbuf)) : (Node → Node) × (Node → Node) :=
  l.foldl (fun links b => Ring.pushFront links.1 links.2 .head (.buf b)) (fun _ => .head, fun _ => .head)

/-- The state after `binit`, with everybody idle. -/
def binit (zero : D) (disk : Nat → D) (n : Nat) : Sys D n where
  buf := fun _ => ⟨false, false, 0, 0, none, 0, zero⟩
  next := (binitLinks (List.finRange nbuf)).1
  prev := (binitLinks (List.finRange nbuf)).2
  idequeue := []
  disk := disk
  lh := []
  outstanding := 0
  pos := fun _ => .idle

end Xv6Paging.Bio
