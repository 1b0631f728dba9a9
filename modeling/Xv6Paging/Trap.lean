import Xv6Paging.Uvm

/-! # Page faults and memory accesses (`trap.c`)

    The `T_PGFLT` branch of `trap`, what it does to the aging data of the
    process, and the memory accesses that lead to it: an access that the PTE
    does not permit traps and is tried again.
-/

namespace Xv6Paging

/-! ## Aging -/

/-- NFUA and LAPA: shift the counters of the pages from entry `tmp` on and take
    in their accessed bits. -/
def agingLoop (p : Nat) : Nat → Option Nat → K Unit
  | _, none => pure ()
  | 0, some _ => throw .diverge
  | fuel + 1, some tmp => do
    onProc p (setPage tmp fun page => { page with shiftCounter := page.shiftCounter >>> 1 })
    let lk ← onProc p (getLink tmp)
    let pr ← getProc p
    let a ← isPteA pr.pgdir lk.page.pageId
    if a = true then
      pteAOff pr.pgdir lk.page.pageId
      onProc p (setPage tmp fun page => { page with
        shiftCounter := page.shiftCounter ||| 0x80000000#32 })
    else
      pure ()
    let lk ← onProc p (getLink tmp)
    agingLoop p fuel lk.next

/-- AQ: the loop of `switchQueueAQ` at entry `i`. A page with its accessed bit
    set loses the bit and changes places with a successor that has none. -/
def switchQueueLoop (p d : Nat) : Nat → Nat → K Unit
  | 0, _ => throw .diverge
  | fuel + 1, i => do
    let li ← onProc p (getLink i)
    match li.next with
    | none => pteAOff d li.page.pageId
    | some j => do
      let a ← isPteA d li.page.pageId
      if a = true then
        pteAOff d li.page.pageId
        let lj ← onProc p (getLink j)
        let b ← isPteA d lj.page.pageId
        if b = true then
          switchQueueLoop p d fuel i
        else
          onProc p (exchangeLinks i j)
          switchQueueLoop p d fuel i
      else
        switchQueueLoop p d fuel j

def switchQueueAQ (c : Config) (p d : Nat) : K Unit := do
  let pr ← getProc p
  match pr.pageListHeadRam with
  | none => pure ()
  | some head => switchQueueLoop p d c.fuel head

def updateMetaData (c : Config) (p : Nat) : K Unit := do
  let pr ← getProc p
  match c.selection with
  | .LAPA => agingLoop p maxTotalPages pr.pageListHeadRam
  | .NFUA => agingLoop p maxTotalPages pr.pageListHeadRam
  | .AQ => switchQueueAQ c p pr.pgdir
  | _ => pure ()

/-! ## The page fault handler -/

/-- The label `pg_fault`: a fault of the kernel is a panic, a process is killed. -/
def pgFault (p : Nat) (user : Bool) : K Unit := do
  if user = true then
    modifyProc p Proc.kill
  else
    throw (.panic "trap")

/-- `PTE_COW` becomes `PTE_W`. -/
def Pte.own (pte : Pte) : Pte :=
  if pte.cow = true then { pte with cow := false, w := true } else pte

/-- The branch for a present page: a write to a shared or read-only page. -/
def cowFault (c : Config) (p va : Nat) (user : Bool) : K Unit := do
  let pr ← getProc p
  let pte ← getPte pr.pgdir (vpn va)
  let ref ← getRef pte.frame
  if ref = 1 then
    setPte pr.pgdir (vpn va) pte.own
  else if 1 < ref then
    match ← kalloc with
    | none => modifyProc p Proc.kill
    | some f =>
      let m ← get
      set (m.setMem f (m.mem pte.frame))
      setPte pr.pgdir (vpn va) { pte.own with frame := f }
    -- The count goes down whether or not the page was copied.
    decrementRef c pte.frame
  else
    pgFault p user

/-- The part of `trap` behind the aging code, on directory `d`. -/
def trapPage (c : Config) (p d va : Nat) (user : Bool) : K Unit := do
  let pte ← getPte d (vpn va)
  if pte.p = true then
    cowFault c p va user
  else if pte.pg = false then
    pgFault p user
  else
    modify fun m => { m with lockedFault := m.lockedFault || decide (0 < m.ncli) }
    let ok ← swapPages c p (pgrounddown va)
    if ok = true then pure () else pgFault p user

/-- `T_PGFLT` at address `va`, from user mode or from the kernel. -/
def trap (c : Config) (p va : Nat) (user : Bool) : K Unit := do
  modifyProc p Proc.countFault
  let pr ← getProc p
  let pte ← derefPte pr.pgdir va
  if pte.p = false ∧ (c.selection = .NONE ∨ p ≤ 2) then
    pgFault p user
  else
    if 2 < p then
      updateMetaData c p
    else
      pure ()
    trapPage c p pr.pgdir va user

/-! ## Memory accesses -/

/-- Does the hardware permit the access? The kernel needs no `PTE_U`, and
    `CR0_WP` makes it respect `PTE_W`. -/
def Pte.permits (pte : Pte) (user write : Bool) : Bool :=
  pte.p && (!user || pte.u) && (!write || pte.w)

/-- The PTE the hardware finds for `va` in the running process. -/
def Machine.userPte (m : Machine) (p va : Nat) : Pte :=
  let dir := m.dirs (m.proc p).pgdir
  if (dir.table (pdx va)).isSome then dir.pte (vpn va) else Pte.zero

/-- Access the byte at `va`, taking page faults until the PTE permits it. -/
def access (c : Config) (p va : Nat) (user write : Bool) : Nat → K Unit
  | 0 => throw .diverge
  | fuel + 1 => do
    let m ← get
    if (m.userPte p va).permits user write = true then
      pure ()
    else
      trap c p va user
      let pr ← getProc p
      if user = true ∧ pr.killed = true then
        throw .killed
      else
        access c p va user write fuel

/-- A load instruction of process `p`. -/
def userLoad (c : Config) (p va : Nat) : K UInt8 := do
  access c p va true false c.fuel
  let m ← get
  pure ((m.mem (m.userPte p va).frame).byte (va % pgsize))

/-- A page with one byte replaced. -/
def Page.set (pg : Page) (k : Nat) (b : UInt8) : Page := fun j => if j = k then b else pg j

/-- A store instruction of process `p`. -/
def userStore (c : Config) (p va : Nat) (b : UInt8) : K Unit := do
  access c p va true true c.fuel
  modify fun m =>
    m.setMem (m.userPte p va).frame ((m.mem (m.userPte p va).frame).set (va % pgsize) b)

/-- The hardware sets `PTE_A` of page `v`, if the page is present. -/
def hardwareA (p v : Nat) : K Unit := do
  let m ← get
  let pte := m.userPte p (v * pgsize)
  if pte.p = true then
    setPte (m.proc p).pgdir v (pte.setA true)
  else
    pure ()

end Xv6Paging
