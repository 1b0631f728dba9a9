import Xv6Paging.Lib.Wp

/-! # The machine state

    The part of the kernel state that the memory-management code of this xv6
    reads and writes: the frame allocator (`kmem`), the contents of physical
    frames, page directories with their page tables, the per-process paging
    data of `struct proc`, and the swap files.

    Addresses, frame numbers and page numbers are natural numbers. A page
    directory is named by the frame that holds it, a `struct page_link *` is an
    index into `pages_meta_data` (`none` is the null pointer), and a pointer to a
    PTE is the number of the page it belongs to.

    Kernel code runs in `K`: it reads and writes the machine and may stop, by a
    `panic`, by following a null or wild pointer, or by looping for ever.
-/

namespace Xv6Paging

open Wp Function

/-! ## Constants of `mmu.h`, `memlayout.h`, `param.h`, `proc.h` and `fs.h` -/

def pgsize : Nat := 4096
def nptentries : Nat := 1024
def npdentries : Nat := 1024
def kernbase : Nat := 0x80000000
def phystop : Nat := 0xE000000
def devspace : Nat := 0xFE000000
def extmem : Nat := 0x100000
def maxPsycPages : Nat := 16
def maxTotalPages : Nat := 32
/-- Length of `available_Offsets`. -/
def swapSlots : Nat := 17
def bsize : Nat := 512
def maxfile : Nat := 140
def nfile : Nat := 100
def nproc : Nat := 64
/-- Physical frames, `PHYSTOP / PGSIZE`. -/
def nframes : Nat := 57344
/-- Pages of the user half of an address space, `KERNBASE / PGSIZE`. -/
def nuserPages : Nat := 524288
/-- `page_id` of an unused entry. -/
def noPage : Nat := 0xFFFFFFFF
/-- `offset_in_file` of a page without a slot, `-1` stored in a `uint`. -/
def noOffset : Nat := 0xFFFFFFFF

def pgrounddown (a : Nat) : Nat := a / pgsize * pgsize

/-- `PGROUNDUP` on 32-bit unsigned values. -/
def pgroundup (a : Nat) : Nat := (a + (pgsize - 1)) % 2 ^ 32 / pgsize * pgsize

/-- `PTE_ADDR` of a virtual address. -/
def pteAddr (a : Nat) : Nat := a / pgsize * pgsize

/-- Page number of an address; `PDX` and `PTX` are its two halves. -/
def vpn (va : Nat) : Nat := va / pgsize

/-- `PDX`. -/
def pdx (va : Nat) : Nat := va / pgsize / nptentries

@[simp] theorem pgsize_pos : 0 < pgsize := by decide

@[simp] theorem pgsize_mul_div (v : Nat) : pgsize * v / pgsize = v :=
  Nat.mul_div_cancel_left v pgsize_pos

@[simp] theorem pteAddr_mul (v : Nat) : pteAddr (pgsize * v) = pgsize * v := by
  rw [pteAddr, pgsize_mul_div, Nat.mul_comm]

@[simp] theorem vpn_mul (v : Nat) : vpn (pgsize * v) = v := pgsize_mul_div v

/-! ## Build-time parameters -/

/-- The page replacement schemes `SELECTION` can be set to. -/
inductive Selection where
  | NFUA
  | LAPA
  | SCFIFO
  | AQ
  | NONE
  | LIFO
  deriving DecidableEq, Repr

/-- What is fixed when the kernel is built and loaded. -/
structure Config where
  /-- `SELECTION`. -/
  selection : Selection
  /-- First frame that is not below `end`. -/
  kend : Nat
  /-- Frame of the linker symbol `data`. -/
  kdata : Nat
  /-- What the uninitialised local `pageFound` of `deallocuvm` holds. -/
  pageFound : Bool
  /-- Bound on the turns of the loops that follow the RAM list by rotating it,
      and on the retries of a faulting access. -/
  fuel : Nat

/-! ## Page tables -/

/-- A page table entry: the frame number and the flag bits the kernel uses. -/
structure Pte where
  frame : Nat
  p : Bool
  w : Bool
  u : Bool
  pg : Bool
  a : Bool
  cow : Bool
  deriving DecidableEq, Repr

/-- The cleared entry. -/
def Pte.zero : Pte := ⟨0, false, false, false, false, false, false⟩

/-- The permissions `PTE_W | PTE_U`. -/
def Pte.wu : Pte := ⟨0, false, true, true, false, false, false⟩

/-- `pa | perm | PTE_P`. -/
@[simps]
def Pte.mapTo (perm : Pte) (f : Nat) : Pte := { perm with frame := f, p := true }

/-- `PTE_P` cleared, `PTE_PG` set. -/
@[simps]
def Pte.pagedOut (pte : Pte) : Pte := { pte with p := false, pg := true }

/-- `PTE_PG` cleared, `PTE_P` set. -/
@[simps]
def Pte.pagedIn (pte : Pte) : Pte := { pte with pg := false, p := true }

@[simps]
def Pte.setA (pte : Pte) (b : Bool) : Pte := { pte with a := b }

@[simp] theorem Pte.pagedIn_mapTo_wu (f : Nat) : (Pte.wu.mapTo f).pagedIn = Pte.wu.mapTo f := rfl

/-- A page directory with its page tables. `table k` is the frame of the page
    table for directory slot `k`, `pte v` the entry of page `v`, which exists
    only where the table does. -/
structure PageDir where
  /-- The frame still holds this directory. -/
  live : Bool
  table : Nat → Option Nat
  pte : Nat → Pte

/-! ## Paging data of a process -/

/-- `enum pagestate`. -/
inductive PageState where
  | notUsed
  | inMemory
  | inDisk
  deriving DecidableEq, Repr

/-- `struct page_meta_data`. -/
structure PageMetaData where
  pageId : Nat
  state : PageState
  offsetInFile : Nat
  shiftCounter : BitVec 32
  index : Nat
  deriving DecidableEq, Repr

/-- `struct page_link`. -/
structure PageLink where
  page : PageMetaData
  next : Option Nat
  prev : Option Nat
  deriving DecidableEq, Repr

/-- The fields of `struct proc` that the paging code uses. -/
structure Proc where
  /-- The slot is not `UNUSED`. -/
  used : Bool
  sz : Nat
  pgdir : Nat
  kstack : Option Nat
  killed : Bool
  /-- `swapFile`, an index into `ftable`. -/
  swapFile : Option Nat
  pagesMetaData : Nat → PageLink
  pageListHeadRam : Option Nat
  numPagesRam : Nat
  numPagesDisk : Nat
  availableOffsets : Nat → Bool
  numOfPageFaults : Nat
  numOfPageOuts : Nat

/-! ## Memory and files -/

/-- The contents of a page or frame. -/
abbrev Page : Type := Fin 4096 → UInt8

/-- Byte `k` of a page, `0` past its end. -/
def Page.byte (pg : Page) (k : Nat) : UInt8 :=
  if h : k < 4096 then pg ⟨k, h⟩ else 0

theorem Page.byte_mod (pg : Page) (a : Nat) :
    pg.byte (a % pgsize) = pg ⟨a % pgsize, Nat.mod_lt a pgsize_pos⟩ :=
  dif_pos (Nat.mod_lt a pgsize_pos)

def Page.zero : Page := fun _ => 0

/-- What `kfree` leaves: `memset(v, 1, PGSIZE)`, under the list pointer. -/
def Page.freed : Page := fun _ => 1

/-- Size and bytes of a regular file. -/
structure Inode where
  size : Nat
  data : Nat → UInt8

def Inode.empty : Inode := ⟨0, fun _ => 0⟩

/-! ## The machine -/

structure Machine where
  /-- `kmem.freelist`, frame numbers from the head. -/
  freelist : List Nat
  /-- `kmem.referenceCounters`, of type `uint`. A mapping takes an entry of a page table, and a page
      table a frame of its own: a counter of mappings is below 2^26, and is not lowered at 0. -/
  referenceCounters : Nat → Nat
  /-- `kmem.use_lock`. -/
  useLock : Bool
  systemFreePages : Nat
  /-- Contents of the frames. -/
  mem : Nat → Page
  /-- Page directories by frame number. -/
  dirs : Nat → PageDir
  /-- Frames holding kernel stacks and pipes. -/
  kheld : Nat → Bool
  /-- Processes by pid. -/
  proc : Nat → Proc
  nextpid : Nat
  /-- Slots of `ptable` in use. -/
  slots : Nat
  /-- Reference counts of `ftable`. -/
  ftable : Nat → Nat
  /-- The file `/.swap<pid>`. -/
  swap : Nat → Inode
  /-- `global_pgdir`, `none` while `global_pgdir_flag` is `0`. -/
  globalPgdir : Option Nat
  /-- Spinlocks held by the running process, `mycpu()->ncli`. -/
  ncli : Nat
  /-- Calls of `begin_op` of the running process not yet matched by `end_op`. -/
  opDepth : Nat
  /-- History: `begin_op` was entered inside a transaction. -/
  nested : Bool
  /-- History: a fault on a paged-out page was taken under a spinlock. -/
  lockedFault : Bool

/-- Why kernel code does not return. -/
inductive Stop where
  | panic (msg : String)
  /-- A null pointer was followed. -/
  | nullDeref
  /-- A pointer outside the object it was made for was followed. -/
  | wild
  /-- A loop does not end. -/
  | diverge
  /-- The process was killed and leaves through `exit`. -/
  | killed
  deriving DecidableEq, Repr

/-- Kernel code. -/
abbrev K : Type → Type := EStateM Stop Machine

/-- Kernel code that works on one `struct proc` only. -/
abbrev P : Type → Type := EStateM Stop Proc

/-! ## Updates -/

namespace Machine

@[simps -fullyApplied]
def setProc (m : Machine) (p : Nat) (pr : Proc) : Machine :=
  { m with proc := update m.proc p pr }

@[simps -fullyApplied]
def setDir (m : Machine) (d : Nat) (dir : PageDir) : Machine :=
  { m with dirs := update m.dirs d dir }

@[simps -fullyApplied]
def setPte (m : Machine) (d v : Nat) (x : Pte) : Machine :=
  { m with
    dirs := update m.dirs d
      { m.dirs d with pte := update (m.dirs d).pte v x } }

@[simps -fullyApplied]
def setMem (m : Machine) (f : Nat) (pg : Page) : Machine :=
  { m with mem := update m.mem f pg }

@[simps -fullyApplied]
def setSwap (m : Machine) (p : Nat) (ip : Inode) : Machine :=
  { m with swap := update m.swap p ip }

@[simp] theorem setProc_self (m : Machine) (p : Nat) : m.setProc p (m.proc p) = m := by
  simp [setProc]

@[simp] theorem setProc_setProc (m : Machine) (p : Nat) (pr pr' : Proc) :
    (m.setProc p pr).setProc p pr' = m.setProc p pr' := by
  simp [setProc]

theorem setPte_setPte (m : Machine) (d v : Nat) (x y : Pte) :
    (m.setPte d v x).setPte d v y = m.setPte d v y := by
  simp [setPte]

end Machine

/-- Run code on process `p`. -/
def onProc {α : Type} (p : Nat) (x : P α) : K α :=
  onPart (fun m => m.proc p) (fun m pr => m.setProc p pr) x

/-! ## Accessors -/

def getProc (p : Nat) : K Proc := do
  let m ← get
  pure (m.proc p)

def modifyProc (p : Nat) (f : Proc → Proc) : K Unit :=
  modify fun m => m.setProc p (f (m.proc p))

/-- Read a PTE. -/
def getPte (d v : Nat) : K Pte := do
  let m ← get
  pure ((m.dirs d).pte v)

/-- Write a PTE. -/
def setPte (d v : Nat) (x : Pte) : K Unit :=
  modify fun m => m.setPte d v x

/-- The directory the swap code works on: `global_pgdir` while it is set. -/
def curDir (p : Nat) : K Nat := do
  let m ← get
  pure (m.globalPgdir.getD (m.proc p).pgdir)

/-! ## Rules for the accessors -/

section Rules

variable {m : Machine} {E : Stop → Machine → Prop}

@[simp] theorem wp_onProc {α : Type} (p : Nat) (x : P α) (Q : α → Machine → Prop) :
    wp (onProc p x) Q E m ↔
      wp x (fun a pr => Q a (m.setProc p pr)) (fun e pr => E e (m.setProc p pr)) (m.proc p) :=
  wp_onPart _ _ x Q E m

@[simp] theorem wp_getProc (p : Nat) (Q : Proc → Machine → Prop) :
    wp (getProc p) Q E m ↔ Q (m.proc p) m := Iff.rfl

@[simp] theorem wp_modifyProc (p : Nat) (f : Proc → Proc) (Q : Unit → Machine → Prop) :
    wp (modifyProc p f) Q E m ↔ Q () (m.setProc p (f (m.proc p))) := Iff.rfl

@[simp] theorem wp_getPte (d v : Nat) (Q : Pte → Machine → Prop) :
    wp (getPte d v) Q E m ↔ Q ((m.dirs d).pte v) m := Iff.rfl

@[simp] theorem wp_setPte (d v : Nat) (x : Pte) (Q : Unit → Machine → Prop) :
    wp (setPte d v x) Q E m ↔ Q () (m.setPte d v x) := Iff.rfl

@[simp] theorem wp_curDir (p : Nat) (Q : Nat → Machine → Prop) :
    wp (curDir p) Q E m ↔ Q (m.globalPgdir.getD (m.proc p).pgdir) m := Iff.rfl

end Rules

end Xv6Paging
