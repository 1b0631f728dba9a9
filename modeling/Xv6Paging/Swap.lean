import Xv6Paging.PageTable
import Xv6Paging.SwapFile
import Xv6Paging.RamList

/-! # Moving pages between RAM and the swap file (`vm.c`, task 1)

    `moveToDisk` writes a page to the first free slot of the swap file and frees
    its frame, `getPageFromFile` reads a page back into a new frame, `swapPages`
    does both on a fault, and `choosePageToSwap` picks the page to evict.
-/

namespace Xv6Paging

/-! ## Moving one page -/

/-- Set or clear `PTE_P` and `PTE_PG` of a page that moves. -/
def setFlagsOnSwap (d va : Nat) (swapIn : Bool) : K Unit := do
  match ← walkpgdir d va false with
  | none => throw (.panic "setFlagsOnSwap: pte == 0\n")
  | some v =>
    let pte ← getPte d v
    if swapIn = true then
      setPte d v pte.pagedIn
    else
      setPte d v pte.pagedOut

/-- The bytes the running process `p` sees at the page of `va`. -/
def userPage (p va : Nat) : K Page := do
  let m ← get
  pure (m.mem ((m.dirs (m.proc p).pgdir).pte (vpn va)).frame)

/-- Write page `i` to the swap file; `false` is `-1`. -/
def movePageToFile (p i : Nat) : K Bool := do
  let d ← curDir p
  let lk ← onProc p (getLink i)
  match ← walkpgdir d lk.page.pageId false with
  | none => throw (.panic "movePageToFile: page doesn't exist\n")
  | some v =>
    let pte ← getPte d v
    if pte.p = true then
      let pr ← getProc p
      match pr.nextAvOffset with
      | none => throw (.panic "movePageToFile: swapFile is full!")
      | some offset =>
        let pg ← userPage p lk.page.pageId
        let ok ← writeToSwapFile p pg.byte (pgsize * offset) pgsize
        if ok = true then
          onProc p do
            setPage i fun page => { page with offsetInFile := pgsize * offset }
            setOffset offset true
            setPage i fun page => { page with state := .inDisk }
            modify fun pr => { pr with numPagesDisk := pr.numPagesDisk + 1 }
          pure true
        else
          pure false
    else
      throw (.panic "movePageToFile: page isn't present(2)\n")

/-- Move page `i` from RAM to the swap file; `false` is `-1`. -/
def moveToDisk (c : Config) (p i : Nat) : K Bool := do
  let d ← curDir p
  let ok ← movePageToFile p i
  if ok = true then
    modifyProc p Proc.countOut
    onProc p (removePageFromList i)
    let lk ← onProc p (getLink i)
    setFlagsOnSwap d lk.page.pageId false
    let pte ← getPte d (vpn lk.page.pageId)
    kfree c pte.frame
    modifyProc p Proc.lessRam
    pure true
  else
    pure false

/-- Overwrite the first `n` bytes of a page with file bytes from `off` on. -/
def Page.overwrite (pg : Page) (ip : Inode) (off n : Nat) : Page :=
  fun k => if k < n then ip.data (off + k) else pg k

/-- Read page `i` from the swap file into a new frame; `false` is `-1`. The
    test `offset_in_file < 0` of the source is never true of a `uint`. -/
def getPageFromFile (p i : Nat) : K Bool := do
  let lk ← onProc p (getLink i)
  let d ← curDir p
  match ← kalloc with
  | none => throw (.panic "getPageFromFile: kalloc out of memory\n")
  | some f =>
    -- The result of `mappages` is not looked at.
    let _ ← mappages d lk.page.pageId f Pte.wu
    match ← readFromSwapFile p lk.page.offsetInFile pgsize with
    | none => pure false
    | some n =>
      modify fun m => m.setMem f ((m.mem f).overwrite (m.swap p) lk.page.offsetInFile n)
      setFlagsOnSwap d lk.page.pageId true
      onProc p do
        setOffset (lk.page.offsetInFile / pgsize) false
        modify fun pr => { pr with
          numPagesRam := pr.numPagesRam + 1, numPagesDisk := pr.numPagesDisk - 1 }
        setPage i fun page => { page with offsetInFile := noOffset, state := .inMemory }
        addPageToList i
      pure true

/-- Forget page `i`, which `deallocuvm` has unmapped, and bring in a page from
    the swap file in its place. The entry stays in the RAM list. -/
def deletePage (p i : Nat) : K Unit := do
  onProc p do
    modify Proc.lessRam
    setPage i fun page => { page with
      pageId := noPage, state := .notUsed, offsetInFile := noOffset }
  let pr ← getProc p
  if 0 < pr.numPagesDisk then
    match pr.findState .inDisk with
    | none => pure ()
    | some j =>
      let _ ← getPageFromFile p j
      pure ()
  else
    pure ()

/-! ## Accessed bits -/

def isPteA (d va : Nat) : K Bool := do
  match ← walkpgdir d va false with
  | none => throw (.panic "is_PTE_A: fail")
  | some v =>
    let pte ← getPte d v
    pure pte.a

def pteAOff (d va : Nat) : K Unit := do
  match ← walkpgdir d va false with
  | none => throw (.panic "PTE_A_off: fail")
  | some v =>
    let pte ← getPte d v
    setPte d v (pte.setA false)

/-! ## Choosing a victim -/

/-- NFUA: the scan behind `tmp` for a user page with a smaller counter than `best`. -/
def nfuaLoop (p : Nat) : Nat → Nat → Nat → K Nat
  | 0, _, _ => throw .diverge
  | fuel + 1, tmp, best => do
    let lk ← onProc p (getLink tmp)
    match lk.next with
    | none => pure best
    | some nx => do
      let ln ← onProc p (getLink nx)
      let pr ← getProc p
      let pte ← derefPte pr.pgdir ln.page.pageId
      if pte.u = true then
        let lb ← onProc p (getLink best)
        if ln.page.shiftCounter < lb.page.shiftCounter then
          nfuaLoop p fuel nx nx
        else
          nfuaLoop p fuel nx best
      else
        nfuaLoop p fuel nx best

/-- LAPA: the scan behind `tmp`. The test meant to skip the low pages,
    `page_id >= 0 || page_id <= 0x2000`, holds of every unsigned `page_id`. -/
def lapaLoop (p : Nat) : Nat → Nat → Nat → Nat → K Nat
  | 0, _, _, _ => throw .diverge
  | fuel + 1, tmp, best, ones => do
    let lk ← onProc p (getLink tmp)
    match lk.next with
    | none => pure best
    | some nx => do
      let ln ← onProc p (getLink nx)
      if ln.page.pageId ≥ 0 ∨ ln.page.pageId ≤ 0x2000 then
        lapaLoop p fuel nx best ones
      else
        let cur := numOfOnes ln.page.shiftCounter
        let pr ← getProc p
        let pte ← derefPte pr.pgdir ln.page.pageId
        if pte.u = true then
          let lb ← onProc p (getLink best)
          if cur < ones ∨ (cur = ones ∧ ln.page.shiftCounter < lb.page.shiftCounter) then
            lapaLoop p fuel nx nx cur
          else
            lapaLoop p fuel nx best ones
        else
          lapaLoop p fuel nx best ones

/-- Move entry `i` to the end of the list and return the new head. -/
def rotate (p i : Nat) : K Nat := do
  onProc p (removePageFromList i)
  onProc p (addPageToList i)
  let pr ← getProc p
  match pr.pageListHeadRam with
  | none => throw .nullDeref
  | some head => pure head

/-- SCFIFO: second chance from entry `i` on. -/
def scfifoLoop (p d : Nat) : Nat → Nat → K Nat
  | 0, _ => throw .diverge
  | fuel + 1, i => do
    let lk ← onProc p (getLink i)
    let pr ← getProc p
    let pte ← derefPte pr.pgdir lk.page.pageId
    if pte.u = true then
      let a ← isPteA d lk.page.pageId
      if a = true then
        pteAOff d lk.page.pageId
        let head ← rotate p i
        scfifoLoop p d fuel head
      else
        pure i
    else
      let head ← rotate p i
      scfifoLoop p d fuel head

/-- The page to evict; `none` when no page is in the list. -/
def choosePageToSwap (c : Config) (p : Nat) : K (Option Nat) := do
  let pr ← getProc p
  let d ← curDir p
  match pr.pageListHeadRam with
  | none => pure none
  | some head =>
    match c.selection with
    | .LIFO => do
      let i ← onProc p (lastLink head)
      pure (some i)
    | .NFUA => do
      let i ← nfuaLoop p maxTotalPages head head
      pure (some i)
    | .LAPA => do
      let lk ← onProc p (getLink head)
      let i ← lapaLoop p maxTotalPages head head (numOfOnes lk.page.shiftCounter)
      pure (some i)
    | .SCFIFO => do
      let i ← scfifoLoop p d c.fuel head
      pure (some i)
    | .AQ => pure (some head)
    | .NONE => pure (some head)

/-- Bring the page at `addr` back into RAM in exchange for another; `false` is
    `-1`. The results of the two moves are not looked at. -/
def swapPages (c : Config) (p addr : Nat) : K Bool := do
  let out ← choosePageToSwap c p
  let pr ← getProc p
  match pr.findPage addr with
  | none => pure false
  | some j =>
    match out with
    | none => pure ()
    | some i => do
      let _ ← moveToDisk c p i
      pure ()
    let _ ← getPageFromFile p j
    pure true

end Xv6Paging
