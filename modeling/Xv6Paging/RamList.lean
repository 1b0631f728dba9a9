import Xv6Paging.Machine

/-! # The RAM list and the page metadata array

    `pages_meta_data` is an array of `MAX_TOTAL_PAGES` entries; the entries of
    pages in memory are threaded into a doubly linked list that starts at
    `page_list_head_ram`. The functions here are those of `vm.c` and `proc.c`
    that only touch this data.
-/

namespace Xv6Paging

/-! ## Entries -/

/-- Follow a `struct page_link *`. -/
def getLink (i : Nat) : P PageLink := do
  if i < maxTotalPages then
    let pr ← get
    pure (pr.pagesMetaData i)
  else
    throw .wild

def Proc.setLink (pr : Proc) (i : Nat) (lk : PageLink) : Proc :=
  { pr with pagesMetaData := Function.update pr.pagesMetaData i lk }

def Proc.setNext (pr : Proc) (i : Nat) (x : Option Nat) : Proc :=
  pr.setLink i { pr.pagesMetaData i with next := x }

def Proc.setPrev (pr : Proc) (i : Nat) (x : Option Nat) : Proc :=
  pr.setLink i { pr.pagesMetaData i with prev := x }

def Proc.setPage (pr : Proc) (i : Nat) (f : PageMetaData → PageMetaData) : Proc :=
  pr.setLink i { pr.pagesMetaData i with page := f (pr.pagesMetaData i).page }

def Proc.setHead (pr : Proc) (x : Option Nat) : Proc := { pr with pageListHeadRam := x }

/-- Write through a `struct page_link *`. -/
def writeLink (i : Nat) (f : Proc → Proc) : P Unit := do
  if i < maxTotalPages then
    modify f
  else
    throw .wild

def setNext (i : Nat) (x : Option Nat) : P Unit := writeLink i fun pr => pr.setNext i x

def setPrev (i : Nat) (x : Option Nat) : P Unit := writeLink i fun pr => pr.setPrev i x

def setPage (i : Nat) (f : PageMetaData → PageMetaData) : P Unit :=
  writeLink i fun pr => pr.setPage i f

def setHead (x : Option Nat) : P Unit := modify fun pr => pr.setHead x

/-- First entry that satisfies a test, as the scans over the array find it. -/
def Proc.findLink (pr : Proc) (test : PageMetaData → Bool) : Option Nat :=
  (List.range maxTotalPages).find? fun i => test (pr.pagesMetaData i).page

/-- First entry of page `id`. -/
def Proc.findPage (pr : Proc) (id : Nat) : Option Nat := pr.findLink fun pg => pg.pageId == id

/-- First entry in a given state. -/
def Proc.findState (pr : Proc) (st : PageState) : Option Nat := pr.findLink fun pg => pg.state == st

/-! ## The list -/

/-- `while (i->next != 0) i = i->next`. More turns than the array has entries
    would come back to an entry already passed. -/
def lastLinkFrom : Nat → Nat → P Nat
  | 0, _ => throw .diverge
  | fuel + 1, i => do
    let lk ← getLink i
    match lk.next with
    | none => pure i
    | some j => lastLinkFrom fuel j

def lastLink (i : Nat) : P Nat := lastLinkFrom maxTotalPages i

def removePageFromList (pageToRemove : Nat) : P Unit := do
  let lk ← getLink pageToRemove
  match lk.prev with
  | none => do
    setHead lk.next
    match lk.next with
    | none => pure ()
    | some nextPage => setPrev nextPage none
  | some previousPage => do
    setNext previousPage lk.next
    let pl ← getLink previousPage
    match pl.next with
    | none => pure ()
    | some nextPage => setPrev nextPage (some previousPage)
  setPrev pageToRemove none
  setNext pageToRemove none

/-- Append to the list. On an empty list the first branch falls through: the
    entry, already the head, is linked behind itself as well. -/
def addPageToList (pageToAdd : Nat) : P Unit := do
  let pr ← get
  match pr.pageListHeadRam with
  | some _ => pure ()
  | none => do
    setHead (some pageToAdd)
    setNext pageToAdd none
    setPrev pageToAdd none
  let pr ← get
  match pr.pageListHeadRam with
  | none => throw .nullDeref
  | some head => do
    let lastPage ← lastLink head
    setNext lastPage (some pageToAdd)
    setPrev pageToAdd (some lastPage)
    setNext pageToAdd none

/-- `if (x != 0) f(x)`. -/
def ifSome (x : Option Nat) (f : Nat → P Unit) : P Unit :=
  match x with
  | none => pure ()
  | some t => f t

/-- The exchange inside `switchQueueAQ`: entry `i` changes places with its successor `j`. -/
def exchangeLinks (i j : Nat) : P Unit := do
  let li ← getLink i
  let lj ← getLink j
  let pr ← get
  setHead (if li.prev = none then some j else pr.pageListHeadRam)
  setPrev i (some j)
  setNext i lj.next
  setPrev j li.prev
  setNext j (some i)
  ifSome li.prev fun t => setNext t (some j)
  ifSome lj.next fun t => setPrev t (some i)

/-- `shiftCounter` of a page that enters RAM through `addPageToRam`. -/
def Config.initCounter (c : Config) : BitVec 32 :=
  if c.selection = .LAPA then 0xFFFFFFFF#32 else 0#32

/-- The fields `addPageToRam` writes at the end, whatever entry it chose. -/
def recordPage (c : Config) (i addr index : Nat) : P Unit := do
  setNext i none
  setPage i fun _ => {
    pageId := pteAddr addr
    index := index
    state := .inMemory
    offsetInFile := noOffset
    shiftCounter := c.initCounter }
  modify fun pr => { pr with numPagesRam := pr.numPagesRam + 1 }

/-- Record a new page in RAM: entry `0` when the list is empty, else an entry of
    the same page, else the first unused one, behind the last page of the list. -/
def addPageToRam (c : Config) (addr : Nat) : P Unit := do
  let pr ← get
  match pr.pageListHeadRam with
  | none => do
    setHead (some 0)
    recordPage c 0 addr 0
  | some head => do
    let lastPage ← lastLink head
    let i := ((pr.findPage (pteAddr addr)).orElse fun _ => pr.findState .notUsed).getD maxTotalPages
    setNext lastPage (some i)
    setPrev i (some lastPage)
    recordPage c i addr i

/-! ## Initialisation -/

/-- An entry as `init_meta_data` leaves it; only NFUA and LAPA write the counter. -/
def PageLink.init (c : Config) (i : Nat) (old : PageLink) : PageLink where
  page := {
    pageId := noPage
    offsetInFile := noOffset
    state := .notUsed
    index := i
    shiftCounter :=
      match c.selection with
      | .NFUA => 0#32
      | .LAPA => 0xFFFFFFFF#32
      | _ => old.page.shiftCounter }
  next := none
  prev := none

def Proc.initMetaData (c : Config) (pr : Proc) : Proc := { pr with
  swapFile := none
  pageListHeadRam := none
  numPagesDisk := 0
  numPagesRam := 0
  numOfPageFaults := 0
  numOfPageOuts := 0
  availableOffsets := fun s => if s < swapSlots then false else pr.availableOffsets s
  pagesMetaData := fun i =>
    if i < maxTotalPages then PageLink.init c i (pr.pagesMetaData i) else pr.pagesMetaData i }

/-! ## Counters -/

def Proc.countOut (pr : Proc) : Proc := { pr with numOfPageOuts := pr.numOfPageOuts + 1 }

def Proc.countFault (pr : Proc) : Proc := { pr with numOfPageFaults := pr.numOfPageFaults + 1 }

def Proc.lessRam (pr : Proc) : Proc := { pr with numPagesRam := pr.numPagesRam - 1 }

def Proc.kill (pr : Proc) : Proc := { pr with killed := true }

/-! ## Swap slots -/

/-- First free slot of the swap file. -/
def Proc.nextAvOffset (pr : Proc) : Option Nat :=
  (List.range swapSlots).find? fun s => !pr.availableOffsets s

/-- Write an element of `available_Offsets`. -/
def setOffset (s : Nat) (b : Bool) : P Unit := do
  if s < swapSlots then
    modify fun pr => { pr with availableOffsets := Function.update pr.availableOffsets s b }
  else
    throw .wild

/-- Clear entry `i` of a page that `deallocuvm` finds in the swap file. -/
def dropDiskPage (i : Nat) : P Unit := do
  modify fun pr => { pr with numPagesDisk := pr.numPagesDisk - 1 }
  let lk ← getLink i
  setOffset (lk.page.offsetInFile / pgsize) false
  setPage i fun page => { page with
    pageId := noPage, offsetInFile := noOffset, state := .notUsed }

/-! ## Bits of a counter -/

/-- `numOfOnes`: the loop over the 32 bits. -/
def numOfOnesLoop : Nat → BitVec 32 → Nat → Nat
  | 0, _, counter => counter
  | i + 1, x, counter => numOfOnesLoop i (x >>> 1) (if x &&& 1#32 > 0#32 then counter + 1 else counter)

def numOfOnes (shiftCounter : BitVec 32) : Nat := numOfOnesLoop 32 shiftCounter 0

end Xv6Paging
