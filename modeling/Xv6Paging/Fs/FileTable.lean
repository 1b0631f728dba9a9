import Xv6Paging.Lib.Holders
import Xv6Paging.Lib.Run
import Xv6Paging.Machine

/-! # The open-file table (`file.c`, `pipe.c`, `sysfile.c`, `proc.c`, `exec.c`)

    Every `struct file` of `ftable` is counted by its `ref`: the descriptors of all
    processes refer to it, and besides them the swap file of a process. This module
    models the file table, the descriptors and `swapFile` of each slot of `ptable`, and
    the system calls as far as they take and give back references. What the calls do
    elsewhere enters as a parameter: whether a path can be opened, whether memory is
    left, whether a growing address space makes the kernel evict a page.

    `exec` resets the paging data of its process with `init_meta_data`, which clears
    `swapFile` without closing the file. For a process that has swapped before, the
    reference is lost.
-/

namespace Xv6Paging.FileTable

open List Wp Holders Function

variable {fd i q : Nat} {v : Option Nat} {c : Config}

/-! ## State -/

/-- `NOFILE`. -/
def nofile : Nat := 16

/-- `enum procstate`; `runnable` stands for `SLEEPING`, `RUNNABLE` and `RUNNING`. -/
inductive ProcState where
  | unused
  | embryo
  | runnable
  | zombie
  deriving DecidableEq, Repr

/-- The fields of `struct proc` that matter here. -/
structure Proc where
  state : ProcState
  pid : Nat
  ofile : Nat → Option Nat
  swapFile : Option Nat

structure State where
  /-- `ftable.file[i].ref`. -/
  ref : Nat → Nat
  /-- The slots of `ptable`. -/
  proc : Nat → Proc
  /-- An `int`, which `fork` compares with 2. References are counted right whichever way it goes. -/
  nextpid : Nat

abbrev F : Type → Type := EStateM Stop State

namespace State

@[simps -fullyApplied]
def setRef (s : State) (i k : Nat) : State := { s with ref := update s.ref i k }

@[simps -fullyApplied]
def setProc (s : State) (q : Nat) (p : Proc) : State := { s with proc := update s.proc q p }

end State

@[simps -fullyApplied]
def Proc.setFd (p : Proc) (fd : Nat) (f : Option Nat) : Proc :=
  { p with ofile := update p.ofile fd f }

@[simps -fullyApplied]
def Proc.setSwapFile (p : Proc) (f : Option Nat) : Proc := { p with swapFile := f }

@[simps -fullyApplied]
def Proc.setState (p : Proc) (st : ProcState) : Proc := { p with state := st }

def modifyProc (q : Nat) (g : Proc → Proc) : F Unit :=
  modify fun s => s.setProc q (g (s.proc q))

/-! ## `file.c` -/

/-- First entry with no reference. -/
def State.firstFree (s : State) : Option Nat := (List.range nfile).find? fun i => s.ref i == 0

def filealloc : F (Option Nat) := do
  let s ← get
  match s.firstFree with
  | none => pure none
  | some i =>
    set (s.setRef i 1)
    pure (some i)

def filedup (i : Nat) : F Unit := do
  let s ← get
  if s.ref i < 1 then
    throw (.panic "filedup")
  else
    set (s.setRef i (s.ref i + 1))

/-- The last reference also closes the pipe or releases the inode. -/
def fileclose (i : Nat) : F Unit := do
  let s ← get
  if s.ref i < 1 then
    throw (.panic "fileclose")
  else
    set (s.setRef i (s.ref i - 1))

/-! ## System calls on descriptors -/

/-- `argfd`: the file of a descriptor. -/
def argfd (q fd : Nat) : F (Option Nat) := do
  let s ← get
  pure (if fd < nofile then (s.proc q).ofile fd else none)

/-- First unused descriptor. -/
def Proc.freeFd (p : Proc) : Option Nat := (List.range nofile).find? fun fd => (p.ofile fd).isNone

def fdalloc (q f : Nat) : F (Option Nat) := do
  let s ← get
  match (s.proc q).freeFd with
  | none => pure none
  | some fd =>
    set (s.setProc q ((s.proc q).setFd fd (some f)))
    pure (some fd)

/-- `sys_open`; `found` tells whether the path leads to an inode that can be opened as
    asked. -/
def sysOpen (q : Nat) (found : Bool) : F (Option Nat) := do
  if found = true then
    match ← filealloc with
    | none => pure none
    | some f =>
      match ← fdalloc q f with
      | none =>
        fileclose f
        pure none
      | some fd => pure (some fd)
  else
    pure none

/-- `mem` tells whether there is a frame for the buffer of the pipe. -/
def pipealloc (mem : Bool) : F (Option (Nat × Nat)) := do
  match ← filealloc with
  | none => pure none
  | some f0 =>
    match ← filealloc with
    | none =>
      fileclose f0
      pure none
    | some f1 =>
      if mem = true then
        pure (some (f0, f1))
      else
        fileclose f0
        fileclose f1
        pure none

def sysPipe (q : Nat) (mem : Bool) : F (Option Nat) := do
  match ← pipealloc mem with
  | none => pure none
  | some (rf, wf) =>
    match ← fdalloc q rf with
    | none =>
      fileclose rf
      fileclose wf
      pure none
    | some fd0 =>
      match ← fdalloc q wf with
      | none =>
        modifyProc q fun p => p.setFd fd0 none
        fileclose rf
        fileclose wf
        pure none
      | some _ => pure (some fd0)

def sysDup (q fd : Nat) : F (Option Nat) := do
  match ← argfd q fd with
  | none => pure none
  | some f =>
    match ← fdalloc q f with
    | none => pure none
    | some fd' =>
      filedup f
      pure (some fd')

def sysClose (q fd : Nat) : F (Option Nat) := do
  match ← argfd q fd with
  | none => pure none
  | some f =>
    modifyProc q fun p => p.setFd fd none
    fileclose f
    pure (some 0)

/-! ## Swap files -/

def createSwapFile (q : Nat) : F Unit := do
  match ← filealloc with
  | none => throw (.panic "no slot for files on /store")
  | some i => modifyProc q fun p => p.setSwapFile (some i)

/-- The file is closed; `swapFile` keeps its value. -/
def removeSwapFile (q : Nat) : F Unit := do
  let s ← get
  match (s.proc q).swapFile with
  | none => pure ()
  | some i => fileclose i

/-- What an eviction in `allocuvm` does to the file table: the process gets a swap file
    if it has none. -/
def evictions (c : Config) (q : Nat) (evicts : Bool) : F Unit := do
  let s ← get
  if evicts = true ∧ c.selection ≠ .NONE ∧ 2 < (s.proc q).pid ∧ (s.proc q).swapFile = none then
    createSwapFile q
  else
    pure ()

/-- The part of `init_meta_data` that concerns files. -/
def initMetaData (q : Nat) : F Unit := modifyProc q fun p => p.setSwapFile none

/-! ## Processes -/

/-- `sbrk`. -/
def growproc (c : Config) (q : Nat) (evicts : Bool) : F (Option Nat) := do
  evictions c q evicts
  pure (some 0)

/-- The part of `deepCopyProc` that concerns files. -/
def deepCopyProc (father child : Nat) : F Unit := do
  let s ← get
  if (s.proc father).swapFile ≠ none ∧ (s.proc child).swapFile = none then
    createSwapFile child
  else
    pure ()

/-- The loop of `fork` over the descriptors. -/
def dupFiles (q np : Nat) : List Nat → F Unit
  | [] => pure ()
  | fd :: fds => do
    let s ← get
    match (s.proc q).ofile fd with
    | none => dupFiles q np fds
    | some f =>
      filedup f
      modifyProc np fun p => p.setFd fd (some f)
      dupFiles q np fds

/-- `stack` tells whether there is a frame for the kernel stack. -/
def allocproc (c : Config) (stack : Bool) : F (Option Nat) := do
  let s ← get
  match (List.range nproc).find? fun np => decide ((s.proc np).state = .unused) with
  | none => pure none
  | some np =>
    set ({ s with nextpid := s.nextpid + 1 }.setProc np
      { s.proc np with state := .embryo, pid := s.nextpid })
    if stack = true then
      if c.selection ≠ .NONE ∧ 2 < s.nextpid then
        initMetaData np
        pure (some np)
      else
        pure (some np)
    else
      modifyProc np fun p => p.setState .unused
      pure none

/-- The step of `fork` that copies the paging data of a paged process. -/
def copyPagingData (c : Config) (q np : Nat) : F Unit := do
  let s ← get
  if c.selection ≠ .NONE ∧ 2 < (s.proc q).pid then
    deepCopyProc q np
  else
    pure ()

/-- `space` tells whether `copyuvm` finds memory for the address space. -/
def fork (c : Config) (q : Nat) (stack space : Bool) : F (Option Nat) := do
  match ← allocproc c stack with
  | none => pure none
  | some np =>
    if space = true then
      copyPagingData c q np
      dupFiles q np (List.range nofile)
      modifyProc np fun p => p.setState .runnable
      let s ← get
      pure (some (s.proc np).pid)
    else
      modifyProc np fun p => p.setState .unused
      pure none

/-- An `exec` that succeeds. -/
def exec (c : Config) (q : Nat) (evicts : Bool) : F (Option Nat) := do
  if c.selection ≠ .NONE then
    initMetaData q
  else
    pure ()
  evictions c q evicts
  let s ← get
  if c.selection ≠ .NONE ∧ (s.proc q).swapFile ≠ none then
    removeSwapFile q
    createSwapFile q
  else
    pure ()
  pure (some 0)

/-- The loop of `exit` over the descriptors. -/
def closeFiles (q : Nat) : List Nat → F Unit
  | [] => pure ()
  | fd :: fds => do
    let s ← get
    match (s.proc q).ofile fd with
    | none => closeFiles q fds
    | some f =>
      fileclose f
      modifyProc q fun p => p.setFd fd none
      closeFiles q fds

/-- `initproc` is the first slot. -/
def exit (c : Config) (q : Nat) : F (Option Nat) := do
  if q = 0 then
    throw (.panic "init exiting")
  else
    closeFiles q (List.range nofile)
    let s ← get
    if (s.proc q).swapFile ≠ none ∧ c.selection ≠ .NONE then
      removeSwapFile q
      modifyProc q fun p => p.setSwapFile none
    else
      pure ()
    modifyProc q fun p => p.setState .zombie
    pure none

/-- `wait` finds slot `np` to be a zombie child. -/
def wait (np : Nat) : F (Option Nat) := do
  let s ← get
  if (s.proc np).state = .zombie then
    set (s.setProc np { s.proc np with state := .unused, pid := 0 })
    pure (some (s.proc np).pid)
  else
    pure none

/-- System calls of the process in slot `q`. -/
inductive FileOp where
  | open (q : Nat) (found : Bool)
  | pipe (q : Nat) (mem : Bool)
  | dup (q fd : Nat)
  | close (q fd : Nat)
  | sbrk (q : Nat) (evicts : Bool)
  | fork (q : Nat) (stack space : Bool)
  | exec (q : Nat) (evicts : Bool)
  | exit (q : Nat)
  | wait (q np : Nat)
  deriving DecidableEq, Repr

def FileOp.slot : FileOp → Nat
  | .open q _ | .pipe q _ | .dup q _ | .close q _ | .sbrk q _ | .fork q _ _ | .exec q _
  | .exit q | .wait q _ => q

def FileOp.run (c : Config) : FileOp → F (Option Nat)
  | .open q found => sysOpen q found
  | .pipe q mem => sysPipe q mem
  | .dup q fd => sysDup q fd
  | .close q fd => sysClose q fd
  | .sbrk q evicts => growproc c q evicts
  | .fork q stack space => FileTable.fork c q stack space
  | .exec q evicts => FileTable.exec c q evicts
  | .exit q => FileTable.exit c q
  | .wait _ np => FileTable.wait np

/-- Calls come from processes that run. -/
def FileOp.Called (op : FileOp) (s : State) : Prop :=
  op.slot < nproc ∧ (s.proc op.slot).state = .runnable

/-- `exec` is only called by a process without a swap file. -/
def FileOp.NoSwapFileLost (c : Config) (op : FileOp) (s : State) : Prop :=
  match op with
  | .exec q _ => c.selection = .NONE ∨ (s.proc q).swapFile = none
  | _ => True

instance (op : FileOp) (s : State) : Decidable (op.Called s) :=
  inferInstanceAs (Decidable (_ ∧ _))

instance (c : Config) (op : FileOp) (s : State) : Decidable (op.NoSwapFileLost c s) := by
  cases op <;> unfold FileOp.NoSwapFileLost <;> infer_instance

/-! ## References -/

/-- What refers to open files. -/
inductive Owner where
  | ofile (q fd : Nat)
  | swapFile (q : Nat)
  deriving DecidableEq, Repr

def State.target (s : State) : Owner → Option Nat
  | .ofile q fd => (s.proc q).ofile fd
  | .swapFile q => (s.proc q).swapFile

/-- Descriptors of all processes. -/
def descriptors : Finset (Nat × Nat) := Finset.range nproc ×ˢ Finset.range nofile

def owners : Finset Owner :=
  descriptors.image (fun x => .ofile x.1 x.2) ∪ (Finset.range nproc).image .swapFile

theorem mem_owners_ofile : Owner.ofile q fd ∈ owners ↔ q < nproc ∧ fd < nofile := by
  simp [owners, descriptors]

theorem mem_owners_swapFile : Owner.swapFile q ∈ owners ↔ q < nproc := by
  simp [owners]

/-- Descriptors that refer to file `i`. -/
def State.ofileRefs (s : State) (i : Nat) : Nat :=
  (descriptors.filter fun x => (s.proc x.1).ofile x.2 = some i).card

/-- Processes whose swap file is file `i`. -/
def State.swapFileRefs (s : State) (i : Nat) : Nat :=
  ((Finset.range nproc).filter fun q => (s.proc q).swapFile = some i).card

theorem holders_owners (s : State) (i : Nat) :
    holders owners s.target i = s.ofileRefs i + s.swapFileRefs i := by
  unfold owners State.ofileRefs State.swapFileRefs
  generalize descriptors = D
  generalize Finset.range nproc = R
  have hdisj : Disjoint ((D.image fun x => Owner.ofile x.1 x.2).filter fun u => s.target u = some i)
      ((R.image Owner.swapFile).filter fun u => s.target u = some i) := by
    rw [Finset.disjoint_left]
    intro u hu hu'
    obtain ⟨x, _, rfl⟩ := Finset.mem_image.mp (Finset.mem_filter.mp hu).1
    obtain ⟨q, _, hq⟩ := Finset.mem_image.mp (Finset.mem_filter.mp hu').1
    exact nomatch hq
  have hfd : Function.Injective fun x : Nat × Nat => Owner.ofile x.1 x.2 := by
    intro x y h
    have hxy := Owner.ofile.inj h
    exact Prod.ext hxy.1 hxy.2
  have hswap : Function.Injective Owner.swapFile := fun _ _ h => Owner.swapFile.inj h
  unfold holders
  rw [Finset.filter_union, Finset.card_union_of_disjoint hdisj, Finset.filter_image,
    Finset.filter_image, Finset.card_image_of_injective _ hfd, Finset.card_image_of_injective _ hswap]
  rfl

attribute [irreducible] owners

/-- The counters are exact, but for the references in `flight`, which the running code
    holds in local variables. -/
def Exact (s : State) (flight : List Nat) : Prop :=
  ∃ free, Balanced (· < nfile) owners (fun _ => False) s.target s.ref free flight

section Exact

variable {s : State} {flight : List Nat} {f : Nat}

theorem target_setFd (hu : u ≠ .ofile q fd) : (s.setProc q ((s.proc q).setFd fd v)).target u = s.target u := by
  cases u with
  | ofile q' fd' =>
    by_cases hq : q' = q
    · subst hq
      have hfd : fd' ≠ fd := fun he => hu (by rw [he])
      simp [State.target, hfd]
    · simp [State.target, hq]
  | swapFile q' =>
    by_cases hq : q' = q
    · subst hq
      simp [State.target]
    · simp [State.target, hq]

theorem target_setSwapFile (hu : u ≠ .swapFile q) :
    (s.setProc q ((s.proc q).setSwapFile v)).target u = s.target u := by
  cases u with
  | ofile q' fd' =>
    by_cases hq : q' = q
    · subst hq
      simp [State.target]
    · simp [State.target, hq]
  | swapFile q' =>
    have hq : q' ≠ q := fun he => hu (by rw [he])
    simp [State.target, hq]

/-- What a slot is besides its files does not matter. -/
theorem target_setProc (ho : p.ofile = (s.proc q).ofile)
    (hs : p.swapFile = (s.proc q).swapFile) : (s.setProc q p).target = s.target := by
  funext u
  cases u with
  | ofile q' fd' =>
    by_cases hq : q' = q
    · subst hq
      simp [State.target, ho]
    · simp [State.target, hq]
  | swapFile q' =>
    by_cases hq : q' = q
    · subst hq
      simp [State.target, hs]
    · simp [State.target, hq]

theorem Exact.of_target (h : Exact s flight) (hr : s'.ref = s.ref)
    (ht : s'.target = s.target) : Exact s' flight := by
  obtain ⟨free, hb⟩ := h
  exact ⟨free, by rwa [hr, ht]⟩

theorem Exact.ref_pos (h : Exact s (f :: flight)) : 0 < s.ref f := by
  obtain ⟨free, hb⟩ := h
  exact hb.refs_pos_of_flight mem_cons_self

theorem Exact.ref_pos_of_fd (h : Exact s flight) (hq : q < nproc) (hfd : fd < nofile)
    (hf : (s.proc q).ofile fd = some f) : 0 < s.ref f := by
  obtain ⟨free, hb⟩ := h
  exact hb.refs_pos (mem_owners_ofile.mpr ⟨hq, hfd⟩) hf

theorem Exact.alloc (h : Exact s flight) (hf : s.firstFree = some f) :
    Exact (s.setRef f 1) (f :: flight) := by
  obtain ⟨free, hb⟩ := h
  have hlt : f < nfile := mem_range.mp (mem_of_find?_eq_some hf)
  have hzero : s.ref f = 0 := by simpa using find?_some hf
  have hmem : f ∈ free := hb.free_iff.mpr ⟨hlt, hzero⟩
  exact ⟨free.erase f, (hb.perm (perm_cons_erase hmem)).take⟩

/-- A reference is given up. -/
theorem Exact.close (h : Exact s (f :: flight)) : Exact (s.setRef f (s.ref f - 1)) flight := by
  obtain ⟨free, hb⟩ := h
  exact ⟨_, hb.drop⟩

/-- The order of the references in flight does not matter. -/
theorem Exact.swap (h : Exact s (f :: g :: flight)) : Exact s (g :: f :: flight) := by
  obtain ⟨free, hb⟩ := h
  have hperm : (f :: g :: flight).Perm (g :: f :: flight) := .swap g f flight
  exact ⟨free, hb.perm_flight hperm⟩

/-- A descriptor is duplicated. -/
theorem Exact.dup (h : Exact s flight) (hq : q < nproc) (hfd : fd < nofile)
    (hf : (s.proc q).ofile fd = some f) : Exact (s.setRef f (s.ref f + 1)) (f :: flight) := by
  obtain ⟨free, hb⟩ := h
  exact ⟨free, hb.share (mem_owners_ofile.mpr ⟨hq, hfd⟩) hf not_false⟩

theorem Exact.putFd (h : Exact s (f :: flight)) (hq : q < nproc) (hfd : fd < nofile)
    (hold : (s.proc q).ofile fd = none) :
    Exact (s.setProc q ((s.proc q).setFd fd (some f))) flight := by
  obtain ⟨free, hb⟩ := h
  have hu : Owner.ofile q fd ∈ owners := mem_owners_ofile.mpr ⟨hq, hfd⟩
  exact ⟨free, hb.put hu hold (by simp [State.target]) (fun w _ hw => target_setFd hw) False.elim⟩

theorem Exact.liftFd (h : Exact s flight) (hq : q < nproc) (hfd : fd < nofile)
    (hold : (s.proc q).ofile fd = some f) :
    Exact (s.setProc q ((s.proc q).setFd fd none)) (f :: flight) := by
  obtain ⟨free, hb⟩ := h
  have hu : Owner.ofile q fd ∈ owners := mem_owners_ofile.mpr ⟨hq, hfd⟩
  exact ⟨free, hb.lift hu hold (by simp [State.target]) fun w _ hw => target_setFd hw⟩

theorem Exact.putSwapFile (h : Exact s (f :: flight)) (hq : q < nproc)
    (hold : (s.proc q).swapFile = none) :
    Exact (s.setProc q ((s.proc q).setSwapFile (some f))) flight := by
  obtain ⟨free, hb⟩ := h
  have hu : Owner.swapFile q ∈ owners := mem_owners_swapFile.mpr hq
  exact ⟨free, hb.put hu hold (by simp [State.target]) (fun w _ hw => target_setSwapFile hw) False.elim⟩

theorem Exact.liftSwapFile (h : Exact s flight) (hq : q < nproc)
    (hold : (s.proc q).swapFile = some f) :
    Exact (s.setProc q ((s.proc q).setSwapFile none)) (f :: flight) := by
  obtain ⟨free, hb⟩ := h
  have hu : Owner.swapFile q ∈ owners := mem_owners_swapFile.mpr hq
  exact ⟨free, hb.lift hu hold (by simp [State.target]) fun w _ hw => target_setSwapFile hw⟩

end Exact

/-! ## The functions of `file.c` -/

/-- Stops other than the panics that complain about a file without references. -/
def NotRefPanic (e : Stop) : Prop := e ≠ .panic "filedup" ∧ e ≠ .panic "fileclose"

section Rules

variable {s : State} {E : Stop → State → Prop} {f : Nat}

theorem wp_filealloc (Q : Option Nat → State → Prop) :
    wp filealloc Q E s ↔ (s.firstFree = none → Q none s) ∧
      ∀ i, s.firstFree = some i → Q (some i) (s.setRef i 1) := by
  simp only [filealloc, wp_bind, wp_get]
  cases h : s.firstFree with
  | none => simp
  | some i => simp

theorem wp_fdalloc (Q : Option Nat → State → Prop) :
    wp (fdalloc q f) Q E s ↔ ((s.proc q).freeFd = none → Q none s) ∧
      ∀ fd, (s.proc q).freeFd = some fd →
        Q (some fd) (s.setProc q ((s.proc q).setFd fd (some f))) := by
  simp only [fdalloc, wp_bind, wp_get]
  cases h : (s.proc q).freeFd with
  | none => simp
  | some i => simp

theorem wp_fileclose (Q : Unit → State → Prop) (hpos : 0 < s.ref f) :
    wp (fileclose f) Q E s ↔ Q () (s.setRef f (s.ref f - 1)) := by
  have hno : s.ref f ≠ 0 := by omega
  simp [fileclose, wp_bind, wp_get, wp_ite, hno]

theorem wp_filedup (Q : Unit → State → Prop) (hpos : 0 < s.ref f) :
    wp (filedup f) Q E s ↔ Q () (s.setRef f (s.ref f + 1)) := by
  have hno : s.ref f ≠ 0 := by omega
  simp [filedup, wp_bind, wp_get, wp_ite, hno]

theorem Proc.freeFd_spec {p : Proc} (h : p.freeFd = some fd) :
    fd < nofile ∧ p.ofile fd = none := by
  refine ⟨mem_range.mp (mem_of_find?_eq_some h), ?_⟩
  simpa using find?_some h

end Rules

/-! ## Slots -/

/-- A slot without files. -/
def Proc.Idle (p : Proc) : Prop := (∀ fd < nofile, p.ofile fd = none) ∧ p.swapFile = none

/-- The state between system calls: counters are exact, slots that no process runs in have
    no files, and without paging nobody has a swap file. -/
structure Inv (c : Config) (s : State) : Prop where
  exact : Exact s []
  idle : ∀ q < nproc, (s.proc q).state ≠ .runnable → (s.proc q).Idle
  noSwap : c.selection = .NONE → ∀ q < nproc, (s.proc q).swapFile = none

/-- Only files of slot `q` have changed. -/
structure Touches (c : Config) (q : Nat) (s s' : State) : Prop where
  others : ∀ r, r ≠ q → s'.proc r = s.proc r
  state : (s'.proc q).state = (s.proc q).state
  swapFile : c.selection = .NONE → (s'.proc q).swapFile = (s.proc q).swapFile

section Touches

variable {s s' s'' : State}

theorem Touches.refl (c : Config) (q : Nat) (s : State) : Touches c q s s :=
  ⟨fun _ _ => rfl, rfl, fun _ => rfl⟩

theorem Touches.of_proc (h : s'.proc = s.proc) : Touches c q s s' :=
  ⟨fun r _ => by rw [h], by rw [h], fun _ => by rw [h]⟩

section Touches

variable (h : Touches c q s s')

include h

theorem Touches.trans (h' : Touches c q s' s'') : Touches c q s s'' where
  others := fun r hr => (h'.others r hr).trans (h.others r hr)
  state := h'.state.trans h.state
  swapFile := fun hc => (h'.swapFile hc).trans (h.swapFile hc)

theorem Touches.setRef {k : Nat} : Touches c q s (s'.setRef i k) :=
  ⟨h.others, h.state, h.swapFile⟩

theorem Touches.setProc {p : Proc} (hst : p.state = (s'.proc q).state)
    (hsw : c.selection = .NONE → p.swapFile = (s'.proc q).swapFile) : Touches c q s (s'.setProc q p) where
  others := by
    intro r hr
    rw [State.setProc_proc, update_of_ne hr]
    exact h.others r hr
  state := by
    rw [State.setProc_proc, update_self, hst]
    exact h.state
  swapFile := by
    intro hc
    rw [State.setProc_proc, update_self, hsw hc]
    exact h.swapFile hc

theorem Touches.setFd : Touches c q s (s'.setProc q ((s'.proc q).setFd fd v)) :=
  h.setProc rfl fun _ => rfl

theorem Touches.setSwapFile (hc : c.selection ≠ .NONE) : Touches c q s (s'.setProc q ((s'.proc q).setSwapFile v)) :=
  h.setProc rfl fun hn => absurd hn hc

end Touches

/-- A running process only touches its own slot. -/
theorem Inv.touches (h : Inv c s) (hrun : (s.proc q).state = .runnable) (he : Exact s' [])
    (ht : Touches c q s s') : Inv c s' where
  exact := he
  idle := by
    intro r hr hstate
    by_cases hrq : r = q
    · subst hrq
      exact absurd (ht.state.trans hrun) hstate
    · rw [ht.others r hrq] at hstate ⊢
      exact h.idle r hr hstate
  noSwap := by
    intro hc r hr
    by_cases hrq : r = q
    · subst hrq
      exact (ht.swapFile hc).trans (h.noSwap hc r hr)
    · rw [ht.others r hrq]
      exact h.noSwap hc r hr

end Touches

/-! ## Calls on descriptors -/

section Calls

variable {s : State}

/-- What a call of the process in slot `q` leaves. -/
def Kept (c : Config) (q : Nat) (s : State) : Option Nat → State → Prop :=
  fun _ s' => Exact s' [] ∧ Touches c q s s'

theorem sysOpen_kept (found : Bool) (h : Exact s []) (hq : q < nproc) :
    wp (sysOpen q found) (Kept c q s) noStop s := by
  have hr := Touches.refl c q s
  simp only [sysOpen, wp_ite, wp_pure]
  refine ⟨fun _ => ?_, fun _ => ⟨h, hr⟩⟩
  rw [wp_bind, wp_filealloc]
  refine ⟨fun _ => ⟨h, hr⟩, fun f hf => ?_⟩
  have h1 := h.alloc hf
  dsimp only
  rw [wp_bind, wp_fdalloc]
  refine ⟨fun _ => ?_, fun fd hfd => ?_⟩
  · dsimp only
    rw [wp_bind, wp_fileclose _ h1.ref_pos]
    exact ⟨h1.close, hr.setRef.setRef⟩
  · obtain ⟨hlt, hnone⟩ := Proc.freeFd_spec hfd
    exact ⟨h1.putFd hq hlt hnone, hr.setRef.setFd⟩

/-- The two files of a pipe are both in flight, or none is. -/
theorem pipealloc_exact (mem : Bool) (h : Exact s []) :
    wp (pipealloc mem) (fun r s' => s'.proc = s.proc ∧
      Exact s' (match r with | none => [] | some (f0, f1) => [f0, f1])) noStop s := by
  simp only [pipealloc, wp_bind]
  rw [wp_filealloc]
  refine ⟨fun _ => ⟨rfl, h⟩, fun f0 hf0 => ?_⟩
  have h1 := h.alloc hf0
  dsimp only
  rw [wp_bind, wp_filealloc]
  refine ⟨fun _ => ?_, fun f1 hf1 => ?_⟩
  · dsimp only
    rw [wp_bind, wp_fileclose _ h1.ref_pos]
    exact ⟨rfl, h1.close⟩
  · have h2 := (h1.alloc hf1).swap
    dsimp only
    rw [wp_ite]
    refine ⟨fun _ => ⟨rfl, h2⟩, fun _ => ?_⟩
    rw [wp_bind, wp_fileclose _ h2.ref_pos, wp_bind, wp_fileclose _ h2.close.ref_pos]
    exact ⟨rfl, h2.close.close⟩

theorem sysPipe_kept (mem : Bool) (h : Exact s []) (hq : q < nproc) :
    wp (sysPipe q mem) (Kept c q s) noStop s := by
  simp only [sysPipe, wp_bind]
  refine wp_post (pipealloc_exact mem h) ?_
  rintro (_ | ⟨rf, wf⟩) s1 ⟨hproc, h1⟩
  · exact ⟨h1, Touches.of_proc hproc⟩
  have hr : Touches c q s s1 := Touches.of_proc hproc
  dsimp only at h1 ⊢
  rw [wp_bind, wp_fdalloc]
  refine ⟨fun _ => ?_, fun fd0 hfd0 => ?_⟩
  · dsimp only
    rw [wp_bind, wp_fileclose _ h1.ref_pos, wp_bind, wp_fileclose _ h1.close.ref_pos]
    exact ⟨h1.close.close, hr.setRef.setRef⟩
  · obtain ⟨hlt0, hnone0⟩ := Proc.freeFd_spec hfd0
    have h2 := h1.putFd hq hlt0 hnone0
    have hr2 : Touches c q s (s1.setProc q ((s1.proc q).setFd fd0 (some rf))) := hr.setFd
    have hheld : ((s1.setProc q ((s1.proc q).setFd fd0 (some rf))).proc q).ofile fd0 = some rf := by
      simp
    dsimp only
    rw [wp_bind, wp_fdalloc]
    refine ⟨fun _ => ?_, fun fd1 hfd1 => ?_⟩
    · -- The descriptor is taken back before both files are closed.
      have h3 := h2.liftFd hq hlt0 hheld
      simp only [modifyProc, wp_bind, wp_modify]
      rw [wp_fileclose _ h3.ref_pos, wp_fileclose _ h3.close.ref_pos]
      exact ⟨h3.close.close, hr2.setFd.setRef.setRef⟩
    · obtain ⟨hlt1, hnone1⟩ := Proc.freeFd_spec hfd1
      exact ⟨h2.putFd hq hlt1 hnone1, hr2.setFd⟩

theorem sysDup_kept (fd : Nat) (h : Exact s []) (hq : q < nproc) :
    wp (sysDup q fd) (Kept c q s) noStop s := by
  have hr := Touches.refl c q s
  simp only [sysDup, argfd, wp_bind, wp_get, wp_pure]
  cases hf : (if fd < nofile then (s.proc q).ofile fd else none) with
  | none => exact ⟨h, hr⟩
  | some f =>
    obtain ⟨hlt, hold⟩ : fd < nofile ∧ (s.proc q).ofile fd = some f := by
      split at hf
      · exact ⟨‹_›, hf⟩
      · cases hf
    have hpos := h.ref_pos_of_fd hq hlt hold
    dsimp only
    rw [wp_bind, wp_fdalloc]
    refine ⟨fun _ => ⟨h, hr⟩, fun fd' hfd' => ?_⟩
    obtain ⟨hlt', hnone'⟩ := Proc.freeFd_spec hfd'
    dsimp only
    have hpos' : 0 < (s.setProc q ((s.proc q).setFd fd' (some f))).ref f := hpos
    rw [wp_bind, wp_filedup _ hpos']
    -- The count is raised after the descriptor is set; in the end it does not matter.
    exact ⟨(h.dup hq hlt hold).putFd hq hlt' hnone', hr.setFd.setRef⟩

theorem sysClose_kept (fd : Nat) (h : Exact s []) (hq : q < nproc) :
    wp (sysClose q fd) (Kept c q s) noStop s := by
  have hr := Touches.refl c q s
  simp only [sysClose, argfd, wp_bind, wp_get, wp_pure]
  cases hf : (if fd < nofile then (s.proc q).ofile fd else none) with
  | none => exact ⟨h, hr⟩
  | some f =>
    obtain ⟨hlt, hold⟩ : fd < nofile ∧ (s.proc q).ofile fd = some f := by
      split at hf
      · exact ⟨‹_›, hf⟩
      · cases hf
    have h1 := h.liftFd hq hlt hold
    simp only [modifyProc, wp_bind, wp_modify]
    rw [wp_fileclose _ h1.ref_pos]
    exact ⟨h1.close, hr.setFd.setRef⟩

end Calls

/-! ## Swap files -/

section SwapFiles

variable {s : State}

/-- `createSwapFile` does not look at the old value of `swapFile`. -/
theorem createSwapFile_kept (hc : c.selection ≠ .NONE) (hq : q < nproc)
    (h : Exact (s.setProc q ((s.proc q).setSwapFile none)) []) :
    wp (createSwapFile q) (fun _ s' => Exact s' [] ∧ Touches c q s s' ∧ (s'.proc q).ofile = (s.proc q).ofile)
      (fun e _ => NotRefPanic e) s := by
  simp only [createSwapFile, wp_bind]
  rw [wp_filealloc]
  refine ⟨fun _ => ?_, fun i hi => ?_⟩
  · exact ⟨by decide, by decide⟩
  · have h1 := (h.alloc (f := i) hi).putSwapFile (q := q) hq (by simp)
    simp only [modifyProc, wp_modify]
    refine ⟨?_, (Touches.refl c q s).setRef.setSwapFile hc, by simp⟩
    simpa [State.setProc, State.setRef, Proc.setSwapFile] using h1

theorem evictions_kept (evicts : Bool) (h : Exact s []) (hq : q < nproc) :
    wp (evictions c q evicts) (fun _ s' => Exact s' [] ∧ Touches c q s s') (fun e _ => NotRefPanic e) s := by
  simp only [evictions, wp_bind, wp_get, wp_ite, wp_pure]
  refine ⟨fun hcond => ?_, fun _ => ⟨h, .refl c q s⟩⟩
  obtain ⟨_, hc, _, hnone⟩ := hcond
  have hsame : Exact (s.setProc q ((s.proc q).setSwapFile none)) [] :=
    h.of_target rfl (target_setProc rfl hnone.symm)
  refine wp_post (createSwapFile_kept hc hq hsame) ?_
  rintro _ s' ⟨he, ht, _⟩
  exact ⟨he, ht⟩

/-- The old swap file is closed before the pointer is replaced. -/
theorem Exact.closeSwapFile (h : Exact s []) (hq : q < nproc) (hi : (s.proc q).swapFile = some i) :
    0 < s.ref i ∧
      Exact ((s.setRef i (s.ref i - 1)).setProc q ((s.proc q).setSwapFile none)) [] := by
  have h1 := h.liftSwapFile hq hi
  exact ⟨h1.ref_pos, h1.close⟩

theorem growproc_kept (evicts : Bool) (h : Exact s []) (hq : q < nproc) :
    wp (growproc c q evicts) (Kept c q s) (fun e _ => NotRefPanic e) s := by
  simp only [growproc, wp_bind, wp_pure]
  exact evictions_kept evicts h hq

theorem exec_kept (evicts : Bool) (h : Exact s []) (hq : q < nproc)
    (hnone : c.selection = .NONE ∨ (s.proc q).swapFile = none) :
    wp (exec c q evicts) (Kept c q s) (fun e _ => NotRefPanic e) s := by
  by_cases hc : c.selection = .NONE
  · simp only [exec, evictions, wp_bind, wp_get, wp_ite, wp_pure, hc]
    simp [Kept, h, Touches.refl]
  · have hnone := hnone.resolve_left hc
    simp only [exec, initMetaData, modifyProc, wp_bind, wp_get, wp_ite, wp_modify, wp_pure]
    refine ⟨fun _ => ?_, fun hn => absurd hc hn⟩
    have h1 : Exact (s.setProc q ((s.proc q).setSwapFile none)) [] :=
      h.of_target rfl (target_setProc rfl hnone.symm)
    have hr : Touches c q s (s.setProc q ((s.proc q).setSwapFile none)) :=
      (Touches.refl c q s).setSwapFile hc
    refine wp_post (evictions_kept evicts h1 hq) ?_
    rintro _ s2 ⟨h2, hr2⟩
    refine ⟨fun hsome => ?_, fun _ => ⟨h2, hr.trans hr2⟩⟩
    obtain ⟨i, hi⟩ := Option.ne_none_iff_exists'.mp hsome.2
    obtain ⟨hpos, h3⟩ := h2.closeSwapFile hq hi
    simp only [removeSwapFile, wp_bind, wp_get, hi]
    rw [wp_fileclose _ hpos]
    refine wp_post (createSwapFile_kept hc hq h3) ?_
    rintro _ s4 ⟨h4, hr4, _⟩
    exact ⟨h4, (hr.trans hr2).trans ((Touches.refl c q s2).setRef.trans hr4)⟩

end SwapFiles

/-! ## `exit`, `wait` and `fork` -/

section Processes

variable {np : Nat} {s : State}

theorem closeFiles_kept (fds : List Nat) (h : Exact s []) (hq : q < nproc)
    (hlt : ∀ fd ∈ fds, fd < nofile) : wp (closeFiles q fds) (fun _ s' => Exact s' [] ∧
      (∀ r, r ≠ q → s'.proc r = s.proc r) ∧ (s'.proc q).swapFile = (s.proc q).swapFile ∧
      ∀ fd, (s'.proc q).ofile fd = if fd ∈ fds then none else (s.proc q).ofile fd) noStop s := by
  induction fds generalizing s with
  | nil => exact ⟨h, fun _ _ => rfl, rfl, fun _ => rfl⟩
  | cons fd fds ih =>
    have hrest : ∀ fd' ∈ fds, fd' < nofile := fun fd' hfd' => hlt fd' (mem_cons_of_mem fd hfd')
    simp only [closeFiles, wp_bind, wp_get]
    cases hold : (s.proc q).ofile fd with
    | none =>
      refine wp_post (ih h hrest) ?_
      rintro _ s' ⟨he, hoth, hsw, hfds⟩
      refine ⟨he, hoth, hsw, fun fd' => ?_⟩
      rw [hfds fd']
      by_cases hfd' : fd' = fd
      · subst hfd'
        simp [hold]
      · simp [hfd']
    | some f =>
      have h1 := h.liftFd hq (hlt fd mem_cons_self) hold
      have hpos : 0 < s.ref f := h1.ref_pos
      simp only [modifyProc, wp_bind, wp_modify]
      rw [wp_fileclose _ hpos]
      refine wp_post (ih h1.close hrest) ?_
      rintro _ s' ⟨he, hoth, hsw, hfds⟩
      refine ⟨he, fun r hr => ?_, ?_, fun fd' => ?_⟩
      · rw [hoth r hr]
        simp [hr]
      · rw [hsw]
        simp
      · rw [hfds fd']
        by_cases hfd' : fd' = fd
        · subst hfd'
          simp
        · simp [hfd']

theorem exit_inv (h : Inv c s) (hq : q < nproc) :
    wp (exit c q) (fun _ s' => Inv c s') (fun e _ => NotRefPanic e) s := by
  simp only [exit, wp_ite, wp_throw]
  refine ⟨fun _ => ⟨by decide, by decide⟩, fun _ => ?_⟩
  simp only [wp_bind, wp_get, wp_ite, wp_pure, modifyProc, wp_modify]
  refine wp_mono (closeFiles_kept (List.range nofile) h.exact hq fun _ => mem_range.mp) ?_
    fun _ _ hf => hf.elim
  rintro _ s1 ⟨h1, hoth, hsw, hfds⟩
  have hclosed : ∀ fd < nofile, (s1.proc q).ofile fd = none := by
    intro fd hfd
    rw [hfds fd, if_pos (mem_range.mpr hfd)]
  -- The slot of a zombie has no files left.
  have hdone : ∀ s2 : State, Exact s2 [] → (∀ r, r ≠ q → s2.proc r = s1.proc r) →
      (s2.proc q).ofile = (s1.proc q).ofile → (s2.proc q).swapFile = none →
      Inv c (s2.setProc q ((s2.proc q).setState .zombie)) := by
    intro s2 h2 hoth2 hof2 hsw2
    refine ⟨h2.of_target rfl (target_setProc rfl rfl), ?_, ?_⟩
    · intro r hr hstate
      by_cases hrq : r = q
      · subst hrq
        simp only [State.setProc_proc, update_self]
        exact ⟨fun fd hfd => by rw [Proc.setState_ofile, hof2]; exact hclosed fd hfd, hsw2⟩
      · rw [State.setProc_proc, update_of_ne hrq, hoth2 r hrq, hoth r hrq] at hstate ⊢
        exact h.idle r hr hstate
    · intro hc r hr
      by_cases hrq : r = q
      · subst hrq
        simp [hsw2]
      · rw [State.setProc_proc, update_of_ne hrq, hoth2 r hrq, hoth r hrq]
        exact h.noSwap hc r hr
  refine ⟨fun hsome => ?_, fun hno => ?_⟩
  · obtain ⟨i, hi⟩ := Option.ne_none_iff_exists'.mp hsome.1
    obtain ⟨hpos, h2⟩ := h1.closeSwapFile hq hi
    simp only [removeSwapFile, wp_bind, wp_get, hi]
    rw [wp_fileclose _ hpos]
    refine hdone _ h2 (fun r hr => ?_) ?_ ?_
    · simp [hr]
    · simp
    · simp
  · refine hdone s1 h1 (fun _ _ => rfl) rfl ?_
    by_contra hsw'
    have hc : c.selection = .NONE := by
      by_contra hc
      exact hno ⟨hsw', hc⟩
    exact hsw' (hsw.trans (h.noSwap hc q hq))

theorem wait_inv (h : Inv c s) : wp (wait np) (fun _ s' => Inv c s') noStop s := by
  simp only [wait, wp_bind, wp_get, wp_ite, wp_set, wp_pure]
  refine ⟨fun hz => ?_, fun _ => h⟩
  refine ⟨h.exact.of_target rfl (target_setProc rfl rfl), ?_, ?_⟩
  · intro r hr hstate
    by_cases hrn : r = np
    · subst hrn
      rw [State.setProc_proc, update_self]
      exact h.idle r hr (by rw [hz]; decide)
    · rw [State.setProc_proc, update_of_ne hrn] at hstate ⊢
      exact h.idle r hr hstate
  · intro hc r hr
    by_cases hrn : r = np
    · subst hrn
      rw [State.setProc_proc, update_self]
      exact h.noSwap hc r hr
    · rw [State.setProc_proc, update_of_ne hrn]
      exact h.noSwap hc r hr

theorem dupFiles_kept (fds : List Nat) (h : Exact s []) (hq : q < nproc) (hnp : np < nproc)
    (hlt : ∀ fd ∈ fds, fd < nofile) (hnd : fds.Nodup)
    (hfree : ∀ fd ∈ fds, (s.proc np).ofile fd = none) :
    wp (dupFiles q np fds) (fun _ s' => Exact s' [] ∧ Touches c np s s') noStop s := by
  induction fds generalizing s with
  | nil => exact ⟨h, .refl c np s⟩
  | cons fd fds ih =>
    obtain ⟨hnew, hnd'⟩ := nodup_cons.mp hnd
    have hlt' : ∀ fd' ∈ fds, fd' < nofile := fun fd' hfd' => hlt fd' (mem_cons_of_mem fd hfd')
    have hfree' : ∀ fd' ∈ fds, (s.proc np).ofile fd' = none :=
      fun fd' hfd' => hfree fd' (mem_cons_of_mem fd hfd')
    have hfd : fd < nofile := hlt fd mem_cons_self
    simp only [dupFiles, wp_bind, wp_get]
    cases hold : (s.proc q).ofile fd with
    | none => exact ih h hlt' hnd' hfree'
    | some f =>
      have h1 := (h.dup hq hfd hold).putFd hnp hfd (hfree fd mem_cons_self)
      simp only [modifyProc, wp_bind, wp_modify]
      rw [wp_filedup _ (h.ref_pos_of_fd hq hfd hold)]
      refine wp_post (ih h1 hlt' hnd' fun fd' hfd' => ?_) ?_
      · have hne' : fd' ≠ fd := fun he => hnew (he ▸ hfd')
        simp [hne', hfree' fd' hfd']
      · rintro _ s' ⟨he, ht⟩
        exact ⟨he, (Touches.refl c np s).setRef.setFd.trans ht⟩

/-- A slot changes, but none of its files; it may only start to run. -/
theorem Inv.setProc {p : Proc} (h : Inv c s) (ho : p.ofile = (s.proc np).ofile)
    (hs : p.swapFile = (s.proc np).swapFile) (hidle : p.Idle) : Inv c (s.setProc np p) where
  exact := h.exact.of_target rfl (target_setProc ho hs)
  idle := by
    intro r hr hstate
    by_cases hrn : r = np
    · subst hrn
      rwa [State.setProc_proc, update_self]
    · rw [State.setProc_proc, update_of_ne hrn] at hstate ⊢
      exact h.idle r hr hstate
  noSwap := by
    intro hc r hr
    by_cases hrn : r = np
    · subst hrn
      rw [State.setProc_proc, update_self]
      exact hidle.2
    · rw [State.setProc_proc, update_of_ne hrn]
      exact h.noSwap hc r hr

/-- A slot that is being filled starts to run. -/
theorem Inv.start (h : Inv c s) (he : Exact s' []) (ht : Touches c np s s')
    : Inv c (s'.setProc np ((s'.proc np).setState .runnable)) where
  exact := he.of_target rfl (target_setProc rfl rfl)
  idle := by
    intro r hr hstate
    by_cases hrn : r = np
    · subst hrn
      rw [State.setProc_proc, update_self] at hstate
      exact absurd rfl hstate
    · rw [State.setProc_proc, update_of_ne hrn, ht.others r hrn] at hstate ⊢
      exact h.idle r hr hstate
  noSwap := by
    intro hc r hr
    by_cases hrn : r = np
    · subst hrn
      rw [State.setProc_proc, update_self]
      exact (ht.swapFile hc).trans (h.noSwap hc r hr)
    · rw [State.setProc_proc, update_of_ne hrn, ht.others r hrn]
      exact h.noSwap hc r hr

theorem deepCopyProc_kept (hc : c.selection ≠ .NONE) (h : Exact s []) (hnp : np < nproc) :
    wp (deepCopyProc q np) (fun _ s' => Exact s' [] ∧ Touches c np s s' ∧
      (s'.proc np).ofile = (s.proc np).ofile) (fun e _ => NotRefPanic e) s := by
  simp only [deepCopyProc, wp_bind, wp_get, wp_ite, wp_pure]
  refine ⟨fun hcond => ?_, fun _ => ⟨h, .refl c np s, trivial⟩⟩
  exact createSwapFile_kept hc hnp (h.of_target rfl (target_setProc rfl hcond.2.symm))

theorem copyPagingData_kept (h : Exact s []) (hnp : np < nproc) :
    wp (copyPagingData c q np) (fun _ s' => Exact s' [] ∧ Touches c np s s' ∧
      (s'.proc np).ofile = (s.proc np).ofile) (fun e _ => NotRefPanic e) s := by
  simp only [copyPagingData, wp_bind, wp_get, wp_ite]
  refine ⟨fun hcond => deepCopyProc_kept hcond.1 h hnp, fun _ => ?_⟩
  exact ⟨h, .refl c np s, rfl⟩

/-- A new slot has no files. -/
theorem allocproc_inv (stack : Bool) (h : Inv c s) :
    wp (allocproc c stack) (fun r s' => Inv c s' ∧
      ∀ np, r = some np → np < nproc ∧ (s'.proc np).Idle) noStop s := by
  simp only [allocproc, wp_bind, wp_get]
  cases hfind : (List.range nproc).find? fun np => decide ((s.proc np).state = .unused) with
  | none => exact ⟨h, by rintro _ ⟨⟩⟩
  | some np =>
    have hnp : np < nproc := mem_range.mp (mem_of_find?_eq_some hfind)
    have hunused : (s.proc np).state = .unused := by simpa using find?_some hfind
    have hidle : (s.proc np).Idle := h.idle np hnp (by rw [hunused]; decide)
    have h1 : Inv c ({ s with nextpid := s.nextpid + 1 }.setProc np
        { s.proc np with state := .embryo, pid := s.nextpid }) :=
      Inv.setProc (s := { s with nextpid := s.nextpid + 1 }) ⟨h.exact, h.idle, h.noSwap⟩ rfl rfl hidle
    have hidle1 : (({ s with nextpid := s.nextpid + 1 }.setProc np
        { s.proc np with state := .embryo, pid := s.nextpid } : State).proc np).Idle := by
      rwa [State.setProc_proc, update_self]
    simp only [wp_set, wp_bind]
    generalize ({ s with nextpid := s.nextpid + 1 }.setProc np
      { s.proc np with state := .embryo, pid := s.nextpid } : State) = s1 at h1 hidle1 ⊢
    have hgiven : ∀ s2 : State, Inv c s2 → (s2.proc np).Idle →
        Inv c s2 ∧ ∀ np', some np = some np' → np' < nproc ∧ (s2.proc np').Idle := by
      intro s2 h2 hidle2
      refine ⟨h2, fun np' he => ?_⟩
      cases he
      exact ⟨hnp, hidle2⟩
    simp only [wp_ite, wp_bind, wp_pure, initMetaData, modifyProc, wp_modify]
    refine ⟨fun _ => ⟨fun _ => ?_, fun _ => hgiven s1 h1 hidle1⟩, fun _ => ⟨?_, by rintro _ ⟨⟩⟩⟩
    · refine hgiven _ (h1.setProc rfl hidle1.2.symm ⟨hidle1.1, rfl⟩) ?_
      rw [State.setProc_proc, update_self]
      exact ⟨hidle1.1, rfl⟩
    · exact h1.setProc rfl rfl hidle1

theorem fork_inv (stack space : Bool) (h : Inv c s) (hq : q < nproc) :
    wp (fork c q stack space) (fun _ s' => Inv c s') (fun e _ => NotRefPanic e) s := by
  simp only [fork, wp_bind]
  refine wp_mono (allocproc_inv stack h) ?_ fun _ _ hf => hf.elim
  rintro (_ | np) s1 ⟨h1, hnew⟩
  · exact h1
  obtain ⟨hnp, hidle⟩ := hnew np rfl
  simp only [wp_ite, wp_bind, wp_get, wp_pure, modifyProc, wp_modify]
  refine ⟨fun _ => ?_, fun _ => h1.setProc rfl rfl hidle⟩
  refine wp_post (copyPagingData_kept h1.exact hnp) ?_
  rintro _ s2 ⟨h2, ht2, hof⟩
  have hfree : ∀ fd ∈ List.range nofile, (s2.proc np).ofile fd = none := by
    intro fd hfd
    rw [hof]
    exact hidle.1 fd (mem_range.mp hfd)
  have hdup := dupFiles_kept (c := c) (List.range nofile) h2 hq hnp (fun _ => mem_range.mp)
    nodup_range hfree
  refine wp_mono hdup ?_ fun _ _ hf => hf.elim
  rintro _ s3 ⟨h3, ht3⟩
  exact h1.start h3 (ht2.trans ht3)

end Processes

/-! ## Runs -/

theorem FileOp.run_inv (op : FileOp) (h : Inv c s) (hcall : op.Called s) (hexec : op.NoSwapFileLost c s) :
    wp (op.run c) (fun _ s' => Inv c s') (fun e _ => NotRefPanic e) s := by
  obtain ⟨hq, hrun⟩ := hcall
  have hkept : ∀ {x : F (Option Nat)} {E : Stop → State → Prop}, wp x (Kept c op.slot s) E s →
      (∀ e s', E e s' → NotRefPanic e) → wp x (fun _ s' => Inv c s') (fun e _ => NotRefPanic e) s := by
    intro x E hx hE
    exact wp_mono hx (fun _ s' hk => h.touches hrun hk.1 hk.2) hE
  cases op with
  | «open» q found => exact hkept (sysOpen_kept found h.exact hq) fun _ _ hf => hf.elim
  | pipe q mem => exact hkept (sysPipe_kept mem h.exact hq) fun _ _ hf => hf.elim
  | dup q fd => exact hkept (sysDup_kept fd h.exact hq) fun _ _ hf => hf.elim
  | close q fd => exact hkept (sysClose_kept fd h.exact hq) fun _ _ hf => hf.elim
  | sbrk q evicts => exact hkept (growproc_kept evicts h.exact hq) fun _ _ he => he
  | fork q stack space => exact fork_inv stack space h hq
  | exec q evicts => exact hkept (exec_kept evicts h.exact hq hexec) fun _ _ he => he
  | exit q => exact exit_inv h hq
  | wait q np => exact wp_mono (wait_inv h) (fun _ _ hs => hs) fun _ _ hf => hf.elim

/-- After boot no file is open. -/
structure Boot (s : State) : Prop where
  ref : ∀ i < nfile, s.ref i = 0
  idle : ∀ q < nproc, (s.proc q).Idle

theorem Boot.inv (h : Boot s) : Inv c s where
  exact := by
    have hnone : ∀ u ∈ owners, s.target u = none := by
      intro u hu
      cases u with
      | ofile q fd =>
        obtain ⟨hq, hfd⟩ := mem_owners_ofile.mp hu
        exact (h.idle q hq).1 fd hfd
      | swapFile q => exact (h.idle q (mem_owners_swapFile.mp hu)).2
    refine ⟨List.range nfile, ?_, ?_, nofun, fun _ hf => hf.elim, nodup_range, ?_⟩
    · intro i hi
      rw [h.ref i hi, holders, Finset.filter_false_of_mem]
      · rfl
      · intro u hu
        rw [hnone u hu]
        exact nofun
    · intro u i hu ht
      rw [hnone u hu] at ht
      exact nomatch ht
    · intro i
      rw [mem_range]
      exact ⟨fun hi => ⟨hi, h.ref i hi⟩, fun hi => hi.1⟩
  idle := fun q hq _ => h.idle q hq
  noSwap := fun _ q hq => (h.idle q hq).2

/-- Each entry of `ftable` counts the descriptors and the swap files that refer to it, and
    what they refer to are entries of `ftable`. -/
structure RefsExact (s : State) : Prop where
  count : ∀ i < nfile, s.ref i = s.ofileRefs i + s.swapFileRefs i
  ofile : ∀ q < nproc, ∀ fd < nofile, ∀ i, (s.proc q).ofile fd = some i → i < nfile ∧ 0 < s.ref i
  swapFile : ∀ q < nproc, ∀ i, (s.proc q).swapFile = some i → i < nfile ∧ 0 < s.ref i

theorem Exact.refsExact (h : Exact s []) : RefsExact s := by
  obtain ⟨free, hb⟩ := h
  refine ⟨?_, ?_, ?_⟩
  · intro i hi
    rw [hb.count hi, holders_owners, count_nil, Nat.add_zero]
  · intro q hq fd hfd i hi
    have hu := mem_owners_ofile.mpr ⟨hq, hfd⟩
    exact ⟨hb.target_ok hu hi, hb.refs_pos hu hi⟩
  · intro q hq i hi
    have hu := mem_owners_swapFile.mpr hq
    exact ⟨hb.target_ok hu hi, hb.refs_pos hu hi⟩

/-- In every run in which `exec` is only called by processes without a swap file, the
    reference counts of open files are exact after each call, and `filedup` and
    `fileclose` never meet a file without references. -/
theorem file_refs_exact (c : Config) (s : State) (ops : List FileOp) (hboot : Boot s)
    (hok : Run.Along (FileOp.run c) (fun op t => op.Called t ∧ op.NoSwapFileLost c t) ops s) :
    (∀ outs s', Run.run (FileOp.run c) ops s = .ok outs s' → RefsExact s') ∧
    ∀ e s', Run.run (FileOp.run c) ops s = .error e s' → NotRefPanic e := by
  have hrun : wp (Run.run (FileOp.run c) ops) (fun _ s' => Inv c s') (fun e _ => NotRefPanic e) s :=
    Run.wp_invariant (fun op _ hs hcall => op.run_inv hs hcall.1 hcall.2) hboot.inv hok
  obtain ⟨hret, herr⟩ := wp_iff.mp hrun
  exact ⟨fun outs s' heq => (hret outs s' heq).exact.refsExact, herr⟩

/-- A kernel that pages, with `LIFO`. -/
def lifoConfig : Config where
  selection := .LIFO
  kend := 384
  kdata := 50
  pageFound := false
  fuel := 64

/-- Three processes that have just been started, in the first three slots. -/
def threeProcs : State where
  ref := fun _ => 0
  proc := fun q =>
    { state := if q < 3 then .runnable else .unused
      pid := if q < 3 then q + 1 else 0
      ofile := fun _ => none
      swapFile := none }
  nextpid := 4

theorem threeProcs_boot : Boot threeProcs := ⟨fun _ _ => rfl, fun _ _ => ⟨fun _ _ => rfl, rfl⟩⟩

/-- The third process runs `exec`, opens files, swaps, forks and exits; its child fails to open a
    pipe and closes a descriptor. -/
def filesSession : List FileOp :=
  [.exec 2 true, .exit 2, .wait 0 2, .fork 1 true true, .open 2 true, .pipe 2 true, .sbrk 2 true,
    .dup 2 0, .fork 2 true true, .close 2 1, .exit 2, .pipe 3 false, .open 3 false, .close 3 0]

theorem file_refs_exact_filesSession : ∃ outs s',
    Run.run (FileOp.run lifoConfig) filesSession threeProcs = .ok outs s' ∧ RefsExact s' := by
  have hok : Run.Along (FileOp.run lifoConfig) (fun op t => op.Called t ∧ op.NoSwapFileLost lifoConfig t)
      filesSession threeProcs := by decide +kernel
  have hret : Run.returns (Run.run (FileOp.run lifoConfig) filesSession) threeProcs = true := by
    decide +kernel
  obtain ⟨outs, hrun⟩ := Run.exists_of_returns hret
  exact ⟨outs, _, hrun,
    (file_refs_exact lifoConfig threeProcs filesSession threeProcs_boot hok).1 outs _ hrun⟩

/-- A process that has swapped runs `exec`: nobody refers to its old swap file any more, but
    the entry of `ftable` stays in use. -/
theorem exec_loses_swapFile : ∃ outs s',
    Run.run (FileOp.run lifoConfig) [.sbrk 2 true, .exec 2 false] threeProcs = .ok outs s' ∧
      s'.ref 0 = 1 ∧ s'.ofileRefs 0 = 0 ∧ s'.swapFileRefs 0 = 0 := by
  have hret : Run.returns (Run.run (FileOp.run lifoConfig) [.sbrk 2 true, .exec 2 false]) threeProcs = true := by
    decide +kernel
  obtain ⟨outs, hrun⟩ := Run.exists_of_returns hret
  exact ⟨outs, _, hrun, by decide +kernel, by decide +kernel, by decide +kernel⟩

end Xv6Paging.FileTable
