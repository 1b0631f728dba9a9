import Xv6Paging.Fs.Names
import Xv6Paging.Fs.Resolve

/-! # Creating a swap file (`createSwapFile` of `fs.c`)

    `createSwapFile` takes what `create` gives it: an inode that it has made, one that was
    there, or none. It unlocks the result without looking at it, and opens it whoever else
    has it open. User processes decide which of these it meets, as the root directory is
    theirs to fill.

    `Dirs` leaves out the blocks of a directory; here they are counted, as a directory that
    grows takes one or two.
-/

namespace Xv6Paging.SwapCreate

open List Wp Function
open Blocks (ninode ndirect)
open Dirs

/-! ## State -/

/-- What an entry of `ftable` refers to. -/
inductive Opened where
  | pipe
  | inode (i : Nat)
  deriving DecidableEq

structure Sys where
  fs : Dirs.State
  /-- Entries of `ftable`; `none` for one with `ref` 0. -/
  ftable : Fin nfile → Option Opened
  swapFile : Fin nproc → Option (Fin nfile)
  pid : Fin nproc → Nat
  /-- Free data blocks. -/
  freeBlocks : Nat

abbrev C : Type → Type := EStateM Stop Sys

def onFs {α : Type} (x : D α) : C α := onPart (fun s => s.fs) (fun s fs => { s with fs := fs }) x

/-! ## Code -/

/-- Blocks that `writei` allocates for a new entry: none where there is a free entry or the last block
    is not full; a block of addresses as well where the direct ones are used up. -/
def newBlocks (es : List Dirent) : Nat :=
  if freeEntry es < es.length ∨ es.length * direntSize % bsize ≠ 0 then 0
  else if es.length * direntSize / bsize = ndirect then 2
  else 1

/-- The blocks of the root directory, where it has grown. -/
def growRoot (before : List Dirent) : C Unit := do
  let s ← get
  let n := if (s.fs.inode rootino).entries.length = before.length then 0 else newBlocks before
  if s.freeBlocks < n then
    throw (.panic "balloc: out of blocks")
  else
    set { s with freeBlocks := s.freeBlocks - n }

/-- The path is in the root directory. -/
def createInRoot (me : Fin nproc) (path : Path) : C (Option Nat) := do
  let s ← get
  let r ← onFs (create me path .file 0 0)
  growRoot (s.fs.inode rootino).entries
  pure r

def filealloc : C (Option (Fin nfile)) := do
  let s ← get
  pure ((List.finRange nfile).find? fun f => (s.ftable f).isNone)

/-- The second half of `createSwapFile`: a `struct file` for the inode, which is locked. -/
def openSwap (q : Fin nproc) (ip : Nat) : C Int := do
  onFs (iunlock ip)
  match ← filealloc with
  | none => throw (.panic "no slot for files on /store")
  | some f =>
    modify fun s => { s with
      swapFile := update s.swapFile q (some f)
      ftable := update s.ftable f (some (.inode ip)) }
    pure 0

/-- `stack` is what `path` holds before it is written to. `begin_op` and `end_op`, which matter to the
    log only, are left out. -/
def createSwapFile (me q : Fin nproc) (stack : List UInt8) : C Int := do
  let s ← get
  match swapPath (s.pid q) stack with
  | none => throw .wild
  | some path =>
    match ← createInRoot me path with
    | none =>
      -- `iunlock(0)`
      throw (.panic "iunlock")
    | some ip => openSwap q ip

/-! ## `create` in the root directory -/

section Create

variable {v : Files} {held : Nat → Nat} {locks : List Nat} {s : Dirs.State} {me : Fin nproc} {n : Nat}

/-- The name of a swap file in the root directory. -/
def swapName (n : Nat) : Name := (swapStem.tail ++ decimal n).take dirsiz

/-- The root directory can be locked: it is in the cache or there is room for it, and the caller has
    not locked it. -/
def RootFree (held : Nat → Nat) (locks : List Nat) : Prop := rootino ∉ locks ∧ Enters held [] rootino

/-- What `create` leaves. -/
def Creates (v : Files) (held : Nat → Nat) (locks : List Nat) (name : Name) (r : Option Nat)
    (s : Dirs.State) : Prop :=
  match v.lookup rootino name with
  | some (ip, _) =>
    if (v.inode ip).type = .file then r = some ip ∧ At v held [ip] (ip :: locks) s
    else r = none ∧ At v held [] locks s
  | none => ∃ ip, v.freeInode = some ip ∧ r = some ip ∧
      At (v.newInode rootino name ip .file 0 0) held [ip] (ip :: locks) s

end Create

section Swap

variable {s : Sys} {held : Nat → Nat} {locks : List Nat} {me q : Fin nproc} {stack : List UInt8}

/-- References are as `held` tells, the caller has locked `locks` (`exec` the file that it loads), and
    what files are open on is referenced. Of the entries only that for the swap file must not dangle. -/
structure Idle (held : Nat → Nat) (locks : List Nat) (s : Sys) (q : Fin nproc) : Prop where
  quiet : At s.fs.toFiles held [] locks s.fs
  root : (s.fs.inode rootino).type = .dir
  kept : Kept s.fs.toFiles held rootino
  entry : ∀ j off, s.fs.lookup rootino (swapName (s.pid q)) = some (j, off) → Kept s.fs.toFiles held j
  files : ∀ f i, s.ftable f = some (.inode i) → 0 < held i

/-- The name of the swap file is free, and there is an inode, an entry and blocks for it; or it names a
    regular file that the caller has not locked and that is not open. -/
def Available (held : Nat → Nat) (locks : List Nat) (s : Sys) (name : Name) : Prop :=
  match s.fs.lookup rootino name with
  | some (ip, _) => (Enters held [rootino] ip ∧ ip ∉ locks) ∧ (s.fs.inode ip).type = .file ∧
      ∀ f, s.ftable f ≠ some (.inode ip)
  | none => (∃ ip, s.fs.freeInode = some ip ∧ Enters held [rootino] ip) ∧ ¬ s.fs.Full rootino ∧
      newBlocks (s.fs.inode rootino).entries ≤ s.freeBlocks

/-- The name fits into `path`, `ftable` has room, the root directory can be locked, and the name is
    available. -/
def Clear (held : Nat → Nat) (locks : List Nat) (s : Sys) (q : Fin nproc) : Prop :=
  s.pid q < 10 ^ 7 ∧ (∃ f, s.ftable f = none) ∧ RootFree held locks ∧
    Available held locks s (swapName (s.pid q))

end Swap

/-! ### Examples -/

end Xv6Paging.SwapCreate
