import Xv6Paging.Fs.Inodes
import Xv6Paging.Fs.Bio
import Xv6Paging.Fs.Dirs

/-! # Making a file system (`mkfs.c`)

    `mkfs` runs on the host and writes the image of the disk: the superblock, a root
    directory, one inode for each file on the command line, and the bitmap. It hands out
    inodes and blocks by counting up and never checks the counters. All it knows of the
    image is what it reads back, so the image is modelled as the bytes of its sectors.

    The host lets `mkfs` write its image; that a sector past the end of the image cannot be
    read is in the model, since this is what stops `mkfs` when the blocks run out.
-/

namespace Xv6Paging.Mkfs

open Function
open Blocks (ndirect nindirect)
open Bio (fssize logsize)
open Dirs (ninodes rootino dirsiz)

/-! ## Layout of the disk -/

/-- `IPB`: inodes in a block, of 64 bytes each. -/
def ipb : Nat := bsize / 64
def nbitmap : Nat := fssize / (bsize * 8) + 1
def ninodeblocks : Nat := ninodes / ipb + 1
def nlog : Nat := logsize
/-- Blocks of metadata: boot block, superblock, log, inodes and bitmap. -/
def nmeta : Nat := 2 + nlog + ninodeblocks + nbitmap
def nblocks : Nat := fssize - nmeta
def logstart : Nat := 2
def inodestart : Nat := 2 + nlog
def bmapstart : Nat := 2 + nlog + ninodeblocks
/-- `IBLOCK`: the block of an inode. -/
def iblock (inum : Nat) : Nat := inum / ipb + inodestart

/-- `struct dinode`. -/
@[ext]
structure Dinode where
  type : UInt16
  major : UInt16
  minor : UInt16
  nlink : UInt16
  size : UInt32
  addrs : Fin (ndirect + 1) → UInt32

/-- The sixteen words of a `struct dinode`. -/
def Dinode.word (din : Dinode) : Nat → Nat
  | 0 => din.type.toNat + 2 ^ 16 * din.major.toNat
  | 1 => din.minor.toNat + 2 ^ 16 * din.nlink.toNat
  | 2 => din.size.toNat
  | j + 3 => (din.addrs (Fin.ofNat _ j)).toNat

def Dinode.ofWords (word : Nat → Nat) : Dinode where
  type := .ofNat (word 0)
  major := .ofNat (word 0 / 2 ^ 16)
  minor := .ofNat (word 1)
  nlink := .ofNat (word 1 / 2 ^ 16)
  size := .ofNat (word 2)
  addrs := fun j => .ofNat (word (j + 3))

/-- `din.addrs[k] = xint(b)`. -/
def Dinode.setAddr (din : Dinode) (k b : Nat) : Dinode :=
  { din with addrs := update din.addrs (Fin.ofNat _ k) (.ofNat b) }

/-! ## State -/

/-- Ways to end other than `exit(0)`. -/
inductive Exit where
  /-- A failed `assert`. -/
  | abort (expr : String)
  /-- `perror` and `exit(1)`. -/
  | failed (call : String)
  deriving DecidableEq, Repr

/-- The image file and the two counters. `argc` is an `int`, so that `freeinode` does not
    overflow; every new block is read at once, so that `freeblock` does not get past the image
    by more than one. -/
structure State where
  disk : Nat → Nat → UInt8
  /-- Sectors in the image file. -/
  sectors : Nat
  freeinode : Nat
  freeblock : Nat

abbrev M : Type → Type := EStateM Exit State

/-- The image has just been created. -/
def start : State := ⟨fun _ _ => 0, 0, 1, nmeta⟩

/-! ## Sectors and inodes -/

/-- The sector at the offset `sec * BSIZE`, a `uint`. -/
def sector (sec : Nat) : Nat := sec * bsize % 2 ^ 32 / bsize

def wsect (sec : Nat) (buf : Nat → UInt8) : M Unit := modify fun s =>
  { s with disk := update s.disk (sector sec) buf, sectors := max s.sectors (sector sec + 1) }

def rsect (sec : Nat) : M (Nat → UInt8) := do
  let s ← get
  if sector sec < s.sectors then pure (s.disk (sector sec)) else throw (.failed "read")

def winode (inum : Nat) (ip : Dinode) : M Unit := do
  let buf ← rsect (iblock inum)
  wsect (iblock inum) (Words.fill buf (inum % ipb * 16) 16 ip.word)

def rinode (inum : Nat) : M Dinode := do
  let buf ← rsect (iblock inum)
  pure (Dinode.ofWords fun k => Words.get buf (inum % ipb * 16 + k))

def ialloc (type : UInt16) : M Nat := do
  let s ← get
  set { s with freeinode := s.freeinode + 1 }
  winode s.freeinode ⟨type, 0, 0, 1, 0, fun _ => 0⟩
  pure s.freeinode

/-- `freeblock++`. -/
def nextBlock : M Nat := do
  let s ← get
  set { s with freeblock := s.freeblock + 1 }
  pure s.freeblock

/-! ## Appending to a file -/

/-- `addrs[k]`, allocated if necessary. -/
def addrOf (din : Dinode) (k : Nat) : M Dinode :=
  if din.addrs (Fin.ofNat _ k) = 0 then do
    let b ← nextBlock
    pure (din.setAddr k b)
  else
    pure din

/-- Word `j` of the indirect block, allocated if necessary. -/
def entryOf (ind j : Nat) : M Nat := do
  let indirect ← rsect ind
  if Words.get indirect j = 0 then
    let b ← nextBlock
    let indirect := Words.set indirect j b
    wsect ind indirect
    pure (Words.get indirect j)
  else
    pure (Words.get indirect j)

/-- The block `x` of `iappend` that holds block `fbn` of the file. -/
def blockOf (din : Dinode) (fbn : Nat) : M (Nat × Dinode) := do
  if fbn < ndirect then
    let din ← addrOf din fbn
    pure ((din.addrs (Fin.ofNat _ fbn)).toNat, din)
  else
    let din ← addrOf din ndirect
    let x ← entryOf (din.addrs (Fin.ofNat _ ndirect)).toNat (fbn - ndirect)
    pure (x, din)

/-- The loop of `iappend`, with the bytes that are left; `fuel` bounds its turns. -/
def appendBlocks : Nat → List UInt8 → Nat → Dinode → M (Nat × Dinode)
  | 0, _, off, din => pure (off, din)
  | fuel + 1, p, off, din =>
    if p = [] then
      pure (off, din)
    else do
      let fbn := off / bsize
      if maxfile ≤ fbn then
        throw (.abort "fbn < MAXFILE")
      else
        let (x, din) ← blockOf din fbn
        let n1 := min p.length ((fbn + 1) * bsize - off)
        let buf ← rsect x
        wsect x (Blocks.copyIn buf (fun k => p.getD k 0) (off - fbn * bsize) n1)
        appendBlocks fuel (p.drop n1) (off + n1) din

def iappend (inum : Nat) (p : List UInt8) : M Unit := do
  let din ← rinode inum
  let (off, din) ← appendBlocks p.length p din.size.toNat din
  winode inum { din with size := .ofNat off }

/-! ## The bitmap -/

/-- Mark block `i`. -/
def mark (buf : Nat → UInt8) (i : Nat) : Nat → UInt8 :=
  update buf (i / 8) (buf (i / 8) ||| .ofNat (1 <<< (i % 8)))

def balloc (used : Nat) : M Unit :=
  if bsize * 8 ≤ used then
    throw (.abort "used < BSIZE*8")
  else
    wsect bmapstart ((List.range used).foldl mark fun _ => 0)

/-! ## The program -/

/-- A file on the command line; `content` is `none` if it cannot be opened. -/
structure File where
  name : List UInt8
  content : Option (List UInt8)

/-- `struct dirent`; `strncpy` pads the name with zeros. -/
def dirent (inum : Nat) (name : List UInt8) : List UInt8 :=
  [.ofNat inum, .ofNat (inum / 256)] ++ (name.take dirsiz ++ List.replicate (dirsiz - name.length) 0)

/-- The loop that reads a file a block at a time; `fuel` bounds its turns. -/
def copyFile (inum : Nat) : Nat → List UInt8 → M Unit
  | 0, _ => pure ()
  | fuel + 1, bytes =>
    if bytes = [] then
      pure ()
    else do
      iappend inum (bytes.take bsize)
      copyFile inum fuel (bytes.drop bsize)

/-- The name in the file system, without a leading underscore. -/
def File.target (f : File) : List UInt8 := if f.name.head? = some 95 then f.name.tail else f.name

/-- The loop over the files. -/
def addFiles (root : Nat) : List File → M Unit
  | [] => pure ()
  | f :: files =>
    if 47 ∈ f.name then
      throw (.abort "index(argv[i], '/') == 0")
    else
      match f.content with
      | none => throw (.failed "open")
      | some bytes => do
        let inum ← ialloc 2
        iappend root (dirent inum f.target)
        copyFile inum bytes.length bytes
        addFiles root files

/-- The words of the superblock. -/
def superblock : List Nat := [fssize, nblocks, ninodes, nlog, logstart, inodestart, bmapstart]

/-- Zero the sectors from `i` on. -/
def zeroSectors : Nat → Nat → M Unit
  | 0, _ => pure ()
  | n + 1, i => do
    wsect i fun _ => 0
    zeroSectors n (i + 1)

def main (files : List File) : M Unit := do
  zeroSectors fssize 0
  wsect 1 (Words.fill (fun _ => 0) 0 7 fun k => superblock.getD k 0)
  let root ← ialloc 1
  if root ≠ rootino then
    throw (.abort "rootino == ROOTINO")
  else
    iappend root (dirent root Dirs.dot)
    iappend root (dirent root Dirs.dotdot)
    addFiles root files
    -- Fix the size of the root directory.
    let din ← rinode root
    let off := din.size.toNat
    winode root { din with size := .ofNat ((off / bsize + 1) * bsize) }
    let s ← get
    balloc s.freeblock

/-! ## The image as the kernel finds it -/

def fileType : Nat → Blocks.FileType
  | 1 => .dir
  | 2 => .file
  | 3 => .dev
  | _ => .free

/-- An inode as the kernel reads it. -/
def Dinode.kernel (din : Dinode) : Blocks.Dinode where
  type := fileType din.type.toNat
  major := din.major.toNat
  minor := din.minor.toNat
  nlink := din.nlink.toNat
  size := din.size.toNat
  addrs := fun k => if h : k < ndirect + 1 then (din.addrs ⟨k, h⟩).toNat else 0

def super : Blocks.Super := ⟨fssize, nblocks, ninodes, by decide, by decide⟩

/-- The inode in the inode area. -/
def State.dinode (s : State) (inum : Nat) : Dinode :=
  Dinode.ofWords fun k => Words.get (s.disk (iblock inum)) (inum % ipb * 16 + k)

/-- The state in which the kernel starts. -/
def State.view (s : State) : Blocks.State where
  bitmap := fun b => (s.disk bmapstart (b / 8)).toNat.testBit (b % 8)
  blocks := fun b => if b < nmeta then fun _ => 0 else s.disk b
  dinode := fun i => if i < ninodes then (s.dinode i).kernel else .zero
  core := fun _ => ⟨0, false, .zero⟩

/-- A well-formed image. -/
structure WellFormed (s : State) : Prop where
  /-- Inodes are in the inode area, and there are inodes with these numbers. -/
  inodes : ∀ i, 0 < i → i < s.freeinode → i < ninodes ∧ inodestart ≤ iblock i ∧ iblock i < bmapstart
  /-- Every block that was allocated has one place. -/
  blocks : ∀ b, nmeta ≤ b → b < s.freeblock →
    b < fssize ∧ ∃! u, u ∈ Blocks.slots super ∧ s.view.target u = some b
  bitmap : ∀ b < fssize, s.view.bitmap b = true ↔ b < s.freeblock
  /-- Every block of a file below its size has been allocated. -/
  filled : ∀ i, 0 < i → i < s.freeinode → ∀ bn, bn * bsize < (s.view.dinode i).size →
    ∃ b, s.view.target (Blocks.fileSlot i bn) = some b

end Xv6Paging.Mkfs
