import Xv6Paging.Fs.Blocks

/-! # Directories and path names (`fs.c`, `sysfile.c`)

    The upper half of the file system: directories as lists of entries, link counts, the
    inode cache with its references and sleep locks, path lookup, and the system calls
    that change the directory tree. The contents of directories are read and written an
    entry at a time, so that offsets are counted in entries here; contents of other files
    play no part. The copy of an inode in the cache is written through by `iupdate` after
    every change, and is not told apart from the one on disk.

    A call runs by itself: a sleep lock that is held when a call asks for it is held by
    that very call, which then never returns.
-/

namespace Xv6Paging.Dirs

open Function
open Blocks (FileType ninode)

/-! ## State -/

/-- `ROOTINO`. -/
def rootino : Nat := 1
/-- `NINODES` of `mkfs`. -/
def ninodes : Nat := 200
/-- `NOFILE`. -/
def nofile : Nat := 16
/-- `DIRSIZ`. -/
def dirsiz : Nat := 14
/-- `sizeof(struct dirent)`. -/
def direntSize : Nat := 16

/-- A file name: at most `dirsiz` bytes, without the padding. -/
abbrev Name : Type := List UInt8

/-- A path as the user gives it, without the terminating zero. -/
abbrev Path : Type := List UInt8

/-- `"."`. -/
def dot : Name := [46]
/-- `".."`. -/
def dotdot : Name := [46, 46]

/-- `struct dirent`; an entry with `inum` `0` is free. -/
structure Dirent where
  inum : Nat
  name : Name
  deriving DecidableEq, Repr

/-- An inode; only directories have `entries`. A disk has too few blocks for `nlink` to overflow. -/
structure Inode where
  type : FileType
  major : Nat
  minor : Nat
  nlink : Nat
  entries : List Dirent

def Inode.zero : Inode := ⟨.free, 0, 0, 0, []⟩

/-- The rest of `struct inode`, by inode number. -/
structure Cached where
  ref : Nat
  valid : Bool
  locked : Bool

/-- What outlives a call: inodes, and the references that processes hold. -/
structure Files where
  inode : Nat → Inode
  cwd : Fin nproc → Nat
  /-- The inode of an open descriptor. No call here shares a `struct file`. -/
  ofile : Fin nproc → Fin nofile → Option Nat

structure State extends Files where
  core : Nat → Cached

abbrev D : Type → Type := EStateM Stop State

namespace Files

@[simps -fullyApplied]
def setInode (v : Files) (i : Nat) (ip : Inode) : Files :=
  { v with inode := update v.inode i ip }

@[simps -fullyApplied]
def setCwd (v : Files) (p : Fin nproc) (i : Nat) : Files :=
  { v with cwd := update v.cwd p i }

@[simps -fullyApplied]
def setFile (v : Files) (p : Fin nproc) (fd : Fin nofile) (f : Option Nat) : Files :=
  { v with ofile := update v.ofile p (update (v.ofile p) fd f) }

/-- `ip->nlink = k`. -/
def setNlink (v : Files) (i k : Nat) : Files := v.setInode i { v.inode i with nlink := k }

/-- Change the contents of a directory. -/
def setEntries (v : Files) (i : Nat) (es : List Dirent) : Files :=
  v.setInode i { v.inode i with entries := es }

/-- Open files of all processes. -/
def openFiles (v : Files) : Nat :=
  ((Finset.univ : Finset (Fin nproc × Fin nofile)).filter fun x => (v.ofile x.1 x.2).isSome).card

/-- The first descriptor that is not in use. -/
def fdalloc (v : Files) (p : Fin nproc) : Option (Fin nofile) :=
  (List.finRange nofile).find? fun fd => (v.ofile p fd).isNone

/-- The first free inode. -/
def freeInode (v : Files) : Option Nat :=
  (List.range' 1 (ninodes - 1)).find? fun i => decide ((v.inode i).type = .free)

end Files

namespace State

def setCore (s : State) (i : Nat) (ip : Cached) : State :=
  { s with core := update s.core i ip }

/-- Change what outlives a call. -/
def setFiles (s : State) (v : Files) : State := ⟨v, s.core⟩

section

variable (s : State) (i : Nat) (ip : Cached) (v : Files)

@[simp] theorem setCore_toFiles : (s.setCore i ip).toFiles = s.toFiles := rfl

@[simp] theorem setCore_core : (s.setCore i ip).core = update s.core i ip := rfl

@[simp] theorem setFiles_toFiles : (s.setFiles v).toFiles = v := rfl

@[simp] theorem setFiles_core : (s.setFiles v).core = s.core := rfl

end

/-- Entries of the inode cache in use. -/
def cached (s : State) : Nat := (List.range ninodes).countP fun i => decide (0 < (s.core i).ref)

end State

/-! ## Inodes -/

def iget (i : Nat) : D Unit := do
  let s ← get
  if 0 < (s.core i).ref then
    set (s.setCore i { s.core i with ref := (s.core i).ref + 1 })
  else if ninode ≤ s.cached then
    throw (.panic "iget: no inodes")
  else
    set (s.setCore i { s.core i with ref := 1, valid := false })

def idup (i : Nat) : D Unit :=
  modify fun s => s.setCore i { s.core i with ref := (s.core i).ref + 1 }

def acquiresleep (i : Nat) : D Unit := do
  let s ← get
  if (s.core i).locked = true then
    throw .diverge
  else
    set (s.setCore i { s.core i with locked := true })

def releasesleep (i : Nat) : D Unit :=
  modify fun s => s.setCore i { s.core i with locked := false }

/-- Read an inode that has just been locked from the disk. -/
def readInode (i : Nat) : D Unit := do
  let s ← get
  if (s.core i).valid = true then
    pure ()
  else if (s.inode i).type = .free then
    throw (.panic "ilock: no type")
  else
    set (s.setCore i { s.core i with valid := true })

def ilock (i : Nat) : D Unit := do
  let s ← get
  if (s.core i).ref < 1 then
    throw (.panic "ilock")
  else
    acquiresleep i
    readInode i

def iunlock (i : Nat) : D Unit := do
  let s ← get
  if (s.core i).locked = false ∨ (s.core i).ref < 1 then
    throw (.panic "iunlock")
  else
    releasesleep i

/-- A freed inode; its contents have been truncated. -/
def Inode.freed (ip : Inode) : Inode := { ip with type := .free, entries := [] }

/-- Free a locked inode with no links and no other references. -/
def freeUnlinked (i : Nat) : D Unit := do
  let s ← get
  if (s.core i).valid = true ∧ (s.inode i).nlink = 0 ∧ (s.core i).ref = 1 then
    set ((s.setFiles (s.setInode i (s.inode i).freed)).setCore i { s.core i with valid := false })
  else
    pure ()

def iput (i : Nat) : D Unit := do
  acquiresleep i
  freeUnlinked i
  releasesleep i
  modify fun s => s.setCore i { s.core i with ref := (s.core i).ref - 1 }

def iunlockput (i : Nat) : D Unit := do
  iunlock i
  iput i

def ialloc (type : FileType) : D Nat := do
  let s ← get
  match s.freeInode with
  | none => throw (.panic "ialloc: no inodes")
  | some i =>
    set (s.setFiles (s.setInode i { Inode.zero with type := type }))
    iget i
    pure i

/-! ## Directories -/

/-- The loop of `dirlookup`: the entry with a name, and its offset. -/
def findEntry (name : Name) : Nat → List Dirent → Option (Nat × Nat)
  | _, [] => none
  | off, e :: es =>
    if e.inum = 0 then
      findEntry name (off + 1) es
    else if e.name = name then
      some (e.inum, off)
    else
      findEntry name (off + 1) es

/-- Look for an entry in a directory; the inode found is referenced. -/
def dirlookup (dp : Nat) (name : Name) : D (Option (Nat × Nat)) := do
  let s ← get
  if (s.inode dp).type ≠ .dir then
    throw (.panic "dirlookup not DIR")
  else
    match findEntry name 0 (s.inode dp).entries with
    | none => pure none
    | some (inum, off) =>
      iget inum
      pure (some (inum, off))

/-- Offset of the first free entry, or the end of the directory. -/
def freeEntry (es : List Dirent) : Nat := es.findIdx fun e => e.inum == 0

/-- `writei` of an entry at an offset within the directory or at its end. -/
def putEntry (es : List Dirent) (off : Nat) (e : Dirent) : List Dirent :=
  if off < es.length then es.set off e else es ++ [e]

/-- `writei` does not write beyond the largest file. -/
def Fits (off : Nat) : Prop := off * direntSize + direntSize ≤ maxfile * bsize

instance (off : Nat) : Decidable (Fits off) := by
  unfold Fits
  infer_instance

/-- The second half of `dirlink`. -/
def writeEntry (dp : Nat) (e : Dirent) : D Unit := do
  let s ← get
  if Fits (freeEntry (s.inode dp).entries) then
    set (s.setFiles
      (s.setEntries dp (putEntry (s.inode dp).entries (freeEntry (s.inode dp).entries) e)))
  else
    throw (.panic "dirlink")

/-- Write a new entry into a directory; `false` stands for `-1`. -/
def dirlink (dp : Nat) (name : Name) (inum : Nat) : D Bool := do
  match ← dirlookup dp name with
  | some (j, _) =>
    iput j
    pure false
  | none =>
    writeEntry dp ⟨inum, name⟩
    pure true

/-- Is a directory empty except for `.` and `..`? -/
def isdirempty (ip : Inode) : Bool := (ip.entries.drop 2).all fun e => e.inum == 0

/-! ## Paths -/

/-- `/`. -/
def slash : UInt8 := 47

/-- The next path element, and the path that follows it. -/
def skipelem (path : Path) : Option (Name × Path) :=
  match path.dropWhile (· == slash) with
  | [] => none
  | c :: cs =>
    some (((c :: cs).takeWhile (· != slash)).take dirsiz,
      ((c :: cs).dropWhile (· != slash)).dropWhile (· == slash))

/-- All elements of a path, one `skipelem` after the other; `fuel` bounds their number. -/
def elementsFrom : Nat → Path → List Name
  | 0, _ => []
  | fuel + 1, path =>
    match skipelem path with
    | none => []
    | some (name, rest) => name :: elementsFrom fuel rest

def elements (path : Path) : List Name := elementsFrom path.length path

/-- The loop of `namex`. With `parent`, it stops one level early. -/
def namexFrom (parent : Bool) : Nat → List Name → D (Option (Nat × Name))
  | ip, [] =>
    if parent = true then do
      iput ip
      pure none
    else
      pure (some (ip, []))
  | ip, name :: rest => do
    ilock ip
    let s ← get
    if (s.inode ip).type ≠ .dir then
      iunlockput ip
      pure none
    else if parent = true ∧ rest = [] then
      iunlock ip
      pure (some (ip, name))
    else
      match ← dirlookup ip name with
      | none =>
        iunlockput ip
        pure none
      | some (next, _) =>
        iunlockput ip
        namexFrom parent next rest

/-- Look up a path: the inode (or its parent, with the last element). -/
def namex (p : Fin nproc) (path : Path) (parent : Bool) : D (Option (Nat × Name)) := do
  let s ← get
  if path.head? = some slash then
    iget rootino
    namexFrom parent rootino (elements path)
  else
    idup (s.cwd p)
    namexFrom parent (s.cwd p) (elements path)

def namei (p : Fin nproc) (path : Path) : D (Option Nat) := do
  let r ← namex p path false
  pure (r.map Prod.fst)

def nameiparent (p : Fin nproc) (path : Path) : D (Option (Nat × Name)) := namex p path true

/-! ## System calls

    Paths have been fetched from user memory. `-1` and `0` are returned as in the source. -/

/-- `ip->nlink = f(ip->nlink); iupdate(ip)`. -/
def updateNlink (i : Nat) (f : Nat → Nat) : D Unit :=
  modify fun s => s.setFiles (s.setNlink i (f (s.inode i).nlink))

/-- The exit `bad` of `sys_link`. -/
def linkBad (ip : Nat) : D Int := do
  ilock ip
  updateNlink ip (· - 1)
  iunlockput ip
  pure (-1)

/-- The second half of `sys_link`, where the inode has been given one more link. -/
def linkInto (p : Fin nproc) (ip : Nat) (new : Path) : D Int := do
  match ← nameiparent p new with
  | none => linkBad ip
  | some (dp, name) =>
    ilock dp
    match ← dirlink dp name ip with
    | false =>
      iunlockput dp
      linkBad ip
    | true =>
      iunlockput dp
      iput ip
      pure 0

def sysLink (p : Fin nproc) (old new : Path) : D Int := do
  match ← namei p old with
  | none => pure (-1)
  | some ip =>
    ilock ip
    let s ← get
    if (s.inode ip).type = .dir then
      iunlockput ip
      pure (-1)
    else
      updateNlink ip (· + 1)
      iunlock ip
      linkInto p ip new

/-- `writei` of an empty entry. -/
def clearEntry (dp off : Nat) : D Unit := do
  let s ← get
  if Fits off then
    set (s.setFiles (s.setEntries dp (putEntry (s.inode dp).entries off ⟨0, []⟩)))
  else
    throw (.panic "unlink: writei")

/-- A directory loses the link of the `..` of a directory that is removed. -/
def unlinkParent (dp ip : Nat) : D Unit := do
  let s ← get
  if (s.inode ip).type = .dir then
    updateNlink dp (· - 1)
  else
    pure ()

/-- The second half of `sys_unlink`, with both inodes locked. -/
def unlinkFound (dp ip off : Nat) : D Int := do
  let s ← get
  if (s.inode ip).nlink < 1 then
    throw (.panic "unlink: nlink < 1")
  else if (s.inode ip).type = .dir ∧ isdirempty (s.inode ip) = false then
    iunlockput ip
    iunlockput dp
    pure (-1)
  else
    clearEntry dp off
    unlinkParent dp ip
    iunlockput dp
    updateNlink ip (· - 1)
    iunlockput ip
    pure 0

def sysUnlink (p : Fin nproc) (path : Path) : D Int := do
  match ← nameiparent p path with
  | none => pure (-1)
  | some (dp, name) =>
    ilock dp
    if name = dot ∨ name = dotdot then
      iunlockput dp
      pure (-1)
    else
      match ← dirlookup dp name with
      | none =>
        iunlockput dp
        pure (-1)
      | some (ip, off) =>
        ilock ip
        unlinkFound dp ip off

/-- The entries `.` and `..` of a new directory. -/
def createDots (type : FileType) (dp ip : Nat) : D Unit :=
  if type = .dir then do
    updateNlink dp (· + 1)
    match ← dirlink ip dot ip with
    | false => throw (.panic "create dots")
    | true =>
      match ← dirlink ip dotdot dp with
      | false => throw (.panic "create dots")
      | true => pure ()
  else
    pure ()

/-- The second half of `create`, for a name that is not there. -/
def createNew (dp : Nat) (name : Name) (type : FileType) (major minor : Nat) : D Nat := do
  let ip ← ialloc type
  ilock ip
  modify fun s => s.setFiles
    (s.setInode ip { s.inode ip with major := major, minor := minor, nlink := 1 })
  createDots type dp ip
  match ← dirlink dp name ip with
  | false => throw (.panic "create: dirlink")
  | true =>
    iunlockput dp
    pure ip

/-- The inode is returned locked. -/
def create (p : Fin nproc) (path : Path) (type : FileType) (major minor : Nat) : D (Option Nat) := do
  match ← nameiparent p path with
  | none => pure none
  | some (dp, name) =>
    ilock dp
    match ← dirlookup dp name with
    | some (ip, _) =>
      iunlockput dp
      ilock ip
      let s ← get
      if type = .file ∧ (s.inode ip).type = .file then
        pure (some ip)
      else
        iunlockput ip
        pure none
    | none =>
      let ip ← createNew dp name type major minor
      pure (some ip)

/-- `O_RDONLY`. -/
def oRdonly : Nat := 0
/-- `O_CREATE`. -/
def oCreate : Nat := 0x200

/-- The inode that `sys_open` opens, locked. -/
def openInode (p : Fin nproc) (path : Path) (omode : Nat) : D (Option Nat) :=
  if omode &&& oCreate ≠ 0 then
    create p path .file 0 0
  else do
    match ← namei p path with
    | none => pure none
    | some ip =>
      ilock ip
      let s ← get
      if (s.inode ip).type = .dir ∧ omode ≠ oRdonly then
        iunlockput ip
        pure none
      else
        pure (some ip)

/-- A `struct file` and a descriptor for it. -/
def Files.newFile (v : Files) (p : Fin nproc) : Option (Fin nofile) :=
  if nfile ≤ v.openFiles then none else v.fdalloc p

def sysOpen (p : Fin nproc) (path : Path) (omode : Nat) : D Int := do
  match ← openInode p path omode with
  | none => pure (-1)
  | some ip =>
    let s ← get
    match s.newFile p with
    | none =>
      iunlockput ip
      pure (-1)
    | some fd =>
      iunlock ip
      modify fun s => s.setFiles (s.setFile p fd (some ip))
      pure fd

/-- `sys_mkdir` and `sys_mknod`. -/
def sysCreate (p : Fin nproc) (path : Path) (type : FileType) (major minor : Nat) : D Int := do
  match ← create p path type major minor with
  | none => pure (-1)
  | some ip =>
    iunlockput ip
    pure 0

def sysMkdir (p : Fin nproc) (path : Path) : D Int := sysCreate p path .dir 0 0

def sysMknod (p : Fin nproc) (path : Path) (major minor : Nat) : D Int :=
  sysCreate p path .dev major minor

def sysChdir (p : Fin nproc) (path : Path) : D Int := do
  match ← namei p path with
  | none => pure (-1)
  | some ip =>
    ilock ip
    let s ← get
    if (s.inode ip).type ≠ .dir then
      iunlockput ip
      pure (-1)
    else
      iunlock ip
      iput (s.cwd p)
      modify fun s => s.setFiles (s.setCwd p ip)
      pure 0

/-- Close a descriptor; those that are not open or not descriptors at all are refused. -/
def sysClose (p : Fin nproc) (fd : Nat) : D Int := do
  let s ← get
  if h : fd < nofile then
    match s.ofile p ⟨fd, h⟩ with
    | none => pure (-1)
    | some ip =>
      modify fun s => s.setFiles (s.setFile p ⟨fd, h⟩ none)
      iput ip
      pure 0
  else
    pure (-1)

inductive Call where
  | mkdir (p : Fin nproc) (path : Path)
  | mknod (p : Fin nproc) (path : Path) (major minor : Nat)
  | open (p : Fin nproc) (path : Path) (omode : Nat)
  | link (p : Fin nproc) (old new : Path)
  | unlink (p : Fin nproc) (path : Path)
  | chdir (p : Fin nproc) (path : Path)
  | close (p : Fin nproc) (fd : Nat)

def Call.exec : Call → D Int
  | .mkdir p path => sysMkdir p path
  | .mknod p path major minor => sysMknod p path major minor
  | .open p path omode => sysOpen p path omode
  | .link p old new => sysLink p old new
  | .unlink p path => sysUnlink p path
  | .chdir p path => sysChdir p path
  | .close p fd => sysClose p fd

/-! ## The image -/

/-- The entries of the root directory: `.`, `..`, the files, and free ones up to the end of the
    block. -/
def rootEntries (names : List Name) : List Dirent :=
  let es := ⟨rootino, dot⟩ :: ⟨rootino, dotdot⟩ ::
    names.zipIdx.map fun x => (⟨rootino + 1 + x.2, x.1.take dirsiz⟩ : Dirent)
  es ++ List.replicate ((es.length * direntSize / bsize + 1) * bsize / direntSize - es.length) ⟨0, []⟩

/-- The image that `mkfs` makes of files with these names. -/
def mkfsInode (names : List Name) (i : Nat) : Inode :=
  if i = rootino then
    ⟨.dir, 0, 0, 1, rootEntries names⟩
  else if rootino < i ∧ i ≤ rootino + names.length then
    ⟨.file, 0, 0, 1, []⟩
  else
    .zero

/-- The first state: every process has the root directory as its current one. -/
def mkfs (names : List Name) : State where
  inode := mkfsInode names
  cwd := fun _ => rootino
  ofile := fun _ _ => none
  core := fun i => if i = rootino then ⟨nproc, false, false⟩ else ⟨0, false, false⟩

end Xv6Paging.Dirs
