import Xv6Paging.Fs.DirTree

/-! # What the calls are for

    The calls as functions on inodes and on the references of processes, without inode
    cache, locks and references in flight. `Call.effect` is an error where a call does not
    return: a directory that is full, an entry that refers to the directory which is
    locked, or no inode left.

    `Good` is the invariant: a tree, in which inodes that no process uses have links. All
    calls keep it, but for `unlink` of a directory that is in use: that directory stays,
    with a `..` which is not counted any more.
-/

namespace Xv6Paging.Dirs

open Function
open Blocks (FileType)

variable {els : List Name} {type : FileType} {major minor off omode : Nat} {r : Option Nat}
  {fd : Fin nofile}

namespace Files

variable (v : Files)

/-! ## Lookup -/

/-- The inode and the offset of a name. -/
def lookup (d : Nat) (name : Name) : Option (Nat × Nat) := findEntry name 0 (v.inode d).entries

/-- `namex` from an inode on: the inode of a path, or that of its parent and the last name. -/
def walk (parent : Bool) : Nat → List Name → Option (Nat × Name)
  | ip, [] => if parent = true then none else some (ip, [])
  | ip, name :: rest =>
    if (v.inode ip).type ≠ .dir then
      none
    else if parent = true ∧ rest = [] then
      some (ip, name)
    else
      match v.lookup ip name with
      | none => none
      | some (next, _) => walk parent next rest

/-- The inodes that `walk` looks up, each with the directory it is found in. -/
def visits (parent : Bool) : Nat → List Name → List (Nat × Nat)
  | _, [] => []
  | ip, name :: rest =>
    if (v.inode ip).type ≠ .dir then
      []
    else if parent = true ∧ rest = [] then
      []
    else
      match v.lookup ip name with
      | none => []
      | some (next, _) => (ip, next) :: visits parent next rest

/-- Where the lookup of a path starts. -/
def start (p : Fin nproc) (path : Path) : Nat :=
  if path.head? = some slash then rootino else v.cwd p

def namex (p : Fin nproc) (path : Path) (parent : Bool) : Option (Nat × Name) :=
  v.walk parent (v.start p path) (elements path)

def namei (p : Fin nproc) (path : Path) : Option Nat := (v.namex p path false).map Prod.fst

def nameiparent (p : Fin nproc) (path : Path) : Option (Nat × Name) := v.namex p path true

/-- Some process has the inode as its current directory or has it open. -/
def InUse (i : Nat) : Prop := (∃ p, v.cwd p = i) ∨ ∃ p fd, v.ofile p fd = some i

instance (i : Nat) : Decidable (v.InUse i) := by
  unfold InUse
  infer_instance

/-! ## Changes -/

def addEntry (dp : Nat) (e : Dirent) : Files := v.setInode dp ((v.inode dp).addEntry e)

def clearEntry (dp off : Nat) : Files := v.setInode dp ((v.inode dp).clearEntry off)

/-- Free an inode that has no links and is not in use. -/
def release (i : Nat) : Files :=
  if (v.inode i).nlink = 0 ∧ ¬ v.InUse i then v.setInode i (v.inode i).freed else v

/-- Is there no room for another entry? -/
def Full (dp : Nat) : Prop := ¬ Fits (freeEntry (v.inode dp).entries)

instance (dp : Nat) : Decidable (v.Full dp) := by
  unfold Full
  infer_instance

/-- A directory has one subdirectory more, or less. -/
def countDir (type : FileType) (dp : Nat) (f : Nat → Nat) : Files :=
  if type = .dir then v.setNlink dp (f (v.inode dp).nlink) else v

/-- The entries of a new directory. -/
def addDots (type : FileType) (dp ip : Nat) : Files :=
  if type = .dir then (v.addEntry ip ⟨ip, dot⟩).addEntry ip ⟨dp, dotdot⟩ else v

/-- A free inode gets a type. -/
def allocate (ip : Nat) (type : FileType) : Files := v.setInode ip { Inode.zero with type := type }

/-- A new inode is set up, and named. -/
def newInode (dp : Nat) (name : Name) (ip : Nat) (type : FileType) (major minor : Nat) : Files :=
  ((((v.allocate ip type).setInode ip
    { (v.allocate ip type).inode ip with major := major, minor := minor, nlink := 1 }).countDir type dp
      (· + 1)).addDots type dp ip).addEntry dp ⟨ip, name⟩

/-- The links of a removed name are taken back. -/
def dropName (dp ip off : Nat) : Files :=
  let v₁ := (v.clearEntry dp off).countDir (v.inode ip).type dp (· - 1)
  v₁.setNlink ip ((v₁.inode ip).nlink - 1)

end Files

/-! ## Calls -/

namespace Files

variable (v : Files)

def link (p : Fin nproc) (old new : Path) : Except Stop (Int × Files) :=
  match v.namei p old with
  | none => .ok (-1, v)
  | some ip =>
    if (v.inode ip).type = .dir then
      .ok (-1, v)
    else
      match v.nameiparent p new with
      | none => .ok (-1, v)
      | some (dp, name) =>
        match v.lookup dp name with
        | some (j, _) => if j = dp then .error .diverge else .ok (-1, v)
        | none =>
          if v.Full dp then .error (.panic "dirlink")
          else .ok (0, (v.setNlink ip ((v.inode ip).nlink + 1)).addEntry dp ⟨ip, name⟩)

def unlink (p : Fin nproc) (path : Path) : Except Stop (Int × Files) :=
  match v.nameiparent p path with
  | none => .ok (-1, v)
  | some (dp, name) =>
    if name = dot ∨ name = dotdot then
      .ok (-1, v)
    else
      match v.lookup dp name with
      | none => .ok (-1, v)
      | some (ip, off) =>
        if (v.inode ip).type = .dir ∧ isdirempty (v.inode ip) = false then
          .ok (-1, v)
        else if Fits off then
          .ok (0, (v.dropName dp ip off).release ip)
        else
          .error (.panic "unlink: writei")

def create (p : Fin nproc) (path : Path) (type : FileType) (major minor : Nat) :
    Except Stop (Option Nat × Files) :=
  match v.nameiparent p path with
  | none => .ok (none, v)
  | some (dp, name) =>
    match v.lookup dp name with
    | some (ip, _) =>
      if type = .file ∧ (v.inode ip).type = .file then .ok (some ip, v) else .ok (none, v)
    | none =>
      match v.freeInode with
      | none => .error (.panic "ialloc: no inodes")
      | some ip =>
        if v.Full dp then .error (.panic "dirlink")
        else .ok (some ip, v.newInode dp name ip type major minor)

def mkinode (p : Fin nproc) (path : Path) (type : FileType) (major minor : Nat) : Except Stop (Int × Files) :=
  match v.create p path type major minor with
  | .error e => .error e
  | .ok (none, v') => .ok (-1, v')
  | .ok (some _, v') => .ok (0, v')

def openInode (p : Fin nproc) (path : Path) (omode : Nat) : Except Stop (Option Nat × Files) :=
  if omode &&& oCreate ≠ 0 then
    v.create p path .file 0 0
  else
    match v.namei p path with
    | none => .ok (none, v)
    | some ip => if (v.inode ip).type = .dir ∧ omode ≠ oRdonly then .ok (none, v) else .ok (some ip, v)

def «open» (p : Fin nproc) (path : Path) (omode : Nat) : Except Stop (Int × Files) :=
  match v.openInode p path omode with
  | .error e => .error e
  | .ok (none, v') => .ok (-1, v')
  | .ok (some ip, v') =>
    match v'.newFile p with
    | none => .ok (-1, v')
    | some fd => .ok (fd, v'.setFile p fd (some ip))

def chdir (p : Fin nproc) (path : Path) : Except Stop (Int × Files) :=
  match v.namei p path with
  | none => .ok (-1, v)
  | some ip =>
    if (v.inode ip).type ≠ .dir then .ok (-1, v)
    else .ok (0, (v.setCwd p ip).release (v.cwd p))

def close (p : Fin nproc) (fd : Nat) : Except Stop (Int × Files) :=
  if h : fd < nofile then
    match v.ofile p ⟨fd, h⟩ with
    | none => .ok (-1, v)
    | some ip => .ok (0, (v.setFile p ⟨fd, h⟩ none).release ip)
  else
    .ok (-1, v)

end Files

/-- What a call returns and leaves, or how it stops. -/
def Call.effect (v : Files) : Call → Except Stop (Int × Files)
  | .mkdir p path => v.mkinode p path .dir 0 0
  | .mknod p path major minor => v.mkinode p path .dev major minor
  | .open p path omode => v.open p path omode
  | .link p old new => v.link p old new
  | .unlink p path => v.unlink p path
  | .chdir p path => v.chdir p path
  | .close p fd => v.close p fd

/-- The directory that an `unlink` is to remove. -/
def Files.removedDir (v : Files) (p : Fin nproc) (path : Path) : Option Nat :=
  match v.nameiparent p path with
  | none => none
  | some (dp, name) =>
    if name = dot ∨ name = dotdot then
      none
    else
      match v.lookup dp name with
      | none => none
      | some (ip, _) =>
        if (v.inode ip).type = .dir ∧ isdirempty (v.inode ip) = true then some ip else none

/-- No `unlink` of a directory that is in use. -/
def Call.Quiet (v : Files) : Call → Prop
  | .unlink p path => ∀ d ∈ v.removedDir p path, ¬ v.InUse d
  | _ => True

instance (v : Files) (c : Call) : Decidable (c.Quiet v) := by
  cases c <;> unfold Call.Quiet <;> infer_instance

/-! ## The invariant -/

/-- What holds between calls: a tree of directories, no process uses a free inode, and an allocated
    inode without links is in use. -/
structure Good (v : Files) : Prop where
  tree : Tree v.inode
  held : ∀ i, v.InUse i → (v.inode i).type ≠ .free
  kept : ∀ i, (v.inode i).type ≠ .free → (v.inode i).nlink = 0 → v.InUse i

section Lookup

variable {v v' : Files} {p : Fin nproc} {path : Path} {dp ip : Nat} {name : Name}

/-- An inode with a name has a link. -/
theorem lookup_nlink (h : Tree v.inode) (hl : v.lookup dp name = some (ip, off)) : (v.inode ip).nlink ≠ 0 := by
  obtain ⟨hmem, hne⟩ := findEntry_mem hl
  exact h.nlink_entry hmem hne

/-- An inode that is allocated, and linked or held: it is not freed when a reference in flight is given
    back. -/
def Kept (v : Files) (held : Nat → Nat) (i : Nat) : Prop :=
  (v.inode i).type ≠ .free ∧ ((v.inode i).nlink ≠ 0 ∨ 0 < held i)

/-- No entry dangles. A removed directory, which is held, may still have an entry for itself. -/
def Live (v : Files) (held : Nat → Nat) : Prop :=
  ∀ d name j off, v.lookup d name = some (j, off) → Kept v held j

theorem Good.live (h : Good v) (held : Nat → Nat) : Live v held := by
  intro d name j off hl
  have hlink := lookup_nlink h.tree hl
  exact ⟨h.tree.alive hlink, .inl hlink⟩

/-- A lookup for the parent ends at a directory. -/
theorem walk_parent_dir (h : v.walk true ip els = some (dp, name)) :
    (v.inode dp).type = .dir := by
  induction els generalizing ip with
  | nil => exact nomatch h
  | cons el els ih =>
    unfold Files.walk at h
    split at h
    · exact nomatch h
    · rename_i hdir
      split at h
      · cases h
        exact not_not.mp hdir
      · split at h
        · exact nomatch h
        · exact ih h

theorem nameiparent_dir (h : v.nameiparent p path = some (dp, name)) : (v.inode dp).type = .dir :=
  walk_parent_dir h

/-- What a lookup finds is where it started, or is kept. -/
theorem walk_found {parent : Bool} {start : Nat} {held : Nat → Nat} (hlive : Live v held)
    (h : v.walk parent start els = some (ip, name)) : ip = start ∨ Kept v held ip := by
  induction els generalizing start with
  | nil =>
    unfold Files.walk at h
    split at h
    · exact nomatch h
    · cases h
      exact .inl rfl
  | cons el els ih =>
    unfold Files.walk at h
    split at h
    · exact nomatch h
    · split at h
      · cases h
        exact .inl rfl
      · split at h
        · exact nomatch h
        · rename_i next off hl
          rcases ih h with rfl | hn
          · exact .inr (hlive _ _ _ _ hl)
          · exact .inr hn

theorem start_alive (h : Good v) : (v.inode (v.start p path)).type ≠ .free := by
  unfold Files.start
  split
  · rw [h.tree.root]
    exact nofun
  · exact h.held _ (.inl ⟨p, rfl⟩)

/-- A path leads to an inode that is allocated. -/
theorem namei_alive (h : Good v) (hn : v.namei p path = some ip) : (v.inode ip).type ≠ .free := by
  unfold Files.namei Files.namex at hn
  obtain ⟨⟨j, name⟩, hw, rfl⟩ := Option.map_eq_some_iff.mp hn
  rcases walk_found (h.live fun _ => 0) hw with hs | hkept
  · show (v.inode j).type ≠ .free
    rw [hs]
    exact start_alive h
  · exact hkept.1

/-- Names that are not in a directory are not those which are always there. -/
theorem name_of_lookup_none (h : Tree v.inode) (hd : (v.inode dp).type = .dir)
    (hl : v.lookup dp name = none) : name ≠ dot ∧ name ≠ dotdot := by
  have hself := (h.lt_of_dir hd).1
  have hup := (h.lt_of_dir (h.up_dir hd)).1
  unfold Files.lookup at hl
  rw [h.dots dp hd] at hl
  unfold findEntry at hl
  rw [if_neg hself.ne'] at hl
  split at hl
  · cases hl
  · rename_i hdot
    unfold findEntry at hl
    rw [if_neg hup.ne'] at hl
    split at hl
    · cases hl
    · rename_i hdotdot
      exact ⟨Ne.symm hdot, Ne.symm hdotdot⟩

/-- What is looked up by a name that is not `.` or `..` is counted as a name. -/
theorem lookup_nameCount (h : Tree v.inode) (hdir : (v.inode dp).type = .dir)
    (hname : name ≠ dot ∧ name ≠ dotdot) (hl : v.lookup dp name = some (ip, off)) :
    nameCount v.inode dp ip ≠ 0 := by
  obtain ⟨_, hget, _⟩ := h.findEntry_names hdir hname hl
  have hpos : 0 < nameCount v.inode dp ip :=
    List.countP_pos_iff.mpr ⟨_, List.mem_of_getElem? hget, by simp⟩
  omega

end Lookup

section Effects

variable {v v' : Files} {p : Fin nproc} {path : Path} {dp ip i : Nat} {name : Name} {out : Int}

theorem inUse_congr (hc : v'.cwd = v.cwd) (ho : v'.ofile = v.ofile) : v'.InUse i ↔ v.InUse i := by
  unfold Files.InUse
  rw [hc, ho]

/-- The invariant after a change by which an inode gets a name in a directory. -/
theorem Good.of_named (h : Good v) {A B : Inode}
    (hinode : v'.inode = update (update v.inode ip A) dp B) (ht : Tree v'.inode)
    (hc : v'.cwd = v.cwd) (ho : v'.ofile = v.ofile) (hA : A.type ≠ .free ∧ A.nlink ≠ 0)
    (hB : B.type = .dir) : Good v' := by
  have hdp : (v'.inode dp).type = .dir := by
    rw [hinode, update_self]
    exact hB
  have hother : ∀ i, i ≠ dp → i ≠ ip → v'.inode i = v.inode i := by
    intro i hid hii
    rw [hinode, update_of_ne hid, update_of_ne hii]
  have hip : ip ≠ dp → v'.inode ip = A := by
    intro hne
    rw [hinode, update_of_ne hne, update_self]
  refine ⟨ht, fun i hi => ?_, fun i htype hn => ?_⟩
  all_goals by_cases hid : i = dp
  · rw [hid, hdp]
    exact nofun
  · by_cases hii : i = ip
    · subst hii
      rw [hip hid]
      exact hA.1
    · rw [hother i hid hii]
      exact h.held i ((inUse_congr hc ho).mp hi)
  · rw [hid] at hn
    exact absurd hn (ht.nlink_dir hdp)
  · by_cases hii : i = ip
    · subst hii
      rw [hip hid] at hn
      exact absurd hn hA.2
    · rw [hother i hid hii] at htype hn
      exact (inUse_congr hc ho).mpr (h.kept i htype hn)

theorem release_cwd : (v.release i).cwd = v.cwd := by
  unfold Files.release
  split <;> rfl

theorem release_ofile : (v.release i).ofile = v.ofile := by
  unfold Files.release
  split <;> rfl

/-- Nothing but the inode that is released may be without links and not in use. -/
theorem Good.release (ht : Tree v.inode) (hheld : ∀ j, v.InUse j → (v.inode j).type ≠ .free)
    (hkept : ∀ j, j ≠ i → (v.inode j).type ≠ .free → (v.inode j).nlink = 0 → v.InUse j)
    (hi : (v.inode i).type ≠ .free) : Good (v.release i) := by
  by_cases hlast : (v.inode i).nlink = 0 ∧ ¬ v.InUse i
  · have hrel : v.release i = v.setInode i (v.inode i).freed := if_pos hlast
    have hfile : (v.inode i).type ≠ .dir := fun hd => ht.nlink_dir hd hlast.1
    have huse : ∀ j, (v.setInode i (v.inode i).freed).InUse j ↔ v.InUse j := fun j => inUse_congr rfl rfl
    rw [hrel]
    refine ⟨ht.free_file hfile hi hlast.1, fun j hj => ?_, fun j htype hn => ?_⟩
    · rw [huse] at hj
      have hne : j ≠ i := by
        rintro rfl
        exact hlast.2 hj
      rw [Files.setInode_inode, update_of_ne hne]
      exact hheld j hj
    · by_cases hji : j = i
      · subst hji
        rw [Files.setInode_inode, update_self] at htype
        exact absurd rfl htype
      · rw [Files.setInode_inode, update_of_ne hji] at htype hn
        rw [huse]
        exact hkept j hji htype hn
  · have hrel : v.release i = v := if_neg hlast
    rw [hrel]
    refine ⟨ht, hheld, fun j htype hn => ?_⟩
    by_cases hji : j = i
    · subst hji
      by_contra huse
      exact hlast ⟨hn, huse⟩
    · exact hkept j hji htype hn

/-- `link` keeps the tree: one name and one link more. -/
theorem link_good {old new : Path} (h : Good v) (he : v.link p old new = .ok (out, v')) : Good v' := by
  unfold Files.link at he
  split at he
  · cases he
    exact h
  rename_i ip hip
  split at he
  · cases he
    exact h
  rename_i hfile
  split at he
  · cases he
    exact h
  rename_i dp name hparent
  split at he
  · split at he
    · exact nomatch he
    · cases he
      exact h
  rename_i hnone
  split at he
  · exact nomatch he
  cases he
  have hdir := nameiparent_dir hparent
  have hne : dp ≠ ip := by
    rintro rfl
    exact hfile hdir
  have halive := namei_alive h hip
  have hinode : ((v.setNlink ip ((v.inode ip).nlink + 1)).addEntry dp ⟨ip, name⟩).inode =
      update (update v.inode ip { v.inode ip with nlink := (v.inode ip).nlink + 1 }) dp
        ((v.inode dp).addEntry ⟨ip, name⟩) := by
    simp [Files.addEntry, Files.setNlink, hne]
  have htree := h.tree.link hdir hfile halive (name_of_lookup_none h.tree hdir hnone)
    (A := { v.inode ip with nlink := (v.inode ip).nlink + 1 }) rfl (h.tree.plain ip hfile) rfl
  exact h.of_named hinode (hinode ▸ htree) rfl rfl ⟨halive, Nat.succ_ne_zero _⟩ hdir

/-- The inodes after `create` has made a new one. -/
theorem newInode_inode (hip : ip ≠ 0) (hne : ip ≠ dp) :
    (v.newInode dp name ip type major minor).inode =
      update (update v.inode ip
        ⟨type, major, minor, 1, if type = .dir then [⟨ip, dot⟩, ⟨dp, dotdot⟩] else []⟩) dp
        { (v.inode dp).addEntry ⟨ip, name⟩ with
          nlink := if type = .dir then (v.inode dp).nlink + 1 else (v.inode dp).nlink } := by
  have hfirst : putEntry [] (freeEntry []) ⟨ip, dot⟩ = [⟨ip, dot⟩] := rfl
  have hsecond : putEntry [⟨ip, dot⟩] (freeEntry [⟨ip, dot⟩]) ⟨dp, dotdot⟩ = [⟨ip, dot⟩, ⟨dp, dotdot⟩] := by
    rw [freeEntry_cons (by simpa using hip), putEntry_cons]
    rfl
  funext q
  by_cases hd : type = .dir
  · by_cases hqd : q = dp
    · subst hqd
      simp [Files.newInode, Files.countDir, Files.addDots, Files.addEntry, Files.setNlink, Files.allocate,
        hd, hne, hne.symm, Inode.addEntry]
    · by_cases hqi : q = ip
      · subst hqi
        simp [Files.newInode, Files.countDir, Files.addDots, Files.addEntry, Files.setNlink, Files.allocate,
          hd, hne, Inode.addEntry, Inode.zero, hfirst, hsecond]
      · simp [Files.newInode, Files.countDir, Files.addDots, Files.addEntry, Files.setNlink, Files.allocate,
          hd, hqd, hqi]
  · by_cases hqd : q = dp
    · subst hqd
      simp [Files.newInode, Files.countDir, Files.addDots, Files.addEntry, Files.allocate, hd, hne.symm,
        Inode.addEntry]
    · by_cases hqi : q = ip
      · subst hqi
        simp [Files.newInode, Files.countDir, Files.addDots, Files.addEntry, Files.allocate, hd, hne, Inode.zero]
      · simp [Files.newInode, Files.countDir, Files.addDots, Files.addEntry, Files.allocate, hd, hqd, hqi]

theorem freeInode_some (h : v.freeInode = some ip) :
    (v.inode ip).type = .free ∧ 0 < ip ∧ ip < ninodes := by
  have hmem := List.mem_range'_1.mp (List.mem_of_find?_eq_some h)
  refine ⟨by simpa using List.find?_some h, by omega, by omega⟩

theorem freeInode_ne (h : v.freeInode = some ip) (hdir : (v.inode dp).type = .dir) : ip ≠ dp := by
  rintro rfl
  rw [(freeInode_some h).1] at hdir
  exact nomatch hdir

theorem newInode_cwd :
    (v.newInode dp name ip type major minor).cwd = v.cwd ∧
      (v.newInode dp name ip type major minor).ofile = v.ofile := by
  unfold Files.newInode Files.addDots Files.countDir
  split <;> exact ⟨rfl, rfl⟩

/-- A new file or directory is part of the tree. -/
theorem newInode_good (h : Good v) (htype : type ≠ .free) (hdir : (v.inode dp).type = .dir)
    (hnone : v.lookup dp name = none) (hfree : v.freeInode = some ip) :
    Good (v.newInode dp name ip type major minor) := by
  obtain ⟨hipfree, hip⟩ := freeInode_some hfree
  have hne := freeInode_ne hfree hdir
  have hname := name_of_lookup_none h.tree hdir hnone
  have hinode : (v.newInode dp name ip type major minor).inode = _ := newInode_inode hip.1.ne' hne
  have htree : Tree (v.newInode dp name ip type major minor).inode := by
    rw [hinode]
    by_cases hd : type = .dir
    · simp only [hd, if_true]
      exact h.tree.mkdir hdir hip hipfree hname rfl rfl rfl rfl
    · simp only [hd, if_false]
      exact h.tree.mkfile hdir hip hipfree hname ⟨hd, htype⟩ rfl rfl
  exact h.of_named hinode htree newInode_cwd.1 newInode_cwd.2 ⟨htype, Nat.one_ne_zero⟩ hdir

/-- `create` returns an inode that it finds or makes, or none. -/
theorem create_ok (he : v.create p path type major minor = .ok (r, v')) :
    (v' = v ∧ ∀ ip, r = some ip → ∃ dp name off, v.lookup dp name = some (ip, off)) ∨
      ∃ dp name ip, r = some ip ∧ v' = v.newInode dp name ip type major minor ∧
        (v.inode dp).type = .dir ∧ v.lookup dp name = none ∧ v.freeInode = some ip := by
  unfold Files.create at he
  split at he
  · cases he
    exact .inl ⟨rfl, nofun⟩
  rename_i dp name hparent
  split at he
  · rename_i hl
    split at he
    · cases he
      refine .inl ⟨rfl, ?_⟩
      rintro _ ⟨⟩
      exact ⟨dp, name, _, hl⟩
    · cases he
      exact .inl ⟨rfl, nofun⟩
  rename_i hnone
  split at he
  · exact nomatch he
  rename_i ip hfree
  split at he
  · exact nomatch he
  cases he
  exact .inr ⟨dp, name, ip, rfl, rfl, nameiparent_dir hparent, hnone, hfree⟩

theorem create_good (h : Good v) (htype : type ≠ .free)
    (he : v.create p path type major minor = .ok (r, v')) : Good v' := by
  rcases create_ok he with ⟨rfl, -⟩ | ⟨dp, name, ip, -, rfl, hdir, hnone, hfree⟩
  · exact h
  · exact newInode_good h htype hdir hnone hfree

/-- An inode that `create` returns has a link. -/
theorem create_nlink (h : Good v) (he : v.create p path type major minor = .ok (some ip, v')) :
    (v'.inode ip).nlink ≠ 0 := by
  rcases create_ok he with ⟨rfl, hfound⟩ | ⟨dp, name, ip, ⟨⟩, rfl, hdir, -, hfree⟩
  · obtain ⟨dp, name, off, hl⟩ := hfound ip rfl
    exact lookup_nlink h.tree hl
  · have hne := freeInode_ne hfree hdir
    rw [newInode_inode (freeInode_some hfree).2.1.ne' hne, update_of_ne hne, update_self]
    exact Nat.one_ne_zero

/-- `create` leaves the references of processes alone. -/
theorem create_procs (he : v.create p path type major minor = .ok (r, v')) :
    v'.cwd = v.cwd ∧ v'.ofile = v.ofile := by
  rcases create_ok he with ⟨rfl, -⟩ | ⟨dp, name, ip, -, rfl, -⟩
  · exact ⟨rfl, rfl⟩
  · exact newInode_cwd

theorem mkinode_good (h : Good v) (htype : type ≠ .free)
    (he : v.mkinode p path type major minor = .ok (out, v')) : Good v' := by
  unfold Files.mkinode at he
  split at he
  · exact nomatch he
  · rename_i hc
    cases he
    exact create_good h htype hc
  · rename_i hc
    cases he
    exact create_good h htype hc

/-- What `open` finds or creates is not free. -/
theorem openInode_good (h : Good v) (he : v.openInode p path omode = .ok (r, v')) :
    Good v' ∧ ∀ ip, r = some ip → (v'.inode ip).type ≠ .free := by
  unfold Files.openInode at he
  split at he
  · have htype : FileType.file ≠ .free := nofun
    refine ⟨create_good h htype he, fun ip hr => ?_⟩
    subst hr
    exact (create_good h htype he).tree.alive (create_nlink h he)
  · split at he
    · cases he
      exact ⟨h, nofun⟩
    · rename_i ip hn
      split at he
      · cases he
        exact ⟨h, nofun⟩
      · cases he
        refine ⟨h, ?_⟩
        rintro _ ⟨⟩
        exact namei_alive h hn

/-- A process comes to use one more inode. -/
theorem Good.use (h : Good v) (hinode : v'.inode = v.inode)
    (huse : ∀ i, v'.InUse i → v.InUse i ∨ (v.inode i).type ≠ .free)
    (hstill : ∀ i, v.InUse i → v'.InUse i) : Good v' := by
  refine ⟨hinode ▸ h.tree, fun i hi => ?_, fun i htype hn => ?_⟩
  · rw [hinode]
    exact (huse i hi).elim (h.held i) id
  · rw [hinode] at htype hn
    exact hstill i (h.kept i htype hn)

theorem fdalloc_none (h : v.newFile p = some fd) : v.ofile p fd = none := by
  unfold Files.newFile at h
  split at h
  · exact nomatch h
  · simpa using List.find?_some h

theorem ofile_setFile (q : Fin nproc) (k : Fin nofile) :
    (v.setFile p fd f).ofile q k = if q = p ∧ k = fd then f else v.ofile q k := by
  by_cases hq : q = p
  · subst hq
    by_cases hk : k = fd
    · subst hk
      simp
    · simp [hk]
  · simp [hq]

/-- `open` makes the process use the inode. -/
theorem open_good (h : Good v) (he : v.open p path omode = .ok (out, v')) : Good v' := by
  unfold Files.open at he
  split at he
  · exact nomatch he
  · rename_i ho
    cases he
    exact (openInode_good h ho).1
  rename_i ip v1 ho
  obtain ⟨h1, halive⟩ := openInode_good h ho
  split at he
  · cases he
    exact h1
  rename_i fd hfd
  cases he
  refine h1.use rfl (fun i hi => ?_) fun i hi => ?_
  · rcases hi with hc | ⟨q, k, hf⟩
    · exact .inl (.inl hc)
    · rw [ofile_setFile] at hf
      split at hf
      · cases hf
        exact .inr (halive _ rfl)
      · exact .inl (.inr ⟨q, k, hf⟩)
  · rcases hi with hc | ⟨q, k, hf⟩
    · exact .inl hc
    · refine .inr ⟨q, k, ?_⟩
      rw [ofile_setFile, if_neg, hf]
      rintro ⟨rfl, rfl⟩
      rw [fdalloc_none hfd] at hf
      exact nomatch hf

/-- `chdir` leaves one directory and uses another. -/
theorem chdir_good (h : Good v) (he : v.chdir p path = .ok (out, v')) : Good v' := by
  unfold Files.chdir at he
  split at he
  · cases he
    exact h
  rename_i ip hip
  split at he
  · cases he
    exact h
  cases he
  have huse : ∀ i, (v.setCwd p ip).InUse i → v.InUse i ∨ i = ip := by
    rintro i (⟨q, hq⟩ | hf)
    · by_cases hqp : q = p
      · subst hqp
        rw [Files.setCwd_cwd, update_self] at hq
        exact .inr hq.symm
      · rw [Files.setCwd_cwd, update_of_ne hqp] at hq
        exact .inl (.inl ⟨q, hq⟩)
    · exact .inl (.inr hf)
  refine Good.release h.tree (fun j hj => ?_) (fun j hne htype hn => ?_) (h.held _ (.inl ⟨p, rfl⟩))
  · rcases huse j hj with hj | rfl
    · exact h.held j hj
    · show (v.inode j).type ≠ .free
      exact namei_alive h hip
  · rcases h.kept j htype hn with ⟨q, hq⟩ | hf
    · refine .inl ⟨q, ?_⟩
      rw [Files.setCwd_cwd, update_of_ne]
      · exact hq
      · rintro rfl
        exact hne hq.symm
    · exact .inr hf

/-- `close` frees a file that has lost its names. -/
theorem close_good {fd : Nat} (h : Good v) (he : v.close p fd = .ok (out, v')) : Good v' := by
  unfold Files.close at he
  split at he
  · rename_i hfd
    split at he
    · cases he
      exact h
    · rename_i ip hip
      cases he
      refine Good.release h.tree (fun j hj => ?_) (fun j hne htype hn => ?_) (h.held ip (.inr ⟨p, _, hip⟩))
      · refine h.held j ?_
        rcases hj with hc | ⟨q, k, hf⟩
        · exact .inl hc
        · rw [ofile_setFile] at hf
          split at hf
          · exact nomatch hf
          · exact .inr ⟨q, k, hf⟩
      · rcases h.kept j htype hn with hc | ⟨q, k, hf⟩
        · exact .inl hc
        · refine .inr ⟨q, k, ?_⟩
          rw [ofile_setFile, if_neg, hf]
          rintro ⟨rfl, rfl⟩
          rw [hip] at hf
          cases hf
          exact hne rfl
  · cases he
    exact h

theorem dropName_cwd :
    (v.dropName dp ip off).cwd = v.cwd ∧ (v.dropName dp ip off).ofile = v.ofile := by
  unfold Files.dropName Files.countDir
  split <;> exact ⟨rfl, rfl⟩

/-- The inodes after a name has been removed. -/
theorem dropName_inode (hne : ip ≠ dp) :
    (v.dropName dp ip off).inode =
      update (update v.inode ip { v.inode ip with nlink := (v.inode ip).nlink - 1 }) dp
        { (v.inode dp).clearEntry off with
          nlink := if (v.inode ip).type = .dir then (v.inode dp).nlink - 1 else (v.inode dp).nlink } := by
  funext q
  by_cases hqi : q = ip
  · subst hqi
    by_cases hd : (v.inode q).type = .dir <;>
      simp [Files.dropName, Files.countDir, Files.clearEntry, Files.setNlink, hd, hne]
  · by_cases hqd : q = dp
    · subst hqd
      by_cases hd : (v.inode ip).type = .dir <;>
        simp [Files.dropName, Files.countDir, Files.clearEntry, Files.setNlink, hd, hqi, Inode.clearEntry]
    · by_cases hd : (v.inode ip).type = .dir <;>
        simp [Files.dropName, Files.countDir, Files.clearEntry, Files.setNlink, hd, hqi, hqd]

section Drop

variable (h : Good v) (hdir : (v.inode dp).type = .dir) (hname : name ≠ dot ∧ name ≠ dotdot)
  (hl : v.lookup dp name = some (ip, off))

include h hdir hname hl

/-- A file loses a name. -/
theorem dropName_good_file (hfile : (v.inode ip).type ≠ .dir) : Good ((v.dropName dp ip off).release ip) := by
  obtain ⟨hoff, hget, hip⟩ := h.tree.findEntry_names hdir hname hl
  have hlink := lookup_nlink h.tree hl
  have hne : ip ≠ dp := by
    rintro rfl
    exact hfile hdir
  have hinode : (v.dropName dp ip off).inode = _ := dropName_inode hne
  rw [if_neg hfile] at hinode
  have htree : Tree (v.dropName dp ip off).inode := by
    rw [hinode]
    exact h.tree.unlink hdir hfile hoff hget hip hfile (h.tree.plain ip hfile) (by dsimp only; omega)
      fun hf => absurd hf (h.tree.alive hlink)
  have htype : ∀ j, ((v.dropName dp ip off).inode j).type = (v.inode j).type := by
    intro j
    rw [hinode]
    by_cases hjd : j = dp
    · subst hjd
      rw [update_self]
      rfl
    · rw [update_of_ne hjd]
      by_cases hji : j = ip
      · subst hji
        rw [update_self]
      · rw [update_of_ne hji]
  have huse : ∀ j, (v.dropName dp ip off).InUse j ↔ v.InUse j := fun j =>
    inUse_congr dropName_cwd.1 dropName_cwd.2
  refine Good.release htree (fun j hj => ?_) (fun j hji halive hn => ?_) ?_
  · rw [htype]
    exact h.held j ((huse j).mp hj)
  · rw [huse]
    rw [htype] at halive
    refine h.kept j halive ?_
    -- a directory of the tree has a link
    have hnodir : (v.inode j).type ≠ .dir := by
      intro hd
      rw [← htype] at hd
      exact htree.nlink_dir hd hn
    have hjd : j ≠ dp := by
      rintro rfl
      exact hnodir hdir
    rwa [hinode, update_of_ne hjd, update_of_ne hji] at hn
  · rw [htype]
    exact h.tree.alive hlink

/-- An empty directory that nobody uses is removed. -/
theorem dropName_good_dir (hd : (v.inode ip).type = .dir) (hempty : isdirempty (v.inode ip) = true)
    (hidle : ¬ v.InUse ip) : Good ((v.dropName dp ip off).release ip) := by
  obtain ⟨hoff, hget, hip⟩ := h.tree.findEntry_names hdir hname hl
  have hcount := lookup_nameCount h.tree hdir hname hl
  obtain ⟨_, _, hone⟩ := h.tree.of_empty hd hempty hcount
  have hne := h.tree.ne_of_nameCount hcount
  have hinode : (v.dropName dp ip off).inode = _ := dropName_inode hne
  rw [if_pos hd] at hinode
  have hold : (v.dropName dp ip off).inode ip = { v.inode ip with nlink := (v.inode ip).nlink - 1 } := by
    rw [hinode, update_of_ne hne, update_self]
  have hfrees : ((v.dropName dp ip off).inode ip).nlink = 0 ∧ ¬ (v.dropName dp ip off).InUse ip := by
    rw [inUse_congr dropName_cwd.1 dropName_cwd.2, hold, hone]
    exact ⟨rfl, hidle⟩
  -- nobody uses the directory, so that `release` frees it at once
  generalize hA : ((v.dropName dp ip off).inode ip).freed = A
  have hAfree : A.type = .free ∧ A.entries = [] ∧ A.nlink = 0 := by
    rw [← hA]
    exact ⟨rfl, rfl, hfrees.1⟩
  have hfinal : ((v.dropName dp ip off).release ip).inode =
      update (update v.inode ip A) dp
        { (v.inode dp).clearEntry off with nlink := (v.inode dp).nlink - 1 } := by
    unfold Files.release
    rw [if_pos hfrees, Files.setInode_inode, hA, hinode, update_comm hne.symm, update_idem]
  have htree : Tree ((v.dropName dp ip off).release ip).inode := by
    rw [hfinal]
    exact h.tree.rmdir hdir hd hempty hoff hget hAfree rfl
  have huse : ∀ j, ((v.dropName dp ip off).release ip).InUse j ↔ v.InUse j := fun j =>
    inUse_congr (release_cwd.trans dropName_cwd.1) (release_ofile.trans dropName_cwd.2)
  have hdp : (((v.dropName dp ip off).release ip).inode dp).type = .dir := by
    rw [hfinal, update_self]
    exact hdir
  have hother : ∀ j, j ≠ dp → j ≠ ip →
      ((v.dropName dp ip off).release ip).inode j = v.inode j := by
    intro j hjd hji
    rw [hfinal, update_of_ne hjd, update_of_ne hji]
  refine ⟨htree, fun j hj => ?_, fun j halive hn => ?_⟩
  · rw [huse] at hj
    have hji : j ≠ ip := by
      rintro rfl
      exact hidle hj
    by_cases hjd : j = dp
    · rw [hjd, hdp]
      exact nofun
    · rw [hother j hjd hji]
      exact h.held j hj
  · by_cases hjd : j = dp
    · rw [hjd] at hn
      exact absurd hn (htree.nlink_dir hdp)
    · by_cases hji : j = ip
      · subst hji
        rw [hfinal, update_of_ne hjd, update_self] at halive
        exact absurd hAfree.1 halive
      · rw [hother j hjd hji] at halive hn
        exact (huse j).mpr (h.kept j halive hn)

end Drop

/-- `unlink` keeps the tree, unless it removes a directory that is in use. -/
theorem unlink_good (h : Good v) (hq : ∀ d ∈ v.removedDir p path, ¬ v.InUse d)
    (he : v.unlink p path = .ok (out, v')) : Good v' := by
  unfold Files.unlink at he
  unfold Files.removedDir at hq
  split at he
  · cases he
    exact h
  rename_i dp name hparent
  rw [hparent] at hq
  split at he
  · cases he
    exact h
  rename_i hname
  simp only [hname, if_false] at hq
  rw [not_or] at hname
  split at he
  · cases he
    exact h
  rename_i ip off hl
  rw [hl] at hq
  split at he
  · cases he
    exact h
  rename_i hempty
  split at he
  · cases he
    by_cases hd : (v.inode ip).type = .dir
    · have he : isdirempty (v.inode ip) = true := by
        by_contra hf
        exact hempty ⟨hd, by simpa using hf⟩
      exact dropName_good_dir h (nameiparent_dir hparent) hname hl hd he (hq ip (by simp [hd, he]))
    · exact dropName_good_file h (nameiparent_dir hparent) hname hl hd
  · exact nomatch he

/-- Calls keep the invariant unless a directory in use is removed. -/
theorem effect_good {c : Call} (h : Good v) (hq : c.Quiet v) (he : c.effect v = .ok (out, v')) : Good v' := by
  have hdir : FileType.dir ≠ .free := nofun
  have hdev : FileType.dev ≠ .free := nofun
  cases c with
  | mkdir p path =>
    simp only [Call.effect] at he
    exact mkinode_good h hdir he
  | mknod p path major minor =>
    simp only [Call.effect] at he
    exact mkinode_good h hdev he
  | «open» p path omode =>
    simp only [Call.effect] at he
    exact open_good h he
  | link p old new => exact link_good h he
  | unlink p path => exact unlink_good h hq he
  | chdir p path => exact chdir_good h he
  | close p fd => exact close_good h he

end Effects

end Xv6Paging.Dirs
