import Xv6Paging.Fs.DirRuns

/-! # Full directories

    A directory has at most `maxfile * bsize / direntSize` entries. The calls that enter a
    name do not check this beforehand, and `dirlink` panics when `writei` refuses. There
    are two more ways in which they do not behave: `link` with a new name that stands for
    the directory itself waits for a lock which it holds, and `open` keeps the file that
    it has created when there is no descriptor for it.
-/

namespace Xv6Paging.Dirs

open List Wp Holders
open Blocks (FileType ninode)

variable {P : Nat → Name → Prop} {dp ip k : Nat} {name : Name} {c : Call}

/-! ## Calls that enter a name -/

/-- `mkdir`, `mknod`, `link`, and `open` with `O_CREATE`. -/
def Call.Creates : Call → Prop
  | .mkdir _ _ | .mknod _ _ _ _ | .link _ _ _ => True
  | .open _ _ omode => omode &&& oCreate ≠ 0
  | _ => False

/-- The directory and the name of the entry that a call is to make. -/
def Call.entry (v : Files) : Call → Option (Nat × Name)
  | .mkdir p path | .mknod p path _ _ | .open p path _ => v.nameiparent p path
  | .link p old new =>
    match v.namei p old with
    | none => none
    | some ip => if (v.inode ip).type = .dir then none else v.nameiparent p new
  | _ => none

/-- A property of the entry, if there is one to make. -/
def atEntry (P : Nat → Name → Prop) : Option (Nat × Name) → Prop
  | none => False
  | some (dp, name) => P dp name

@[simp]
theorem atEntry_none : atEntry P none ↔ False := Iff.rfl

@[simp]
theorem atEntry_some :
    atEntry P (some (dp, name)) ↔ P dp name := Iff.rfl

instance (P : Nat → Name → Prop) [∀ dp name, Decidable (P dp name)] : DecidablePred (atEntry P)
  | none => .isFalse id
  | some (dp, name) => inferInstanceAs (Decidable (P dp name))

/-- The name is new, and the directory has reached the maximum file size. -/
def Call.Fills (v : Files) (c : Call) : Prop :=
  atEntry (fun dp name => v.lookup dp name = none ∧ v.Full dp) (c.entry v)

/-- The new name of a link stands for the directory it is in. -/
def Call.LinksSelf (v : Files) : Call → Prop
  | .link p old new =>
    atEntry (fun dp name => (v.lookup dp name).map Prod.fst = some dp) ((Call.link p old new).entry v)
  | _ => False

/-- A file is created, and there is no descriptor for it. -/
def Call.NoDescriptor (v : Files) : Call → Prop
  | .open p path _ => atEntry (fun dp name => v.lookup dp name = none ∧ v.newFile p = none) (v.nameiparent p path)
  | _ => False

instance : DecidablePred Call.Creates
  | .mkdir .. | .mknod .. | .link .. => .isTrue trivial
  | .open _ _ omode => inferInstanceAs (Decidable (omode &&& oCreate ≠ 0))
  | .unlink .. | .chdir .. | .close .. => .isFalse id

instance (v : Files) (c : Call) : Decidable (c.Fills v) :=
  inferInstanceAs (Decidable (atEntry _ _))

instance (v : Files) : DecidablePred (Call.LinksSelf v)
  | .link .. => inferInstanceAs (Decidable (atEntry _ _))
  | .mkdir .. | .mknod .. | .open .. | .unlink .. | .chdir .. | .close .. => .isFalse id

instance (v : Files) : DecidablePred (Call.NoDescriptor v)
  | .open .. => inferInstanceAs (Decidable (atEntry _ _))
  | .mkdir .. | .mknod .. | .link .. | .unlink .. | .chdir .. | .close .. => .isFalse id

/-- A call returns, with `-1` if the directory is full, and a call that fails changes nothing. -/
def Graceful (c : Call) (s : State) : Prop :=
  ∃ out s', c.exec s = .ok out s' ∧ (c.Fills s.toFiles → out = -1) ∧
    (out = -1 → s'.toFiles = s.toFiles ∧ ∀ i, (s'.core i).ref = (s.core i).ref)

/-! ## What the calls are for -/

section Effect

variable {v : Files} {p : Fin nproc} {path : Path} {type : FileType} {major minor : Nat}

/-- `create`, where an inode is left. -/
theorem create_cases (p : Fin nproc) (path : Path) (type : FileType) (major minor : Nat)
    (hfree : v.freeInode ≠ none) :
    (∃ r, v.create p path type major minor = .ok (r, v) ∧
      ∀ dp name, v.nameiparent p path = some (dp, name) → v.lookup dp name ≠ none) ∨
    (∃ dp name, v.nameiparent p path = some (dp, name) ∧ v.lookup dp name = none ∧
      ((v.Full dp ∧ v.create p path type major minor = .error (.panic "dirlink")) ∨
        (¬ v.Full dp ∧ ∃ ip, v.freeInode = some ip ∧
          v.create p path type major minor = .ok (some ip, v.newInode dp name ip type major minor)))) := by
  unfold Files.create
  cases hparent : v.nameiparent p path with
  | none => exact .inl ⟨none, rfl, nofun⟩
  | some x =>
    obtain ⟨dp, name⟩ := x
    cases hl : v.lookup dp name with
    | some y =>
      refine .inl ?_
      have hsome : ∀ d n, some (dp, name) = some (d, n) → v.lookup d n ≠ none := by
        rintro d n ⟨⟩
        rw [hl]
        exact nofun
      by_cases hfile : type = .file ∧ (v.inode y.1).type = .file
      · exact ⟨some y.1, by simp only [hl, if_pos hfile], hsome⟩
      · exact ⟨none, by simp only [hl, if_neg hfile], hsome⟩
    | none =>
      refine .inr ⟨dp, name, rfl, hl, ?_⟩
      obtain ⟨ip, hip⟩ := Option.ne_none_iff_exists'.mp hfree
      simp only [hip]
      by_cases hfull : v.Full dp
      · exact .inl ⟨hfull, by simp only [hl, if_pos hfull]⟩
      · exact .inr ⟨hfull, ip, rfl, by simp only [hl, if_neg hfull]⟩

theorem newInode_ne (name : Name) (major minor : Nat) (hfree : v.freeInode = some ip)
    (hdir : (v.inode dp).type = .dir) (htype : type ≠ .free) :
    v.newInode dp name ip type major minor ≠ v := by
  obtain ⟨hipfree, hip⟩ := freeInode_some hfree
  have hne := freeInode_ne hfree hdir
  intro heq
  have hsame := congrArg (fun w => (w.inode ip).type) heq
  simp only [newInode_inode hip.1.ne' hne, Function.update_of_ne hne, Function.update_self, hipfree] at hsame
  exact htype hsame

theorem newFile_newInode :
    (v.newInode dp name ip type major minor).newFile p = v.newFile p := by
  unfold Files.newFile Files.openFiles Files.fdalloc
  rw [newInode_cwd.2]

theorem fd_ne {fd : Fin nofile} : ((fd : Nat) : Int) ≠ -1 := by
  omega

/-- What a creating call is meant to do, it does if there is room, a descriptor, and no entry for the
    directory itself. -/
def Clean (v : Files) (c : Call) : Prop :=
  ∃ out v', c.effect v = .ok (out, v') ∧ (c.Fills v → out = -1) ∧ (out = -1 → v' = v)

/-- There is no new name where `create` finds the file. -/
theorem not_atEntry (hthere : ∀ dp name, o = some (dp, name) → v.lookup dp name ≠ none) :
    ¬ atEntry (fun dp name => v.lookup dp name = none ∧ P dp name) o := by
  cases o with
  | none => exact id
  | some x => exact fun h => hthere x.1 x.2 rfl h.1

theorem clean_mkinode (hfree : v.freeInode ≠ none)
    (heff : c.effect v = v.mkinode p path type major minor)
    (hentry : c.entry v = v.nameiparent p path) : Clean v c ↔ ¬ c.Fills v := by
  unfold Clean Call.Fills
  rw [heff, hentry, Files.mkinode]
  rcases create_cases p path type major minor hfree with
    ⟨r, hc, hthere⟩ | ⟨dp, name, hparent, hl, ⟨hfull, hc⟩ | ⟨hroom, ip, _, hc⟩⟩
  · rw [hc]
    have hno := not_atEntry (P := fun dp _ => v.Full dp) hthere
    refine ⟨fun _ => hno, fun _ => ?_⟩
    cases r with
    | none => exact ⟨-1, v, rfl, fun h => absurd h hno, fun _ => rfl⟩
    | some ip => exact ⟨0, v, rfl, fun h => absurd h hno, fun _ => rfl⟩
  · rw [hc]
    simp [hparent, hl, hfull]
  · rw [hc]
    simp [hparent, hroom]

theorem clean_open {omode : Nat} (hfree : v.freeInode ≠ none) (hcreates : omode &&& oCreate ≠ 0) :
    Clean v (.open p path omode) ↔
      ¬ ((Call.open p path omode).Fills v ∨ (Call.open p path omode).NoDescriptor v) := by
  have hcreate : v.openInode p path omode = v.create p path .file 0 0 := if_pos hcreates
  unfold Clean Call.Fills Call.NoDescriptor
  simp only [Call.effect, Call.entry, Files.open, hcreate]
  rcases create_cases p path .file 0 0 hfree with
    ⟨r, hc, hthere⟩ | ⟨dp, name, hparent, hl, ⟨hfull, hc⟩ | ⟨hroom, ip, hip, hc⟩⟩
  · rw [hc]
    have hno := not_atEntry (P := fun dp _ => v.Full dp) hthere
    have hno' := not_atEntry (P := fun _ _ => v.newFile p = none) hthere
    refine ⟨fun _ => fun hor => hor.elim hno hno', fun _ => ?_⟩
    cases r with
    | none => exact ⟨-1, v, rfl, fun h => absurd h hno, fun _ => rfl⟩
    | some ip =>
      cases hfd : v.newFile p with
      | none => exact ⟨-1, v, by simp only [hfd], fun h => absurd h hno, fun _ => rfl⟩
      | some fd => exact ⟨_, _, by simp only [hfd]; rfl, fun h => absurd h hno, fun h => absurd h fd_ne⟩
  · rw [hc]
    simp [hparent, hl, hfull]
  · rw [hc]
    have hfile : FileType.file ≠ .free := by rintro ⟨⟩
    have hne := newInode_ne name 0 0 hip (nameiparent_dir hparent) hfile
    simp only [hparent, newFile_newInode]
    cases hfd : v.newFile p with
    | none => simp [hne, hl]
    | some fd => simp [fd_ne, hroom]

theorem clean_link {old new : Path} : Clean v (.link p old new) ↔
    ¬ ((Call.link p old new).Fills v ∨ (Call.link p old new).LinksSelf v) := by
  unfold Clean Call.Fills Call.LinksSelf
  simp only [Call.effect, Call.entry, Files.link]
  cases hip : v.namei p old with
  | none => simp
  | some ip =>
    by_cases hdir : (v.inode ip).type = .dir
    · simp [hdir]
    · simp only [hdir, if_false]
      cases hparent : v.nameiparent p new with
      | none => simp
      | some x =>
        obtain ⟨dp, name⟩ := x
        cases hl : v.lookup dp name with
        | some y =>
          obtain ⟨j, off⟩ := y
          by_cases hself : j = dp
          · simp [hl, hself]
          · simp [hl, hself]
        | none =>
          by_cases hfull : v.Full dp
          · simp [hl, hfull]
          · simp [hl, hfull]

theorem clean_iff (hc : c.Creates) (hfree : v.freeInode ≠ none) :
    Clean v c ↔ ¬ (c.Fills v ∨ c.LinksSelf v ∨ c.NoDescriptor v) := by
  cases c with
  | mkdir p path =>
    rw [clean_mkinode hfree rfl rfl]
    simp [Call.LinksSelf, Call.NoDescriptor]
  | mknod p path major minor =>
    rw [clean_mkinode hfree rfl rfl]
    simp [Call.LinksSelf, Call.NoDescriptor]
  | «open» p path omode =>
    rw [clean_open hfree hc]
    simp [Call.LinksSelf]
  | link p old new =>
    rw [clean_link]
    simp [Call.NoDescriptor]
  | unlink p path => exact hc.elim
  | chdir p path => exact hc.elim
  | close p fd => exact hc.elim

end Effect

/-! ## Sequences of creating calls -/

/-- An inode is free, and the inode cache has room for what a call looks up. -/
def State.Spare (s : State) : Prop := s.freeInode ≠ none ∧ s.cached + 2 < ninode

instance (s : State) : Decidable s.Spare := by
  unfold State.Spare
  infer_instance

/-- Nothing keeps the call from behaving. -/
def Unhindered (c : Call) (s : State) : Prop :=
  s.Spare ∧ ¬ (c.Fills s.toFiles ∨ c.LinksSelf s.toFiles ∨ c.NoDescriptor s.toFiles)

instance (c : Call) (s : State) : Decidable (Unhindered c s) := by
  unfold Unhindered
  infer_instance

section Sequences

variable {s s' : State} {calls : List Call}

theorem Call.Creates.quiet (hc : c.Creates) : c.Quiet v := by
  cases c with
  | unlink p path => exact hc.elim
  | _ => trivial

/-- Between calls, what is cached is held. -/
theorem Inv.cached_eq (h : Inv s) : s.cached = heldCount s.holds := by
  unfold State.cached heldCount
  refine countP_congr fun i _ => ?_
  rw [h.quiet.refs i]
  rfl

/-- A call that is meant to return does so, with the references that it found. -/
theorem Inv.exec_ok {out : Int} (h : Inv s) (hcache : s.cached + 2 < ninode)
    (heff : c.effect s.toFiles = .ok (out, v')) : ∃ s', c.exec s = .ok out s' ∧ s'.toFiles = v' ∧
      At v' v'.holds [] [] s' := by
  have hcall := wp_call (c := c) h
  cases hx : c.exec s with
  | ok r t =>
    obtain ⟨heff', ht⟩ := (wp_of_ok hx).mp hcall
    rw [heff] at heff'
    cases heff'
    exact ⟨t, rfl, rfl, ht⟩
  | error e t =>
    rcases (wp_of_error hx).mp hcall with hstop | ⟨_, hfull⟩
    · rw [heff] at hstop
      exact nomatch hstop
    · rw [h.cached_eq] at hcache
      omega

/-- A call behaves if what it is meant to do does. -/
theorem graceful_iff_clean (h : Inv s) (hcache : s.cached + 2 < ninode) :
    Graceful c s ↔ Clean s.toFiles c := by
  constructor
  · intro hg
    obtain ⟨out, s', hx, hfull, hfail⟩ := hg
    have heff := ((wp_of_ok hx).mp (wp_call h)).1
    exact ⟨out, s'.toFiles, heff, hfull, fun hout => (hfail hout).1⟩
  · intro hclean
    obtain ⟨out, v', heff, hfull, hfail⟩ := hclean
    obtain ⟨s', hx, hv, hs'⟩ := h.exec_ok hcache heff
    refine ⟨out, s', hx, hfull, fun hout => ?_⟩
    have hsame := hfail hout
    refine ⟨hv.trans hsame, fun i => ?_⟩
    rw [hs'.refs i, h.quiet.refs i, hsame]

theorem graceful_iff (h : Inv s) (hc : c.Creates) (hspare : s.Spare) :
    Graceful c s ↔ ¬ (c.Fills s.toFiles ∨ c.LinksSelf s.toFiles ∨ c.NoDescriptor s.toFiles) :=
  (graceful_iff_clean h hspare.2).trans (clean_iff hc hspare.1)

/-- Calls that nothing hinders all return. -/
theorem graceful_run (h : Inv s) (hcreates : ∀ c ∈ calls, c.Creates)
    (hok : Run.Along Call.exec Unhindered calls s) :
    Run.Along Call.exec Graceful calls s ∧ ∃ outs s', Run.run Call.exec calls s = .ok outs s' := by
  -- The invariant is carried from call to call; creating calls remove no directory.
  induction calls generalizing s with
  | nil => exact ⟨trivial, [], s, rfl⟩
  | cons c calls ih =>
    have hc := hcreates c mem_cons_self
    have hg := (graceful_iff h hc hok.1.1).mpr hok.1.2
    have hg' := hg
    obtain ⟨out, s', hx, _⟩ := hg'
    have hs' : Inv s' := (wp_of_ok hx).mp (call_inv h hc.quiet)
    obtain ⟨halong, outs, t, ht⟩ := ih hs' (fun c' hc' => hcreates c' (mem_cons_of_mem c hc')) (hok.tail hx)
    refine ⟨⟨hg, ?_⟩, out :: outs, t, Run.run_cons hx ht⟩
    rw [hx]
    exact halong

end Sequences

/-- Sequences of creating calls: if nothing hinders them, all calls return and behave; and a call
    with free inodes behaves only if its directory is not full, its new name does not stand for the
    directory and, for `open`, there is a descriptor. -/
theorem creating_calls_graceful (img : Image) (calls : List Call) (hcreates : ∀ c ∈ calls, c.Creates) :
    (Run.Along Call.exec Unhindered calls (mkfs img.names) →
      Run.Along Call.exec Graceful calls (mkfs img.names) ∧
        ∃ outs s, Run.run Call.exec calls (mkfs img.names) = .ok outs s) ∧
    ∀ outs s, Run.run Call.exec calls (mkfs img.names) = .ok outs s → ∀ c : Call, c.Creates → s.Spare →
      (Graceful c s ↔ ¬ (c.Fills s.toFiles ∨ c.LinksSelf s.toFiles ∨ c.NoDescriptor s.toFiles)) := by
  constructor
  · exact graceful_run (mkfs_inv img) hcreates
  · intro outs s hrun c hc hspare
    have hquiet : Run.Along Call.exec (fun c s => c.Quiet s.toFiles) calls (mkfs img.names) :=
      Run.Along.of_forall fun op hop t => (hcreates op hop).quiet
    exact graceful_iff ((wp_of_ok hrun).mp (run_inv hquiet)) hc hspare

/-- `mkdir a; link R a/g; mknod a/d; open a/h with O_CREATE`. -/
def creatingSession : List Call :=
  [.mkdir proc0 [97], .link proc0 [82] [97, 47, 103], .mknod proc0 [97, 47, 100] 1 1,
    .open proc0 [97, 47, 104] 0x202]

theorem creating_calls_graceful_creatingSession :
    Run.Along Call.exec Graceful creatingSession (mkfs oneFile.names) ∧
      ∃ outs s, Run.run Call.exec creatingSession (mkfs oneFile.names) = .ok outs s :=
  (creating_calls_graceful oneFile creatingSession (by decide)).1 (by decide +kernel)

/-! ## A full root directory -/

section Fill

variable {used : List Dirent} {m : Nat}

theorem freeEntry_used (hused : ∀ e ∈ used, e.inum ≠ 0) :
    freeEntry (used ++ List.replicate m ⟨0, []⟩) = used.length := by
  induction used with
  | nil =>
    cases m with
    | zero => rfl
    | succ m => simp [freeEntry, replicate_succ, findIdx_cons]
  | cons a used ih =>
    rw [cons_append, freeEntry_cons (hused a mem_cons_self),
      ih fun e he => hused e (mem_cons_of_mem a he), length_cons]

/-- A new entry takes the first free slot, or lengthens the directory. -/
theorem putEntry_used (e : Dirent) :
    putEntry (used ++ List.replicate m ⟨0, []⟩) used.length e =
      (used ++ [e]) ++ List.replicate (m - 1) ⟨0, []⟩ := by
  induction used with
  | nil =>
    cases m with
    | zero => rfl
    | succ m => simp [putEntry, replicate_succ]
  | cons a used ih => rw [cons_append, length_cons, putEntry_cons, ih]; rfl

theorem findEntry_absent {es : List Dirent} (h : ∀ e ∈ es, e.inum ≠ 0 → e.name ≠ name) (off : Nat) :
    findEntry name off es = none := by
  induction es generalizing off with
  | nil => rfl
  | cons a es ih =>
    have hrest := ih (fun e he => h e (mem_cons_of_mem a he)) (off + 1)
    unfold findEntry
    by_cases hfree : a.inum = 0
    · rw [if_pos hfree, hrest]
    · rw [if_neg hfree, if_neg (h a mem_cons_self hfree), hrest]

end Fill

/-- A name of two bytes for each number. -/
def linkName (k : Nat) : Name := [UInt8.ofNat (100 + k / 100), UInt8.ofNat (100 + k % 100)]

/-- Links to `R` in the root directory. -/
def rootLink (k : Nat) : Call := .link proc0 [82] (linkName k)

theorem linkName_inj (hj : j < 10000) (hk : k < 10000) (h : linkName j = linkName k) : j = k := by
  simp only [linkName, List.cons.injEq, and_true, ← UInt8.toNat_inj, UInt8.toNat_ofNat'] at h
  omega

theorem elements_pair (ha : a ≠ slash) (hb : b ≠ slash) : elements [a, b] = [[a, b]] := by
  simp [elements, elementsFrom, skipelem, ha, hb, dirsiz]

theorem linkName_slash (hk : k < 10000) :
    UInt8.ofNat (100 + k / 100) ≠ slash ∧ UInt8.ofNat (100 + k % 100) ≠ slash := by
  simp only [ne_eq, ← UInt8.toNat_inj, UInt8.toNat_ofNat', slash]
  have : (47 : UInt8).toNat = 47 := rfl
  omega

/-- The root directory's entries after `k` links. -/
def linkedEntries (k : Nat) : List Dirent :=
  [⟨rootino, dot⟩, ⟨rootino, dotdot⟩, ⟨2, [82]⟩] ++ (List.range k).map fun j => ⟨2, linkName j⟩

/-- The state after `k` links. -/
structure Linked (k : Nat) (s : State) : Prop where
  inv : Inv s
  cwd : s.cwd = fun _ => rootino
  ofile : s.ofile = fun _ _ => none
  root : (s.inode rootino).type = .dir
  entries : (s.inode rootino).entries = linkedEntries k ++ List.replicate (29 - k) ⟨0, []⟩
  file : (s.inode 2).type = .file
  free : (s.inode 3).type = .free

section Linked

variable {s : State}

theorem linkedEntries_used : ∀ e ∈ linkedEntries k, e.inum ≠ 0 := by
  intro e he
  simp only [linkedEntries, mem_append, mem_cons, mem_map, not_mem_nil, or_false] at he
  rcases he with (rfl | rfl | rfl) | ⟨j, _, rfl⟩ <;> simp [rootino]

theorem length_linkedEntries : (linkedEntries k).length = k + 3 := by
  simp [linkedEntries]

theorem linkedEntries_succ : linkedEntries (k + 1) = linkedEntries k ++ [⟨2, linkName k⟩] := by
  simp [linkedEntries, range_succ]

theorem mkfs_linked : Linked 0 (mkfs oneFile.names) where
  inv := mkfs_inv oneFile
  cwd := rfl
  ofile := rfl
  root := rfl
  entries := by decide
  file := rfl
  free := rfl

section Linked

variable (h : Linked k s)

include h

/-- Nothing but the root directory is cached. -/
theorem Linked.spare : s.Spare := by
  constructor
  · intro hnone
    have := find?_eq_none.mp hnone 3 (by simp [ninodes])
    simp [h.free] at this
  · have htarget : ∀ i, s.holds i = if i = rootino then nproc else 0 :=
      holders_cwd (fun p => congrArg some (congrFun h.cwd p)) fun x => congrFun (congrFun h.ofile x.1) x.2
    have hcached : s.cached ≤ 1 := by
      rw [h.inv.cached_eq]
      calc heldCount s.holds ≤ (List.range ninodes).countP (· == rootino) := by
            refine countP_mono_left fun i _ hi => ?_
            rw [htarget i] at hi
            by_contra hne
            simp_all
        _ ≤ 1 := nodup_iff_count_le_one.mp nodup_range rootino
    have : ninode = 50 := rfl
    omega

theorem Linked.namei : s.toFiles.namei proc0 [82] = some 2 := by
  have hel : elements [82] = [[82]] := by decide
  have hlookup : s.toFiles.lookup rootino [82] = some (2, 2) := by
    rw [Files.lookup, h.entries]
    rfl
  have hstart : s.toFiles.start proc0 [82] = rootino := by
    rw [Files.start, if_neg (by decide), h.cwd]
  rw [Files.namei, Files.namex, hel, hstart, Files.walk, if_neg (not_not.mpr h.root), if_neg (by simp)]
  simp only [hlookup, Files.walk]
  rfl

theorem Linked.nameiparent (hk : k < 10000) :
    s.toFiles.nameiparent proc0 (linkName k) = some (rootino, linkName k) := by
  obtain ⟨ha, hb⟩ := linkName_slash hk
  have hstart : s.toFiles.start proc0 (linkName k) = rootino := by
    rw [Files.start, if_neg (by simpa [linkName] using ha), h.cwd]
  have hel : elements (linkName k) = [linkName k] := elements_pair ha hb
  rw [Files.nameiparent, Files.namex, hstart, hel, Files.walk, if_neg (not_not.mpr h.root), if_pos ⟨rfl, rfl⟩]

theorem Linked.lookup (hk : k < 10000) : s.toFiles.lookup rootino (linkName k) = none := by
  rw [Files.lookup, h.entries]
  refine findEntry_absent (fun e he hne => ?_) 0
  simp only [linkedEntries, mem_append, mem_cons, mem_map, not_mem_nil, or_false,
    mem_range, mem_replicate] at he
  have ha : UInt8.ofNat (100 + k / 100) ≠ 46 := by
    simp only [ne_eq, ← UInt8.toNat_inj, UInt8.toNat_ofNat']
    have : (46 : UInt8).toNat = 46 := rfl
    omega
  rcases he with ((rfl | rfl | rfl) | ⟨j, hj, rfl⟩) | ⟨_, rfl⟩
  · simp [dot, linkName]
  · intro heq
    exact ha (List.cons.inj heq).1.symm
  · simp [linkName]
  · exact fun heq => absurd (linkName_inj (by omega) hk heq) (by omega)
  · exact absurd rfl hne

theorem Linked.full_iff : s.toFiles.Full rootino ↔ 4477 ≤ k := by
  rw [Files.Full, Fits, h.entries, freeEntry_used linkedEntries_used, length_linkedEntries]
  have hmax : maxfile * bsize = 71680 := by decide
  have hsize : direntSize = 16 := rfl
  rw [hmax, hsize]
  omega

theorem Linked.effect (hk : k < 10000) : (rootLink k).effect s.toFiles =
    if 4477 ≤ k then .error (.panic "dirlink") else
      .ok (0, (s.toFiles.setNlink 2 ((s.inode 2).nlink + 1)).addEntry rootino ⟨2, linkName k⟩) := by
  have hdir : (s.inode 2).type ≠ .dir := by
    rw [h.file]
    exact nofun
  simp only [rootLink, Call.effect, Files.link, h.namei, h.nameiparent hk, h.lookup hk, if_neg hdir, h.full_iff]

/-- Up to the limit, every link succeeds. -/
theorem Linked.step (hk : k < 4477) : ∃ s', (rootLink k).exec s = .ok 0 s' ∧ Linked (k + 1) s' := by
  have heff := h.effect (by omega)
  rw [if_neg (by omega)] at heff
  obtain ⟨s', hx, hv, hs'⟩ := h.inv.exec_ok h.spare.2 heff
  have hinv : Inv s' := (wp_of_ok hx).mp (call_inv h.inv trivial)
  refine ⟨s', hx, hinv, ?_, ?_, ?_, ?_, ?_, ?_⟩
  · rw [hv]
    exact h.cwd
  · rw [hv]
    exact h.ofile
  · rw [hv]
    have hroot := h.root
    simpa [Files.addEntry, Files.setNlink, Inode.addEntry, rootino] using hroot
  · rw [hv]
    have hes : (((s.toFiles.setNlink 2 ((s.inode 2).nlink + 1)).addEntry rootino ⟨2, linkName k⟩).inode
        rootino).entries = putEntry (s.inode rootino).entries (freeEntry (s.inode rootino).entries)
          ⟨2, linkName k⟩ := by
      simp [Files.addEntry, Files.setNlink, Inode.addEntry, rootino]
    rw [hes, h.entries, freeEntry_used linkedEntries_used, putEntry_used, linkedEntries_succ]
    rfl
  · rw [hv]
    simp [Files.addEntry, Files.setNlink, rootino, h.file]
  · rw [hv]
    simp [Files.addEntry, Files.setNlink, rootino, h.free]

end Linked

theorem linked_run (hk : k ≤ 4477) :
    ∃ outs s, Run.run Call.exec ((List.range k).map rootLink) (mkfs oneFile.names) = .ok outs s ∧ Linked k s := by
  induction k with
  | zero => exact ⟨[], _, rfl, mkfs_linked⟩
  | succ k ih =>
    obtain ⟨outs, s, hrun, hs⟩ := ih (by omega)
    obtain ⟨s', hx, hs'⟩ := hs.step (by omega)
    refine ⟨outs ++ [0], s', ?_, hs'⟩
    rw [range_succ, map_append]
    exact Run.run_snoc hrun hx

end Linked

/-- After 4477 links to a file the root directory is full, and the next one panics. -/
theorem link_panics_full_directory : ∃ outs s s',
    Run.run Call.exec ((List.range 4477).map rootLink) (mkfs oneFile.names) = .ok outs s ∧ s.Spare ∧
      (rootLink 4477).exec s = .error (.panic "dirlink") s' := by
  obtain ⟨outs, s, hrun, hs⟩ := linked_run le_rfl
  have heff := hs.effect (by decide)
  rw [if_pos le_rfl] at heff
  have hcall := wp_call (c := rootLink 4477) hs.inv
  cases hx : (rootLink 4477).exec s with
  | ok out t =>
    have hok := ((wp_of_ok hx).mp hcall).1
    rw [heff] at hok
    exact nomatch hok
  | error e t =>
    rcases (wp_of_error hx).mp hcall with hstop | ⟨_, hfull⟩
    · rw [heff] at hstop
      cases hstop
      exact ⟨outs, s, t, hrun, hs.spare, hx⟩
    · have hspare := hs.spare.2
      rw [hs.inv.cached_eq] at hspare
      omega

end Xv6Paging.Dirs
