import Xv6Paging.Fs.DirCalls

/-! # Runs of the directory calls

    From the image that `mkfs` makes, every sequence of calls which never removes a
    directory in use keeps the directories a tree with exact link counts, and no entry
    dangles. A directory that is removed while it is in use breaks both: its `..` is not
    counted any more, so that the parent can be freed under it, and what is created in it
    is lost with it.
-/

namespace Xv6Paging.Dirs

open List Wp Holders
open Blocks (FileType ninode)

/-! ## The invariant of runs -/

/-- The state between calls. -/
structure Inv (s : State) : Prop where
  good : Good s.toFiles
  quiet : At s.toFiles s.holds [] [] s

section Step

variable {v v' : Files} {s s' : State} {c : Call} {e : Stop} {out : Int}

theorem create_error {path : Path} {type : FileType} {major minor : Nat}
    (h : v.create p path type major minor = .error e) : e ≠ .panic "ilock: no type" := by
  unfold Files.create at h
  split at h
  · exact nomatch h
  split at h
  · split at h <;> exact nomatch h
  split at h
  · cases h
    decide
  split at h
  · cases h
    decide
  · exact nomatch h

/-- No call is meant to stop at an inode without a type. -/
theorem effect_error (h : c.effect v = .error e) : e ≠ .panic "ilock: no type" := by
  have hmk : ∀ p path type major minor, v.mkinode p path type major minor = .error e →
      e ≠ .panic "ilock: no type" := by
    intro p path type major minor hm
    unfold Files.mkinode at hm
    split at hm
    · rename_i hc
      cases hm
      exact create_error hc
    · cases hm
    · cases hm
  cases c with
  | mkdir p path =>
    simp only [Call.effect] at h
    exact hmk _ _ _ _ _ h
  | mknod p path major minor =>
    simp only [Call.effect] at h
    exact hmk _ _ _ _ _ h
  | «open» p path omode =>
    simp only [Call.effect] at h
    unfold Files.open Files.openInode at h
    split at h
    · rename_i ho
      cases h
      split at ho
      · exact create_error ho
      · split at ho
        · cases ho
        · split at ho <;> cases ho
    · cases h
    · split at h <;> cases h
  | link p old new =>
    simp only [Call.effect, Files.link] at h
    split at h
    · cases h
    split at h
    · cases h
    split at h
    · cases h
    split at h
    · split at h
      · cases h
        rintro ⟨⟩
      · cases h
    split at h
    · cases h
      decide
    · cases h
  | unlink p path =>
    simp only [Call.effect, Files.unlink] at h
    split at h
    · cases h
    split at h
    · cases h
    split at h
    · cases h
    split at h
    · cases h
    split at h
    · cases h
    · cases h
      decide
  | chdir p path =>
    simp only [Call.effect, Files.chdir] at h
    split at h
    · cases h
    · split at h <;> cases h
  | close p fd =>
    simp only [Call.effect, Files.close] at h
    split at h
    · split at h <;> cases h
    · cases h

theorem wp_call (h : Inv s) : wp c.exec (fun out s' => c.effect s.toFiles = .ok (out, s'.toFiles) ∧
    At s'.toFiles s'.holds [] [] s') (fun e _ => Refused (c.effect s.toFiles) s.toFiles e) s := by
  refine wp_post (wp_exec h.good h.quiet) ?_
  rintro out s' ⟨v', heff, h'⟩
  have hv := h'.files
  subst hv
  exact ⟨heff, h'⟩

theorem call_inv (h : Inv s) (hq : c.Quiet s.toFiles) :
    wp c.exec (fun _ s' => Inv s') (fun e _ => e ≠ .panic "ilock: no type") s := by
  refine wp_mono (wp_call h) ?_ ?_
  · rintro out s' ⟨heff, h'⟩
    exact ⟨effect_good h.good hq heff, h'⟩
  · rintro e _ (hstop | ⟨rfl, _⟩)
    · exact effect_error hstop
    · decide

end Step

/-! ## The image -/

/-- What `mkfs` makes an image of: there are inodes for all files, and no file has the name of an
    entry that is always there. -/
structure Image where
  names : List Name
  inside : rootino + names.length < ninodes
  named : ∀ n ∈ names, n.take dirsiz ≠ dot ∧ n.take dirsiz ≠ dotdot

section Mkfs

variable (img : Image)

/-- The entries of the files. -/
def fileEntries (names : List Name) (k : Nat) : List Dirent :=
  (names.zipIdx k).map fun x => (⟨rootino + 1 + x.2, x.1.take dirsiz⟩ : Dirent)

/-- Inodes are handed out in order: each file has one entry. -/
theorem countP_fileEntries (names : List Name) (k i : Nat) :
    (fileEntries names k).countP (fun e => e.inum == i) =
      if rootino + 1 + k ≤ i ∧ i < rootino + 1 + k + names.length then 1 else 0 := by
  induction names generalizing k with
  | nil =>
    rw [if_neg]
    · rfl
    · simp only [length_nil]
      omega
  | cons n names ih =>
    have hcons : fileEntries (n :: names) k = ⟨rootino + 1 + k, n.take dirsiz⟩ :: fileEntries names (k + 1) := by
      simp [fileEntries, zipIdx_cons]
    rw [hcons, countP_cons, ih (k + 1)]
    simp only [beq_iff_eq, length_cons]
    by_cases hk : rootino + 1 + k = i
    · rw [if_pos hk, if_neg (by omega), if_pos (by omega)]
    · rw [if_neg hk, Nat.add_zero]
      exact if_congr (by omega) rfl rfl

theorem mem_fileEntries {names : List Name} (he : e ∈ fileEntries names k) :
    ∃ n ∈ names, e.name = n.take dirsiz := by
  obtain ⟨x, hx, rfl⟩ := mem_map.mp he
  exact ⟨x.1, fst_mem_of_mem_zipIdx hx, rfl⟩

/-- The root directory: the files, and free entries. -/
theorem rootEntries_eq (names : List Name) : ∃ m, rootEntries names =
    ⟨rootino, dot⟩ :: ⟨rootino, dotdot⟩ :: (fileEntries names 0 ++ List.replicate m ⟨0, []⟩) :=
  ⟨_, rfl⟩

theorem mkfs_names : ∃ m, (mkfsInode img.names rootino).names =
    fileEntries img.names 0 ++ List.replicate m ⟨0, []⟩ := by
  obtain ⟨m, hm⟩ := rootEntries_eq img.names
  refine ⟨m, ?_⟩
  simp [mkfsInode, Inode.names, hm]

theorem mkfs_type (hi : (mkfsInode img.names i).type = .dir) : i = rootino := by
  unfold mkfsInode at hi
  split at hi
  · assumption
  · split at hi <;> exact nomatch hi

theorem mkfs_entries (hi : i ≠ rootino) : (mkfsInode img.names i).entries = [] := by
  unfold mkfsInode
  rw [if_neg hi]
  split <;> rfl

theorem mkfs_nameCount (hi : i ≠ 0) : nameCount (mkfsInode img.names) q i =
    if q = rootino ∧ rootino + 1 ≤ i ∧ i < rootino + 1 + img.names.length then 1 else 0 := by
  by_cases hq : q = rootino
  · subst hq
    obtain ⟨m, hm⟩ := mkfs_names img
    have hfree : (List.replicate m (⟨0, []⟩ : Dirent)).countP (fun e => e.inum == i) = 0 := by
      refine countP_eq_zero.mpr fun e he => ?_
      rw [eq_of_mem_replicate he]
      simpa using hi.symm
    rw [nameCount, hm, countP_append, countP_fileEntries, hfree, Nat.add_zero]
    exact if_congr (by simp) rfl rfl
  · rw [if_neg fun h => hq h.1, nameCount, Inode.names, mkfs_entries img hq]
    rfl

theorem mkfs_treeLinks (hi : i ≠ 0) : treeLinks (mkfsInode img.names) i =
    if rootino + 1 ≤ i ∧ i < rootino + 1 + img.names.length then 1 else 0 := by
  have hup : ∀ q, upCount (mkfsInode img.names) q i = 0 := by
    intro q
    exact if_neg fun h => h.2.1 (mkfs_type img h.1)
  have hroot : rootino ∈ Finset.range ninodes := Finset.mem_range.mpr (by decide)
  unfold treeLinks
  rw [Finset.sum_eq_single rootino]
  · rw [hup, mkfs_nameCount img hi, Nat.add_zero]
    exact if_congr (by simp) rfl rfl
  · intro q _ hq
    rw [hup, mkfs_nameCount img hi, if_neg (fun h => hq h.1), Nat.add_zero]
  · exact fun h => absurd hroot h

theorem mkfs_tree : Tree (mkfsInode img.names) := by
  have hin := img.inside
  have hroot : mkfsInode img.names rootino = ⟨.dir, 0, 0, 1, rootEntries img.names⟩ := if_pos rfl
  obtain ⟨m, hm⟩ := rootEntries_eq img.names
  have hup : (mkfsInode img.names rootino).up = rootino := by
    rw [hroot, Inode.up]
    simp [hm]
  refine ⟨by rw [hroot], hup, fun i hi => ?_, fun i hi => ?_, fun i hi => ?_, fun d hd => ?_, fun d e he hne => ?_,
    fun i hi => ?_, fun d hd q => ?_, ⟨fun _ => 0, fun d hd hne => absurd (mkfs_type img hd) hne⟩⟩
  · unfold mkfsInode at hi ⊢
    split at hi
    · cases hi
    · split at hi
      · cases hi
      · rename_i h1 h2
        rw [if_neg h1, if_neg h2]
        rfl
  · unfold mkfsInode at hi
    split at hi
    · rename_i h1
      rw [h1]
      decide
    · split at hi
      · omega
      · exact absurd rfl hi
  · refine mkfs_entries img ?_
    rintro rfl
    rw [hroot] at hi
    exact hi rfl
  · obtain rfl := mkfs_type img hd
    rw [hup]
    obtain ⟨m', hm'⟩ := mkfs_names img
    rw [hroot] at hm' ⊢
    simp [hm, Inode.names]
  · by_cases hd : d = rootino
    · subst hd
      obtain ⟨m, hm⟩ := mkfs_names img
      rw [hm] at he
      rcases mem_append.mp he with he | he
      · obtain ⟨n, hn, hname⟩ := mem_fileEntries he
        rw [hname]
        exact img.named n hn
      · rw [eq_of_mem_replicate he] at hne
        exact absurd rfl hne
    · rw [Inode.names, mkfs_entries img hd] at he
      cases he
  · rw [mkfs_treeLinks img hi]
    unfold mkfsInode
    by_cases h1 : i = rootino
    · rw [if_pos h1, if_pos h1, if_neg (by omega)]
    · rw [if_neg h1, if_neg h1]
      by_cases h2 : rootino < i ∧ i ≤ rootino + img.names.length
      · rw [if_pos h2, if_pos (by omega)]
      · rw [if_neg h2, if_neg (by omega)]
        rfl
  · obtain rfl := mkfs_type img hd
    rw [mkfs_nameCount img (by decide), if_neg (by omega), if_neg (by simp)]

theorem mkfs_inUse : (mkfs img.names).InUse i ↔ i = rootino := by
  constructor
  · rintro (⟨_, hp⟩ | ⟨_, _, hf⟩)
    · exact hp.symm
    · exact nomatch hf
  · rintro rfl
    exact .inl ⟨⟨0, by decide⟩, rfl⟩

theorem mkfs_good : Good (mkfs img.names).toFiles := by
  refine ⟨mkfs_tree img, fun i hi => ?_, fun i htype hn => ?_⟩
  · rw [(mkfs_inUse img).mp hi]
    show (mkfsInode img.names rootino).type ≠ .free
    rw [(mkfs_tree img).root]
    exact nofun
  · -- Everything `mkfs` makes has a link.
    exfalso
    have hn' : (mkfsInode img.names i).nlink = 0 := hn
    have htype' : (mkfsInode img.names i).type ≠ .free := htype
    unfold mkfsInode at hn' htype'
    split at hn'
    · exact nomatch hn'
    · rename_i h1
      rw [if_neg h1] at htype'
      split at hn'
      · exact nomatch hn'
      · rename_i h2
        rw [if_neg h2] at htype'
        exact htype' rfl

/-- Places of processes that all refer to one inode by their current directories. -/
theorem holders_cwd {target : Fin n ⊕ Fin n × Fin m → Option Nat}
    (hcwd : ∀ p, target (.inl p) = some r) (hfile : ∀ x, target (.inr x) = none) (i : Nat) :
    holders (allPlaces n m) target i = if i = r then n else 0 := by
  unfold holders
  by_cases hi : i = r
  · have hset : (allPlaces n m).filter (fun u => target u = some i) =
        Finset.univ.map Function.Embedding.inl := by
      ext u
      cases u with
      | inl p => simp [mem_allPlaces, hcwd, hi]
      | inr x => simp [hfile]
    rw [hset, Finset.card_map, Finset.card_univ, Fintype.card_fin, if_pos hi]
  · rw [if_neg hi, Finset.card_eq_zero]
    refine Finset.filter_eq_empty_iff.mpr fun u _ => ?_
    cases u with
    | inl p =>
      rw [hcwd]
      exact fun h => hi (Option.some.inj h).symm
    | inr x =>
      rw [hfile]
      exact nofun

theorem mkfs_inv : Inv (mkfs img.names) := by
  have hholds : ∀ i, (mkfs img.names).holds i = if i = rootino then nproc else 0 :=
    holders_cwd (fun _ => rfl) fun _ => rfl
  have hgood := mkfs_good img
  have hcore : ∀ i, i ≠ rootino → (mkfs img.names).core i = ⟨0, false, false⟩ := fun i hi => if_neg hi
  have hpos : ∀ i, 0 < ((mkfs img.names).core i).ref → i = rootino := by
    intro i hi
    by_contra hne
    rw [hcore i hne] at hi
    exact lt_irrefl 0 hi
  refine ⟨hgood, rfl, fun i => ?_, fun i => ?_, fun _ hi => (nomatch hi), fun i hi hn => ?_, fun i hi => ?_⟩
  · rw [hholds, count_nil, Nat.add_zero]
    by_cases hi : i = rootino
    · subst hi
      rfl
    · rw [hcore i hi, if_neg hi]
  · have hunlocked : ((mkfs img.names).core i).locked = false := by
      by_cases hi : i = rootino
      · subst hi
        rfl
      · rw [hcore i hi]
    rw [hunlocked]
    simp
  · rw [hpos i hi] at hn
    exact absurd hn (hgood.tree.nlink_dir hgood.tree.root)
  · rw [hpos i hi]
    exact hgood.held _ ((mkfs_inUse img).mpr rfl)

end Mkfs

/-! ## Dangling entries and link counts -/

/-- Entries of directories that are allocated, or the current one of a process, refer to allocated
    inodes. -/
def NoDangling (s : State) : Prop :=
  ∀ d, (s.inode d).type = .dir ∨ (∃ p, s.cwd p = d) →
    ∀ e ∈ (s.inode d).entries, e.inum ≠ 0 → (s.inode e.inum).type ≠ .free

/-- Links are counted; what nothing refers to is free. -/
structure LinksExact (s : State) : Prop where
  /-- The root has one link more, which `mkfs` gives it. -/
  exact : ∀ i, i ≠ 0 → (s.inode i).type ≠ .free →
    (s.inode i).nlink = linkCount s.inode i + if i = rootino then 1 else 0
  freed : ∀ i, i ≠ 0 → (∀ d, (s.inode d).type = .dir → ∀ e ∈ (s.inode d).entries, e.inum = i → e.name = dot) →
    ¬ s.InUse i → (s.inode i).type = .free

theorem Inv.noDangling (h : Inv s) : NoDangling s := by
  intro d _ e he hne
  exact h.good.tree.alive (h.good.tree.nlink_entry he hne)

theorem Inv.linksExact (h : Inv s) : LinksExact s := by
  have ht := h.good.tree
  refine ⟨fun i hi _ => ?_, fun i hi hnone huse => ?_⟩
  · rw [ht.linkCount_eq hi]
    exact ht.exact i hi
  · -- An allocated inode would have no links, and so be in use.
    by_contra htype
    have hroot : i ≠ rootino := by
      rintro rfl
      have hentry : (⟨rootino, dotdot⟩ : Dirent) ∈ (s.inode rootino).entries := by
        rw [ht.dots rootino ht.root, ht.root_up]
        simp
      exact absurd (hnone rootino ht.root _ hentry rfl) (by decide)
    have hzero : linkCount s.inode i = 0 := by
      refine Finset.sum_eq_zero fun q _ => ?_
      split
      · rename_i hq
        refine countP_eq_zero.mpr fun e he hcount => ?_
        simp only [countsFor, Bool.and_eq_true, beq_iff_eq, bne_iff_ne] at hcount
        exact hcount.1.2 (hnone q hq e he hcount.1.1)
      · rfl
    have hnlink := ht.exact i hi
    rw [← ht.linkCount_eq hi, hzero, if_neg hroot] at hnlink
    exact huse (h.good.kept i htype hnlink)

/-- Every run in which no directory in use is removed ends in a state with the invariant. -/
theorem run_inv {img : Image} {calls : List Call}
    (hq : Run.Along Call.exec (fun c s => c.Quiet s.toFiles) calls (mkfs img.names)) :
    wp (Run.run Call.exec calls) (fun _ s => Inv s) (fun e _ => e ≠ .panic "ilock: no type") (mkfs img.names) :=
  Run.wp_invariant (fun _ _ h hc => call_inv h hc) (mkfs_inv img) hq

/-- No entry dangles after any sequence of calls that removes no directory in use, and no lookup
    finds an inode that is free. -/
theorem entries_never_dangle (img : Image) (calls : List Call)
    (hq : Run.Along Call.exec (fun c s => c.Quiet s.toFiles) calls (mkfs img.names)) :
    (∀ outs s, Run.run Call.exec calls (mkfs img.names) = .ok outs s → NoDangling s) ∧
      ∀ e s, Run.run Call.exec calls (mkfs img.names) = .error e s → e ≠ .panic "ilock: no type" := by
  have hrun := run_inv hq
  exact ⟨fun outs s hx => ((wp_of_ok hx).mp hrun).noDangling, fun e s hx => (wp_of_error hx).mp hrun⟩

/-- Link counts are exact after any sequence of calls that removes no directory in use. -/
theorem link_counts_exact (img : Image) (calls : List Call)
    (hq : Run.Along Call.exec (fun c s => c.Quiet s.toFiles) calls (mkfs img.names)) :
    ∀ outs s, Run.run Call.exec calls (mkfs img.names) = .ok outs s → LinksExact s :=
  fun _ _ hx => ((wp_of_ok hx).mp (run_inv hq)).linksExact

/-! ### Examples -/

/-- An image with one file, `R`. -/
def oneFile : Image := ⟨[[82]], by decide, by decide⟩

def proc0 : Fin nproc := ⟨0, by decide⟩

/-- `mkdir a; link R a/g; unlink a/g; unlink a`. -/
def dirSession : List Call :=
  [.mkdir proc0 [97], .link proc0 [82] [97, 47, 103], .unlink proc0 [97, 47, 103], .unlink proc0 [97]]

theorem dirSession_returns : Run.returns (Run.run Call.exec dirSession) (mkfs oneFile.names) = true := by
  decide +kernel

theorem dirSession_quiet :
    Run.Along Call.exec (fun c s => c.Quiet s.toFiles) dirSession (mkfs oneFile.names) := by
  decide +kernel

theorem entries_never_dangle_dirSession : ∃ outs s,
    Run.run Call.exec dirSession (mkfs oneFile.names) = .ok outs s ∧ NoDangling s := by
  obtain ⟨outs, hx⟩ := Run.exists_of_returns dirSession_returns
  exact ⟨outs, _, hx, (entries_never_dangle oneFile dirSession dirSession_quiet).1 _ _ hx⟩

theorem link_counts_exact_dirSession : ∃ outs s,
    Run.run Call.exec dirSession (mkfs oneFile.names) = .ok outs s ∧ LinksExact s := by
  obtain ⟨outs, hx⟩ := Run.exists_of_returns dirSession_returns
  exact ⟨outs, _, hx, link_counts_exact oneFile dirSession dirSession_quiet _ _ hx⟩

/-- `mkdir a; mkdir a/b; chdir a/b; unlink ../b; unlink ../../a`. -/
def removedParent : List Call :=
  [.mkdir proc0 [97], .mkdir proc0 [97, 47, 98], .chdir proc0 [97, 47, 98],
    .unlink proc0 [46, 46, 47, 98], .unlink proc0 [46, 46, 47, 46, 46, 47, 97]]

/-- The `..` of a current directory refers to a freed inode. -/
theorem removedParent_dangles : ∃ outs s,
    Run.run Call.exec removedParent (mkfs oneFile.names) = .ok outs s ∧ ¬ NoDangling s := by
  obtain ⟨outs, s, hx, hfacts⟩ := Run.exists_of_endsIn
    (x := Run.run Call.exec removedParent) (s := mkfs oneFile.names)
    (P := fun s => decide (s.cwd proc0 = 4 ∧ ⟨3, dotdot⟩ ∈ (s.inode 4).entries ∧ (s.inode 3).type = .free))
    (by decide +kernel)
  obtain ⟨hcwd, hentry, hfree⟩ := of_decide_eq_true hfacts
  exact ⟨outs, s, hx, fun h => h 4 (.inr ⟨proc0, hcwd⟩) _ hentry (by decide) hfree⟩

/-- Looking the entry up panics. -/
theorem removed_parent_dangles : (∃ outs s,
    Run.run Call.exec removedParent (mkfs oneFile.names) = .ok outs s ∧ ¬ NoDangling s) ∧
    Run.stopOf (Run.run Call.exec (removedParent ++ [.chdir proc0 [46, 46]])) (mkfs oneFile.names) =
      some (.panic "ilock: no type") :=
  ⟨removedParent_dangles, by decide +kernel⟩

/-- `mkdir a; chdir a; unlink ../a; open f with O_CREATE; close; chdir /`. -/
def lostFile : List Call :=
  [.mkdir proc0 [97], .chdir proc0 [97], .unlink proc0 [46, 46, 47, 97], .open proc0 [102] 0x202,
    .close proc0 0, .chdir proc0 [47]]

/-- A file created in a removed directory keeps its link when the directory is freed, and is never
    freed itself. -/
theorem file_lost_with_directory : ∃ outs s,
    Run.run Call.exec lostFile (mkfs oneFile.names) = .ok outs s ∧ (s.inode 4).type = .file ∧
      (s.inode 4).nlink = 1 ∧ linkCount s.inode 4 = 0 ∧ ¬ s.InUse 4 ∧ ¬ LinksExact s := by
  obtain ⟨outs, s, hx, hfacts⟩ := Run.exists_of_endsIn
    (x := Run.run Call.exec lostFile) (s := mkfs oneFile.names)
    (P := fun s => decide ((s.inode 4).type = .file ∧ (s.inode 4).nlink = 1 ∧ linkCount s.inode 4 = 0 ∧
      ¬ s.InUse 4)) (by decide +kernel)
  obtain ⟨htype, hnlink, hlinks, huse⟩ := of_decide_eq_true hfacts
  refine ⟨outs, s, hx, htype, hnlink, hlinks, huse, fun h => ?_⟩
  have hexact := h.exact 4 (by decide) (by rw [htype]; exact nofun)
  rw [hnlink, hlinks] at hexact
  exact absurd hexact (by decide)

end Xv6Paging.Dirs
