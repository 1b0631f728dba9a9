import Xv6Paging.Fs.Dirs

/-! # The directory tree

    Inodes as a tree: directories refer to their parent by `..`, and every directory but
    the root has exactly one name, in its parent. `Tree` states this together with exact
    link counts, for a table of inodes and with no regard to the cache or to processes.
    `Tree.relink` is the one rule by which changes of the tree are justified; what the
    system calls do are instances of it.
-/

namespace Xv6Paging.Dirs

open List Function
open Blocks (FileType)

variable {i j q : Nat} {e : Dirent} {A B : Inode}

/-! ## Counting -/

/-- The entries after `.` and `..`. -/
def Inode.names (ip : Inode) : List Dirent := ip.entries.drop 2

/-- What `..` refers to. -/
def Inode.up (ip : Inode) : Nat :=
  match ip.entries with
  | _ :: e :: _ => e.inum
  | _ => 0

section Counts

variable (t : Nat → Inode)

/-- Names of `i` in `q`. -/
def nameCount (q i : Nat) : Nat := (t q).names.countP fun e => e.inum == i

/-- Does the `..` of `q` count as a link to `i`? -/
def upCount (q i : Nat) : Nat := if (t q).type = .dir ∧ q ≠ rootino ∧ (t q).up = i then 1 else 0

/-- Links to `i` from all directories. -/
def treeLinks (i : Nat) : Nat := ∑ q ∈ Finset.range ninodes, (nameCount t q i + upCount t q i)

end Counts

section

variable {t t' : Nat → Inode}

/-- Two inodes have changed. -/
theorem treeLinks_change (hab : a ≠ b) (ha : a < ninodes) (hb : b < ninodes)
    (h : ∀ q, q ≠ a → q ≠ b → t' q = t q) :
    treeLinks t' i + (nameCount t a i + upCount t a i) + (nameCount t b i + upCount t b i) =
      treeLinks t i + (nameCount t' a i + upCount t' a i) + (nameCount t' b i + upCount t' b i) := by
  have hsplit : ∀ u : Nat → Inode, treeLinks u i =
      (nameCount u a i + upCount u a i) + ((nameCount u b i + upCount u b i) +
        ∑ q ∈ ((Finset.range ninodes).erase a).erase b, (nameCount u q i + upCount u q i)) := by
    intro u
    have hb' : b ∈ (Finset.range ninodes).erase a :=
      Finset.mem_erase.mpr ⟨hab.symm, Finset.mem_range.mpr hb⟩
    rw [treeLinks, ← Finset.add_sum_erase _ _ (Finset.mem_range.mpr ha), ← Finset.add_sum_erase _ _ hb']
  have hrest : ∑ q ∈ ((Finset.range ninodes).erase a).erase b, (nameCount t' q i + upCount t' q i) =
      ∑ q ∈ ((Finset.range ninodes).erase a).erase b, (nameCount t q i + upCount t q i) := by
    refine Finset.sum_congr rfl fun q hq => ?_
    obtain ⟨hqb, hq⟩ := Finset.mem_erase.mp hq
    have hqa := (Finset.mem_erase.mp hq).1
    simp only [nameCount, upCount, h q hqa hqb]
  rw [hsplit t, hsplit t', hrest]
  omega

theorem count_le_treeLinks (hq : q < ninodes) :
    nameCount t q i + upCount t q i ≤ treeLinks t i :=
  Finset.single_le_sum (f := fun q => nameCount t q i + upCount t q i) (fun _ _ => Nat.zero_le _)
    (Finset.mem_range.mpr hq)

end

/-! ## Trees -/

/-- A tree of directories with exact link counts. -/
structure Tree (t : Nat → Inode) : Prop where
  root : (t rootino).type = .dir
  root_up : (t rootino).up = rootino
  free : ∀ i, (t i).type = .free → (t i).nlink = 0
  inside : ∀ i, (t i).type ≠ .free → 0 < i ∧ i < ninodes
  plain : ∀ i, (t i).type ≠ .dir → (t i).entries = []
  dots : ∀ d, (t d).type = .dir → (t d).entries = ⟨d, dot⟩ :: ⟨(t d).up, dotdot⟩ :: (t d).names
  named : ∀ d, ∀ e ∈ (t d).names, e.inum ≠ 0 → e.name ≠ dot ∧ e.name ≠ dotdot
  /-- `mkfs` gives the root a link that no entry accounts for. -/
  exact : ∀ i, i ≠ 0 → (t i).nlink = treeLinks t i + if i = rootino then 1 else 0
  /-- A directory has one name, in its parent; the root has none. -/
  parent : ∀ d, (t d).type = .dir → ∀ q, nameCount t q d = if d ≠ rootino ∧ q = (t d).up then 1 else 0
  /-- Parents lead to the root. -/
  ranked : ∃ rank : Nat → Nat, ∀ d, (t d).type = .dir → d ≠ rootino → rank (t d).up < rank d

section Tree

variable {t t' : Nat → Inode} {d : Nat}

section Names

variable (h : Tree t)

include h

theorem Tree.names_nil (hi : (t i).type ≠ .dir) : (t i).names = [] := by
  unfold Inode.names
  rw [h.plain i hi]
  rfl

theorem Tree.dir_of_nameCount (hc : nameCount t q i ≠ 0) : (t q).type = .dir := by
  by_contra hq
  unfold nameCount at hc
  rw [h.names_nil hq] at hc
  exact hc rfl

theorem Tree.lt_of_dir (hd : (t d).type = .dir) : 0 < d ∧ d < ninodes := by
  apply h.inside
  rw [hd]
  exact nofun

theorem Tree.nlink_of_nameCount (hi : i ≠ 0) (hc : nameCount t q i ≠ 0) : (t i).nlink ≠ 0 := by
  have hle := count_le_treeLinks (t := t) (i := i) (h.lt_of_dir (h.dir_of_nameCount hc)).2
  rw [h.exact i hi]
  omega

theorem Tree.nameCount_up (hd : (t d).type = .dir) (hne : d ≠ rootino) : nameCount t (t d).up d = 1 := by
  rw [h.parent d hd, if_pos ⟨hne, rfl⟩]

theorem Tree.nlink_dir (hd : (t d).type = .dir) : (t d).nlink ≠ 0 := by
  have hpos := (h.lt_of_dir hd).1
  by_cases hr : d = rootino
  · rw [h.exact d (by omega), if_pos hr]
    exact Nat.succ_ne_zero _
  · refine h.nlink_of_nameCount (q := (t d).up) (by omega) ?_
    rw [h.nameCount_up hd hr]
    exact Nat.one_ne_zero

theorem Tree.up_dir (hd : (t d).type = .dir) : (t (t d).up).type = .dir := by
  by_cases hr : d = rootino
  · rw [hr, h.root_up]
    exact h.root
  · refine h.dir_of_nameCount (i := d) ?_
    rw [h.nameCount_up hd hr]
    exact Nat.one_ne_zero

theorem Tree.nlink_entry (he : e ∈ (t d).entries) (hi : e.inum ≠ 0) : (t e.inum).nlink ≠ 0 := by
  by_cases hd : (t d).type = .dir
  · rw [h.dots d hd] at he
    rcases mem_cons.mp he with rfl | he
    · exact h.nlink_dir hd
    · rcases mem_cons.mp he with rfl | he
      · exact h.nlink_dir (h.up_dir hd)
      · refine h.nlink_of_nameCount (q := d) hi ?_
        have hpos : 0 < nameCount t d e.inum := countP_pos_iff.mpr ⟨e, he, by simp⟩
        omega
  · rw [h.plain d hd] at he
    exact nomatch he

theorem Tree.alive (hi : (t i).nlink ≠ 0) : (t i).type ≠ .free :=
  fun hfree => hi (h.free i hfree)

end Names

/-- A directory whose names have changed. -/
structure Reentered (t : Nat → Inode) (dp : Nat) (B : Inode) : Prop where
  type : B.type = .dir
  up : B.up = (t dp).up
  dots : B.entries = ⟨dp, dot⟩ :: ⟨B.up, dotdot⟩ :: B.names
  named : ∀ e ∈ B.names, e.inum ≠ 0 → e.name ≠ dot ∧ e.name ≠ dotdot

theorem upCount_congr (htype : (u q).type = (t q).type) (hup : (u q).up = (t q).up) :
    upCount u q i = upCount t q i := by
  unfold upCount
  rw [htype, hup]

/-- A change of the tree: directory `dp` becomes `B`, with other names, and inode `i`, which has no
    names in it, becomes `A`. The counts change by what the entries say. -/
structure Relink (t u : Nat → Inode) (dp i : Nat) (A B : Inode) : Prop where
  eq : u = update (update t i A) dp B
  ne : i ≠ dp
  notRoot : i ≠ rootino
  mem : 0 < i ∧ i < ninodes
  dir : (t dp).type = .dir
  reentered : Reentered t dp B
  old : ∀ j, j ≠ 0 → nameCount t i j = 0
  new : A.names = []
  free : A.type = .free → A.nlink = 0
  plain : A.type ≠ .dir → A.entries = []
  dots : A.type = .dir → A.entries = [⟨i, dot⟩, ⟨A.up, dotdot⟩]
  keep : ∀ j, j ≠ 0 → j ≠ i → B.names.countP (fun e => e.inum == j) = nameCount t dp j
  self : A.type = .dir → A.up = dp ∧ B.names.countP (fun e => e.inum == i) = 1 ∧
    ∀ q, q ≠ dp → nameCount t q i = 0
  sum : A.nlink + upCount t i i + nameCount t dp i =
    (t i).nlink + upCount (update t i A) i i + B.names.countP fun e => e.inum == i
  sumB : B.nlink + upCount t i dp = (t dp).nlink + upCount (update t i A) i dp
  other : ∀ j, j ≠ i → j ≠ dp → upCount (update t i A) i j = upCount t i j

section Relink

variable {u : Nat → Inode} {dp : Nat} (hr : Relink t u dp i A B)
include hr

theorem Relink.at_i : u i = A := by rw [hr.eq, update_of_ne hr.ne, update_self]

theorem Relink.at_dp : u dp = B := by rw [hr.eq, update_self]

theorem Relink.at_other (hqi : q ≠ i) (hqd : q ≠ dp) : u q = t q := by
  rw [hr.eq, update_of_ne hqd, update_of_ne hqi]

theorem Relink.forall_inode (P : Nat → Inode → Prop) (hi : P i A) (hdp : P dp B) (ht : ∀ q, P q (t q)) (q : Nat) :
    P q (u q) := by
  by_cases hqi : q = i
  · rwa [hqi, hr.at_i]
  · by_cases hqd : q = dp
    · rwa [hqd, hr.at_dp]
    · rw [hr.at_other hqi hqd]
      exact ht q

/-- Types and parents are the same for all but `i`. -/
theorem Relink.same (hqi : q ≠ i) : (u q).type = (t q).type ∧ (u q).up = (t q).up := by
  by_cases hqd : q = dp
  · rw [hqd, hr.at_dp, hr.dir]
    exact ⟨hr.reentered.type, hr.reentered.up⟩
  · rw [hr.at_other hqi hqd]
    exact ⟨rfl, rfl⟩

theorem Relink.nameCount_i (j : Nat) : nameCount u i j = 0 := by
  rw [nameCount, hr.at_i, hr.new]
  rfl

theorem Relink.nameCount_dp (j : Nat) : nameCount u dp j = B.names.countP fun e => e.inum == j := by
  rw [nameCount, hr.at_dp]

theorem Relink.exact (h : Tree t) (hj : j ≠ 0) : (u j).nlink = treeLinks u j + if j = rootino then 1 else 0 := by
  have hup : upCount u i j = upCount (update t i A) i j := by
    apply upCount_congr <;> rw [hr.at_i, update_self]
  have hlinks := treeLinks_change (i := j) hr.ne hr.mem.2 (h.lt_of_dir hr.dir).2 fun _ => hr.at_other
  rw [hr.nameCount_i, hup, hr.nameCount_dp, upCount_congr (hr.same hr.ne.symm).1 (hr.same hr.ne.symm).2,
    hr.old j hj] at hlinks
  have hold := h.exact j hj
  by_cases hji : j = i
  · have hsum := hr.sum
    rw [hji] at hlinks hold ⊢
    rw [hr.at_i]
    omega
  · have hcount := hr.keep j hj hji
    by_cases hjd : j = dp
    · have hsum := hr.sumB
      rw [hjd] at hlinks hold hcount ⊢
      rw [hr.at_dp]
      omega
    · have hother := hr.other j hji hjd
      rw [hr.at_other hji hjd]
      omega

theorem Relink.parent (h : Tree t) (hd : (u d).type = .dir) (q : Nat) :
    nameCount u q d = if d ≠ rootino ∧ q = (u d).up then 1 else 0 := by
  by_cases hdi : d = i
  · rw [hdi, hr.at_i] at hd ⊢
    obtain ⟨hup, hone, hzero⟩ := hr.self hd
    by_cases hqd : q = dp
    · rw [hqd, hr.nameCount_dp, hone, if_pos ⟨hr.notRoot, hup.symm⟩]
    · rw [if_neg fun hand => hqd (hand.2.trans hup)]
      by_cases hqi : q = i
      · rw [hqi, hr.nameCount_i]
      · rw [nameCount, hr.at_other hqi hqd]
        exact hzero q hqd
  · rw [(hr.same hdi).1] at hd
    rw [(hr.same hdi).2, ← h.parent d hd q]
    have hpos := (h.lt_of_dir hd).1
    by_cases hqi : q = i
    · rw [hqi, hr.nameCount_i, hr.old d (by omega)]
    · by_cases hqd : q = dp
      · rw [hqd, hr.nameCount_dp, hr.keep d (by omega) hdi]
      · rw [nameCount, hr.at_other hqi hqd]
        rfl

theorem Relink.ranked (h : Tree t) :
    ∃ rank : Nat → Nat, ∀ d, (u d).type = .dir → d ≠ rootino → rank (u d).up < rank d := by
  obtain ⟨rank, hrank⟩ := h.ranked
  refine ⟨update rank i (rank dp + 1), fun d hd hne => ?_⟩
  by_cases hdi : d = i
  · rw [hdi, hr.at_i] at hd ⊢
    rw [(hr.self hd).1, update_self, update_of_ne hr.ne.symm]
    exact Nat.lt_succ_self _
  · rw [(hr.same hdi).1] at hd
    -- Nothing was below `i`.
    have hup : (t d).up ≠ i := by
      intro hup
      have hone := h.nameCount_up hd hne
      rw [hup, hr.old d (h.lt_of_dir hd).1.ne'] at hone
      cases hone
    rw [(hr.same hdi).2, update_of_ne hup, update_of_ne hdi]
    exact hrank d hd hne

end Relink

/-- The tree after a change of one inode and of the directory with its name. -/
theorem Tree.relink {dp : Nat} (h : Tree t) (hr : Relink t u dp i A B) : Tree u where
  root := by
    rw [(hr.same hr.notRoot.symm).1]
    exact h.root
  root_up := by
    rw [(hr.same hr.notRoot.symm).2]
    exact h.root_up
  free := hr.forall_inode (fun _ n => n.type = .free → n.nlink = 0) hr.free
    (fun hf => by rw [hr.reentered.type] at hf; cases hf) h.free
  inside := hr.forall_inode (fun q n => n.type ≠ .free → 0 < q ∧ q < ninodes) (fun _ => hr.mem)
    (fun _ => h.lt_of_dir hr.dir) h.inside
  plain := hr.forall_inode (fun _ n => n.type ≠ .dir → n.entries = []) hr.plain
    (fun hd => absurd hr.reentered.type hd) h.plain
  dots := hr.forall_inode (fun q n => n.type = .dir → n.entries = ⟨q, dot⟩ :: ⟨n.up, dotdot⟩ :: n.names)
    (fun hA => by rw [hr.new]; exact hr.dots hA) (fun _ => hr.reentered.dots) h.dots
  named := hr.forall_inode (fun _ n => ∀ e ∈ n.names, e.inum ≠ 0 → e.name ≠ dot ∧ e.name ≠ dotdot)
    (by simp [hr.new]) hr.reentered.named h.named
  exact := fun _ hj => hr.exact h hj
  parent := fun _ hd => hr.parent h hd
  ranked := hr.ranked h

end Tree

/-! ## Entries -/

section Entries

variable {es ns : List Dirent} {a b : Dirent} {name : Name} {k off : Nat}

theorem freeEntry_cons (ha : a.inum ≠ 0) : freeEntry (a :: es) = freeEntry es + 1 := by
  have hb : (a.inum == 0) = false := by simpa using ha
  rw [freeEntry, findIdx_cons, hb]
  rfl

theorem putEntry_cons : putEntry (a :: es) (k + 1) e = a :: putEntry es k e := by
  unfold putEntry
  by_cases hk : k < es.length
  · rw [if_pos hk, if_pos (by simpa using hk), set_cons_succ]
  · rw [if_neg hk, if_neg (by simpa using hk), cons_append]

theorem countP_putEntry (hi : i ≠ 0) : (putEntry es (freeEntry es) e).countP (fun e => e.inum == i) =
    es.countP (fun e => e.inum == i) + if e.inum = i then 1 else 0 := by
  induction es with
  | nil => simp [putEntry, countP_cons]
  | cons a es ih =>
    by_cases ha : a.inum = 0
    · have hfirst : freeEntry (a :: es) = 0 := by simp [freeEntry, findIdx_cons, ha]
      rw [hfirst, putEntry, if_pos (by simp), set_cons_zero, countP_cons, countP_cons]
      simp [ha, hi.symm]
    · rw [freeEntry_cons ha, putEntry_cons, countP_cons, countP_cons, ih]
      omega

theorem mem_putEntry (hx : x ∈ putEntry es k e) : x ∈ es ∨ x = e := by
  unfold putEntry at hx
  split at hx
  · exact mem_or_eq_of_mem_set hx
  · simpa using hx

theorem findEntry_some (h : findEntry name off es = some (j, k)) :
    off ≤ k ∧ es[k - off]? = some ⟨j, name⟩ ∧ j ≠ 0 := by
  induction es generalizing off with
  | nil => exact nomatch h
  | cons a es ih =>
    have hskip : findEntry name (off + 1) es = some (j, k) →
        off ≤ k ∧ (a :: es)[k - off]? = some ⟨j, name⟩ ∧ j ≠ 0 := by
      intro h'
      obtain ⟨hle, hget, hj⟩ := ih h'
      have hk : k - off = (k - (off + 1)) + 1 := by omega
      refine ⟨by omega, ?_, hj⟩
      rw [hk, getElem?_cons_succ]
      exact hget
    unfold findEntry at h
    split at h
    · exact hskip h
    · rename_i ha
      split at h
      · rename_i hname
        cases h
        refine ⟨le_rfl, ?_, ha⟩
        rw [Nat.sub_self, getElem?_cons_zero, ← hname]
      · exact hskip h

theorem findEntry_mem (h : findEntry name off es = some (j, k)) : (⟨j, name⟩ : Dirent) ∈ es ∧ j ≠ 0 :=
  ⟨mem_of_getElem? (findEntry_some h).2.1, (findEntry_some h).2.2⟩

theorem countP_set_free (hi : i ≠ 0) (hget : ns[k]? = some ⟨j, name⟩) :
    (ns.set k ⟨0, []⟩).countP (fun e => e.inum == i) + (if j = i then 1 else 0) =
      ns.countP fun e => e.inum == i := by
  induction ns generalizing k with
  | nil => exact nomatch hget
  | cons a ns ih =>
    cases k with
    | zero =>
      cases hget
      simp [countP_cons, hi.symm]
    | succ k =>
      have := ih hget
      rw [set_cons_succ, countP_cons, countP_cons]
      omega

end Entries

/-- Write an entry into a directory, in the first free place. -/
def Inode.addEntry (ip : Inode) (e : Dirent) : Inode :=
  { ip with entries := putEntry ip.entries (freeEntry ip.entries) e }

/-- Clear the entry at an offset. -/
def Inode.clearEntry (ip : Inode) (off : Nat) : Inode :=
  { ip with entries := putEntry ip.entries off ⟨0, []⟩ }

/-! ## What the calls do -/

section Calls

variable {t : Nat → Inode} {dp off : Nat} {name : Name}

theorem upCount_of_not_dir (h : (t q).type ≠ .dir) : upCount t q j = 0 :=
  if_neg fun hand => h hand.1

theorem upCount_update_of_not_dir (h : A.type ≠ .dir) :
    upCount (update t i A) i j = 0 :=
  upCount_of_not_dir (by rwa [update_self])

section Nodes

variable (h : Tree t)

include h

theorem Tree.nameCount_of_free (hi : i ≠ 0) (hfree : (t i).type = .free) (q : Nat) : nameCount t q i = 0 := by
  by_contra hc
  exact h.nlink_of_nameCount hi hc (h.free i hfree)

theorem Tree.addEntry_entries (hd : (t dp).type = .dir) :
    ((t dp).addEntry e).entries = ⟨dp, dot⟩ :: ⟨(t dp).up, dotdot⟩ ::
      putEntry (t dp).names (freeEntry (t dp).names) e := by
  have hself := (h.lt_of_dir hd).1
  have hup := (h.lt_of_dir (h.up_dir hd)).1
  show putEntry (t dp).entries (freeEntry (t dp).entries) e = _
  rw [h.dots dp hd, freeEntry_cons (by simpa using hself.ne'), freeEntry_cons (by simpa using hup.ne'),
    putEntry_cons, putEntry_cons]

/-- Names that are looked up and are neither `.` nor `..` are behind these. -/
theorem Tree.findEntry_names (hd : (t dp).type = .dir)
    (hname : name ≠ dot ∧ name ≠ dotdot) (hfind : findEntry name 0 (t dp).entries = some (j, off)) :
    2 ≤ off ∧ (t dp).names[off - 2]? = some ⟨j, name⟩ ∧ j ≠ 0 := by
  have hself := (h.lt_of_dir hd).1
  have hup := (h.lt_of_dir (h.up_dir hd)).1
  rw [h.dots dp hd] at hfind
  simp only [findEntry, hself.ne', hup.ne', if_false, hname.1.symm, hname.2.symm] at hfind
  exact findEntry_some hfind

theorem Tree.clearEntry_entries (hd : (t dp).type = .dir) (hoff : 2 ≤ off)
    (hget : (t dp).names[off - 2]? = some e) :
    ((t dp).clearEntry off).entries = ⟨dp, dot⟩ :: ⟨(t dp).up, dotdot⟩ ::
      (t dp).names.set (off - 2) ⟨0, []⟩ := by
  obtain ⟨k, rfl⟩ : ∃ k, off = k + 2 := ⟨off - 2, by omega⟩
  have hk : k < (t dp).names.length := (List.getElem?_eq_some_iff.mp hget).1
  show putEntry (t dp).entries (k + 2) ⟨0, []⟩ = _
  rw [h.dots dp hd, putEntry_cons, putEntry_cons, putEntry, if_pos hk]
  rfl

theorem Tree.reentered_add (hd : (t dp).type = .dir) (hname : name ≠ dot ∧ name ≠ dotdot) (i : Nat) :
    Reentered t dp ((t dp).addEntry ⟨i, name⟩) ∧
      ∀ j, j ≠ 0 → ((t dp).addEntry ⟨i, name⟩).names.countP (fun e => e.inum == j) =
        nameCount t dp j + if i = j then 1 else 0 := by
  have hes := h.addEntry_entries (e := ⟨i, name⟩) hd
  have hnames : ((t dp).addEntry ⟨i, name⟩).names =
      putEntry (t dp).names (freeEntry (t dp).names) ⟨i, name⟩ := by
    rw [Inode.names, hes]
    rfl
  have hup : ((t dp).addEntry ⟨i, name⟩).up = (t dp).up := by
    rw [Inode.up, hes]
  refine ⟨⟨hd, hup, ?_, ?_⟩, fun j hj => ?_⟩
  · rw [hes, hup, hnames]
  · rw [hnames]
    intro e he hinum
    rcases mem_putEntry he with he | rfl
    · exact h.named dp e he hinum
    · exact hname
  · rw [hnames, countP_putEntry hj, nameCount]

theorem Tree.reentered_clear (hd : (t dp).type = .dir) (hoff : 2 ≤ off)
    (hget : (t dp).names[off - 2]? = some ⟨i, name⟩) : Reentered t dp ((t dp).clearEntry off) ∧
      ∀ j, j ≠ 0 → ((t dp).clearEntry off).names.countP (fun e => e.inum == j) + (if i = j then 1 else 0) =
        nameCount t dp j := by
  have hes := h.clearEntry_entries hd hoff hget
  have hnames : ((t dp).clearEntry off).names = (t dp).names.set (off - 2) ⟨0, []⟩ := by
    rw [Inode.names, hes]
    rfl
  have hup : ((t dp).clearEntry off).up = (t dp).up := by
    rw [Inode.up, hes]
  refine ⟨⟨hd, hup, ?_, ?_⟩, fun j hj => ?_⟩
  · rw [hes, hup, hnames]
  · rw [hnames]
    intro e he hinum
    rcases mem_or_eq_of_mem_set he with he | rfl
    · exact h.named dp e he hinum
    · exact absurd rfl hinum
  · rw [hnames, nameCount]
    exact countP_set_free hj hget

theorem Tree.nameCount_in_file (hi : (t i).type ≠ .dir) (j : Nat) : nameCount t i j = 0 := by
  rw [nameCount, h.names_nil hi]
  rfl

/-- A change that concerns no directory but the one with the name. -/
theorem Tree.relink_file (hd : (t dp).type = .dir) (hold : (t i).type ≠ .dir)
    (hi : 0 < i ∧ i < ninodes) (hnew : A.type ≠ .dir) (hentries : A.entries = [])
    (hfree : A.type = .free → A.nlink = 0) (hB : Reentered t dp B) (hnlink : B.nlink = (t dp).nlink)
    (hkeep : ∀ j, j ≠ 0 → j ≠ i → B.names.countP (fun e => e.inum == j) = nameCount t dp j)
    (hsum : A.nlink + nameCount t dp i = (t i).nlink + B.names.countP fun e => e.inum == i) :
    Tree (update (update t i A) dp B) := by
  have hne : i ≠ dp := by
    rintro rfl
    exact hold hd
  have hroot : i ≠ rootino := by
    rintro rfl
    exact hold h.root
  have hnames : A.names = [] := by
    rw [Inode.names, hentries]
    rfl
  refine h.relink ⟨rfl, hne, hroot, hi, hd, hB, fun j _ => h.nameCount_in_file hold j, hnames, hfree,
    fun _ => hentries, fun hf => absurd hf hnew, hkeep, fun hf => absurd hf hnew, ?_, ?_, fun j _ _ => ?_⟩
  · rw [upCount_of_not_dir hold, upCount_update_of_not_dir hnew]
    exact hsum
  · rw [upCount_of_not_dir hold, upCount_update_of_not_dir hnew, hnlink]
  · rw [upCount_of_not_dir hold, upCount_update_of_not_dir hnew]

/-- A file gets one more name: `link`. -/
theorem Tree.link (hd : (t dp).type = .dir) (hfile : (t i).type ≠ .dir)
    (hi : (t i).type ≠ .free) (hname : name ≠ dot ∧ name ≠ dotdot) (htype : A.type = (t i).type)
    (hentries : A.entries = []) (hnlink : A.nlink = (t i).nlink + 1) :
    Tree (update (update t i A) dp ((t dp).addEntry ⟨i, name⟩)) := by
  have hpos := h.inside i hi
  obtain ⟨hB, hcount⟩ := h.reentered_add hd hname i
  refine h.relink_file hd hfile hpos (by rwa [htype]) hentries (fun hf => absurd (htype ▸ hf) hi) hB rfl
    (fun j hj hji => ?_) ?_
  · rw [hcount j hj, if_neg hji.symm, Nat.add_zero]
  · rw [hcount i hpos.1.ne', if_pos rfl, hnlink]
    omega

/-- A free inode becomes a file or a device with a name. -/
theorem Tree.mkfile (hd : (t dp).type = .dir) (hi : 0 < i ∧ i < ninodes)
    (hfree : (t i).type = .free) (hname : name ≠ dot ∧ name ≠ dotdot)
    (htype : A.type ≠ .dir ∧ A.type ≠ .free) (hentries : A.entries = []) (hnlink : A.nlink = 1) :
    Tree (update (update t i A) dp ((t dp).addEntry ⟨i, name⟩)) := by
  have hfile : (t i).type ≠ .dir := by
    rw [hfree]
    exact nofun
  obtain ⟨hB, hcount⟩ := h.reentered_add hd hname i
  refine h.relink_file hd hfile hi htype.1 hentries (fun hf => absurd hf htype.2) hB rfl
    (fun j hj hji => ?_) ?_
  · rw [hcount j hj, if_neg hji.symm, Nat.add_zero]
  · rw [hcount i hi.1.ne', if_pos rfl, hnlink, h.free i hfree]
    omega

/-- A free inode becomes a directory. -/
theorem Tree.mkdir (hd : (t dp).type = .dir) (hi : 0 < i ∧ i < ninodes)
    (hfree : (t i).type = .free) (hname : name ≠ dot ∧ name ≠ dotdot) (htype : A.type = .dir)
    (hentries : A.entries = [⟨i, dot⟩, ⟨dp, dotdot⟩]) (hnlink : A.nlink = 1)
    (hB : B = { (t dp).addEntry ⟨i, name⟩ with nlink := (t dp).nlink + 1 }) :
    Tree (update (update t i A) dp B) := by
  have hfile : (t i).type ≠ .dir := by
    rw [hfree]
    exact nofun
  have hne : i ≠ dp := by
    rintro rfl
    exact hfile hd
  have hroot : i ≠ rootino := by
    rintro rfl
    exact hfile h.root
  have hup : A.up = dp := by rw [Inode.up, hentries]
  have hnames : A.names = [] := by
    rw [Inode.names, hentries]
    rfl
  obtain ⟨hre, hcount⟩ := h.reentered_add hd hname i
  have hBnames : B.names = ((t dp).addEntry ⟨i, name⟩).names := by
    rw [hB]
    rfl
  have hreB : Reentered t dp B := by
    rw [hB]
    exact ⟨hre.type, hre.up, hre.dots, hre.named⟩
  have hone : ∀ j, upCount (update t i A) i j = if dp = j then 1 else 0 := by
    intro j
    unfold upCount
    rw [update_self, hup]
    simp [htype, hroot]
  have hzero : ∀ q, nameCount t q i = 0 := h.nameCount_of_free hi.1.ne' hfree
  refine h.relink ⟨rfl, hne, hroot, hi, hd, hreB, fun j _ => h.nameCount_in_file hfile j, hnames,
    (by rw [htype]; rintro ⟨⟩), fun hf => absurd htype hf, fun _ => ?_,
    fun j hj hji => ?_, fun _ => ⟨hup, ?_, fun q _ => hzero q⟩, ?_, ?_, fun j _ hjd => ?_⟩
  · rw [hentries, hup]
  · rw [hBnames, hcount j hj, if_neg hji.symm, Nat.add_zero]
  · rw [hBnames, hcount i hi.1.ne', if_pos rfl, hzero]
  · rw [upCount_of_not_dir hfile, hone, if_neg hne.symm, hBnames, hcount i hi.1.ne', if_pos rfl, hnlink,
      h.free i hfree]
    omega
  · rw [upCount_of_not_dir hfile, hone, if_pos rfl, hB]
  · rw [upCount_of_not_dir hfile, hone, if_neg (Ne.symm hjd)]

/-- A file loses a name; with its last one it may be freed. -/
theorem Tree.unlink (hd : (t dp).type = .dir) (hfile : (t i).type ≠ .dir)
    (hoff : 2 ≤ off) (hget : (t dp).names[off - 2]? = some ⟨i, name⟩) (hi : i ≠ 0)
    (htype : A.type ≠ .dir) (hentries : A.entries = []) (hnlink : A.nlink + 1 = (t i).nlink)
    (hfree : A.type = .free → A.nlink = 0) : Tree (update (update t i A) dp ((t dp).clearEntry off)) := by
  obtain ⟨hB, hcount⟩ := h.reentered_clear hd hoff hget
  have halive : (t i).type ≠ .free := by
    intro hf
    have := h.free i hf
    omega
  refine h.relink_file hd hfile (h.inside i halive) htype hentries hfree hB rfl (fun j hj hji => ?_) ?_
  · have := hcount j hj
    rw [if_neg hji.symm] at this
    exact this
  · have := hcount i hi
    rw [if_pos rfl] at this
    omega

/-- A file without names is freed. -/
theorem Tree.free_file (hfile : (t i).type ≠ .dir) (hi : (t i).type ≠ .free)
    (hnlink : (t i).nlink = 0) : Tree (update t i (t i).freed) := by
  have hroot : rootino ≠ i := by
    rintro rfl
    exact hfile h.root
  have hsame : Reentered t rootino (t rootino) := ⟨h.root, rfl, h.dots rootino h.root, h.named rootino⟩
  have := h.relink_file (A := (t i).freed) h.root hfile (h.inside i hi) nofun rfl
    (fun _ => hnlink) hsame rfl (fun _ _ _ => rfl) rfl
  rwa [update_comm hroot.symm, update_eq_self] at this

end Nodes

theorem nameCount_of_empty (hempty : isdirempty (t i) = true) (hj : j ≠ 0) :
    nameCount t i j = 0 := by
  refine countP_eq_zero.mpr fun e he => ?_
  have hfree := all_eq_true.mp hempty e he
  simp only [beq_iff_eq] at hfree ⊢
  omega

/-- What a name in `dp` says about a directory that is empty. -/
theorem Tree.of_empty (h : Tree t) (hdir : (t i).type = .dir) (hempty : isdirempty (t i) = true)
    (hcount : nameCount t dp i ≠ 0) : i ≠ rootino ∧ (t i).up = dp ∧ (t i).nlink = 1 := by
  have hpos := h.lt_of_dir hdir
  have hand : i ≠ rootino ∧ dp = (t i).up := by
    by_contra hnot
    rw [h.parent i hdir dp, if_neg hnot] at hcount
    exact hcount rfl
  -- A directory whose parent is `i` would have a name in it.
  have hchild : ∀ q, upCount t q i = 0 := by
    intro q
    refine if_neg ?_
    rintro ⟨hq, hqr, hup⟩
    have hone := h.nameCount_up hq hqr
    rw [hup, nameCount_of_empty hempty (h.lt_of_dir hq).1.ne'] at hone
    exact nomatch hone
  have hlinks : treeLinks t i = 1 := by
    have hdp := h.lt_of_dir (h.dir_of_nameCount hcount)
    have hterm : ∀ q, nameCount t q i + upCount t q i = if q = dp then 1 else 0 := by
      intro q
      rw [hchild, h.parent i hdir q, hand.2]
      simp [hand.1]
    rw [treeLinks, Finset.sum_congr rfl fun q _ => hterm q, Finset.sum_ite_eq',
      if_pos (Finset.mem_range.mpr hdp.2)]
  refine ⟨hand.1, hand.2.symm, ?_⟩
  rw [h.exact i hpos.1.ne', hlinks, if_neg hand.1]

theorem Tree.ne_of_nameCount (h : Tree t) (hcount : nameCount t dp i ≠ 0) : i ≠ dp := by
  rintro rfl
  have hdir := h.dir_of_nameCount hcount
  obtain ⟨rank, hrank⟩ := h.ranked
  rw [h.parent i hdir i] at hcount
  by_cases hand : i ≠ rootino ∧ i = (t i).up
  · have hlt := hrank i hdir hand.1
    rw [← hand.2] at hlt
    exact lt_irrefl _ hlt
  · exact hcount (if_neg hand)

/-- An empty directory goes, and with it the link of `..`. -/
theorem Tree.rmdir (h : Tree t) (hd : (t dp).type = .dir) (hdir : (t i).type = .dir)
    (hempty : isdirempty (t i) = true) (hoff : 2 ≤ off)
    (hget : (t dp).names[off - 2]? = some ⟨i, name⟩)
    (hA : A.type = .free ∧ A.entries = [] ∧ A.nlink = 0)
    (hB : B = { (t dp).clearEntry off with nlink := (t dp).nlink - 1 }) :
    Tree (update (update t i A) dp B) := by
  obtain ⟨hfree, hentries, hnlink⟩ := hA
  have hi := h.lt_of_dir hdir
  obtain ⟨hre, hcount⟩ := h.reentered_clear hd hoff hget
  have hself := hcount i hi.1.ne'
  rw [if_pos rfl] at hself
  have hnamed : nameCount t dp i ≠ 0 := by omega
  obtain ⟨hroot, hup, hone⟩ := h.of_empty hdir hempty hnamed
  have hne := h.ne_of_nameCount hnamed
  have hnames : A.names = [] := by
    rw [Inode.names, hentries]
    rfl
  have hnew : A.type ≠ .dir := by
    rw [hfree]
    exact nofun
  have hBnames : B.names = ((t dp).clearEntry off).names := by
    rw [hB]
    rfl
  have hreB : Reentered t dp B := by
    rw [hB]
    exact ⟨hre.type, hre.up, hre.dots, hre.named⟩
  have hupi : ∀ j, upCount t i j = if dp = j then 1 else 0 := by
    intro j
    unfold upCount
    rw [hup]
    simp [hdir, hroot]
  have hpos := h.nlink_dir hd
  refine h.relink ⟨rfl, hne, hroot, hi, hd, hreB, fun j hj => nameCount_of_empty hempty hj, hnames,
    fun _ => hnlink, fun _ => hentries, fun hf => absurd hf hnew, fun j hj hji => ?_,
    fun hf => absurd hf hnew, ?_, ?_, fun j _ hjd => ?_⟩
  · have := hcount j hj
    rw [if_neg hji.symm] at this
    rw [hBnames]
    exact this
  · rw [upCount_update_of_not_dir hnew, hupi, if_neg hne.symm, hBnames]
    omega
  · rw [upCount_update_of_not_dir hnew, hupi, if_pos rfl, hB]
    show (t dp).nlink - 1 + 1 = _
    omega
  · rw [upCount_update_of_not_dir hnew, hupi, if_neg (Ne.symm hjd)]

end Calls

/-! ## Links as entries -/

/-- Does an entry of directory `q` count as a link to `i`? Those named `.` do not, nor does the `..`
    of the root. -/
def countsFor (q i : Nat) (e : Dirent) : Bool :=
  e.inum == i && e.name != dot && !(q == rootino && e.name == dotdot)

/-- Entries of all directories that count as links to `i`. -/
def linkCount (t : Nat → Inode) (i : Nat) : Nat :=
  ∑ q ∈ Finset.range ninodes,
    if (t q).type = .dir then (t q).entries.countP (countsFor q i) else 0

/-- In a tree, these are the names and the `..` of directories. -/
theorem Tree.linkCount_eq (h : Tree t) (hi : i ≠ 0) : linkCount t i = treeLinks t i := by
  refine Finset.sum_congr rfl fun q _ => ?_
  by_cases hq : (t q).type = .dir
  · have hnames : (t q).names.countP (countsFor q i) = nameCount t q i := by
      refine countP_congr fun e he => ?_
      simp only [countsFor, Bool.and_eq_true, beq_iff_eq]
      constructor
      · exact fun hand => hand.1.1
      · intro hinum
        obtain ⟨hdot, hdotdot⟩ := h.named q e he (by omega)
        simp [hinum, hdot, hdotdot]
    have hself : countsFor q i ⟨q, dot⟩ = false := by simp [countsFor]
    have hup : (if countsFor q i ⟨(t q).up, dotdot⟩ = true then 1 else 0) = upCount t q i := by
      have hne : dotdot ≠ dot := by decide
      unfold upCount countsFor
      refine if_congr ?_ rfl rfl
      simp [hq, hne, and_comm]
    rw [if_pos hq, h.dots q hq, countP_cons, countP_cons, hnames, hself, hup]
    rfl
  · rw [if_neg hq, h.nameCount_in_file hq, upCount_of_not_dir hq]

end Xv6Paging.Dirs
