import Xv6Paging.Fs.DirSpec

/-! # The calls do what they are for

    From a good state, the code of a call has the effect that `Call.effect` gives, or
    stops as that says or because the inode cache is full. `At` describes the states in
    the middle of a call: the inodes are those of `v`, references are held by processes
    (`held`) and by the code itself (`flight`), and the code has locked `locks`.
-/

namespace Xv6Paging.Dirs

open List Wp Holders Function
open Blocks (FileType ninode)

variable {d dp i ip j k major minor off omode : Nat} {flight flight' locks locks' : List Nat}
  {parent : Bool} {els : List Name} {name : Name} {held : Nat → Nat} {E : Stop → State → Prop}
  {new old : Path} {v' : Files} {type : FileType} {out : Int}

/-! ## References -/

/-- Places from which processes refer to inodes. -/
abbrev Place : Type := Fin nproc ⊕ Fin nproc × Fin nofile

def Files.target (v : Files) : Place → Option Nat
  | .inl p => some (v.cwd p)
  | .inr x => v.ofile x.1 x.2

def allPlaces (n m : Nat) : Finset (Fin n ⊕ Fin n × Fin m) := Finset.univ

theorem mem_allPlaces (u : Fin n ⊕ Fin n × Fin m) : u ∈ allPlaces n m := Finset.mem_univ u

attribute [irreducible] allPlaces

/-- References that processes hold. -/
def Files.holds (v : Files) (i : Nat) : Nat := holders (allPlaces nproc nofile) v.target i

/-- Inodes that are held. -/
def heldCount (held : Nat → Nat) : Nat := (List.range ninodes).countP fun i => decide (0 < held i)

/-- Inodes in use are those that are held. -/
theorem inUse_iff_holds {v : Files} : v.InUse i ↔ 0 < v.holds i := by
  constructor
  · rintro (⟨p, hp⟩ | ⟨p, fd, hf⟩)
    · exact holders_pos (mem_allPlaces (.inl p : Place)) (show v.target (.inl p) = some i from congrArg some hp)
    · exact holders_pos (mem_allPlaces (.inr (p, fd) : Place)) (show v.target (.inr (p, fd)) = some i from hf)
  · intro hpos
    obtain ⟨u, hu⟩ := Finset.card_pos.mp hpos
    have htarget := (Finset.mem_filter.mp hu).2
    cases u with
    | inl p => exact .inl ⟨p, Option.some.inj htarget⟩
    | inr x => exact .inr ⟨x.1, x.2, htarget⟩

/-- The middle of a call. -/
structure At (v : Files) (held : Nat → Nat) (flight locks : List Nat) (s : State) : Prop where
  files : s.toFiles = v
  refs : ∀ i, (s.core i).ref = held i + flight.count i
  locked : ∀ i, (s.core i).locked = true ↔ i ∈ locks
  read : ∀ i ∈ locks, (s.core i).valid = true ∧ 0 < (s.core i).ref
  /-- An inode without links has been read: it will be freed. -/
  valid : ∀ i, 0 < (s.core i).ref → (v.inode i).nlink = 0 → (s.core i).valid = true
  alive : ∀ i, 0 < (s.core i).ref → (v.inode i).type ≠ .free

section Primitives

variable {v : Files} {held' : Nat → Nat} {s : State}

theorem At.ref_pos (h : At v held flight locks s) (hi : i ∈ flight) : 0 < (s.core i).ref := by
  rw [h.refs]
  have := count_pos_iff.mpr hi
  omega

/-- Inodes that are held or in flight: the entries of the cache in use. -/
def cachedBy (held : Nat → Nat) (flight : List Nat) : Nat :=
  (List.range ninodes).countP fun i => decide (0 < held i + flight.count i)

theorem At.cached_eq (h : At v held flight locks s) : s.cached = cachedBy held flight := by
  unfold State.cached cachedBy
  simp only [h.refs]

/-- References in flight add an inode to the cache each, at most. -/
theorem cachedBy_le (held : Nat → Nat) (flight : List Nat) :
    cachedBy held flight ≤ heldCount held + flight.length := by
  have hsplit : ∀ l : List Nat, l.countP (fun i => decide (0 < held i + flight.count i)) ≤
      l.countP (fun i => decide (0 < held i)) + l.countP fun i => decide (i ∈ flight) := by
    intro l
    induction l with
    | nil => exact le_rfl
    | cons a l ih =>
      have hpos : 0 < held a + flight.count a → 0 < held a ∨ a ∈ flight := by
        intro hp
        by_cases ha : 0 < held a
        · exact .inl ha
        · exact .inr (count_pos_iff.mp (by omega))
      simp only [countP_cons, decide_eq_true_eq]
      split
      · rename_i hp
        rcases hpos hp with hp | hp
        · rw [if_pos hp]
          omega
        · rw [if_pos hp]
          omega
      · omega
  have hflight : (List.range ninodes).countP (fun i => decide (i ∈ flight)) ≤ flight.length := by
    rw [countP_eq_length_filter]
    exact ((nodup_range.filter _).subperm fun i hi => by simpa using (mem_filter.mp hi).2).length_le
  exact Nat.le_trans (hsplit _) (Nat.add_le_add_left hflight _)

/-- An inode is in the cache, or there is room for it. -/
def Enters (held : Nat → Nat) (flight : List Nat) (i : Nat) : Prop :=
  0 < held i + flight.count i ∨ cachedBy held flight < ninode

instance (held : Nat → Nat) (flight : List Nat) (i : Nat) : Decidable (Enters held flight i) := by
  unfold Enters
  infer_instance

/-- A call has two references in flight: the cache is full only if processes hold all but two entries. -/
theorem full_of_not_enters (h : ¬ Enters held flight i) (hfl : flight.length ≤ 2) :
    ninode ≤ heldCount held + 2 := by
  have hle := cachedBy_le held flight
  have hfull : ¬ cachedBy held flight < ninode := fun hlt => h (.inr hlt)
  omega

/-- The stop of `iget` is fine where processes hold too many inodes. -/
def CacheStop (held : Nat → Nat) (E : Stop → State → Prop) : Prop :=
  ∀ s, ninode ≤ heldCount held + 2 → E (.panic "iget: no inodes") s

/-- A change of an entry in the cache. -/
theorem At.setCore {ip : Cached} (h : At v held flight locks s)
    (hcount : ∀ j, j ≠ i → flight'.count j = flight.count j)
    (hlocks : ∀ j, j ≠ i → (j ∈ locks' ↔ j ∈ locks)) (href : ip.ref = held i + flight'.count i)
    (hlock : ip.locked = true ↔ i ∈ locks') (hread : i ∈ locks' → ip.valid = true ∧ 0 < ip.ref)
    (hvalid : 0 < ip.ref → (v.inode i).nlink = 0 → ip.valid = true)
    (halive : 0 < ip.ref → (v.inode i).type ≠ .free) :
    At v held flight' locks' (s.setCore i ip) := by
  -- Field by field: at `i` by what is known of `ip`, elsewhere as before.
  refine ⟨h.files,
    (forall_update_iff s.core fun j c => c.ref = held j + flight'.count j).mpr ⟨href, fun j hj => ?_⟩,
    (forall_update_iff s.core fun j c => c.locked = true ↔ j ∈ locks').mpr ⟨hlock, fun j hj => ?_⟩,
    (forall_update_iff s.core fun j c => j ∈ locks' → c.valid = true ∧ 0 < c.ref).mpr ⟨hread, fun j hj hl => ?_⟩,
    (forall_update_iff s.core fun j c => 0 < c.ref → (v.inode j).nlink = 0 → c.valid = true).mpr
      ⟨hvalid, fun j _ => h.valid j⟩,
    (forall_update_iff s.core fun j c => 0 < c.ref → (v.inode j).type ≠ .free).mpr ⟨halive, fun j _ => h.alive j⟩⟩
  · rw [hcount j hj, h.refs]
  · rw [hlocks j hj, h.locked]
  · exact h.read j ((hlocks j hj).mp hl)

/-- A change of an inode that is not in the cache. -/
theorem At.setInode_uncached (ip : Inode) (h : At v held flight locks s) (hi : (s.core i).ref = 0) :
    At (v.setInode i ip) held flight locks (s.setFiles (v.setInode i ip)) := by
  have hne : ∀ j, 0 < (s.core j).ref → j ≠ i := by
    rintro j hj rfl
    omega
  refine ⟨rfl, h.refs, h.locked, h.read, fun j hj hn => ?_, fun j hj => ?_⟩
  · rw [Files.setInode_inode, update_of_ne (hne j hj)] at hn
    exact h.valid j hj hn
  · rw [Files.setInode_inode, update_of_ne (hne j hj)]
    exact h.alive j hj

/-- A change of an inode that is locked. -/
theorem At.setInode {ip : Inode} (h : At v held flight locks s) (hi : i ∈ locks) (htype : ip.type ≠ .free) :
    At (v.setInode i ip) held flight locks (s.setFiles (v.setInode i ip)) := by
  refine ⟨rfl, h.refs, h.locked, h.read, fun j hj hn => ?_, fun j hj => ?_⟩
  all_goals by_cases hji : j = i
  · rw [hji]
    exact (h.read i hi).1
  · rw [Files.setInode_inode, update_of_ne hji] at hn
    exact h.valid j hj hn
  · rw [hji, Files.setInode_inode, update_self]
    exact htype
  · rw [Files.setInode_inode, update_of_ne hji]
    exact h.alive j hj

theorem count_cons_ne (hj : j ≠ i) : (i :: flight).count j = flight.count j :=
  count_cons_of_ne (Ne.symm hj)

/-- `iget` stops where there is no room for the inode. -/
theorem wp_iget_exact (h : At v held flight locks s) (hkept : Kept v held i) :
    wp (iget i) (fun _ s' => Enters held flight i ∧ At v held (i :: flight) locks s')
      (fun e _ => e = .panic "iget: no inodes" ∧ ¬ Enters held flight i) s := by
  have hrefs := h.refs i
  unfold Enters
  rw [← h.cached_eq, ← hrefs]
  simp only [iget, wp_bind, wp_get, wp_ite, wp_set, wp_throw]
  refine ⟨fun hpos => ⟨.inl hpos, ?_⟩, fun hzero => ⟨fun hfull => ⟨trivial, ?_⟩, fun hroom => ⟨.inr (by omega), ?_⟩⟩⟩
  · refine h.setCore (fun _ => count_cons_ne) (fun _ _ => Iff.rfl) ?_ (h.locked i)
      (fun hl => ⟨(h.read i hl).1, Nat.succ_pos _⟩) (fun _ => h.valid i hpos) fun _ => hkept.1
    rw [count_cons_self]
    show (s.core i).ref + 1 = _
    omega
  · omega
  · refine h.setCore (fun _ => count_cons_ne) (fun _ _ => Iff.rfl) ?_ (h.locked i)
      (fun hl => absurd (h.read i hl).2 hzero) (fun _ hn => hkept.2.elim (absurd hn) fun _ => by omega)
      fun _ => hkept.1
    rw [count_cons_self]
    show 1 = _
    omega

/-- `iget` takes a reference, if processes do not hold too many inodes. -/
theorem wp_iget (h : At v held flight locks s) (hkept : Kept v held i) (hfl : flight.length ≤ 2)
    (hE : CacheStop held E) :
    wp (iget i) (fun _ s' => At v held (i :: flight) locks s') E s := by
  refine wp_mono (wp_iget_exact h hkept) (fun _ _ h' => h'.2) ?_
  rintro e s' ⟨rfl, hfull⟩
  exact hE s' (full_of_not_enters hfull hfl)

/-- `idup` of an inode that a process holds. -/
theorem wp_idup (h : At v held flight locks s) (hi : 0 < held i) :
    wp (idup i) (fun _ s' => At v held (i :: flight) locks s') E s := by
  have hrefs := h.refs i
  simp only [idup, wp_modify]
  refine h.setCore (fun _ => count_cons_ne) (fun _ _ => Iff.rfl) ?_ (h.locked i)
    (fun hl => ⟨(h.read i hl).1, Nat.succ_pos _⟩) (fun _ => h.valid i (by omega)) fun _ => h.alive i (by omega)
  rw [count_cons_self]
  show (s.core i).ref + 1 = _
  omega

theorem mem_cons_ne (hj : j ≠ i) : j ∈ i :: locks ↔ j ∈ locks := by
  simp [hj]

theorem At.unlocked (h : At v held flight locks s) (hl : i ∉ locks) : (s.core i).locked = false := by
  rw [Bool.eq_false_iff]
  exact fun hlocked => hl ((h.locked i).mp hlocked)

theorem setCore_setCore (s : State) (ip ip' : Cached) : (s.setCore i ip).setCore i ip' = s.setCore i ip' := by
  simp [State.setCore]

/-- `ilock` takes the lock and reads the inode. -/
theorem wp_ilock (h : At v held flight locks s) (hi : i ∈ flight) (hl : i ∉ locks) :
    wp (ilock i) (fun _ s' => At v held flight (i :: locks) s') E s := by
  have hpos := h.ref_pos hi
  have hfree := h.unlocked hl
  have htype : (s.inode i).type ≠ .free := by
    rw [h.files]
    exact h.alive i hpos
  have hat : ∀ ip : Cached, ip.ref = (s.core i).ref → ip.valid = true → ip.locked = true →
      At v held flight (i :: locks) (s.setCore i ip) := by
    intro ip href hvalid hlock
    refine h.setCore (fun _ _ => rfl) (fun _ => mem_cons_ne) (by rw [href, h.refs]) (by simp [hlock])
      (fun _ => ⟨hvalid, by omega⟩) (fun _ _ => hvalid) fun _ => h.alive i hpos
  simp only [ilock, acquiresleep, readInode, wp_bind, wp_get, wp_ite, wp_set, wp_throw, wp_pure]
  refine ⟨fun hlt => by omega, fun _ => ⟨fun hlocked => (by rw [hfree] at hlocked; cases hlocked), fun _ => ?_⟩⟩
  refine ⟨fun hvalid => ?_, fun _ => ⟨fun hf => absurd hf htype, fun _ => ?_⟩⟩
  · rw [State.setCore_core, update_self] at hvalid
    exact hat _ rfl hvalid rfl
  · rw [setCore_setCore, State.setCore_core, update_self]
    exact hat _ rfl rfl rfl

/-- `iunlock` of a lock that the caller has. -/
theorem wp_iunlock (h : At v held flight (i :: locks) s) (hl : i ∉ locks) :
    wp (iunlock i) (fun _ s' => At v held flight locks s') E s := by
  obtain ⟨hvalid, hpos⟩ := h.read i mem_cons_self
  have hlocked : (s.core i).locked = true := (h.locked i).mpr mem_cons_self
  simp only [iunlock, releasesleep, wp_bind, wp_get, wp_ite, wp_throw, wp_modify]
  refine ⟨fun hor => ?_, fun _ => ?_⟩
  · rw [hlocked] at hor
    rcases hor with hf | hlt
    · cases hf
    · omega
  · exact h.setCore (fun _ _ => rfl) (fun _ hj => (mem_cons_ne hj).symm) (h.refs i) (by simp [hl])
      (fun hmem => absurd hmem hl) (fun _ _ => hvalid) fun _ => h.alive i hpos

/-- Is this the reference with which an inode is freed? -/
def Frees (v : Files) (held : Nat → Nat) (flight : List Nat) (i : Nat) : Prop :=
  (v.inode i).nlink = 0 ∧ i ∉ flight ∧ held i = 0

instance (i : Nat) : Decidable (Frees v held flight i) := by
  unfold Frees
  infer_instance

theorem At.last_iff (h : At v held (i :: flight) locks s) : (s.core i).ref = 1 ↔ i ∉ flight ∧ held i = 0 := by
  have hrefs := h.refs i
  rw [count_cons_self] at hrefs
  rw [← count_eq_zero]
  omega

/-- `iput` gives a reference back, and frees the inode with the last one if it has no links. -/
theorem wp_iput (h : At v held (i :: flight) locks s) (hl : i ∉ locks) :
    wp (iput i) (fun _ s' => At (if Frees v held flight i then v.setInode i (v.inode i).freed else v) held flight
      locks s') E s := by
  have hrefs := h.refs i
  rw [count_cons_self] at hrefs
  have hpos := h.ref_pos mem_cons_self
  have hfree := h.unlocked hl
  simp only [iput, acquiresleep, freeUnlinked, releasesleep, wp_bind, wp_get, wp_ite, wp_set, wp_throw, wp_pure,
    wp_modify, State.setCore_core, update_self, State.setCore_toFiles, setCore_setCore]
  refine ⟨fun hlocked => (by rw [hfree] at hlocked; cases hlocked), fun _ => ⟨fun hlast => ?_, fun hmore => ?_⟩⟩
  · -- the last reference, and no links: the inode is freed
    have hfrees : Frees v held flight i := by
      rw [h.files] at hlast
      exact ⟨hlast.2.1, h.last_iff.mp hlast.2.2⟩
    have hzero : (s.core i).ref - 1 = 0 := by omega
    have hcount : held i + flight.count i = 0 := by omega
    have hdrop : At v held flight locks (s.setCore i ⟨(s.core i).ref - 1, false, false⟩) := by
      refine h.setCore (fun _ hj => (count_cons_ne hj).symm) (fun _ _ => Iff.rfl) (hzero.trans hcount.symm)
        (by simp [hl]) (fun hmem => absurd hmem hl) (fun hp => ?_) (fun hp => ?_)
      all_goals exact absurd hp (by dsimp only; omega)
    have hfreed := hdrop.setInode_uncached (v.inode i).freed (i := i) (by simpa using hzero)
    rw [if_pos hfrees, h.files]
    simpa [State.setCore, State.setFiles] using hfreed
  · have hkeep : ¬ Frees v held flight i := by
      rintro ⟨hn, hlast⟩
      refine hmore ⟨h.valid i hpos hn, ?_, h.last_iff.mpr hlast⟩
      rw [h.files]
      exact hn
    rw [if_neg hkeep]
    refine h.setCore (fun _ hj => (count_cons_ne hj).symm) (fun _ _ => Iff.rfl) ?_ (by simp [hl])
      (fun hmem => absurd hmem hl) (fun _ => h.valid i hpos) fun _ => h.alive i hpos
    dsimp only
    omega

/-- References to what has links, or is referred to from elsewhere, are just dropped. -/
theorem wp_iput_keep (h : At v held (i :: flight) locks s) (hl : i ∉ locks)
    (hkeep : (v.inode i).nlink ≠ 0 ∨ i ∈ flight ∨ 0 < held i) :
    wp (iput i) (fun _ s' => At v held flight locks s') E s := by
  have hnot : ¬ Frees v held flight i := by
    rintro ⟨hn, hfl, hz⟩
    rcases hkeep with hk | hk | hk
    · exact hk hn
    · exact hfl hk
    · omega
  refine wp_post (wp_iput h hl) fun _ s' h' => ?_
  rwa [if_neg hnot] at h'

theorem wp_iunlockput_keep (h : At v held (i :: flight) (i :: locks) s) (hl : i ∉ locks)
    (hkeep : (v.inode i).nlink ≠ 0 ∨ i ∈ flight ∨ 0 < held i) :
    wp (iunlockput i) (fun _ s' => At v held flight locks s') E s := by
  simp only [iunlockput, wp_bind]
  exact wp_post (wp_iunlock h hl) fun _ _ h' => wp_iput_keep h' hl hkeep

section Calls

variable (h : At v held flight locks s)

include h

/-- The order of references in flight does not matter. -/
theorem At.perm (hp : flight.Perm flight') : At v held flight' locks s :=
  ⟨h.files, fun i => by rw [h.refs, hp.count_eq], h.locked, h.read, h.valid, h.alive⟩

theorem At.perm_locks (hp : locks.Perm locks') : At v held flight locks' s :=
  ⟨h.files, h.refs, fun i => (h.locked i).trans hp.mem_iff, fun i hi => h.read i (hp.mem_iff.mpr hi),
    h.valid, h.alive⟩

/-- The number of links is changed and written, under the lock. -/
theorem wp_updateNlink (hi : i ∈ locks) :
    wp (updateNlink i f) (fun _ s' => At (v.setNlink i (f (v.inode i).nlink)) held flight locks s') E s := by
  simp only [updateNlink, wp_modify, h.files]
  exact h.setInode hi (h.alive i (h.read i hi).2)

/-! ## Lookup -/

/-- `dirlookup` finds the entry of the name, and stops where the inode does not fit into the cache. -/
theorem wp_dirlookup_exact
    (hkept : ∀ j off, v.lookup dp name = some (j, off) → Kept v held j) (hdir : (v.inode dp).type = .dir) :
    wp (dirlookup dp name) (fun r s' => (∀ x ∈ r, Enters held flight x.1) ∧ r = v.lookup dp name ∧
        At v held ((r.map Prod.fst).toList ++ flight) locks s')
      (fun e _ => e = .panic "iget: no inodes" ∧ ∃ x ∈ v.lookup dp name, ¬ Enters held flight x.1) s := by
  simp only [dirlookup, wp_bind, wp_get, wp_ite, wp_throw, h.files]
  refine ⟨fun hnot => absurd hdir hnot, fun _ => ?_⟩
  cases hl : findEntry name 0 (v.inode dp).entries with
  | none => exact ⟨by rintro _ ⟨⟩, hl.symm, h⟩
  | some x =>
    obtain ⟨j, off⟩ := x
    simp only [wp_bind, wp_pure]
    refine wp_mono (wp_iget_exact h (hkept j off hl)) ?_ ?_
    · rintro _ s' ⟨henter, h'⟩
      refine ⟨?_, hl.symm, h'⟩
      rintro x hx
      cases hx
      exact henter
    · rintro e s' ⟨rfl, hfull⟩
      exact ⟨rfl, (j, off), hl, hfull⟩

theorem wp_dirlookup (hlive : Live v held) (hdir : (v.inode dp).type = .dir)
    (hfl : flight.length ≤ 2) (hE : CacheStop held E) :
    wp (dirlookup dp name) (fun r s' => r = v.lookup dp name ∧
      At v held ((r.map Prod.fst).toList ++ flight) locks s') E s := by
  refine wp_mono (wp_dirlookup_exact h (hlive _ _) hdir) (fun _ _ h' => h'.2) ?_
  rintro e s' ⟨rfl, x, _, hfull⟩
  exact hE s' (full_of_not_enters hfull hfl)

end Calls

/-- There is room for every inode that a walk looks up, with its directory in flight. -/
def WalkRoom (v : Files) (held : Nat → Nat) (flight : List Nat) (parent : Bool) (ip : Nat)
    (els : List Name) : Prop :=
  ∀ x ∈ v.visits parent ip els, Enters held (x.1 :: flight) x.2

/-- The walk along a path. Each directory is locked while its entry is looked up, and is given back
    before the next one is locked. -/
theorem wp_namexFrom_exact (h : At v held (ip :: flight) [] s) (hlive : Live v held)
    (hsafe : (v.inode ip).nlink ≠ 0 ∨ ip ∈ flight ∨ 0 < held ip) :
    wp (namexFrom parent ip els) (fun r s' => WalkRoom v held flight parent ip els ∧
        r = v.walk parent ip els ∧ At v held ((r.map Prod.fst).toList ++ flight) [] s')
      (fun e _ => e = .panic "iget: no inodes" ∧ ¬ WalkRoom v held flight parent ip els) s := by
  unfold WalkRoom
  induction els generalizing ip s with
  | nil =>
    unfold namexFrom Files.walk Files.visits
    simp only [wp_ite, wp_bind, wp_pure]
    refine ⟨fun hp => ?_, fun hp => ⟨by rintro _ ⟨⟩, by rw [if_neg hp], h⟩⟩
    exact wp_post (wp_iput_keep h not_mem_nil hsafe) fun _ s' h' => ⟨by rintro _ ⟨⟩, by rw [if_pos hp], h'⟩
  | cons el els ih =>
    unfold namexFrom Files.walk Files.visits
    simp only [wp_bind, wp_get, wp_ite, wp_pure]
    refine wp_post (wp_ilock h mem_cons_self not_mem_nil) fun _ s1 h1 => ?_
    rw [h1.files]
    refine ⟨fun hnot => ?_, fun hdir => ⟨fun hlast => ?_, fun hmore => ?_⟩⟩
    · rw [if_pos hnot, if_pos hnot]
      exact wp_post (wp_iunlockput_keep h1 not_mem_nil hsafe) fun _ s' h' => ⟨by rintro _ ⟨⟩, rfl, h'⟩
    · rw [if_neg hdir, if_neg hdir, if_pos hlast, if_pos hlast]
      exact wp_post (wp_iunlock h1 not_mem_nil) fun _ s' h' => ⟨by rintro _ ⟨⟩, rfl, h'⟩
    · simp only [if_neg hdir, if_neg hmore]
      refine wp_mono (wp_dirlookup_exact h1 (hlive _ _) (not_not.mp hdir)) ?_ ?_
      · rintro r s2 ⟨henter, hr, h2⟩
        rw [← hr]
        cases r with
        | none =>
          simp only [wp_bind, wp_pure]
          exact wp_post (wp_iunlockput_keep h2 not_mem_nil hsafe) fun _ s' h' => ⟨by rintro _ ⟨⟩, trivial, h'⟩
        | some x =>
          obtain ⟨next, off⟩ := x
          have hnext := hlive _ _ _ _ hr.symm
          -- The directory is given back, and the walk goes on from the inode found.
          have h2' : At v held (ip :: next :: flight) [ip] s2 := h2.perm (List.Perm.swap _ _ _)
          have hkeep := hsafe.imp_right (Or.imp_left (mem_cons_of_mem next))
          have hfirst : Enters held (ip :: flight) next := henter _ rfl
          simp only [wp_bind, forall_mem_cons, hfirst, true_and]
          refine wp_post (wp_iunlockput_keep h2' not_mem_nil hkeep) fun _ s3 h3 => ?_
          exact ih h3 (hnext.2.imp_right .inr)
      · rintro e s2 ⟨rfl, ⟨next, off⟩, hx, hfull⟩
        rw [Option.mem_def] at hx
        simp only [hx, forall_mem_cons]
        exact ⟨trivial, fun hall => hfull hall.1⟩

theorem wp_namexFrom (h : At v held (ip :: flight) [] s) (hlive : Live v held)
    (hsafe : (v.inode ip).nlink ≠ 0 ∨ ip ∈ flight ∨ 0 < held ip) (hfl : flight.length ≤ 1)
    (hE : CacheStop held E) :
    wp (namexFrom parent ip els) (fun r s' => r = v.walk parent ip els ∧
      At v held ((r.map Prod.fst).toList ++ flight) [] s') E s := by
  refine wp_mono (wp_namexFrom_exact h hlive hsafe) (fun _ _ h' => h'.2) ?_
  rintro e s' ⟨rfl, hfull⟩
  unfold WalkRoom at hfull
  push Not at hfull
  obtain ⟨x, _, hx⟩ := hfull
  exact hE s' (full_of_not_enters hx (Nat.succ_le_succ hfl))

/-- What path lookup relies on. -/
structure Ready (v : Files) (held : Nat → Nat) : Prop where
  live : Live v held
  root : Kept v held rootino
  cwd : ∀ p, 0 < held (v.cwd p)

/-- Between calls, path lookup has what it relies on. -/
theorem Good.ready (h : Good v) : Ready v v.holds where
  live := h.live v.holds
  root := by
    refine ⟨?_, .inl (h.tree.nlink_dir h.tree.root)⟩
    rw [h.tree.root]
    exact nofun
  cwd := fun p => inUse_iff_holds.mp (.inl ⟨p, rfl⟩)

variable {p : Fin nproc} {path : Path}

/-- `namex` is the lookup of the specification. -/
theorem wp_namex (h : At v held flight [] s) (hr : Ready v held) (hfl : flight.length ≤ 1)
    (hE : CacheStop held E) :
    wp (namex p path parent) (fun r s' => r = v.namex p path parent ∧
      At v held ((r.map Prod.fst).toList ++ flight) [] s') E s := by
  unfold namex Files.namex Files.start
  simp only [wp_bind, wp_get, wp_ite, h.files]
  refine ⟨fun hroot => ?_, fun hrel => ?_⟩
  · rw [if_pos hroot]
    refine wp_post (wp_iget h hr.root (Nat.le_succ_of_le hfl) hE) fun _ s' h' => ?_
    exact wp_namexFrom h' hr.live (hr.root.2.imp_right .inr) hfl hE
  · rw [if_neg hrel]
    refine wp_post (wp_idup h (hr.cwd p)) fun _ s' h' => ?_
    exact wp_namexFrom h' hr.live (.inr (.inr (hr.cwd p))) hfl hE

theorem wp_namei (h : At v held flight [] s) (hr : Ready v held) (hfl : flight.length ≤ 1)
    (hE : CacheStop held E) :
    wp (namei p path) (fun r s' => r = v.namei p path ∧ At v held (r.toList ++ flight) [] s') E s := by
  simp only [namei, wp_bind, wp_pure]
  refine wp_post (wp_namex h hr hfl hE) ?_
  rintro r s' ⟨rfl, h'⟩
  exact ⟨rfl, h'⟩

/-- What has been found may be given back. -/
theorem namex_safe (hr : Ready v held) (h : v.namex p path parent = some (ip, name)) :
    (v.inode ip).nlink ≠ 0 ∨ 0 < held ip := by
  rcases walk_found hr.live h with hs | hn
  · unfold Files.start at hs
    split at hs
    · rw [hs]
      exact hr.root.2
    · rw [hs]
      exact .inr (hr.cwd p)
  · exact hn.2

theorem namei_safe (hr : Ready v held) (h : v.namei p path = some ip) :
    (v.inode ip).nlink ≠ 0 ∨ 0 < held ip := by
  obtain ⟨⟨j, name⟩, hn, rfl⟩ := Option.map_eq_some_iff.mp h
  exact namex_safe hr hn

/-! ## Entries -/

variable {inum : Nat}

/-- The name is there: nothing is written. The inode found may be the directory itself, whose lock
    the caller holds. -/
theorem wp_dirlink_found (h : At v held flight locks s) (hlive : Live v held) (hdir : (v.inode dp).type = .dir)
    (hl : v.lookup dp name = some (j, off)) (hfl : flight.length ≤ 2) (hE : CacheStop held E)
    (hself : j ∈ locks → ∀ s, E .diverge s) :
    wp (dirlink dp name inum) (fun r s' => r = false ∧ j ∉ locks ∧ At v held flight locks s') E s := by
  simp only [dirlink, wp_bind]
  refine wp_post (wp_dirlookup h hlive hdir hfl hE) ?_
  rintro r s1 ⟨rfl, h1⟩
  rw [hl] at h1 ⊢
  simp only [wp_bind, wp_pure]
  by_cases hj : j ∈ locks
  · have hlocked : (s1.core j).locked = true := (h1.locked j).mpr hj
    simp only [iput, acquiresleep, wp_bind, wp_get, wp_ite, wp_throw, hlocked]
    exact ⟨fun _ => hself hj s1, fun hf => absurd trivial hf⟩
  · exact wp_post (wp_iput_keep h1 hj ((hlive dp name j off hl).2.imp_right .inr)) fun _ s' h' => ⟨trivial, hj, h'⟩

/-- The name is not there: it is entered if there is room. -/
theorem wp_dirlink_none (h : At v held flight locks s) (hdir : (v.inode dp).type = .dir)
    (hl : v.lookup dp name = none) (hlock : dp ∈ locks) (hfull : v.Full dp → ∀ s, E (.panic "dirlink") s) :
    wp (dirlink dp name inum) (fun r s' => r = true ∧ ¬ v.Full dp ∧
      At (v.addEntry dp ⟨inum, name⟩) held flight locks s') E s := by
  have hfind : findEntry name 0 (v.inode dp).entries = none := hl
  simp only [dirlink, dirlookup, writeEntry, wp_bind, wp_get, wp_ite, wp_throw, wp_set, wp_pure, h.files, hfind]
  refine ⟨fun hnot => absurd hdir hnot, fun _ => ⟨fun hfit => ?_, fun hno => hfull hno s⟩⟩
  refine ⟨trivial, fun hno => hno hfit, ?_⟩
  refine h.setInode hlock ?_
  show (v.inode dp).type ≠ .free
  rw [hdir]
  rintro ⟨⟩

end Primitives

/-! ## Calls -/

/-- A call stops for the reason its effect tells, or because the inode cache is full. -/
def Refused {α : Type} (eff : Except Stop α) (v : Files) (e : Stop) : Prop :=
  eff = .error e ∨ e = .panic "iget: no inodes" ∧ ninode ≤ heldCount v.holds + 2

theorem cacheStop_refused {α : Type} (eff : Except Stop α) (v : Files) :
    CacheStop v.holds fun e _ => Refused eff v e :=
  fun _ hfull => .inr ⟨rfl, hfull⟩

/-- `x` does what `eff` tells, or is refused. -/
abbrev Performs {α : Type} (x : D α) (eff : Except Stop (α × Files)) (v : Files) (s : State) : Prop :=
  wp x (fun out s' => ∃ v', eff = .ok (out, v') ∧ At v' v'.holds [] [] s')
    (fun e _ => Refused eff v e) s

section Calls

variable {v : Files} {s : State} {p : Fin nproc} {path : Path}

theorem inode_setNlink (v : Files) (i k d : Nat) :
    (v.setNlink i k).inode d = { v.inode d with nlink := if d = i then k else (v.inode d).nlink } := by
  unfold Files.setNlink
  rw [Files.setInode_inode, update_apply]
  split
  · rename_i hd
    rw [hd]
  · rfl

theorem lookup_setNlink : (v.setNlink i k).lookup d name = v.lookup d name := by
  rw [Files.lookup, inode_setNlink, Files.lookup]

theorem type_setNlink : ((v.setNlink i k).inode d).type = (v.inode d).type := by
  rw [inode_setNlink]

theorem full_setNlink : (v.setNlink i k).Full d ↔ v.Full d := by
  rw [Files.Full, inode_setNlink, Files.Full]

theorem walk_setNlink {start : Nat} :
    (v.setNlink i k).walk parent start els = v.walk parent start els := by
  induction els generalizing start with
  | nil => rfl
  | cons el els ih =>
    unfold Files.walk
    rw [type_setNlink, lookup_setNlink]
    simp only [ih]

theorem nameiparent_setNlink : (v.setNlink i k).nameiparent p path = v.nameiparent p path :=
  walk_setNlink

/-- One more link does not disturb lookups. -/
theorem Ready.setNlink (h : Ready v held) (hk : k ≠ 0) :
    Ready (v.setNlink i k) held := by
  have hkept : ∀ j, Kept v held j → Kept (v.setNlink i k) held j := by
    rintro j ⟨halive, hj⟩
    refine ⟨by rwa [type_setNlink], hj.imp_left fun hj => ?_⟩
    rw [inode_setNlink]
    dsimp only
    split
    · exact hk
    · exact hj
  refine ⟨fun d name j off hl => hkept j ?_, hkept _ h.root, h.cwd⟩
  rw [lookup_setNlink] at hl
  exact h.live d name j off hl

theorem setNlink_setNlink : (v.setNlink i k).setNlink i (v.inode i).nlink = v := by
  simp [Files.setNlink, Files.setInode]

/-- The link that `sys_link` has added is taken back. -/
theorem wp_linkBad (h : At (v.setNlink ip k) held [ip] [] s) (hk : k = (v.inode ip).nlink + 1)
    (hsafe : (v.inode ip).nlink ≠ 0 ∨ 0 < held ip) :
    wp (linkBad ip) (fun out s' => out = -1 ∧ At v held [] [] s') E s := by
  simp only [linkBad, wp_bind, wp_pure]
  refine wp_post (wp_ilock h mem_cons_self not_mem_nil) fun _ s1 h1 => ?_
  refine wp_post (wp_updateNlink h1 mem_cons_self) fun _ s2 h2 => ?_
  have hback : ((v.setNlink ip k).inode ip).nlink - 1 = (v.inode ip).nlink := by
    simp [Files.setNlink, hk]
  rw [hback, setNlink_setNlink] at h2
  refine wp_post (wp_iunlockput_keep h2 not_mem_nil ?_) fun _ s3 h3 => ⟨trivial, h3⟩
  exact hsafe.imp_right .inr

/-- References are counted over the processes only. -/
theorem holds_congr (hc : v'.cwd = v.cwd) (ho : v'.ofile = v.ofile) : v'.holds = v.holds := by
  funext i
  refine holders_congr (fun u _ => ?_) i
  cases u with
  | inl q => exact congrArg some (congrFun hc q)
  | inr x => exact congrFun (congrFun ho x.1) x.2

/-- The second half of `link`, with one link counted already; it is taken back if the entry cannot be made. -/
theorem wp_linkInto (hg : Good v)
    (h : At (v.setNlink ip ((v.inode ip).nlink + 1)) v.holds [ip] [] s)
    (hip : v.namei p old = some ip) (hfile : (v.inode ip).type ≠ .dir) :
    Performs (linkInto p ip new) (v.link p old new) v s := by
  have hE := cacheStop_refused (v.link p old new) v
  have hsafe := namei_safe hg.ready hip
  have heff := Files.link.eq_1 v p old new
  rw [hip] at heff
  replace heff := heff.trans (if_neg hfile)
  generalize hv1 : v.setNlink ip ((v.inode ip).nlink + 1) = v1 at h heff
  have hr1 : Ready v1 v.holds := hv1 ▸ hg.ready.setNlink (Nat.succ_ne_zero _)
  have hlook : ∀ d name, v1.lookup d name = v.lookup d name := fun d name => hv1 ▸ lookup_setNlink
  have htype : ∀ d, (v1.inode d).type = (v.inode d).type := fun d => hv1 ▸ type_setNlink
  have hbad : ∀ s1, At v1 v.holds [ip] [] s1 → v.link p old new = .ok (-1, v) →
      Performs (linkBad ip) (v.link p old new) v s1 := by
    intro s1 h1 heq
    refine wp_post (wp_linkBad (hv1 ▸ h1) rfl hsafe) ?_
    rintro _ s' ⟨rfl, h'⟩
    exact ⟨v, heq, h'⟩
  simp only [linkInto, nameiparent, wp_bind]
  refine wp_post (wp_namex h hr1 le_rfl hE) ?_
  rintro r s1 ⟨hr, h1⟩
  have hr' : v.nameiparent p new = r := by
    rw [hr, ← hv1]
    exact nameiparent_setNlink.symm
  rw [hr'] at heff
  cases r with
  | none => exact hbad s1 h1 heff
  | some x =>
    obtain ⟨dp, name⟩ := x
    have hdir := nameiparent_dir hr'
    have hdir1 : (v1.inode dp).type = .dir := by rw [htype, hdir]
    simp only [wp_bind]
    refine wp_post (wp_ilock h1 mem_cons_self not_mem_nil) fun _ s2 h2 => ?_
    have hkeep : (v1.inode dp).nlink ≠ 0 ∨ dp ∈ [ip] ∨ 0 < v.holds dp := (namex_safe hr1 hr.symm).imp_right .inr
    cases hl : v.lookup dp name with
    | some y =>
      obtain ⟨j, off⟩ := y
      simp only [hl] at heff
      refine wp_post (wp_dirlink_found h2 hr1.live hdir1 ((hlook dp name).trans hl) le_rfl hE ?_) ?_
      · intro hj _
        rw [if_pos (mem_singleton.mp hj)] at heff
        exact .inl heff
      · rintro r s3 ⟨rfl, hj, h3⟩
        rw [if_neg fun hjd => hj (mem_singleton.mpr hjd)] at heff
        simp only [wp_bind]
        exact wp_post (wp_iunlockput_keep h3 not_mem_nil hkeep) fun _ s4 h4 => hbad s4 h4 heff
    | none =>
      simp only [hl] at heff
      refine wp_post (wp_dirlink_none h2 hdir1 ((hlook dp name).trans hl) mem_cons_self ?_) ?_
      · intro hfull _
        rw [← hv1, full_setNlink] at hfull
        rw [if_pos hfull] at heff
        exact .inl heff
      · rintro r s3 ⟨rfl, hroom, h3⟩
        rw [← hv1, full_setNlink] at hroom
        rw [if_neg hroom] at heff
        have hne : ip ≠ dp := by
          rintro rfl
          exact hfile hdir
        -- Both inodes keep their links.
        have hnlink : ((v1.addEntry dp ⟨ip, name⟩).inode ip).nlink ≠ 0 := by
          rw [← hv1]
          simp [Files.addEntry, Files.setNlink, hne]
        have hnlinkd : ((v1.addEntry dp ⟨ip, name⟩).inode dp).nlink = (v1.inode dp).nlink := by
          simp [Files.addEntry, Inode.addEntry]
        simp only [wp_bind, wp_pure]
        refine wp_post (wp_iunlockput_keep h3 not_mem_nil (by rwa [hnlinkd])) fun _ s4 h4 => ?_
        refine wp_post (wp_iput_keep h4 not_mem_nil (.inl hnlink)) fun _ s5 h5 => ?_
        refine ⟨_, heff, ?_⟩
        subst hv1
        rwa [holds_congr rfl rfl]

/-- `link` does what it is for. -/
theorem wp_sysLink (hg : Good v) (h : At v v.holds [] [] s) :
    Performs (sysLink p old new) (v.link p old new) v s := by
  have hE := cacheStop_refused (v.link p old new) v
  simp only [sysLink, wp_bind]
  refine wp_post (wp_namei h hg.ready (Nat.zero_le _) hE) ?_
  rintro r s1 ⟨hr, h1⟩
  cases r with
  | none =>
    refine ⟨v, ?_, h1⟩
    unfold Files.link
    rw [← hr]
  | some ip =>
    have hsafe := namei_safe hg.ready hr.symm
    simp only [wp_bind, wp_get, wp_ite]
    refine wp_post (wp_ilock h1 mem_cons_self not_mem_nil) fun _ s2 h2 => ?_
    rw [h2.files]
    refine ⟨fun hdir => ?_, fun hfile => ?_⟩
    · simp only [wp_pure]
      refine wp_post (wp_iunlockput_keep h2 not_mem_nil (hsafe.imp_right .inr))
        fun _ s3 h3 => ⟨v, ?_, h3⟩
      unfold Files.link
      rw [← hr]
      exact if_pos hdir
    · refine wp_post (wp_updateNlink h2 mem_cons_self) fun _ s3 h3 => ?_
      refine wp_post (wp_iunlock h3 not_mem_nil) fun _ s4 h4 => ?_
      exact wp_linkInto hg h4 hr.symm hfile

/-! ### Removing a name -/

/-- An inode is released by the last reference that is given back. -/
theorem release_eq :
    v.release i = if Frees v v.holds [] i then v.setInode i (v.inode i).freed else v := by
  refine if_congr ?_ rfl rfl
  unfold Frees
  rw [inUse_iff_holds]
  simp

/-- `iput` of the last reference in flight is `release`. -/
theorem wp_iput_release (h : At v v.holds [i] [] s) :
    wp (iput i) (fun _ s' => At (v.release i) v.holds [] [] s') E s := by
  rw [release_eq]
  exact wp_iput h not_mem_nil

/-- The directory of a removed name keeps a link. -/
theorem dropName_parent (hg : Good v) (hdir : (v.inode dp).type = .dir)
    (hname : name ≠ dot ∧ name ≠ dotdot) (hl : v.lookup dp name = some (ip, off))
    (hempty : ¬ ((v.inode ip).type = .dir ∧ isdirempty (v.inode ip) = false)) :
    (((v.clearEntry dp off).countDir (v.inode ip).type dp (· - 1)).inode dp).nlink ≠ 0 := by
  obtain ⟨hoff, hget, _⟩ := hg.tree.findEntry_names hdir hname hl
  unfold Files.countDir
  split
  · rename_i hd
    have he : isdirempty (v.inode ip) = true := by
      by_contra hf
      exact hempty ⟨hd, by simpa using hf⟩
    have htree := hg.tree.rmdir (A := Inode.zero) hdir hd he hoff hget ⟨rfl, rfl, rfl⟩ rfl
    have := htree.nlink_dir (d := dp) (by rw [update_self]; exact hdir)
    rw [update_self] at this
    simpa [Files.setNlink, Files.clearEntry, Inode.clearEntry] using this
  · simpa [Files.clearEntry, Inode.clearEntry] using hg.tree.nlink_dir hdir

/-- The name has been found, and both inodes are locked. -/
theorem wp_unlinkFound (hg : Good v) (h : At v v.holds [ip, dp] [ip, dp] s)
    (hdir : (v.inode dp).type = .dir) (hname : name ≠ dot ∧ name ≠ dotdot)
    (hl : v.lookup dp name = some (ip, off)) (hparent : v.nameiparent p path = some (dp, name)) :
    Performs (unlinkFound dp ip off) (v.unlink p path) v s := by
  have hne : ip ≠ dp := hg.tree.ne_of_nameCount (lookup_nameCount hg.tree hdir hname hl)
  have hlink := lookup_nlink hg.tree hl
  have heff : v.unlink p path = if (v.inode ip).type = .dir ∧ isdirempty (v.inode ip) = false then .ok (-1, v)
      else if Fits off then .ok (0, (v.dropName dp ip off).release ip)
      else .error (.panic "unlink: writei") := by
    unfold Files.unlink
    rw [hparent]
    simp only [hname.1, hname.2, or_self, if_false, hl]
  simp only [unlinkFound, wp_bind, wp_get, wp_ite, wp_throw, h.files]
  refine ⟨fun hlt => absurd hlt (by omega), fun _ => ⟨fun hfull => ?_, fun hempty => ?_⟩⟩
  · simp only [wp_pure]
    refine wp_post (wp_iunlockput_keep h (by simpa using hne) (.inl hlink)) fun _ s1 h1 => ?_
    refine wp_post (wp_iunlockput_keep h1 not_mem_nil (.inl (hg.tree.nlink_dir hdir))) fun _ s2 h2 => ?_
    exact ⟨v, by rw [heff, if_pos hfull], h2⟩
  · rw [if_neg hempty] at heff
    simp only [clearEntry, wp_bind, wp_get, wp_ite, wp_set, wp_throw, h.files]
    refine ⟨fun hfit => ?_, fun hno => .inl (by rw [heff, if_neg hno])⟩
    rw [if_pos hfit] at heff
    have h1 : At (v.clearEntry dp off) v.holds [ip, dp] [ip, dp] (s.setFiles (v.clearEntry dp off)) := by
      refine h.setInode (mem_cons_of_mem _ mem_cons_self) ?_
      show (v.inode dp).type ≠ .free
      rw [hdir]
      rintro ⟨⟩
    -- The link of `..` is taken back if a directory is removed.
    have hparent : wp (unlinkParent dp ip)
        (fun _ s' => At ((v.clearEntry dp off).countDir (v.inode ip).type dp (· - 1)) v.holds [ip, dp] [ip, dp] s')
        (fun e _ => Refused (v.unlink p path) v e) (s.setFiles (v.clearEntry dp off)) := by
      have htype : ((v.clearEntry dp off).inode ip).type = (v.inode ip).type := by
        simp [Files.clearEntry, hne]
      simp only [unlinkParent, wp_bind, wp_get, wp_ite, wp_pure, State.setFiles_toFiles, htype, Files.countDir]
      refine ⟨fun hd => ?_, fun hf => ?_⟩
      · rw [if_pos hd]
        exact wp_updateNlink h1 (mem_cons_of_mem _ mem_cons_self)
      · rw [if_neg hf]
        exact h1
    refine wp_post hparent fun _ s2 h2 => ?_
    have h2' := (h2.perm (List.Perm.swap dp ip [])).perm_locks (List.Perm.swap dp ip [])
    refine wp_post (wp_iunlockput_keep h2' (by simpa using hne.symm)
      (.inl (dropName_parent hg hdir hname hl hempty))) fun _ s3 h3 => ?_
    refine wp_post (wp_updateNlink h3 mem_cons_self) fun _ s4 h4 => ?_
    have hholds : v.holds = (v.dropName dp ip off).holds :=
      (holds_congr dropName_cwd.1 dropName_cwd.2).symm
    have h4' : At (v.dropName dp ip off) v.holds [ip] [ip] s4 := h4
    simp only [iunlockput, wp_bind, wp_pure]
    refine wp_post (wp_iunlock h4' not_mem_nil) fun _ s5 h5 => ?_
    rw [hholds] at h5
    refine wp_post (wp_iput_release h5) fun _ s6 h6 => ⟨_, heff, ?_⟩
    rwa [holds_congr release_cwd release_ofile]

/-- `unlink` does what it is for. -/
theorem wp_sysUnlink (hg : Good v) (h : At v v.holds [] [] s) :
    Performs (sysUnlink p path) (v.unlink p path) v s := by
  have hE := cacheStop_refused (v.unlink p path) v
  simp only [sysUnlink, nameiparent, wp_bind]
  refine wp_post (wp_namex h hg.ready (Nat.zero_le _) hE) ?_
  rintro r s1 ⟨hr, h1⟩
  have hr' : v.nameiparent p path = r := hr.symm
  cases r with
  | none => exact ⟨v, by unfold Files.unlink; rw [hr'], h1⟩
  | some x =>
    obtain ⟨dp, name⟩ := x
    have hdir := nameiparent_dir hr'
    have hkeep := hg.tree.nlink_dir hdir
    simp only [wp_bind, wp_ite]
    refine wp_post (wp_ilock h1 mem_cons_self not_mem_nil) fun _ s2 h2 => ⟨fun hdots => ?_, fun hname => ?_⟩
    · simp only [wp_pure]
      refine wp_post (wp_iunlockput_keep h2 not_mem_nil (.inl hkeep)) fun _ s3 h3 => ⟨v, ?_, h3⟩
      unfold Files.unlink
      rw [hr']
      exact if_pos hdots
    · refine wp_post (wp_dirlookup h2 (hg.live _) hdir (Nat.le_succ 1) hE) ?_
      rintro r s3 ⟨hl, h3⟩
      cases r with
      | none =>
        simp only [wp_bind, wp_pure]
        refine wp_post (wp_iunlockput_keep h3 not_mem_nil (.inl hkeep)) fun _ s4 h4 => ⟨v, ?_, h4⟩
        unfold Files.unlink
        rw [hr']
        simp only [hname, if_false, ← hl]
      | some y =>
        obtain ⟨ip, off⟩ := y
        rw [not_or] at hname
        have hne : ip ≠ dp := hg.tree.ne_of_nameCount (lookup_nameCount hg.tree hdir hname hl.symm)
        simp only [wp_bind]
        refine wp_post (wp_ilock h3 mem_cons_self (by simpa using hne)) fun _ s4 h4 => ?_
        exact wp_unlinkFound hg h4 hdir hname hl.symm hr'

/-! ### Making an inode -/

/-- A new inode is allocated, referenced and locked. -/
theorem wp_ialloc (h : At v held flight locks s) (hfree : v.freeInode = some ip)
    (htype : type ≠ .free)
    (hcache : ¬ Enters held flight ip → ∀ s, E (.panic "iget: no inodes") s) :
    wp (ialloc type) (fun j s' => j = ip ∧ Enters held flight ip ∧
      wp (ilock ip) (fun _ s'' => At (v.allocate ip type) held (ip :: flight) (ip :: locks) s'') E s') E s := by
  have hrefs := h.refs ip
  have hzero : (s.core ip).ref = 0 := by
    by_contra hpos
    exact h.alive ip (by omega) (freeInode_some hfree).1
  have hl : ip ∉ locks := by
    intro hmem
    have := (h.read ip hmem).2
    omega
  have hlocked : (s.core ip).locked = false := by
    rw [Bool.eq_false_iff]
    exact fun ht => hl ((h.locked ip).mp ht)
  have halloc : At (v.allocate ip type) held flight locks (s.setFiles (v.allocate ip type)) :=
    h.setInode_uncached _ hzero
  simp only [ialloc, wp_bind, wp_get, h.files, hfree, wp_set, wp_pure, iget, wp_ite, wp_throw]
  refine ⟨fun hpos => absurd hpos (by rw [State.setFiles_core, hzero]; exact lt_irrefl 0), fun _ => ?_⟩
  have hcached := halloc.cached_eq
  refine ⟨fun hfull => hcache (fun henter => ?_) _, fun hroom => ⟨trivial, .inr ?_, ?_⟩⟩
  · rcases henter with hpos | hlt
    · omega
    · exact absurd (hcached ▸ hlt) (not_lt.mpr hfull)
  · rw [← hcached]
    exact not_le.mp hroom
  have halive : ((v.allocate ip type).inode ip).type ≠ .free := by
    simpa [Files.allocate] using htype
  have hat : At (v.allocate ip type) held (ip :: flight) (ip :: locks)
      ((s.setFiles (v.allocate ip type)).setCore ip ⟨1, true, true⟩) := by
    refine halloc.setCore (fun _ => count_cons_ne) (fun _ => mem_cons_ne) ?_ (by simp)
      (fun _ => ⟨rfl, Nat.one_pos⟩) (fun _ _ => rfl) fun _ => halive
    rw [count_cons_self]
    show 1 = _
    omega
  simp only [ilock, acquiresleep, readInode, wp_bind, wp_get, wp_ite, wp_set, wp_throw, wp_pure,
    State.setCore_core, update_self, State.setFiles_core, hlocked, State.setCore_toFiles,
    State.setFiles_toFiles]
  refine ⟨fun hlt => absurd hlt (by decide), fun _ => ⟨by rintro ⟨⟩, fun _ => ?_⟩⟩
  refine ⟨by rintro ⟨⟩, fun _ => ⟨fun hf => absurd hf halive, fun _ => ?_⟩⟩
  simp only [State.setCore, State.setFiles, update_idem] at hat ⊢
  exact hat

/-- The entries of the new directory are written. -/
theorem wp_createDots (h : At v held flight (ip :: dp :: locks) s) (hip : ip ≠ 0) (hne : ip ≠ dp)
    (hnew : (v.inode ip).type = type ∧ (v.inode ip).entries = []) :
    wp (createDots type dp ip) (fun _ s' => At ((v.countDir type dp (· + 1)).addDots type dp ip) held
      flight (ip :: dp :: locks) s') E s := by
  unfold createDots Files.addDots Files.countDir
  by_cases hd : type = .dir
  · simp only [if_pos hd, wp_bind]
    refine wp_post (wp_updateNlink h (mem_cons_of_mem _ mem_cons_self)) fun _ s1 h1 => ?_
    generalize hv1 : v.setNlink dp ((v.inode dp).nlink + 1) = v1 at h1
    have hinode : v1.inode ip = v.inode ip := by
      rw [← hv1]
      simp [Files.setNlink, hne]
    have hentries : (v1.inode ip).entries = [] := by rw [hinode, hnew.2]
    have hdir : (v1.inode ip).type = .dir := by rw [hinode, hnew.1, hd]
    have hfirst : v1.lookup ip dot = none := by
      unfold Files.lookup
      rw [hentries]
      rfl
    have hroom : ¬ v1.Full ip := by
      unfold Files.Full
      rw [hentries]
      decide
    refine wp_post (wp_dirlink_none h1 hdir hfirst mem_cons_self fun hf => absurd hf hroom) ?_
    rintro r s2 ⟨rfl, _, h2⟩
    have hentries2 : ((v1.addEntry ip ⟨ip, dot⟩).inode ip).entries = [⟨ip, dot⟩] := by
      simp [Files.addEntry, Inode.addEntry, hentries, putEntry]
    have hdir2 : ((v1.addEntry ip ⟨ip, dot⟩).inode ip).type = .dir := by
      simp [Files.addEntry, Inode.addEntry, hdir]
    have hsecond : (v1.addEntry ip ⟨ip, dot⟩).lookup ip dotdot = none := by
      have hname : dot ≠ dotdot := by decide
      unfold Files.lookup
      rw [hentries2]
      simp [findEntry, hip, hname]
    have hroom2 : ¬ (v1.addEntry ip ⟨ip, dot⟩).Full ip := by
      have hone : freeEntry [⟨ip, dot⟩] = 1 := freeEntry_cons hip
      unfold Files.Full
      rw [hentries2, hone]
      decide
    simp only [wp_bind]
    refine wp_post (wp_dirlink_none h2 hdir2 hsecond mem_cons_self fun hf => absurd hf hroom2) ?_
    rintro r s3 ⟨rfl, _, h3⟩
    exact h3
  · simp only [if_neg hd, wp_pure]
    exact h

/-- The entries of the directory are not touched before the name is entered. -/
theorem addDots_entries (hne : dp ≠ ip) :
    ((((v.countDir type dp (· + 1)).addDots type dp ip).inode dp).entries = (v.inode dp).entries) ∧
      (((v.countDir type dp (· + 1)).addDots type dp ip).inode dp).type = (v.inode dp).type := by
  unfold Files.addDots Files.countDir
  by_cases hd : type = .dir
  · simp [hd, Files.addEntry, Files.setNlink, hne]
  · simp [hd]

/-- A new inode is made and named, if there is an inode, room in the cache and room in the directory. -/
theorem wp_createNew_at (h : At v held [dp] (dp :: locks) s) (hdp : dp ∉ locks)
    (hkept : Kept v held dp) (hdir : (v.inode dp).type = .dir) (hl : v.lookup dp name = none) (htype : type ≠ .free)
    (hnone : v.freeInode = none → ∀ s, E (.panic "ialloc: no inodes") s)
    (hcache : ∀ ip, v.freeInode = some ip → ¬ Enters held [dp] ip → ∀ s, E (.panic "iget: no inodes") s)
    (hfull : ∀ ip, v.freeInode = some ip → v.Full dp → ∀ s, E (.panic "dirlink") s) :
    wp (createNew dp name type major minor) (fun ip s' => v.freeInode = some ip ∧ Enters held [dp] ip ∧
      ¬ v.Full dp ∧ At (v.newInode dp name ip type major minor) held [ip] (ip :: locks) s') E s := by
  unfold createNew
  rw [wp_bind]
  cases hfree : v.freeInode with
  | none =>
    simp only [ialloc, wp_bind, wp_get, h.files, hfree, wp_throw]
    exact hnone hfree s
  | some ip =>
    obtain ⟨hipfree, hip⟩ := freeInode_some hfree
    have hne := freeInode_ne hfree hdir
    refine wp_post (wp_ialloc h hfree htype (hcache ip hfree)) ?_
    rintro j s1 ⟨hj, henter, h1⟩
    rw [hj]
    simp only [wp_bind, wp_modify]
    refine wp_post h1 fun _ s2 h2 => ?_
    rw [h2.files]
    generalize hv2 : (v.allocate ip type).setInode ip
      { (v.allocate ip type).inode ip with major := major, minor := minor, nlink := 1 } = v2
    have h3 : At v2 held [ip, dp] (ip :: dp :: locks) (s2.setFiles v2) := by
      rw [← hv2]
      refine h2.setInode mem_cons_self ?_
      simpa [Files.allocate] using htype
    have hnew : (v2.inode ip).type = type ∧ (v2.inode ip).entries = [] := by
      rw [← hv2]
      simp [Files.allocate, Inode.zero]
    have hold : v2.inode dp = v.inode dp := by
      rw [← hv2]
      simp [Files.allocate, hne.symm]
    refine wp_post (wp_createDots h3 hip.1.ne' hne hnew) fun _ s4 h4 => ?_
    generalize hv3 : (v2.countDir type dp (· + 1)).addDots type dp ip = v3 at h4
    -- so far the parent has no new entry
    have hsame : (v3.inode dp).entries = (v.inode dp).entries ∧ (v3.inode dp).type = (v.inode dp).type := by
      rw [← hv3, ← hold]
      exact addDots_entries hne.symm
    have hl3 : v3.lookup dp name = none := by
      unfold Files.lookup
      rw [hsame.1]
      exact hl
    have hfull3 : v3.Full dp ↔ v.Full dp := by
      unfold Files.Full
      rw [hsame.1]
    refine wp_post (wp_dirlink_none h4 (hsame.2.trans hdir) hl3 (mem_cons_of_mem _ mem_cons_self)
      fun hf => hfull ip hfree (hfull3.mp hf)) ?_
    rintro r s5 ⟨rfl, hroom, h5⟩
    have hfinal : v3.addEntry dp ⟨ip, name⟩ = v.newInode dp name ip type major minor := by
      rw [← hv3, ← hv2]
      rfl
    rw [hfinal] at h5
    have hkeep : ((v.newInode dp name ip type major minor).inode dp).nlink ≠ 0 ∨ 0 < held dp := by
      refine hkept.2.imp_left fun hlink => ?_
      rw [newInode_inode hip.1.ne' hne, update_self]
      dsimp only
      split <;> omega
    have h5' := (h5.perm (List.Perm.swap dp ip [])).perm_locks (List.Perm.swap dp ip locks)
    simp only [wp_bind, wp_pure]
    exact wp_post (wp_iunlockput_keep h5' (by simp [hne.symm, hdp]) (hkeep.imp_right .inr)) fun _ s6 h6 =>
      ⟨trivial, henter, fun hf => hroom (hfull3.mpr hf), h6⟩

/-- `create` where the name is not there. -/
theorem wp_createNew (hg : Good v) (h : At v v.holds [dp] [dp] s) (hdir : (v.inode dp).type = .dir)
    (hl : v.lookup dp name = none) (htype : type ≠ .free)
    (hparent : v.nameiparent p path = some (dp, name)) :
    wp (createNew dp name type major minor)
      (fun ip s' => ∃ v', v.create p path type major minor = .ok (some ip, v') ∧ At v' v.holds [ip] [ip] s')
      (fun e _ => Refused (v.create p path type major minor) v e) s := by
  have hE := cacheStop_refused (v.create p path type major minor) v
  have heff : v.create p path type major minor =
      v.freeInode.elim (.error (.panic "ialloc: no inodes")) fun ip =>
        if v.Full dp then .error (.panic "dirlink")
        else .ok (some ip, v.newInode dp name ip type major minor) := by
    unfold Files.create
    rw [hparent]
    cases v.freeInode <;> simp only [hl, Option.elim]
  have hlink := hg.tree.nlink_dir hdir
  refine wp_post (wp_createNew_at h not_mem_nil ⟨hg.tree.alive hlink, .inl hlink⟩ hdir hl htype ?_ ?_ ?_) ?_
  · intro hfree _
    rw [hfree] at heff
    exact .inl heff
  · intro ip _ hfull s'
    exact hE s' (full_of_not_enters hfull (Nat.le_succ 1))
  · intro ip hfree hfull _
    simp only [hfree, Option.elim, if_pos hfull] at heff
    exact .inl heff
  · rintro ip s' ⟨hfree, _, hroom, h'⟩
    simp only [hfree, Option.elim, if_neg hroom] at heff
    exact ⟨_, heff, h'⟩

/-- `create`: the name may be there, or a new inode is made. -/
theorem wp_create (hg : Good v) (h : At v v.holds [] [] s) (htype : type ≠ .free) :
    wp (create p path type major minor)
      (fun r s' => ∃ v', v.create p path type major minor = .ok (r, v') ∧ At v' v.holds r.toList r.toList s')
      (fun e _ => Refused (v.create p path type major minor) v e) s := by
  have hE := cacheStop_refused (v.create p path type major minor) v
  simp only [create, nameiparent, wp_bind]
  refine wp_post (wp_namex h hg.ready (Nat.zero_le _) hE) ?_
  rintro r s1 ⟨hr, h1⟩
  have hr' : v.nameiparent p path = r := hr.symm
  cases r with
  | none => exact ⟨v, by unfold Files.create; rw [hr'], h1⟩
  | some x =>
    obtain ⟨dp, name⟩ := x
    have hdir := nameiparent_dir hr'
    have hkeep := hg.tree.nlink_dir hdir
    simp only [wp_bind]
    refine wp_post (wp_ilock h1 mem_cons_self not_mem_nil) fun _ s2 h2 => ?_
    refine wp_post (wp_dirlookup h2 (hg.live _) hdir (Nat.le_succ 1) hE) ?_
    rintro r s3 ⟨hl, h3⟩
    cases r with
    | none =>
      simp only [wp_bind, wp_pure]
      refine wp_post (wp_createNew hg h3 hdir hl.symm htype hr') ?_
      rintro ip s4 ⟨v', heff, h4⟩
      exact ⟨v', heff, h4⟩
    | some y =>
      obtain ⟨ip, off⟩ := y
      have heff : v.create p path type major minor =
          if type = .file ∧ (v.inode ip).type = .file then .ok (some ip, v) else .ok (none, v) := by
        unfold Files.create
        rw [hr']
        simp only [← hl]
      have hlink := lookup_nlink hg.tree hl.symm
      have h3' : At v v.holds [dp, ip] [dp] s3 := h3.perm (List.Perm.swap dp ip [])
      simp only [wp_bind, wp_get, wp_ite, wp_pure]
      refine wp_post (wp_iunlockput_keep h3' not_mem_nil (.inl hkeep)) fun _ s4 h4 => ?_
      refine wp_post (wp_ilock h4 mem_cons_self not_mem_nil) fun _ s5 h5 => ?_
      rw [h5.files]
      refine ⟨fun hfile => ⟨v, by rw [heff, if_pos hfile], h5⟩, fun hno => ?_⟩
      exact wp_post (wp_iunlockput_keep h5 not_mem_nil (.inl hlink)) fun _ s6 h6 =>
        ⟨v, by rw [heff, if_neg hno], h6⟩

/-! ### Files, current directories -/

/-- `mknod` and `mkdir` do what they are for. -/
theorem wp_sysCreate (hg : Good v) (h : At v v.holds [] [] s) (htype : type ≠ .free) :
    Performs (sysCreate p path type major minor) (v.mkinode p path type major minor) v s := by
  simp only [sysCreate, wp_bind]
  refine wp_mono (wp_create hg h htype) ?_ ?_
  · rintro r s1 ⟨v', heff, h1⟩
    have hprocs := create_procs heff
    rw [← holds_congr hprocs.1 hprocs.2] at h1
    cases r with
    | none => exact ⟨v', by unfold Files.mkinode; rw [heff], h1⟩
    | some ip =>
      simp only [wp_bind, wp_pure]
      exact wp_post (wp_iunlockput_keep h1 not_mem_nil (.inl (create_nlink hg heff))) fun _ s2 h2 =>
        ⟨v', by unfold Files.mkinode; rw [heff], h2⟩
  · rintro e _ (hstop | hfull)
    · exact .inl (by unfold Files.mkinode; rw [hstop])
    · exact .inr hfull

/-- The inode that `open` opens, found or created. -/
theorem wp_openInode (hg : Good v) (h : At v v.holds [] [] s) :
    wp (openInode p path omode)
      (fun r s' => ∃ v', v.openInode p path omode = .ok (r, v') ∧ At v' v.holds r.toList r.toList s' ∧
        (v'.cwd = v.cwd ∧ v'.ofile = v.ofile) ∧
        ∀ ip, r = some ip → (v'.inode ip).nlink ≠ 0 ∨ 0 < v.holds ip)
      (fun e _ => Refused (v.openInode p path omode) v e) s := by
  have hE := cacheStop_refused (v.openInode p path omode) v
  by_cases hc : omode &&& oCreate ≠ 0
  · have hcode : openInode p path omode = create p path .file 0 0 := if_pos hc
    have heff : v.openInode p path omode = v.create p path .file 0 0 := if_pos hc
    have hfile : FileType.file ≠ .free := by rintro ⟨⟩
    rw [hcode, heff]
    refine wp_post (wp_create hg h hfile) ?_
    rintro r s' ⟨v', hv', h'⟩
    refine ⟨v', hv', h', create_procs hv', ?_⟩
    rintro ip rfl
    exact .inl (create_nlink hg hv')
  · have heff : v.openInode p path omode = _ := if_neg hc
    unfold openInode
    rw [if_neg hc]
    simp only [wp_bind]
    refine wp_post (wp_namei h hg.ready (Nat.zero_le _) hE) ?_
    rintro r s1 ⟨hr, h1⟩
    rw [← hr] at heff
    cases r with
    | none => exact ⟨v, heff, h1, ⟨rfl, rfl⟩, by rintro _ ⟨⟩⟩
    | some ip =>
      have hsafe := namei_safe hg.ready hr.symm
      simp only [wp_bind, wp_get, wp_ite, wp_pure]
      refine wp_post (wp_ilock h1 mem_cons_self not_mem_nil) fun _ s2 h2 => ?_
      rw [h2.files]
      refine ⟨fun hdir => ?_, fun hok => ⟨v, by rw [heff]; exact if_neg hok, h2, ⟨rfl, rfl⟩, ?_⟩⟩
      · refine wp_post (wp_iunlockput_keep h2 not_mem_nil (hsafe.imp_right .inr))
          fun _ s3 h3 => ⟨v, by rw [heff]; exact if_pos hdir, h3, ⟨rfl, rfl⟩, by rintro _ ⟨⟩⟩
      · rintro _ ⟨⟩
        exact hsafe

/-- References move from the call to a process. -/
theorem At.recount {held' : Nat → Nat} (h : At v held flight locks s)
    (hsum : ∀ i, held i + flight.count i = held' i + flight'.count i) :
    At v held' flight' locks s :=
  ⟨h.files, fun i => by rw [h.refs, hsum], h.locked, h.read, h.valid, h.alive⟩

/-- Only the processes change. -/
theorem At.setProcs (h : At v held flight locks s) (hinode : v'.inode = v.inode) :
    At v' held flight locks (s.setFiles v') :=
  ⟨rfl, h.refs, h.locked, h.read, fun i hpos hn => h.valid i hpos (hinode ▸ hn), fun i hpos => hinode ▸ h.alive i hpos⟩

theorem count_one (a i : Nat) : [a].count i = if a = i then 1 else 0 := by
  simp [count_singleton]

/-- A descriptor changes: the references count what it held and what it holds. -/
theorem holds_setFile (v : Files) (p : Fin nproc) (fd : Fin nofile) (f : Option Nat) (i : Nat) :
    (v.setFile p fd f).holds i + (if v.ofile p fd = some i then 1 else 0) =
      v.holds i + if f = some i then 1 else 0 := by
  have hother : ∀ w ∈ allPlaces nproc nofile, w ≠ .inr (p, fd) → (v.setFile p fd f).target w = v.target w := by
    intro w _ hw
    cases w with
    | inl q => rfl
    | inr x =>
      obtain ⟨q, k⟩ := x
      show (v.setFile p fd f).ofile q k = v.ofile q k
      rw [ofile_setFile, if_neg]
      rintro ⟨rfl, rfl⟩
      exact hw rfl
  have hchange := holders_change (mem_allPlaces _) hother i
  have hnew : (v.setFile p fd f).target (.inr (p, fd)) = f := by
    show (v.setFile p fd f).ofile p fd = f
    rw [ofile_setFile, if_pos ⟨rfl, rfl⟩]
  rw [hnew] at hchange
  exact hchange

/-- A process changes its directory: the references move with it. -/
theorem holds_setCwd (v : Files) (p : Fin nproc) (ip i : Nat) :
    (v.setCwd p ip).holds i + (if v.cwd p = i then 1 else 0) = v.holds i + if ip = i then 1 else 0 := by
  have hother : ∀ w ∈ allPlaces nproc nofile, w ≠ .inl p → (v.setCwd p ip).target w = v.target w := by
    intro w _ hw
    cases w with
    | inr x => rfl
    | inl q =>
      have hq : q ≠ p := by
        rintro rfl
        exact hw rfl
      show some ((v.setCwd p ip).cwd q) = some (v.cwd q)
      rw [Files.setCwd_cwd, update_of_ne hq]
  have hchange := holders_change (mem_allPlaces _) hother i
  have hnew : (v.setCwd p ip).target (.inl p) = some ip := by
    show some ((v.setCwd p ip).cwd p) = some ip
    rw [Files.setCwd_cwd, update_self]
  have hold : v.target (.inl p) = some (v.cwd p) := rfl
  rw [hnew, hold] at hchange
  simp only [Option.some.injEq] at hchange
  exact hchange

/-- `open`: the reference in flight becomes that of a descriptor. -/
theorem wp_sysOpen (hg : Good v) (h : At v v.holds [] [] s) :
    Performs (sysOpen p path omode) (v.open p path omode) v s := by
  simp only [sysOpen, wp_bind]
  refine wp_mono (wp_openInode hg h) ?_ ?_
  · rintro r s1 ⟨v', heff, h1, hprocs, hsafe⟩
    have hholds := holds_congr hprocs.1 hprocs.2
    rw [← hholds] at h1
    cases r with
    | none => exact ⟨v', by unfold Files.open; rw [heff], h1⟩
    | some ip =>
      simp only [wp_bind, wp_get, h1.files]
      cases hfd : v'.newFile p with
      | none =>
        have hkeep : (v'.inode ip).nlink ≠ 0 ∨ ip ∈ [] ∨ 0 < v'.holds ip := by
          rw [hholds]
          exact (hsafe ip rfl).imp_right .inr
        simp only [wp_bind, wp_pure]
        refine wp_post (wp_iunlockput_keep h1 not_mem_nil hkeep) fun _ s2 h2 => ⟨v', ?_, h2⟩
        unfold Files.open
        rw [heff]
        simp only [hfd]
      | some fd =>
        simp only [wp_bind, wp_modify, wp_pure]
        refine wp_post (wp_iunlock h1 not_mem_nil) fun _ s2 h2 => ⟨v'.setFile p fd (some ip), ?_, ?_⟩
        · unfold Files.open
          rw [heff]
          simp only [hfd]
        · rw [h2.files]
          refine (h2.recount fun i => ?_).setProcs rfl
          have hcount := holds_setFile v' p fd (some ip) i
          simp only [fdalloc_none hfd, Option.some.injEq, reduceCtorEq, if_false, Nat.add_zero] at hcount
          show v'.holds i + [ip].count i = _
          rw [count_one, hcount]
          rfl
  · rintro e _ (hstop | hfull)
    · exact .inl (by unfold Files.open; rw [hstop])
    · exact .inr hfull

/-- `chdir`: the reference to the old directory is given back. -/
theorem wp_sysChdir (hg : Good v) (h : At v v.holds [] [] s) :
    Performs (sysChdir p path) (v.chdir p path) v s := by
  have hE := cacheStop_refused (v.chdir p path) v
  simp only [sysChdir, wp_bind]
  refine wp_post (wp_namei h hg.ready (Nat.zero_le _) hE) ?_
  rintro r s1 ⟨hr, h1⟩
  cases r with
  | none => exact ⟨v, by unfold Files.chdir; rw [← hr], h1⟩
  | some ip =>
    have heff : v.chdir p path = if (v.inode ip).type ≠ .dir then .ok (-1, v)
        else .ok (0, (v.setCwd p ip).release (v.cwd p)) := by
      unfold Files.chdir
      rw [← hr]
    have hsafe := namei_safe hg.ready hr.symm
    simp only [wp_bind, wp_get, wp_ite, wp_pure, wp_modify]
    refine wp_post (wp_ilock h1 mem_cons_self not_mem_nil) fun _ s2 h2 => ?_
    rw [h2.files]
    refine ⟨fun hnot => ?_, fun hdir => ?_⟩
    · refine wp_post (wp_iunlockput_keep h2 not_mem_nil (hsafe.imp_right .inr))
        fun _ s3 h3 => ⟨v, by rw [heff]; exact if_pos hnot, h3⟩
    · refine wp_post (wp_iunlock h2 not_mem_nil) fun _ s3 h3 => ?_
      -- The reference of the old directory is the one given back.
      have hswap : At v (v.setCwd p ip).holds [v.cwd p] [] s3 := by
        refine h3.recount fun i => ?_
        have hcount := holds_setCwd v p ip i
        show v.holds i + [ip].count i = _
        rw [count_one, count_one]
        omega
      refine wp_post (wp_iput hswap not_mem_nil) fun _ s4 h4 => ?_
      refine ⟨(v.setCwd p ip).release (v.cwd p), by rw [heff]; exact if_neg hdir, ?_⟩
      have hholds : ((v.setCwd p ip).release (v.cwd p)).holds = (v.setCwd p ip).holds :=
        holds_congr release_cwd release_ofile
      rw [hholds]
      have hrel : (v.setCwd p ip).release (v.cwd p) = Files.setCwd
          (if Frees v (v.setCwd p ip).holds [] (v.cwd p) then v.setInode (v.cwd p) (v.inode (v.cwd p)).freed else v)
          p ip := by
        rw [release_eq, apply_ite (Files.setCwd · p ip)]
        rfl
      rw [hrel, h4.files]
      exact h4.setProcs (by rfl)

/-- `close`: the reference of the descriptor is given back. -/
theorem wp_sysClose {fd : Nat} (h : At v v.holds [] [] s) :
    Performs (sysClose p fd) (v.close p fd) v s := by
  simp only [sysClose, wp_bind, wp_get, h.files]
  by_cases hfd : fd < nofile
  · have heff : v.close p fd = _ := dif_pos hfd
    rw [dif_pos hfd]
    cases hip : v.ofile p ⟨fd, hfd⟩ with
    | none =>
      rw [hip] at heff
      exact ⟨v, heff, h⟩
    | some ip =>
      rw [hip] at heff
      simp only [wp_bind, wp_modify, wp_pure, h.files]
      have hclosed : At (v.setFile p ⟨fd, hfd⟩ none) (v.setFile p ⟨fd, hfd⟩ none).holds [ip] []
          (s.setFiles (v.setFile p ⟨fd, hfd⟩ none)) := by
        refine (h.recount fun i => ?_).setProcs rfl
        have hcount := holds_setFile v p ⟨fd, hfd⟩ none i
        rw [hip] at hcount
        simp only [Option.some.injEq, reduceCtorEq, if_false, Nat.add_zero] at hcount
        rw [count_one, hcount]
        rfl
      refine wp_post (wp_iput_release hclosed) fun _ s' h' => ⟨_, heff, ?_⟩
      rwa [holds_congr release_cwd release_ofile]
  · rw [dif_neg hfd]
    exact ⟨v, dif_neg hfd, h⟩

/-- Every call does what it is for, or is refused. -/
theorem wp_exec {c : Call} (hg : Good v) (h : At v v.holds [] [] s) :
    Performs c.exec (c.effect v) v s := by
  have hdir : FileType.dir ≠ .free := nofun
  have hdev : FileType.dev ≠ .free := nofun
  cases c with
  | mkdir p path => exact wp_sysCreate hg h hdir
  | mknod p path major minor => exact wp_sysCreate hg h hdev
  | «open» p path omode => exact wp_sysOpen hg h
  | link p old new => exact wp_sysLink hg h
  | unlink p path => exact wp_sysUnlink hg h
  | chdir p path => exact wp_sysChdir hg h
  | close p fd => exact wp_sysClose h

end Calls

end Xv6Paging.Dirs
