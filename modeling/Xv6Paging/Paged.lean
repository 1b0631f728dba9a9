import Xv6Paging.Records
import Xv6Paging.Swap

/-! # Paged processes

    `Paged c p m T l` is the representation invariant of a process whose pages
    are all tracked: the metadata record the table `T`, the page table agrees
    with it, the frames of its pages are in use and no two pages share one, and
    the swap file covers every slot in use.

    The three moves of a page (out to the swap file, back in, and a new page)
    are written down as functions on the machine; each keeps the invariant, with
    the corresponding update of `T`, and none changes the memory that the
    process sees, `Machine.view`.
-/

namespace Xv6Paging

open Wp Placement Function

variable {a k p v : Nat} {m : Machine} {c : Config} {T : PageMap} {l : List Nat} {x : Pte}
  {ip : Inode} {src : Nat → UInt8}

/-- The PTE of page `v` of process `p`. -/
def Machine.pte (m : Machine) (p v : Nat) : Pte := (m.dirs (m.proc p).pgdir).pte v

theorem wp_getPte_own (Q : Pte → Machine → Prop) : wp (getPte (m.proc p).pgdir v) Q E m ↔ Q (m.pte p v) m := Iff.rfl

/-- The invariant of the swap code without the RAM list: the table, the page table and the frames agree,
    whatever the links of the entries are. -/
structure Placed (c : Config) (p : Nat) (m : Machine) (T : PageMap) : Prop where
  recorded : (m.proc p).Recorded T
  live : (m.dirs (m.proc p).pgdir).live = true
  table : (m.dirs (m.proc p).pgdir).table 0 ≠ none
  present_iff : ∀ {v : Nat}, v < nuserPages →
    ((m.pte p v).p = true ↔ ∃ i < maxTotalPages, T i = .fast v)
  paged_iff : ∀ {v : Nat}, v < nuserPages →
    ((m.pte p v).p = false ∧ (m.pte p v).pg = true ↔ ∃ i < maxTotalPages, ∃ s, T i = .slow v s)
  frame : ∀ {v : Nat}, v < nuserPages → (m.pte p v).p = true →
    managed c (m.pte p v).frame ∧ 0 < m.referenceCounters (m.pte p v).frame
  frame_inj : ∀ {v w : Nat}, v < nuserPages → w < nuserPages → (m.pte p v).p = true →
    (m.pte p w).p = true → (m.pte p v).frame = (m.pte p w).frame → v = w
  free_nodup : m.freelist.Nodup
  free : ∀ {f : Nat}, f ∈ m.freelist → managed c f ∧ m.referenceCounters f = 0
  covered : ∀ {s : Nat}, s < swapSlots → (m.proc p).availableOffsets s = true →
    pgsize * s + pgsize ≤ (m.swap p).size
  opened : (m.proc p).swapFile = none → (m.proc p).numPagesDisk = 0
  global : m.globalPgdir = none
  unlocked : m.ncli = 0
  outside : m.opDepth = 0

/-- The process and its address space are in the state that the swap code
    expects between two operations. -/
structure Paged (c : Config) (p : Nat) (m : Machine) (T : PageMap) (l : List Nat) : Prop extends
    Placed c p m T where
  listed : (m.proc p).Listed l
  mem_iff : ∀ i, i ∈ l ↔ i < maxTotalPages ∧ (T i).isFast = true

theorem Paged.records (h : Paged c p m T l) : (m.proc p).Records T l := ⟨h.recorded, h.listed, h.mem_iff⟩

theorem Placed.paged (h : Placed c p m T) (hrec : (m.proc p).Records T l) : Paged c p m T l :=
  ⟨h, hrec.listed, hrec.mem_iff⟩

/-! ## Addresses of the tracked pages -/

theorem lt_nuserPages (hv : v < maxTotalPages) : v < nuserPages := by
  simp only [maxTotalPages, nuserPages] at *
  omega

theorem pdx_mul (hv : v < maxTotalPages) : pdx (pgsize * v) = 0 := by
  simp only [pdx, pgsize, nptentries, maxTotalPages] at *
  omega

/-! ## The memory a process sees -/

/-- The byte at address `a`: in the frame of a present page, at its place in
    the swap file for a page that is out, `0` where nothing is mapped. -/
def Machine.view (m : Machine) (p a : Nat) : UInt8 :=
  if (m.pte p (vpn a)).p = true then
    (m.mem (m.pte p (vpn a)).frame).byte (a % pgsize)
  else if (m.pte p (vpn a)).pg = true then
    match (m.proc p).findPage (pgsize * vpn a) with
    | some i => (m.swap p).data (((m.proc p).pagesMetaData i).page.offsetInFile + a % pgsize)
    | none => 0
  else
    0

section View

variable {i s : Nat}

theorem Paged.view_fast (h : Paged c p m T l) (hi : i < maxTotalPages) (hT : T i = .fast (vpn a)) :
    m.view p a = (m.mem (m.pte p (vpn a)).frame).byte (a % pgsize) := by
  have hv : vpn a < maxTotalPages := h.records.page_lt hi (by simp [hT])
  have hp : (m.pte p (vpn a)).p = true := (h.present_iff (lt_nuserPages hv)).mpr ⟨i, hi, hT⟩
  rw [Machine.view, if_pos hp]

theorem Paged.view_slow (h : Paged c p m T l) (hi : i < maxTotalPages)
    (hT : T i = .slow (vpn a) s) : m.view p a = (m.swap p).data (pgsize * s + a % pgsize) := by
  have hv : vpn a < maxTotalPages := h.records.page_lt hi (by simp [hT])
  obtain ⟨hp, hpg⟩ := (h.paged_iff (lt_nuserPages hv)).mpr ⟨i, hi, s, hT⟩
  have hent := h.records.entry i hi
  rw [hT] at hent
  rw [Machine.view, if_neg (by simp [hp]), if_pos hpg,
    h.recorded.findPage_eq hi (by simp [hT] : (T i).key = some (vpn a))]
  simp only [hent.2.2]

theorem Paged.view_free (h : Paged c p m T l) (ha : vpn a < nuserPages)
    (hT : ∀ i < maxTotalPages, (T i).key ≠ some (vpn a)) : m.view p a = 0 := by
  have hp : (m.pte p (vpn a)).p = false := by
    by_contra hne
    obtain ⟨i, hi, hTi⟩ := (h.present_iff ha).mp (by simpa using hne)
    exact hT i hi (by simp [hTi])
  have hpg : (m.pte p (vpn a)).pg = false := by
    by_contra hne
    obtain ⟨i, hi, s, hTi⟩ := (h.paged_iff ha).mp ⟨hp, by simpa using hne⟩
    exact hT i hi (by simp [hTi])
  simp [Machine.view, hp, hpg]

/-- A user page is in RAM, in the swap file, or not mapped. -/
theorem PageMap.cases_key (T : PageMap) (v : Nat) :
    (∃ i < maxTotalPages, T i = .fast v) ∨ (∃ i < maxTotalPages, ∃ s, T i = .slow v s) ∨
      ∀ i < maxTotalPages, (T i).key ≠ some v := by
  by_cases hf : ∃ i < maxTotalPages, T i = .fast v
  · exact .inl hf
  · by_cases hs : ∃ i < maxTotalPages, ∃ s, T i = .slow v s
    · exact .inr (.inl hs)
    · refine .inr (.inr ?_)
      intro i hi hk
      cases hT : T i with
      | free => simp [hT] at hk
      | fast w =>
        simp only [hT, Entry.key_fast, Option.some.injEq] at hk
        exact hf ⟨i, hi, by rw [hT, hk]⟩
      | slow w s =>
        simp only [hT, Entry.key_slow, Option.some.injEq] at hk
        exact hs ⟨i, hi, s, by rw [hT, hk]⟩

/-- What stays the same for a page when the entry of another page changes, and memory and swap file
    only where it has no bytes. -/
theorem Paged.view_update (h : Paged c p m T l)
    (h' : Paged c p m' (update T i e) l') (ha : vpn a < nuserPages) (hold : (T i).key ≠ some (vpn a))
    (hnew : e.key ≠ some (vpn a)) (hpte : m'.pte p (vpn a) = m.pte p (vpn a))
    (hmem : (m.pte p (vpn a)).p = true → m'.mem (m.pte p (vpn a)).frame = m.mem (m.pte p (vpn a)).frame)
    (hswap : ∀ j < maxTotalPages, ∀ t, T j = .slow (vpn a) t →
      (m'.swap p).data (pgsize * t + a % pgsize) = (m.swap p).data (pgsize * t + a % pgsize)) :
    m'.view p a = m.view p a := by
  have hsame : ∀ j, (T j).key = some (vpn a) → update T i e j = T j := by
    intro j hk
    refine update_of_ne ?_ ..
    rintro rfl
    exact hold hk
  rcases PageMap.cases_key T (vpn a) with ⟨j, hj, hTj⟩ | ⟨j, hj, t, hTj⟩ | hnone
  · rw [h.view_fast hj hTj, h'.view_fast hj ((hsame j (by simp [hTj])).trans hTj), hpte,
      hmem ((h.present_iff ha).mpr ⟨j, hj, hTj⟩)]
  · rw [h.view_slow hj hTj, h'.view_slow hj ((hsame j (by simp [hTj])).trans hTj), hswap j hj t hTj]
  · have hnone' : ∀ j < maxTotalPages, (update T i e j).key ≠ some (vpn a) := by
      intro j hj
      by_cases hji : j = i
      · rwa [hji, update_self]
      · rw [update_of_ne hji]
        exact hnone j hj
    rw [h.view_free ha hnone, h'.view_free ha hnone']

end View

/-! ## Changing one page -/

section Change

variable {m' : Machine} {i : Nat}

/-- The PTEs of a directory in which one entry has been replaced. -/
theorem pte_change (m' : Machine) (hpgdir : (m'.proc p).pgdir = (m.proc p).pgdir)
    (hpte : (m'.dirs (m.proc p).pgdir).pte = update (m.dirs (m.proc p).pgdir).pte v x) (w : Nat) :
    m'.pte p w = if w = v then x else m.pte p w := by
  rw [Machine.pte, hpgdir, hpte, update_apply]
  rfl

/-- The invariant after a change of page `v` and its entry `i`: what is left to
    see is that the frames in use and the free frames stay apart. -/
theorem Placed.change (h : Placed c p m T) (hi : i < maxTotalPages)
    (hv : v < nuserPages) (hold : ∀ w, (T i).key = some w → w = v)
    (hother : ∀ j < maxTotalPages, j ≠ i → (T j).key ≠ some v) (hnew : ∀ w, e.key = some w → w = v)
    (hp : x.p = e.isFast) (hpg : (x.p = false ∧ x.pg = true) ↔ e.isSlow = true)
    (hrec : (m'.proc p).Recorded (update T i e)) (hpr : SameSpace (m.proc p) (m'.proc p))
    (hdir : m'.dirs (m.proc p).pgdir = { m.dirs (m.proc p).pgdir with pte := update (m.dirs (m.proc p).pgdir).pte v x })
    (hframe : x.p = true → managed c x.frame ∧ 0 < m'.referenceCounters x.frame ∧
      ∀ w < nuserPages, w ≠ v → (m.pte p w).p = true → (m.pte p w).frame ≠ x.frame)
    (hrefs : ∀ w < nuserPages, w ≠ v → (m.pte p w).p = true →
      0 < m'.referenceCounters (m.pte p w).frame) (hnodup : m'.freelist.Nodup)
    (hfree : ∀ f ∈ m'.freelist, managed c f ∧ m'.referenceCounters f = 0)
    (hsize : (m.swap p).size ≤ (m'.swap p).size) (hslot : ∀ s, e.slot = some s →
      (m.proc p).swapFile ≠ none ∧ pgsize * s + pgsize ≤ (m'.swap p).size)
    (hglobal : m'.globalPgdir = none) (hncli : m'.ncli = 0) (hdepth : m'.opDepth = 0) :
    Placed c p m' (update T i e) := by
  have hm' := pte_change m' hpr.pgdir (by rw [hdir])
  refine ⟨hrec, ?_, ?_, ?_, ?_, ?_, ?_, hnodup, @fun f => hfree f, ?_, ?_, hglobal, hncli, hdepth⟩
  · rw [hpr.pgdir, hdir]; exact h.live
  · rw [hpr.pgdir, hdir]; exact h.table
  · intro w hw
    rw [hm' w]
    by_cases hwv : w = v
    · subst hwv
      rw [if_pos rfl, hp]
      rw [exists_update_iff (P := fun y => y = .fast w) hi]
      · cases he : e with
        | free => simp
        | fast k => simpa using hnew k (by simp [he])
        | slow k s => simp
      · intro j hj hji hTj
        exact hother j hj hji (by simp [hTj])
    · rw [if_neg hwv, h.present_iff hw, exists_update_of_not (P := fun y => y = .fast w) hi]
      · intro hTi; exact hwv (hold w (by simp [hTi]))
      · intro he; exact hwv (hnew w (by simp [he]))
  · intro w hw
    rw [hm' w]
    by_cases hwv : w = v
    · subst hwv
      rw [if_pos rfl, hpg]
      rw [exists_update_iff (P := fun y => ∃ s, y = .slow w s) hi]
      · cases he : e with
        | free => simp
        | fast k => simp
        | slow k s => simpa using hnew k (by simp [he])
      · rintro j hj hji ⟨s, hTj⟩
        exact hother j hj hji (by simp [hTj])
    · rw [if_neg hwv, h.paged_iff hw, exists_update_of_not (P := fun y => ∃ s, y = .slow w s) hi]
      · rintro ⟨s, hTi⟩; exact hwv (hold w (by simp [hTi]))
      · rintro ⟨s, he⟩; exact hwv (hnew w (by simp [he]))
  · intro w hw hpw
    rw [hm' w] at hpw ⊢
    by_cases hwv : w = v
    · rw [if_pos hwv] at hpw ⊢
      exact ⟨(hframe hpw).1, (hframe hpw).2.1⟩
    · rw [if_neg hwv] at hpw ⊢
      exact ⟨(h.frame hw hpw).1, hrefs w hw hwv hpw⟩
  · intro w y hw hy hpw hpy heq
    rw [hm'] at hpw hpy heq
    rw [hm'] at heq
    by_cases hwv : w = v
    · by_cases hyv : y = v
      · rw [hwv, hyv]
      · rw [if_pos hwv] at hpw heq
        rw [if_neg hyv] at hpy heq
        exact absurd heq.symm ((hframe hpw).2.2 y hy hyv hpy)
    · rw [if_neg hwv] at hpw heq
      by_cases hyv : y = v
      · rw [if_pos hyv] at hpy heq
        exact absurd heq ((hframe hpy).2.2 w hw hwv hpw)
      · rw [if_neg hyv] at hpy heq
        exact h.frame_inj hw hy hpw hpy heq
  · intro s hs hav
    obtain ⟨j, hj, hjs⟩ := (hrec.offsets s hs).mp hav
    by_cases hji : j = i
    · rw [hji, update_self] at hjs
      exact (hslot s hjs).2
    · rw [update_of_ne hji] at hjs
      exact (h.covered hs ((h.recorded.offsets s hs).mpr ⟨j, hj, hjs⟩)).trans hsize
  · intro hnone
    rw [hpr] at hnone
    have he : e.isSlow = false := by
      cases hs : e.slot with
      | none => simp [Entry.isSlow, hs]
      | some s => exact absurd hnone (hslot s hs).1
    have hzero := h.opened hnone
    have hcount := slowCount_update (T := T) e hi
    rw [h.recorded.disk] at hzero
    rw [hrec.disk]
    simp only [he, Bool.toNat_false] at hcount
    omega

/-- A tracked page has one entry, which holds no other page. -/
theorem Placed.only_key (h : Placed c p m T) (hi : i < maxTotalPages) (hk : (T i).key = some v) :
    v < nuserPages ∧ (∀ w, (T i).key = some w → w = v) ∧
      ∀ j < maxTotalPages, j ≠ i → (T j).key ≠ some v := by
  refine ⟨lt_nuserPages (h.recorded.page_lt hi hk), ?_, ?_⟩
  · intro w hw
    rw [hk, Option.some.injEq] at hw
    exact hw.symm
  · intro j hj hji hjk
    exact hji (h.recorded.ok.key_inj hj hi hjk hk)

/-- The frames once page `v` has given up its own. -/
theorem Placed.dropRef (h : Placed c p m T) (hv : v < nuserPages) (hpv : (m.pte p v).p = true)
    (hm' : m' = m.dropRef (m.pte p v).frame) :
    (∀ w < nuserPages, w ≠ v → (m.pte p w).p = true → 0 < m'.referenceCounters (m.pte p w).frame) ∧
      m'.freelist.Nodup ∧ ∀ f ∈ m'.freelist, managed c f ∧ m'.referenceCounters f = 0 := by
  obtain ⟨hman, hpos⟩ := h.frame hv hpv
  subst hm'
  refine ⟨?_, ?_, ?_⟩
  · intro w hw hwv hpw
    have hne : (m.pte p w).frame ≠ (m.pte p v).frame := fun heq =>
      hwv (h.frame_inj hw hv hpw hpv heq)
    simpa [hne] using (h.frame hw hpw).2
  · rw [Machine.dropRef_freelist]
    split
    · refine List.nodup_cons.mpr ⟨?_, h.free_nodup⟩
      intro hmem
      have := (h.free hmem).2
      omega
    · exact h.free_nodup
  · intro f hf
    rw [Machine.dropRef_freelist] at hf
    rw [Machine.dropRef_referenceCounters]
    by_cases hfv : f = (m.pte p v).frame
    · subst hfv
      refine ⟨hman, ?_⟩
      split at hf
      · simpa
      · have := (h.free hf).2
        omega
    · rw [update_of_ne hfv]
      split at hf
      · simp only [List.mem_cons, hfv, false_or] at hf
        exact h.free hf
      · exact h.free hf

end Change

/-! ## Moving a page out -/

section Evict

/-- Page `v` has been written to slot `s` and its frame given up; `pr` is what
    the metadata have become. -/
def Machine.evict (m : Machine) (p v s : Nat) (pr : Proc) : Machine :=
  (((m.setSwap p ((m.swap p).wrote (m.mem (m.pte p v).frame).byte (pgsize * s) pgsize)).setPte
    (m.proc p).pgdir v (m.pte p v).pagedOut).dropRef (m.pte p v).frame).setProc p pr

variable {xs ys : List Nat} {i s : Nat} {pr : Proc}

@[simp] theorem evict_proc : (m.evict p v s pr).proc = update m.proc p pr := rfl

@[simp] theorem evict_swap : (m.evict p v s pr).swap = update m.swap p
    ((m.swap p).wrote (m.mem (m.pte p v).frame).byte (pgsize * s) pgsize) := rfl

@[simp] theorem evict_ftable : (m.evict p v s pr).ftable = m.ftable := rfl

@[simp] theorem evict_refs : (m.evict p v s pr).referenceCounters =
    update m.referenceCounters (m.pte p v).frame
      (m.referenceCounters (m.pte p v).frame - 1) := rfl

@[simp] theorem evict_freelist : (m.evict p v s pr).freelist =
    if m.referenceCounters (m.pte p v).frame - 1 = 0 then (m.pte p v).frame :: m.freelist
    else m.freelist := rfl

@[simp] theorem evict_mem : (m.evict p v s pr).mem =
    if m.referenceCounters (m.pte p v).frame - 1 = 0 then
      update m.mem (m.pte p v).frame Page.freed
    else m.mem := rfl

@[simp] theorem evict_dirs : (m.evict p v s pr).dirs = update m.dirs (m.proc p).pgdir
    { m.dirs (m.proc p).pgdir with
      pte := update (m.dirs (m.proc p).pgdir).pte v
        (m.pte p v).pagedOut } := rfl

theorem evict_setProc (pr' : Proc) :
    (m.evict p v s pr).setProc p pr' = m.evict p v s pr' :=
  Machine.setProc_setProc _ p pr pr'

theorem Placed.evict (h : Placed c p m T) (hi : i < maxTotalPages) (hT : T i = .fast v)
    (hpr : SameSpace (m.proc p) pr) (hfile : (m.proc p).swapFile ≠ none)
    (hrec : pr.Recorded (update T i (.slow v s))) :
    Placed c p (m.evict p v s pr) (update T i (.slow v s)) := by
  obtain ⟨hv, hold, hother⟩ := h.only_key hi (v := v) (by simp [hT])
  have hpv : (m.pte p v).p = true := (h.present_iff hv).mpr ⟨i, hi, hT⟩
  obtain ⟨hrefs, hnodup, hfree⟩ := h.dropRef hv hpv rfl
  refine h.change (x := (m.pte p v).pagedOut) hi hv hold hother ?_ ?_ ?_ ?_ ?_ ?_ ?_ hrefs hnodup
    hfree ?_ ?_ h.global h.unlocked h.outside
  · intro w hw
    simpa [eq_comm] using hw
  · simp
  · simp
  · simpa using hrec
  · simpa using hpr
  · simp
  · simp
  · simp only [evict_swap, update_self, Inode.wrote]
    split <;> omega
  · intro t ht
    simp only [Entry.slot_slow, Option.some.injEq] at ht
    subst ht
    refine ⟨hfile, ?_⟩
    simp only [evict_swap, update_self, Inode.wrote]
    split <;> omega

theorem Paged.evict (h : Paged c p m T (xs ++ i :: ys)) (hT : T i = .fast v)
    (hpr : SameSpace (m.proc p) pr) (hfile : (m.proc p).swapFile ≠ none)
    (hrec : pr.Records (update T i (.slow v s)) (xs ++ ys)) :
    Paged c p (m.evict p v s pr) (update T i (.slow v s)) (xs ++ ys) :=
  (h.toPlaced.evict (h.listed.lt i (by simp)) hT hpr hfile hrec.toRecorded).paged
    (by simpa using hrec)

/-- Writing a page leaves the other slots alone. -/
theorem wrote_data_ne (hts : t ≠ s) (hk : k < pgsize) :
    (ip.wrote src (pgsize * s) pgsize).data (pgsize * t + k) = ip.data (pgsize * t + k) := by
  have hne : ¬ (pgsize * s ≤ pgsize * t + k ∧ pgsize * t + k < pgsize * s + pgsize) := by
    simp only [pgsize] at *
    omega
  rw [Inode.wrote]
  exact if_neg hne

theorem wrote_data_self (hk : k < pgsize) :
    (ip.wrote src (pgsize * s) pgsize).data (pgsize * s + k) = src k := by
  have hin : pgsize * s ≤ pgsize * s + k ∧ pgsize * s + k < pgsize * s + pgsize := by omega
  simp only [Inode.wrote]
  rw [if_pos hin, Nat.add_sub_cancel_left]

/-- Moving a page out does not change what the process sees. -/
theorem Paged.view_evict (h : Paged c p m T (xs ++ i :: ys)) (hT : T i = .fast v)
    (hfree : ∀ j < maxTotalPages, (T j).slot ≠ some s)
    (h' : Paged c p (m.evict p v s pr) (update T i (.slow v s)) (xs ++ ys))
    (hpgdir : pr.pgdir = (m.proc p).pgdir) (ha : vpn a < nuserPages) :
    (m.evict p v s pr).view p a = m.view p a := by
  have hi : i < maxTotalPages := h.listed.lt i (by simp)
  have hv : v < nuserPages := lt_nuserPages (h.records.page_lt hi (by simp [hT]))
  have hk : a % pgsize < pgsize := Nat.mod_lt _ (by simp)
  have hpte := pte_change (m.evict p v s pr) (x := (m.pte p v).pagedOut)
    (v := v) (p := p) (m := m) (by simpa using hpgdir) (by simp)
  by_cases hav : vpn a = v
  · subst hav
    rw [h.view_fast hi hT, h'.view_slow hi (update_self i _ T)]
    simp only [evict_swap, update_self]
    exact wrote_data_self hk
  · refine h.view_update h' ha (by simpa [hT] using Ne.symm hav) (by simpa using Ne.symm hav)
      ((hpte _).trans (if_neg hav)) (fun hpa => ?_) fun j hj t hTj => ?_
    · have hpv : (m.pte p v).p = true := (h.present_iff hv).mpr ⟨i, hi, hT⟩
      have hne : (m.pte p (vpn a)).frame ≠ (m.pte p v).frame := fun heq =>
        hav (h.frame_inj ha hv hpa hpv heq)
      rw [evict_mem]
      split
      · rw [update_of_ne hne]
      · rfl
    · have hts : t ≠ s := fun hts => hfree j hj (by simp [hTj, hts])
      rw [evict_swap, update_self, wrote_data_ne hts hk]

end Evict

/-! ## Bringing a page in -/

section Bring

/-- Page `v` has been mapped to frame `f`, the head of the free list, which
    holds `pg` now; `pr` is what the metadata have become. -/
def Machine.bring (m : Machine) (p v f : Nat) (rest : List Nat) (pg : Page) (pr : Proc) : Machine :=
  (((m.takeFrame f rest).setMem f pg).setPte (m.proc p).pgdir v
    (Pte.wu.mapTo f)).setProc p pr

variable {i f : Nat} {rest : List Nat} {pg : Page} {pr : Proc}

@[simp] theorem bring_proc : (m.bring p v f rest pg pr).proc = update m.proc p pr := rfl

@[simp] theorem bring_swap : (m.bring p v f rest pg pr).swap = m.swap := rfl

@[simp] theorem bring_ftable : (m.bring p v f rest pg pr).ftable = m.ftable := rfl

@[simp] theorem bring_refs : (m.bring p v f rest pg pr).referenceCounters =
    update m.referenceCounters f 1 := rfl

@[simp] theorem bring_freelist : (m.bring p v f rest pg pr).freelist = rest := rfl

@[simp] theorem bring_mem : (m.bring p v f rest pg pr).mem = update m.mem f pg := rfl

@[simp] theorem bring_dirs : (m.bring p v f rest pg pr).dirs =
    update m.dirs (m.proc p).pgdir { m.dirs (m.proc p).pgdir with
      pte := update (m.dirs (m.proc p).pgdir).pte v
        (Pte.wu.mapTo f) } := rfl

section Bring

variable (hi : i < maxTotalPages) (hv : v < maxTotalPages) (hold : ∀ w, (T i).key = some w → w = v)
  (hother : ∀ j < maxTotalPages, j ≠ i → (T j).key ≠ some v) (hf : m.freelist = f :: rest)
  (hpr : SameSpace (m.proc p) pr)

include hi hv hold hother hf hpr

theorem Placed.bring (h : Placed c p m T) (hrec : pr.Recorded (update T i (.fast v))) :
    Placed c p (m.bring p v f rest pg pr) (update T i (.fast v)) := by
  have hv' : v < nuserPages := lt_nuserPages hv
  have hff := h.free (f := f) (by simp [hf])
  have hnd := h.free_nodup
  rw [hf, List.nodup_cons] at hnd
  have hused : ∀ w < nuserPages, (m.pte p w).p = true → (m.pte p w).frame ≠ f := by
    intro w hw hpw heq
    have := (h.frame hw hpw).2
    rw [heq, hff.2] at this
    omega
  refine h.change (x := Pte.wu.mapTo f) hi hv' hold hother ?_ ?_ ?_ ?_ ?_ ?_ ?_ ?_ hnd.2 ?_ le_rfl
    (by simp) h.global h.unlocked h.outside
  · intro w hw
    simpa [eq_comm] using hw
  · simp
  · simp
  · simpa using hrec
  · simpa using hpr
  · simp
  · intro _
    exact ⟨hff.1, by simp, fun w hw _ hpw => hused w hw hpw⟩
  · intro w hw _ hpw
    simpa [hused w hw hpw] using (h.frame hw hpw).2
  · intro g hg
    have hgf : g ≠ f := fun hgf => hnd.1 (hgf ▸ hg)
    simpa [hgf] using h.free (f := g) (by simpa [hf] using Or.inr hg)

theorem Paged.bring (h : Paged c p m T l) (hrec : pr.Records (update T i (.fast v)) (l ++ [i])) :
    Paged c p (m.bring p v f rest pg pr) (update T i (.fast v)) (l ++ [i]) :=
  (h.toPlaced.bring hi hv hold hother hf hpr hrec.toRecorded).paged (by simpa using hrec)

end Bring

/-- Bringing page `v` in sets its bytes to those of `pg`. -/
theorem Paged.view_bring (h : Paged c p m T l) (hi : i < maxTotalPages)
    (hold : ∀ w, (T i).key = some w → w = v) (hf : m.freelist = f :: rest)
    (h' : Paged c p (m.bring p v f rest pg pr) (update T i (.fast v)) (l ++ [i]))
    (hpgdir : pr.pgdir = (m.proc p).pgdir) (ha : vpn a < nuserPages) :
    (m.bring p v f rest pg pr).view p a =
      if vpn a = v then pg.byte (a % pgsize) else m.view p a := by
  have hpte := pte_change (m.bring p v f rest pg pr) (x := Pte.wu.mapTo f)
    (v := v) (p := p) (m := m) (by simpa using hpgdir) (by simp)
  by_cases hav : vpn a = v
  · subst hav
    rw [if_pos rfl, h'.view_fast hi (update_self i _ T), hpte, if_pos rfl, bring_mem,
      Pte.mapTo_frame, update_self]
  · rw [if_neg hav]
    refine h.view_update h' ha (fun hk => hav (hold _ hk)) (by simpa using Ne.symm hav)
      ((hpte _).trans (if_neg hav)) (fun hpa => ?_) fun _ _ _ _ => rfl
    have hne : (m.pte p (vpn a)).frame ≠ f := by
      intro heq
      have h1 := (h.frame ha hpa).2
      have h2 := (h.free (f := f) (by simp [hf])).2
      rw [heq] at h1
      omega
    rw [bring_mem, update_of_ne hne]

end Bring

end Xv6Paging
