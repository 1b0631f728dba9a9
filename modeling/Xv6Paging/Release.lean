import Xv6Paging.Shrink

/-! # Releasing pages of any kind

    `deallocuvm` on the directory of the running process, for pages in RAM as well as in the
    swap file. `deletePage` leaves the entry of a page in RAM in the list, so the list is lost
    as a description of what is in RAM. Table, page table and frames stay in agreement, which is
    `Placed`. Where the code returns, the pages from the new size on are gone, and no others.
-/

namespace Xv6Paging

open Wp Placement Function

variable {c : Config} {p : Nat} {m m' m'' : Machine} {T T' T'' : PageMap} {i j v w : Nat} {pr pr' : Proc}
  {oldsz s : Nat} {found : Bool}

/-! ## One page in RAM -/

/-- Page `v` has been unmapped and its frame given up; `pr` is what the metadata have become. -/
def Machine.release (m : Machine) (p v : Nat) (pr : Proc) : Machine :=
  ((m.dropRef (m.pte p v).frame).setPte (m.proc p).pgdir v Pte.zero).setProc p pr

theorem release_pte (hpr : SameSpace (m.proc p) pr) (w : Nat) :
    (m.release p v pr).pte p w = if w = v then Pte.zero else m.pte p w :=
  pte_change (m.release p v pr) (by simpa [Machine.release] using hpr.pgdir)
    (by simp [Machine.release]) w

theorem release_kept (hpr : SameSpace (m.proc p) pr) : Kept p m (m.release p v pr) :=
  ⟨by simp [Machine.release]; rw [hpr], by simp [Machine.release]; rw [hpr],
    by simp [Machine.release]; rw [hpr], by simp [Machine.release]; rw [hpr],
    by simp [Machine.release]; rw [hpr], fun q hq => by simp [Machine.release, hq], fun _ _ => rfl,
    fun d hd => by simp [Machine.release, hd], by simp [Machine.release], rfl⟩

theorem Placed.release (h : Placed c p m T) (hi : i < maxTotalPages) (hT : T i = .fast v)
    (hpr : SameSpace (m.proc p) pr) (hrec : pr.Recorded (update T i .free)) :
    Placed c p (m.release p v pr) (update T i .free) := by
  obtain ⟨hv, hold, hother⟩ := h.only_key hi (v := v) (by simp [hT])
  have hpv : (m.pte p v).p = true := (h.present_iff hv).mpr ⟨i, hi, hT⟩
  obtain ⟨hrefs, hnodup, hfree⟩ := h.dropRef hv hpv rfl
  refine h.change (x := Pte.zero) hi hv hold hother (by simp) rfl (by simp [Pte.zero]) ?_ ?_ ?_
    (by simp [Pte.zero]) hrefs hnodup hfree le_rfl (by simp) h.global h.unlocked h.outside
  · simpa [Machine.release] using hrec
  · simpa [Machine.release] using hpr
  · simp [Machine.release]

/-- What `deletePage` writes into the entry and the count. -/
def Proc.forget (pr : Proc) (i : Nat) : Proc :=
  pr.lessRam.setPage i fun page => { page with
    pageId := noPage, state := .notUsed, offsetInFile := noOffset }

theorem Proc.Recorded.forget (h : pr.Recorded T) (hi : i < maxTotalPages) (hT : T i = .fast v) :
    (pr.forget i).Recorded (update T i .free) := by
  have hpos : 0 < pr.numPagesRam := by
    rw [h.ram]
    exact count_pos hi (by simp [hT])
  refine h.set hi h.ok.drop (by simp) ?_ ?_ ?_ ?_ ?_
  · rw [Proc.forget, setPage_page_self]
    exact ⟨rfl, rfl⟩
  · intro j hji x hx
    rw [Proc.forget, setPage_page_ne _ hji]
    exact hx
  · simp only [hT, Proc.forget, Proc.lessRam, Proc.setPage, Proc.setLink, Entry.isFast_fast,
      Entry.isFast_free, Bool.toNat_true, Bool.toNat_false]
    omega
  · simp [hT, Proc.forget, Proc.lessRam, Proc.setPage, Proc.setLink]
  · intro t _
    simp [hT, Proc.forget, Proc.lessRam, Proc.setPage, Proc.setLink]

/-! ## What releasing pages leaves -/

/-- The pages `gone` have been released, and no others; some pages may have come back into RAM. -/
structure Shrunk (c : Config) (p : Nat) (gone : Nat → Prop) (m : Machine) (T : PageMap)
    (m' : Machine) (T' : PageMap) : Prop where
  placed : Placed c p m' T'
  tracked : ∀ w, Tracked T' w ↔ Tracked T w ∧ ¬ gone w
  kept : Kept p m m'
  user : ∀ w, Tracked T' w → (m.pte p w).u = true → (m'.pte p w).u = true
  head : (m.proc p).pageListHeadRam ≠ none → (m'.proc p).pageListHeadRam ≠ none

variable {gone gone' : Nat → Prop}

theorem Shrunk.refl (h : Placed c p m T) (hgone : ∀ w, gone w → ¬ Tracked T w) :
    Shrunk c p gone m T m T :=
  ⟨h, fun w => ⟨fun ht => ⟨ht, fun hg => hgone w hg ht⟩, And.left⟩, .refl p m, fun _ _ h => h, id⟩

theorem Shrunk.trans (h : Shrunk c p gone m T m' T') (h' : Shrunk c p gone' m' T' m'' T'') :
    Shrunk c p (fun w => gone w ∨ gone' w) m T m'' T'' where
  placed := h'.placed
  tracked := fun w => by rw [h'.tracked, h.tracked]; tauto
  kept := h.kept.trans h'.kept
  user := fun w ht hu => h'.user w ht (h.user w ((h'.tracked w).mp ht).1 hu)
  head := fun hne => h'.head (h.head hne)

theorem Shrunk.congr (h : Shrunk c p gone m T m' T') (hiff : ∀ w, Tracked T w → (gone' w ↔ gone w)) :
    Shrunk c p gone' m T m' T' :=
  ⟨h.placed, fun w => by rw [h.tracked]; exact and_congr_right fun ht => not_congr (hiff w ht).symm,
    h.kept, h.user, h.head⟩

/-! ## Reading a page back -/

/-- A write to a link, where it is inside the array. -/
theorem wp_writeLink_of (h : k < maxTotalPages → Q () (f pr)) : wp (writeLink k f) Q anyStop pr :=
  (wp_ite _ _ _ _ _ _).mpr ⟨h, fun _ => trivial⟩

/-- Appending to a list that is not empty leaves its head. -/
theorem addPageToList_head (i : Nat) (hpr : pr.pageListHeadRam = some a) :
    wp (addPageToList i) (fun _ pr' => pr'.pageListHeadRam = some a) anyStop pr := by
  simp only [addPageToList, wp_bind, wp_get, hpr]
  refine wp_mono (keeps_lastLinkFrom (R := Eq) maxTotalPages a pr) ?_ (fun _ _ _ => trivial)
  rintro x _ rfl
  exact wp_writeLink_of fun _ => wp_writeLink_of fun _ => wp_writeLink_of fun _ => hpr

section Placed

variable (h : Placed c p m T)

include h

/-- Reading a page back, where it returns. -/
theorem getPageFromFile_placed (hi : i < maxTotalPages) (hT : T i = .slow v s) :
    wp (getPageFromFile p i) (fun _ m' => ∃ T', Shrunk c p (fun _ => False) m T m' T') anyStop m := by
  have hadd : wp (addPageToList i) (fun _ pr => Shuffled ((m.proc p).markIn i s) pr ∧
      ((m.proc p).pageListHeadRam ≠ none → pr.pageListHeadRam ≠ none)) (fun _ _ => True)
      ((m.proc p).markIn i s) := by
    have hsh : wp (addPageToList i) (fun _ pr => Shuffled ((m.proc p).markIn i s) pr)
        (fun _ _ => True) ((m.proc p).markIn i s) :=
      wp_mono (keeps_addPageToList i _) (fun _ _ h => h) (fun _ _ _ => trivial)
    cases hhead : (m.proc p).pageListHeadRam with
    | none => exact wp_post hsh fun _ pr hpr => ⟨hpr, fun hne => absurd rfl hne⟩
    | some a =>
      refine wp_post (wp_and hsh (addPageToList_head i (a := a) hhead)) ?_
      rintro _ pr ⟨hpr, hpr'⟩
      exact ⟨hpr, fun _ => by simp [hpr']⟩
  refine wp_mono (getPageFromFile_rule (B := fun _ => True) h hi hT (fun _ => trivial) hadd) ?_
    (fun _ _ _ => trivial)
  rintro r m' ⟨-, f, rest, pr, hf, hpr, hhead, rfl, -, h'⟩
  refine ⟨_, h', fun w => ?_, ?_, fun w _ hu => ?_, ?_⟩
  · rw [tracked_update hi (by simp [hT])]
    simp
  · exact ⟨by simp; rw [hpr], by simp; rw [hpr], by simp; rw [hpr], by simp; rw [hpr],
      by simp; rw [hpr], fun q hq => by simp [hq], fun q hq => by simp, fun d hd => by simp [hd],
      by simp, rfl⟩
  · rw [bring_pte hpr]
    split
    · rfl
    · exact hu
  · simpa using hhead

/-! ## One turn of the loop -/

/-- The page of a forgotten entry is gone; another may have come back in its place. -/
theorem deletePage_placed (hi : i < maxTotalPages) (hT : T i = .fast v) :
    wp (deletePage p i) (fun _ m' => ∃ T', Shrunk c p (· = v) m T m' T') anyStop
      ((m.dropRef (m.pte p v).frame).setPte (m.proc p).pgdir v Pte.zero) := by
  have hpr : SameSpace (m.proc p) ((m.proc p).forget i) := rfl
  have h1 : Placed c p (m.release p v ((m.proc p).forget i)) (update T i .free) :=
    h.release hi hT hpr (h.recorded.forget hi hT)
  have hs1 : Shrunk c p (· = v) m T (m.release p v ((m.proc p).forget i))
      (update T i .free) := by
    refine ⟨h1, fun w => tracked_drop h.recorded hi (by simp [hT]), release_kept hpr,
      fun w hw hu => ?_, fun hne => by simpa [Machine.release, Proc.forget, Proc.lessRam] using hne⟩
    have hwv := ((tracked_drop h.recorded hi (show (T i).key = some v by simp [hT])).mp hw).2
    rw [release_pte hpr, if_neg hwv]
    exact hu
  simp only [deletePage, wp_bind, wp_onProc, wp_modify, wp_setPage_lt hi]
  show wp _ _ anyStop (m.release p v ((m.proc p).forget i))
  generalize m.release p v ((m.proc p).forget i) = m1 at h1 hs1
  simp only [wp_getProc, wp_ite, wp_pure]
  refine ⟨fun _ => ?_, fun _ => ⟨_, hs1⟩⟩
  cases hfind : (m1.proc p).findState .inDisk with
  | none => exact ⟨_, hs1⟩
  | some j =>
    obtain ⟨hj, hst⟩ := findLink_some hfind
    obtain ⟨w, s, hTj⟩ : ∃ w s, update T i .free j = .slow w s := by
      have hslow := (h1.recorded.entry j hj).inDisk_iff.mp (by simpa using hst)
      cases hTj : update T i .free j with
      | free => simp [hTj] at hslow
      | fast w => simp [hTj] at hslow
      | slow w s => exact ⟨w, s, rfl⟩
    rw [wp_bind]
    refine wp_post (getPageFromFile_placed h1 hj hTj) ?_
    rintro _ m2 ⟨T2, hs2⟩
    exact ⟨T2, (hs1.trans hs2).congr fun _ _ => by simp⟩

theorem deallocPresent_placed (hsel : c.selection ≠ .NONE) (hi : i < maxTotalPages) (hT : T i = .fast v) :
    wp (deallocPresent c p (m.proc p).pgdir (pgsize * v) v found) (fun _ m' =>
      ∃ T', Shrunk c p (· = v) m T m' T') anyStop m := by
  have hv : v < nuserPages := lt_nuserPages (h.recorded.page_lt hi (by simp [hT]))
  have hpv : (m.pte p v).p = true := (h.present_iff hv).mpr ⟨i, hi, hT⟩
  obtain ⟨hman, hpos⟩ := h.frame hv hpv
  have hfind := h.recorded.findPage_eq hi (show (T i).key = some v by simp [hT])
  simp only [deallocPresent, wp_bind, wp_getPte_own, wp_ite, wp_throw]
  refine ⟨fun _ => trivial, fun _ => ?_⟩
  rw [wp_kfree_of_pos _ hman hpos]
  simp only [wp_setPte, wp_getProc, Machine.setPte_proc, Machine.dropRef_proc, ne_eq, hsel,
    not_false_eq_true, and_self, hfind, wp_bind, wp_pure]
  exact ⟨fun _ => deletePage_placed h hi hT, fun hne => absurd trivial hne⟩

theorem deallocPaged_placed (hi : i < maxTotalPages) (hT : T i = .slow v s) :
    wp (deallocPaged p (m.proc p).pgdir (pgsize * v) v found) (fun _ m' =>
      ∃ T', Shrunk c p (· = v) m T m' T') anyStop m := by
  have hkey : (T i).key = some v := by simp [hT]
  simp only [deallocPaged, wp_bind, wp_getProc, pteAddr_mul, h.recorded.findPage_eq hi hkey, wp_onProc]
  refine wp_mono (dropDiskPage_spec h.recorded hi hT) ?_ (fun _ _ hf => hf.elim)
  rintro _ pr ⟨hpr, hrec, hhead, -⟩
  rw [wp_setPte, wp_pure]
  refine ⟨_, h.drop hi hT hpr hrec, fun w => tracked_drop h.recorded hi hkey, drop_kept hpr,
    fun w hw hu => ?_, fun hne => ?_⟩
  · have hwv := ((tracked_drop h.recorded hi hkey).mp hw).2
    rw [show (Machine.setProc _ p pr).setPte _ v Pte.zero = m.drop p v pr from rfl, drop_pte hpr,
      if_neg hwv]
    exact hu
  · simpa [Machine.drop, hhead] using hne

/-! ## The loop -/

theorem Placed.tracked_lt (ht : Tracked T v) : v < maxTotalPages := by
  obtain ⟨i, hi, hk⟩ := ht
  exact h.recorded.page_lt hi hk

/-- `deallocuvm` releases the pages between the sizes. -/
theorem deallocuvm_placed {newsz : Nat} (hsel : c.selection ≠ .NONE) (hold : oldsz ≤ kernbase) :
    wp (deallocuvm c p (m.proc p).pgdir oldsz newsz) (fun r m' => r = (if oldsz ≤ newsz then oldsz else newsz) ∧
      ∃ T', Shrunk c p (fun w => npages newsz ≤ w ∧ w < npages oldsz) m T m' T') anyStop m := by
  generalize hn : npages oldsz = n
  -- Before the turn at page `v`, the pages below it are gone.
  let I v m' := npages newsz ≤ v ∧ ∃ T', Shrunk c p (fun w => npages newsz ≤ w ∧ w < v ∧ w < n) m T m' T'
  have hstep : ∀ {v m1 m2 T1}, v < n → npages newsz ≤ v →
      Shrunk c p (fun w => npages newsz ≤ w ∧ w < v ∧ w < n) m T m1 T1 →
      (∃ T2, Shrunk c p (· = v) m1 T1 m2 T2) → I (v + 1) m2 := by
    rintro v m1 m2 T1 hvn hv hs1 ⟨T2, hs2⟩
    exact ⟨by omega, T2, (hs1.trans hs2).congr fun w _ => by omega⟩
  refine wp_post (wp_deallocuvm_pages (I := I) hold hn (fun _ => ⟨trivial, trivial⟩) ?_ ?_ ?_ ?_ ?_) ?_
  · rintro v m1 hvn - ⟨hv, T1, hs1⟩ ht
    have htable := hs1.placed.table
    rw [hs1.kept.pgdir] at htable
    have hv0 : v / nptentries ≠ 0 := fun h0 => htable (h0 ▸ ht)
    refine ⟨by simp only [nptentries]; omega, T1, hs1.congr fun w hw => ?_⟩
    -- The entries have no page of a later table.
    have hw := h.tracked_lt hw
    simp only [nptentries, maxTotalPages] at *
    omega
  · rintro v m1 found hvn hmax ⟨hv, T1, hs1⟩ _ _ hp
    rw [← hs1.kept.pgdir] at hp ⊢
    obtain ⟨i, hi, hT⟩ := (hs1.placed.present_iff hmax).mp hp
    exact wp_post (deallocPresent_placed hs1.placed hsel hi hT) fun _ _ hs2 => hstep hvn hv hs1 hs2
  · rintro v m1 found hvn hmax ⟨hv, T1, hs1⟩ _ hp ⟨hpg, -⟩
    rw [← hs1.kept.pgdir] at hp hpg ⊢
    obtain ⟨i, hi, s, hT⟩ := (hs1.placed.paged_iff hmax).mp ⟨hp, hpg⟩
    exact wp_post (deallocPaged_placed hs1.placed hi hT) fun _ _ hs2 => hstep hvn hv hs1 hs2
  · rintro v m1 hvn hmax ⟨hv, T1, hs1⟩ hp hno
    rw [← hs1.kept.pgdir] at hp hno
    refine hstep hvn hv hs1 ⟨T1, .refl hs1.placed ?_⟩
    rintro w rfl ⟨i, hi, hk⟩
    cases hT : T1 i with
    | free => simp [hT] at hk
    | fast u =>
      obtain rfl : u = w := by simpa [hT] using hk
      exact absurd ((hs1.placed.present_iff hmax).mpr ⟨i, hi, hT⟩) (by simpa [Machine.pte] using hp)
    | slow u s =>
      obtain rfl : u = w := by simpa [hT] using hk
      exact hno ⟨hsel, ((hs1.placed.paged_iff hmax).mpr ⟨i, hi, s, hT⟩).2, rfl⟩
  · exact ⟨le_rfl, T, .refl h fun w hw => by omega⟩
  · rintro _ m' ⟨hr, w, hw, -, T', hs⟩
    exact ⟨hr, T', hs.congr fun u _ => by omega⟩

end Placed

end Xv6Paging
