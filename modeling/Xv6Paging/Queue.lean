import Xv6Paging.Lib.Replacement
import Xv6Paging.Paged
import Xv6Paging.Trap

/-! # The RAM list as a queue

    What the replacement policies do to any well-formed RAM list whose pages have
    PTEs. Each loop over the list computes a function on the list of its entries:
    SCFIFO is second chance, NFUA the scan for the smallest counter, and the update
    of AQ lets the pages that were used fall back. Nothing is assumed about the
    rest of the paging data.
-/

namespace Xv6Paging

open List Wp DList Replacement Function

variable {best e fuel head tmp v : Nat} {Q : Nat → Machine → Prop}

/-! ## Entries and their PTEs -/

/-- The page that entry `i` records. -/
def Machine.pageNo (m : Machine) (p i : Nat) : Nat := vpn ((m.proc p).pagesMetaData i).page.pageId

/-- `PTE_U` of entry `i`. -/
def Machine.user (m : Machine) (p i : Nat) : Bool := (m.pte p (m.pageNo p i)).u

/-- `PTE_A` of entry `i` in directory `d`. -/
def Machine.used (m : Machine) (p d i : Nat) : Bool := ((m.dirs d).pte (m.pageNo p i)).a

/-- The aging counter of entry `i`. -/
def Machine.counter (m : Machine) (p i : Nat) : BitVec 32 :=
  ((m.proc p).pagesMetaData i).page.shiftCounter

/-- Entry `i` is in the array and directory `d` has a PTE for its page. -/
structure Mapped (p d : Nat) (m : Machine) (i : Nat) : Prop where
  lt : i < maxTotalPages
  live : (m.dirs d).live = true
  table : (m.dirs d).table (pdx ((m.proc p).pagesMetaData i).page.pageId) ≠ none

/-- The RAM list of `p` is `l`, of different pages, and directory `d` has PTEs for them. -/
structure Queued (p d : Nat) (m : Machine) (l : List Nat) : Prop where
  listed : (m.proc p).Listed l
  mapped : ∀ i ∈ l, Mapped p d m i
  distinct : ∀ i ∈ l, ∀ j ∈ l, m.pageNo p i = m.pageNo p j → i = j

variable {c : Config} {p d : Nat} {m m' m'' : Machine} {l l' xs ys zs vs ws : List Nat} {i j : Nat}

section Rules

variable {E : Stop → Machine → Prop} (h : Mapped p d m i)
include h

theorem Mapped.wp_isPteA (Q : Bool → Machine → Prop) :
    wp (isPteA d ((m.proc p).pagesMetaData i).page.pageId) Q E m ↔ Q (m.used p d i) m := by
  simp only [isPteA, wp_bind]
  rw [wp_walkpgdir_mapped _ h.live h.table]
  simp only [wp_bind, wp_getPte, wp_pure]
  rfl

theorem Mapped.wp_derefPte (Q : Pte → Machine → Prop) :
    wp (derefPte d ((m.proc p).pagesMetaData i).page.pageId) Q E m ↔
      Q ((m.dirs d).pte (m.pageNo p i)) m := by
  rw [wp_derefPte_mapped _ h.live h.table]
  rfl

end Rules

/-! ## Clearing accessed bits -/

/-- `PTE_A` of the pages `vs` of directory `d` cleared. -/
def Machine.clearA (m : Machine) (d : Nat) (vs : List Nat) : Machine :=
  m.setDir d { m.dirs d with
    pte := fun v => if v ∈ vs then ((m.dirs d).pte v).setA false else (m.dirs d).pte v }

@[simp] theorem Machine.clearA_nil (m : Machine) (d : Nat) : m.clearA d [] = m := by
  simp [Machine.clearA, Machine.setDir]

theorem Machine.clearA_clearA (m : Machine) (d : Nat) (vs ws : List Nat) :
    (m.clearA d vs).clearA d ws = m.clearA d (vs ++ ws) := by
  simp only [Machine.clearA, Machine.setDir, update_self, update_idem,
    mem_append]
  congr 2
  simp only [PageDir.mk.injEq, true_and]
  funext v
  by_cases hv : v ∈ vs <;> by_cases hw : v ∈ ws <;> simp [hv, hw, Pte.setA]

theorem Machine.clearA_congr (m : Machine) (d : Nat) (h : ∀ v, v ∈ vs ↔ v ∈ ws) :
    m.clearA d vs = m.clearA d ws := by
  simp only [Machine.clearA, h]

theorem Machine.clearA_singleton (m : Machine) (d v : Nat) :
    m.clearA d [v] = m.setPte d v (((m.dirs d).pte v).setA false) := by
  simp only [Machine.clearA, Machine.setDir, Machine.setPte, mem_singleton]
  congr 2
  simp only [PageDir.mk.injEq, true_and]
  funext w
  by_cases hw : w = v
  · subst hw; simp
  · simp [hw]

theorem Mapped.wp_pteAOff (h : Mapped p d m i) (Q : Unit → Machine → Prop) :
    wp (pteAOff d ((m.proc p).pagesMetaData i).page.pageId) Q E m ↔ Q () (m.clearA d [m.pageNo p i]) := by
  rw [Machine.clearA_singleton]
  simp only [pteAOff, wp_bind]
  rw [wp_walkpgdir_mapped _ h.live h.table]
  simp only [wp_bind, wp_getPte, wp_setPte]
  rfl

/-- Clearing a bit that is clear. -/
theorem Machine.clearA_cons_of_not (h : ((m.dirs d).pte v).a = false) :
    m.clearA d (v :: vs) = m.clearA d vs := by
  have hsame : ((m.dirs d).pte v).setA false = (m.dirs d).pte v := by rw [← h]; rfl
  simp only [Machine.clearA, mem_cons]
  congr 2
  funext w
  by_cases hw : w = v
  · subst hw; simp [hsame]
  · simp [hw]

/-- `m'` differs from `m` in the links and counters of the RAM list of `p`, and in the
    accessed bits of the pages `vs` of directory `d`, which are clear. -/
structure Swept (p d : Nat) (vs : List Nat) (m m' : Machine) : Prop where
  proc : Shuffled (m.proc p) (m'.proc p)
  rest : m' = (m.clearA d vs).setProc p (m'.proc p)

theorem Swept.refl (p d : Nat) (m : Machine) : Swept p d [] m m :=
  ⟨Shuffled.refl _, by rw [Machine.clearA_nil, Machine.setProc_self]⟩

theorem Swept.trans (h : Swept p d vs m m') (h' : Swept p d ws m' m'') :
    Swept p d (vs ++ ws) m m'' := by
  refine ⟨h.proc.trans h'.proc, ?_⟩
  rw [h'.rest, h.rest, ← Machine.clearA_clearA]
  simp [Machine.clearA, Machine.setProc, Machine.setDir]

theorem Swept.congr (h : Swept p d vs m m') (hv : ∀ v, v ∈ vs ↔ v ∈ ws) : Swept p d ws m m' :=
  ⟨h.proc, by rw [← Machine.clearA_congr m d hv]; exact h.rest⟩

theorem Swept.cons_of_not (h : Swept p d vs m m') (hi : m.used p d i = false) :
    Swept p d (m.pageNo p i :: vs) m m' :=
  ⟨h.proc, by rw [Machine.clearA_cons_of_not hi]; exact h.rest⟩

theorem Swept.setProc {pr : Proc} (h : Shuffled (m.proc p) pr) : Swept p d [] m (m.setProc p pr) :=
  ⟨by simpa using h, by simp⟩

theorem Swept.clearA (p d : Nat) (vs : List Nat) (m : Machine) : Swept p d vs m (m.clearA d vs) :=
  ⟨Shuffled.refl _, (Machine.setProc_self _ p).symm⟩

namespace Swept

variable (h : Swept p d vs m m')
include h

theorem pgdir : (m'.proc p).pgdir = (m.proc p).pgdir := by rw [h.proc.rest]

theorem pageId (i : Nat) : ((m'.proc p).pagesMetaData i).page.pageId =
    ((m.proc p).pagesMetaData i).page.pageId := by rw [h.proc.page i]

theorem pageNo (i : Nat) : m'.pageNo p i = m.pageNo p i := by
  rw [Machine.pageNo, Machine.pageNo, h.pageId]

theorem pte (v : Nat) : (m'.dirs d).pte v =
    if v ∈ vs then ((m.dirs d).pte v).setA false else (m.dirs d).pte v := by
  rw [h.rest]
  simp [Machine.clearA]

theorem live (e : Nat) : (m'.dirs e).live = (m.dirs e).live := by
  rw [h.rest]
  by_cases he : e = d
  · subst he; simp [Machine.clearA]
  · simp [Machine.clearA, he]

theorem table (e : Nat) : (m'.dirs e).table = (m.dirs e).table := by
  rw [h.rest]
  by_cases he : e = d
  · subst he; simp [Machine.clearA]
  · simp [Machine.clearA, he]

/-- Every PTE keeps all its bits but the accessed one. -/
theorem pte_setA (e v : Nat) : ∃ b, (m'.dirs e).pte v = ((m.dirs e).pte v).setA b := by
  by_cases he : e = d
  · subst he
    rw [h.pte]
    split
    · exact ⟨false, rfl⟩
    · exact ⟨((m.dirs e).pte v).a, rfl⟩
  · refine ⟨((m.dirs e).pte v).a, ?_⟩
    rw [h.rest]
    simp [Machine.clearA, he]
    rfl

theorem user (i : Nat) : m'.user p i = m.user p i := by
  obtain ⟨b, hb⟩ := h.pte_setA (m.proc p).pgdir (m.pageNo p i)
  rw [Machine.user, Machine.user, h.pageNo, Machine.pte, h.pgdir, hb]
  rfl

theorem used_of_mem (hi : m.pageNo p i ∈ vs) : m'.used p d i = false := by
  rw [Machine.used, h.pageNo, h.pte, if_pos hi, Pte.setA_a]

theorem used_of_not_mem (hi : m.pageNo p i ∉ vs) : m'.used p d i = m.used p d i := by
  rw [Machine.used, h.pageNo, h.pte, if_neg hi]
  rfl

theorem mapped (hi : Mapped p e m i) : Mapped p e m' i :=
  ⟨hi.lt, by rw [h.live]; exact hi.live, by rw [h.table, h.pageId]; exact hi.table⟩

/-- What the policies need of the list stays. -/
theorem queued (hq : Queued p e m l) (hl : (m'.proc p).Listed l') (hsub : l' ⊆ l) :
    Queued p e m' l' where
  listed := hl
  mapped := fun i hi => h.mapped (hq.mapped i (hsub hi))
  distinct := by
    intro i hi j hj
    rw [h.pageNo, h.pageNo]
    exact hq.distinct i (hsub hi) j (hsub hj)

end Swept

/-! ## Second chance -/

/-- Moving the head of the list to its end. -/
theorem rotate_spec (h : (m.proc p).Listed (i :: l)) (hne : l ≠ []) (e : Nat) :
    wp (rotate p i) (fun r m' => l.head? = some r ∧ Swept p e [] m m' ∧
      (m'.proc p).Listed (l ++ [i])) noStop m := by
  have hi : i < maxTotalPages := h.lt i (by simp)
  have hil : i ∉ l := (nodup_cons.mp h.isList.nodup).1
  obtain ⟨a, ks, rfl⟩ := exists_cons_of_ne_nil hne
  simp only [rotate, wp_bind, wp_onProc]
  refine wp_mono (removePageFromList_spec (show (m.proc p).Listed ([] ++ i :: a :: ks) from h))
    ?_ (fun _ _ hf => hf)
  rintro _ pr ⟨hlist, hsh⟩
  simp only [nil_append] at hlist
  simp only [Machine.setProc_proc, update_self]
  refine wp_mono (addPageToList_spec hlist hne hil hi) ?_ (fun _ _ hf => hf)
  rintro _ pr' ⟨hlist', hsh'⟩
  have hhead : pr'.pageListHeadRam = some a := hlist'.isList.head_eq
  rw [Machine.setProc_setProc]
  simp only [wp_getProc, Machine.setProc_proc, update_self, hhead, wp_pure]
  exact ⟨rfl, .setProc (hsh.trans hsh'), by simpa using hlist'⟩

/-- Moving the only entry to the end: it is linked behind itself, which only its `prev`
    shows. -/
theorem rotate_single (h : (m.proc p).Listed [i]) (e : Nat) :
    wp (rotate p i) (fun r m' => r = i ∧ Swept p e [] m m' ∧
      (m'.proc p).pageListHeadRam = some i ∧ (m'.proc p).next i = none) noStop m := by
  have hi : i < maxTotalPages := h.lt i (by simp)
  simp only [rotate, wp_bind, wp_onProc]
  refine wp_mono (removePageFromList_spec (show (m.proc p).Listed ([] ++ i :: []) from h))
    ?_ (fun _ _ hf => hf)
  rintro _ pr ⟨hlist, hsh⟩
  simp only [Machine.setProc_proc, update_self]
  refine wp_mono (addPageToList_empty hlist hi) ?_ (fun _ _ hf => hf)
  rintro _ pr' ⟨⟨hhead', hnext, -⟩, hsh'⟩
  rw [Machine.setProc_setProc]
  simp only [wp_getProc, Machine.setProc_proc, update_self, hhead', wp_pure]
  exact ⟨trivial, .setProc (hsh.trans hsh'), trivial, hnext⟩

/-- One turn of the SCFIFO loop: a user page that was not used is chosen, any other page
    goes to the end of the list, and a user page loses its accessed bit. -/
theorem Mapped.wp_scfifoLoop (h : Mapped p (m.proc p).pgdir m i) (hd : Mapped p d m i) :
    wp (scfifoLoop p d (fuel + 1) i) Q noStop m ↔
      if m.user p i = true then
        if m.used p d i = true then
          wp (rotate p i) (fun head m' => wp (scfifoLoop p d fuel head) Q noStop m') noStop
            (m.clearA d [m.pageNo p i])
        else Q i m
      else wp (rotate p i) (fun head m' => wp (scfifoLoop p d fuel head) Q noStop m') noStop m := by
  simp only [scfifoLoop, wp_bind, wp_onProc, wp_getLink_lt h.lt, Machine.setProc_self, wp_getProc]
  rw [h.wp_derefPte]
  cases hu : m.user p i with
  | false =>
    have hu' : ((m.dirs (m.proc p).pgdir).pte (m.pageNo p i)).u = false := hu
    simp only [hu', Bool.false_eq_true, if_false, wp_bind]
  | true =>
    have hu' : ((m.dirs (m.proc p).pgdir).pte (m.pageNo p i)).u = true := hu
    simp only [hu', if_true, wp_bind]
    rw [hd.wp_isPteA]
    cases m.used p d i with
    | false => simp only [Bool.false_eq_true, if_false, wp_pure]
    | true =>
      simp only [if_true, wp_bind]
      rw [hd.wp_pteAOff]

/-- The user pages among the entries `l`. -/
def Machine.userPages (m : Machine) (p : Nat) (l : List Nat) : List Nat :=
  (l.filter (m.user p)).map (m.pageNo p)

theorem Machine.mem_userPages :
    v ∈ m.userPages p l ↔ ∃ i ∈ l, m.user p i = true ∧ m.pageNo p i = v := by
  simp [Machine.userPages, and_assoc]

/-- One turn at an entry that is not chosen. -/
theorem Queued.scfifo_skip (h : Queued p (m.proc p).pgdir m (i :: l)) (hd : Queued p d m (i :: l))
    (hne : l ≠ []) (hskip : m.user p i = true → m.used p d i = true)
    (hQ : ∀ head m', (l ++ [i]).head? = some head → Swept p d (m.userPages p [i]) m m' →
      (m'.proc p).Listed (l ++ [i]) → wp (scfifoLoop p d fuel head) Q noStop m') :
    wp (scfifoLoop p d (fuel + 1) i) Q noStop m := by
  have hhead : ∀ head, l.head? = some head → (l ++ [i]).head? = some head := by
    intro head hhead
    rw [head?_append, hhead]
    rfl
  rw [(h.mapped i (by simp)).wp_scfifoLoop (hd.mapped i (by simp))]
  cases hu : m.user p i with
  | false =>
    simp only [Bool.false_eq_true, if_false]
    refine wp_post (rotate_spec h.listed hne d) ?_
    rintro head m' ⟨hh, hs, hl⟩
    exact hQ head m' (hhead head hh) (hs.congr (by simp [Machine.userPages, hu])) hl
  | true =>
    rw [if_pos rfl, if_pos (hskip hu)]
    have hs1 := Swept.clearA p d [m.pageNo p i] m
    refine wp_post (rotate_spec (m := m.clearA d _) h.listed hne d) ?_
    rintro head m' ⟨hh, hs, hl⟩
    exact hQ head m' (hhead head hh) ((hs1.trans hs).congr (by simp [Machine.userPages, hu])) hl

/-- The loop passes over the first entries `zs` when none of them is to be chosen: they go to
    the end of the list, and their user pages lose the accessed bit. -/
theorem Queued.scfifo_pass (h : Queued p (m.proc p).pgdir m (zs ++ ys))
    (hd : Queued p d m (zs ++ ys)) (htwo : 2 ≤ (zs ++ ys).length)
    (hhead : (zs ++ ys).head? = some head)
    (hskip : ∀ x ∈ zs, m.user p x = true → m.used p d x = true)
    (hQ : ∀ head m', (ys ++ zs).head? = some head → Swept p d (m.userPages p zs) m m' →
      (m'.proc p).Listed (ys ++ zs) → wp (scfifoLoop p d fuel head) Q noStop m') :
    wp (scfifoLoop p d (fuel + zs.length) head) Q noStop m := by
  induction zs generalizing m ys head with
  | nil => exact hQ head m (by simpa using hhead) (.refl p d m) (by simpa using h.listed)
  | cons x zs ih =>
    cases hhead
    have hne : zs ++ ys ≠ [] := by
      rintro hnil
      simp [hnil] at htwo
    refine h.scfifo_skip hd hne (hskip x (by simp)) ?_
    intro head m' hh hs hl
    have hsub : zs ++ (ys ++ [x]) ⊆ x :: (zs ++ ys) := by
      intro a
      simp only [mem_append, mem_cons]
      tauto
    have hh : (zs ++ (ys ++ [x])).head? = some head := by simpa using hh
    have hl : (m'.proc p).Listed (zs ++ (ys ++ [x])) := by simpa using hl
    have h1 := hs.queued h hl hsub
    rw [← hs.pgdir] at h1
    -- The bits of the entries still to come are as they were: their pages are others.
    have hkept : ∀ y ∈ zs, m'.used p d y = m.used p d y := by
      intro y hy
      refine hs.used_of_not_mem ?_
      rw [Machine.mem_userPages]
      rintro ⟨z, hz, -, heq⟩
      obtain rfl : z = x := by simpa using hz
      obtain rfl := h.distinct z (by simp) y (by simp [hy]) heq
      exact absurd hy fun hy => (nodup_cons.mp h.listed.isList.nodup).1 (by simp [hy])
    refine ih h1 (hs.queued hd hl hsub) (by simp at htwo ⊢; omega) hh ?_ ?_
    · intro y hy
      rw [hs.user, hkept y hy]
      exact hskip y (by simp [hy])
    · intro head m'' hh' hs' hl'
      refine hQ head m'' (by simpa using hh') ((hs.trans hs').congr ?_) (by simpa using hl')
      intro v
      simp only [mem_append, Machine.mem_userPages, hs.user, hs.pageNo]
      simp [or_and_right, exists_or]

/-- SCFIFO chose `r` from the list `l`: by second chance, clearing the accessed bits of the user
    pages it passed over. -/
structure SecondChance (p d : Nat) (m : Machine) (l : List Nat) (r : Nat) (m' : Machine) : Prop where
  chosen : secondChance (m.user p) (m.used p d) l = some r
  swept : Swept p d (m.userPages p (passedOver (m.user p) (m.used p d) l)) m m'

/-- SCFIFO on a list of two entries or more: the list is rotated so that the chosen entry
    comes first. -/
theorem Queued.scfifo_spec (h : Queued p (m.proc p).pgdir m l) (hd : Queued p d m l)
    (htwo : 2 ≤ l.length) (hhead : l.head? = some head) (huser : ∃ i ∈ l, m.user p i = true)
    (hf : 2 * l.length ≤ fuel) :
    wp (scfifoLoop p d fuel head) (fun r m' => SecondChance p d m l r m' ∧
      ∃ xs ys, l = xs ++ r :: ys ∧ (m'.proc p).Listed (r :: ys ++ xs)) noStop m := by
  obtain ⟨xs, i, ys, rfl, hsc, hi, ⟨hclear, hxs⟩ | ⟨hall, hxs⟩⟩ :=
    secondChance_cases (m.used p d) huser
  · -- The entries before `i` are passed over, and `i` is taken.
    obtain ⟨k, rfl⟩ : ∃ k, fuel = (k + 1) + xs.length :=
      ⟨fuel - 1 - xs.length, by simp at hf; omega⟩
    refine h.scfifo_pass hd htwo hhead hxs ?_
    intro head' m' hh hs hl
    obtain rfl : i = head' := by simpa using hh
    have hni : m.pageNo p i ∉ m.userPages p xs := by
      rw [Machine.mem_userPages]
      rintro ⟨x, hx, -, heq⟩
      obtain rfl := h.distinct x (by simp [hx]) i (by simp) heq
      have hnd := h.listed.isList.nodup
      rw [nodup_append] at hnd
      exact hnd.2.2 x hx x (by simp) rfl
    rw [← hs.pgdir] at h
    rw [(hs.mapped (h.mapped i (by simp))).wp_scfifoLoop (hs.mapped (hd.mapped i (by simp))), hs.user,
      if_pos hi, hs.used_of_not_mem hni, if_neg (by simp [hclear])]
    refine ⟨⟨hsc, ?_⟩, xs, ys, rfl, hl⟩
    rw [passedOver_of_not_used hi hclear hxs]
    exact hs
  · -- The first pass clears all user pages; the second one stops at the first of them.
    obtain ⟨k, rfl⟩ : ∃ k, fuel = ((k + 1) + xs.length) + (xs ++ i :: ys).length :=
      ⟨fuel - 1 - xs.length - (xs ++ i :: ys).length, by simp at hf ⊢; omega⟩
    refine @Queued.scfifo_pass _ head _ p d m [] (xs ++ i :: ys) (by simpa using h) (by simpa using hd)
      (by simpa using htwo) (by simpa using hhead) hall ?_
    intro head1 m1 hh1 hs1 hl1
    rw [nil_append] at hh1 hl1
    have h1 := hs1.queued h hl1 (List.Subset.refl _)
    have hd1 := hs1.queued hd hl1 (List.Subset.refl _)
    rw [← hs1.pgdir] at h1
    refine h1.scfifo_pass hd1 htwo hh1 ?_ ?_
    · intro x hx hu
      rw [hs1.user, hxs x hx] at hu
      exact absurd hu (by simp)
    intro head2 m2 hh2 hs2 hl2
    obtain rfl : i = head2 := by simpa using hh2
    have hnone : m1.userPages p xs = [] := by
      rw [Machine.userPages, filter_eq_nil_iff.mpr, map_nil]
      intro x hx
      rw [hs1.user, hxs x hx]
      simp
    rw [hnone] at hs2
    have hs := hs1.trans hs2
    rw [append_nil] at hs
    have hin : m.pageNo p i ∈ m.userPages p (xs ++ i :: ys) :=
      Machine.mem_userPages.mpr ⟨i, by simp, hi, rfl⟩
    rw [← hs.pgdir] at h
    rw [(hs.mapped (h.mapped i (by simp))).wp_scfifoLoop (hs.mapped (hd.mapped i (by simp))), hs.user,
      if_pos hi, hs.used_of_mem hin, if_neg (by simp)]
    refine ⟨⟨hsc, ?_⟩, xs, ys, rfl, hl2⟩
    rw [passedOver_all hall]
    exact hs

/-- SCFIFO on a single user page. -/
theorem Queued.scfifo_single (h : Queued p (m.proc p).pgdir m [i]) (hd : Queued p d m [i])
    (hu : m.user p i = true) :
    wp (scfifoLoop p d (fuel + 2) i) (fun r m' => SecondChance p d m [i] r m' ∧ r = i ∧
      (m'.proc p).pageListHeadRam = some i ∧ (m'.proc p).next i = none) noStop m := by
  have hi := h.mapped i (by simp)
  have hdi := hd.mapped i (by simp)
  rw [hi.wp_scfifoLoop hdi, if_pos hu]
  cases ha : m.used p d i with
  | false =>
    rw [if_neg (by simp)]
    refine ⟨⟨by simp [secondChance, hu, ha], ?_⟩, rfl, h.listed.isList.head_eq, ?_⟩
    · simpa [passedOver, hu, ha, Machine.userPages] using Swept.refl p d m
    · exact IsList.next_eq (show IsList _ _ _ ([] ++ i :: []) from h.listed.isList)
  | true =>
    rw [if_pos rfl]
    have hs1 := Swept.clearA p d [m.pageNo p i] m
    refine wp_post (rotate_single (m := m.clearA d _) h.listed d) ?_
    rintro r m' ⟨rfl, hs2, hhead, hnext⟩
    have hs := hs1.trans hs2
    rw [← hs.pgdir] at hi
    rw [(hs.mapped hi).wp_scfifoLoop (hs.mapped hdi), hs.user, if_pos hu, hs.used_of_mem (by simp),
      if_neg (by simp)]
    refine ⟨⟨by simp [secondChance, hu, ha], ?_⟩, rfl, hhead, hnext⟩
    simpa [passedOver, hu, ha, Machine.userPages] using hs

/-! ## Smallest counter -/

/-- The NFUA scan behind entry `tmp`. -/
theorem Queued.nfua_spec (h : Queued p (m.proc p).pgdir m (xs ++ tmp :: ys))
    (hbest : best ∈ xs ++ tmp :: ys) (hf : ys.length < fuel) :
    wp (nfuaLoop p fuel tmp best) (fun r m' => r = smallest (m.user p) (m.counter p) best ys ∧ m' = m)
      noStop m := by
  induction ys generalizing xs tmp best fuel with
  | nil =>
    obtain ⟨fuel, rfl⟩ : ∃ k, fuel = k + 1 := ⟨fuel - 1, by omega⟩
    have ht : tmp < maxTotalPages := h.listed.lt tmp (by simp)
    have hn : ((m.proc p).pagesMetaData tmp).next = none := h.listed.isList.next_eq
    simp only [nfuaLoop, wp_bind, wp_onProc, wp_getLink_lt ht, Machine.setProc_self, hn, wp_pure]
    exact ⟨rfl, trivial⟩
  | cons j ys ih =>
    obtain ⟨fuel, rfl⟩ : ∃ k, fuel = k + 1 := ⟨fuel - 1, by omega⟩
    have ht : tmp < maxTotalPages := h.listed.lt tmp (by simp)
    have hb : best < maxTotalPages := h.listed.lt best hbest
    have hn : ((m.proc p).pagesMetaData tmp).next = some j := h.listed.isList.next_eq
    have hj : Mapped p (m.proc p).pgdir m j := h.mapped j (by simp)
    have hl : xs ++ tmp :: j :: ys = (xs ++ [tmp]) ++ j :: ys := by simp
    rw [hl] at h hbest
    have hlen : ys.length < fuel := by simp at hf; omega
    simp only [nfuaLoop, wp_bind, wp_onProc, wp_getLink_lt ht, Machine.setProc_self, hn,
      wp_getLink_lt hj.lt, wp_getProc]
    rw [hj.wp_derefPte]
    have hnext : smallest (m.user p) (m.counter p) best (j :: ys) =
        smallest (m.user p) (m.counter p)
          (if m.user p j = true ∧ m.counter p j < m.counter p best then j else best) ys := rfl
    rw [hnext]
    simp only [wp_ite, wp_bind, wp_onProc, wp_getLink_lt hb, Machine.setProc_self]
    refine ⟨fun hu => ⟨fun hlt => ?_, fun hlt => ?_⟩, fun hu => ?_⟩
    · rw [if_pos ⟨hu, hlt⟩]
      exact ih h (by simp) hlen
    · rw [if_neg fun h => hlt h.2]
      exact ih h hbest hlen
    · rw [if_neg fun h => hu h.1]
      exact ih h hbest hlen

/-- The LAPA scan skips every entry and ends with the head it started from. -/
theorem Queued.lapa_spec {ones : Nat} (h : Queued p d m (xs ++ tmp :: ys)) (hf : ys.length < fuel) :
    wp (lapaLoop p fuel tmp best ones) (fun r m' => r = best ∧ m' = m) noStop m := by
  induction ys generalizing xs tmp fuel with
  | nil =>
    obtain ⟨fuel, rfl⟩ : ∃ k, fuel = k + 1 := ⟨fuel - 1, by omega⟩
    have ht : tmp < maxTotalPages := h.listed.lt tmp (by simp)
    have hn : ((m.proc p).pagesMetaData tmp).next = none := h.listed.isList.next_eq
    simp only [lapaLoop, wp_bind, wp_onProc, wp_getLink_lt ht, Machine.setProc_self, hn, wp_pure]
    exact ⟨trivial, trivial⟩
  | cons j ys ih =>
    obtain ⟨fuel, rfl⟩ : ∃ k, fuel = k + 1 := ⟨fuel - 1, by omega⟩
    have ht : tmp < maxTotalPages := h.listed.lt tmp (by simp)
    have hj : j < maxTotalPages := h.listed.lt j (by simp)
    have hn : ((m.proc p).pagesMetaData tmp).next = some j := h.listed.isList.next_eq
    have h' : Queued p d m ((xs ++ [tmp]) ++ j :: ys) := by simpa using h
    have hskip : ((m.proc p).pagesMetaData j).page.pageId ≥ 0 ∨
        ((m.proc p).pagesMetaData j).page.pageId ≤ 0x2000 := .inl (Nat.zero_le _)
    simp only [lapaLoop, wp_bind, wp_onProc, wp_getLink_lt ht, Machine.setProc_self, hn,
      wp_getLink_lt hj, if_pos hskip]
    exact ih h' (by simp at hf; omega)

/-! ## Aging -/

/-- The counter of entry `i` after one update: shifted, with the accessed bit on top. -/
def Machine.aged (m : Machine) (p i : Nat) : BitVec 32 :=
  if m.used p (m.proc p).pgdir i = true then m.counter p i >>> 1 ||| 0x80000000#32
  else m.counter p i >>> 1

/-- The counter of entry `i` written. -/
def Machine.setCounter (m : Machine) (p i : Nat) (f : BitVec 32 → BitVec 32) : Machine :=
  m.setProc p ((m.proc p).setPage i fun page => { page with shiftCounter := f page.shiftCounter })

theorem wp_setCounter (hi : i < maxTotalPages) (f : BitVec 32 → BitVec 32) (Q : Unit → Machine → Prop) :
    wp (onProc p (setPage i fun page => { page with shiftCounter := f page.shiftCounter })) Q E m ↔
      Q () (m.setCounter p i f) := by
  rw [wp_onProc, wp_setPage_lt hi]
  rfl

theorem Machine.counter_setCounter (f : BitVec 32 → BitVec 32) (j : Nat) :
    (m.setCounter p i f).counter p j = if j = i then f (m.counter p i) else m.counter p j := by
  by_cases h : j = i <;>
    simp [Machine.counter, Machine.setCounter, Proc.setPage, Proc.setLink, h]

theorem Swept.setCounter (p d i : Nat) (m : Machine) (f : BitVec 32 → BitVec 32) :
    Swept p d [] m (m.setCounter p i f) := .setProc (.setCounter _ i f)

theorem Proc.Listed.setCounter (h : (m.proc p).Listed l) (i : Nat) (f : BitVec 32 → BitVec 32) :
    ((m.setCounter p i f).proc p).Listed l := by
  simpa [Machine.setCounter] using
    h.setPage i fun page => { page with shiftCounter := f page.shiftCounter }

/-- NFUA and LAPA: the walk over the list from its entries `ys` on ages their counters and
    clears their accessed bits. -/
theorem Queued.aging_spec (h : Queued p (m.proc p).pgdir m (xs ++ ys)) (hf : ys.length ≤ fuel) :
    wp (agingLoop p fuel ys.head?) (fun _ m' =>
      Swept p (m.proc p).pgdir (ys.map (m.pageNo p)) m m' ∧ (m'.proc p).Listed (xs ++ ys) ∧
      ∀ i, m'.counter p i = if i ∈ ys then m.aged p i else m.counter p i) noStop m := by
  induction ys generalizing m xs fuel with
  | nil =>
    simp only [head?_nil, agingLoop, wp_pure]
    exact ⟨.refl p _ m, h.listed, fun i => by simp⟩
  | cons i ys ih =>
    obtain ⟨fuel, rfl⟩ : ∃ k, fuel = k + 1 := ⟨fuel - 1, by simp at hf; omega⟩
    have hi : i < maxTotalPages := h.listed.lt i (by simp)
    have hl : xs ++ i :: ys = (xs ++ [i]) ++ ys := by simp
    have hiy : i ∉ ys := by
      have hnd := h.listed.isList.nodup
      rw [nodup_append] at hnd
      exact (nodup_cons.mp hnd.2.1).1
    -- The rest of the walk, once entry `i` has been aged.
    have hrest : ∀ m1, Swept p (m.proc p).pgdir [m.pageNo p i] m m1 →
        (m1.proc p).Listed (xs ++ i :: ys) →
        (∀ j, m1.counter p j = if j = i then m.aged p i else m.counter p j) →
        wp (agingLoop p fuel ((m1.proc p).pagesMetaData i).next) (fun _ m' =>
          Swept p (m.proc p).pgdir ((i :: ys).map (m.pageNo p)) m m' ∧
          (m'.proc p).Listed (xs ++ i :: ys) ∧
          ∀ j, m'.counter p j = if j ∈ i :: ys then m.aged p j else m.counter p j) noStop m1 := by
      intro m1 hs hlist hcounter
      have hn : ((m1.proc p).pagesMetaData i).next = ys.head? := hlist.isList.next_eq
      have h1 := hs.queued h hlist (List.Subset.refl _)
      rw [hl, ← hs.pgdir] at h1
      rw [hn]
      refine wp_post (ih h1 (by simp at hf; omega)) ?_
      rintro _ m' ⟨hs', hlist', hcounter'⟩
      rw [hs.pgdir] at hs'
      refine ⟨?_, by rw [hl]; exact hlist', ?_⟩
      · have hmap : ys.map (m1.pageNo p) = ys.map (m.pageNo p) :=
          map_congr_left fun j _ => hs.pageNo j
        rw [hmap] at hs'
        exact hs.trans hs'
      · intro j
        rw [hcounter']
        by_cases hj : j ∈ ys
        · have hji : j ≠ i := fun he => hiy (he ▸ hj)
          have hused : m1.used p (m1.proc p).pgdir j = m.used p (m.proc p).pgdir j := by
            rw [hs.pgdir]
            refine hs.used_of_not_mem ?_
            intro hmem
            exact hji (h.distinct j (by simp [hj]) i (by simp) (by simpa using hmem))
          simp only [hj, if_true, mem_cons, or_true, Machine.aged, hused, hcounter j, if_neg hji]
        · rw [if_neg hj, hcounter]
          by_cases hji : j = i
          · subst hji; simp
          · simp [hji, hj]
    have hs1 := Swept.setCounter p (m.proc p).pgdir i m (fun x => x >>> 1)
    have hl1 := h.listed.setCounter i (fun x => x >>> 1)
    have hc1 := @Machine.counter_setCounter p m i (fun x => x >>> 1)
    simp only [head?_cons, agingLoop, wp_bind]
    refine (wp_setCounter hi (fun x => x >>> 1) _).mpr ?_
    generalize m.setCounter p i (fun x => x >>> 1) = m1 at hs1 hl1 hc1 ⊢
    simp only [wp_onProc, wp_getLink_lt hi, wp_getProc, Machine.setProc_self]
    have hm1 := hs1.mapped (h.mapped i (by simp))
    rw [hs1.pgdir, hm1.wp_isPteA, hs1.used_of_not_mem (by simp)]
    cases ha : m.used p (m.proc p).pgdir i with
    | false =>
      simp only [Bool.false_eq_true, if_false, wp_bind, wp_onProc, wp_getLink_lt hi, Machine.setProc_self]
      refine hrest m1 (hs1.cons_of_not ha) hl1 fun j => ?_
      simp only [hc1, Machine.aged, ha, Bool.false_eq_true, if_false]
    | true =>
      simp only [if_true, wp_bind]
      rw [hm1.wp_pteAOff]
      have hs2 := hs1.trans (.clearA p (m.proc p).pgdir [m1.pageNo p i] m1)
      have hc2 : ∀ j, (m1.clearA (m.proc p).pgdir [m1.pageNo p i]).counter p j = m1.counter p j := fun _ => rfl
      have hl2 : ((m1.clearA (m.proc p).pgdir [m1.pageNo p i]).proc p).Listed _ := hl1
      generalize m1.clearA (m.proc p).pgdir [m1.pageNo p i] = m2 at hs2 hc2 hl2 ⊢
      refine (wp_setCounter hi (fun x => x ||| 0x80000000#32) _).mpr ?_
      simp only [wp_onProc, wp_getLink_lt hi, Machine.setProc_self]
      refine hrest (m2.setCounter p i fun x => x ||| 0x80000000#32) ?_ (hl2.setCounter i _) fun j => ?_
      · have hs3 := hs2.trans (Swept.setCounter p _ i m2 fun x => x ||| 0x80000000#32)
        simpa [hs1.pageNo] using hs3
      · simp only [Machine.counter_setCounter, hc2, hc1, Machine.aged, ha, if_true]
        split <;> rfl

/-! ## The advancing queue -/

/-- AQ: the walk at entry `i`. A page that was used loses its accessed bit and falls back behind
    a successor that was not; the walk then finds its bit clear and goes on. -/
theorem Queued.switchQueue_spec (h : Queued p d m (xs ++ i :: ys))
    (hf : 2 * ys.length + (m.used p d i).toNat < fuel) :
    wp (switchQueueLoop p d fuel i) (fun _ m' => Swept p d ((i :: ys).map (m.pageNo p)) m m' ∧
      (m'.proc p).Listed (xs ++ advance (m.used p d) (i :: ys))) noStop m := by
  induction fuel generalizing m xs i ys with
  | zero => omega
  | succ fuel ih =>
    have hi : Mapped p d m i := h.mapped i (by simp)
    have hn : ((m.proc p).pagesMetaData i).next = ys.head? := h.listed.isList.next_eq
    simp only [switchQueueLoop, wp_bind, wp_onProc, wp_getLink_lt hi.lt, Machine.setProc_self, hn]
    cases ys with
    | nil =>
      simp only [head?_nil]
      rw [hi.wp_pteAOff]
      exact ⟨.clearA p d _ m, h.listed⟩
    | cons j ys =>
      have hj : Mapped p d m j := h.mapped j (by simp)
      have hnd := h.listed.isList.nodup
      rw [nodup_append, nodup_cons] at hnd
      simp only [length_cons] at hf
      simp only [head?_cons, wp_bind]
      rw [hi.wp_isPteA]
      cases ha : m.used p d i with
      | false =>
        simp only [Bool.false_eq_true, if_false]
        have h' : Queued p d m ((xs ++ [i]) ++ j :: ys) := by simpa using h
        have hlen : 2 * ys.length + (m.used p d j).toNat < fuel := by
          have := (m.used p d j).toNat_le
          omega
        refine wp_post (ih h' hlen) ?_
        rintro _ m' ⟨hs, hl⟩
        refine ⟨hs.cons_of_not ha, ?_⟩
        rw [advance_cons_of_not ha]
        simpa using hl
      | true =>
        simp only [if_true, wp_bind]
        rw [hi.wp_pteAOff]
        have hs1 := Swept.clearA p d [m.pageNo p i] m
        have hl1 : ((m.clearA d [m.pageNo p i]).proc p).Listed (xs ++ i :: j :: ys) := h.listed
        generalize m.clearA d [m.pageNo p i] = m1 at hs1 hl1 ⊢
        have h1 := hs1.queued h hl1 (List.Subset.refl _)
        have ha1 : m1.used p d i = false := hs1.used_of_mem (by simp)
        -- The other pages keep their bits.
        have hkept : ∀ k ∈ j :: ys, m1.used p d k = m.used p d k := by
          intro k hk
          refine hs1.used_of_not_mem fun hmem => ?_
          obtain rfl := h.distinct k (by simp [mem_cons.mp hk]) i (by simp) (by simpa using hmem)
          exact hnd.2.1.1 hk
        simp only [wp_onProc, wp_getLink_lt hj.lt, Machine.setProc_self]
        rw [(hs1.mapped hj).wp_isPteA, hkept j (by simp)]
        have hpages : ∀ ks : List Nat, ks.map (m1.pageNo p) = ks.map (m.pageNo p) := fun ks =>
          map_congr_left fun k _ => hs1.pageNo k
        simp only [ha, Bool.toNat_true] at hf
        cases hb : m.used p d j with
        | true =>
          simp only [if_true]
          refine wp_post (ih h1 (by simp only [ha1, Bool.toNat_false, length_cons]; omega)) ?_
          rintro _ m' ⟨hs, hl⟩
          rw [hpages] at hs
          refine ⟨(hs1.trans hs).congr (by simp), ?_⟩
          rw [advance_cons_of_not ha1, advance_congr hkept] at hl
          rw [advance, if_neg (by simp [hb])]
          exact hl
        | false =>
          simp only [Bool.false_eq_true, if_false, wp_bind, wp_onProc]
          refine wp_mono (exchangeLinks_spec h1.listed) ?_ (fun _ _ hf => hf)
          rintro _ pr ⟨hlist, hsh⟩
          have hs2 : Swept p d [] m1 (m1.setProc p pr) := .setProc hsh
          have hl2 : ((m1.setProc p pr).proc p).Listed ((xs ++ [j]) ++ i :: ys) := by
            simpa using hlist
          generalize m1.setProc p pr = m2 at hs2 hl2 ⊢
          have h2 := hs2.queued h1 hl2 (by
            intro a
            simp only [mem_append, mem_cons]
            tauto)
          have hs12 := hs1.trans hs2
          have ha2 : m2.used p d i = false := hs12.used_of_mem (by simp)
          refine wp_post (ih h2 (by simp only [ha2, Bool.toNat_false]; omega)) ?_
          rintro _ m' ⟨hs, hl⟩
          have hpages2 : (i :: ys).map (m2.pageNo p) = (i :: ys).map (m.pageNo p) :=
            map_congr_left fun k _ => hs12.pageNo k
          rw [hpages2] at hs
          refine ⟨((hs12.trans hs).cons_of_not hb).congr (by simp; tauto), ?_⟩
          have hkept2 : ∀ k ∈ ys, m2.used p d k = m.used p d k := by
            intro k hk
            rw [hs2.used_of_not_mem (by simp), hkept k (by simp [hk])]
          rw [advance_cons_of_not ha2, advance_congr hkept2] at hl
          rw [advance, if_pos ⟨ha, hb⟩]
          simpa using hl

theorem Queued.switchQueueAQ_spec (h : Queued p d m l) (hfuel : 2 * maxTotalPages ≤ c.fuel) :
    wp (switchQueueAQ c p d) (fun _ m' => Swept p d (l.map (m.pageNo p)) m m' ∧
      (m'.proc p).Listed (advance (m.used p d) l)) noStop m := by
  have hlen := h.listed.length_le
  have hhead : (m.proc p).pageListHeadRam = l.head? := h.listed.isList.head_eq
  simp only [switchQueueAQ, wp_bind, wp_getProc, hhead]
  cases l with
  | nil => exact ⟨.refl p d m, h.listed⟩
  | cons i ys =>
    refine Queued.switchQueue_spec (show Queued p d m ([] ++ i :: ys) from h) ?_
    have := (m.used p d i).toNat_le
    simp only [length_cons] at hlen
    omega

/-! ## The choice -/

/-- The directory whose accessed bits `choosePageToSwap` reads. -/
def Machine.accessDir (m : Machine) (p : Nat) : Nat := m.globalPgdir.getD (m.proc p).pgdir

section Choice

variable {A : Type}

/-- The page that each policy chooses from a list. -/
def Config.choose (c : Config) (user used : A → Bool) (counter : A → BitVec 32) (l : List A) : Option A :=
  match c.selection with
  | .LIFO => l.getLast?
  | .NFUA => l.head?.map fun a => smallest user counter a l.tail
  | .SCFIFO => secondChance user used l
  | .LAPA => l.head?
  | .AQ => l.head?
  | .NONE => l.head?

/-- The pages that are passed over: those for the user lose `PTE_A`. -/
def Config.passed (c : Config) (user used : A → Bool) (l : List A) : List A :=
  if c.selection = .SCFIFO then passedOver user used l else []

/-- What is before and behind the chosen page in the end: SCFIFO appends what was before it. -/
def Config.around (c : Config) (xs ys : List A) : List A × List A :=
  if c.selection = .SCFIFO then ([], ys ++ xs) else (xs, ys)

theorem Config.choose_mem {user used : A → Bool} {counter : A → BitVec 32} {l : List A} {r : A}
    (h : c.choose user used counter l = some r) : r ∈ l := by
  unfold Config.choose at h
  split at h
  · exact mem_of_getLast? h
  · cases l with
    | nil => cases h
    | cons a l =>
      cases h
      exact smallest_mem _ _ a l
  · unfold secondChance at h
    rcases Option.or_eq_some_iff.mp h with h | ⟨-, h⟩
    · exact mem_of_find?_eq_some h
    · exact mem_of_find?_eq_some h
  all_goals exact mem_of_head? h

section Map

variable {B : Type} (f : B → A) {user used : A → Bool} {counter : A → BitVec 32} {l xs ys : List B}

theorem Config.choose_map : c.choose user used counter (l.map f) =
    (c.choose (user ∘ f) (used ∘ f) (counter ∘ f) l).map f := by
  unfold Config.choose
  cases c.selection with
  | LIFO => exact getLast?_map
  | NFUA =>
    cases l with
    | nil => rfl
    | cons a l => exact congrArg some (smallest_map counter f a l)
  | SCFIFO => exact secondChance_map f l
  | _ => exact head?_map

theorem Config.passed_map :
    c.passed user used (l.map f) = (c.passed (user ∘ f) (used ∘ f) l).map f := by
  unfold Config.passed passedOver
  split
  · exact takeWhile_map ..
  · rfl

theorem Config.around_map : (c.around (xs.map f) (ys.map f)).1 ++ (c.around (xs.map f) (ys.map f)).2 =
    ((c.around xs ys).1 ++ (c.around xs ys).2).map f := by
  unfold Config.around
  split <;> simp

end Map

theorem Config.passed_subset {user used : A → Bool} {l : List A} : c.passed user used l ⊆ l := by
  unfold Config.passed
  split
  · exact (takeWhile_sublist _).subset
  · exact nil_subset _

end Choice

/-- The entry each policy chooses from the list `l`. -/
def Machine.victim (m : Machine) (c : Config) (p : Nat) (l : List Nat) : Option Nat :=
  c.choose (m.user p) (m.used p (m.accessDir p)) (m.counter p) l

/-- Entry `i` has been chosen from the list `l`, which is `xs ++ i :: ys` then. -/
structure Selected (c : Config) (p : Nat) (m : Machine) (l : List Nat) (i : Nat) (xs ys : List Nat)
    (m' : Machine) : Prop where
  victim : m.victim c p l = some i
  split : ∃ as bs, l = as ++ i :: bs ∧ (xs, ys) = c.around as bs
  swept : Swept p (m.accessDir p)
    (m.userPages p (c.passed (m.user p) (m.used p (m.accessDir p)) l)) m m'

theorem Selected.perm (h : Selected c p m l i xs ys m') : (xs ++ i :: ys).Perm l := by
  obtain ⟨as, bs, rfl, heq⟩ := h.split
  unfold Config.around at heq
  split at heq
  · cases heq
    exact @perm_append_comm _ (i :: bs) as
  · cases heq
    exact List.Perm.refl _

/-- A policy that leaves everything as it is. -/
theorem Selected.still (h : m.victim c p l = some i) (hsel : c.selection ≠ .SCFIFO) :
    ∃ xs ys, l = xs ++ i :: ys ∧ Selected c p m l i xs ys m := by
  obtain ⟨xs, ys, rfl⟩ := append_of_mem (Config.choose_mem h)
  refine ⟨xs, ys, rfl, h, ⟨xs, ys, rfl, (if_neg hsel).symm⟩, ?_⟩
  rw [Config.passed, if_neg hsel]
  exact .refl p _ m

/-- On a list of two entries or more, one of them a user page, every policy ends with its victim. -/
theorem Queued.choosePageToSwap_spec (h : Queued p (m.proc p).pgdir m l)
    (hd : Queued p (m.accessDir p) m l) (huser : ∃ i ∈ l, m.user p i = true)
    (htwo : 2 ≤ l.length) (hfuel : 2 * maxTotalPages ≤ c.fuel) :
    wp (choosePageToSwap c p) (fun r m' => ∃ i xs ys, r = some i ∧ Selected c p m l i xs ys m' ∧
      (m'.proc p).Listed (xs ++ i :: ys)) noStop m := by
  have hlen := h.listed.length_le
  obtain ⟨a, ks, rfl⟩ : ∃ a ks, l = a :: ks := by
    cases l with
    | nil => simp at htwo
    | cons a ks => exact ⟨a, ks, rfl⟩
  have ha : a < maxTotalPages := h.listed.lt a (by simp)
  have hhead : (m.proc p).pageListHeadRam = some a := h.listed.isList.head_eq
  have hself : ∀ i, m.victim c p (a :: ks) = some i → c.selection ≠ .SCFIFO → ∃ j xs ys, some i = some j ∧
      Selected c p m (a :: ks) j xs ys m ∧ (m.proc p).Listed (xs ++ j :: ys) := by
    intro i hi hsel
    obtain ⟨xs, ys, hl, hs⟩ := Selected.still hi hsel
    exact ⟨i, xs, ys, rfl, hs, hl ▸ h.listed⟩
  have hks : ks.length < maxTotalPages := by simp at hlen; omega
  have hwhole : Queued p (m.proc p).pgdir m ([] ++ a :: ks) := h
  simp only [choosePageToSwap, wp_bind, wp_getProc, wp_curDir, hhead]
  simp only [Machine.victim, Config.choose] at hself
  cases hsel : c.selection with
  | LIFO =>
    simp only [wp_bind, wp_pure, wp_onProc]
    refine wp_mono (lastLink_spec h.listed rfl) ?_ (fun _ _ hf => hf)
    rintro r pr ⟨rfl, hr⟩
    rw [Machine.setProc_self]
    simp only [hsel] at hself
    exact hself r hr (by simp)
  | NFUA =>
    simp only [wp_bind, wp_pure]
    refine wp_post (hwhole.nfua_spec (by simp) hks) ?_
    rintro r _ ⟨rfl, rfl⟩
    simp only [hsel] at hself
    exact hself _ rfl (by simp)
  | LAPA =>
    simp only [wp_bind, wp_pure, wp_onProc, wp_getLink_lt ha, Machine.setProc_self]
    refine wp_post (hwhole.lapa_spec hks) ?_
    rintro r _ ⟨rfl, rfl⟩
    simp only [hsel] at hself
    exact hself _ rfl (by simp)
  | SCFIFO =>
    simp only [wp_bind, wp_pure]
    refine wp_post (h.scfifo_spec hd htwo rfl huser (by omega)) ?_
    rintro r m' ⟨hsc, xs, ys, hl, hlist⟩
    refine ⟨r, [], ys ++ xs, rfl, ⟨?_, ⟨xs, ys, hl, (if_pos hsel).symm⟩, ?_⟩, hlist⟩
    · simp only [Machine.victim, Config.choose, hsel]
      exact hsc.chosen
    · rw [Config.passed, if_pos hsel]
      exact hsc.swept
  | AQ =>
    simp only [hsel] at hself
    exact hself a rfl (by simp)
  | NONE =>
    simp only [hsel] at hself
    exact hself a rfl (by simp)

end Xv6Paging
