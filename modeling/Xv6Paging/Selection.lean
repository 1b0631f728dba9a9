import Xv6Paging.Process

/-! # What the replacement policies choose

    The policies of `choosePageToSwap` and the update of the advancing queue on every
    well-formed RAM list: which page is chosen, what becomes of the list and of the
    accessed bits. SCFIFO is second chance and AQ moves every page by at most one
    place. NFUA does not test the head of the list for `PTE_U`, and the test by which
    LAPA means to skip the low pages skips every page behind the head.
-/

namespace Xv6Paging

open List Wp DList Replacement

variable {c : Config} {p d : Nat} {m : Machine} {l : List Nat}
  {a : Nat} {Q : Option Nat → Machine → Prop}

/-! ## A process with four pages in RAM -/

/-- Entry `i < 4` is page `first + i`, in RAM, with the given counter. -/
def fourLink (first : Nat) (counter : Nat → BitVec 32) (i : Nat) : PageLink :=
  if i < 4 then
    { page := ⟨pgsize * (first + i), .inMemory, noOffset, counter i, i⟩
      next := if i = 3 then none else some (i + 1)
      prev := if i = 0 then none else some (i - 1) }
  else
    { page := ⟨noPage, .notUsed, noOffset, 0, i⟩, next := none, prev := none }

/-- Process 3 with four pages in RAM and the given bits `PTE_U` and `PTE_A`. -/
def fourPages (first : Nat) (counter : Nat → BitVec 32) (user used : Nat → Bool) : Machine :=
  { sample (sampleConfig .NONE) 0 with
    proc := fun _ => { sampleProc with
      sz := 8 * pgsize, pagesMetaData := fourLink first counter, numPagesRam := 4 }
    dirs := fun _ => ⟨true, fun k => if k = 0 then some 901 else none,
      fun v => ⟨1000 + v, true, true, user v, false, used v, false⟩⟩ }

theorem fourPages_queued {first : Nat} (hfirst : first < 100) (counter : Nat → BitVec 32)
    (user used : Nat → Bool) (d : Nat) :
    Queued 3 d (fourPages first counter user used) [0, 1, 2, 3] where
  listed := ⟨⟨rfl, by decide, rfl, rfl, rfl, rfl, rfl, rfl, rfl, rfl, trivial⟩, by decide⟩
  mapped := by
    intro i hi
    have hi : i < 4 := by
      simp only [mem_cons, not_mem_nil, or_false] at hi
      omega
    refine ⟨by simp only [maxTotalPages]; omega, rfl, ?_⟩
    have hpdx : pdx (pgsize * (first + i)) = 0 := by
      simp only [pdx, pgsize, nptentries]
      omega
    simp [fourPages, fourLink, hi, hpdx]
  distinct := by
    intro i hi j hj heq
    have hi : i < 4 := by
      simp only [mem_cons, not_mem_nil, or_false] at hi
      omega
    have hj : j < 4 := by
      simp only [mem_cons, not_mem_nil, or_false] at hj
      omega
    simp only [Machine.pageNo, fourPages, fourLink, hi, hj, if_true, vpn_mul] at heq
    omega

/-! ## SCFIFO -/

/-- SCFIFO ends with the second-chance page. The list read forward is rotated so that this page
    comes first, and the accessed bits of the user pages passed over are all that is cleared. -/
theorem choosePageToSwap_secondChance (hsel : c.selection = .SCFIFO)
    (hfuel : 2 * maxTotalPages ≤ c.fuel) (h : Queued p (m.proc p).pgdir m l)
    (hd : Queued p (m.accessDir p) m l) (huser : ∃ i ∈ l, m.user p i = true) :
    wp (choosePageToSwap c p) (fun r m' => ∃ i xs ys, r = some i ∧
      secondChance (m.user p) (m.used p (m.accessDir p)) l = some i ∧ l = xs ++ i :: ys ∧
      Walk (m'.proc p).next (m'.proc p).pageListHeadRam (i :: ys ++ xs) ∧
      Swept p (m.accessDir p)
        (m.userPages p (passedOver (m.user p) (m.used p (m.accessDir p)) l)) m m') noStop m := by
  have hlen := h.listed.length_le
  obtain ⟨a, ks, rfl⟩ : ∃ a ks, l = a :: ks := by
    obtain ⟨i, hi, -⟩ := huser
    exact exists_cons_of_ne_nil (ne_nil_of_mem hi)
  have hhead : (m.proc p).pageListHeadRam = some a := h.listed.isList.head_eq
  simp only [choosePageToSwap, wp_bind, wp_getProc, wp_curDir, hhead, hsel, wp_pure]
  cases ks with
  | nil =>
    obtain ⟨k, hk⟩ : ∃ k, c.fuel = k + 2 := ⟨c.fuel - 2, by simp only [maxTotalPages] at hfuel; omega⟩
    rw [hk]
    refine wp_post (h.scfifo_single hd (by simpa using huser)) ?_
    rintro r m' ⟨hsc, rfl, hhead', hnext⟩
    exact ⟨r, [], [], rfl, hsc.chosen, rfl, ⟨hhead', hnext⟩, hsc.swept⟩
  | cons b ks =>
    refine wp_post (h.scfifo_spec hd (by simp) rfl huser (by omega)) ?_
    rintro r m' ⟨hsc, xs, ys, hl, hlist⟩
    exact ⟨r, xs, ys, rfl, hsc.chosen, hl, hlist.isList.walk, hsc.swept⟩

/-- Four pages, the first not for the user, all of them accessed. -/
@[irreducible]
def allAccessed : Machine := fourPages 0 (fun _ => 0) (fun v => v != 0) (fun _ => true)

theorem allAccessed_queued (d : Nat) : Queued 3 d allAccessed [0, 1, 2, 3] := by
  unfold allAccessed
  exact fourPages_queued (by decide) _ _ _ d

theorem choosePageToSwap_secondChance_allAccessed :
    wp (choosePageToSwap (sampleConfig .SCFIFO) 3) (fun r m' => ∃ i xs ys, r = some i ∧
      secondChance (allAccessed.user 3) (allAccessed.used 3 (allAccessed.accessDir 3)) [0, 1, 2, 3] =
        some i ∧ [0, 1, 2, 3] = xs ++ i :: ys ∧
      Walk (m'.proc 3).next (m'.proc 3).pageListHeadRam (i :: ys ++ xs) ∧
      Swept 3 (allAccessed.accessDir 3) (allAccessed.userPages 3
        (passedOver (allAccessed.user 3) (allAccessed.used 3 (allAccessed.accessDir 3)) [0, 1, 2, 3]))
        allAccessed m') noStop allAccessed :=
  choosePageToSwap_secondChance rfl (by decide) (allAccessed_queued _) (allAccessed_queued _)
    ⟨1, by decide, by decide +kernel⟩

example : secondChance (allAccessed.user 3) (allAccessed.used 3 900) [0, 1, 2, 3] = some 1 := by
  decide +kernel

/-! ## NFUA -/

/-- Entry `i` is the first of the user pages of the list with the smallest counter. -/
def FirstSmallest (p : Nat) (m : Machine) (l : List Nat) (i : Nat) : Prop :=
  m.user p i = true ∧ ∃ xs ys, l = xs ++ i :: ys ∧
    (∀ x ∈ xs, m.user p x = true → (m.counter p i).toNat < (m.counter p x).toNat) ∧
    ∀ y ∈ ys, m.user p y = true → (m.counter p i).toNat ≤ (m.counter p y).toNat

/-- What NFUA chooses from a list with head `a`. -/
theorem choosePageToSwap_nfua (hsel : c.selection = .NFUA)
    (h : Queued p (m.proc p).pgdir m (a :: l)) :
    wp (choosePageToSwap c p) Q noStop m ↔
      Q (some (smallest (m.user p) (fun i => (m.counter p i).toNat) a l)) m := by
  have hlen := h.listed.length_le
  have hhead : (m.proc p).pageListHeadRam = some a := h.listed.isList.head_eq
  have hrun : wp (nfuaLoop p maxTotalPages a a) (fun r m' =>
      r = smallest (m.user p) (m.counter p) a l ∧ m' = m) noStop m :=
    Queued.nfua_spec (show Queued p _ m ([] ++ a :: l) from h) (by simp) (by simp at hlen; omega)
  obtain ⟨r, m', hok, rfl, rfl⟩ := (wp_noStop_iff).mp hrun
  rw [smallest_comp (fun _ _ => Iff.rfl)]
  simp only [choosePageToSwap, wp_bind, wp_getProc, wp_curDir, hhead, hsel, wp_pure]
  exact wp_of_ok hok

/-- NFUA chooses the first user page with the smallest counter exactly if the head of the list
    is a user page or some user page has a smaller counter than the head. -/
theorem choosePageToSwap_nfua_iff {a : Nat} (hsel : c.selection = .NFUA)
    (h : Queued p (m.proc p).pgdir m (a :: l)) :
    wp (choosePageToSwap c p) (fun r _ => ∃ i, r = some i ∧ FirstSmallest p m (a :: l) i) noStop m ↔
      m.user p a = true ∨
        ∃ j ∈ l, m.user p j = true ∧ (m.counter p j).toNat < (m.counter p a).toNat := by
  rw [choosePageToSwap_nfua hsel h]
  simp only [Option.some.injEq, exists_eq_left']
  rcases smallest_cases (m.user p) (fun i => (m.counter p i).toNat) a l with
    ⟨hr, hmin⟩ | ⟨xs, i, ys, hr, rfl, hi, hlt, hxs, hys⟩
  · rw [hr]
    constructor
    · exact fun hf => .inl hf.1
    · rintro (hu | ⟨j, hj, huj, hlt⟩)
      · exact ⟨hu, [], l, rfl, by simp, hmin⟩
      · exact absurd hlt (not_lt.mpr (hmin j hj huj))
  · rw [hr]
    constructor
    · exact fun _ => .inr ⟨i, by simp, hi, hlt⟩
    · refine fun _ => ⟨hi, a :: xs, ys, rfl, ?_, hys⟩
      intro x hx
      rcases mem_cons.mp hx with rfl | hx
      · exact fun _ => hlt
      · exact hxs x hx

/-- Four user pages, the second with the smallest counter. -/
@[irreducible]
def userHead : Machine :=
  fourPages 0 (fun i => if i = 1 then 0#32 else 0x80000000#32) (fun _ => true) (fun _ => false)

theorem userHead_queued (d : Nat) : Queued 3 d userHead [0, 1, 2, 3] := by
  unfold userHead
  exact fourPages_queued (by decide) _ _ _ d

theorem choosePageToSwap_nfua_iff_userHead :
    wp (choosePageToSwap (sampleConfig .NFUA) 3)
      (fun r _ => ∃ i, r = some i ∧ FirstSmallest 3 userHead [0, 1, 2, 3] i) noStop userHead :=
  (choosePageToSwap_nfua_iff rfl (userHead_queued _)).mpr (.inl (by decide +kernel))

/-- Four pages with equal counters, the first not for the user: the stack guard at the head of
    the list. -/
@[irreducible]
def guardHead : Machine := fourPages 1 (fun _ => 0#32) (fun v => v != 1) (fun _ => false)

theorem guardHead_queued (d : Nat) : Queued 3 d guardHead [0, 1, 2, 3] := by
  unfold guardHead
  exact fourPages_queued (by decide) _ _ _ d

/-- The guard page is chosen although there are user pages. -/
theorem choosePageToSwap_nfua_guardHead :
    Queued 3 (guardHead.proc 3).pgdir guardHead [0, 1, 2, 3] ∧ guardHead.user 3 1 = true ∧
      wp (choosePageToSwap (sampleConfig .NFUA) 3)
        (fun r _ => r = some 0 ∧ guardHead.user 3 0 = false) noStop guardHead := by
  refine ⟨guardHead_queued _, by decide +kernel, ?_⟩
  rw [choosePageToSwap_nfua rfl (guardHead_queued _)]
  exact ⟨by decide +kernel, by decide +kernel⟩

/-! ## LAPA -/

/-- The number of one bits. -/
def ones (x : BitVec 32) : Nat := (List.range 32).countP x.getLsbD

theorem numOfOnesLoop_eq (n : Nat) (x : BitVec 32) (counter : Nat) :
    numOfOnesLoop n x counter = counter + (List.range n).countP x.getLsbD := by
  induction n generalizing x counter with
  | zero => rfl
  | succ n ih =>
    have hbit : (x &&& 1#32 > 0#32) ↔ x.getLsbD 0 = true := by
      rw [gt_iff_lt, BitVec.lt_def, BitVec.toNat_and, BitVec.getLsbD]
      simp only [BitVec.toNat_ofNat, Nat.testBit_zero, decide_eq_true_eq,
        show 1 % 2 ^ 32 = 1 from rfl, Nat.and_one_is_mod]
      omega
    have hrange : (List.range (n + 1)).countP x.getLsbD =
        (x.getLsbD 0).toNat + (List.range n).countP (x >>> 1).getLsbD := by
      rw [range_succ_eq_map, countP_cons, countP_map, Nat.add_comm]
      congr 1
      · cases x.getLsbD 0 <;> rfl
      · congr 1
        funext k
        simp [Nat.add_comm]
    rw [numOfOnesLoop, ih, hrange]
    by_cases h : x.getLsbD 0 = true
    · rw [if_pos (hbit.mpr h), h]
      simp only [Bool.toNat_true]
      omega
    · rw [if_neg (fun hb => h (hbit.mp hb)), Bool.eq_false_of_not_eq_true h]
      simp

/-- `numOfOnes` counts the one bits. -/
theorem numOfOnes_eq_ones (x : BitVec 32) : numOfOnes x = ones x := by
  rw [numOfOnes, numOfOnesLoop_eq, Nat.zero_add]
  rfl

/-- A user page behind the code, guard and stack pages of a small image. -/
def eligible (p : Nat) (m : Machine) (i : Nat) : Bool :=
  m.user p i && decide (0x2000 < ((m.proc p).pagesMetaData i).page.pageId)

/-- Entry `i` is an eligible page of the list with the fewest one bits in its counter, and among
    those with as many it has the smallest counter. -/
def LeastAccessed (p : Nat) (m : Machine) (l : List Nat) (i : Nat) : Prop :=
  i ∈ l ∧ eligible p m i = true ∧ ∀ j ∈ l, eligible p m j = true →
    ones (m.counter p i) < ones (m.counter p j) ∨
      (ones (m.counter p i) = ones (m.counter p j) ∧ (m.counter p i).toNat ≤ (m.counter p j).toNat)

/-- LAPA chooses the head of the list. -/
theorem choosePageToSwap_lapa (hsel : c.selection = .LAPA) (h : Queued p d m (a :: l)) :
    wp (choosePageToSwap c p) Q noStop m ↔ Q (some a) m := by
  have hlen := h.listed.length_le
  have ha : a < maxTotalPages := h.listed.lt a (by simp)
  have hhead : (m.proc p).pageListHeadRam = some a := h.listed.isList.head_eq
  have hrun : wp (lapaLoop p maxTotalPages a a (numOfOnes ((m.proc p).pagesMetaData a).page.shiftCounter))
      (fun r m' => r = a ∧ m' = m) noStop m :=
    Queued.lapa_spec (show Queued p _ m ([] ++ a :: l) from h) (by simp at hlen; omega)
  obtain ⟨r, m', hok, rfl, rfl⟩ := wp_noStop_iff.mp hrun
  simp only [choosePageToSwap, wp_bind, wp_getProc, wp_curDir, hhead, hsel, wp_pure, wp_onProc,
    wp_getLink_lt ha, Machine.setProc_self]
  exact wp_of_ok hok

/-- LAPA chooses the least accessed page exactly if that is the head of the list. -/
theorem choosePageToSwap_lapa_iff {a : Nat} (hsel : c.selection = .LAPA)
    (h : Queued p (m.proc p).pgdir m (a :: l)) :
    wp (choosePageToSwap c p) (fun r _ => ∃ i, r = some i ∧ LeastAccessed p m (a :: l) i) noStop m ↔
      LeastAccessed p m (a :: l) a := by
  rw [choosePageToSwap_lapa hsel h]
  simp only [Option.some.injEq, exists_eq_left']

/-- Four heap pages that were accessed equally often. -/
@[irreducible]
def heapPages : Machine := fourPages 3 (fun _ => 0xFFFFFFFF#32) (fun _ => true) (fun _ => false)

theorem heapPages_queued (d : Nat) : Queued 3 d heapPages [0, 1, 2, 3] := by
  unfold heapPages
  exact fourPages_queued (by decide) _ _ _ d

instance (p : Nat) (m : Machine) (l : List Nat) (i : Nat) : Decidable (LeastAccessed p m l i) :=
  inferInstanceAs (Decidable (_ ∧ _ ∧ ∀ j ∈ l, _ → _))

theorem choosePageToSwap_lapa_iff_heapPages :
    wp (choosePageToSwap (sampleConfig .LAPA) 3)
      (fun r _ => ∃ i, r = some i ∧ LeastAccessed 3 heapPages [0, 1, 2, 3] i) noStop heapPages :=
  (choosePageToSwap_lapa_iff rfl (heapPages_queued _)).mpr (by decide +kernel)

/-- The code page, the guard page, the stack page and one heap page, which was never accessed. -/
@[irreducible]
def idleHeap : Machine :=
  fourPages 0 (fun i => if i = 3 then 0#32 else 0xFFFFFFFF#32) (fun v => v != 1) (fun _ => false)

theorem idleHeap_queued (d : Nat) : Queued 3 d idleHeap [0, 1, 2, 3] := by
  unfold idleHeap
  exact fourPages_queued (by decide) _ _ _ d

/-- The code page is chosen, although it is not eligible and the heap page is. -/
theorem choosePageToSwap_lapa_idleHeap :
    Queued 3 (idleHeap.proc 3).pgdir idleHeap [0, 1, 2, 3] ∧
      LeastAccessed 3 idleHeap [0, 1, 2, 3] 3 ∧
      wp (choosePageToSwap (sampleConfig .LAPA) 3)
        (fun r _ => r = some 0 ∧ eligible 3 idleHeap 0 = false) noStop idleHeap := by
  refine ⟨idleHeap_queued _, by decide +kernel, ?_⟩
  rw [choosePageToSwap_lapa rfl (idleHeap_queued 900)]
  exact ⟨rfl, by decide +kernel⟩

/-! ## AQ -/

/-- The update of the advancing queue keeps the list well formed and moves every page by at most
    one place: no accessed page towards the head, no other page towards the tail. An accessed
    page changes places with a successor that was not accessed. All accessed bits are cleared. -/
theorem switchQueueAQ_advances (hfuel : 2 * maxTotalPages ≤ c.fuel) (h : Queued p d m l) :
    wp (switchQueueAQ c p d) (fun _ m' => ∃ l', (m'.proc p).Listed l' ∧ l'.Perm l ∧
      (∀ i ∈ l, l'.idxOf i ≤ l.idxOf i + 1 ∧ l.idxOf i ≤ l'.idxOf i + 1 ∧
        (m.used p d i = true → l.idxOf i ≤ l'.idxOf i) ∧
        (m.used p d i = false → l'.idxOf i ≤ l.idxOf i)) ∧
      (∀ k i j, l[k]? = some i → l[k + 1]? = some j → m.used p d i = true → m.used p d j = false →
        l'[k]? = some j ∧ l'[k + 1]? = some i) ∧
      ∀ i ∈ l, m'.used p d i = false) noStop m := by
  refine wp_post (h.switchQueueAQ_spec hfuel) ?_
  rintro _ m' ⟨hs, hlist⟩
  refine ⟨_, hlist, advance_perm _ l, ?_, ?_, ?_⟩
  · exact fun i hi => advance_idxOf h.listed.isList.nodup hi
  · exact fun k i j hi hj hui huj => advance_exchange hi hj hui huj
  · exact fun i hi => hs.used_of_mem (mem_map_of_mem hi)

/-- Every other page was accessed, the head first. -/
@[irreducible]
def everyOther : Machine := fourPages 0 (fun _ => 0) (fun _ => true) (fun v => v % 2 == 0)

theorem everyOther_queued (d : Nat) : Queued 3 d everyOther [0, 1, 2, 3] := by
  unfold everyOther
  exact fourPages_queued (by decide) _ _ _ d

/-- Each accessed page lets its successor pass. -/
theorem switchQueueAQ_advances_everyOther :
    wp (switchQueueAQ (sampleConfig .AQ) 3 900) (fun _ m' => (m'.proc 3).Listed [1, 0, 3, 2] ∧
      ∀ i ∈ [0, 1, 2, 3], m'.used 3 900 i = false) noStop everyOther := by
  refine wp_post (switchQueueAQ_advances (by decide) (everyOther_queued 900)) ?_
  rintro _ m' ⟨l', hlist, hperm, -, hswap, hclear⟩
  obtain ⟨h0, h1⟩ := hswap 0 0 1 rfl rfl (by decide +kernel) (by decide +kernel)
  obtain ⟨h2, h3⟩ := hswap 2 2 3 rfl rfl (by decide +kernel) (by decide +kernel)
  obtain ⟨a, b, x, y, rfl⟩ := length_eq_four.mp hperm.length_eq
  cases h0
  cases h1
  cases h2
  cases h3
  exact ⟨hlist, hclear⟩

end Xv6Paging
