import Xv6Paging.Lib.ShiftRegister
import Xv6Paging.Process
import Xv6Paging.Quiet

/-! # What the aging counters record

    `update_meta_data` shifts the accessed bit of every page in RAM into the counter of the page.
    A counter is set when its page is allocated, and carried along in the entry when the page goes
    out to the swap file and comes back. It records the accesses since the page came into RAM
    exactly if every page that is read back finds its counter at the initial value.

    The runs are made of the steps in which pages move: one page more, one page out, one page back,
    one update, and the accessed bits that the hardware sets.
-/

namespace Xv6Paging

open List Wp Run Placement Replacement ShiftRegister Function

variable {history : Nat → List Bool} {c : Config} {p : Nat}

/-! ## Runs -/

/-- The steps in which pages come into RAM, leave it, are accessed and are aged. -/
inductive PageOp
  | grow (v : Nat)
  | evict
  | reload (i : Nat)
  | access (v : Nat)
  | update
  deriving DecidableEq

/-- The eviction of `allocuvm`, before a page is allocated. -/
def evictPage (c : Config) (p : Nat) : K Bool := do
  ensureSwapFile p
  match ← choosePageToSwap c p with
  | none => throw .nullDeref
  | some i => moveToDisk c p i

def PageOp.exec (c : Config) (p : Nat) : PageOp → K Unit
  | .grow v => do
    let d ← curDir p
    let _ ← allocPage c p d (pgsize * v) (pgsize * (v + 1)) (pgsize * v)
  | .evict => do
    let _ ← evictPage c p
  | .reload i => do
    let _ ← getPageFromFile p i
  | .access v => hardwareA p v
  | .update => updateMetaData c p

/-- A machine, and for each page its accessed bits at the updates since it came into RAM, the
    most recent one first. -/
structure Watched where
  machine : Machine
  history : Nat → List Bool

/-- An update adds the accessed bit of each page in RAM; a page that comes into RAM starts anew. -/
def observe (p : Nat) (op : PageOp) (m m' : Machine) (history : Nat → List Bool) (v : Nat) :
    List Bool :=
  match op with
  | .update => if (m.pte p v).p = true then (m.pte p v).a :: history v else history v
  | _ => if (m.pte p v).p = false ∧ (m'.pte p v).p = true then [] else history v

def PageOp.watch (c : Config) (p : Nat) (op : PageOp) : EStateM Stop Watched Unit := do
  let w ← get
  onPart Watched.machine (fun w m => { w with machine := m }) (op.exec c p)
  modify fun w' => { w' with history := observe p op w.machine w'.machine w.history }

/-- The counter of every page in RAM is the initial value of the policy, into which the accessed
    bits of the page since it came into RAM have been shifted. -/
def Faithful (c : Config) (p : Nat) (w : Watched) : Prop :=
  ∀ i < maxTotalPages, ((w.machine.proc p).pagesMetaData i).page.state = .inMemory →
    Recorded c.initCounter (w.machine.counter p i) (w.history (w.machine.pageNo p i))

/-- An eviction finds a swap file, or a file entry for a new one. -/
def Machine.filable (m : Machine) (p : Nat) : Prop :=
  (m.proc p).swapFile = none → ∃ fd < nfile, m.ftable fd = 0

/-- The steps are those of a process that can go on: a growth is for a page it does not have and
    finds an entry, or gives up; an eviction leaves a page in RAM and finds a slot; a reload is of
    a page in the swap file and finds a frame. -/
def PageOp.Allowed (p : Nat) (op : PageOp) (w : Watched) : Prop :=
  let m := w.machine
  let pr := m.proc p
  match op with
  | .grow v => v < maxTotalPages ∧ pr.findPage (pgsize * v) = none ∧
      (0 < pr.numPagesRam ∨ (pr.numPagesDisk = 0 ∧ pr.prev 0 = none)) ∧
      (pr.numPagesRam + pr.numPagesDisk < maxTotalPages ∨ pr.numPagesRam = maxPsycPages) ∧
      m.filable p
  | .evict => 1 < pr.numPagesRam ∧ pr.numPagesDisk < swapSlots ∧ m.filable p
  | .reload i => i < maxTotalPages ∧ (pr.pagesMetaData i).page.state = .inDisk ∧
      0 < pr.numPagesRam ∧ m.freelist ≠ []
  | .access _ => True
  | .update => True

variable {m m' m'' : Machine} {T T' T'' : PageMap} {l l' : List Nat} {i v : Nat}

/-! ## One step -/

/-- Steps other than updates: a page that stays in RAM keeps its entry and its counter, and a
    page with another entry was not in RAM. -/
structure Carried (p : Nat) (m : Machine) (T : PageMap) (m' : Machine) (T' : PageMap) : Prop where
  stays : ∀ i < maxTotalPages, ∀ v, T i = .fast v → T' i = .fast v → m'.counter p i = m.counter p i
  comes : ∀ i < maxTotalPages, ∀ v, T' i = .fast v → T i ≠ .fast v →
    ∀ j < maxTotalPages, T j ≠ .fast v

/-- No page comes into RAM. -/
theorem Carried.of_fast (hT : ∀ i v, T' i = .fast v → T i = .fast v)
    (hc : SameCounters (m.proc p) (m'.proc p)) : Carried p m T m' T' where
  stays := fun i _ _ _ _ => hc i
  comes := fun i _ v hT' hne => absurd (hT i v hT') hne

/-- One page comes into RAM. -/
theorem Carried.of_update (hnew : ∀ j < maxTotalPages, T j ≠ .fast v)
    (hc : ∀ j, j ≠ i → m'.counter p j = m.counter p j) :
    Carried p m T m' (update T i (.fast v)) where
  stays := by
    intro j hj w hT hT'
    by_cases hji : j = i
    · subst hji
      simp only [update_self, Entry.fast.injEq] at hT'
      subst hT'
      exact absurd hT (hnew j hj)
    · exact hc j hji
  comes := by
    intro j hj w hT' hne
    by_cases hji : j = i
    · subst hji
      simp only [update_self, Entry.fast.injEq] at hT'
      subst hT'
      exact hnew
    · rw [update_of_ne hji] at hT'
      exact absurd hT' hne

theorem Paged.state_iff (h : Paged c p m T l) (hi : i < maxTotalPages) :
    ((m.proc p).pagesMetaData i).page.state = .inMemory ↔ ∃ v, T i = .fast v := by
  have hent := h.records.entry i hi
  cases hT : T i with
  | free => rw [hT] at hent; simp [hent.1]
  | fast v => rw [hT] at hent; simp [hent.1]
  | slow v s => rw [hT] at hent; simp [hent.1]

/-- The counters of a paged process, entry by entry. -/
theorem Paged.faithful_iff (h : Paged c p w.machine T l) :
    Faithful c p w ↔ ∀ i < maxTotalPages, ∀ v, T i = .fast v →
      Recorded c.initCounter (w.machine.counter p i) (w.history v) := by
  constructor
  · intro hf i hi v hT
    have := hf i hi ((h.state_iff hi).mpr ⟨v, hT⟩)
    rwa [h.pageNo_eq hi hT] at this
  · intro hf i hi hstate
    obtain ⟨v, hT⟩ := (h.state_iff hi).mp hstate
    rw [h.pageNo_eq hi hT]
    exact hf i hi v hT

theorem Paged.present_of_fast (h : Paged c p m T l) (hi : i < maxTotalPages) (hT : T i = .fast v) :
    (m.pte p v).p = true :=
  (h.present_iff (lt_nuserPages (h.records.page_lt hi (by simp [hT])))).mpr ⟨i, hi, hT⟩

/-- A step that is no update keeps the counters faithful exactly if those of the pages that come
    into RAM have the initial value. -/
theorem Carried.faithful_iff {op : PageOp} (hc : Carried p m T m' T') (h : Paged c p m T l)
    (h' : Paged c p m' T' l') (hop : op ≠ .update) (hf : Faithful c p ⟨m, history⟩) :
    Faithful c p ⟨m', observe p op m m' history⟩ ↔ ∀ i < maxTotalPages, ∀ v,
      T' i = .fast v → T i ≠ .fast v → m'.counter p i = c.initCounter := by
  have hobs : ∀ v, observe p op m m' history v =
      if (m.pte p v).p = false ∧ (m'.pte p v).p = true then [] else history v := by
    intro v
    cases op with
    | update => exact absurd rfl hop
    | _ => rfl
  rw [h'.faithful_iff]
  rw [h.faithful_iff] at hf
  refine forall_congr' fun i => forall_congr' fun hi => forall_congr' fun v =>
    forall_congr' fun hT' => ?_
  show Recorded c.initCounter (m'.counter p i) (observe p op m m' history v) ↔ _
  rw [hobs, h'.present_of_fast hi hT']
  by_cases hT : T i = .fast v
  · rw [h.present_of_fast hi hT, if_neg (by simp), hc.stays i hi v hT hT']
    exact ⟨fun _ hne => absurd hT hne, fun _ => hf i hi v hT⟩
  · have hv := h'.records.page_lt hi (show (T' i).key = some v by simp [hT'])
    have hout : (m.pte p v).p = false := by
      by_contra hp
      obtain ⟨j, hj, hTj⟩ := (h.present_iff (lt_nuserPages hv)).mp (by simpa using hp)
      exact hc.comes i hi v hT' hT j hj hTj
    rw [if_pos ⟨hout, rfl⟩, recorded_nil_iff]
    exact ⟨fun hx _ => hx, fun hx => hx hT⟩

/-- NFUA and LAPA choose an entry of the list and leave everything as it is. -/
theorem choosePageToSwap_still (h : Paged c p m T l) (hsel : c.selection = .NFUA ∨ c.selection = .LAPA)
    (hne : l ≠ []) :
    wp (choosePageToSwap c p) (fun r m' => m' = m ∧ ∃ i ∈ l, r = some i) noStop m := by
  obtain ⟨a, ks, rfl⟩ := exists_cons_of_ne_nil hne
  have hq : Queued p (m.proc p).pgdir m ([] ++ a :: ks) := h.queued
  have ha : a < maxTotalPages := h.listed.lt a (by simp)
  have hlen := h.listed.length_le
  have hhead : (m.proc p).pageListHeadRam = some a := h.listed.isList.head_eq
  have hks : ks.length < maxTotalPages := by simp at hlen; omega
  simp only [choosePageToSwap, wp_bind, wp_getProc, wp_curDir, hhead]
  rcases hsel with hsel | hsel
  · simp only [hsel, wp_bind, wp_pure]
    refine wp_post (Queued.nfua_spec hq (by simp) hks) ?_
    rintro r _ ⟨rfl, rfl⟩
    exact ⟨rfl, _, smallest_mem _ _ a ks, rfl⟩
  · simp only [hsel, wp_bind, wp_pure, wp_onProc, wp_getLink_lt ha, Machine.setProc_self]
    refine wp_post (Queued.lapa_spec hq hks) ?_
    rintro r _ ⟨rfl, rfl⟩
    exact ⟨rfl, _, mem_cons_self, rfl⟩

/-- A page goes out, with its counter. -/
theorem evictPage_spec (h : Paged c p m T l) (hsel : c.selection = .NFUA ∨ c.selection = .LAPA)
    (hne : l ≠ []) (hroom : slowCount maxTotalPages T < swapSlots) (hfile : m.filable p) :
    wp (evictPage c p) (fun r m' => r = true ∧ SameCounters (m.proc p) (m'.proc p) ∧
      (m'.proc p).pgdir = (m.proc p).pgdir ∧ ∃ i v t l', i < maxTotalPages ∧ T i = .fast v ∧
        l'.length + 1 = l.length ∧ Paged c p m' (update T i (.slow v t)) l') noStop m := by
  simp only [evictPage, wp_bind]
  refine wp_post (wp_and (ensureSwapFile_moves (s := ⟨m, T, l⟩) h hfile)
    ((keepsCounters_code (c := c)).ensureSwapFile m)) ?_
  rintro _ _ ⟨⟨⟨m1, T1, l1⟩, rfl, hm1, hT1, hl1, hfile1, -⟩, hc1⟩
  obtain rfl : T = T1 := hT1.symm
  obtain rfl : l = l1 := hl1.symm
  have h1 : Paged c p m1 T l := hm1.target h
  refine wp_post (choosePageToSwap_still h1 hsel hne) ?_
  rintro r m2 ⟨hm2, i, hi, rfl⟩
  obtain rfl : m1 = m2 := hm2.symm
  obtain ⟨hilt, v, hv, hT⟩ := h1.records.isFast_of_mem hi
  obtain ⟨xs, ys, rfl⟩ := append_of_mem hi
  refine wp_post (wp_and (moveToDisk_move h1 hT hroom hfile1) (keepsCounters_code.moveToDisk i m1)) ?_
  rintro r m2 ⟨⟨rfl, t, -, hm2⟩, hc2⟩
  refine ⟨rfl, fun j => (hc2 j).trans (hc1 j), ?_, i, v, t, _, hilt, hT, ?_, hm2.target⟩
  · exact (hm2.kept.pgdir).trans hm1.kept.pgdir
  · simp only [length_append, length_cons]
    omega

/-- What a step of a run does: the process stays paged, and its counters stay faithful exactly
    if the step meets the condition. -/
abbrev StepOk (c : Config) (p : Nat) (op : PageOp) (good : Prop) (m : Machine)
    (history : Nat → List Bool) (m' : Machine) : Prop :=
  (∃ T l, Paged c p m' T l) ∧ (Faithful c p ⟨m', observe p op m m' history⟩ ↔ good)

/-- A step in which no page comes into RAM. -/
theorem Carried.stepOk {op : PageOp} (hc : Carried p m T m' T') (h : Paged c p m T l)
    (h' : Paged c p m' T' l') (hop : op ≠ .update) (hf : Faithful c p ⟨m, history⟩)
    (hinit : ∀ i < maxTotalPages, ∀ v,
      T' i = .fast v → T i ≠ .fast v → m'.counter p i = c.initCounter) :
    StepOk c p op True m history m' :=
  ⟨⟨T', l', h'⟩, (hc.faithful_iff h h' hop hf).trans (iff_true_intro hinit)⟩

section Steps

variable (h : Paged c p m T l) (hf : Faithful c p ⟨m, history⟩)
include h hf

theorem access_stepOk :
    wp (hardwareA p v) (fun _ m' => StepOk c p (.access v) True m history m') noStop m := by
  have hstay : StepOk c p (.access v) True m history m :=
    (Carried.of_fast (fun _ _ h => h) (fun _ => rfl)).stepOk h h (by simp) hf
      (fun _ _ _ hT hne => absurd hT hne)
  simp only [hardwareA, wp_bind, wp_get, wp_ite, wp_setPte, wp_pure]
  refine ⟨fun hp => ?_, fun _ => hstay⟩
  have hpte : m.userPte p (v * pgsize) = m.pte p v := by
    simp only [Machine.userPte] at hp ⊢
    split at hp
    · rename_i ht
      rw [if_pos ht, Nat.mul_comm, vpn_mul]
      rfl
    · simp [Pte.zero] at hp
  rw [hpte]
  have hc : Carried p m T (m.setPte (m.proc p).pgdir v ((m.pte p v).setA true)) T :=
    .of_fast (fun _ _ h => h) (fun _ => rfl)
  exact hc.stepOk h (h.setA v true) (by simp) hf (fun _ _ _ hT hne => absurd hT hne)

theorem evict_stepOk (hsel : c.selection = .NFUA ∨ c.selection = .LAPA)
    (hok : PageOp.evict.Allowed p ⟨m, history⟩) :
    wp (PageOp.evict.exec c p) (fun _ m' => StepOk c p .evict True m history m') noStop m := by
  obtain ⟨hram, hdisk, hfile⟩ := hok
  have hne : l ≠ [] := by
    rintro rfl
    have := h.records.length_eq
    simp only [length_nil] at this
    simp only at hram
    omega
  simp only [PageOp.exec, wp_bind, wp_pure]
  refine wp_post (evictPage_spec h hsel hne (by rw [← h.records.disk]; exact hdisk) hfile) ?_
  rintro r m' ⟨-, hc, -, i, v, t, l', hi, hT, -, h'⟩
  have hfast : ∀ j w, update T i (.slow v t) j = .fast w → T j = .fast w := by
    intro j w hj
    by_cases hji : j = i
    · subst hji; simp at hj
    · rwa [update_of_ne hji] at hj
  exact (Carried.of_fast hfast hc).stepOk h h' (by simp) hf
    (fun j _ w hj hne => absurd (hfast j w hj) hne)

/-- A page that is read back brings its counter along. -/
theorem reload_stepOk (hok : (PageOp.reload i).Allowed p ⟨m, history⟩) :
    wp ((PageOp.reload i).exec c p) (fun _ m' =>
      StepOk c p (.reload i) (m.counter p i = c.initCounter) m history m') noStop m := by
  obtain ⟨hi, hstate, hram, hfree⟩ := hok
  have hne : l ≠ [] := by
    rintro rfl
    have := h.records.length_eq
    simp only [length_nil] at this
    simp only at hram
    omega
  obtain ⟨v, t, hT⟩ : ∃ v t, T i = .slow v t := by
    have hent := h.records.entry i hi
    cases hT : T i with
    | free => rw [hT] at hent; simp [hent.1] at hstate
    | fast v => rw [hT] at hent; simp [hent.1] at hstate
    | slow v t => exact ⟨v, t, rfl⟩
  simp only [PageOp.exec, wp_bind, wp_pure]
  refine wp_post (wp_and (getPageFromFile_move h hne hi hT hfree)
    ((keepsCounters_code (c := c)).getPageFromFile i m)) ?_
  rintro r m' ⟨⟨-, -, hm⟩, hc⟩
  have h' : Paged c p m' (update T i (.fast v)) (l ++ [i]) := hm.target
  have hnew : ∀ j < maxTotalPages, T j ≠ .fast v := by
    intro j hj hTj
    obtain rfl := h.records.ok.key_inj (k := v) hj hi (by simp [hTj]) (by simp [hT])
    simp [hT] at hTj
  refine ⟨⟨_, _, h'⟩, ((Carried.of_update hnew fun j _ => hc j).faithful_iff h h' (by simp) hf).trans ?_⟩
  constructor
  · intro hinit
    rw [← hinit i hi v (by simp) (by simp [hT])]
    exact (hc i).symm
  · intro hinit j hj w hT' hne'
    by_cases hji : j = i
    · subst hji
      exact (hc j).trans hinit
    · rw [update_of_ne hji] at hT'
      exact absurd hT' hne'

/-- An update shifts the accessed bit of every page in RAM into its counter. -/
theorem update_stepOk (hsel : c.selection = .NFUA ∨ c.selection = .LAPA) :
    wp (updateMetaData c p) (fun _ m' => StepOk c p .update True m history m') noStop m := by
  have hhead : (m.proc p).pageListHeadRam = l.head? := h.listed.isList.head_eq
  have hq : Queued p (m.proc p).pgdir m ([] ++ l) := h.queued
  have hage : wp (agingLoop p maxTotalPages l.head?)
      (fun _ m' => StepOk c p .update True m history m') noStop m := by
    refine wp_post (Queued.aging_spec hq h.listed.length_le) ?_
    rintro _ m' ⟨hs, hlist, hcounter⟩
    have h' : Paged c p m' T l := h.stirred hs.stirred hlist (List.Perm.refl _)
    refine ⟨⟨T, l, h'⟩, iff_true_intro (h'.faithful_iff.mpr fun i hi v hT => ?_)⟩
    have hil : i ∈ l := (h.records.mem_iff i).mpr ⟨hi, by simp [hT]⟩
    have hrec := (h.faithful_iff.mp hf i hi v hT).shiftIn (m.pte p v).a
    have haged : m.aged p i = shiftIn (m.pte p v).a (m.counter p i) := by
      have hused : m.used p (m.proc p).pgdir i = (m.pte p v).a := by
        rw [Machine.used, h.pageNo_eq hi hT]
        rfl
      rw [Machine.aged, hused]
      rfl
    show Recorded c.initCounter (m'.counter p i) (observe p .update m m' history v)
    simp only [observe, h.present_of_fast hi hT, if_true]
    rw [hcounter, if_pos hil, haged]
    exact hrec
  simp only [updateMetaData, wp_bind, wp_getProc, hhead]
  rcases hsel with hsel | hsel
  · simp only [hsel]
    exact hage
  · simp only [hsel]
    exact hage

end Steps

/-! ## Growing -/

/-- A growth by one page that finds no frame has nothing to release. -/
theorem deallocuvm_untracked (h : Paged c p m T l) (hv : v < maxTotalPages) (hnew : ¬ Tracked T v) :
    wp (deallocuvm c p (m.proc p).pgdir (pgsize * (v + 1)) (pgsize * v)) (fun _ m' => m' = m) noStop
      m := by
  obtain ⟨hp, hpg⟩ := h.toPlaced.unmapped (lt_nuserPages hv) hnew
  have hle : ¬ pgsize * (v + 1) ≤ pgsize * v := by simp only [pgsize]; omega
  have hlt : pgsize * v < pgsize * (v + 1) := by simp only [pgsize]; omega
  have hround : pgroundup (pgsize * v) = pgsize * v := by
    rw [pgroundup_eq (by simp only [pgsize, maxTotalPages] at *; omega)]
    simp only [npages, pgsize]
    omega
  have hend : ¬ pgsize * v + pgsize < pgsize * (v + 1) := by simp only [pgsize]; omega
  have hdiv : pgsize * (v + 1) / pgsize = v + 1 := pgsize_mul_div (v + 1)
  simp only [deallocuvm, if_neg hle, wp_bind, hround, hdiv, wp_pure]
  rw [deallocLoop, if_pos hlt, wp_bind, wp_walkpgdir_mapped _ h.live (h.mapped hv)]
  simp only [vpn_mul, wp_bind, wp_getPte_own, wp_getProc, hp, hpg, Bool.false_eq_true, and_false,
    false_and, if_false]
  rw [deallocLoop, if_neg hend, wp_pure]

/-- What `makeRoom` does under NFUA and LAPA. -/
theorem makeRoom_carried (h : Paged c p m T l) (hpages : c.pages p)
    (hsel : c.selection = .NFUA ∨ c.selection = .LAPA) (hfile : m.filable p)
    (hfirst : l = [] → T 0 = .free ∧ (m.proc p).prev 0 = none)
    (hroom : (m.proc p).numPagesRam + (m.proc p).numPagesDisk < maxTotalPages ∨
      (m.proc p).numPagesRam = maxPsycPages) :
    wp (makeRoom c p) (fun r m1 => SameCounters (m.proc p) (m1.proc p) ∧
      (m1.proc p).pgdir = (m.proc p).pgdir ∧ ∃ T1 l1, Paged c p m1 T1 l1 ∧
        (∀ i v, T1 i = .fast v → T i = .fast v) ∧ (∀ v, Tracked T1 v ↔ Tracked T v) ∧
        (r = true → fastCount maxTotalPages T1 + slowCount maxTotalPages T1 < maxTotalPages ∧
          (l1 = [] → T1 0 = .free ∧ (m1.proc p).prev 0 = none))) noStop m := by
  have hrec := h.records
  have hlen := hrec.length_eq
  simp only [makeRoom, if_pos hpages, wp_bind, wp_getProc]
  by_cases hram : (m.proc p).numPagesRam = maxPsycPages
  · rw [if_pos hram]
    by_cases hdisk : (m.proc p).numPagesDisk + maxPsycPages = maxTotalPages
    · rw [if_pos hdisk, wp_pure]
      exact ⟨fun _ => rfl, rfl, T, l, h, fun _ _ h => h, fun _ => Iff.rfl, fun hr => by simp at hr⟩
    · rw [if_neg hdisk]
      have hne : l ≠ [] := by
        rintro rfl
        rw [hram] at hlen
        simp [maxPsycPages] at hlen
      have htotal := total_le maxTotalPages T
      rw [← hrec.ram, ← hrec.disk, hram] at htotal
      have hslots : slowCount maxTotalPages T < swapSlots := by
        rw [← hrec.disk]
        simp only [maxPsycPages, maxTotalPages, swapSlots] at *
        omega
      refine wp_post (evictPage_spec h hsel hne hslots hfile) ?_
      rintro r m1 ⟨-, hc, hdir, i, v, t, l1, hi, hT, hl1, h1⟩
      have e1 := fastCount_update (T := T) (.slow v t) hi
      have e2 := slowCount_update (T := T) (.slow v t) hi
      simp only [hT, Entry.isFast_fast, Entry.isFast_slow, Entry.isSlow_fast, Entry.isSlow_slow,
        Bool.toNat_true, Bool.toNat_false] at e1 e2
      refine ⟨hc, hdir, _, l1, h1, ?_, ?_, fun _ => ⟨?_, ?_⟩⟩
      · intro j w hj
        by_cases hji : j = i
        · subst hji; simp at hj
        · rwa [update_of_ne hji] at hj
      · intro w
        exact tracked_update hi (by simp [hT])
      · rw [hrec.disk] at hdisk htotal
        rw [hrec.ram] at hram
        omega
      · rintro rfl
        rw [length_nil, hlen, hram] at hl1
        simp [maxPsycPages] at hl1
  · rw [if_neg hram, wp_pure]
    refine ⟨fun _ => rfl, rfl, T, l, h, fun _ _ h => h, fun _ => Iff.rfl, fun _ => ⟨?_, hfirst⟩⟩
    rw [← hrec.ram, ← hrec.disk]
    exact hroom.resolve_right hram

/-- A new page starts with the initial counter. -/
theorem grow_stepOk (h : Paged c p m T l) (hf : Faithful c p ⟨m, history⟩) (hpages : c.pages p)
    (hsel : c.selection = .NFUA ∨ c.selection = .LAPA)
    (hok : (PageOp.grow v).Allowed p ⟨m, history⟩) :
    wp ((PageOp.grow v).exec c p) (fun _ m' => StepOk c p (.grow v) True m history m') noStop m := by
  obtain ⟨hv, hfind, hpos, hroom, hfile⟩ := hok
  have hrec := h.records
  have hnew : ¬ Tracked T v := by
    rintro ⟨i, hi, hT⟩
    have := hrec.toRecorded.findPage_eq hi hT
    rw [hfind] at this
    cases this
  have hfirst : l = [] → T 0 = .free ∧ (m.proc p).prev 0 = none := by
    rintro rfl
    have hzero : (m.proc p).numPagesRam = 0 := hrec.length_eq.symm
    obtain hram | ⟨hdisk, hprev⟩ := hpos
    · simp only at hram
      omega
    · refine ⟨?_, hprev⟩
      have h0 : 0 < maxTotalPages := by decide
      rw [hrec.ram] at hzero
      simp only [hrec.disk] at hdisk
      cases hT : T 0 with
      | free => rfl
      | fast w =>
        have : 0 < fastCount maxTotalPages T := count_pos h0 (by simp [hT])
        omega
      | slow w t =>
        have : 0 < slowCount maxTotalPages T := count_pos h0 (by simp [hT])
        omega
  simp only [PageOp.exec, wp_bind, wp_curDir, h.global, allocPage]
  refine wp_post (makeRoom_carried h hpages hsel hfile hfirst hroom) ?_
  rintro r m1 ⟨hc1, hdir, T1, l1, h1, hfast, htr, hroom1⟩
  have hnew1 : ¬ Tracked T1 v := fun ht => hnew ((htr v).mp ht)
  -- The growth gives up: pages may have gone out, none has come in.
  have hstop : StepOk c p (.grow v) True m history m1 :=
    (Carried.of_fast hfast hc1).stepOk h h1 (by simp) hf
      (fun i _ w hT hne => absurd (hfast i w hT) hne)
  cases r with
  | false => simpa using hstop
  | true =>
    obtain ⟨hcount, hfirst1⟩ := hroom1 rfl
    simp only [if_true, wp_bind, wp_kalloc]
    refine ⟨fun _ => ?_, fun f rest hfree => ?_⟩
    · simp only [Option.getD_none, ← hdir, wp_pure]
      refine wp_post (deallocuvm_untracked h1 hv hnew1) ?_
      rintro _ m2 rfl
      exact hstop
    · simp only [Option.getD_none, wp_modify, ← hdir]
      rw [wp_mappages_mapped _ (by simpa using h1.live) (by simpa using h1.mapped hv)
        (by simpa [Machine.pte] using (h1.toPlaced.unmapped (lt_nuserPages hv) hnew1).1)]
      simp only [if_true, if_pos hpages, wp_bind, vpn_mul, wp_pure]
      refine wp_post (addPage_move h1 hfirst1 hcount hv hnew1 hfree) ?_
      rintro _ m2 ⟨i, hi, hT, hm, hcounter, -⟩
      have h2 : Paged c p m2 (update T1 i (.fast v)) (l1 ++ [i]) := hm.target
      have hstay : ∀ j w, j ≠ i → update T1 i (.fast v) j = .fast w → T j = .fast w := by
        intro j w hji hj
        rw [update_of_ne hji] at hj
        exact hfast j w hj
      have hout : ∀ j < maxTotalPages, T j ≠ .fast v := fun j hj hTj => hnew ⟨j, hj, by simp [hTj]⟩
      have hcarried : Carried p m T m2 (update T1 i (.fast v)) := by
        refine ⟨fun j hj w hTj hTj' => ?_, fun j hj w hTj' hne => ?_⟩
        · have hji : j ≠ i := by
            rintro rfl
            simp only [update_self, Entry.fast.injEq] at hTj'
            exact hout j hj (hTj' ▸ hTj)
          rw [hcounter, if_neg hji]
          exact hc1 j
        · have hji : j = i := by
            by_contra hji
            exact hne (hstay j w hji hTj')
          subst hji
          simp only [update_self, Entry.fast.injEq] at hTj'
          exact hTj' ▸ hout
      refine hcarried.stepOk h h2 (by simp) hf fun j _ w hTj' hne => ?_
      have hji : j = i := by
        by_contra hji
        exact hne (hstay j w hji hTj')
      rw [hcounter, if_pos hji]

/-! ## The counters over whole runs -/

instance (m : Machine) (p : Nat) : Decidable (m.filable p) :=
  inferInstanceAs (Decidable (_ → ∃ fd < nfile, m.ftable fd = 0))

instance (p : Nat) (op : PageOp) (w : Watched) : Decidable (op.Allowed p w) := by
  unfold PageOp.Allowed
  cases op <;> infer_instance

/-- The page that a step reads back finds its counter at the initial value. -/
def PageOp.StartsAnew (c : Config) (p : Nat) (op : PageOp) (w : Watched) : Prop :=
  match op with
  | .reload i => w.machine.counter p i = c.initCounter
  | _ => True

instance (c : Config) (p : Nat) (op : PageOp) (w : Watched) : Decidable (op.StartsAnew c p w) :=
  match op with
  | .reload i => inferInstanceAs (Decidable (w.machine.counter p i = c.initCounter))
  | .grow _ => .isTrue trivial
  | .evict => .isTrue trivial
  | .access _ => .isTrue trivial
  | .update => .isTrue trivial

theorem watch_stepOk (hpages : c.pages p) (hsel : c.selection = .NFUA ∨ c.selection = .LAPA)
    (op : PageOp) (w : Watched) (h : ∃ T l, Paged c p w.machine T l) (hf : Faithful c p w)
    (hok : op.Allowed p w) :
    wp (op.watch c p) (fun _ w' => (∃ T l, Paged c p w'.machine T l) ∧
      (Faithful c p w' ↔ op.StartsAnew c p w)) noStop w := by
  obtain ⟨T, l, h⟩ := h
  obtain ⟨m, history⟩ := w
  simp only [PageOp.watch, wp_bind, wp_get, wp_onPart, wp_modify]
  cases op with
  | grow v => exact grow_stepOk h hf hpages hsel hok
  | evict => exact evict_stepOk h hf hsel hok
  | reload i => exact reload_stepOk h hf hok
  | access v => exact access_stepOk h hf
  | update => exact update_stepOk h hf hsel

/-- The counters of a process record its accesses since each page came into RAM, in every state
    of a run, exactly if no page of the run is read back with a counter other than the initial
    one. -/
theorem counters_faithful_iff {w : Watched} {ops : List PageOp} (hpages : c.pages p)
    (hsel : c.selection = .NFUA ∨ c.selection = .LAPA) (h : Paged c p w.machine T l)
    (hf : Faithful c p w) (hok : Along (PageOp.watch c p) (PageOp.Allowed p) ops w) :
    (∀ pre, pre <+: ops → Faithful c p (final (run (PageOp.watch c p) pre) w)) ↔
      Along (PageOp.watch c p) (PageOp.StartsAnew c p) ops w :=
  forall_reached_iff (watch_stepOk hpages hsel) ⟨T, l, h⟩ hf hok

/-- The sample process, none of whose pages has been aged. -/
@[irreducible]
def watchedSample : Watched := ⟨sample (sampleConfig .NFUA) 40, fun _ => []⟩

theorem watchedSample_paged :
    Paged (sampleConfig .NFUA) 3 watchedSample.machine sampleMap [0, 1, 2] := by
  unfold watchedSample
  exact sample_paged .NFUA (by decide)

theorem watchedSample_faithful : Faithful (sampleConfig .NFUA) 3 watchedSample := by
  rw [watchedSample_paged.faithful_iff]
  unfold watchedSample
  intro i hi v hT
  refine recorded_nil_iff.mpr ?_
  have hcounter : ∀ i < maxTotalPages, (sample (sampleConfig .NFUA) 40).counter 3 i =
      (sampleConfig .NFUA).initCounter := by decide +kernel
  exact hcounter i hi

/-- A page is read back before any update has seen it accessed. -/
theorem counters_faithful_iff_untouched :
    Along (PageOp.watch (sampleConfig .NFUA) 3) (PageOp.Allowed 3)
      [.evict, .access 2, .reload 0, .update] watchedSample ∧
    ∀ pre, pre <+: [.evict, .access 2, .reload 0, .update] → Faithful (sampleConfig .NFUA) 3
      (final (run (PageOp.watch (sampleConfig .NFUA) 3) pre) watchedSample) := by
  have hok : Along (PageOp.watch (sampleConfig .NFUA) 3) (PageOp.Allowed 3)
      [.evict, .access 2, .reload 0, .update] watchedSample := by
    unfold watchedSample
    decide +kernel
  refine ⟨hok, (counters_faithful_iff (by decide) (.inl rfl) watchedSample_paged
    watchedSample_faithful hok).mpr ?_⟩
  unfold watchedSample
  decide +kernel

/-- Page 0 is accessed, aged, goes out and comes back. -/
def residencies : List PageOp := [.access 0, .access 2, .update, .evict, .reload 0]

/-- The counter of a page that has come back still has the bit of its earlier residency. -/
theorem counters_survive_reload :
    Along (PageOp.watch (sampleConfig .NFUA) 3) (PageOp.Allowed 3) residencies watchedSample ∧
    ¬ Faithful (sampleConfig .NFUA) 3
      (final (run (PageOp.watch (sampleConfig .NFUA) 3) residencies) watchedSample) := by
  refine ⟨by unfold watchedSample; decide +kernel, fun hf => ?_⟩
  have hstate : (((final (run (PageOp.watch (sampleConfig .NFUA) 3) residencies)
      watchedSample).machine.proc 3).pagesMetaData 0).page.state = .inMemory := by
    unfold watchedSample; decide +kernel
  have hcounter : (final (run (PageOp.watch (sampleConfig .NFUA) 3) residencies)
      watchedSample).machine.counter 3 0 = 0x80000000#32 := by
    unfold watchedSample; decide +kernel
  have hhistory : (final (run (PageOp.watch (sampleConfig .NFUA) 3) residencies)
      watchedSample).history ((final (run (PageOp.watch (sampleConfig .NFUA) 3) residencies)
      watchedSample).machine.pageNo 3 0) = [] := by
    unfold watchedSample; decide +kernel
  have hrec := hf 0 (by decide) hstate
  rw [hcounter, hhistory, recorded_nil_iff] at hrec
  exact absurd hrec (by decide)

end Xv6Paging
