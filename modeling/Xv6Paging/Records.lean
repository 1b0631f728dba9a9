import Xv6Paging.Lib.Placement
import Xv6Paging.RamListSpec

/-! # What the metadata of a process records

    The purpose of `pages_meta_data`, `available_Offsets` and the two counters is
    to record where the pages of the process are: a table of
    `MAX_TOTAL_PAGES` entries that are free, hold a page in RAM, or a page in a
    slot of the swap file. `Proc.Records pr T l` says that the fields of `pr`
    record the table `T`, with the pages in RAM listed in the order `l`.

    Evicting, loading, adding and dropping a page are updates of one entry of
    the table.
-/

namespace Xv6Paging

open List Wp DList Placement Function

variable {page : PageMetaData} {e : Entry Nat} {test : PageMetaData → Bool} {l' : List Nat}
  {addr index j : Nat} {c : Config} {E : Stop → Proc → Prop}

/-- A table of page numbers. -/
abbrev PageMap : Type := Nat → Entry Nat

/-- The fields of an entry say that its page is where `e` says. -/
def PageMetaData.Is (page : PageMetaData) : Entry Nat → Prop
  | .free => page.state = .notUsed ∧ page.pageId = noPage
  | .fast v => page.state = .inMemory ∧ page.pageId = pgsize * v
  | .slow v s => page.state = .inDisk ∧ page.pageId = pgsize * v ∧ page.offsetInFile = pgsize * s

/-- The metadata of a process record the table `T`, whatever the RAM list has become. -/
structure Proc.Recorded (pr : Proc) (T : PageMap) : Prop where
  entry : ∀ i < maxTotalPages, (pr.pagesMetaData i).page.Is (T i)
  ram : pr.numPagesRam = fastCount maxTotalPages T
  disk : pr.numPagesDisk = slowCount maxTotalPages T
  offsets : ∀ s < swapSlots,
    pr.availableOffsets s = true ↔ ∃ i < maxTotalPages, (T i).slot = some s
  ok : Placement.Ok maxTotalPages swapSlots T
  page_lt : ∀ {i v : Nat}, i < maxTotalPages → (T i).key = some v → v < maxTotalPages

/-- The metadata of a process records the table `T`; its RAM list is `l`. -/
structure Proc.Records (pr : Proc) (T : PageMap) (l : List Nat) : Prop extends pr.Recorded T where
  listed : pr.Listed l
  mem_iff : ∀ i, i ∈ l ↔ i < maxTotalPages ∧ (T i).isFast = true

variable {pr pr' : Proc} {T : PageMap} {l xs ys : List Nat} {i v s : Nat}

/-! ## Reading the record -/

theorem Proc.Records.length_eq (h : pr.Records T l) : l.length = pr.numPagesRam := by
  rw [h.ram]
  exact length_eq_fastCount h.listed.isList.nodup h.mem_iff

theorem Proc.Records.isFast_of_mem (h : pr.Records T l) (hi : i ∈ l) :
    i < maxTotalPages ∧ ∃ v, v < maxTotalPages ∧ T i = .fast v := by
  obtain ⟨hlt, hf⟩ := (h.mem_iff i).mp hi
  refine ⟨hlt, ?_⟩
  cases hT : T i with
  | free => simp [hT] at hf
  | fast v => exact ⟨v, h.page_lt hlt (by simp [hT]), rfl⟩
  | slow v s => simp [hT] at hf

/-- An entry with the address of page `v` holds page `v`. -/
theorem PageMetaData.Is.key_iff (h : page.Is e) :
    page.pageId = pgsize * v ↔ e.key = some v := by
  cases e with
  | free =>
    obtain ⟨-, hid⟩ := h
    simp only [hid, noPage, pgsize, Entry.key_free]
    constructor
    · intro h'; omega
    · simp
  | fast w =>
    obtain ⟨-, hid⟩ := h
    simp only [hid, pgsize, Entry.key_fast, Option.some.injEq]
    omega
  | slow w s =>
    obtain ⟨-, hid, -⟩ := h
    simp only [hid, pgsize, Entry.key_slow, Option.some.injEq]
    omega

theorem PageMetaData.Is.notUsed_iff (h : page.Is e) :
    page.state = .notUsed ↔ e = .free := by
  cases e with
  | free => simp [h.1]
  | fast w => simp [h.1]
  | slow w s => simp [h.1]

theorem PageMetaData.Is.inDisk_iff (h : page.Is e) :
    page.state = .inDisk ↔ e.isSlow = true := by
  cases e with
  | free => simp [h.1]
  | fast w => simp [h.1]
  | slow w s => simp [h.1]

theorem PageMetaData.Is.inMemory_iff (h : page.Is e) :
    page.state = .inMemory ↔ e.isFast = true := by
  cases e with
  | free => simp [h.1]
  | fast w => simp [h.1]
  | slow w s => simp [h.1]

theorem findLink_some (h : pr.findLink test = some i) :
    i < maxTotalPages ∧ test (pr.pagesMetaData i).page = true := by
  unfold Proc.findLink at h
  have htest := find?_some h
  exact ⟨mem_range.mp (mem_of_find?_eq_some h), htest⟩

theorem findLink_none (h : pr.findLink test = none) (hi : i < maxTotalPages) :
    test (pr.pagesMetaData i).page = false := by
  unfold Proc.findLink at h
  rw [find?_eq_none] at h
  simpa using h i (mem_range.mpr hi)

/-- The scan for a page finds its entry. -/
theorem Proc.Recorded.findPage_eq (h : pr.Recorded T) (hi : i < maxTotalPages)
    (hT : (T i).key = some v) : pr.findPage (pgsize * v) = some i := by
  unfold Proc.findPage Proc.findLink
  rw [find?_range_eq_some]
  refine ⟨?_, by simpa using hi, ?_⟩
  · simp only [beq_iff_eq]
    exact (h.entry i hi).key_iff.mpr hT
  · intro j hj
    have hj' : j < maxTotalPages := by omega
    simp only [Bool.not_eq_true', beq_eq_false_iff_ne, ne_eq]
    intro hid
    have hkey := (h.entry j hj').key_iff.mp hid
    have := h.ok.key_inj hj' hi hkey hT
    omega

theorem Proc.Recorded.findPage_none (h : pr.Recorded T)
    (hnew : ∀ i < maxTotalPages, (T i).key ≠ some v) : pr.findPage (pgsize * v) = none := by
  unfold Proc.findPage Proc.findLink
  rw [find?_eq_none]
  intro i hi
  have hi' : i < maxTotalPages := mem_range.mp hi
  simp only [beq_iff_eq]
  intro hid
  exact hnew i hi' ((h.entry i hi').key_iff.mp hid)

/-- The scan for an unused entry finds a free one while there is one. -/
theorem Proc.Recorded.findState_notUsed (h : pr.Recorded T)
    (hroom : pr.numPagesRam + pr.numPagesDisk < maxTotalPages) :
    ∃ i < maxTotalPages, pr.findState .notUsed = some i ∧ T i = .free := by
  rw [h.ram, h.disk] at hroom
  obtain ⟨j, hj, hfree⟩ := exists_free_entry hroom
  cases hf : pr.findState .notUsed with
  | none =>
    have hne := findLink_none hf hj
    simp [(h.entry j hj).notUsed_iff.mpr hfree] at hne
  | some i =>
    obtain ⟨hi, hst⟩ := findLink_some hf
    exact ⟨i, hi, rfl, (h.entry i hi).notUsed_iff.mp (by simpa using hst)⟩

/-- While not all slots are taken, `nextAvOffset` returns the lowest free one. -/
theorem Proc.Recorded.nextAvOffset_eq (h : pr.Recorded T) (hroom : pr.numPagesDisk < swapSlots) :
    ∃ s < swapSlots, pr.nextAvOffset = some s ∧ pr.availableOffsets s = false ∧
      ∀ t < s, pr.availableOffsets t = true := by
  rw [h.disk] at hroom
  obtain ⟨t, ht, hfree⟩ := exists_free_slot hroom
  have htf : pr.availableOffsets t = false := by
    by_contra hne
    obtain ⟨i, hi, hsl⟩ := (h.offsets t ht).mp (by simpa using hne)
    exact hfree i hi hsl
  cases hf : pr.nextAvOffset with
  | none =>
    unfold Proc.nextAvOffset at hf
    rw [find?_eq_none] at hf
    have := hf t (mem_range.mpr ht)
    simp [htf] at this
  | some s =>
    have hs := hf
    unfold Proc.nextAvOffset at hs
    rw [find?_range_eq_some] at hs
    obtain ⟨h1, h2, h3⟩ := hs
    refine ⟨s, by simpa using h2, rfl, by simpa using h1, ?_⟩
    intro r hr
    simpa using h3 r hr

/-! ## Changing the record -/

/-- Reordering the list and changing counters does not change the record. -/
theorem Shuffled.is_iff (h : Shuffled pr pr') (i : Nat) (e : Entry Nat) :
    (pr'.pagesMetaData i).page.Is e ↔ (pr.pagesMetaData i).page.Is e := by
  rw [h.page i]
  cases e <;> exact Iff.rfl

theorem Proc.Recorded.shuffled (h : pr.Recorded T) (hs : Shuffled pr pr') : pr'.Recorded T where
  entry := fun i hi => (hs.is_iff i _).mpr (h.entry i hi)
  ram := by rw [hs.rest]; exact h.ram
  disk := by rw [hs.rest]; exact h.disk
  offsets := fun s hs' => by rw [hs.rest]; exact h.offsets s hs'
  ok := h.ok
  page_lt := h.page_lt

theorem Proc.Records.shuffled (h : pr.Records T l) (hs : Shuffled pr pr') (hl : pr'.Listed l')
    (hperm : l'.Perm l) : pr'.Records T l' :=
  ⟨h.toRecorded.shuffled hs, hl, fun i => by rw [hperm.mem_iff]; exact h.mem_iff i⟩

/-- Changing entry `i` of the record to `e`. -/
theorem Proc.Recorded.set (h : pr.Recorded T) (hi : i < maxTotalPages)
    (hok : Placement.Ok maxTotalPages swapSlots (update T i e))
    (hlt : ∀ v, e.key = some v → v < maxTotalPages) (hentry : (pr'.pagesMetaData i).page.Is e)
    (hother : ∀ j, j ≠ i → ∀ x, (pr.pagesMetaData j).page.Is x → (pr'.pagesMetaData j).page.Is x)
    (hram : pr'.numPagesRam + (T i).isFast.toNat = pr.numPagesRam + e.isFast.toNat)
    (hdisk : pr'.numPagesDisk + (T i).isSlow.toNat = pr.numPagesDisk + e.isSlow.toNat)
    (hoff : ∀ s < swapSlots, pr'.availableOffsets s = true ↔
      e.slot = some s ∨ (pr.availableOffsets s = true ∧ (T i).slot ≠ some s)) :
    pr'.Recorded (update T i e) := by
  refine ⟨?_, ?_, ?_, ?_, hok, ?_⟩
  · intro j hj
    by_cases hji : j = i
    · subst hji; simpa using hentry
    · rw [update_of_ne hji]; exact hother j hji _ (h.entry j hj)
  · have := fastCount_update (T := T) e hi
    rw [h.ram] at hram
    omega
  · have := slowCount_update (T := T) e hi
    rw [h.disk] at hdisk
    omega
  · intro s hs
    rw [hoff s hs, h.offsets s hs, exists_update (fun y => y.slot = some s) e hi]
    refine or_congr_right ⟨?_, ?_⟩
    · rintro ⟨⟨j, hj, hjs⟩, hne⟩
      exact ⟨j, hj, fun hji => hne (hji ▸ hjs), hjs⟩
    · rintro ⟨j, hj, hji, hjs⟩
      exact ⟨⟨j, hj, hjs⟩, fun his => hji (h.ok.slot_inj hj hi hjs his)⟩
  · intro j w hj hk
    by_cases hji : j = i
    · subst hji; exact hlt w (by simpa using hk)
    · rw [update_of_ne hji] at hk
      exact h.page_lt hj hk

/-- The list of a table in which entry `i` has been changed to `e`. -/
theorem Proc.Records.mem_update (h : pr.Records T l) (hi : i < maxTotalPages)
    (hmem : ∀ j, j ∈ l' ↔ if j = i then e.isFast = true else j ∈ l) (j : Nat) :
    j ∈ l' ↔ j < maxTotalPages ∧ (update T i e j).isFast = true := by
  rw [hmem j]
  by_cases hji : j = i
  · subst hji; simpa using fun _ => hi
  · simp [hji, h.mem_iff j]

/-! ## The operations on one `struct proc` -/

/-- What `movePageToFile` writes into the metadata. -/
def Proc.markOut (pr : Proc) (i s : Nat) : Proc :=
  { pr.setPage i fun page => { page with offsetInFile := pgsize * s, state := .inDisk } with
    availableOffsets := update pr.availableOffsets s true
    numPagesDisk := pr.numPagesDisk + 1 }

/-- What `getPageFromFile` writes into the metadata, the list apart. -/
def Proc.markIn (pr : Proc) (i s : Nat) : Proc :=
  { pr.setPage i fun page => { page with offsetInFile := noOffset, state := .inMemory } with
    availableOffsets := update pr.availableOffsets s false
    numPagesRam := pr.numPagesRam + 1
    numPagesDisk := pr.numPagesDisk - 1 }

@[simp] theorem setNext_page (j : Nat) (x : Option Nat) :
    ((pr.setNext i x).pagesMetaData j).page = (pr.pagesMetaData j).page := by
  by_cases h : j = i <;> simp [Proc.setNext, Proc.setLink, h]

@[simp] theorem setPrev_page (j : Nat) (x : Option Nat) :
    ((pr.setPrev i x).pagesMetaData j).page = (pr.pagesMetaData j).page := by
  by_cases h : j = i <;> simp [Proc.setPrev, Proc.setLink, h]

@[simp] theorem setPage_page_self (f : PageMetaData → PageMetaData) :
    ((pr.setPage i f).pagesMetaData i).page = f (pr.pagesMetaData i).page := by
  simp [Proc.setPage, Proc.setLink]

theorem setPage_page_ne (f : PageMetaData → PageMetaData) (h : j ≠ i) :
    ((pr.setPage i f).pagesMetaData j).page = (pr.pagesMetaData j).page := by
  simp [Proc.setPage, Proc.setLink, h]

/-- Links and head of a process that only differs in pages and counters. -/
theorem Proc.Listed.congr (h : pr.Listed l) (hn : pr'.next = pr.next) (hp : pr'.prev = pr.prev)
    (hh : pr'.pageListHeadRam = pr.pageListHeadRam) : pr'.Listed l := by
  refine ⟨?_, h.lt⟩
  rw [hn, hp, hh]
  exact h.isList

theorem Proc.Listed.setPage (h : pr.Listed l) (i : Nat) (f : PageMetaData → PageMetaData) :
    (pr.setPage i f).Listed l :=
  h.congr (setPage_next pr i f) (setPage_prev pr i f) rfl

theorem Proc.Listed.markOut (h : pr.Listed l) (i s : Nat) : (pr.markOut i s).Listed l :=
  (h.setPage i fun page => { page with offsetInFile := pgsize * s, state := .inDisk }).congr
    rfl rfl rfl

theorem Proc.Listed.markIn (h : pr.Listed l) (i s : Nat) : (pr.markIn i s).Listed l :=
  (h.setPage i fun page => { page with offsetInFile := noOffset, state := .inMemory }).congr
    rfl rfl rfl

/-- Marking a page as paged out evicts it. -/
theorem Proc.Recorded.evict (h : pr.Recorded T) (hi : i < maxTotalPages) (hT : T i = .fast v)
    (hs : s < swapSlots) (hfree : pr.availableOffsets s = false)
    (hsh : Shuffled (pr.markOut i s).countOut pr') :
    pr'.lessRam.Recorded (update T i (.slow v s)) := by
  have hnofree : ∀ j < maxTotalPages, (T j).slot ≠ some s := by
    intro j hj hjs
    have := (h.offsets s hs).mpr ⟨j, hj, hjs⟩
    simp [hfree] at this
  have hpos : 0 < pr.numPagesRam := by
    rw [h.ram]
    exact count_pos hi (by simp [hT])
  refine h.set hi (h.ok.evict hi hT hs hnofree) ?_ ?_ ?_ ?_ ?_ ?_
  · intro w hw
    exact h.page_lt hi (by simpa [hT] using hw)
  · refine (hsh.is_iff i _).mpr ?_
    have hid := h.entry i hi
    rw [hT] at hid
    simp only [Proc.countOut, Proc.markOut, setPage_page_self]
    exact ⟨rfl, hid.2, rfl⟩
  · intro j hji x hx
    refine (hsh.is_iff j x).mpr ?_
    simp only [Proc.countOut, Proc.markOut]
    rwa [setPage_page_ne _ hji]
  · have hram : pr'.numPagesRam = pr.numPagesRam := by rw [hsh.rest]; rfl
    simp only [Proc.lessRam, hram, hT, Entry.isFast_fast, Entry.isFast_slow, Bool.toNat_true, Bool.toNat_false]
    omega
  · have hdisk : pr'.numPagesDisk = pr.numPagesDisk + 1 := by rw [hsh.rest]; rfl
    simp [Proc.lessRam, hdisk, hT]
  · intro t _
    have hav : pr'.availableOffsets = update pr.availableOffsets s true := by
      rw [hsh.rest]; rfl
    by_cases hts : t = s
    · subst hts; simp [Proc.lessRam, hav]
    · simp [Proc.lessRam, hav, hts, hT, Ne.symm hts]

/-- Marking a page as paged out and taking it off the list evicts it. -/
theorem Proc.Records.evict (h : pr.Records T (xs ++ i :: ys)) (hT : T i = .fast v)
    (hs : s < swapSlots) (hfree : pr.availableOffsets s = false)
    (hsh : Shuffled (pr.markOut i s).countOut pr')
    (hl : pr'.Listed (xs ++ ys)) :
    pr'.lessRam.Records (update T i (.slow v s)) (xs ++ ys) := by
  have hi : i < maxTotalPages := h.listed.lt i (by simp)
  have hnd := h.listed.isList.nodup
  simp only [nodup_append, nodup_cons, mem_cons] at hnd
  obtain ⟨-, ⟨hiy, -⟩, hdis⟩ := hnd
  have hix : i ∉ xs := fun hix => hdis i hix i (.inl rfl) rfl
  refine ⟨h.toRecorded.evict hi hT hs hfree hsh, hl.congr rfl rfl rfl, ?_⟩
  refine h.mem_update hi fun j => ?_
  by_cases hji : j = i
  · subst hji; simp [hix, hiy]
  · simp [hji]

/-- Marking a page as read in loads it. -/
theorem Proc.Recorded.load (h : pr.Recorded T) (hi : i < maxTotalPages) (hT : T i = .slow v s)
    (hsh : Shuffled (pr.markIn i s) pr') : pr'.Recorded (update T i (.fast v)) := by
  have hpos : 0 < pr.numPagesDisk := by
    rw [h.disk]
    exact count_pos hi (by simp [hT])
  refine h.set hi (h.ok.load hi hT) ?_ ?_ ?_ ?_ ?_ ?_
  · intro w hw
    exact h.page_lt hi (by simpa [hT] using hw)
  · refine (hsh.is_iff i _).mpr ?_
    have hid := h.entry i hi
    rw [hT] at hid
    simp only [Proc.markIn, setPage_page_self]
    exact ⟨rfl, hid.2.1⟩
  · intro j hji x hx
    refine (hsh.is_iff j x).mpr ?_
    simp only [Proc.markIn]
    rwa [setPage_page_ne _ hji]
  · have hram : pr'.numPagesRam = pr.numPagesRam + 1 := by rw [hsh.rest]; rfl
    simp [hram, hT]
  · have hdisk : pr'.numPagesDisk = pr.numPagesDisk - 1 := by rw [hsh.rest]; rfl
    simp only [hdisk, hT, Entry.isSlow_fast, Entry.isSlow_slow, Bool.toNat_true, Bool.toNat_false]
    omega
  · intro t _
    have hav : pr'.availableOffsets = update pr.availableOffsets s false := by
      rw [hsh.rest]; rfl
    by_cases hts : t = s
    · subst hts; simp [hav, hT]
    · simp [hav, hts, hT, Ne.symm hts]

/-- A page comes to the end of the list. -/
theorem Proc.Records.mem_append (h : pr.Records T l) (hi : i < maxTotalPages) (v j : Nat) :
    j ∈ l ++ [i] ↔ j < maxTotalPages ∧ (update T i (.fast v) j).isFast = true := by
  refine h.mem_update hi (fun j => ?_) j
  by_cases hji : j = i
  · subst hji; simp
  · simp [hji]

/-- `pr'` differs from `pr` in the metadata of its pages only. -/
def SameSpace (pr pr' : Proc) : Prop :=
  pr' = { pr with
    pagesMetaData := pr'.pagesMetaData, pageListHeadRam := pr'.pageListHeadRam
    numPagesRam := pr'.numPagesRam, numPagesDisk := pr'.numPagesDisk
    availableOffsets := pr'.availableOffsets
    numOfPageFaults := pr'.numOfPageFaults, numOfPageOuts := pr'.numOfPageOuts }

theorem Shuffled.sameSpace (h : Shuffled pr pr') : SameSpace pr pr' := by
  unfold SameSpace
  rw [h.rest]

theorem SameSpace.trans (h : SameSpace a b) (h' : SameSpace b d) : SameSpace a d := by
  unfold SameSpace at *
  rw [h', h]

theorem SameSpace.pgdir {pr' : Proc} (h : SameSpace pr pr') : pr'.pgdir = pr.pgdir := by
  rw [h]

/-- The fields `recordPage` writes, all at once. -/
def Proc.record (c : Config) (pr : Proc) (i addr index : Nat) : Proc :=
  { (pr.setNext i none).setPage i fun _ => {
      pageId := pteAddr addr
      index := index
      state := .inMemory
      offsetInFile := noOffset
      shiftCounter := c.initCounter } with
    numPagesRam := pr.numPagesRam + 1 }

theorem wp_recordPage (hi : i < maxTotalPages) (Q : Unit → Proc → Prop) :
    wp (recordPage c i addr index) Q E pr ↔ Q () (pr.record c i addr index) := by
  simp only [recordPage, wp_bind, wp_setNext_lt, wp_setPage_lt, wp_modify, hi]
  exact Iff.rfl

theorem record_page_self :
    ((pr.record c i (pgsize * v) index).pagesMetaData i).page.Is (.fast v) := by
  simp only [Proc.record, setPage_page_self, pteAddr_mul]
  exact ⟨rfl, rfl⟩

theorem record_page_ne (h : j ≠ i) :
    ((pr.record c i addr index).pagesMetaData j).page = (pr.pagesMetaData j).page := by
  simp [Proc.record, Proc.setPage, Proc.setNext, Proc.setLink, h]

theorem record_sameSpace :
    SameSpace pr (pr.record c i addr index) := rfl

/-- What `addPageToRam` leaves when it has chosen entry `i`. -/
theorem Proc.Recorded.record (h : pr.Recorded T) (index : Nat) (hi : i < maxTotalPages)
    (hT : T i = .free) (hv : v < maxTotalPages) (hnew : ∀ j < maxTotalPages, (T j).key ≠ some v) :
    (pr.record c i (pgsize * v) index).Recorded (update T i (.fast v)) := by
  refine h.set hi (h.ok.add hnew) ?_ record_page_self ?_ ?_ ?_ ?_
  · intro w hw
    cases hw
    exact hv
  · intro j hji x hx
    rwa [record_page_ne hji]
  · simp [Proc.record, hT]
  · simp [Proc.record, Proc.setPage, Proc.setNext, Proc.setLink, hT]
  · intro t _
    simp [Proc.record, Proc.setPage, Proc.setNext, Proc.setLink, hT]

theorem record_next :
    (pr.record c i addr index).next = update pr.next i none := by
  funext a
  by_cases h : a = i <;> simp [Proc.next, Proc.record, Proc.setPage, Proc.setNext, Proc.setLink, h]

theorem record_prev :
    (pr.record c i addr index).prev = pr.prev := by
  funext a
  by_cases h : a = i <;> simp [Proc.prev, Proc.record, Proc.setPage, Proc.setNext, Proc.setLink, h]

/-- A new page gets a free entry behind the last one of the list, the first page of a
    process entry `0`. -/
theorem addPageToRam_spec (h : pr.Records T l) (hfirst : l = [] → T 0 = .free ∧ pr.prev 0 = none)
    (hroom : pr.numPagesRam + pr.numPagesDisk < maxTotalPages) (hv : v < maxTotalPages)
    (hnew : ∀ j < maxTotalPages, (T j).key ≠ some v) :
    wp (addPageToRam c (pgsize * v)) (fun _ pr' => SameSpace pr pr' ∧ ∃ i < maxTotalPages,
      T i = .free ∧ pr'.Records (update T i (.fast v)) (l ++ [i]) ∧
      ∀ j, (pr'.pagesMetaData j).page.shiftCounter =
        if j = i then c.initCounter else (pr.pagesMetaData j).page.shiftCounter) noStop pr := by
  -- In both cases the entries but the chosen one keep their data.
  have hcounter : ∀ {pr' : Proc} {i : Nat}, (∀ j, j ≠ i →
      ((pr'.record c i (pgsize * v) i).pagesMetaData j).page = (pr.pagesMetaData j).page) →
      ∀ j, ((pr'.record c i (pgsize * v) i).pagesMetaData j).page.shiftCounter =
        if j = i then c.initCounter else (pr.pagesMetaData j).page.shiftCounter := by
    intro pr' i hother j
    by_cases hji : j = i
    · subst hji
      simp [Proc.record]
    · rw [if_neg hji, hother j hji]
  have hh : pr.pageListHeadRam = l.head? := h.listed.isList.head_eq
  cases l with
  | nil =>
    have h0 : 0 < maxTotalPages := by decide
    obtain ⟨hT, hprev⟩ := hfirst rfl
    simp only [addPageToRam, wp_bind, wp_get, hh, head?_nil, wp_setHead, wp_recordPage, h0]
    have hother : ∀ j, j ≠ 0 → (({ pr with pageListHeadRam := some 0 }.record c 0 (pgsize * v)
        0).pagesMetaData j).page = (pr.pagesMetaData j).page := by
      intro j hj
      rw [record_page_ne hj]
    have hsh : Shuffled pr { pr with pageListHeadRam := some 0 } := .setHead pr (some 0)
    have hrec := (h.toRecorded.shuffled hsh).record (c := c) (v := v) 0 h0 hT hv hnew
    refine ⟨hsh.sameSpace.trans record_sameSpace, 0, h0, hT, ⟨hrec, ?_, h.mem_append h0 v⟩, hcounter hother⟩
    refine ⟨⟨rfl, by simp, ?_, ?_, trivial⟩, by simpa using h0⟩
    · rw [record_prev]; exact hprev
    · rw [record_next]; simp
  | cons a l =>
    obtain ⟨i, hi, hfind, hT⟩ := h.findState_notUsed hroom
    have hil : i ∉ a :: l := by
      intro hil
      have := ((h.mem_iff i).mp hil).2
      simp [hT] at this
    simp only [addPageToRam, wp_bind, wp_get, hh, head?_cons, pteAddr_mul,
      h.findPage_none hnew, hfind]
    refine wp_post (lastLink_spec h.listed rfl) ?_
    rintro x pr' ⟨rfl, hx⟩
    have hxl : x < maxTotalPages := h.listed.lt x (mem_of_getLast? hx)
    simp only [Option.orElse_none, Option.getD_some, wp_setNext_lt, wp_setPrev_lt, wp_recordPage,
      hxl, hi]
    have hother : ∀ j, j ≠ i → ((((pr'.setNext x (some i)).setPrev i (some x)).record c i
        (pgsize * v) i).pagesMetaData j).page = (pr'.pagesMetaData j).page := by
      intro j hji
      rw [record_page_ne hji, setPrev_page, setNext_page]
    have hsh : Shuffled pr' ((pr'.setNext x (some i)).setPrev i (some x)) :=
      (Shuffled.setNext pr' x (some i)).trans (.setPrev _ i (some x))
    have hrec := (h.toRecorded.shuffled hsh).record (c := c) (v := v) i hi hT hv hnew
    refine ⟨hsh.sameSpace.trans record_sameSpace, i, hi, hT, ⟨hrec, ?_, h.mem_append hi v⟩, hcounter hother⟩
    refine h.listed.append hx hil hi ?_ ?_ ?_
    · simp [Proc.record, Proc.setPage, Proc.setNext, Proc.setPrev, Proc.setLink]
    · simp [record_next]
    · simp [record_prev]

/-! ### Dropping a page of the swap file -/

theorem wp_setOffset (hs : s < swapSlots) (Q : Unit → Proc → Prop) : wp (setOffset s b) Q E pr ↔
      Q () { pr with availableOffsets := update pr.availableOffsets s b } := by
  unfold setOffset
  rw [wp_ite]
  simp only [hs, forall_const, not_true_eq_false, false_implies, and_true]
  exact Iff.rfl

theorem dropDiskPage_spec (h : pr.Recorded T) (hi : i < maxTotalPages) (hT : T i = .slow v s) :
    wp (dropDiskPage i) (fun _ pr' => SameSpace pr pr' ∧ pr'.Recorded (update T i .free) ∧
      pr'.pageListHeadRam = pr.pageListHeadRam ∧ ∀ l, pr.Listed l → pr'.Listed l) noStop pr := by
  have hent := h.entry i hi
  rw [hT] at hent
  have hs : s < swapSlots := h.ok.slot_lt hi (by simp [hT])
  have hoff : (pr.pagesMetaData i).page.offsetInFile / pgsize = s := by
    rw [hent.2.2, pgsize_mul_div]
  have hpos : 0 < pr.numPagesDisk := by
    rw [h.disk]
    exact count_pos hi (by simp [hT])
  simp only [dropDiskPage, wp_bind, wp_modify, wp_getLink_lt, wp_setPage_lt, wp_setOffset, hi, hoff,
    hs]
  refine ⟨rfl, h.set hi h.ok.drop (by simp) ?_ ?_ ?_ ?_ ?_, rfl, ?_⟩
  · rw [setPage_page_self]
    exact ⟨rfl, rfl⟩
  · intro j hji x hx
    rwa [setPage_page_ne _ hji]
  · simp [hT, Proc.setPage, Proc.setLink]
  · simp only [hT, Proc.setPage, Proc.setLink, Entry.isSlow_slow, Entry.isSlow_free,
      Bool.toNat_true, Bool.toNat_false]
    omega
  · intro t _
    by_cases hts : t = s
    · subst hts; simp [hT, Proc.setPage, Proc.setLink]
    · simp [hT, Proc.setPage, Proc.setLink, hts, Ne.symm hts]
  · intro l hl
    exact (hl.setPage i fun page => { page with
      pageId := noPage, offsetInFile := noOffset, state := .notUsed }).congr rfl rfl rfl

end Xv6Paging
