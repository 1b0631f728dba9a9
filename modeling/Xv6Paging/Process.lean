import Xv6Paging.Lib.Run
import Xv6Paging.Shrink

/-! # Runs of one process

    The operations of a process on its memory: loads and stores, `sbrk`, and the
    accessed bits that the hardware sets. Page faults and evictions are not
    operations of their own; they happen inside these.

    `Op.exec_step` says what one operation does to a running process. The
    memory it sees changes as a flat memory does.
-/

namespace Xv6Paging

open Wp Placement Function

inductive Op where
  | load (va : Nat)
  | store (va : Nat) (b : UInt8)
  /-- `sbrk` with a positive or negative number of bytes. -/
  | grow (n : Int)
  /-- The hardware sets the accessed bit of a page. -/
  | setA (v : Nat)

/-- Execute an operation; only loads return a value. -/
def Op.exec (c : Config) (p : Nat) : Op → K (Option UInt8)
  | .load va => do
    let b ← userLoad c p va
    pure (some b)
  | .store va b => do
    userStore c p va b
    pure none
  | .grow n => do
    let _ ← growproc c p n
    pure none
  | .setA v => do
    hardwareA p v
    pure none

/-- When an operation may be executed. Loads and stores are to user pages below
    the size of the process. A growth finds the frames it needs. A shrink releases
    no page that is in RAM; and `sys_sbrk` has just read its argument, from a page
    of the process that is in RAM. -/
def Op.Allowed (c : Config) (p : Nat) : Op → Machine → Prop
  | .load va, m => va < (m.proc p).sz ∧ (m.pte p (vpn va)).u = true
  | .store va _, m => va < (m.proc p).sz ∧ (m.pte p (vpn va)).u = true
  | .grow n, m => (0 < n → growSupplied c p n m) ∧
      (n < 0 → releasesNoRam p (((m.proc p).sz + n) % 2 ^ 32).toNat m ∧
        ∃ v < npages (m.proc p).sz, (m.pte p v).p = true)
  | .setA _, _ => True

instance (c : Config) (p : Nat) : ∀ op m, Decidable (Op.Allowed c p op m)
  | .load _, _ => inferInstanceAs (Decidable (_ ∧ _))
  | .store _ _, _ => inferInstanceAs (Decidable (_ ∧ _))
  | .grow _, _ => inferInstanceAs (Decidable ((_ → _) ∧ (_ → _ ∧ _)))
  | .setA _, _ => .isTrue trivial

/-- Not a shrink. -/
def Op.Grows : Op → Prop
  | .grow n => 0 ≤ n
  | _ => True

instance : ∀ op, Decidable (Op.Grows op)
  | .load _ => .isTrue trivial
  | .store _ _ => .isTrue trivial
  | .grow n => inferInstanceAs (Decidable (0 ≤ n))
  | .setA _ => .isTrue trivial

/-- The operation on a flat memory. -/
def flatStep (mem : Nat → UInt8) : Op → Option UInt8 × (Nat → UInt8)
  | .load va => (some (mem va), mem)
  | .store va b => (none, update mem va b)
  | .grow _ => (none, mem)
  | .setA _ => (none, mem)

variable {c : Config} {p : Nat} {s s' : Space}

/-- What an operation does to a running process. -/
structure Stepped (c : Config) (p : Nat) (op : Op) (s : Space) (out : Option UInt8) (s' : Space) :
    Prop where
  running : Running c p s'
  keepsPrivate : s.Private p → s'.Private p
  out_eq : out = (flatStep (s.machine.view p) op).1
  view_eq : op.Grows → ∀ a, vpn a < nuserPages →
    s'.machine.view p a = (flatStep (s.machine.view p) op).2 a

/-! ## One operation -/

theorem Exchanged.running (h : Exchanged c p s s') (hs : Running c p s) : Running c p s' := by
  obtain ⟨b, hb⟩ := hs.shape
  refine ⟨h.steady hs.toSteady, ⟨b, ?_⟩, ?_⟩
  · rw [h.moves.kept.sz]; exact hb.congr h.tracked
  · rw [h.moves.kept.sz]; exact hs.sz_pos

theorem Moves.private (h : Moves c p s s') (hs : s.Private p) : s'.Private p :=
  h.invariant Move.private hs

/-- An operation of the process that only exchanges pages. -/
theorem Exchanged.stepped {op : Op} {out : Option UInt8} (h : Exchanged c p s s')
    (hs : Running c p s) (hout : out = (flatStep (s.machine.view p) op).1)
    (hmem : (flatStep (s.machine.view p) op).2 = s.machine.view p) : Stepped c p op s out s' where
  running := h.running hs
  keepsPrivate := h.moves.private
  out_eq := hout
  view_eq := fun _ a ha => by rw [hmem, h.moves.view ha]

theorem setSz_view {m : Machine} {sz : Nat} (a : Nat) :
    (m.setProc p ((m.proc p).setSz sz)).view p a = m.view p a := by
  simp only [Machine.view, setSz_pte]
  simp only [Machine.setProc_proc, update_self, Machine.setProc_mem, Machine.setProc_swap]
  rfl

/-- A growth shows the process no new byte but zeros, where it saw zeros. -/
theorem Grown.stepped {m' : Machine} {n : Int} (h : Grown c p s m') (hs : Running c p s) :
    ∃ s' : Space, s'.machine = m' ∧ Stepped c p (.grow n) s none s' := by
  obtain ⟨s1, sz, b, hm, hq, hsz, hsh, rfl⟩ := h
  refine ⟨⟨s1.machine.setProc p ((s1.machine.proc p).setSz sz), s1.map, s1.list⟩, rfl,
    ⟨⟨(hm.steady hs.toSteady hq).setSz sz, ⟨b, ?_⟩, ?_⟩, ?_, rfl, ?_⟩⟩
  · simpa [Proc.setSz] using hsh
  · have := hs.sz_pos
    simp only [Machine.setProc_proc, update_self, Proc.setSz]
    omega
  · intro hp v hv
    rw [setSz_pte]
    exact hm.private hp v hv
  · intro _ a ha
    rw [setSz_view, hm.view ha]
    rfl

theorem Space.Private.poke (h : Space.Private p ⟨m, T, l⟩)
    (va : Nat) (b : UInt8) : Space.Private p ⟨m.poke p va b, T, l⟩ := h

theorem hardwareA_move (h : Paged c p s.machine s.map s.list) :
    wp (hardwareA p v) (fun _ m' => ∃ s' : Space, s'.machine = m' ∧ s'.map = s.map ∧
      Moves c p s s') noStop s.machine := by
  simp only [hardwareA, wp_bind, wp_get, Nat.mul_comm v pgsize, Machine.userPte, vpn_mul]
  split
  · split
    · rw [wp_setPte]
      exact ⟨⟨_, s.map, s.list⟩, rfl, rfl, .single (.stir h (.setA p v s.machine true) (h.setA v true)
        (List.Perm.refl _))⟩
    · exact ⟨s, rfl, rfl, .refl⟩
  · simp only [Pte.zero, Bool.false_eq_true, if_false, wp_pure]
    exact ⟨s, rfl, rfl, .refl⟩

/-- Every operation that is allowed runs to its end, unless a frame is needed
    that is not there; and that needs sharing. -/
theorem Op.exec_step {op : Op} (hs : Running c p s) (hpages : c.pages p)
    (hfuel : 2 * maxTotalPages ≤ c.fuel) (hok : op.Allowed c p s.machine) :
    wp (op.exec c p) (fun out m' => ∃ s' : Space, s'.machine = m' ∧ Stepped c p op s out s')
      (Starved p s) s.machine := by
  cases op with
  | load va =>
    obtain ⟨hva, hu⟩ := hok
    simp only [Op.exec, wp_bind, wp_pure]
    refine wp_post (userLoad_moves hs.toSteady hpages hfuel (hs.tracked hva) hu) ?_
    rintro b m' ⟨rfl, s', rfl, he⟩
    exact ⟨s', rfl, he.stepped hs rfl rfl⟩
  | store va b =>
    obtain ⟨hva, hu⟩ := hok
    have ht := hs.tracked hva
    have hv : vpn va < nuserPages := by
      obtain ⟨i, hi, hkey⟩ := ht
      exact lt_nuserPages (hs.paged.records.page_lt hi hkey)
    simp only [Op.exec, wp_bind, wp_pure]
    refine wp_post (userStore_moves hs.toSteady hpages hfuel ht hu) ?_
    rintro _ m' ⟨s1, he, hp, -, rfl⟩
    have h1 := he.running hs
    refine ⟨⟨s1.machine.poke p va b, s1.map, s1.list⟩, rfl,
      ⟨h1.toSteady.poke va b, h1.shape, h1.sz_pos⟩, fun hpriv => (he.moves.private hpriv).poke va b, rfl, ?_⟩
    intro _ a ha
    rw [h1.paged.view_poke b hp hv ha, he.moves.view ha]
    exact (update_apply _ _ _ _).symm
  | grow n =>
    simp only [Op.exec, wp_bind, wp_pure]
    rcases lt_trichotomy n 0 with hn | rfl | hn
    · obtain ⟨hrel, v, hv, hpv⟩ := hok.2 hn
      refine wp_mono (growproc_shrink hs hpages hn hv hpv hrel) ?_ (fun _ _ hf => hf.elim)
      rintro _ m' ⟨s', rfl, hr, hpriv⟩
      exact ⟨s', rfl, hr, hpriv, rfl, fun hg => absurd hg (by simp only [Op.Grows]; omega)⟩
    · simp only [growproc, wp_bind, wp_getProc, lt_irrefl, if_false, wp_pure]
      exact ⟨s, rfl, hs, id, rfl, fun _ _ _ => rfl⟩
    · refine wp_mono (growproc_grow hs hpages hfuel hn (hok.1 hn)) ?_ (fun _ _ hf => hf.elim)
      rintro _ m' hg
      exact hg.stepped hs
  | setA v =>
    simp only [Op.exec, wp_bind, wp_pure]
    refine wp_mono (hardwareA_move hs.paged) ?_ (fun _ _ hf => hf.elim)
    rintro _ m' ⟨s', rfl, hmap, hm⟩
    have he : Exchanged c p s s' := ⟨hm, hmap ▸ hs.quota, fun w => by rw [hmap]⟩
    exact ⟨s', rfl, he.stepped hs rfl rfl⟩

/-! ## The image that `exec` leaves -/

/-- The state in which `exec` leaves a process whose image, guard page and stack
    included, has at most `MAX_PSYC_PAGES` pages: all pages are recorded and in RAM,
    all are the process's own. -/
structure Fresh (c : Config) (p : Nat) (s : Space) : Prop where
  paged : Paged c p s.machine s.map s.list
  guarded : s.Guarded p
  isPrivate : s.Private p
  file : (s.machine.proc p).swapFile = none → ∃ fd < nfile, s.machine.ftable fd = 0
  alive : (s.machine.proc p).killed = false
  sz_pos : 0 < (s.machine.proc p).sz
  small : npages (s.machine.proc p).sz ≤ maxPsycPages
  tracked : ∀ v, Tracked s.map v ↔ v < npages (s.machine.proc p).sz
  resident : ∀ i < maxTotalPages, (s.map i).isSlow = false

theorem Fresh.shape (h : Fresh c p s) :
    Shape s.map (npages (s.machine.proc p).sz) maxTotalPages := by
  refine ⟨h.small.trans (by decide), le_refl _, fun v => ?_⟩
  rw [h.tracked]
  omega

/-- A fresh image is a running process. -/
theorem Fresh.running (h : Fresh c p s) : Running c p s := by
  have hslow : slowCount maxTotalPages s.map = 0 := by
    by_contra hne
    have hpos : 0 < count Entry.isSlow maxTotalPages s.map := Nat.pos_of_ne_zero hne
    obtain ⟨i, hi, hs⟩ := exists_of_count_pos hpos
    simp [h.resident i hi] at hs
  have htotal := h.shape.total h.paged.records
  have hsmall := h.small
  refine ⟨⟨h.paged, h.guarded, ?_, ⟨by omega, ?_, by omega⟩, h.file, h.alive⟩, ⟨_, h.shape⟩, h.sz_pos⟩
  · exact fun v hv hp => .inl (h.isPrivate v hv hp).2
  · rw [hslow]; decide

/-- The bytes of the image: those of the frames, `0` outside. -/
def Machine.image (m : Machine) (p a : Nat) : UInt8 :=
  if (m.pte p (vpn a)).p = true then (m.mem (m.pte p (vpn a)).frame).byte (a % pgsize) else 0

theorem Fresh.view_eq (h : Fresh c p s) (ha : vpn a < nuserPages) : s.machine.view p a = s.machine.image p a := by
  by_cases hp : (s.machine.pte p (vpn a)).p = true
  · rw [view_of_present hp, Machine.image, if_pos hp]
  · rw [Machine.image, if_neg hp]
    rcases PageMap.cases_key s.map (vpn a) with hf | ⟨i, hi, t, hT⟩ | hnone
    · exact absurd ((h.paged.present_iff ha).mpr hf) hp
    · have := h.resident i hi
      simp [hT] at this
    · exact h.paged.view_free ha hnone

/-! ## A sample process

    The state that `exec` leaves for the smallest image: process 3 is `sampleProc`, with
    a code page, the guard page and a stack page in frames of their own. Runs from this state
    show that the conditions under which the general results hold can be met, and
    what happens where they are not.
-/

/-- Page `v < 3` is in frame `1000 + v`; page 1 is the guard page. -/
def samplePte (c : Config) (v : Nat) : Pte :=
  if v < 3 then ⟨1000 + v, true, true, decide (v ≠ 1), false, false, false⟩ else kmapPte c v

/-- The machine, with `free` frames left. -/
def sample (c : Config) (free : Nat) : Machine where
  freelist := List.range' 2000 free
  referenceCounters := fun f => if f < 2000 then 1 else 0
  useLock := true
  systemFreePages := free
  mem := fun f _ => UInt8.ofNat f
  dirs := fun _ => ⟨true, fun k => if k = 0 then some 901 else none, samplePte c⟩
  kheld := fun f => f = 902
  proc := fun _ => sampleProc
  nextpid := 4
  slots := 3
  ftable := fun _ => 0
  swap := fun _ => Inode.empty
  globalPgdir := none
  ncli := 0
  opDepth := 0
  nested := false
  lockedFault := false

/-- The table that the metadata record. -/
def sampleMap : PageMap := fun i => if i < 3 then .fast i else .free

def sampleSpace (c : Config) (free : Nat) : Space := ⟨sample c free, sampleMap, [0, 1, 2]⟩

theorem sample_records : sampleProc.Records sampleMap [0, 1, 2] where
  entry := by
    intro i _
    by_cases hi : i < 3
    · simp [sampleProc, sampleLink, sampleMap, hi, PageMetaData.Is]
    · simp [sampleProc, sampleLink, sampleMap, hi, PageMetaData.Is]
  listed := sampleProc_listed
  mem_iff := by
    intro i
    by_cases hi : i < 3
    · simp only [sampleMap, hi, if_true, maxTotalPages]
      simp
      omega
    · simp only [sampleMap, hi, if_false]
      simp
      omega
  ram := by decide
  disk := by decide
  offsets := by decide
  ok := by
    refine ⟨?_, ?_, ?_⟩
    · intro i j k _ _ hi hj
      simp only [sampleMap] at hi hj
      split at hi <;> split at hj <;> simp_all
    · intro i j s _ _ hi
      simp only [sampleMap] at hi
      split at hi <;> simp at hi
    · intro i s _ hi
      simp only [sampleMap] at hi
      split at hi <;> simp at hi
  page_lt := by
    intro i v hi hk
    simp only [sampleMap] at hk
    split at hk
    · simp only [Entry.key_fast, Option.some.injEq] at hk
      omega
    · simp at hk

theorem sample_pte (c : Config) (free v : Nat) (hv : v < nuserPages) :
    (sample c free).pte 3 v =
      if v < 3 then ⟨1000 + v, true, true, decide (v ≠ 1), false, false, false⟩ else Pte.zero := by
  show samplePte c v = _
  unfold samplePte
  split
  · rfl
  · simp only [kmapPte, hv, if_true]

theorem sample_tracked (v : Nat) : Tracked sampleMap v ↔ v < 3 := by
  constructor
  · rintro ⟨i, _, hk⟩
    simp only [sampleMap] at hk
    split at hk
    · simp only [Entry.key_fast, Option.some.injEq] at hk
      omega
    · simp at hk
  · intro hv
    exact ⟨v, by simp only [maxTotalPages]; omega, by simp [sampleMap, hv]⟩

theorem sample_paged (sel : Selection) {free : Nat} (hfree : free ≤ 1000) :
    Paged (sampleConfig sel) 3 (sample (sampleConfig sel) free) sampleMap [0, 1, 2] where
  recorded := sample_records.toRecorded
  listed := sample_records.listed
  mem_iff := sample_records.mem_iff
  live := rfl
  table := by simp [sample, sampleProc]
  present_iff := by
    intro v hv
    rw [sample_pte _ _ _ hv]
    by_cases h3 : v < 3
    · simp only [h3, if_true, true_iff]
      exact ⟨v, by simp only [maxTotalPages]; omega, by simp [sampleMap, h3]⟩
    · simp only [h3, if_false, Pte.zero, Bool.false_eq_true, false_iff]
      rintro ⟨i, hi, hT⟩
      exact h3 ((sample_tracked v).mp ⟨i, hi, by simp [hT]⟩)
  paged_iff := by
    intro v hv
    rw [sample_pte _ _ _ hv]
    have hno : ¬ ∃ i < maxTotalPages, ∃ s, sampleMap i = .slow v s := by
      rintro ⟨i, _, s, hT⟩
      simp only [sampleMap] at hT
      split at hT <;> simp at hT
    by_cases h3 : v < 3
    · simp [h3, hno]
    · simp [h3, hno, Pte.zero]
  frame := by
    intro v hv hp
    rw [sample_pte _ _ _ hv] at hp ⊢
    by_cases h3 : v < 3
    · simp only [h3, if_true, managed, sampleConfig, nframes, sample]
      refine ⟨by omega, ?_⟩
      rw [if_pos (by omega)]
      decide
    · simp [h3, Pte.zero] at hp
  frame_inj := by
    intro v w hv hw hpv hpw heq
    rw [sample_pte _ _ _ hv] at hpv heq
    rw [sample_pte _ _ _ hw] at hpw heq
    by_cases h3 : v < 3
    · by_cases h3' : w < 3
      · simp only [h3, h3', if_true] at heq
        omega
      · simp [h3', Pte.zero] at hpw
    · simp [h3, Pte.zero] at hpv
  free_nodup := List.nodup_range'
  free := by
    intro f hf
    simp only [sample, List.mem_range'_1] at hf ⊢
    simp only [managed, sampleConfig, nframes]
    exact ⟨by omega, if_neg (by omega)⟩
  covered := by simp [sample, sampleProc]
  opened := fun _ => rfl
  global := rfl
  unlocked := rfl
  outside := rfl

/-- The sample process is a fresh image. -/
theorem sample_fresh (sel : Selection) {free : Nat} (hfree : free ≤ 1000) :
    Fresh (sampleConfig sel) 3 (sampleSpace (sampleConfig sel) free) where
  paged := sample_paged sel hfree
  guarded := by
    intro v w hv hw huv huw
    have hv3 := (sample_tracked v).mp hv
    have hw3 := (sample_tracked w).mp hw
    simp only [sampleSpace] at huv huw
    rw [sample_pte _ _ _ (by simp only [nuserPages]; omega), if_pos hv3] at huv
    rw [sample_pte _ _ _ (by simp only [nuserPages]; omega), if_pos hw3] at huw
    simp only [ne_eq, decide_eq_false_iff_not, not_not] at huv huw
    omega
  isPrivate := by
    intro v hv hp
    simp only [sampleSpace] at hp ⊢
    rw [sample_pte _ _ _ hv] at hp ⊢
    by_cases h3 : v < 3
    · simp only [h3, if_true, sample, and_true]
      exact if_pos (by omega)
    · simp [h3, Pte.zero] at hp
  file := fun _ => ⟨0, by decide, rfl⟩
  alive := rfl
  sz_pos := show 0 < sampleProc.sz by decide
  small := show npages sampleProc.sz ≤ maxPsycPages by decide
  tracked := fun v => (sample_tracked v).trans (show v < 3 ↔ v < npages sampleProc.sz from Iff.rfl)
  resident := show ∀ i < maxTotalPages, (sampleMap i).isSlow = false by decide

end Xv6Paging
