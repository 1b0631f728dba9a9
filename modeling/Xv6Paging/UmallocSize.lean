import Xv6Paging.Lib.Ghost
import Xv6Paging.UmallocInv

/-! # How much malloc returns

    `malloc` counts in units of headers, in 32 bits, and `morecore` passes the number of
    bytes to `sbrk` as an `int`. Here the code also records what it asks `sbrk` for;
    without the record it is the code of the allocator.

    Requests of 2^31 bytes and more overflow: `sbrk` is asked for a negative number of bytes
    or for none, and with the last seven sizes the number of units itself wraps around, so
    that `malloc` returns a block without room.
-/

namespace Xv6Paging.UmallocSize

open List Wp Ghost CircularList Umalloc

/-! ## Code with a record -/

/-- The heap, and the arguments with which `sbrk` was called. -/
structure Asking where
  heap : Sys
  asked : List Int

abbrev A : Type → Type := EStateM Stop Asking

/-- Code that does not call `sbrk`. -/
def lift {α : Type} (x : M α) : A α := onPart Asking.heap (fun t s => { t with heap := s }) x

/-- `nu * sizeof(Header)` as the `int` that `sbrk` takes. -/
def request (nu : Nat) : Int := Int.bmod (headerSize * coreUnits nu : Nat) (2 ^ 32)

def morecore (fuel nu : Nat) (sbrk : List (Option Nat)) : A Nat := do
  modify fun t => { t with asked := t.asked ++ [request nu] }
  lift (Umalloc.morecore fuel nu sbrk)

def mallocLoop (nunits fuel : Nat) : Nat → List (Option Nat) → Nat → Nat → A Nat
  | 0, _, _, _ => throw .diverge
  | n + 1, sbrk, prevp, p => do
    let s ← lift get
    if nunits ≤ s.size p then
      lift (set (carve s nunits prevp p).2)
      pure (carve s nunits prevp p).1
    else if p = s.freep then
      let p ← morecore fuel nunits sbrk
      let s ← lift get
      if p = 0 then pure 0 else mallocLoop nunits fuel n sbrk.tail p (s.ptr p)
    else
      mallocLoop nunits fuel n sbrk p (s.ptr p)

def malloc (base fuel : Nat) (nbytes : UInt32) (sbrk : List (Option Nat)) : A Nat := do
  lift (modify (initFree base))
  let s ← lift get
  mallocLoop (units nbytes) fuel fuel sbrk s.freep (s.ptr s.freep)

/-! ## Without the record -/

section Erase

variable {base nunits fuel n prevp p : Nat} {sbrk : List (Option Nat)} {α : Type}

theorem erases_lift (x : M α) : Erases Asking.heap (lift x) x := erases_onPart (fun _ _ => rfl) x

theorem erases_morecore : Erases Asking.heap (morecore fuel nunits sbrk) (Umalloc.morecore fuel nunits sbrk) := by
  intro t Q E h
  rw [morecore, wp_bind, wp_modify]
  exact erases_lift _ _ Q E h

theorem erases_mallocLoop :
    Erases Asking.heap (mallocLoop nunits fuel n sbrk prevp p) (Umalloc.mallocLoop nunits fuel n sbrk prevp p) := by
  induction n generalizing sbrk prevp p with
  | zero => exact erases_throw _
  | succ n ih =>
    exact erases_bind (erases_lift get) fun s => erases_ite _
      (erases_bind (erases_lift _) fun _ => erases_pure _)
      (erases_ite _ (erases_bind erases_morecore fun q => erases_bind (erases_lift get) fun s' =>
        erases_ite _ (erases_pure 0) ih) ih)

/-- The code with the record is the code of the allocator. -/
theorem erases_malloc {nbytes : UInt32} :
    Erases Asking.heap (malloc base fuel nbytes sbrk) (Umalloc.malloc base fuel nbytes sbrk) :=
  erases_bind (erases_lift _) fun _ => erases_bind (erases_lift get) fun _ => erases_mallocLoop

end Erase

/-! ## What is asked for -/

section Asked

variable {base nunits fuel n prevp p : Nat} {sbrk : List (Option Nat)} {F L : List Nat} {t : Asking}

/-- All requests of one call are the same. -/
theorem mallocLoop_asked : wp (mallocLoop nunits fuel n sbrk prevp p) (fun _ t' => t.asked ⊆ t'.asked ∧
    ∀ x ∈ t'.asked, x ∈ t.asked ∨ x = request nunits) anyStop t := by
  induction n generalizing t sbrk prevp p with
  | zero => exact trivial
  | succ n ih =>
    simp only [mallocLoop, morecore, lift, wp_bind, wp_onPart, wp_get, wp_ite, wp_set, wp_pure, wp_modify]
    refine ⟨fun _ => ⟨fun _ hx => hx, fun _ hx => .inl hx⟩, fun _ => ⟨fun _ => ?_, fun _ => ih⟩⟩
    refine wp_of_forall (fun q s' => ?_) fun _ _ => trivial
    refine ⟨fun _ => ⟨fun x hx => ?_, fun x hx => ?_⟩, fun _ => ?_⟩
    · exact mem_append_left _ hx
    · simpa using hx
    · refine wp_post ih ?_
      rintro _ t' ⟨hsub, hnew⟩
      refine ⟨fun x hx => hsub (mem_append_left _ hx), fun x hx => ?_⟩
      have := hnew x hx
      simp only [mem_append, mem_singleton] at this
      tauto

theorem mallocLoop_succ : mallocLoop nunits fuel (n + 1) sbrk prevp p t =
      (if nunits ≤ t.heap.size p then do
          lift (set (carve t.heap nunits prevp p).2)
          pure (carve t.heap nunits prevp p).1
        else if p = t.heap.freep then do
          let p ← morecore fuel nunits sbrk
          let s ← lift get
          if p = 0 then pure 0 else mallocLoop nunits fuel n sbrk.tail p (s.ptr p)
        else
          mallocLoop nunits fuel n sbrk p (t.heap.ptr p) : A Nat) t := rfl

/-- Nothing is asked for on the way to a block. -/
theorem mallocLoop_path {pre : List Nat} (fuel n : Nat) (sbrk : List (Option Nat)) (hpath : Path t.heap.ptr (prevp :: (pre ++ [p])))
    (hsmall : ∀ y ∈ pre, t.heap.size y < nunits ∧ y ≠ t.heap.freep) :
    ∃ prev, mallocLoop nunits fuel (n + pre.length) sbrk prevp (t.heap.ptr prevp) t =
      mallocLoop nunits fuel n sbrk prev p t := by
  induction pre generalizing prevp with
  | nil =>
    obtain ⟨hp, -⟩ := path_cons_cons.mp hpath
    exact ⟨prevp, by rw [hp]; rfl⟩
  | cons y pre ih =>
    obtain ⟨hy, hrest⟩ := path_cons_cons.mp hpath
    obtain ⟨hysize, hyfreep⟩ := hsmall y mem_cons_self
    obtain ⟨prev, heq⟩ := ih hrest fun z hz => hsmall z (mem_cons_of_mem y hz)
    refine ⟨prev, ?_⟩
    rw [hy, length_cons, ← Nat.add_assoc, mallocLoop_succ, if_neg (not_le.mpr hysize), if_neg hyfreep]
    exact heq

/-- With a free block that is large enough, nothing is asked for. -/
theorem mallocLoop_found {a : Nat} (h : Layout base F L t.heap) (hpos : 0 < nunits) (ha : a ∈ F)
    (hsize : nunits ≤ t.heap.size a) (hn : F.length < n) :
    wp (mallocLoop nunits fuel n sbrk t.heap.freep (t.heap.ptr t.heap.freep)) (fun _ t' => t'.asked = t.asked)
      anyStop t := by
  obtain ⟨pre, b, hpath, hsmall, hlen, -, -, hbsize⟩ := h.first_fit hpos ha hsize
  obtain ⟨m, rfl⟩ : ∃ m, n = m + 1 + pre.length := ⟨n - 1 - pre.length, by omega⟩
  obtain ⟨prev, heq⟩ := mallocLoop_path fuel (m + 1) sbrk hpath hsmall
  refine wp_of_eq heq (wp_of_eq mallocLoop_succ ?_)
  rw [if_pos hbsize]
  rfl

/-- With no such block, `sbrk` is called. -/
theorem mallocLoop_full (h : Layout base F L t.heap) (hsmall : ∀ a ∈ base :: F, t.heap.size a < nunits)
    (hn : F.length < n) :
    wp (mallocLoop nunits fuel n sbrk t.heap.freep (t.heap.ptr t.heap.freep))
      (fun _ t' => request nunits ∈ t'.asked) anyStop t := by
  obtain ⟨C, hpath, hnodup, hperm, hlen⟩ := h.visits
  have hC : ∀ y ∈ C, t.heap.size y < nunits ∧ y ≠ t.heap.freep := by
    intro y hy
    refine ⟨hsmall y (hperm.mem_iff.mp (mem_cons_of_mem _ hy)), ?_⟩
    rintro rfl
    exact (nodup_cons.mp hnodup).1 hy
  obtain ⟨m, rfl⟩ : ∃ m, n = m + 1 + C.length := ⟨n - 1 - C.length, by omega⟩
  obtain ⟨prev, heq⟩ := mallocLoop_path fuel (m + 1) sbrk hpath hC
  refine wp_of_eq heq (wp_of_eq mallocLoop_succ ?_)
  rw [if_neg (not_le.mpr (hsmall _ h.freep)), if_pos rfl]
  simp only [morecore, lift, wp_bind, wp_onPart, wp_get, wp_ite, wp_pure, wp_modify]
  refine wp_of_forall (fun q s' => ⟨fun _ => by simp, fun _ => ?_⟩) fun _ _ => trivial
  refine wp_post mallocLoop_asked ?_
  rintro _ t' ⟨hsub, -⟩
  exact hsub (by simp)

end Asked

/-! ## Arithmetic -/

section Arithmetic

variable {nbytes : UInt32}

/-- The number of units is exact, but for the last seven sizes. -/
theorem units_eq (nbytes : UInt32) :
    units nbytes = if nbytes.toNat ≤ 2 ^ 32 - 8 then (nbytes.toNat + 7) / 8 + 1 else 1 := by
  have hlt : nbytes.toNat < 2 ^ 32 := UInt32.toNat_lt _
  have h7 : (7 : UInt32).toNat = 7 := rfl
  have h8 : (8 : UInt32).toNat = 8 := rfl
  have h1 : (1 : UInt32).toNat = 1 := rfl
  rw [units, UInt32.toNat_add, UInt32.toNat_div, UInt32.toNat_add, h7, h8, h1]
  split <;> omega

/-- The request is exact as long as the product is a positive `int`. -/
theorem request_eq {nu : Nat} (h : headerSize * coreUnits nu < 2 ^ 31) :
    request nu = (headerSize * coreUnits nu : Nat) := by
  unfold request
  rw [Int.bmod_def]
  generalize headerSize * coreUnits nu = x at h
  simp only [Nat.reducePow, Int.cast_ofNat_Int]
  split <;> omega

/-- Beyond that it is negative or zero. -/
theorem request_nonpos {nu : Nat} (h1 : 2 ^ 31 ≤ headerSize * nu) (h2 : headerSize * nu ≤ 2 ^ 32) :
    request nu ≤ 0 := by
  have hcore : coreUnits nu = nu := by
    unfold headerSize at h1
    rw [coreUnits, if_neg (by omega)]
  unfold request
  rw [hcore, Int.bmod_def]
  generalize headerSize * nu = x at h1 h2
  simp only [Nat.reducePow, Int.cast_ofNat_Int]
  split <;> omega

end Arithmetic

/-! ## Enough -/

/-- A null pointer or a block with room for `nbytes` bytes, with exact positive requests. -/
def Room (nbytes : UInt32) (ap : Nat) (t : Asking) : Prop :=
  (ap ≠ 0 → nbytes.toNat ≤ headerSize * (t.heap.size (ap - headerSize) - 1)) ∧
    ∀ n ∈ t.asked, 0 < n ∧ n = (headerSize * coreUnits (units nbytes) : Nat)

/-- `malloc` never returns too little. -/
def Enough (base fuel : Nat) (nbytes : UInt32) (sbrk : List (Option Nat)) (s : Sys) : Prop :=
  wp (malloc base fuel nbytes sbrk) (Room nbytes) noStop ⟨s, []⟩

section Enough

variable {base fuel : Nat} {nbytes : UInt32} {sbrk : List (Option Nat)} {F L : List Nat} {s : Sys}

/-- The loop starts with an initialised list. -/
theorem wp_malloc : wp (malloc base fuel nbytes sbrk) Q E ⟨s, []⟩ ↔
      wp (mallocLoop (units nbytes) fuel fuel sbrk (initFree base s).freep
        ((initFree base s).ptr (initFree base s).freep)) Q E ⟨initFree base s, []⟩ := by
  simp only [malloc, lift, wp_bind, wp_onPart, wp_modify, wp_get]

/-- Requests are exact while the product is a positive `int`. -/
theorem asked_exact {t : Asking} (hcore : headerSize * coreUnits (units nbytes) < 2 ^ 31)
    (hasked : ∀ x ∈ t.asked, x ∈ ([] : List Int) ∨ x = request (units nbytes)) :
    ∀ n ∈ t.asked, 0 < n ∧ n = (headerSize * coreUnits (units nbytes) : Nat) := by
  intro n hn
  have hn' : n = request (units nbytes) := (hasked n hn).resolve_left not_mem_nil
  have hpos : 0 < headerSize * coreUnits (units nbytes) := Nat.mul_pos (by decide) (coreUnits_spec _).1
  rw [hn', request_eq hcore]
  exact ⟨by omega, rfl⟩

/-- A block with the number of units that was computed has room if that number is exact. -/
theorem room_of_size {b : Nat} {t : Asking} (hexact : nbytes.toNat ≤ 2 ^ 32 - 8)
    (hb : t.heap.size b = units nbytes) :
    nbytes.toNat ≤ headerSize * (t.heap.size (b + headerSize - headerSize) - 1) := by
  rw [Nat.add_sub_cancel, hb, units_eq, if_pos hexact]
  unfold headerSize
  omega

/-- Below 2^31 - 15 everything is exact. -/
theorem enough_of_small (h : Layout base F L s) (hfuel : 2 * F.length + 3 ≤ fuel)
    (hsmall : nbytes.toNat ≤ 2 ^ 31 - 16)
    (hfresh : ∀ p, sbrk.head? = some (some p) → headerSize * coreUnits (units nbytes) < 2 ^ 31 →
      Fresh base s.regions p (headerSize * coreUnits (units nbytes))) :
    wp (mallocLoop (units nbytes) fuel fuel sbrk s.freep (s.ptr s.freep)) (Room nbytes) noStop ⟨s, []⟩ := by
  have hcore : headerSize * coreUnits (units nbytes) < 2 ^ 31 := by
    rw [units_eq, if_pos (by omega)]
    unfold headerSize coreUnits
    split <;> omega
  refine wp_post (wp_and (erases_mallocLoop ⟨s, []⟩ _ _ (h.wp_mallocLoop (units_pos nbytes) hfuel
    fun p hp => hfresh p hp hcore)) mallocLoop_asked) ?_
  rintro ap t ⟨⟨-, F', -, hcase⟩, -, hasked⟩
  refine ⟨fun hne => ?_, asked_exact hcore hasked⟩
  rcases hcase with ⟨hzero, -⟩ | ⟨b, rfl, -, hb⟩
  · exact absurd hzero hne
  · exact room_of_size (by omega) hb

/-- From 2^31 - 15 to 2^32 - 8, `sbrk` must not be asked: the product overflows. -/
theorem enough_iff_of_large (h : Layout base F L s) (hfuel : 2 * F.length + 3 ≤ fuel)
    (hlarge : 2 ^ 31 - 16 < nbytes.toNat) (hexact : nbytes.toNat ≤ 2 ^ 32 - 8) :
    wp (mallocLoop (units nbytes) fuel fuel sbrk s.freep (s.ptr s.freep)) (Room nbytes) noStop ⟨s, []⟩ ↔
      ∃ a ∈ F, units nbytes ≤ s.size a := by
  have hpos := units_pos nbytes
  constructor
  · intro hok
    by_contra hbig
    have hnone : ∀ a ∈ base :: F, s.size a < units nbytes := by
      intro a ha
      by_contra hle
      exact hbig ⟨a, h.mem_of_large hpos ha (by omega), by omega⟩
    obtain ⟨ap, t, hrun, -, hasked⟩ := wp_noStop_iff.mp hok
    have hbad := wp_anyStop_iff.mp (mallocLoop_full (t := ⟨s, []⟩) h hnone (by omega)) ap t hrun
    have hle : request (units nbytes) ≤ 0 := by
      rw [units_eq, if_pos hexact]
      refine request_nonpos ?_ ?_ <;> unfold headerSize <;> omega
    have := (hasked _ hbad).1
    omega
  · rintro ⟨a, ha, hsize⟩
    have hlt : F.length < fuel := by omega
    refine wp_post (wp_and (erases_mallocLoop ⟨s, []⟩ _ _ (h.wp_found hpos ha hsize hlt))
      (mallocLoop_found (t := ⟨s, []⟩) h hpos ha hsize hlt)) ?_
    rintro ap t ⟨⟨-, F', b, -, rfl, -, hb⟩, hasked⟩
    refine ⟨fun _ => room_of_size hexact hb, fun n hn => ?_⟩
    rw [hasked] at hn
    exact absurd hn not_mem_nil

theorem not_room {b : Nat} {t : Asking} (hwrap : 2 ^ 32 - 8 < nbytes.toNat)
    (hb : t.heap.size b = units nbytes) : ¬ Room nbytes (b + headerSize) t := by
  rintro ⟨hroom, -⟩
  rw [Nat.add_sub_cancel, hb, units_eq, if_neg (by omega)] at hroom
  have := hroom (by unfold headerSize; omega)
  omega

/-- With the last seven sizes, `malloc` looks for a single unit, and must not find it. -/
theorem enough_iff_of_wrap (h : Layout base F L s) (hfuel : 2 * F.length + 3 ≤ fuel)
    (hwrap : 2 ^ 32 - 8 < nbytes.toNat)
    (hfresh : ∀ p, sbrk.head? = some (some p) → headerSize * coreUnits (units nbytes) < 2 ^ 31 →
      Fresh base s.regions p (headerSize * coreUnits (units nbytes))) :
    wp (mallocLoop (units nbytes) fuel fuel sbrk s.freep (s.ptr s.freep)) (Room nbytes) noStop ⟨s, []⟩ ↔
      F = [] ∧ ∀ p, sbrk.head? ≠ some (some p) := by
  have hone : units nbytes = 1 := by rw [units_eq, if_neg (by omega)]
  have hpos := units_pos nbytes
  have hcore : headerSize * coreUnits (units nbytes) < 2 ^ 31 := by
    rw [hone]
    decide
  have hnone : F = [] → ∀ a ∈ base :: F, s.size a < units nbytes := by
    rintro rfl a ha
    rw [mem_singleton.mp ha, h.blocks.ground.base_size]
    exact hpos
  constructor
  · intro hok
    have hempty : F = [] := by
      by_contra hne
      obtain ⟨a, ha⟩ := exists_mem_of_ne_nil F hne
      have hsize : units nbytes ≤ s.size a := by
        rw [hone]
        exact (h.blocks.bounds (mem_append_left L ha)).2.1
      have hlt : F.length < fuel := by omega
      have hfound := wp_and hok (erases_mallocLoop ⟨s, []⟩ _ _ (h.wp_found hpos ha hsize hlt))
      obtain ⟨ap, t, -, hroom, -, F', b, -, rfl, -, hb⟩ := wp_noStop_iff.mp hfound
      exact not_room hwrap hb hroom
    refine ⟨hempty, fun p hp => ?_⟩
    obtain ⟨rest, rfl⟩ := head?_eq_some_iff.mp hp
    have hgrown := wp_and hok
      (erases_mallocLoop ⟨s, []⟩ _ _ (h.wp_grown hpos hfuel (hnone hempty) (hfresh p rfl hcore)))
    obtain ⟨ap, t, -, hroom, -, F', b, -, rfl, -, hb⟩ := wp_noStop_iff.mp hgrown
    exact not_room hwrap hb hroom
  · rintro ⟨hempty, hfail⟩
    have hlt : F.length < fuel := by omega
    have hnull := h.mallocLoop_null hlt (hnone hempty) hfail
    refine wp_post (wp_and (erases_mallocLoop ⟨s, []⟩ (fun ap _ => ap = 0) noStop
      ((wp_of_ok hnull).mpr rfl)) mallocLoop_asked) ?_
    rintro ap t ⟨hap, -, hasked⟩
    exact ⟨fun hne => absurd hap hne, asked_exact hcore hasked⟩

/-- `malloc` is right about sizes below 2^31 - 15; above, it depends on whether a block is free already,
    and with the last seven sizes on whether there is none at all. -/
theorem malloc_enough_iff (h : Layout base F L (initFree base s)) (hfuel : 2 * F.length + 3 ≤ fuel)
    (hsbrk : ∀ p, sbrk.head? = some (some p) → headerSize * coreUnits (units nbytes) < 2 ^ 31 →
      Fresh base s.regions p (headerSize * coreUnits (units nbytes))) :
    Enough base fuel nbytes sbrk s ↔
      nbytes.toNat ≤ 2 ^ 31 - 16 ∨
      (nbytes.toNat ≤ 2 ^ 32 - 8 ∧ ∃ a ∈ F, units nbytes ≤ (initFree base s).size a) ∨
      (2 ^ 32 - 8 < nbytes.toNat ∧ F = [] ∧ ∀ p, sbrk.head? ≠ some (some p)) := by
  have hregions : (initFree base s).regions = s.regions := by
    unfold initFree
    split <;> rfl
  rw [← hregions] at hsbrk
  rw [Enough, wp_malloc]
  by_cases hsmall : nbytes.toNat ≤ 2 ^ 31 - 16
  · exact iff_of_true (enough_of_small h hfuel hsmall hsbrk) (.inl hsmall)
  by_cases hexact : nbytes.toNat ≤ 2 ^ 32 - 8
  · rw [enough_iff_of_large h hfuel (by omega) hexact]
    constructor
    · exact fun hbig => .inr (.inl ⟨hexact, hbig⟩)
    · rintro (hle | ⟨-, hbig⟩ | ⟨hlt, -⟩)
      · exact absurd hle hsmall
      · exact hbig
      · exact absurd hexact (by omega)
  · rw [enough_iff_of_wrap h hfuel (by omega) hsbrk]
    constructor
    · exact fun hnone => .inr (.inr ⟨by omega, hnone⟩)
    · rintro (hle | ⟨hle, -⟩ | ⟨-, hnone⟩)
      · exact absurd hle hsmall
      · exact absurd hle hexact
      · exact hnone

end Enough

/-- The heap before the first call has no free blocks. -/
theorem start_layout : Layout 1024 [] [] (initFree 1024 (start (fun _ => 0) fun _ => 0)) := by
  obtain ⟨F, hlayout, hlen, -, -⟩ :=
    HeapOk.init (m := 0) (s := start (fun _ => 0) fun _ => 0) (by decide : 0 < 1024) (.inl ⟨rfl, rfl, rfl⟩)
  obtain rfl : F = [] := length_eq_zero_iff.mp (by omega)
  exact hlayout

/-- The first call, for 100 bytes. -/
theorem malloc_enough_iff_first : Enough 1024 9 100 [some 4096] (start (fun _ => 0) fun _ => 0) := by
  refine (malloc_enough_iff start_layout (by decide) ?_).mpr (.inl (by decide))
  intro p hp _
  cases hp
  exact ⟨by decide, nofun, by decide⟩

/-- Asked for 2^31 bytes, `malloc` passes a negative number to `sbrk`; asked for 2^32 - 1 bytes, it
    returns a block with room for none. -/
theorem malloc_overflows :
    ¬ Enough 1024 9 0x80000000 [none] (start (fun _ => 0) fun _ => 0) ∧
    ¬ Enough 1024 9 0xFFFFFFFF [some 4096] (start (fun _ => 0) fun _ => 0) := by
  constructor
  · rw [Enough, wp_malloc, enough_iff_of_large start_layout (by decide) (by decide) (by decide)]
    rintro ⟨a, ha, -⟩
    exact absurd ha not_mem_nil
  · rw [Enough, wp_malloc, enough_iff_of_wrap start_layout (by decide) (by decide)]
    · rintro ⟨-, hfail⟩
      exact hfail 4096 rfl
    · intro p hp _
      cases hp
      exact ⟨by decide, nofun, by decide⟩

end Xv6Paging.UmallocSize
