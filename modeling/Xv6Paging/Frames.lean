import Xv6Paging.Lib.Holders
import Xv6Paging.Trap

/-! # Who holds a frame

    A frame is held by user PTEs, and by the kernel as a page directory, a page
    table, a kernel stack or a pipe. `RefInv` says that the reference counters
    count the holders and that the free list has the frames without one.

    The memory code changes these things in a few ways only, `Event`: it takes a
    frame off the free list, maps it, and so on. Between two events frames may be
    in flight: counted, but held by a local variable. Each event keeps the
    invariant, so a function that is a sequence of events keeps it.
-/

namespace Xv6Paging

open Holders Function

variable {d : Nat} {dir : PageDir} {who : Nat → Prop}

/-! ## Holders -/

/-- A place that may hold a frame. -/
inductive Use where
  | pte (d v : Nat)
  | dir (d : Nat)
  | table (d k : Nat)
  | held (f : Nat)
  deriving DecidableEq

/-- The kernel does not share the frames it holds. -/
def Use.kernel : Use → Prop
  | .pte _ _ => False
  | _ => True

/-- The user pages of all directories, and what the kernel may hold. -/
def uses : Finset Use :=
  ((Finset.range nframes ×ˢ Finset.range nuserPages).image fun x => .pte x.1 x.2) ∪
  (Finset.range nframes).image .dir ∪
  ((Finset.range nframes ×ˢ Finset.range npdentries).image fun x => .table x.1 x.2) ∪
  (Finset.range nframes).image .held

theorem mem_uses_pte : Use.pte d v ∈ uses ↔ d < nframes ∧ v < nuserPages := by
  simp [uses]

theorem mem_uses_dir : Use.dir d ∈ uses ↔ d < nframes := by
  simp [uses]

theorem mem_uses_table : Use.table d k ∈ uses ↔ d < nframes ∧ k < npdentries := by
  simp [uses]

theorem mem_uses_held : Use.held f ∈ uses ↔ f < nframes := by
  simp [uses]

attribute [irreducible] uses

/-- The PTE of page `v` exists in directory `dir` and is present. -/
def PageDir.maps (dir : PageDir) (v : Nat) : Bool :=
  dir.live && (dir.table (v / nptentries)).isSome && (dir.pte v).p

/-- The frame that a place holds. -/
def Machine.target (m : Machine) : Use → Option Nat
  | .pte d v => if (m.dirs d).maps v = true then some ((m.dirs d).pte v).frame else none
  | .dir d => if (m.dirs d).live = true then some d else none
  | .table d k => if (m.dirs d).live = true then (m.dirs d).table k else none
  | .held f => if m.kheld f = true then some f else none

/-- The reference counters are right, with the frames `flight` in flight. -/
structure RefInv (c : Config) (m : Machine) (flight : List Nat) : Prop where
  balanced : Balanced (managed c) uses Use.kernel m.target m.referenceCounters m.freelist flight
  live_lt : ∀ {d : Nat}, (m.dirs d).live = true → d < nframes

/-! ## Events -/

/-- A PTE that is present keeps its frame and whether the user may use it. -/
def SamePte (x x' : Pte) : Prop := x'.p = x.p ∧ (x.p = true → x'.frame = x.frame ∧ x'.u = x.u)

/-- Nothing has been done that concerns frames, and only the processes `who`
    have changed. -/
structure Neutral (who : Nat → Prop) (m m' : Machine) : Prop where
  refs : m'.referenceCounters = m.referenceCounters
  freelist : m'.freelist = m.freelist
  kheld : m'.kheld = m.kheld
  live : ∀ d, (m'.dirs d).live = (m.dirs d).live
  table : ∀ d, (m'.dirs d).table = (m.dirs d).table
  pte : ∀ d v, SamePte ((m.dirs d).pte v) ((m'.dirs d).pte v)
  pgdir : ∀ q, (m'.proc q).pgdir = (m.proc q).pgdir
  used : ∀ q, (m'.proc q).used = (m.proc q).used
  proc : ∀ q, ¬ who q → m'.proc q = m.proc q

/-- A machine, and the frames in flight. -/
structure Flight where
  machine : Machine
  frames : List Nat

/-- Release the page table in slot `k` of directory `d`. -/
def Machine.delTable (m : Machine) (d k : Nat) : Machine :=
  m.setDir d { m.dirs d with table := update (m.dirs d).table k none }

def Machine.killDir (m : Machine) (d : Nat) : Machine :=
  m.setDir d { m.dirs d with live := false }

/-- What the memory code may do next. Only the processes `who` may change, and
    only the pages that `gone` allows lose their frame. -/
inductive Event (c : Config) (who : Nat → Prop) (gone : Nat → Nat → Prop) : Flight → Flight → Prop
  | neutral {m m' : Machine} {fl : List Nat} (h : Neutral who m m') :
      Event c who gone ⟨m, fl⟩ ⟨m', fl⟩
  | take {m : Machine} {fl rest : List Nat} {f : Nat} (hf : m.freelist = f :: rest) :
      Event c who gone ⟨m, fl⟩ ⟨m.takeFrame f rest, f :: fl⟩
  | drop {m : Machine} {fl : List Nat} {f : Nat} : Event c who gone ⟨m, f :: fl⟩ ⟨m.dropRef f, fl⟩
  | more {m : Machine} {fl : List Nat} {d v : Nat} (hv : v < nuserPages)
      (hmaps : (m.dirs d).maps v = true) :
      Event c who gone ⟨m, fl⟩ ⟨m.moreRef ((m.dirs d).pte v).frame, ((m.dirs d).pte v).frame :: fl⟩
  | map {m : Machine} {fl : List Nat} {d v : Nat} {x : Pte} (hv : v < nuserPages)
      (hl : (m.dirs d).live = true) (ht : (m.dirs d).table (v / nptentries) ≠ none)
      (hnp : ((m.dirs d).pte v).p = false) (hx : x.p = true) :
      Event c who gone ⟨m, x.frame :: fl⟩ ⟨m.setPte d v x, fl⟩
  | unmap {m : Machine} {fl : List Nat} {d v : Nat} {x : Pte} (hv : v < nuserPages)
      (hmaps : (m.dirs d).maps v = true) (hgone : gone d v) (hx : x.p = false) :
      Event c who gone ⟨m, fl⟩ ⟨m.setPte d v x, ((m.dirs d).pte v).frame :: fl⟩
  | copy {m : Machine} {fl rest : List Nat} {d v : Nat} {x : Pte} (hv : v < nuserPages)
      (hmaps : (m.dirs d).maps v = true) (hf : m.freelist = x.frame :: rest) (hx : x.p = true)
      (hu : x.u = ((m.dirs d).pte v).u) (h1 : 1 < m.referenceCounters ((m.dirs d).pte v).frame) :
      Event c who gone ⟨m, fl⟩
        ⟨((m.takeFrame x.frame rest).setPte d v x).lessRef ((m.dirs d).pte v).frame, fl⟩
  | table {m : Machine} {fl rest : List Nat} {d k f : Nat} (hf : m.freelist = f :: rest)
      (hl : (m.dirs d).live = true) (hnone : (m.dirs d).table k = none)
      (hk : k * nptentries < nuserPages) :
      Event c who gone ⟨m, fl⟩ ⟨(m.takeFrame f rest).addTable d k f, fl⟩
  | kernelTable {m : Machine} {fl rest : List Nat} {d k f : Nat} (hf : m.freelist = f :: rest)
      (hl : (m.dirs d).live = true) (hnone : (m.dirs d).table k = none)
      (hlow : nuserPages ≤ k * nptentries) (hk : k < npdentries) :
      Event c who gone ⟨m, fl⟩ ⟨(m.takeFrame f rest).addKernelTable d k f, fl⟩
  | newDir {m : Machine} {fl rest : List Nat} {d : Nat} (hf : m.freelist = d :: rest) :
      Event c who gone ⟨m, fl⟩ ⟨(m.takeFrame d rest).setDir d (PageDir.fresh c), fl⟩
  | delTable {m : Machine} {fl : List Nat} {d k f : Nat} (hl : (m.dirs d).live = true)
      (hk : (m.dirs d).table k = some f) (hlt : k < npdentries)
      (hclear : ∀ v < nuserPages, v / nptentries = k → ((m.dirs d).pte v).p = false)
      (hown : ∀ q, (m.proc q).used = true → (m.proc q).pgdir ≠ d) :
      Event c who gone ⟨m, fl⟩ ⟨m.delTable d k, f :: fl⟩
  | killDir {m : Machine} {fl : List Nat} {d : Nat} (hl : (m.dirs d).live = true)
      (hnone : ∀ k < npdentries, (m.dirs d).table k = none)
      (hown : ∀ q, (m.proc q).used = true → (m.proc q).pgdir ≠ d) :
      Event c who gone ⟨m, fl⟩ ⟨m.killDir d, d :: fl⟩

/-! ## What an event changes -/

section Target

variable {m : Machine} {v k f : Nat} {x : Pte} {u : Use}

theorem target_pte_of_maps (h : (m.dirs d).maps v = true) :
    m.target (.pte d v) = some ((m.dirs d).pte v).frame := if_pos h

theorem target_pte_of_not_maps (h : (m.dirs d).maps v = false) : m.target (.pte d v) = none :=
  if_neg (by simp [h])

theorem PageDir.maps_iff :
    dir.maps v = true ↔ dir.live = true ∧ dir.table (v / nptentries) ≠ none ∧ (dir.pte v).p = true := by
  simp [PageDir.maps, Option.isSome_iff_ne_none, and_assoc]

/-- Places outside directory `d` do not depend on it. -/
def Use.inDir : Use → Nat → Prop
  | .pte d _, e => d = e
  | .dir d, e => d = e
  | .table d _, e => d = e
  | .held _, _ => False

/-- To see that a place holds what it held, look at those of the directory that is replaced. -/
theorem target_setDir (hpte : ∀ v, u = .pte d v → (m.setDir d dir).target u = m.target u)
    (hdir : u = .dir d → (m.setDir d dir).target u = m.target u)
    (htable : ∀ k, u = .table d k → (m.setDir d dir).target u = m.target u) :
    (m.setDir d dir).target u = m.target u := by
  by_cases hd : u.inDir d
  · cases u with
    | pte e v => exact hpte v (congrArg (Use.pte · v) hd)
    | dir e => exact hdir (congrArg Use.dir hd)
    | table e k => exact htable k (congrArg (Use.table · k) hd)
    | held f => rfl
  · cases u with
    | pte e v => simp [Machine.target, update_of_ne (show e ≠ d from hd)]
    | dir e => simp [Machine.target, update_of_ne (show e ≠ d from hd)]
    | table e k => simp [Machine.target, update_of_ne (show e ≠ d from hd)]
    | held f => rfl

theorem setPte_eq_setDir : m.setPte d v x =
    m.setDir d { m.dirs d with pte := update (m.dirs d).pte v x } := rfl

theorem target_setPte_ne (h : u ≠ .pte d v) : (m.setPte d v x).target u = m.target u := by
  refine target_setDir ?_ ?_ ?_
  · rintro w rfl
    have hw : w ≠ v := fun hw => h (by rw [hw])
    simp [Machine.target, PageDir.maps, update_of_ne hw]
  · rintro rfl
    simp [Machine.target]
  · rintro k rfl
    simp [Machine.target]

theorem target_setPte_self (hl : (m.dirs d).live = true) (ht : (m.dirs d).table (v / nptentries) ≠ none) :
    (m.setPte d v x).target (.pte d v) = if x.p = true then some x.frame else none := by
  simp [Machine.target, PageDir.maps, hl, Option.isSome_iff_ne_none, ht]

/-- A page table that is added is empty. -/
theorem target_addTable_ne (hnone : (m.dirs d).table k = none) (h : u ≠ .table d k) :
    (m.addTable d k f).target u = m.target u := by
  refine target_setDir ?_ ?_ ?_
  · rintro v rfl
    by_cases hv : v / nptentries = k
    · -- No table before, a cleared one now.
      subst hv
      simp [Machine.target, PageDir.maps, hnone, Pte.zero]
    · simp [Machine.target, PageDir.maps, hv]
  · rintro rfl
    simp [Machine.target]
  · rintro j rfl
    have hj : j ≠ k := fun hj => h (by rw [hj])
    simp [Machine.target, update_of_ne hj]

/-- A page table of the kernel half holds no user pages. -/
theorem target_addKernelTable_ne (hlow : nuserPages ≤ k * nptentries)
    (hv : ∀ v, u = .pte d v → v < nuserPages) (h : u ≠ .table d k) :
    (m.addKernelTable d k f).target u = m.target u := by
  refine target_setDir ?_ ?_ ?_
  · rintro v rfl
    have hne : v / nptentries ≠ k := by
      have := hv v rfl
      simp only [nptentries, nuserPages] at *
      omega
    simp [Machine.target, PageDir.maps, update_of_ne hne]
  · rintro rfl
    simp [Machine.target]
  · rintro j rfl
    have hj : j ≠ k := fun hj => h (by rw [hj])
    simp [Machine.target, update_of_ne hj]

theorem target_delTable_ne
    (hclear : ∀ v, u = .pte d v → v / nptentries = k → ((m.dirs d).pte v).p = false)
    (h : u ≠ .table d k) : (m.delTable d k).target u = m.target u := by
  refine target_setDir ?_ ?_ ?_
  · rintro v rfl
    by_cases hv : v / nptentries = k
    · simp [Machine.target, PageDir.maps, hclear v rfl hv]
    · simp [Machine.target, PageDir.maps, update_of_ne hv]
  · rintro rfl
    simp [Machine.target]
  · rintro j rfl
    have hj : j ≠ k := fun hj => h (by rw [hj])
    simp [Machine.target, update_of_ne hj]

theorem target_killDir_ne (hnone : ∀ k < npdentries, (m.dirs d).table k = none)
    (hv : ∀ v, u = .pte d v → v < nuserPages) (hk : ∀ k, u = .table d k → k < npdentries)
    (h : u ≠ .dir d) : (m.killDir d).target u = m.target u := by
  refine target_setDir ?_ (fun hu => absurd hu h) ?_
  · rintro v rfl
    have := hv v rfl
    have ht := hnone (v / nptentries) (by simp only [nptentries, nuserPages, npdentries] at *; omega)
    simp [Machine.target, PageDir.maps, ht]
  · rintro j rfl
    simp [Machine.target, hnone j (hk j rfl)]

end Target

/-! ## Events keep the counters right -/

section RefInv

variable {c : Config} {m m' : Machine} {fl rest : List Nat} {v k f : Nat} {x : Pte}

theorem RefInv.pte_mem (h : RefInv c m fl) (hl : (m.dirs d).live = true) (hv : v < nuserPages) :
    Use.pte d v ∈ uses := mem_uses_pte.mpr ⟨h.live_lt hl, hv⟩

/-- A frame on the free list is not a directory. -/
theorem RefInv.not_live_of_free (h : RefInv c m fl) (hd : d ∈ m.freelist) : (m.dirs d).live = false := by
  by_contra hl
  rw [Bool.not_eq_false] at hl
  exact h.balanced.not_held (mem_uses_dir.mpr (h.live_lt hl)) hd (if_pos hl)

theorem RefInv.neutral (h : RefInv c m fl) (hn : Neutral who m m') :
    RefInv c m' fl where
  balanced := by
    rw [hn.refs, hn.freelist]
    apply h.balanced.congr
    intro u _
    cases u with
    | pte d v =>
      obtain ⟨hp, hf⟩ := hn.pte d v
      have hmaps : (m'.dirs d).maps v = (m.dirs d).maps v := by
        simp only [PageDir.maps, hn.live, hn.table, hp]
      simp only [Machine.target, hmaps]
      by_cases hm : (m.dirs d).maps v = true
      · rw [if_pos hm, if_pos hm, (hf (PageDir.maps_iff.mp hm).2.2).1]
      · rw [if_neg hm, if_neg hm]
    | dir d => simp only [Machine.target, hn.live]
    | table d k => simp only [Machine.target, hn.live, hn.table]
    | held f => simp only [Machine.target, hn.kheld]
  live_lt := fun hl => h.live_lt (by rwa [← hn.live])

theorem RefInv.take (h : RefInv c m fl) (hf : m.freelist = f :: rest) :
    RefInv c (m.takeFrame f rest) (f :: fl) where
  balanced := by
    have hb := h.balanced
    rw [hf] at hb
    exact hb.take
  live_lt := h.live_lt

theorem RefInv.drop (h : RefInv c m (f :: fl)) : RefInv c (m.dropRef f) fl where
  balanced := h.balanced.drop
  live_lt := h.live_lt

theorem RefInv.less (h : RefInv c m (f :: fl)) (h1 : 1 < m.referenceCounters f) :
    RefInv c (m.lessRef f) fl where
  balanced := by
    have hb := h.balanced.drop
    rwa [if_neg (by omega)] at hb
  live_lt := h.live_lt

theorem RefInv.more (h : RefInv c m fl) (hv : v < nuserPages) (hmaps : (m.dirs d).maps v = true) :
    RefInv c (m.moreRef ((m.dirs d).pte v).frame) (((m.dirs d).pte v).frame :: fl) where
  balanced := by
    have hmem := h.pte_mem (PageDir.maps_iff.mp hmaps).1 hv
    exact h.balanced.share hmem (target_pte_of_maps hmaps) not_false
  live_lt := h.live_lt

theorem setPte_live (e : Nat) : ((m.setPte d v x).dirs e).live = (m.dirs e).live := by
  by_cases he : e = d
  · subst he
    simp
  · simp [update_of_ne he]

theorem setPte_table (e : Nat) : ((m.setPte d v x).dirs e).table = (m.dirs e).table := by
  by_cases he : e = d
  · subst he
    simp
  · simp [update_of_ne he]

theorem RefInv.map (h : RefInv c m (x.frame :: fl)) (hv : v < nuserPages)
    (hl : (m.dirs d).live = true) (ht : (m.dirs d).table (v / nptentries) ≠ none)
    (hnp : ((m.dirs d).pte v).p = false) (hx : x.p = true) : RefInv c (m.setPte d v x) fl where
  balanced := by
    have hold : m.target (.pte d v) = none := target_pte_of_not_maps (by simp [PageDir.maps, hnp])
    have hnew : (m.setPte d v x).target (.pte d v) = some x.frame := by
      rw [target_setPte_self hl ht, if_pos hx]
    exact h.balanced.put (h.pte_mem hl hv) hold hnew (fun w _ hw => target_setPte_ne hw) False.elim
  live_lt := fun hlive => h.live_lt (by rwa [← setPte_live])

theorem RefInv.unmap (h : RefInv c m fl) (hv : v < nuserPages) (hmaps : (m.dirs d).maps v = true)
    (hx : x.p = false) : RefInv c (m.setPte d v x) (((m.dirs d).pte v).frame :: fl) where
  balanced := by
    obtain ⟨hl, ht, _⟩ := PageDir.maps_iff.mp hmaps
    have hnew : (m.setPte d v x).target (.pte d v) = none := by
      rw [target_setPte_self hl ht, if_neg (by simp [hx])]
    exact h.balanced.lift (h.pte_mem hl hv) (target_pte_of_maps hmaps) hnew
      (fun w _ hw => target_setPte_ne hw)
  live_lt := fun hlive => h.live_lt (by rwa [← setPte_live])

/-- The order of the frames in flight does not matter. -/
theorem RefInv.perm {fl' : List Nat} (h : RefInv c m fl) (hp : fl.Perm fl') : RefInv c m fl' where
  balanced := h.balanced.perm_flight hp
  live_lt := h.live_lt

/-- Replacing a mapping: take the old one out, then put the new one in. -/
theorem RefInv.remap (h : RefInv c m (x.frame :: fl)) (hv : v < nuserPages)
    (hmaps : (m.dirs d).maps v = true) (hx : x.p = true) :
    RefInv c (m.setPte d v x) (((m.dirs d).pte v).frame :: fl) := by
  obtain ⟨hl, ht, _⟩ := PageDir.maps_iff.mp hmaps
  have hout := (h.unmap (x := Pte.zero) hv hmaps rfl).perm (List.Perm.swap _ _ _)
  have hin := hout.map (d := d) (x := x) hv (by rwa [setPte_live]) (by rwa [setPte_table])
    (by simp [Pte.zero]) hx
  rwa [Machine.setPte_setPte] at hin

section Steps

variable (h : RefInv c m fl)

include h

/-- A shared frame is replaced by a copy of its own. -/
theorem RefInv.copy (hv : v < nuserPages) (hmaps : (m.dirs d).maps v = true)
    (hf : m.freelist = x.frame :: rest) (hx : x.p = true)
    (h1 : 1 < m.referenceCounters ((m.dirs d).pte v).frame) :
    RefInv c (((m.takeFrame x.frame rest).setPte d v x).lessRef ((m.dirs d).pte v).frame) fl := by
  have hne : ((m.dirs d).pte v).frame ≠ x.frame := by
    intro heq
    have hfree := (h.balanced.free_iff.mp (show x.frame ∈ m.freelist by simp [hf])).2
    rw [heq] at h1
    omega
  refine ((h.take hf).remap hv hmaps hx).less ?_
  show 1 < update m.referenceCounters x.frame 1 ((m.dirs d).pte v).frame
  rwa [update_of_ne hne]

/-- A directory is replaced by one in which a single place `u` differs, which
    gets the frame just taken. -/
theorem RefInv.putDir (hf : m.freelist = f :: rest) (hd : d < nframes)
    (hu : u ∈ uses) (hold : m.target u = none) (hnew : (m.setDir d dir).target u = some f)
    (hother : ∀ w ∈ uses, w ≠ u → (m.setDir d dir).target w = m.target w) :
    RefInv c ((m.takeFrame f rest).setDir d dir) fl where
  balanced := (h.take hf).balanced.put hu hold hnew hother (fun _ => by simp)
  live_lt := by
    intro e he
    by_cases hed : e = d
    · rw [hed]
      exact hd
    · rw [Machine.setDir_dirs, update_of_ne hed] at he
      exact h.live_lt he

theorem RefInv.table (hf : m.freelist = f :: rest) (hl : (m.dirs d).live = true) (hnone : (m.dirs d).table k = none)
    (hk : k * nptentries < nuserPages) : RefInv c ((m.takeFrame f rest).addTable d k f) fl := by
  have hk' : k < npdentries := by simp only [nptentries, nuserPages, npdentries] at *; omega
  refine h.putDir hf (h.live_lt hl) (u := .table d k) (mem_uses_table.mpr ⟨h.live_lt hl, hk'⟩) ?_ ?_ ?_
  · simp [Machine.target, hl, hnone]
  · simp [Machine.target, hl]
  · exact fun w _ hne => target_addTable_ne hnone hne

theorem RefInv.kernelTable (hf : m.freelist = f :: rest)
    (hl : (m.dirs d).live = true) (hnone : (m.dirs d).table k = none)
    (hlow : nuserPages ≤ k * nptentries) (hk : k < npdentries) :
    RefInv c ((m.takeFrame f rest).addKernelTable d k f) fl := by
  refine h.putDir hf (h.live_lt hl) (u := .table d k) (mem_uses_table.mpr ⟨h.live_lt hl, hk⟩) ?_ ?_ ?_
  · simp [Machine.target, hl, hnone]
  · simp [Machine.target, hl]
  · intro w hw hne
    exact target_addKernelTable_ne hlow (fun v hv => (mem_uses_pte.mp (hv ▸ hw)).2) hne

theorem RefInv.newDir (hf : m.freelist = d :: rest) :
    RefInv c ((m.takeFrame d rest).setDir d (PageDir.fresh c)) fl := by
  have hfree : d ∈ m.freelist := by simp [hf]
  have hlt : d < nframes := (h.balanced.free_iff.mp hfree).1.2
  have hdead := h.not_live_of_free hfree
  refine h.putDir hf hlt (u := .dir d) (mem_uses_dir.mpr hlt) ?_ ?_ ?_
  · simp [Machine.target, hdead]
  · simp [Machine.target, PageDir.fresh]
  · intro w _ hne
    refine target_setDir ?_ (fun hw => absurd hw hne) ?_
    · rintro v rfl
      simp [Machine.target, PageDir.maps, PageDir.fresh, hdead]
    · rintro j rfl
      simp [Machine.target, PageDir.fresh, hdead]

/-- A directory is replaced by one in which a single place no longer holds `f`. -/
theorem RefInv.liftDir (hu : u ∈ uses)
    (hlive : dir.live = true → (m.dirs d).live = true) (hold : m.target u = some f)
    (hnew : (m.setDir d dir).target u = none)
    (hother : ∀ w ∈ uses, w ≠ u → (m.setDir d dir).target w = m.target w) :
    RefInv c (m.setDir d dir) (f :: fl) where
  balanced := h.balanced.lift hu hold hnew hother
  live_lt := by
    intro e he
    by_cases hed : e = d
    · subst hed
      exact h.live_lt (hlive (by simpa using he))
    · rw [Machine.setDir_dirs, update_of_ne hed] at he
      exact h.live_lt he

theorem RefInv.delTable (hl : (m.dirs d).live = true) (hk : (m.dirs d).table k = some f) (hlt : k < npdentries)
    (hclear : ∀ v < nuserPages, v / nptentries = k → ((m.dirs d).pte v).p = false) :
    RefInv c (m.delTable d k) (f :: fl) := by
  refine h.liftDir (u := .table d k) (mem_uses_table.mpr ⟨h.live_lt hl, hlt⟩) (fun _ => hl) ?_ ?_ ?_
  · simp [Machine.target, hl, hk]
  · simp [Machine.target]
  · intro w hw hne
    exact target_delTable_ne (fun v hv => hclear v (mem_uses_pte.mp (hv ▸ hw)).2) hne

theorem RefInv.killDir (hl : (m.dirs d).live = true)
    (hnone : ∀ k < npdentries, (m.dirs d).table k = none) : RefInv c (m.killDir d) (d :: fl) := by
  refine h.liftDir (u := .dir d) (mem_uses_dir.mpr (h.live_lt hl)) (fun _ => hl) ?_ ?_ ?_
  · simp [Machine.target, hl]
  · simp [Machine.target]
  · intro w hw hne
    exact target_killDir_ne hnone (fun v hv => (mem_uses_pte.mp (hv ▸ hw)).2)
      (fun k hk => (mem_uses_table.mp (hk ▸ hw)).2) hne

end Steps

theorem Event.refInv {gone : Nat → Nat → Prop} (he : Event c who gone F F')
    (h : RefInv c F.machine F.frames) : RefInv c F'.machine F'.frames := by
  cases he with
  | neutral hn => exact h.neutral hn
  | take hf => exact h.take hf
  | drop => exact h.drop
  | more hv hmaps => exact h.more hv hmaps
  | map hv hl ht hnp hx => exact h.map hv hl ht hnp hx
  | unmap hv hmaps _ hx => exact h.unmap hv hmaps hx
  | copy hv hmaps hf hx _ h1 => exact h.copy hv hmaps hf hx h1
  | table hf hl hnone hk => exact h.table hf hl hnone hk
  | kernelTable hf hl hnone hlow hk => exact h.kernelTable hf hl hnone hlow hk
  | newDir hf => exact h.newDir hf
  | delTable hl hk hlt hclear _ => exact h.delTable hl hk hlt hclear
  | killDir hl hnone _ => exact h.killDir hl hnone

end RefInv

end Xv6Paging
