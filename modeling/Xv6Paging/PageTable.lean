import Xv6Paging.Kalloc

/-! # Page tables (`walkpgdir`, `mappages`, `setupkvm` of `vm.c`)

    Every directory maps the kernel half in the same way, through 64 page
    tables of its own; the user half starts empty and gets a page table the
    first time a page below it is mapped.
-/

namespace Xv6Paging

open Function

/-! ## Walking and mapping -/

/-- Give directory slot `k` of `d` the cleared page table `f`. -/
def Machine.addTable (m : Machine) (d k f : Nat) : Machine :=
  m.setDir d { m.dirs d with
    table := update (m.dirs d).table k (some f)
    pte := fun v => if v / nptentries = k then Pte.zero else (m.dirs d).pte v }

/-- The PTE of `va`, as the number of its page; `none` is the null pointer.
    Following a directory that has been freed is a wild access. -/
def walkpgdir (d va : Nat) (alloc : Bool) : K (Option Nat) := do
  let m ← get
  if (m.dirs d).live = true then
    match (m.dirs d).table (pdx va) with
    | some _ => pure (some (vpn va))
    | none =>
      if alloc = true then do
        match ← kalloc with
        | none => pure none
        | some f =>
          modify fun m => m.addTable d (pdx va) f
          pure (some (vpn va))
      else
        pure none
  else
    throw .wild

/-- `*walkpgdir(d, va, 0)` without a null check. -/
def derefPte (d va : Nat) : K Pte := do
  match ← walkpgdir d va false with
  | none => throw .nullDeref
  | some v => getPte d v

/-- Map the page of `va` to frame `f` with the flags of `perm`; `false` is `-1`.
    Every caller passes `PGSIZE` bytes. -/
def mappages (d va f : Nat) (perm : Pte) : K Bool := do
  match ← walkpgdir d va true with
  | none => pure false
  | some v =>
    let pte ← getPte d v
    if pte.p = true then
      throw (.panic "remap")
    else
      setPte d v (perm.mapTo f)
      pure true

/-! ## The kernel half -/

/-- The entries that `kmap` gives the kernel half. -/
def kmapPte (c : Config) (v : Nat) : Pte :=
  let f := v - nuserPages
  if v < nuserPages then
    Pte.zero
  else if f < nframes then
    -- I/O space and everything from `data` on is writable, kernel text is not.
    { Pte.zero with frame := f, p := true, w := decide (f < extmem / pgsize ∨ c.kdata ≤ f) }
  else if devspace / pgsize ≤ v ∧ v < 2 ^ 20 then
    { Pte.zero with frame := v, p := true, w := true }
  else
    Pte.zero

/-- Directory slots that `kmap` fills: `KERNBASE..KERNBASE+PHYSTOP` and `DEVSPACE`. -/
def kmapSlots : List Nat := List.range' 512 56 ++ List.range' 1016 8

/-- A directory without user pages. -/
def PageDir.fresh (c : Config) : PageDir where
  live := true
  table := fun _ => none
  pte := kmapPte c

/-- Add one page table of the kernel half without clearing its entries:
    `mappages` fills them at once. -/
def Machine.addKernelTable (m : Machine) (d k f : Nat) : Machine :=
  m.setDir d { m.dirs d with table := update (m.dirs d).table k (some f) }

/-- Page tables for the slots `ks`; `false` when `kalloc` runs out. -/
def mapKernel (d : Nat) : List Nat → K Bool
  | [] => pure true
  | k :: ks => do
    match ← kalloc with
    | none => pure false
    | some f =>
      modify fun m => m.addKernelTable d k f
      mapKernel d ks

/-! ## Releasing a directory -/

/-- Free the page tables of `d` in the slots `ks`. The source leaves the
    directory entries in place; the directory itself is freed right after. -/
def freeTables (c : Config) (d : Nat) : List Nat → K Unit
  | [] => pure ()
  | k :: ks => do
    let m ← get
    match (m.dirs d).table k with
    | none => freeTables c d ks
    | some f =>
      modify fun m => m.setDir d { m.dirs d with table := update (m.dirs d).table k none }
      kfree c f
      freeTables c d ks

/-! ## Rules -/

section Rules

open Wp

variable {m : Machine} {E : Stop → Machine → Prop} {d va : Nat}

/-- A walk without allocation. -/
theorem wp_walkpgdir (Q : Option Nat → Machine → Prop) :
    wp (walkpgdir d va false) Q E m ↔
      ((m.dirs d).live = true →
        ((m.dirs d).table (pdx va) = none → Q none m) ∧
        ((m.dirs d).table (pdx va) ≠ none → Q (some (vpn va)) m)) ∧
      (¬ (m.dirs d).live = true → E .wild m) := by
  simp only [walkpgdir, wp_bind, wp_get, wp_ite, wp_throw]
  cases h : (m.dirs d).table (pdx va) with
  | none => simp
  | some t => simp

theorem wp_walkpgdir_mapped {alloc : Bool} (Q : Option Nat → Machine → Prop)
    (hl : (m.dirs d).live = true) (ht : (m.dirs d).table (pdx va) ≠ none) :
    wp (walkpgdir d va alloc) Q E m ↔ Q (some (vpn va)) m := by
  obtain ⟨t, ht⟩ := Option.ne_none_iff_exists'.mp ht
  simp only [walkpgdir, wp_bind, wp_get, wp_ite, wp_throw, hl, ht]
  simp

theorem wp_derefPte_mapped (Q : Pte → Machine → Prop)
    (hl : (m.dirs d).live = true) (ht : (m.dirs d).table (pdx va) ≠ none) :
    wp (derefPte d va) Q E m ↔ Q ((m.dirs d).pte (vpn va)) m := by
  simp only [derefPte, wp_bind, wp_walkpgdir_mapped _ hl ht, wp_getPte]

theorem wp_mappages_mapped {perm : Pte} (Q : Bool → Machine → Prop)
    (hl : (m.dirs d).live = true) (ht : (m.dirs d).table (pdx va) ≠ none)
    (hp : ((m.dirs d).pte (vpn va)).p = false) : wp (mappages d va f perm) Q E m ↔
      Q true (m.setPte d (vpn va) (perm.mapTo f)) := by
  simp only [mappages, wp_bind, wp_walkpgdir_mapped _ hl ht, wp_getPte, wp_ite, hp, wp_setPte,
    wp_pure]
  simp

end Rules

end Xv6Paging
