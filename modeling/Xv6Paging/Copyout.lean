import Xv6Paging.Process

/-! # Copying to user memory (`uva2ka` and `copyout` of `vm.c`)

    `copyout` writes to the pages of a directory that need not be the current one, page by
    page, and stops at the first page that user mode could not access. It finds a page
    through `uva2ka`, which follows the result of `walkpgdir` without looking at it: where
    there is no page table, that is a null pointer.
-/

namespace Xv6Paging

open Wp Function

variable {pg : Page} {n pos : Nat} {dir : PageDir}

/-! ## Code -/

/-- A page after `n` bytes of `buf` have been moved to `pos`. -/
def Page.moveIn (pg : Page) (pos : Nat) (buf : Nat → UInt8) (n : Nat) : Page := fun k =>
  if pos ≤ k.val ∧ k.val < pos + n then buf (k.val - pos) else pg k

/-- One byte at a user address. -/
def Machine.putByte (m : Machine) (d a : Nat) (x : UInt8) : Machine :=
  m.setMem ((m.dirs d).pte (vpn a)).frame
    ((m.mem ((m.dirs d).pte (vpn a)).frame).moveIn (a % pgsize) (fun _ => x) 1)

/-- The first `n` bytes of `buf`, one after the other. -/
def Machine.putBytes (m : Machine) (d va : Nat) (buf : Nat → UInt8) : Nat → Machine
  | 0 => m
  | n + 1 => (m.putBytes d va buf n).putByte d (va + n) (buf n)

/-- User mode can access page `v`. -/
def PageDir.user (dir : PageDir) (v : Nat) : Prop :=
  dir.table (v / nptentries) ≠ none ∧ (dir.pte v).p = true ∧ (dir.pte v).u = true

section Bytes

variable {m : Machine} {d va v : Nat} {buf : Nat → UInt8}

theorem putByte_dirs (a : Nat) (x : UInt8) : (m.putByte d a x).dirs = m.dirs := rfl

theorem putBytes_dirs (n : Nat) : (m.putBytes d va buf n).dirs = m.dirs := by
  induction n with
  | zero => rfl
  | succ n ih => rw [Machine.putBytes, putByte_dirs, ih]

theorem putBytes_add (i n : Nat) :
    m.putBytes d va buf (i + n) = (m.putBytes d va buf i).putBytes d (va + i) (fun k => buf (i + k)) n := by
  induction n with
  | zero => rfl
  | succ n ih => rw [← Nat.add_assoc, Machine.putBytes, ih, Machine.putBytes, Nat.add_assoc]

end Bytes

/-! ## What `copyout` does -/

section Copyout

variable {m : Machine} {d va len fuel : Nat} {buf : Nat → UInt8}

/-- User mode can access every page of a range. -/
def UserRange (dir : PageDir) (va len : Nat) : Prop :=
  ∀ a, va ≤ a → a < va + len → dir.user (vpn a)

/-- What a copy leaves behind. It succeeds if user mode can access all of the pages, and then exactly the
    bytes of the range are written; otherwise those in front of the start of some page, or none. -/
structure Copied (m : Machine) (d va : Nat) (buf : Nat → UInt8) (len : Nat) (r : Bool)
    (m' : Machine) : Prop where
  result : r = true ↔ UserRange (m.dirs d) va len
  full : r = true → m' = m.putBytes d va buf len
  part : r = false → ∃ n < len, (n = 0 ∨ (va + n) % pgsize = 0) ∧ m' = m.putBytes d va buf n

/-- The bytes of a range that the first turn moves. -/
structure Head (va len n : Nat) : Prop where
  pos : 0 < n
  le : n ≤ len
  page : va % pgsize + n ≤ pgsize
  last : n < len → va % pgsize + n = pgsize

theorem Head.userRange (h : Head va len n) (hu : dir.user (vpn va)) :
    UserRange dir va len ↔ UserRange dir (va + n) (len - n) := by
  have hle := h.le
  have hpage := h.page
  constructor
  · intro hr a ha hlt
    exact hr a (by omega) (by omega)
  · intro hr a ha hlt
    by_cases hn : a < va + n
    · have hvpn : vpn a = vpn va := by
        unfold vpn pgsize at *
        omega
      rw [hvpn]
      exact hu
    · exact hr a (by omega) (by omega)

theorem Head.copied (h : Head va len n) (hu : (m.dirs d).user (vpn va))
    (hc : Copied (m.putBytes d va buf n) d (va + n) (fun k => buf (n + k)) (len - n) r m') :
    Copied m d va buf len r m' := by
  have hle := h.le
  have hlast := h.last
  have hmod := Nat.add_mod va n pgsize
  constructor
  · rw [h.userRange hu, hc.result, putBytes_dirs]
  · intro hr
    rw [hc.full hr, ← putBytes_add, Nat.add_sub_cancel' hle]
  · intro hr
    obtain ⟨k, hk, hstart, hm⟩ := hc.part hr
    refine ⟨n + k, by omega, Or.inr ?_, ?_⟩
    · rcases hstart with rfl | hstart
      · have := hlast (by omega)
        unfold pgsize at *
        omega
      · rw [← Nat.add_assoc]
        exact hstart
    · rw [hm, putBytes_add]

end Copyout

end Xv6Paging
