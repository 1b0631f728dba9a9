import Xv6Paging.Lib.CircularList
import Xv6Paging.Lib.Run
import Xv6Paging.Lib.Tiling
import Xv6Paging.Machine

/-! # malloc and free

    The allocator of the user library: free blocks in a circular list that is kept in the
    order of addresses, with the empty block `base` in it. A block is a header, with a pointer
    and a size in units of headers, and what comes after it.

    The two fields of headers are functions of the address of the header. The state also has
    what the allocator does not know: the regions that `sbrk` gave, and the blocks that
    the program has and did not free. `sbrk` may give any region above the earlier ones, or fail.
-/

namespace Xv6Paging.Umalloc

open Wp Run CircularList Tiling

/-- `sizeof(Header)`. -/
def headerSize : Nat := 8

structure Sys where
  ptr : Nat → Nat
  size : Nat → Nat
  freep : Nat
  /-- Start and length of what `sbrk` gave. -/
  regions : List (Nat × Nat)
  /-- Headers of the blocks that the program has. -/
  live : List Nat

abbrev M : Type → Type := EStateM Stop Sys

namespace Sys

@[simps -fullyApplied]
def setPtr (s : Sys) (p q : Nat) : Sys := { s with ptr := Function.update s.ptr p q }

@[simps -fullyApplied]
def setSize (s : Sys) (p n : Nat) : Sys := { s with size := Function.update s.size p n }

end Sys

/-- `p + n` for a `Header *`. -/
def plus (p n : Nat) : Nat := (p + headerSize * n) % 2 ^ 32

/-- Is the place of `bp` after `p`, which leads to `q`? -/
def fits (bp p q : Nat) : Prop := p < bp ∧ bp < q ∨ q ≤ p ∧ (p < bp ∨ bp < q)

instance (bp p q : Nat) : Decidable (fits bp p q) := inferInstanceAs (Decidable (_ ∨ _))

/-- The loop of `free`. -/
def search (bp : Nat) : Nat → Nat → M Nat
  | 0, _ => throw .diverge
  | fuel + 1, p => do
    let s ← get
    if fits bp p (s.ptr p) then pure p else search bp fuel (s.ptr p)

/-- `bp` is joined with the block after it, or leads to it. -/
def joinNext (s : Sys) (p bp : Nat) : Sys :=
  if plus bp (s.size bp) = s.ptr p then
    (s.setSize bp ((s.size bp + s.size (s.ptr p)) % 2 ^ 32)).setPtr bp (s.ptr (s.ptr p))
  else
    s.setPtr bp (s.ptr p)

/-- `bp` is joined with the block before it, or that one leads to it. -/
def joinPrev (s : Sys) (p bp : Nat) : Sys :=
  if plus p (s.size p) = bp then
    (s.setSize p ((s.size p + s.size bp) % 2 ^ 32)).setPtr p (s.ptr bp)
  else
    s.setPtr p bp

def free (fuel ap : Nat) : M Unit := do
  let bp := ap - headerSize
  let s ← get
  let p ← search bp fuel s.freep
  modify fun s => { joinPrev (joinNext s p bp) p bp with freep := p }

/-- The size that `morecore` asks for. -/
def coreUnits (nu : Nat) : Nat := if nu < 4096 then 4096 else nu

/-- `morecore`, with the next answers of `sbrk`; 0 is the null pointer. -/
def morecore (fuel nu : Nat) : List (Option Nat) → M Nat
  | some p :: _ => do
    modify fun s => { s with regions := (p, headerSize * coreUnits nu) :: s.regions }
    modify (·.setSize p (coreUnits nu))
    free fuel (p + headerSize)
    let s ← get
    pure s.freep
  | _ => pure 0

/-- `malloc` takes its block from the free block `p`, which comes after `prevp`. -/
def carve (s : Sys) (nunits prevp p : Nat) : Nat × Sys :=
  if s.size p = nunits then
    (plus p 1, { s.setPtr prevp (s.ptr p) with freep := prevp })
  else
    let q := plus p (s.size p - nunits)
    (plus q 1, { (s.setSize p (s.size p - nunits)).setSize q nunits with freep := prevp })

/-- The loop of `malloc`. -/
def mallocLoop (nunits fuel : Nat) : Nat → List (Option Nat) → Nat → Nat → M Nat
  | 0, _, _, _ => throw .diverge
  | n + 1, sbrk, prevp, p => do
    let s ← get
    if nunits ≤ s.size p then
      set (carve s nunits prevp p).2
      pure (carve s nunits prevp p).1
    else if p = s.freep then
      let p ← morecore fuel nunits sbrk
      let s ← get
      if p = 0 then pure 0 else mallocLoop nunits fuel n sbrk.tail p (s.ptr p)
    else
      mallocLoop nunits fuel n sbrk p (s.ptr p)

/-- The size of a block with `nbytes` bytes, in headers. -/
def units (nbytes : UInt32) : Nat := ((nbytes + 7) / 8 + 1).toNat

/-- The first call of `malloc` makes a list of `base` alone. -/
def initFree (base : Nat) (s : Sys) : Sys :=
  if s.freep = 0 then { (s.setPtr base base).setSize base 0 with freep := base } else s

def malloc (base fuel : Nat) (nbytes : UInt32) (sbrk : List (Option Nat)) : M Nat := do
  modify (initFree base)
  let s ← get
  mallocLoop (units nbytes) fuel fuel sbrk s.freep (s.ptr s.freep)

/-- What the program does. -/
inductive Call where
  /-- `malloc`, with the answers of `sbrk` while it is executed; `none` is -1. -/
  | malloc (nbytes : UInt32) (sbrk : List (Option Nat))
  | free (ap : Nat)
  /-- The program writes to its blocks; this is what would be read as headers then. -/
  | write (ptr size : Nat → Nat)

def Call.exec (base fuel : Nat) : Call → M Nat
  | .malloc nbytes sbrk => do
    let ap ← Umalloc.malloc base fuel nbytes sbrk
    if ap = 0 then
      pure 0
    else do
      modify fun s => { s with live := (ap - headerSize) :: s.live }
      pure ap
  | .free ap => do
    modify fun s => { s with live := s.live.erase (ap - headerSize) }
    Umalloc.free fuel ap
    pure 0
  | .write ptr size => do
    modify fun s => { s with ptr := ptr, size := size }
    pure 0

/-- Before the first call. -/
def start (ptr size : Nat → Nat) : Sys where
  ptr := ptr
  size := size
  freep := 0
  regions := []
  live := []

/-- `[p, p + n)` is above `base` and all of the regions. -/
structure Fresh (base : Nat) (regions : List (Nat × Nat)) (p n : Nat) : Prop where
  base : base + headerSize ≤ p
  above : ∀ r ∈ regions, r.1 + r.2 ≤ p
  fits : p + n < 2 ^ 32

/-- The program asks for less than 2^31 bytes, frees blocks that it has and writes after the headers of
    such blocks, and `sbrk` gives fresh regions. -/
def Proper (base : Nat) : Call → Sys → Prop
  | .malloc nbytes sbrk, s => headerSize * units nbytes < 2 ^ 31 ∧
    ∀ p, sbrk.head? = some (some p) → Fresh base s.regions p (headerSize * coreUnits (units nbytes))
  | .free ap, s => ∃ a ∈ s.live, ap = a + headerSize
  | .write ptr size, s => ∀ x, ptr x ≠ s.ptr x ∨ size x ≠ s.size x →
    ∃ a ∈ s.live, a < x ∧ x < a + headerSize * s.size a

end Xv6Paging.Umalloc
