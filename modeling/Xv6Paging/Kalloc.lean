import Xv6Paging.Machine

/-! # The physical page allocator (`kalloc.c`)

    Frames on the free list have reference count `0`; `kalloc` hands out the
    head of the list with count `1`, `copyuvm` raises counts, and `kfree` lowers
    them and returns a frame to the list when its count reaches `0`.
-/

namespace Xv6Paging

open Function

/-- A frame that `kalloc` manages: not below `end` and below `PHYSTOP`. -/
def managed (c : Config) (f : Nat) : Prop := c.kend ≤ f ∧ f < nframes

instance (c : Config) (f : Nat) : Decidable (managed c f) :=
  inferInstanceAs (Decidable (_ ∧ _))

/-- Panic message of `kfree` on a frame that nobody holds. -/
def kfreeRefIsZero : String := "kfree: ref is 0 and tried to kfree v"

/-- State after `kalloc` has taken frame `r` off the free list. -/
@[simps -fullyApplied]
def Machine.takeFrame (m : Machine) (r : Nat) (rest : List Nat) : Machine :=
  { m with
    freelist := rest
    systemFreePages := (m.systemFreePages + (2 ^ 32 - 1)) % 2 ^ 32
    referenceCounters := update m.referenceCounters r 1 }

/-- Allocate one frame; `none` is the null pointer. -/
def kalloc : K (Option Nat) := do
  let m ← get
  match m.freelist with
  | [] => pure none
  | r :: rest =>
    set (m.takeFrame r rest)
    pure (some r)

/-- State after `kfree` has passed its checks on frame `f`: with the last
    reference the frame goes to the head of the free list. -/
@[simps -fullyApplied]
def Machine.dropRef (m : Machine) (f : Nat) : Machine :=
  { m with
    referenceCounters := update m.referenceCounters f (m.referenceCounters f - 1)
    freelist := if m.referenceCounters f - 1 = 0 then f :: m.freelist else m.freelist
    systemFreePages :=
      if m.referenceCounters f - 1 = 0 then (m.systemFreePages + 1) % 2 ^ 32
      else m.systemFreePages
    mem := if m.referenceCounters f - 1 = 0 then update m.mem f Page.freed else m.mem }

/-- Drop one reference to frame `f`, and free it with the last one. -/
def kfree (c : Config) (f : Nat) : K Unit := do
  if managed c f then
    let m ← get
    -- Before `kinit2` frames enter the free list with count 0.
    if m.useLock = true ∧ m.referenceCounters f = 0 then
      throw (.panic kfreeRefIsZero)
    else
      set (m.dropRef f)
  else
    throw (.panic "kfree")

@[simps -fullyApplied]
def Machine.moreRef (m : Machine) (f : Nat) : Machine :=
  { m with referenceCounters := update m.referenceCounters f (m.referenceCounters f + 1) }

def incrementRef (c : Config) (f : Nat) : K Unit := do
  if managed c f then
    modify fun m => m.moreRef f
  else
    throw (.panic "incrementRef")

@[simps -fullyApplied]
def Machine.lessRef (m : Machine) (f : Nat) : Machine :=
  { m with referenceCounters := update m.referenceCounters f (m.referenceCounters f - 1) }

def decrementRef (c : Config) (f : Nat) : K Unit := do
  if managed c f then
    modify fun m => m.lessRef f
  else
    throw (.panic "decrementRef")

/-- `getRef` checks no bound: past `PHYSTOP` it reads outside the array. -/
def getRef (f : Nat) : K Nat := do
  let m ← get
  if f < nframes then
    pure (m.referenceCounters f)
  else
    throw .wild

/-! ## Rules -/

section Rules

open Wp

variable {m : Machine} {E : Stop → Machine → Prop}

theorem wp_kalloc (Q : Option Nat → Machine → Prop) :
    wp kalloc Q E m ↔ (m.freelist = [] → Q none m) ∧
      ∀ r rest, m.freelist = r :: rest → Q (some r) (m.takeFrame r rest) := by
  simp only [kalloc, wp_bind, wp_get]
  cases h : m.freelist with
  | nil => simp
  | cons r rest => simp

theorem kalloc_nil (h : m.freelist = []) : kalloc m = .ok none m := by
  rw [kalloc, bind_get, h]
  rfl

theorem kalloc_cons {rest : List Nat} (h : m.freelist = f :: rest) :
    kalloc m = .ok (some f) (m.takeFrame f rest) := by
  rw [kalloc, bind_get, h]
  rfl

theorem wp_kfree (f : Nat) (Q : Unit → Machine → Prop) : wp (kfree c f) Q E m ↔ (managed c f →
        (m.useLock = true ∧ m.referenceCounters f = 0 → E (.panic kfreeRefIsZero) m) ∧
        (¬ (m.useLock = true ∧ m.referenceCounters f = 0) → Q () (m.dropRef f))) ∧
      (¬ managed c f → E (.panic "kfree") m) := by
  unfold kfree
  rw [wp_ite]
  simp only [wp_bind, wp_get, wp_ite, wp_set, wp_throw]

theorem wp_kfree_of_pos (Q : Unit → Machine → Prop) (hf : managed c f)
    (hpos : 0 < m.referenceCounters f) : wp (kfree c f) Q E m ↔ Q () (m.dropRef f) := by
  rw [wp_kfree]
  have h : ¬ (m.useLock = true ∧ m.referenceCounters f = 0) := by omega
  simp [hf, h]

end Rules

end Xv6Paging
