import Xv6Paging.Lib.DList
import Xv6Paging.RamList

/-! # What the list operations do

    `Proc.Listed pr l` says that the RAM list of a process consists of the
    entries `l` in this order. The operations of `RamList` are specified by the
    list they leave; everything but links, counters and the head pointer stays
    as it is, which is what `Shuffled` says.
-/

namespace Xv6Paging

open List Wp DList Function

variable {pr : Proc} {l xs ys : List Nat} {i : Nat}

/-! ## Reading and writing links -/

def Proc.next (pr : Proc) (i : Nat) : Option Nat := (pr.pagesMetaData i).next

def Proc.prev (pr : Proc) (i : Nat) : Option Nat := (pr.pagesMetaData i).prev

@[simp] theorem setNext_next (pr : Proc) (i : Nat) (x : Option Nat) :
    (pr.setNext i x).next = update pr.next i x := by
  funext a
  by_cases h : a = i <;> simp [Proc.next, Proc.setNext, Proc.setLink, h]

@[simp] theorem setNext_prev (pr : Proc) (i : Nat) (x : Option Nat) :
    (pr.setNext i x).prev = pr.prev := by
  funext a
  by_cases h : a = i <;> simp [Proc.prev, Proc.setNext, Proc.setLink, h]

@[simp] theorem setPrev_next (pr : Proc) (i : Nat) (x : Option Nat) :
    (pr.setPrev i x).next = pr.next := by
  funext a
  by_cases h : a = i <;> simp [Proc.next, Proc.setPrev, Proc.setLink, h]

@[simp] theorem setPrev_prev (pr : Proc) (i : Nat) (x : Option Nat) :
    (pr.setPrev i x).prev = update pr.prev i x := by
  funext a
  by_cases h : a = i <;> simp [Proc.prev, Proc.setPrev, Proc.setLink, h]

@[simp] theorem setPage_next (pr : Proc) (i : Nat) (f : PageMetaData → PageMetaData) :
    (pr.setPage i f).next = pr.next := by
  funext a
  by_cases h : a = i <;> simp [Proc.next, Proc.setPage, Proc.setLink, h]

@[simp] theorem setPage_prev (pr : Proc) (i : Nat) (f : PageMetaData → PageMetaData) :
    (pr.setPage i f).prev = pr.prev := by
  funext a
  by_cases h : a = i <;> simp [Proc.prev, Proc.setPage, Proc.setLink, h]

@[simp] theorem setHead_next (pr : Proc) (x : Option Nat) : (pr.setHead x).next = pr.next := rfl

@[simp] theorem setHead_prev (pr : Proc) (x : Option Nat) : (pr.setHead x).prev = pr.prev := rfl

@[simp] theorem setHead_head (pr : Proc) (x : Option Nat) : (pr.setHead x).pageListHeadRam = x := rfl

@[simp] theorem setNext_head (pr : Proc) (i : Nat) (x : Option Nat) :
    (pr.setNext i x).pageListHeadRam = pr.pageListHeadRam := rfl

@[simp] theorem setPrev_head (pr : Proc) (i : Nat) (x : Option Nat) :
    (pr.setPrev i x).pageListHeadRam = pr.pageListHeadRam := rfl

@[simp] theorem setPage_head (pr : Proc) (i : Nat) (f : PageMetaData → PageMetaData) :
    (pr.setPage i f).pageListHeadRam = pr.pageListHeadRam := rfl

section Rules

variable {E : Stop → Proc → Prop}

@[simp] theorem wp_getLink (Q : PageLink → Proc → Prop) :
    wp (getLink i) Q E pr ↔
      (i < maxTotalPages → Q (pr.pagesMetaData i) pr) ∧ (¬ i < maxTotalPages → E .wild pr) := by
  simp [getLink]

@[simp] theorem wp_writeLink (f : Proc → Proc) (Q : Unit → Proc → Prop) :
    wp (writeLink i f) Q E pr ↔
      (i < maxTotalPages → Q () (f pr)) ∧ (¬ i < maxTotalPages → E .wild pr) := by
  unfold writeLink
  rw [wp_ite]
  exact Iff.rfl

@[simp] theorem wp_setNext (x : Option Nat) (Q : Unit → Proc → Prop) :
    wp (setNext i x) Q E pr ↔
      (i < maxTotalPages → Q () (pr.setNext i x)) ∧ (¬ i < maxTotalPages → E .wild pr) :=
  wp_writeLink _ Q

@[simp] theorem wp_setPrev (x : Option Nat) (Q : Unit → Proc → Prop) :
    wp (setPrev i x) Q E pr ↔
      (i < maxTotalPages → Q () (pr.setPrev i x)) ∧ (¬ i < maxTotalPages → E .wild pr) :=
  wp_writeLink _ Q

@[simp] theorem wp_setPage (f : PageMetaData → PageMetaData) (Q : Unit → Proc → Prop) :
    wp (setPage i f) Q E pr ↔
      (i < maxTotalPages → Q () (pr.setPage i f)) ∧ (¬ i < maxTotalPages → E .wild pr) :=
  wp_writeLink _ Q

variable (hi : i < maxTotalPages)
include hi

theorem wp_getLink_lt (Q : PageLink → Proc → Prop) :
    wp (getLink i) Q E pr ↔ Q (pr.pagesMetaData i) pr := by
  simp only [wp_getLink, hi, forall_const, not_true_eq_false, false_implies, and_true]

theorem wp_setNext_lt (x : Option Nat) (Q : Unit → Proc → Prop) :
    wp (setNext i x) Q E pr ↔ Q () (pr.setNext i x) := by
  simp only [wp_setNext, hi, forall_const, not_true_eq_false, false_implies, and_true]

theorem wp_setPrev_lt (x : Option Nat) (Q : Unit → Proc → Prop) :
    wp (setPrev i x) Q E pr ↔ Q () (pr.setPrev i x) := by
  simp only [wp_setPrev, hi, forall_const, not_true_eq_false, false_implies, and_true]

theorem wp_setPage_lt (f : PageMetaData → PageMetaData) (Q : Unit → Proc → Prop) :
    wp (setPage i f) Q E pr ↔ Q () (pr.setPage i f) := by
  simp only [wp_setPage, hi, forall_const, not_true_eq_false, false_implies, and_true]

omit hi

@[simp] theorem wp_setHead (x : Option Nat) (Q : Unit → Proc → Prop) :
    wp (setHead x) Q E pr ↔ Q () (pr.setHead x) := Iff.rfl

end Rules

/-! ## The list and what stays -/

/-- The RAM list consists of the entries `l`, in this order. -/
structure Proc.Listed (pr : Proc) (l : List Nat) : Prop where
  isList : IsList pr.next pr.prev pr.pageListHeadRam l
  lt : ∀ i ∈ l, i < maxTotalPages

/-- `pr'` differs from `pr` in the links, the head pointer and the aging
    counters only. -/
structure Shuffled (pr pr' : Proc) : Prop where
  rest : pr' = { pr with
    pagesMetaData := pr'.pagesMetaData, pageListHeadRam := pr'.pageListHeadRam }
  page : ∀ i, (pr'.pagesMetaData i).page =
    { (pr.pagesMetaData i).page with shiftCounter := (pr'.pagesMetaData i).page.shiftCounter }

theorem Shuffled.refl (pr : Proc) : Shuffled pr pr := ⟨rfl, fun _ => rfl⟩

theorem Shuffled.trans (h : Shuffled a b) (h' : Shuffled b d) : Shuffled a d := by
  refine ⟨?_, ?_⟩
  · rw [h'.rest, h.rest]
  · intro i
    rw [h'.page i, h.page i]

theorem Shuffled.setNext (pr : Proc) (i : Nat) (x : Option Nat) : Shuffled pr (pr.setNext i x) := by
  refine ⟨rfl, fun a => ?_⟩
  by_cases h : a = i <;> simp [Proc.setNext, Proc.setLink, h]

theorem Shuffled.setPrev (pr : Proc) (i : Nat) (x : Option Nat) : Shuffled pr (pr.setPrev i x) := by
  refine ⟨rfl, fun a => ?_⟩
  by_cases h : a = i <;> simp [Proc.setPrev, Proc.setLink, h]

theorem Shuffled.setHead (pr : Proc) (x : Option Nat) :
    Shuffled pr (pr.setHead x) := ⟨rfl, fun _ => rfl⟩

theorem Shuffled.setCounter (pr : Proc) (i : Nat) (f : BitVec 32 → BitVec 32) :
    Shuffled pr (pr.setPage i fun page => { page with shiftCounter := f page.shiftCounter }) := by
  refine ⟨rfl, fun a => ?_⟩
  by_cases h : a = i <;> simp [Proc.setPage, Proc.setLink, h]

instance : Std.Refl Shuffled := ⟨Shuffled.refl⟩

instance : IsTrans Proc Shuffled := ⟨fun _ _ _ => Shuffled.trans⟩

/-! ### Whatever the links are, the list operations only shuffle -/

/-- The list code follows wild pointers or loops, but it never panics. -/
def Stop.NoPanic : Stop → Prop
  | .panic _ => False
  | _ => True

/-- A relation that holds across every write to a link or to the head pointer. -/
structure LinkWrites (R : Proc → Proc → Prop) : Prop where
  next : ∀ pr i x, R pr (pr.setNext i x)
  prev : ∀ pr i x, R pr (pr.setPrev i x)
  head : ∀ pr x, R pr (pr.setHead x)

section LinkWrites

variable {R : Proc → Proc → Prop} [Std.Refl R]

theorem keeps_getLink (i : Nat) : Keeps R Stop.NoPanic (getLink i) :=
  keeps_ite _ (fun pr => by rw [wp_bind, wp_get, wp_pure]; exact Std.Refl.refl pr) (keeps_throw trivial)

variable [IsTrans Proc R]

theorem keeps_lastLinkFrom (fuel i : Nat) : Keeps R Stop.NoPanic (lastLinkFrom fuel i) := by
  induction fuel generalizing i with
  | zero => exact keeps_throw trivial
  | succ fuel ih =>
    refine keeps_bind (keeps_getLink i) fun lk => ?_
    cases lk.next with
    | none => exact keeps_pure _
    | some j => exact ih j

variable (h : LinkWrites R)
include h

omit [Std.Refl R] [IsTrans Proc R] in
theorem LinkWrites.keeps_setNext (i : Nat) (x : Option Nat) : Keeps R Stop.NoPanic (setNext i x) :=
  keeps_ite _ (keeps_modify fun pr => h.next pr i x) (keeps_throw trivial)

omit [Std.Refl R] [IsTrans Proc R] in
theorem LinkWrites.keeps_setPrev (i : Nat) (x : Option Nat) : Keeps R Stop.NoPanic (setPrev i x) :=
  keeps_ite _ (keeps_modify fun pr => h.prev pr i x) (keeps_throw trivial)

omit [Std.Refl R] [IsTrans Proc R] in
theorem LinkWrites.keeps_setHead (x : Option Nat) : Keeps R Stop.NoPanic (setHead x) :=
  keeps_modify fun pr => h.head pr x

theorem LinkWrites.keeps_removePageFromList (i : Nat) : Keeps R Stop.NoPanic (removePageFromList i) := by
  have hend : Keeps R Stop.NoPanic (do setPrev i none; setNext i none) :=
    keeps_bind (h.keeps_setPrev i none) fun _ => h.keeps_setNext i none
  refine keeps_bind (keeps_getLink i) fun lk => ?_
  cases lk.prev with
  | none =>
    refine keeps_bind (h.keeps_setHead _) fun _ => ?_
    cases lk.next with
    | none => exact hend
    | some j => exact keeps_bind (h.keeps_setPrev _ _) fun _ => hend
  | some x =>
    refine keeps_bind (h.keeps_setNext _ _) fun _ => keeps_bind (keeps_getLink _) fun pl => ?_
    cases pl.next with
    | none => exact hend
    | some j => exact keeps_bind (h.keeps_setPrev _ _) fun _ => hend

/-- `addPageToList` behind the test for an empty list. -/
def appendLast (i : Nat) : P Unit := do
  let pr ← get
  match pr.pageListHeadRam with
  | none => throw .nullDeref
  | some head => do
    let lastPage ← lastLink head
    setNext lastPage (some i)
    setPrev i (some lastPage)
    setNext i none

theorem LinkWrites.keeps_addPageToList (i : Nat) : Keeps R Stop.NoPanic (addPageToList i) := by
  have hend : Keeps R Stop.NoPanic (appendLast i) := by
    refine keeps_bind keeps_get fun pr => ?_
    cases pr.pageListHeadRam with
    | none => exact keeps_throw trivial
    | some head =>
      exact keeps_bind (keeps_lastLinkFrom _ _) fun _ => keeps_bind (h.keeps_setNext _ _) fun _ =>
        keeps_bind (h.keeps_setPrev _ _) fun _ => h.keeps_setNext _ _
  refine keeps_bind keeps_get fun pr => ?_
  cases pr.pageListHeadRam with
  | none =>
    exact keeps_bind (h.keeps_setHead _) fun _ => keeps_bind (h.keeps_setNext _ _) fun _ =>
      keeps_bind (h.keeps_setPrev _ _) fun _ => hend
  | some head => exact hend

omit [IsTrans Proc R] h in
theorem keeps_ifSome (hf : ∀ t, Keeps R Stop.NoPanic (f t)) : Keeps R Stop.NoPanic (ifSome x f) := by
  cases x with
  | none => exact keeps_pure _
  | some t => exact hf t

theorem LinkWrites.keeps_exchangeLinks (i j : Nat) : Keeps R Stop.NoPanic (exchangeLinks i j) :=
  keeps_bind (keeps_getLink i) fun _ => keeps_bind (keeps_getLink j) fun _ =>
  keeps_bind keeps_get fun _ => keeps_bind (h.keeps_setHead _) fun _ =>
  keeps_bind (h.keeps_setPrev _ _) fun _ => keeps_bind (h.keeps_setNext _ _) fun _ =>
  keeps_bind (h.keeps_setPrev _ _) fun _ => keeps_bind (h.keeps_setNext _ _) fun _ =>
  keeps_bind (keeps_ifSome fun _ => h.keeps_setNext _ _) fun _ =>
  keeps_ifSome fun _ => h.keeps_setPrev _ _

end LinkWrites

theorem Shuffled.linkWrites : LinkWrites Shuffled := ⟨.setNext, .setPrev, .setHead⟩

theorem keeps_removePageFromList (i : Nat) : Keeps Shuffled Stop.NoPanic (removePageFromList i) :=
  Shuffled.linkWrites.keeps_removePageFromList i

theorem keeps_addPageToList (i : Nat) : Keeps Shuffled Stop.NoPanic (addPageToList i) :=
  Shuffled.linkWrites.keeps_addPageToList i

/-! ### The list itself -/

/-- The list is no longer than the array. -/
theorem Proc.Listed.length_le (h : pr.Listed l) :
    l.length ≤ maxTotalPages := by
  have hsub : l ⊆ List.range maxTotalPages := fun i hi => mem_range.mpr (h.lt i hi)
  simpa using (List.Nodup.subperm h.isList.nodup hsub).length_le

/-! ## Walking to the end -/

theorem lastLinkFrom_spec {fuel : Nat} (h : pr.Listed (xs ++ i :: ys)) (hf : ys.length < fuel) :
    wp (lastLinkFrom fuel i) (fun r pr' => pr' = pr ∧ (i :: ys).getLast? = some r) noStop pr := by
  induction ys generalizing xs i fuel with
  | nil =>
    obtain ⟨fuel, rfl⟩ : ∃ k, fuel = k + 1 := ⟨fuel - 1, by simp at hf; omega⟩
    have hi : i < maxTotalPages := h.lt i (by simp)
    have hn : (pr.pagesMetaData i).next = none := h.isList.next_eq
    simp only [lastLinkFrom, wp_bind, wp_getLink, hi, hn]
    simp
  | cons j ys ih =>
    obtain ⟨fuel, rfl⟩ : ∃ k, fuel = k + 1 := ⟨fuel - 1, by simp at hf; omega⟩
    have hi : i < maxTotalPages := h.lt i (by simp)
    have hn : (pr.pagesMetaData i).next = some j := h.isList.next_eq
    have h' : pr.Listed ((xs ++ [i]) ++ j :: ys) := by simpa using h
    simp only [lastLinkFrom, wp_bind, wp_getLink, hi, hn]
    refine ⟨fun _ => ?_, by simp⟩
    simpa using ih h' (by simp at hf; omega)

/-- `lastLink` from the head returns the last entry. -/
theorem lastLink_spec (h : pr.Listed l) (hi : l.head? = some i) :
    wp (lastLink i) (fun r pr' => pr' = pr ∧ l.getLast? = some r) noStop pr := by
  obtain ⟨ys, rfl⟩ := head?_eq_some_iff.mp hi
  have hlen := h.length_le
  exact lastLinkFrom_spec (show pr.Listed ([] ++ i :: ys) from h) (by simp at hlen ⊢; omega)

/-! ## Removing and appending -/

/-- The entries `ns` take the place of the entries `ms`. -/
theorem Proc.Listed.splice {pr' : Proc} (ms ns : List Nat) (h : pr.Listed (xs ++ (ms ++ ys)))
    (hnd : (xs ++ (ns ++ ys)).Nodup) (hlt : ∀ a ∈ ns, a < maxTotalPages)
    (hh : pr'.pageListHeadRam = (xs ++ (ns ++ ys)).head?) (hns : Seg pr'.next pr'.prev xs.getLast? ns ys.head?)
    (hn : ∀ a ∈ xs ++ ys, pr'.next a = if xs.getLast? = some a then (ns ++ ys).head? else pr.next a)
    (hp : ∀ a ∈ xs ++ ys, pr'.prev a = if ys.head? = some a then (xs ++ ns).getLast? else pr.prev a) :
    pr'.Listed (xs ++ (ns ++ ys)) := by
  refine ⟨hh ▸ h.isList.splice hnd hns hn hp, fun a ha => ?_⟩
  simp only [mem_append] at ha
  rcases ha with ha | ha | ha
  · exact h.lt a (by simp [ha])
  · exact hlt a ha
  · exact h.lt a (by simp [ha])

theorem removePageFromList_exact (h : pr.Listed (xs ++ i :: ys)) :
    wp (removePageFromList i) (fun _ pr' => (pr'.Listed (xs ++ ys) ∧ pr'.next i = none ∧
      pr'.prev i = none) ∧ Shuffled pr pr') noStop pr := by
  refine wp_and ?_ (keeps_removePageFromList i pr)
  have hi : i < maxTotalPages := h.lt i (by simp)
  have hp : (pr.pagesMetaData i).prev = xs.getLast? := h.isList.prev_eq
  have hn : (pr.pagesMetaData i).next = ys.head? := h.isList.next_eq
  obtain ⟨hmem, hnd⟩ := nodup_cons.mp (nodup_middle.mp h.isList.nodup)
  have hlt : ∀ a ∈ xs ++ ys, a < maxTotalPages := fun a ha => h.lt a (by simp at ha ⊢; tauto)
  -- It is enough to look at the links and the head that the four paths leave.
  have key : ∀ pr' : Proc, pr'.pageListHeadRam = (xs ++ ys).head? →
      (∀ a, pr'.next a = if xs.getLast? = some a then ys.head? else pr.next a) →
      (∀ a, pr'.prev a = if ys.head? = some a then xs.getLast? else pr.prev a) →
      ((pr'.setPrev i none).setNext i none).Listed (xs ++ ys) ∧
        ((pr'.setPrev i none).setNext i none).next i = none ∧
        ((pr'.setPrev i none).setNext i none).prev i = none := by
    intro pr' hh hn' hp'
    have hne : ∀ a ∈ xs ++ ys, a ≠ i := fun a ha hai => hmem (hai ▸ ha)
    refine ⟨Proc.Listed.splice [i] [] h hnd (by simp) hh trivial ?_ ?_, by simp, by simp⟩
    · intro a ha
      simp [hn' a, hne a ha]
    · intro a ha
      simp [hp' a, hne a ha]
  simp only [removePageFromList, wp_bind, wp_getLink_lt, hi, hp, hn]
  cases hx : xs.getLast? with
  | none =>
    have hxs : xs = [] := getLast?_eq_none_iff.mp hx
    subst hxs
    cases hy : ys.head? with
    | none =>
      simp only [wp_bind, wp_setHead, wp_setPrev_lt, wp_setNext_lt, hi]
      refine key _ ?_ ?_ ?_
      · simp [hy]
      · simp
      · simp [hy]
    | some j =>
      have hj : j < maxTotalPages := hlt j (by simp [mem_of_head? hy])
      simp only [wp_bind, wp_setHead, wp_setPrev_lt, wp_setNext_lt, hi, hj]
      refine key _ ?_ ?_ ?_
      · simp [hy]
      · simp
      · simp [hy, update_apply, eq_comm]
  | some x =>
    have hxl : x < maxTotalPages := hlt x (by simp [mem_of_getLast? hx])
    have hhead : (xs ++ i :: ys).head? = (xs ++ ys).head? := by
      cases xs with
      | nil => simp at hx
      | cons a xs => simp
    simp only [wp_bind, wp_setNext_lt, wp_getLink_lt, hxl]
    have hnx : ((pr.setNext x ys.head?).pagesMetaData x).next = ys.head? := by
      simp [Proc.setNext, Proc.setLink]
    rw [hnx]
    cases hy : ys.head? with
    | none =>
      simp only [wp_bind, wp_setPrev_lt, wp_setNext_lt, hi]
      refine key _ ?_ ?_ ?_
      · simp [h.isList.head_eq, hhead]
      · simp [hx, hy, update_apply, eq_comm]
      · simp [hy]
    | some j =>
      have hj : j < maxTotalPages := hlt j (by simp [mem_of_head? hy])
      simp only [wp_bind, wp_setPrev_lt, wp_setNext_lt, hi, hj]
      refine key _ ?_ ?_ ?_
      · simp [h.isList.head_eq, hhead]
      · simp [hx, hy, update_apply, eq_comm]
      · simp [hx, hy, update_apply, eq_comm]

theorem removePageFromList_spec (h : pr.Listed (xs ++ i :: ys)) :
    wp (removePageFromList i) (fun _ pr' => pr'.Listed (xs ++ ys) ∧ Shuffled pr pr') noStop pr :=
  wp_post (removePageFromList_exact h) fun _ _ h' => ⟨h'.1.1, h'.2⟩

/-- Writing the links of a new last entry. -/
theorem Proc.Listed.append {pr' : Proc} (h : pr.Listed l) (hx : l.getLast? = some x)
    (hi : i ∉ l) (hlt : i < maxTotalPages) (hh : pr'.pageListHeadRam = pr.pageListHeadRam)
    (hn : pr'.next = update (update pr.next x (some i)) i none)
    (hp : pr'.prev = update pr.prev i (some x)) : pr'.Listed (l ++ [i]) := by
  have hhead : (l ++ [i]).head? = l.head? := by
    cases l with
    | nil => simp at hx
    | cons a l => simp
  have hne : ∀ a ∈ l, a ≠ i := fun a ha hai => hi (hai ▸ ha)
  have hlist : pr.Listed (l ++ ([] ++ [])) := by simpa using h
  refine Proc.Listed.splice [] [i] hlist ?_ (by simpa using hlt) ?_ ?_ ?_ ?_
  · simpa using nodup_append.mpr ⟨h.isList.nodup, nodup_singleton i, by simpa using hne⟩
  · rw [hh, h.isList.head_eq]
    exact hhead.symm
  · simp [Seg, hn, hp, hx]
  · intro a ha
    simp [hn, hne a (by simpa using ha), hx, update_apply, eq_comm]
  · intro a ha
    simp [hp, hne a (by simpa using ha)]

theorem addPageToList_spec (h : pr.Listed l) (hl : l ≠ []) (hi : i ∉ l) (hlt : i < maxTotalPages) :
    wp (addPageToList i) (fun _ pr' => pr'.Listed (l ++ [i]) ∧ Shuffled pr pr') noStop pr := by
  refine wp_and ?_ (keeps_addPageToList i pr)
  obtain ⟨a, hhead⟩ : ∃ a, l.head? = some a := by
    cases l with
    | nil => exact absurd rfl hl
    | cons a l => exact ⟨a, rfl⟩
  have hh : pr.pageListHeadRam = some a := h.isList.head_eq.trans hhead
  simp only [addPageToList, wp_bind, wp_get, hh]
  refine wp_post (lastLink_spec h hhead) ?_
  rintro x _ ⟨rfl, hx⟩
  have hxl : x < maxTotalPages := h.lt x (mem_of_getLast? hx)
  simp only [wp_setNext_lt, wp_setPrev_lt, hxl, hlt]
  exact h.append hx hi hlt rfl (by simp) (by simp)

/-- Appending to the empty list leaves an entry whose `prev` is itself. -/
theorem addPageToList_empty (h : pr.Listed []) (hlt : i < maxTotalPages) :
    wp (addPageToList i) (fun _ pr' => (pr'.pageListHeadRam = some i ∧ pr'.next i = none ∧
      pr'.prev i = some i) ∧ Shuffled pr pr') noStop pr := by
  refine wp_and ?_ (keeps_addPageToList i pr)
  have hhead : pr.pageListHeadRam = none := h.isList.head_eq
  simp only [addPageToList, wp_bind, wp_get, hhead, wp_setHead, wp_setNext_lt, wp_setPrev_lt, hlt,
    setHead_head, setNext_head, setPrev_head]
  have hone : (((pr.setHead (some i)).setNext i none).setPrev i none).Listed [i] :=
    ⟨⟨rfl, nodup_singleton i, by simp [Seg]⟩, by simpa using hlt⟩
  refine wp_post (lastLink_spec hone rfl) ?_
  rintro x _ ⟨rfl, hx⟩
  obtain rfl : i = x := by simpa using hx
  simp only [wp_setNext_lt, hlt, setNext_head, setPrev_head, setHead_head, setNext_next, setNext_prev,
    setPrev_prev, update_self, and_self]

theorem wp_ifSome_setNext (hx : ∀ t, x = some t → t < maxTotalPages)
    (hQ : ∀ pr' : Proc, pr'.pageListHeadRam = pr.pageListHeadRam → pr'.prev = pr.prev →
      (∀ a, pr'.next a = if x = some a then v else pr.next a) → Q () pr') :
    wp (ifSome x fun t => setNext t v) Q E pr := by
  cases x with
  | none => exact hQ pr rfl rfl (by simp)
  | some t =>
    simp only [ifSome, wp_setNext_lt, hx t rfl]
    exact hQ _ rfl (by simp) (by simp [update_apply, eq_comm])

theorem wp_ifSome_setPrev (hx : ∀ t, x = some t → t < maxTotalPages)
    (hQ : ∀ pr' : Proc, pr'.pageListHeadRam = pr.pageListHeadRam → pr'.next = pr.next →
      (∀ a, pr'.prev a = if x = some a then v else pr.prev a) → Q () pr') :
    wp (ifSome x fun t => setPrev t v) Q E pr := by
  cases x with
  | none => exact hQ pr rfl rfl (by simp)
  | some t =>
    simp only [ifSome, wp_setPrev_lt, hx t rfl]
    exact hQ _ rfl (by simp) (by simp [update_apply, eq_comm])

/-- `exchangeLinks` exchanges two neighbours of the list. -/
theorem exchangeLinks_spec (h : pr.Listed (xs ++ i :: j :: ys)) :
    wp (exchangeLinks i j) (fun _ pr' => pr'.Listed (xs ++ j :: i :: ys) ∧ Shuffled pr pr') noStop pr := by
  refine wp_and ?_ (Shuffled.linkWrites.keeps_exchangeLinks i j pr)
  have hi : i < maxTotalPages := h.lt i (by simp)
  have hj : j < maxTotalPages := h.lt j (by simp)
  have hp : (pr.pagesMetaData i).prev = xs.getLast? := h.isList.prev_eq
  have hn : (pr.pagesMetaData j).next = ys.head? := by
    have h' : pr.Listed ((xs ++ [i]) ++ j :: ys) := by simpa using h
    exact h'.isList.next_eq
  have hnd : (xs ++ j :: i :: ys).Nodup :=
    ((List.Perm.swap i j ys).append_left xs).nodup_iff.mpr h.isList.nodup
  obtain ⟨-, hndy, hdis⟩ := nodup_append.mp hnd
  simp only [nodup_cons, mem_cons, not_or] at hndy hdis
  obtain ⟨⟨hji, hjy⟩, hiy, -⟩ := hndy
  have hxi : i ∉ xs := fun hx => hdis i hx i (.inr (.inl rfl)) rfl
  have hxj : j ∉ xs := fun hx => hdis j hx j (.inl rfl) rfl
  have hhead : (if xs.getLast? = none then some j else pr.pageListHeadRam) =
      (xs ++ j :: i :: ys).head? := by
    rw [h.isList.head_eq]
    cases xs with
    | nil => simp
    | cons a xs => simp
  simp only [exchangeLinks, wp_bind, wp_getLink_lt, wp_get, wp_setHead, wp_setPrev_lt,
    wp_setNext_lt, hi, hj, hp, hn, hhead]
  refine wp_ifSome_setNext (fun t ht => h.lt t (by simp [mem_of_getLast? ht])) ?_
  intro pr1 hh1 hp1 hn1
  refine wp_ifSome_setPrev (fun t ht => h.lt t (by simp [mem_of_head? ht])) ?_
  intro pr2 hh2 hn2 hp2
  have hxl : ∀ a, a ∉ xs → xs.getLast? ≠ some a := fun a ha hx => ha (mem_of_getLast? hx)
  have hyl : ∀ a, a ∉ ys → ys.head? ≠ some a := fun a ha hy => ha (mem_of_head? hy)
  have hne : ∀ a ∈ xs ++ ys, a ≠ i ∧ a ≠ j := by
    intro a ha
    refine ⟨?_, ?_⟩
    · rintro rfl
      exact (mem_append.mp ha).elim hxi hiy
    · rintro rfl
      exact (mem_append.mp ha).elim hxj hjy
  refine Proc.Listed.splice [i, j] [j, i] h hnd ?_ ?_ ?_ ?_ ?_
  · simp [hi, hj]
  · rw [hh2, hh1]
    rfl
  · simp [Seg, hn2, hp2, hn1, hp1, hxl i hxi, hxl j hxj, hyl i hiy, hyl j hjy, Ne.symm hji]
  · intro a ha
    simp [hn2, hn1, hne a ha]
  · intro a ha
    simp [hp2, hp1, hne a ha]

/-! ## What the operations are for -/

/-- What the two operations are for, on a list `l` and an entry `i`: a member is taken out and its
    links are cleared, any other entry is appended, and a member that is taken out and appended
    has moved to the end. -/
structure ListExact (pr : Proc) (l : List Nat) (i : Nat) : Prop where
  remove : ∀ xs ys, l = xs ++ i :: ys → wp (removePageFromList i) (fun _ pr' =>
    pr'.Listed (xs ++ ys) ∧ pr'.next i = none ∧ pr'.prev i = none) noStop pr
  add : i ∉ l → wp (addPageToList i) (fun _ pr' => pr'.Listed (l ++ [i])) noStop pr
  rotate : ∀ xs ys, l = xs ++ i :: ys → wp (do removePageFromList i; addPageToList i) (fun _ pr' =>
    pr'.Listed (xs ++ ys ++ [i])) noStop pr

/-- An entry appended to the empty list is its own predecessor. -/
theorem not_listed_of_empty (h : pr.Listed []) (hi : i < maxTotalPages) :
    wp (addPageToList i) (fun _ pr' => ¬ pr'.Listed [i]) noStop pr := by
  refine wp_post (addPageToList_empty h hi) ?_
  rintro _ pr' ⟨⟨-, -, hprev⟩, -⟩ hlist
  have hnone : pr'.prev i = none := (show pr'.Listed ([] ++ [i]) from hlist).isList.prev_eq
  rw [hprev] at hnone
  exact nomatch hnone

/-- The two operations are exact, unless the entry is appended to an empty list: because there was
    none, or because the entry was the only one. -/
theorem listExact_iff (h : pr.Listed l) (hi : i < maxTotalPages) :
    ListExact pr l i ↔ l ≠ [] ∧ l ≠ [i] := by
  constructor
  · intro hexact
    refine ⟨?_, ?_⟩
    · rintro rfl
      obtain ⟨_, pr', -, hlist, hnot⟩ := wp_noStop_iff.mp
        (wp_and (hexact.add not_mem_nil) (not_listed_of_empty h hi))
      exact hnot hlist
    · rintro rfl
      have hrot : wp (do removePageFromList i; addPageToList i) (fun _ pr' => ¬ pr'.Listed [i])
          noStop pr := by
        rw [wp_bind]
        refine wp_post (removePageFromList_spec (show pr.Listed ([] ++ [i]) from h)) ?_
        rintro _ pr1 ⟨hlist, -⟩
        exact not_listed_of_empty hlist hi
      obtain ⟨_, pr', -, hlist, hnot⟩ := wp_noStop_iff.mp (wp_and (hexact.rotate [] [] rfl) hrot)
      exact hnot hlist
  · rintro ⟨hne, hone⟩
    refine ⟨?_, ?_, ?_⟩
    · rintro xs ys rfl
      exact wp_post (removePageFromList_exact h) fun _ _ hpost => hpost.1
    · intro hnew
      exact wp_post (addPageToList_spec h hne hnew hi) fun _ _ hpost => hpost.1
    · rintro xs ys rfl
      have hrest : xs ++ ys ≠ [] := by
        intro hnil
        obtain ⟨rfl, rfl⟩ := append_eq_nil_iff.mp hnil
        exact hone rfl
      have hnew : i ∉ xs ++ ys := (nodup_middle.mp h.isList.nodup).notMem
      rw [wp_bind]
      refine wp_post (removePageFromList_spec h) ?_
      rintro _ pr1 ⟨hlist, -⟩
      exact wp_post (addPageToList_spec hlist hrest hnew hi) fun _ _ hpost => hpost.1

/-- A kernel built with the given policy. -/
def sampleConfig (sel : Selection) : Config where
  selection := sel
  kend := 100
  kdata := 50
  pageFound := false
  fuel := 64

/-- Entry `i` of the metadata: pages 0, 1 and 2 are in RAM, in this order. -/
def sampleLink (i : Nat) : PageLink :=
  if i < 3 then
    { page := ⟨pgsize * i, .inMemory, noOffset, 0, i⟩
      next := if i = 2 then none else some (i + 1)
      prev := if i = 0 then none else some (i - 1) }
  else
    { page := ⟨noPage, .notUsed, noOffset, 0, i⟩, next := none, prev := none }

/-- A process with these three pages. -/
def sampleProc : Proc where
  used := true
  sz := 3 * pgsize
  pgdir := 900
  kstack := some 902
  killed := false
  swapFile := none
  pagesMetaData := sampleLink
  pageListHeadRam := some 0
  numPagesRam := 3
  numPagesDisk := 0
  availableOffsets := fun _ => false
  numOfPageFaults := 0
  numOfPageOuts := 0

theorem sampleProc_listed : sampleProc.Listed [0, 1, 2] :=
  ⟨⟨rfl, by decide, rfl, rfl, rfl, rfl, rfl, rfl, trivial⟩, by decide⟩

theorem listExact_iff_sample : ListExact sampleProc [0, 1, 2] 1 :=
  (listExact_iff sampleProc_listed (by decide)).mpr (by decide)

/-- After `init_meta_data` the list is empty, and the first entry that is appended is not linked
    as it should be. -/
theorem first_entry_not_listed :
    (sampleProc.initMetaData (sampleConfig .SCFIFO)).Listed [] ∧
      wp (addPageToList 0) (fun _ pr' => ¬ pr'.Listed [0]) noStop
        (sampleProc.initMetaData (sampleConfig .SCFIFO)) := by
  have hempty : (sampleProc.initMetaData (sampleConfig .SCFIFO)).Listed [] :=
    ⟨⟨rfl, nodup_nil, trivial⟩, nofun⟩
  exact ⟨hempty, not_listed_of_empty hempty (by decide)⟩

end Xv6Paging
