import Xv6Paging.Fs.Dirs

/-! # Names as bytes (`fs.c`, `string.c`)

    The character buffers behind names: `strncmp` and `strncpy` on the name field of a
    directory entry, the buffer in which `skipelem` leaves a path element, and the path of
    a swap file, which `itoa` writes into a buffer of `DIGITS` bytes.

    An object in memory is the list of its bytes. An access outside of it has no result.
-/

namespace Xv6Paging.Dirs

open List

/-! ## Strings -/

/-- `strncmp`; `none` when it reads past the end of an object. -/
def strncmp : List UInt8 → List UInt8 → Nat → Option Int
  | _, _, 0 => some 0
  | a :: p, b :: q, n + 1 => if a ≠ 0 ∧ a = b then strncmp p q n else some (a.toNat - b.toNat)
  | _, _, _ + 1 => none

/-- The `n` bytes that `strncpy` writes. -/
def strncpy : List UInt8 → Nat → Option (List UInt8)
  | _, 0 => some []
  | a :: t, n + 1 => if a = 0 then some (List.replicate (n + 1) 0) else (strncpy t n).map (a :: ·)
  | [], _ + 1 => none

def namecmp (s t : List UInt8) : Option Int := strncmp s t dirsiz

/-- The first `n` bytes of an object hold `name`, with a terminator if there is room for one. -/
def Holds (n : Nat) (buf : List UInt8) (name : Name) : Prop :=
  (∀ a ∈ name, a ≠ 0) ∧
    ((name.length = n ∧ ∃ rest, buf = name ++ rest) ∨
      (name.length < n ∧ ∃ rest, buf = name ++ 0 :: rest))

section Strings

variable {n : Nat} {p q : List UInt8} {a b : Name} {x y : UInt8}

theorem Holds.cons (h : Holds (n + 1) p (x :: a)) : x ≠ 0 ∧ ∃ p', p = x :: p' ∧ Holds n p' a := by
  obtain ⟨hnz, ⟨hlen, rest, rfl⟩ | ⟨hlen, rest, rfl⟩⟩ := h
  · refine ⟨hnz x (by simp), a ++ rest, rfl, fun z hz => hnz z (by simp [hz]), .inl ⟨?_, rest, rfl⟩⟩
    simpa using hlen
  · refine ⟨hnz x (by simp), a ++ 0 :: rest, rfl, fun z hz => hnz z (by simp [hz]), .inr ⟨?_, rest, rfl⟩⟩
    simpa using hlen

theorem Holds.nil (h : Holds (n + 1) p []) : ∃ p', p = 0 :: p' := by
  obtain ⟨-, ⟨hlen, -⟩ | ⟨-, rest, rfl⟩⟩ := h
  · exact nomatch hlen
  · exact ⟨rest, rfl⟩

theorem Holds.length_le (h : Holds n p a) : a.length ≤ n := by
  obtain ⟨-, ⟨hlen, -⟩ | ⟨hlen, -⟩⟩ := h <;> omega

/-- `strncmp` compares the names and stays inside the objects. -/
theorem strncmp_holds (hp : Holds n p a) (hq : Holds n q b) :
    ∃ z, strncmp p q n = some z ∧ (z = 0 ↔ a = b) := by
  induction n generalizing p q a b with
  | zero =>
    obtain rfl : a = [] := length_eq_zero_iff.mp (by have := hp.length_le; omega)
    obtain rfl : b = [] := length_eq_zero_iff.mp (by have := hq.length_le; omega)
    exact ⟨0, by rw [strncmp], by simp⟩
  | succ n ih =>
    cases a with
    | nil =>
      obtain ⟨p', rfl⟩ := hp.nil
      cases b with
      | nil =>
        obtain ⟨q', rfl⟩ := hq.nil
        exact ⟨0, by simp [strncmp], by simp⟩
      | cons y b =>
        obtain ⟨hy, q', rfl, -⟩ := hq.cons
        refine ⟨(0 : UInt8).toNat - y.toNat, by simp [strncmp], ?_⟩
        have : y.toNat ≠ 0 := fun h => hy (UInt8.toNat_inj.mp h)
        simp only [UInt8.toNat_zero, reduceCtorEq, iff_false]
        omega
    | cons x a =>
      obtain ⟨hx, p', rfl, hp'⟩ := hp.cons
      have hx' : x.toNat ≠ 0 := fun h => hx (UInt8.toNat_inj.mp h)
      cases b with
      | nil =>
        obtain ⟨q', rfl⟩ := hq.nil
        refine ⟨x.toNat - (0 : UInt8).toNat, by simp [strncmp, hx], ?_⟩
        simp only [UInt8.toNat_zero, reduceCtorEq, iff_false]
        omega
      | cons y b =>
        obtain ⟨-, q', rfl, hq'⟩ := hq.cons
        by_cases hxy : x = y
        · subst hxy
          obtain ⟨z, hz, hiff⟩ := ih hp' hq'
          exact ⟨z, by simp [strncmp, hx, hz], by simp [hiff]⟩
        · refine ⟨x.toNat - y.toNat, by simp [strncmp, hxy], ?_⟩
          have : x.toNat ≠ y.toNat := fun h => hxy (UInt8.toNat_inj.mp h)
          simp only [List.cons.injEq, hxy, false_and, iff_false]
          omega

/-- A string holds what is left of it when it is cut off. -/
theorem holds_string (hl : ∀ a ∈ l, a ≠ 0) (n : Nat) : Holds n (l ++ [0]) (l.take n) := by
  refine ⟨fun a ha => hl a (mem_of_mem_take ha), ?_⟩
  by_cases hn : n ≤ l.length
  · exact .inl ⟨by simp [hn], l.drop n ++ [0], by simp [← append_assoc]⟩
  · exact .inr ⟨by simp; omega, [], by rw [take_of_length_le (by omega)]⟩

/-- `strncpy` of a string fills a field that holds the string, cut off. -/
theorem strncpy_string (hl : ∀ a ∈ l, a ≠ 0) (n : Nat) :
    strncpy (l ++ [0]) n = some (l.take n ++ List.replicate (n - l.length) 0) := by
  induction n generalizing l with
  | zero => simp [strncpy]
  | succ n ih =>
    cases l with
    | nil => simp [strncpy]
    | cons a l =>
      have ha : a ≠ 0 := hl a (by simp)
      rw [cons_append, strncpy, if_neg ha, ih fun b hb => hl b (by simp [hb])]
      simp

/-- A field with any bytes in it holds those before the first zero. -/
theorem holds_field (buf : List UInt8) : Holds buf.length buf (buf.takeWhile (· != 0)) := by
  refine ⟨fun a ha => by simpa using mem_takeWhile_imp ha, ?_⟩
  have hsplit := takeWhile_append_dropWhile (p := (· != 0)) (l := buf)
  cases hd : buf.dropWhile (· != 0) with
  | nil =>
    rw [hd, append_nil] at hsplit
    exact .inl ⟨by rw [hsplit], [], by rw [hsplit, append_nil]⟩
  | cons z rest =>
    have hz : z = 0 := by
      have := head?_dropWhile_not (p := (· != (0 : UInt8))) (l := buf)
      rw [hd] at this
      simpa using this
    subst hz
    refine .inr ⟨?_, rest, by rw [← hd, hsplit]⟩
    have := congrArg List.length hsplit
    rw [hd, length_append, length_cons] at this
    omega

end Strings

/-! ## Elements of a path -/

/-- `char name[DIRSIZ]` after `skipelem` has put an element into it. -/
def nameBuffer (name : Name) (old : List UInt8) : List UInt8 :=
  if dirsiz ≤ name.length then name.take dirsiz else name ++ 0 :: old.drop (name.length + 1)

theorem holds_nameBuffer {name : Name} (hnz : ∀ a ∈ name, a ≠ 0) (hlen : name.length ≤ dirsiz)
    (old : List UInt8) : Holds dirsiz (nameBuffer name old) name := by
  unfold nameBuffer
  split
  · refine ⟨hnz, .inl ⟨by omega, [], ?_⟩⟩
    rw [take_of_length_le hlen, append_nil]
  · exact ⟨hnz, .inr ⟨by omega, _, rfl⟩⟩

/-! ## Decimal numbers -/

/-- Write bytes into an object. -/
def store (b : List UInt8) (k : Nat) (xs : List UInt8) : Option (List UInt8) :=
  if k + xs.length ≤ b.length then some (b.take k ++ xs ++ b.drop (k + xs.length)) else none

/-- `digit[k]` for a remainder `k`. -/
def digit (k : Int) : Option UInt8 := if 0 ≤ k then some (48 + UInt8.ofNat k.toNat) else none

/-- Both loops of `itoa` get to zero. -/
theorem natAbs_tdiv_ten_lt {i : Int} (h : i.tdiv 10 ≠ 0) : (i.tdiv 10).natAbs < i.natAbs := by
  rw [Int.natAbs_tdiv]
  refine Nat.div_lt_self (Nat.pos_of_ne_zero fun h0 => h ?_) (by decide)
  rw [Int.natAbs_eq_zero.mp h0, Int.zero_tdiv]

/-- The first loop of `itoa`: where the digits end. -/
def itoaEnd (shifter : Int) (p : Nat) : Nat :=
  if h : shifter.tdiv 10 = 0 then p + 1 else itoaEnd (shifter.tdiv 10) (p + 1)
termination_by shifter.natAbs
decreasing_by exact natAbs_tdiv_ten_lt h

/-- The second loop: the digits, from the last to the first. -/
def itoaDigits (i : Int) (p : Nat) (b : List UInt8) : Option (List UInt8) :=
  match digit (i.tmod 10) with
  | none => none
  | some d =>
    match store b (p - 1) [d] with
    | none => none
    | some b' => if h : i.tdiv 10 = 0 then some b' else itoaDigits (i.tdiv 10) (p - 1) b'
termination_by i.natAbs
decreasing_by exact natAbs_tdiv_ten_lt h

/-- `itoa` behind the sign. -/
def itoaFrom (i : Int) (b : List UInt8) (p : Nat) : Option (List UInt8) := do
  let b ← store b (itoaEnd i p) [0]
  itoaDigits i (itoaEnd i p) b

/-- `itoa(i, b + p)`, for an `int`. -/
def itoa (i : Int) (b : List UInt8) (p : Nat) : Option (List UInt8) := do
  if i < 0 then
    let b ← store b p [45]
    itoaFrom (Int.bmod (-i) (2 ^ 32)) b (p + 1)
  else
    itoaFrom i b p

/-- The canonical decimal of a number, most significant digit first. -/
def decimal (n : Nat) : List UInt8 := (Nat.digits 10 n).reverse.map fun d => 48 + UInt8.ofNat d

section Decimal

variable {n : Nat} {b : List UInt8}

theorem decimal_step (hn : 0 < n) : decimal n = decimal (n / 10) ++ [48 + UInt8.ofNat (n % 10)] := by
  unfold decimal
  rw [Nat.digits_def' (by decide) hn]
  simp

theorem length_decimal : (decimal n).length = (Nat.digits 10 n).length := by simp [decimal]

theorem length_decimal_step (hn : 0 < n) : (decimal n).length = (decimal (n / 10)).length + 1 := by
  rw [decimal_step hn, length_append, length_singleton]

theorem decimal_ne_zero (ha : a ∈ decimal n) : a ≠ 0 ∧ a ≠ slash := by
  simp only [decimal, mem_map, mem_reverse] at ha
  obtain ⟨d, hd, rfl⟩ := ha
  have : d < 10 := Nat.digits_lt_base (by decide) hd
  unfold slash
  interval_cases d <;> decide

theorem decimal_injective : Function.Injective decimal := by
  have hinv : ∀ n, ((decimal n).map fun a => a.toNat - 48).reverse = Nat.digits 10 n := by
    intro n
    simp only [decimal, map_map, map_reverse, reverse_reverse]
    refine (map_congr_left fun d hd => ?_).trans (map_id _)
    have : d < 10 := Nat.digits_lt_base (by decide) hd
    interval_cases d <;> decide
  intro m n h
  refine Nat.digits.injective 10 ?_
  rw [← hinv m, ← hinv n, h]

theorem length_decimal_le : (decimal n).length ≤ k ↔ n < 10 ^ k := by
  rw [length_decimal, Nat.digits_length_le_iff (by decide)]

/-- The remainders and quotients of the loops are those of natural numbers. -/
theorem tdiv_ten (n : Nat) : (n : Int).tdiv 10 = ((n / 10 : Nat) : Int) := rfl

theorem digit_tmod_ten (n : Nat) : digit ((n : Int).tmod 10) = some (48 + UInt8.ofNat (n % 10)) := rfl

theorem itoaEnd_nat (hn : 0 < n) : itoaEnd n p = p + (decimal n).length := by
  induction n using Nat.strong_induction_on generalizing p with
  | _ n ih =>
    rw [itoaEnd, length_decimal_step hn, tdiv_ten]
    by_cases hq : n / 10 = 0
    · rw [dif_pos (by exact_mod_cast hq), hq]
      simp [decimal]
    · rw [dif_neg (by exact_mod_cast hq), ih (n / 10) (by omega) (by omega)]
      omega

/-- The digits go before the place that the first loop has found. -/
theorem itoaDigits_nat (hn : 0 < n) (hfit : p + (decimal n).length ≤ b.length) :
    itoaDigits n (p + (decimal n).length) b = some (b.take p ++ decimal n ++ b.drop (p + (decimal n).length)) := by
  induction n using Nat.strong_induction_on generalizing b with
  | _ n ih =>
    have hlen := length_decimal_step hn
    rw [itoaDigits, digit_tmod_ten, tdiv_ten]
    have hstore : store b (p + (decimal n).length - 1) [48 + UInt8.ofNat (n % 10)] =
        some (b.take (p + (decimal (n / 10)).length) ++ [48 + UInt8.ofNat (n % 10)] ++
          b.drop (p + (decimal n).length)) := by
      rw [store, if_pos (by simp; omega), hlen]
      rfl
    simp only [hstore]
    by_cases hq : n / 10 = 0
    · rw [dif_pos (by exact_mod_cast hq), decimal_step hn, hq]
      simp [decimal]
    · have hprev : p + (decimal n).length - 1 = p + (decimal (n / 10)).length := by omega
      have htake : (b.take (p + (decimal (n / 10)).length)).length = p + (decimal (n / 10)).length := by
        rw [length_take]
        omega
      rw [dif_neg (by exact_mod_cast hq), hprev, ih (n / 10) (by omega) (by omega)]
      · rw [append_assoc (b.take _), drop_left' htake,
          take_append_of_le_length (by omega), take_take, Nat.min_eq_left (by omega),
          decimal_step hn]
        simp
      · rw [append_assoc, length_append, htake]
        omega

/-- `itoa` of a positive number writes its decimal and a terminator, if the object has room. -/
theorem itoa_nat (hn : 0 < n) : itoa n b p = if p + (decimal n).length < b.length then
      some (b.take p ++ decimal n ++ 0 :: b.drop (p + (decimal n).length + 1)) else none := by
  rw [itoa, if_neg (by omega), itoaFrom, itoaEnd_nat hn, store, length_singleton]
  by_cases hfit : p + (decimal n).length < b.length
  · have htake : (b.take (p + (decimal n).length)).length = p + (decimal n).length := by
      rw [length_take]
      omega
    rw [if_pos (by omega), if_pos hfit, Option.bind_eq_bind, Option.bind_some, itoaDigits_nat hn]
    · rw [append_assoc (b.take _), drop_left' htake,
        take_append_of_le_length (by omega), take_take, Nat.min_eq_left (by omega)]
      rfl
    · rw [append_assoc, length_append, htake]
      omega
  · rw [if_neg (by omega), if_neg hfit]
    rfl

end Decimal

/-! ## The name of a swap file -/

/-- `DIGITS`. -/
def digits : Nat := 14

/-- `"/.swap"`. -/
def swapStem : List UInt8 := [47, 46, 115, 119, 97, 112]

/-- The string in an object. -/
def cstring (b : List UInt8) : List UInt8 := b.takeWhile (· != 0)

/-- The path that `createSwapFile` and `removeSwapFile` build in `path`, an array on the stack. -/
def swapPath (pid : Int) (path : List UInt8) : Option Path := do
  let b ← store path 0 swapStem
  let b ← itoa pid b swapStem.length
  pure (cstring b)

/-- The paths of processes `p` and `q` are as they should be, whatever was on the stack, and lead to
    different entries of the root directory. -/
def SwapNames (p q : Nat) : Prop :=
  ∀ stack stack' old old' : List UInt8, stack.length = digits → stack'.length = digits →
    swapPath p stack = some (swapStem ++ decimal p) ∧ swapPath q stack' = some (swapStem ++ decimal q) ∧
    ∃ name name', skipelem (swapStem ++ decimal p) = some (name, []) ∧
      skipelem (swapStem ++ decimal q) = some (name', []) ∧
      ∃ z, namecmp (nameBuffer name old) (nameBuffer name' old') = some z ∧ z ≠ 0

section SwapNames

variable {n p q : Nat} {stack : List UInt8}

/-- The characters of a swap file's name. -/
theorem ne_of_mem_swapName (ha : a ∈ swapStem.tail ++ decimal n) : a ≠ 0 ∧ a ≠ slash := by
  rcases mem_append.mp ha with ha | ha
  · have hstem : ∀ a ∈ swapStem.tail, a ≠ 0 ∧ a ≠ slash := by decide +kernel
    exact hstem a ha
  · exact decimal_ne_zero ha

theorem swapPath_nat (hn : 0 < n) (hs : stack.length = digits) :
    swapPath n stack = if n < 10 ^ 7 then some (swapStem ++ decimal n) else none := by
  have hlen : (swapStem ++ stack.drop 6).length = digits := by
    rw [length_append, length_drop, hs]
    rfl
  have hstore : store stack 0 swapStem = some (swapStem ++ stack.drop 6) := by
    rw [store, if_pos (by rw [hs]; decide)]
    rfl
  have hfit : 6 + (decimal n).length < digits ↔ n < 10 ^ 7 := by
    rw [← length_decimal_le]
    unfold digits
    omega
  rw [swapPath, hstore, Option.bind_eq_bind, Option.bind_some, itoa_nat hn, hlen]
  simp only [show swapStem.length = 6 from rfl, hfit]
  by_cases hlt : n < 10 ^ 7
  · rw [if_pos hlt, if_pos hlt, Option.bind_some]
    refine congrArg some ?_
    rw [cstring, takeWhile_append_of_pos]
    · exact congrArg _ (append_nil _)
    · intro a ha
      have : a = slash ∨ a ∈ swapStem.tail ++ decimal n := mem_cons.mp ha
      rcases this with rfl | ha
      · rfl
      · simpa using (ne_of_mem_swapName ha).1
  · rw [if_neg hlt, if_neg hlt]
    rfl

theorem skipelem_swapPath (n : Nat) :
    skipelem (swapStem ++ decimal n) = some ((swapStem.tail ++ decimal n).take dirsiz, []) := by
  have htail : ∀ a ∈ swapStem.tail ++ decimal n, (a != slash) = true := by
    intro a ha
    simpa using (ne_of_mem_swapName ha).2
  have hdrop : (swapStem ++ decimal n).dropWhile (· == slash) = swapStem.tail ++ decimal n := rfl
  rw [skipelem, hdrop]
  change some (((swapStem.tail ++ decimal n).takeWhile (· != slash)).take dirsiz,
    ((swapStem.tail ++ decimal n).dropWhile (· != slash)).dropWhile (· == slash)) = _
  rw [takeWhile_eq_self_iff.mpr htail, dropWhile_eq_nil_iff.mpr htail]
  rfl

/-- Swap files have names of their own as long as pids have at most seven digits. -/
theorem swapNames_iff (hp : 1 ≤ p ∧ p < 2 ^ 31) (hq : 1 ≤ q ∧ q < 2 ^ 31) (hne : p ≠ q) :
    SwapNames p q ↔ p < 10 ^ 7 ∧ q < 10 ^ 7 := by
  constructor
  · intro h
    obtain ⟨h1, h2, -⟩ := h (.replicate digits 0) (.replicate digits 0) [] [] (by simp) (by simp)
    rw [swapPath_nat hp.1 (by simp)] at h1
    rw [swapPath_nat hq.1 (by simp)] at h2
    refine ⟨?_, ?_⟩
    · by_contra hge
      rw [if_neg hge] at h1
      exact nomatch h1
    · by_contra hge
      rw [if_neg hge] at h2
      exact nomatch h2
  · rintro ⟨hp7, hq7⟩ stack stack' old old' hs hs'
    refine ⟨?_, ?_, _, _, skipelem_swapPath p, skipelem_swapPath q, ?_⟩
    · rw [swapPath_nat hp.1 hs, if_pos hp7]
    · rw [swapPath_nat hq.1 hs', if_pos hq7]
    · have hshort : ∀ n < 10 ^ 7, (swapStem.tail ++ decimal n).length ≤ dirsiz := by
        intro n hn
        have := length_decimal_le.mpr hn
        rw [length_append]
        change 5 + _ ≤ 14
        omega
      have hholds : ∀ n < 10 ^ 7, ∀ old,
          Holds dirsiz (nameBuffer ((swapStem.tail ++ decimal n).take dirsiz) old)
            (swapStem.tail ++ decimal n) := by
        intro n hn old
        rw [take_of_length_le (hshort n hn)]
        exact holds_nameBuffer (fun a ha => (ne_of_mem_swapName ha).1) (hshort n hn) old
      obtain ⟨z, hz, hiff⟩ := strncmp_holds (hholds p hp7 old) (hholds q hq7 old')
      refine ⟨z, hz, fun h0 => hne (decimal_injective ?_)⟩
      exact append_cancel_left (hiff.mp h0)

/-- The first two processes of the shell. -/
theorem swapNames_iff_shell : SwapNames 3 4 :=
  (swapNames_iff (by decide) (by decide) (by decide)).mpr (by decide)

/-- A pid of eight digits does not fit: the terminator goes behind the array. -/
theorem swapPath_overflow : ¬ SwapNames 3 10000000 ∧
    swapPath (10000000 : Nat) (List.replicate digits 0) = none := by
  have hnone : swapPath (10000000 : Nat) (List.replicate digits 0) = none := by
    rw [swapPath_nat (by decide) (by simp), if_neg (by decide)]
  refine ⟨fun h => ?_, hnone⟩
  obtain ⟨-, h2, -⟩ := h (.replicate digits 0) (.replicate digits 0) [] [] (by simp) (by simp)
  rw [hnone] at h2
  exact nomatch h2

end SwapNames

end Xv6Paging.Dirs
