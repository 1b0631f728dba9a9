import Xv6Paging.Lib.RingBuffer
import Xv6Paging.Lib.Run
import Xv6Paging.Machine

/-! # Console input

    Characters arrive in `consoleintr`, which edits the last line and commits it, and are
    taken by `consoleread`. Any number of processes read at the same time; a reader holds
    the lock from one place where it sleeps to the next. Three counters, which wrap around,
    point into one ring: `r` to what is read next, `w` behind what is committed, and `e`
    behind what is edited.

    The abstract terminal has two lists in place of the ring: what is committed and not
    read yet, and the line that is edited. The console does what the terminal does.
-/

namespace Xv6Paging.Console

open List Wp Run RingBuffer Function

def inputBuf : Nat := 128

def ctrlD : UInt8 := 4
def ctrlH : UInt8 := 8
def newline : UInt8 := 10
def carriageReturn : UInt8 := 13
def ctrlP : UInt8 := 16
def ctrlU : UInt8 := 21
def delete : UInt8 := 0x7f

structure Input where
  buf : Nat → UInt8
  /-- Read index. -/
  r : UInt32
  /-- Write index. -/
  w : UInt32
  /-- Edit index. -/
  e : UInt32

/-- `input.buf[k % INPUT_BUF]`. -/
def Input.at (i : Input) (k : UInt32) : UInt8 := i.buf (k % UInt32.ofNat inputBuf).toNat

/-! ## `consoleintr` -/

/-- The loop for `C('U')`; the distance of `e` from `w` bounds its turns. -/
def killLine : Nat → Input → Input
  | 0, i => i
  | fuel + 1, i =>
    if i.e ≠ i.w ∧ i.at (i.e - 1) ≠ newline then
      killLine fuel { i with e := i.e - 1 }
    else
      i

/-- `input.buf[input.e++ % INPUT_BUF] = c`. -/
def Input.append (i : Input) (c : UInt8) : Input :=
  { i with buf := update i.buf (i.e % UInt32.ofNat inputBuf).toNat c, e := i.e + 1 }

/-- Does a character end the line, in a ring with these counters? -/
def Input.commits (i : Input) (c : UInt8) : Bool :=
  c == newline || c == ctrlD || i.e == i.r + UInt32.ofNat inputBuf

def Input.commit (i : Input) : Input := { i with w := i.e }

/-- Add a character, and commit the line at its end. -/
def Input.put (i : Input) (c : UInt8) : Input :=
  if (i.append c).commits c = true then (i.append c).commit else i.append c

/-- A carriage return is a newline. -/
def translate (c : UInt8) : UInt8 := if c = carriageReturn then newline else c

/-- One turn of the loop of `consoleintr`. -/
def Input.type (i : Input) (c : UInt8) : Input :=
  if c = ctrlP then
    i
  else if c = ctrlU then
    killLine (i.e - i.w).toNat i
  else if c = ctrlH ∨ c = delete then
    if i.e ≠ i.w then { i with e := i.e - 1 } else i
  else if c ≠ 0 ∧ i.e - i.r < UInt32.ofNat inputBuf then
    i.put (translate c)
  else
    i

/-! ## `consoleread` -/

/-- How far the loop of `consoleread` has come: the bytes put to `dst`, whether an end of file has been
    taken, the number of bytes still wanted, and whether the reader has to sleep. -/
structure Taken where
  got : List UInt8
  eof : Bool
  left : Nat
  blocked : Bool
  deriving DecidableEq, Repr

/-- Bytes taken out of the stream; an end of file is a `C('D')`. -/
def Taken.consumed (t : Taken) : List UInt8 := t.got ++ if t.eof = true then [ctrlD] else []

def Taken.cons (c : UInt8) (t : Taken) : Taken := { t with got := c :: t.got }

/-- `input.r++`. -/
def Input.advance (i : Input) : Input := { i with r := i.r + 1 }

/-- The loop of `consoleread` for a call with `target`. -/
def readLoop (target : Nat) : Nat → Input → Input × Taken
  | 0, i => (i, ⟨[], false, 0, false⟩)
  | k + 1, i =>
    if i.r = i.w then
      (i, ⟨[], false, k + 1, true⟩)
    else if i.at i.r = ctrlD then
      if k + 1 < target then
        -- `C('D')` is saved for the next call, which will return `0`.
        ({ i.advance with r := i.advance.r - 1 }, ⟨[], false, k + 1, false⟩)
      else
        (i.advance, ⟨[], true, k + 1, false⟩)
    else if i.at i.r = newline then
      (i.advance, ⟨[newline], false, k, false⟩)
    else
      ((readLoop target k i.advance).1, (readLoop target k i.advance).2.cons (i.at i.r))

/-- A reader. -/
inductive Pos where
  | idle
  /-- Asleep in a call for `target` bytes, of which `left` are still wanted. -/
  | reading (target left : Nat)
  deriving DecidableEq, Repr

structure Sys (n : Nat) where
  input : Input
  pos : Fin n → Pos

variable {n : Nat}

/-- The bytes in the ring from counter `k` on. -/
def cells (buf : Nat → UInt8) (k : UInt32) (len : Nat) : List UInt8 :=
  (List.range len).map fun j => buf ((k + UInt32.ofNat j) % UInt32.ofNat inputBuf).toNat

/-- What a step has done: the bytes it has committed, what a reader has taken, and what a call of
    `consoleread` for `target` bytes returns. -/
structure Out (n : Nat) where
  committed : List UInt8
  taken : Option Taken
  ret : Option (Fin n × Nat × Int)

def Out.none : Out n := ⟨[], .none, .none⟩

inductive Turn (n : Nat) where
  | type (c : UInt8)
  /-- An idle process calls `consoleread`. -/
  | read (p : Fin n) (k : Int)
  /-- A reader that sleeps is scheduled. -/
  | resume (p : Fin n)

/-- Where a reader is, and what it returns, when its loop has come to an end. -/
def settle (p : Fin n) (target : Nat) (t : Taken) : Pos × Out n :=
  if t.blocked = true then
    (.reading target t.left, ⟨[], some t, .none⟩)
  else
    (.idle, ⟨[], some t, some (p, target, target - t.left)⟩)

/-- A reader runs its loop. -/
def Sys.consoleread (s : Sys n) (p : Fin n) (target left : Nat) : Out n × Sys n :=
  let res := readLoop target left s.input
  ((settle p target res.2).2, ⟨res.1, update s.pos p (settle p target res.2).1⟩)

def Sys.step (s : Sys n) : Turn n → Out n × Sys n
  | .type c =>
    let i := s.input.type c
    (⟨cells i.buf s.input.w (i.w - s.input.w).toNat, .none, .none⟩, { s with input := i })
  | .read p k =>
    match s.pos p with
    | .idle => s.consoleread p k.toNat k.toNat
    | .reading _ _ => (.none, s)
  | .resume p =>
    match s.pos p with
    | .idle => (.none, s)
    | .reading target left => s.consoleread p target left

/-- The console when the system starts. -/
def Sys.init (n : Nat) : Sys n := ⟨⟨fun _ => 0, 0, 0, 0⟩, fun _ => .idle⟩

/-! ## The abstract terminal -/

/-- What is committed and not read yet, and the line that is edited. -/
structure Tty (n : Nat) where
  unread : List UInt8
  line : List UInt8
  pos : Fin n → Pos

/-- A character is added to the line, which is committed at a newline, at `C('D')`, and when there is
    no more room. -/
def Tty.put (t : Tty n) (c : UInt8) : Out n × Tty n :=
  if c = newline ∨ c = ctrlD ∨ t.unread.length + t.line.length + 1 = inputBuf then
    (⟨t.line ++ [c], .none, .none⟩, { t with unread := t.unread ++ (t.line ++ [c]), line := [] })
  else
    (.none, { t with line := t.line ++ [c] })

def Tty.type (t : Tty n) (c : UInt8) : Out n × Tty n :=
  if c = ctrlP then
    (.none, t)
  else if c = ctrlU then
    (.none, { t with line := [] })
  else if c = ctrlH ∨ c = delete then
    (.none, { t with line := t.line.dropLast })
  else if c ≠ 0 ∧ t.unread.length + t.line.length < inputBuf then
    t.put (translate c)
  else
    (.none, t)

/-- Take bytes off the stream: the rest of it, and what was taken. -/
def take (target : Nat) : Nat → List UInt8 → List UInt8 × Taken
  | 0, u => (u, ⟨[], false, 0, false⟩)
  | k + 1, [] => ([], ⟨[], false, k + 1, true⟩)
  | k + 1, c :: u =>
    if c = ctrlD then
      if k + 1 < target then (c :: u, ⟨[], false, k + 1, false⟩) else (u, ⟨[], true, k + 1, false⟩)
    else if c = newline then
      (u, ⟨[newline], false, k, false⟩)
    else
      ((take target k u).1, (take target k u).2.cons c)

def Tty.consoleread (t : Tty n) (p : Fin n) (target left : Nat) : Out n × Tty n :=
  let res := take target left t.unread
  ((settle p target res.2).2, { t with unread := res.1, pos := update t.pos p (settle p target res.2).1 })

def Tty.step (t : Tty n) : Turn n → Out n × Tty n
  | .type c => t.type c
  | .read p k =>
    match t.pos p with
    | .idle => t.consoleread p k.toNat k.toNat
    | .reading _ _ => (.none, t)
  | .resume p =>
    match t.pos p with
    | .idle => (.none, t)
    | .reading target left => t.consoleread p target left

def Tty.init (n : Nat) : Tty n := ⟨[], [], fun _ => .idle⟩

/-! ## The ring -/

/-- The ring has `u` committed and unread, and `l` as its line. -/
structure Rel (u l : List UInt8) (R : Nat) (i : Input) : Prop where
  r : i.r = counter R
  w : i.w = counter (R + u.length)
  e : i.e = counter (R + u.length + l.length)
  room : u.length + l.length ≤ inputBuf
  cells : Window inputBuf i.buf R (R + u.length + l.length) fun k => (u ++ l).getD (k - R) 0
  line : newline ∉ l

section Ring

variable {u l : List UInt8} {R : Nat} {i : Input} {c : UInt8}

theorem cell_eq (k : Nat) : (counter k % UInt32.ofNat inputBuf).toNat = k % inputBuf :=
  counter_mod (by decide) (by decide)

theorem counter_pred (k : Nat) : counter (k + 1) - 1 = counter k :=
  counter_sub (k := 1) (Nat.le_add_left 1 k)

theorem map_range_getD (l : List UInt8) : (List.range l.length).map (fun j => l.getD j 0) = l := by
  refine ext_getElem (by simp) fun j hj _ => ?_
  simp at hj
  simp [hj]

/-- The bytes of a part of the ring. -/
theorem cells_eq {buf : Nat → UInt8} {lo hi k len : Nat} (h : Window inputBuf buf lo hi f)
    (hlo : lo ≤ k) (hhi : k + len ≤ hi) :
    Console.cells buf (counter k) len = (List.range len).map fun j => f (k + j) := by
  refine map_congr_left fun j hj => ?_
  have hlt := mem_range.mp hj
  rw [show counter k + UInt32.ofNat j = counter (k + j) from counter_add k j, cell_eq]
  exact h (k + j) (by omega) (by omega)

theorem Rel.line_len (h : Rel u l R i) : (i.e - i.w).toNat = l.length := by
  have hroom := h.room
  have hsize : inputBuf = 128 := rfl
  rw [h.e, h.w, toNat_counter_sub (by omega) (by omega)]
  omega

theorem Rel.used_len (h : Rel u l R i) : (i.e - i.r).toNat = u.length + l.length := by
  have hroom := h.room
  have hsize : inputBuf = 128 := rfl
  rw [h.e, h.r, toNat_counter_sub (by omega) (by omega)]
  omega

/-- What is committed and not read yet. -/
def Input.unread (i : Input) : List UInt8 := Console.cells i.buf i.r (i.w - i.r).toNat

theorem Rel.dropLast (h : Rel u (l ++ [c]) R i) :
    Rel u l R { i with e := i.e - 1 } ∧ i.e ≠ i.w ∧ i.at (i.e - 1) = c := by
  have hroom := h.room
  have hsize : inputBuf = 128 := rfl
  rw [length_append, length_singleton] at hroom
  have he : i.e = counter (R + u.length + l.length + 1) := by
    rw [h.e, length_append, length_singleton, Nat.add_assoc (R + u.length)]
  have hcells := h.cells
  rw [length_append, length_singleton] at hcells
  refine ⟨⟨h.r, h.w, ?_, by omega, ?_, fun hmem => h.line (mem_append_left _ hmem)⟩, ?_, ?_⟩
  · show i.e - 1 = _
    rw [he, counter_pred]
  · refine (hcells.mono (Nat.le_refl R) (by omega)).congr fun k _ hk => ?_
    have hlt : k - R < (u ++ l).length := by
      rw [length_append]
      omega
    rw [← append_assoc, getD_append _ _ _ _ hlt]
  · rw [he, h.w, Ne, counter_eq_iff (by omega) (by omega)]
    omega
  · have hcell := hcells (R + u.length + l.length) (by omega) (by omega)
    have hoff : R + u.length + l.length - R = (u ++ l).length := by
      rw [length_append]
      omega
    simp only [hoff, ← append_assoc] at hcell
    rw [he, counter_pred, Input.at, cell_eq, hcell]
    simp

theorem Rel.empty_line (h : Rel u [] R i) : i.e = i.w := by
  rw [h.e, h.w]
  rfl

/-- `C('U')` takes back the whole line. -/
theorem Rel.killLine (h : Rel u l R i) : Rel u [] R (killLine l.length i) ∧
    (killLine l.length i).buf = i.buf ∧ (killLine l.length i).w = i.w := by
  induction l using List.reverseRecOn generalizing i with
  | nil => exact ⟨h, rfl, rfl⟩
  | append_singleton l c ih =>
    obtain ⟨hdrop, hne, hat⟩ := h.dropLast
    have hc : c ≠ newline := by
      rintro rfl
      exact h.line (by simp)
    obtain ⟨hrel, hbuf, hw⟩ := ih hdrop
    rw [length_append, length_singleton, Console.killLine, if_pos ⟨hne, by rwa [hat]⟩]
    exact ⟨hrel, hbuf, hw⟩

/-- The ring with one more character. -/
theorem Rel.append (h : Rel u l R i) (hroom : u.length + l.length < inputBuf) :
    (i.append c).r = counter R ∧ (i.append c).w = counter (R + u.length) ∧
      (i.append c).e = counter (R + u.length + (l ++ [c]).length) ∧
      Window inputBuf (i.append c).buf R (R + u.length + (l ++ [c]).length)
        fun k => (u ++ (l ++ [c])).getD (k - R) 0 := by
  refine ⟨h.r, h.w, ?_, ?_⟩
  · show i.e + 1 = _
    rw [h.e, length_append]
    exact counter_add _ 1
  · have hold : Window inputBuf i.buf R (R + u.length + l.length) fun k => (u ++ (l ++ [c])).getD (k - R) 0 := by
      refine h.cells.congr fun k _ hk => ?_
      have hlt : k - R < (u ++ l).length := by
        rw [length_append]
        omega
      rw [← append_assoc, getD_append _ _ _ _ hlt]
    have hnew := hold.push (by omega)
    have hoff : R + u.length + l.length - R = (u ++ l).length := by
      rw [length_append]
      omega
    have hlast : (u ++ (l ++ [c])).getD (R + u.length + l.length - R) 0 = c := by
      rw [hoff, ← append_assoc]
      simp
    rw [hlast] at hnew
    show Window inputBuf (update i.buf (i.e % UInt32.ofNat inputBuf).toNat c) R _ _
    rw [h.e, cell_eq, length_append, length_singleton, ← Nat.add_assoc]
    exact hnew

/-- The line is committed where the terminal commits it. -/
theorem Rel.commits_iff (h : Rel u l R i) (hroom : u.length + l.length < inputBuf) :
    (i.append c).commits c = true ↔ c = newline ∨ c = ctrlD ∨ u.length + l.length + 1 = inputBuf := by
  obtain ⟨hr, _, he, _⟩ := h.append (c := c) hroom
  have hsize : inputBuf = 128 := rfl
  have hfull : (i.append c).e = (i.append c).r + UInt32.ofNat inputBuf ↔ u.length + l.length + 1 = inputBuf := by
    rw [he, hr, show counter R + UInt32.ofNat inputBuf = counter (R + inputBuf) from counter_add R inputBuf,
      length_append, length_singleton, eq_comm, counter_eq_iff (by omega) (by omega)]
    omega
  simp only [Input.commits, Bool.or_eq_true, beq_iff_eq, hfull, or_assoc]

/-- Bytes that are unread or edited are not overwritten. -/
def Undisturbed (i i' : Input) : Prop :=
  ∀ j < (i.e - i.r).toNat, i'.at (i.r + UInt32.ofNat j) = i.at (i.r + UInt32.ofNat j)

theorem Undisturbed.of_buf (h : i'.buf = i.buf) : Undisturbed i i' := by
  intro j _
  rw [Input.at, h]
  rfl

theorem Rel.undisturbed_append (h : Rel u l R i) (hroom : u.length + l.length < inputBuf) :
    Undisturbed i (i.append c) := by
  obtain ⟨_, _, _, hnew⟩ := h.append (c := c) hroom
  intro j hj
  rw [h.used_len] at hj
  have hcell : i.r + UInt32.ofNat j = counter (R + j) := by
    rw [h.r]
    exact counter_add R j
  have hlt : j < (u ++ l).length := by rwa [length_append]
  rw [hcell, Input.at, Input.at, cell_eq, hnew (R + j) (by omega) (by rw [length_append]; omega),
    h.cells (R + j) (by omega) (by omega)]
  show (u ++ (l ++ [c])).getD (R + j - R) 0 = (u ++ l).getD (R + j - R) 0
  rw [Nat.add_sub_cancel_left, ← append_assoc, getD_append _ _ _ _ hlt]

end Ring

/-! ## The console does what the terminal does -/

section Simulation

variable {R : Nat} {i : Input} {c : UInt8} {t : Tty n}

/-- What a character does to the ring is what it does to the terminal. -/
structure Typed (R : Nat) (i : Input) (t : Tty n) (i' : Input) (out : Out n) (t' : Tty n) : Prop where
  rel : Rel t'.unread t'.line R i'
  committed : out = ⟨cells i'.buf i.w (i'.w - i.w).toNat, .none, .none⟩
  unread : t'.unread = t.unread ++ out.committed
  undisturbed : Undisturbed i i'
  pos : t'.pos = t.pos

theorem Typed.of_same (h : Rel t.unread l R i') (hbuf : i'.buf = i.buf)
    (hw : i'.w = i.w) : Typed R i t i' .none { t with line := l } where
  rel := h
  committed := by
    rw [hw, UInt32.sub_self]
    rfl
  unread := (append_nil _).symm
  undisturbed := .of_buf hbuf
  pos := rfl

theorem Typed.put (h : Rel t.unread t.line R i) (hroom : t.unread.length + t.line.length < inputBuf) :
    Typed R i t (i.put c) (t.put c).1 (t.put c).2 := by
  obtain ⟨hr, hw, he, hcells⟩ := h.append (c := c) hroom
  have hlen : (t.line ++ [c]).length = t.line.length + 1 := by simp
  unfold Input.put Tty.put
  by_cases hcommit : (i.append c).commits c = true
  · rw [if_pos hcommit, if_pos ((h.commits_iff hroom).mp hcommit)]
    -- The whole line is committed, and the next one is empty.
    have hsum : R + (t.unread ++ (t.line ++ [c])).length = R + t.unread.length + (t.line ++ [c]).length := by
      rw [length_append]
      omega
    have hrel : Rel (t.unread ++ (t.line ++ [c])) [] R (i.append c).commit := by
      refine ⟨hr, ?_, ?_, ?_, ?_, not_mem_nil⟩
      · rw [hsum]
        exact he
      · rw [hsum]
        exact he
      · rw [length_append, hlen]
        show _ + 0 ≤ _
        omega
      · rw [append_nil, hsum]
        exact hcells
    refine ⟨hrel, ?_, rfl, h.undisturbed_append hroom, rfl⟩
    have hdist : ((i.append c).commit.w - i.w).toNat = (t.line ++ [c]).length := by
      have hsize : inputBuf = 128 := rfl
      show ((i.append c).e - i.w).toNat = _
      rw [he, h.w, toNat_counter_sub (by omega) (by omega)]
      omega
    have hbytes : cells (i.append c).buf i.w (t.line ++ [c]).length = t.line ++ [c] := by
      rw [h.w, cells_eq hcells (by omega) le_rfl]
      calc (List.range (t.line ++ [c]).length).map
            (fun j => (t.unread ++ (t.line ++ [c])).getD (R + t.unread.length + j - R) 0)
          = (List.range (t.line ++ [c]).length).map (fun j => (t.line ++ [c]).getD j 0) := by
            refine map_congr_left fun j _ => ?_
            rw [show R + t.unread.length + j - R = t.unread.length + j by omega,
              getD_append_right _ _ _ _ (by omega), Nat.add_sub_cancel_left]
        _ = t.line ++ [c] := map_range_getD _
    rw [hdist]
    exact congrArg (fun x => (⟨x, .none, .none⟩ : Out n)) hbytes.symm
  · rw [if_neg hcommit, if_neg ((h.commits_iff hroom).not.mp hcommit)]
    have hcond := (h.commits_iff hroom).not.mp hcommit
    have hrel : Rel t.unread (t.line ++ [c]) R (i.append c) := by
      refine ⟨hr, hw, he, by omega, hcells, fun hmem => ?_⟩
      rcases mem_append.mp hmem with hold | hnew
      · exact h.line hold
      · exact hcond (.inl (mem_singleton.mp hnew).symm)
    refine ⟨hrel, ?_, (append_nil _).symm, h.undisturbed_append hroom, rfl⟩
    show Out.none = (⟨cells _ i.w (i.w - i.w).toNat, .none, .none⟩ : Out n)
    rw [UInt32.sub_self]
    rfl

theorem Typed.type (h : Rel t.unread t.line R i) : Typed R i t (i.type c) (t.type c).1 (t.type c).2 := by
  have hroom : i.e - i.r < UInt32.ofNat inputBuf ↔ t.unread.length + t.line.length < inputBuf := by
    rw [UInt32.lt_iff_toNat_lt, h.used_len]
    exact Iff.rfl
  unfold Input.type Tty.type
  by_cases hp : c = ctrlP
  · rw [if_pos hp, if_pos hp]
    exact .of_same h rfl rfl
  rw [if_neg hp, if_neg hp]
  by_cases hu : c = ctrlU
  · rw [if_pos hu, if_pos hu, h.line_len]
    obtain ⟨hrel, hbuf, hw⟩ := h.killLine
    exact .of_same hrel hbuf hw
  rw [if_neg hu, if_neg hu]
  by_cases hb : c = ctrlH ∨ c = delete
  · rw [if_pos hb, if_pos hb]
    cases hline : t.line using List.reverseRecOn with
    | nil =>
      rw [hline] at h
      rw [if_neg (not_not.mpr h.empty_line)]
      exact .of_same h rfl rfl
    | append_singleton l x =>
      rw [hline] at h
      obtain ⟨hdrop, hne, _⟩ := h.dropLast
      rw [if_pos hne, dropLast_concat]
      exact .of_same hdrop rfl rfl
  rw [if_neg hb, if_neg hb]
  by_cases hc : c ≠ 0 ∧ t.unread.length + t.line.length < inputBuf
  · rw [if_pos hc, if_pos ⟨hc.1, hroom.mpr hc.2⟩]
    exact .put h hc.2
  · rw [if_neg hc, if_neg fun hc' => hc ⟨hc'.1, hroom.mp hc'.2⟩]
    exact .of_same h rfl rfl

/-- A reader takes from the ring what it takes from the terminal. -/
theorem Rel.read (h : Rel u l R i) (target k : Nat) :
    (readLoop target k i).2 = (take target k u).2 ∧ (readLoop target k i).1.buf = i.buf ∧
      ∃ R', Rel (take target k u).1 l R' (readLoop target k i).1 := by
  induction k generalizing u R i with
  | zero => exact ⟨rfl, rfl, R, h⟩
  | succ k ih =>
    cases u with
    | nil =>
      have hempty : i.r = i.w := by
        rw [h.r, h.w]
        rfl
      rw [readLoop, if_pos hempty]
      exact ⟨rfl, rfl, R, h⟩
    | cons c u =>
      have hroom := h.room
      have hsize : inputBuf = 128 := rfl
      rw [length_cons] at hroom
      have hne : i.r ≠ i.w := by
        rw [h.r, h.w, length_cons, ne_comm, Ne, counter_eq_iff (by omega) (by omega)]
        omega
      have hat : i.at i.r = c := by
        have hcell := h.cells R (Nat.le_refl R) (by rw [length_cons]; omega)
        rw [h.r, Input.at, cell_eq, hcell]
        simp
      have hadvance : Rel u l (R + 1) i.advance := by
        have hw := h.w
        have he := h.e
        have hcells := h.cells
        rw [length_cons] at hw he hcells
        refine ⟨?_, ?_, ?_, by omega, ?_, h.line⟩
        · show i.r + 1 = _
          rw [h.r]
          exact counter_add R 1
        · show i.w = _
          rw [hw]
          congr 1
          omega
        · show i.e = _
          rw [he]
          congr 1
          omega
        · refine (hcells.mono (Nat.le_succ R) (by omega)).congr fun j hj _ => ?_
          rw [show j - R = j - (R + 1) + 1 by omega]
          rfl
      rw [readLoop, if_neg hne, hat, Console.take]
      by_cases hd : c = ctrlD
      · rw [if_pos hd, if_pos hd]
        by_cases hlt : k + 1 < target
        · rw [if_pos hlt, if_pos hlt]
          have hback : ({ i.advance with r := i.advance.r - 1 } : Input) = i := by
            show (⟨i.buf, i.r + 1 - 1, i.w, i.e⟩ : Input) = i
            rw [UInt32.add_sub_cancel]
          rw [hback]
          exact ⟨rfl, rfl, R, h⟩
        · rw [if_neg hlt, if_neg hlt]
          exact ⟨rfl, rfl, R + 1, hadvance⟩
      · rw [if_neg hd, if_neg hd]
        by_cases hnl : c = newline
        · rw [if_pos hnl, if_pos hnl]
          exact ⟨rfl, rfl, R + 1, hadvance⟩
        · rw [if_neg hnl, if_neg hnl]
          obtain ⟨htaken, hbuf, hrel⟩ := ih hadvance
          exact ⟨congrArg (Taken.cons c) htaken, hbuf, hrel⟩

end Simulation

/-! ## What readers take -/

section Take

variable {target k : Nat} {u : List UInt8}

/-- Nothing is lost, and nothing is taken twice. -/
theorem take_consumed : (take target k u).2.consumed ++ (take target k u).1 = u := by
  induction k generalizing u with
  | zero => rfl
  | succ k ih =>
    cases u with
    | nil => rfl
    | cons c u =>
      rw [take]
      by_cases hd : c = ctrlD
      · rw [if_pos hd]
        by_cases hlt : k + 1 < target
        · rw [if_pos hlt]
          rfl
        · rw [if_neg hlt, hd]
          rfl
      · rw [if_neg hd]
        by_cases hnl : c = newline
        · rw [if_pos hnl, hnl]
          rfl
        · rw [if_neg hnl]
          exact congrArg (c :: ·) (ih (u := u))

theorem take_got : ctrlD ∉ (take target k u).2.got := by
  induction k generalizing u with
  | zero => exact not_mem_nil
  | succ k ih =>
    cases u with
    | nil => exact not_mem_nil
    | cons c u =>
      rw [take]
      by_cases hd : c = ctrlD
      · rw [if_pos hd]
        split <;> exact not_mem_nil
      · rw [if_neg hd]
        by_cases hnl : c = newline
        · rw [if_pos hnl]
          show ctrlD ∉ [newline]
          decide
        · rw [if_neg hnl]
          intro hmem
          rcases mem_cons.mp hmem with heq | hrest
          · exact hd heq.symm
          · exact ih hrest

theorem take_left : (take target k u).2.left ≤ k := by
  induction k generalizing u with
  | zero => exact le_rfl
  | succ k ih =>
    cases u with
    | nil => exact le_rfl
    | cons c u =>
      rw [take]
      split
      · split <;> exact le_rfl
      · split
        · exact Nat.le_succ k
        · exact Nat.le_succ_of_le ih

/-- A call for `target` bytes of which `left` were not delivered ends when it is full, behind a newline,
    or at a `C('D')`: one that has delivered nothing takes it as an end of file, another one leaves
    it. -/
def Ends (target : Nat) (t : Taken) (unread : List UInt8) : Prop :=
  t.left = 0 ∨ t.got.getLast? = some newline ∨ (t.eof = true ∧ t.left = target) ∨
    (t.left < target ∧ unread.head? = some ctrlD)

theorem take_ends (hk : k ≤ target) (hdone : (take target k u).2.blocked = false) :
    Ends target (take target k u).2 (take target k u).1 := by
  induction k generalizing u with
  | zero => exact .inl rfl
  | succ k ih =>
    cases u with
    | nil => exact nomatch hdone
    | cons c u =>
      rw [take] at hdone ⊢
      by_cases hd : c = ctrlD
      · rw [if_pos hd] at hdone ⊢
        by_cases hlt : k + 1 < target
        · rw [if_pos hlt]
          exact .inr (.inr (.inr ⟨hlt, congrArg some hd⟩))
        · rw [if_neg hlt]
          exact .inr (.inr (.inl ⟨rfl, Nat.le_antisymm hk (Nat.le_of_not_lt hlt)⟩))
      · rw [if_neg hd] at hdone ⊢
        by_cases hnl : c = newline
        · rw [if_pos hnl]
          exact .inr (.inl rfl)
        · rw [if_neg hnl] at hdone ⊢
          rcases ih (u := u) (by omega) hdone with hfull | hline | heof | hsaved
          · exact .inl hfull
          · refine .inr (.inl ?_)
            show (c :: (take target k u).2.got).getLast? = some newline
            rw [getLast?_cons, hline]
            rfl
          · exact .inr (.inr (.inl heof))
          · exact .inr (.inr (.inr hsaved))

end Take

/-! ## Runs -/

/-- The console and the terminal that it implements. -/
structure Sim (t : Tty n) (s : Sys n) : Prop where
  ring : ∃ R, Rel t.unread t.line R s.input
  pos : t.pos = s.pos
  left : ∀ p target left, s.pos p = .reading target left → left ≤ target

/-- All about one step. -/
structure Stepped (t : Tty n) (s : Sys n) (a : Turn n) : Prop where
  out : (s.step a).1 = (t.step a).1
  sim : Sim (t.step a).2 (s.step a).2
  undisturbed : Undisturbed s.input (s.step a).2.input
  /-- What is committed goes to the stream, and what is taken comes from it. -/
  stream : (((s.step a).1.taken.map Taken.consumed).getD [] ++ (t.step a).2.unread) =
    t.unread ++ (s.step a).1.committed
  ends : ∀ p target m, (s.step a).1.ret = some (p, target, m) → ∃ k, (s.step a).1.taken = some k ∧
    m = target - k.left ∧ Ends target k (t.step a).2.unread
  bytes : ∀ k, (s.step a).1.taken = some k → ctrlD ∉ k.got

section Runs

variable {t : Tty n} {s : Sys n} {p : Fin n} {target left : Nat}

theorem Stepped.none (h : Sim t s) (hs : s.step a = (.none, s)) (ht : t.step a = (.none, t)) : Stepped t s a := by
  refine ⟨by rw [hs, ht], by rw [hs, ht]; exact h, ?_, ?_, ?_, ?_⟩
  · rw [hs]
    exact .of_buf rfl
  · rw [hs, ht]
    exact (append_nil _).symm
  · rw [hs]
    exact nofun
  · rw [hs]
    exact nofun

/-- A reader runs its loop. -/
theorem Stepped.read (h : Sim t s) (hle : left ≤ target) (hs : s.step a = s.consoleread p target left)
    (ht : t.step a = t.consoleread p target left) : Stepped t s a := by
  obtain ⟨R, hrel⟩ := h.ring
  obtain ⟨htaken, hbuf, hrel'⟩ := hrel.read target left
  have hout : (s.consoleread p target left).1 = (t.consoleread p target left).1 := by
    simp only [Sys.consoleread, Tty.consoleread, htaken]
  have hcommitted : (t.consoleread p target left).1.committed = [] := by
    simp only [Tty.consoleread, settle]
    split <;> rfl
  have hgot : (t.consoleread p target left).1.taken = some (take target left t.unread).2 := by
    simp only [Tty.consoleread, settle]
    split <;> rfl
  refine ⟨by rw [hs, ht, hout], ?_, ?_, ?_, ?_, ?_⟩
  · rw [hs, ht]
    refine ⟨hrel', ?_, fun q target' left' hq => ?_⟩
    · simp only [Sys.consoleread, Tty.consoleread, htaken, h.pos]
    · simp only [Sys.consoleread, htaken] at hq
      by_cases hqp : q = p
      · rw [hqp, update_self, settle] at hq
        split at hq
        · cases hq
          exact Nat.le_trans take_left hle
        · exact nomatch hq
      · rw [update_of_ne hqp] at hq
        exact h.left q target' left' hq
  · rw [hs]
    exact .of_buf hbuf
  · rw [hs, ht, hout, hcommitted, hgot, append_nil]
    exact take_consumed
  · rw [hs, ht, hout, hgot]
    intro q target' m hret
    refine ⟨_, rfl, ?_⟩
    simp only [Tty.consoleread, settle] at hret
    split at hret
    · exact nomatch hret
    · rename_i hdone
      cases hret
      exact ⟨rfl, take_ends hle (by simpa using hdone)⟩
  · rw [hs, hout, hgot]
    rintro k ⟨⟩
    exact take_got

end Runs

end Xv6Paging.Console
