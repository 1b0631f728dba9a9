import Mathlib

/-! # `grep`

    The matcher of `grep.c`, against what its patterns mean, and the loop that cuts what `read`
    returns into lines. A C string is the list of its bytes without the final `NUL`.
-/

namespace Xv6Paging.Grep

open List

abbrev Str : Type := List UInt8

/-- `.`, `*`, `$`, `^` and the end of a line. -/
def dot : UInt8 := 46
def star : UInt8 := 42
def dollar : UInt8 := 36
def caret : UInt8 := 94
def newline : UInt8 := 10

/-! ## The matcher -/

/-- `matchstar` for the remaining pattern `here`:
    `do … while (*text != '\0' && (*text++ == c || c == '.'))`. -/
def matchstar (c : UInt8) (here : Str → Bool) : Str → Bool
  | [] => here []
  | t :: text => here (t :: text) || (decide (t = c ∨ c = dot) && matchstar c here text)

/-- The last test of `matchhere`: one character. -/
def matchchar (c : UInt8) (here : Str → Bool) : Str → Bool
  | [] => false
  | t :: text => decide (c = dot ∨ c = t) && here text

def matchhere : Str → Str → Bool
  | [], _ => true
  | [c], text => if c = dollar then text.isEmpty else matchchar c (matchhere []) text
  | c :: d :: re, text =>
    if d = star then matchstar c (matchhere re) text
    else matchchar c (matchhere (d :: re)) text

/-- The loop of `match`: the pattern at every position, that of the final `NUL` included. -/
def matchFrom (re : Str) : Str → Bool
  | [] => matchhere re []
  | t :: text => matchhere re (t :: text) || matchFrom re text

def «match» (re text : Str) : Bool :=
  match re with
  | [] => matchFrom [] text
  | c :: re => if c = caret then matchhere re text else matchFrom (c :: re) text

/-! ## What a pattern means -/

inductive Item where
  /-- One character. -/
  | one (c : UInt8)
  /-- Any number of characters. -/
  | many (c : UInt8)
  /-- The end of the text. -/
  | stop

/-- A character of a pattern stands for itself, `.` for any. -/
def Reads (c t : UInt8) : Prop := c = dot ∨ c = t

/-- What a pattern consists of, from left to right. -/
def items : Str → List Item
  | [] => []
  | [c] => if c = dollar then [.stop] else [.one c]
  | c :: d :: re => if d = star then .many c :: items re else .one c :: items (d :: re)

/-- An item matches `piece` before `rest`. -/
def Item.Matches : Item → Str → Str → Prop
  | .one c, piece, _ => ∃ t, piece = [t] ∧ Reads c t
  | .many c, piece, _ => ∀ t ∈ piece, Reads c t
  | .stop, piece, rest => piece = [] ∧ rest = []

/-- The items match pieces of the text, one after the other, from its start. -/
def Starts : List Item → Str → Prop
  | [], _ => True
  | it :: its, text => ∃ piece rest, text = piece ++ rest ∧ it.Matches piece rest ∧ Starts its rest

variable {c : UInt8} {here : Str → Bool} {re text : Str}

theorem matchstar_iff : matchstar c here text = true ↔
    ∃ piece rest, text = piece ++ rest ∧ (∀ t ∈ piece, Reads c t) ∧ here rest = true := by
  induction text with
  | nil =>
    rw [matchstar]
    constructor
    · intro h
      exact ⟨[], [], rfl, nofun, h⟩
    · rintro ⟨piece, rest, hnil, -, h⟩
      obtain ⟨rfl, rfl⟩ := append_eq_nil_iff.mp hnil.symm
      exact h
  | cons t text ih =>
    rw [matchstar, Bool.or_eq_true, Bool.and_eq_true, decide_eq_true_eq, ih]
    constructor
    · rintro (h | ⟨ht, piece, rest, rfl, hpiece, h⟩)
      · exact ⟨[], _, rfl, nofun, h⟩
      · refine ⟨t :: piece, rest, rfl, forall_mem_cons.mpr ⟨?_, hpiece⟩, h⟩
        exact ht.symm.imp_right Eq.symm
    · rintro ⟨_ | ⟨a, piece⟩, rest, heq, hpiece, h⟩
      · exact .inl (by rw [heq]; exact h)
      · obtain ⟨rfl, rfl⟩ := List.cons.inj heq
        obtain ⟨ha, hpiece⟩ := forall_mem_cons.mp hpiece
        exact .inr ⟨ha.symm.imp_left Eq.symm, piece, rest, rfl, hpiece, h⟩

theorem matchchar_iff : matchchar c here text = true ↔
    ∃ piece rest, text = piece ++ rest ∧ (∃ t, piece = [t] ∧ Reads c t) ∧ here rest = true := by
  cases text with
  | nil =>
    refine ⟨nofun, ?_⟩
    rintro ⟨_, rest, heq, ⟨t, rfl, -⟩, -⟩
    exact nomatch heq
  | cons t text =>
    rw [matchchar, Bool.and_eq_true, decide_eq_true_eq]
    constructor
    · rintro ⟨ht, h⟩
      exact ⟨[t], text, rfl, ⟨t, rfl, ht⟩, h⟩
    · rintro ⟨_, rest, heq, ⟨a, rfl, ha⟩, h⟩
      obtain ⟨rfl, rfl⟩ := List.cons.inj heq
      exact ⟨ha, h⟩

theorem matchhere_iff : ∀ re text : Str, matchhere re text = true ↔ Starts (items re) text
  | [], _ => iff_of_true rfl trivial
  | [c], text => by
    rw [matchhere, items]
    split
    · rw [List.isEmpty_iff]
      constructor
      · rintro rfl
        exact ⟨[], [], rfl, ⟨rfl, rfl⟩, trivial⟩
      · rintro ⟨_, _, rfl, ⟨rfl, rfl⟩, -⟩
        rfl
    · exact matchchar_iff.trans (by simp only [matchhere_iff [], items, Starts, Item.Matches])
  | c :: d :: re, text => by
    rw [matchhere, items]
    split
    · exact matchstar_iff.trans (by simp only [matchhere_iff re, Starts, Item.Matches])
    · exact matchchar_iff.trans (by simp only [matchhere_iff (d :: re), Starts, Item.Matches])

theorem matchFrom_iff :
    matchFrom re text = true ↔ ∃ pos ≤ text.length, matchhere re (text.drop pos) = true := by
  induction text with
  | nil => simp [matchFrom]
  | cons t text ih =>
    rw [matchFrom, Bool.or_eq_true, ih]
    constructor
    · rintro (h | ⟨pos, hpos, h⟩)
      · exact ⟨0, Nat.zero_le _, h⟩
      · exact ⟨pos + 1, Nat.succ_le_succ hpos, h⟩
    · rintro ⟨_ | pos, hpos, h⟩
      · exact .inl h
      · exact .inr ⟨pos, Nat.le_of_succ_le_succ hpos, h⟩

/-- `match` finds a pattern exactly if what it means starts somewhere in the text, or at the
    beginning of the text for a pattern after `^`. -/
theorem match_iff (re text : Str) :
    «match» re text = true ↔ ∃ pos ≤ text.length, (re.head? = some caret → pos = 0) ∧
      Starts (items (if re.head? = some caret then re.tail else re)) (text.drop pos) := by
  simp only [← matchhere_iff]
  by_cases hc : re.head? = some caret
  · obtain ⟨re, rfl⟩ := head?_eq_some_iff.mp hc
    simp [«match»]
  · have hfrom : «match» re text = matchFrom re text := by
      cases re with
      | nil => rfl
      | cons c re => exact if_neg fun h => hc (congrArg some h)
    simp [hfrom, matchFrom_iff, hc]

/-! ## The lines -/

/-- `strchr`, as an offset. -/
def strchr : Str → UInt8 → Option Nat
  | [], _ => none
  | t :: s, c => if t = c then some 0 else (strchr s c).map (· + 1)

/-- The inner loop over the bytes from `p` on: what is written, and the bytes from the last `p`
    on. Every turn ends a line, so there are no more turns than bytes. -/
def grepLines (pattern : Str) : Nat → Str → Str × Str
  | 0, p => ([], p)
  | turns + 1, p =>
    match strchr p newline with
    | none => ([], p)
    | some q =>
      let line := p.take q
      let rest := grepLines pattern turns (p.drop (q + 1))
      ((if «match» pattern line then line ++ [newline] else []) ++ rest.1, rest.2)

/-- The rest of `grep` with `buf` in the buffer, where the calls of `read` return `pieces` and
    then end of file: what is written. A piece is no longer than the space that is left. -/
def grepLoop (pattern : Str) : Str → List Str → Str
  | _, [] => []
  | buf, piece :: pieces =>
    let lines := grepLines pattern (buf ++ piece).length (buf ++ piece)
    -- `p == buf`: no line has ended, and the bytes read are dropped.
    let buf' := if lines.2.length = (buf ++ piece).length then [] else lines.2
    lines.1 ++ grepLoop pattern buf' pieces

def grep (pattern : Str) (pieces : List Str) : Str := grepLoop pattern [] pieces

/-- The lines that end in `s` and match, in order; `line` is what precedes `s` on its line. -/
def selected (pattern : Str) : Str → Str → Str
  | _, [] => []
  | line, t :: s =>
    if t = newline then
      (if «match» pattern line then line ++ [newline] else []) ++ selected pattern [] s
    else selected pattern (line ++ [t]) s

/-- The last line, which has not ended. -/
def pending : Str → Str → Str
  | line, [] => line
  | line, t :: s => if t = newline then pending [] s else pending (line ++ [t]) s

variable {pattern line s r buf piece : Str} {pieces : List Str} {q turns : Nat}

theorem selected_append : selected pattern line (s ++ r) =
    selected pattern line s ++ selected pattern (pending line s) r := by
  induction s generalizing line with
  | nil => rfl
  | cons t s ih =>
    simp only [cons_append, selected, pending]
    split
    · rw [ih, append_assoc]
    · exact ih

theorem pending_append : pending line (s ++ r) = pending (pending line s) r := by
  induction s generalizing line with
  | nil => rfl
  | cons t s ih =>
    simp only [cons_append, pending]
    split
    · exact ih
    · exact ih

theorem no_line (pattern line : Str) (h : newline ∉ s) :
    selected pattern line s = [] ∧ pending line s = line ++ s := by
  induction s generalizing line with
  | nil => exact ⟨rfl, (append_nil line).symm⟩
  | cons t s ih =>
    obtain ⟨ht, hs⟩ := not_or.mp (mt mem_cons.mpr h)
    obtain ⟨hsel, hpend⟩ := ih (line ++ [t]) hs
    rw [selected, pending, if_neg (Ne.symm ht), if_neg (Ne.symm ht), hsel, hpend, append_assoc]
    exact ⟨rfl, rfl⟩

theorem pending_spec (h : newline ∉ line) : newline ∉ pending line s ∧
    (pending line s).length ≤ line.length + s.length ∧
    (newline ∈ s → (pending line s).length < line.length + s.length) := by
  induction s generalizing line with
  | nil => exact ⟨h, le_rfl, nofun⟩
  | cons t s ih =>
    rw [pending, length_cons]
    split
    · obtain ⟨hno, hle, -⟩ := @ih [] nofun
      rw [length_nil] at hle
      exact ⟨hno, by omega, fun _ => by omega⟩
    · rename_i ht
      obtain ⟨hno, hle, hlt⟩ := @ih (line ++ [t]) (by simpa [h] using Ne.symm ht)
      rw [length_append, length_singleton] at hle hlt
      refine ⟨hno, by omega, fun hmem => ?_⟩
      have := hlt ((mem_cons.mp hmem).resolve_left (Ne.symm ht))
      omega

theorem strchr_none (h : strchr s c = none) : c ∉ s := by
  induction s with
  | nil => exact nofun
  | cons t s ih =>
    rw [strchr] at h
    split at h
    · exact nomatch h
    · rename_i ht
      exact not_mem_cons_of_ne_of_not_mem (Ne.symm ht) (ih (Option.map_eq_none_iff.mp h))

theorem strchr_some (h : strchr s c = some q) : s = s.take q ++ c :: s.drop (q + 1) ∧ c ∉ s.take q := by
  induction s generalizing q with
  | nil => exact nomatch h
  | cons t s ih =>
    rw [strchr] at h
    split at h
    · rename_i ht
      cases h
      exact ⟨by simp [ht], nofun⟩
    · rename_i ht
      obtain ⟨k, hk, rfl⟩ := Option.map_eq_some_iff.mp h
      obtain ⟨heq, hno⟩ := ih hk
      exact ⟨congrArg (t :: ·) heq, not_mem_cons_of_ne_of_not_mem (Ne.symm ht) hno⟩

theorem grepLines_eq (h : s.length ≤ turns) :
    grepLines pattern turns s = (selected pattern [] s, pending [] s) := by
  induction turns generalizing s with
  | zero =>
    obtain rfl := length_eq_zero_iff.mp (Nat.le_zero.mp h)
    rfl
  | succ turns ih =>
    rw [grepLines]
    cases hq : strchr s newline with
    | none =>
      obtain ⟨hsel, hpend⟩ := no_line pattern [] (strchr_none hq)
      simp [hsel, hpend]
    | some q =>
      obtain ⟨heq, hno⟩ := strchr_some hq
      have hlen := congrArg List.length heq
      rw [length_append, length_cons] at hlen
      simp only [ih (s := s.drop (q + 1)) (by omega)]
      generalize s.take q = a at *
      generalize s.drop (q + 1) = b at *
      obtain ⟨hsel, hpend⟩ := no_line pattern [] hno
      rw [heq, selected_append, pending_append, hsel, hpend, selected, pending, if_pos rfl, if_pos rfl]
      rfl

/-- One turn of the outer loop: the line that has not ended is kept, unless there is no other. -/
theorem grepLoop_cons (h : newline ∉ buf) :
    grepLoop pattern buf (piece :: pieces) = selected pattern buf piece ++
      grepLoop pattern (if newline ∈ piece then pending buf piece else []) pieces := by
  obtain ⟨hsel, hpend⟩ := no_line pattern [] h
  rw [nil_append] at hpend
  rw [grepLoop, grepLines_eq le_rfl, selected_append, pending_append, hsel, hpend,
    length_append]
  obtain ⟨-, -, hlt⟩ := pending_spec (s := piece) h
  by_cases hmem : newline ∈ piece
  · rw [if_pos hmem, if_neg (Nat.ne_of_lt (hlt hmem))]
    rfl
  · rw [if_neg hmem, (no_line pattern _ hmem).2, length_append, if_pos rfl]
    rfl

/-- The empty pattern selects every line. -/
theorem selected_all (line : Str) (h : newline ∈ s) :
    (selected [] line s).length = line.length + (selected [] [] s).length := by
  have hmatch : ∀ l, «match» [] l = true := fun l => by cases l <;> rfl
  induction s generalizing line with
  | nil => exact nomatch h
  | cons t s ih =>
    simp only [selected, hmatch, if_true]
    split
    · simp only [length_append, length_nil, Nat.zero_add, Nat.add_assoc]
    · rename_i ht
      have hs := (mem_cons.mp h).resolve_left (Ne.symm ht)
      rw [ih _ hs, ih ([] ++ [t]) hs, length_append, nil_append, Nat.add_assoc]

theorem grepLoop_le (h : newline ∉ buf) :
    (grepLoop [] buf pieces).length ≤ (selected [] buf pieces.flatten).length := by
  induction pieces generalizing buf with
  | nil => exact Nat.zero_le _
  | cons piece pieces ih =>
    rw [grepLoop_cons h, flatten_cons, selected_append, length_append, length_append]
    refine Nat.add_le_add_left ?_ _
    split
    · exact ih (pending_spec h).1
    · refine Nat.le_trans (ih nofun) ?_
      by_cases hmem : newline ∈ pieces.flatten
      · rw [selected_all (pending buf piece) hmem]
        exact Nat.le_add_left ..
      · rw [(no_line _ _ hmem).1]
        exact Nat.zero_le _

/-- No bytes of a line that ends are dropped: when `read` leaves the buffer without a whole line,
    no other line ends. -/
def Kept : List Str → Prop
  | [] => True
  | piece :: pieces => if newline ∈ piece then Kept pieces else newline ∉ pieces.flatten

theorem grepLoop_exact_iff (h : newline ∉ buf) (hpieces : ∀ piece ∈ pieces, piece ≠ []) :
    (∀ pattern, grepLoop pattern buf pieces = selected pattern buf pieces.flatten) ↔ Kept pieces := by
  induction pieces generalizing buf with
  | nil => exact iff_of_true (fun _ => rfl) trivial
  | cons piece pieces ih =>
    obtain ⟨hne, hrest⟩ := forall_mem_cons.mp hpieces
    simp only [grepLoop_cons h, flatten_cons, selected_append, append_cancel_left_eq, Kept]
    split
    · exact ih (pending_spec h).1 hrest
    · rename_i hmem
      constructor
      · -- The empty pattern misses the bytes that are dropped.
        intro heq hlater
        have hle := @grepLoop_le [] pieces nofun
        rw [heq, selected_all _ hlater, (no_line [] _ hmem).2, length_append] at hle
        have := length_pos_iff.mpr hne
        omega
      · intro hlater pattern
        have hkept : Kept pieces := by
          cases pieces with
          | nil => trivial
          | cons p ps =>
            rw [flatten_cons, mem_append, not_or] at hlater
            rw [Kept, if_neg hlater.1]
            exact hlater.2
        rw [(@ih [] nofun hrest).mpr hkept, (no_line _ _ hlater).1, (no_line _ _ hlater).1]

/-- However `read` cuts the input into pieces, `grep` writes exactly the lines that match, for every
    pattern, if and only if no bytes of a line that ends are dropped. -/
theorem grep_exact_iff (pieces : List Str) (hpieces : ∀ piece ∈ pieces, piece ≠ []) :
    (∀ pattern, grep pattern pieces = selected pattern [] pieces.flatten) ↔ Kept pieces :=
  grepLoop_exact_iff nofun hpieces

/-- Two lines, each read at once. -/
theorem grep_exact_iff_lines : grep [97] [[97, newline], [98, newline]] =
    selected [97] [] [97, newline, 98, newline] :=
  (grep_exact_iff [[97, newline], [98, newline]] (by decide)).mpr ⟨⟩ [97]

/-- The first byte of the only line is read alone, and lost. -/
theorem grep_drops : grep [] [[97], [98, newline]] = [98, newline] ∧
    selected [] [] [97, 98, newline] = [97, 98, newline] := by
  decide

end Xv6Paging.Grep
