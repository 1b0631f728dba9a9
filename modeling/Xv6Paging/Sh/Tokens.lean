import Xv6Paging.Sh.Parser

/-! # Tokens of a line

    The tokens that `gettoken` returns, one after the other, from a position on. `peek` and
    `gettoken` are given rules that speak about this list only: what they return depends
    on its first token, and what is left is the list or its tail.
-/

namespace Xv6Paging.Sh

open List Wp

variable {cs cs' : List UInt8} {c : UInt8} {Q : Tok × Span → Nat → Prop}

structure Lexeme where
  tok : Tok
  span : Span
  deriving DecidableEq

section

variable {line : List UInt8} {s q : Nat} {f : UInt8 → Bool}

/-! ## Positions -/

theorem byteAt_of_le (h : line.length ≤ s) : byteAt line s = 0 := getD_eq_default _ _ h

theorem lt_length_of_byteAt (h : byteAt line s ≠ 0) : s < line.length := by
  by_contra hle
  exact h (byteAt_of_le (by omega))

/-- One round of a loop that skips bytes. -/
theorem skipWhile_eq (f : UInt8 → Bool) (line : List UInt8) (s : Nat) :
    skipWhile f line s = if s < line.length ∧ f (byteAt line s) = true then skipWhile f line (s + 1) else s := by
  unfold skipWhile
  by_cases hlt : s < line.length
  · have hbyte : byteAt line s = (line)[s] := getD_eq_getElem _ _ hlt
    rw [drop_eq_getElem_cons hlt, hbyte]
    by_cases hf : f (line)[s] = true
    · rw [takeWhile_cons_of_pos hf, if_pos ⟨hlt, hf⟩, length_cons]
      omega
    · rw [takeWhile_cons_of_neg hf, if_neg fun h => hf h.2]
      rfl
  · rw [drop_eq_nil_of_le (by omega), if_neg fun h => hlt h.1]
    rfl

theorem le_skipWhile (f : UInt8 → Bool) (line : List UInt8) (s : Nat) : s ≤ skipWhile f line s := by
  unfold skipWhile
  omega

/-- What a loop has skipped, and where it stops. -/
theorem skipWhile_spec (f : UInt8 → Bool) (line : List UInt8) (s : Nat) :
    (∀ i, s ≤ i → i < skipWhile f line s → i < line.length ∧ f (byteAt line i) = true) ∧
      (skipWhile f line s < line.length → f (byteAt line (skipWhile f line s)) = false) := by
  -- by induction on how much of the line is left
  induction hn : line.length - s generalizing s with
  | zero =>
    rw [skipWhile_eq, if_neg fun h => by omega]
    exact ⟨fun i hi hi' => by omega, fun h => by omega⟩
  | succ n ih =>
    rw [skipWhile_eq]
    split
    next h =>
      obtain ⟨hbefore, hstop⟩ := ih (s + 1) (by omega)
      refine ⟨fun i hi hi' => ?_, hstop⟩
      by_cases his : i = s
      · rw [his]
        exact h
      · exact hbefore i (by omega) hi'
    next h =>
      refine ⟨fun i hi hi' => by omega, fun hlt => ?_⟩
      simpa [hlt] using h

theorem skipWhile_skipWhile (f : UInt8 → Bool) (line : List UInt8) (s : Nat) :
    skipWhile f line (skipWhile f line s) = skipWhile f line s := by
  rw [skipWhile_eq]
  refine if_neg fun h => ?_
  have := (skipWhile_spec f line s).2 h.1
  rw [this] at h
  exact nomatch h.2

/-! ## The token at a position -/

/-- The byte that a symbol starts with. -/
def Tok.byte : Tok → Option UInt8
  | .bar => some 124
  | .lparen => some 40
  | .rparen => some 41
  | .semi => some 59
  | .amp => some 38
  | .lt => some 60
  | .gt => some 62
  | .append => some 62
  | .eof => none
  | .word => none

theorem lex_cases (line : List UInt8) (q : Nat) :
    (lex line q).1 = .eof ∧ byteAt line q = 0 ∧ (lex line q).2 = q ∨
      (lex line q).1.byte = some (byteAt line q) ∧ byteAt line q ≠ 0 ∧ q < (lex line q).2 ∨
      (lex line q).1 = .word ∧ byteAt line q ≠ 0 ∧ byteAt line q ∉ symbols ∧
        (lex line q).2 = skipWhile isWordByte line q := by
  unfold lex
  simp only
  split_ifs with h0 h1 h2 h3 h4 h5 h6 h7 h8
  · exact .inl ⟨rfl, h0, rfl⟩
  · exact .inr (.inl ⟨congrArg some h1.symm, h0, Nat.lt_succ_self q⟩)
  · exact .inr (.inl ⟨congrArg some h2.symm, h0, Nat.lt_succ_self q⟩)
  · exact .inr (.inl ⟨congrArg some h3.symm, h0, Nat.lt_succ_self q⟩)
  · exact .inr (.inl ⟨congrArg some h4.symm, h0, Nat.lt_succ_self q⟩)
  · exact .inr (.inl ⟨congrArg some h5.symm, h0, Nat.lt_succ_self q⟩)
  · exact .inr (.inl ⟨congrArg some h6.symm, h0, Nat.lt_succ_self q⟩)
  · exact .inr (.inl ⟨congrArg some h7.symm, h0, by omega⟩)
  · exact .inr (.inl ⟨congrArg some h7.symm, h0, Nat.lt_succ_self q⟩)
  · exact .inr (.inr ⟨rfl, h0, by simp [symbols, h1, h2, h3, h4, h5, h6, h7], rfl⟩)

/-- A token after whitespace has a positive length, within the line. -/
theorem lex_lt (line : List UInt8) (s : Nat) (h : (lex line (skipWhile isSpace line s)).1 ≠ .eof) :
    skipWhile isSpace line s < (lex line (skipWhile isSpace line s)).2 ∧
      skipWhile isSpace line s < line.length := by
  have hstop := (skipWhile_spec isSpace line s).2
  generalize skipWhile isSpace line s = q at *
  rcases lex_cases line q with ⟨heof, -⟩ | ⟨-, hbyte, hlt⟩ | ⟨-, hbyte, hsym, hend⟩
  · exact absurd heof h
  · exact ⟨hlt, lt_length_of_byteAt hbyte⟩
  · have hlen := lt_length_of_byteAt hbyte
    refine ⟨?_, hlen⟩
    have hword : isWordByte (byteAt line q) = true := by
      have hspace : whitespace.contains (byteAt line q) = false := hstop hlen
      simp only [isWordByte, hspace]
      simpa using hsym
    rw [hend, skipWhile_eq, if_pos ⟨hlen, hword⟩]
    exact le_skipWhile isWordByte line (q + 1)

/-! ## The list of tokens -/

/-- At most `n` tokens from position `s` on. -/
def tokensUpTo (line : List UInt8) : Nat → Nat → List Lexeme
  | 0, _ => []
  | n + 1, s =>
    let q := skipWhile isSpace line s
    if (lex line q).1 = .eof then
      []
    else
      ⟨(lex line q).1, ⟨q, (lex line q).2⟩⟩ :: tokensUpTo line n (lex line q).2

/-- The tokens from position `s` on. -/
def tokens (line : List UInt8) (s : Nat) : List Lexeme := tokensUpTo line (line.length + 1) s

theorem tokensUpTo_stable (hn : line.length - s < n) (hm : line.length - s < m) :
    tokensUpTo line n s = tokensUpTo line m s := by
  induction n generalizing s m with
  | zero => omega
  | succ n ih =>
    obtain ⟨m, rfl⟩ := Nat.exists_eq_succ_of_ne_zero (show m ≠ 0 by omega)
    unfold tokensUpTo
    by_cases heof : (lex line (skipWhile isSpace line s)).1 = .eof
    · simp only [heof, if_true]
    · obtain ⟨hlt, hlen⟩ := lex_lt line s heof
      have hle := le_skipWhile isSpace line s
      simp only [heof, if_false]
      rw [ih (s := (lex line (skipWhile isSpace line s)).2) (m := m) (by omega) (by omega)]

theorem tokens_eq (line : List UInt8) (s : Nat) : tokens line s =
    if (lex line (skipWhile isSpace line s)).1 = .eof then
      []
    else
      ⟨(lex line (skipWhile isSpace line s)).1,
        ⟨skipWhile isSpace line s, (lex line (skipWhile isSpace line s)).2⟩⟩ ::
        tokens line (lex line (skipWhile isSpace line s)).2 := by
  rw [tokens, tokensUpTo]
  by_cases heof : (lex line (skipWhile isSpace line s)).1 = .eof
  · simp only [heof, if_true]
  · obtain ⟨hlt, hlen⟩ := lex_lt line s heof
    simp only [heof, if_false]
    rw [tokens, tokensUpTo_stable (n := line.length) (by omega)]
    omega

theorem tokens_skipWhile (line : List UInt8) (s : Nat) : tokens line (skipWhile isSpace line s) = tokens line s := by
  rw [tokens_eq line (skipWhile isSpace line s), tokens_eq line s, skipWhile_skipWhile]

/-- Every byte of `cs` is in `cs'`. -/
def among (cs cs' : List UInt8) : Bool := cs.all cs'.contains

theorem mem_of_among (h : among cs cs' = true) (hc : c ∈ cs) : c ∈ cs' :=
  contains_iff_mem.mp (all_eq_true.mp h c hc)

/-- No byte of `cs` is in `cs'`. -/
def apart (cs cs' : List UInt8) : Bool := cs.all fun c => !cs'.contains c

theorem not_mem_of_apart (h : apart cs cs' = true) (hc : c ∈ cs) : c ∉ cs' := by
  have hnot := all_eq_true.mp h c hc
  intro hmem
  rw [contains_iff_mem.mpr hmem] at hnot
  exact nomatch hnot

/-- Is the first token one of these symbols? -/
def startsWith (cs : List UInt8) : List Lexeme → Bool
  | [] => false
  | l :: _ =>
    match l.tok.byte with
    | some c => cs.contains c
    | none => false

/-! ## Rules -/

variable {ts : List Lexeme} {l : Lexeme} {E : Stop → Nat → Prop}

theorem wp_peek {Q : Bool → Nat → Prop} (hcs : among cs symbols = true) (h : tokens line s = ts)
    (hQ : ∀ s', tokens line s' = ts → Q (startsWith cs ts) s') : wp (peek line cs) Q E s := by
  have hts : tokens line (skipWhile isSpace line s) = ts := by
    rw [tokens_skipWhile, h]
  have hpeek : startsWith cs ts = decide (byteAt line (skipWhile isSpace line s) ≠ 0 ∧
      byteAt line (skipWhile isSpace line s) ∈ cs) := by
    rw [← h, tokens_eq]
    rcases lex_cases line (skipWhile isSpace line s) with ⟨heof, hzero, -⟩ | ⟨hbyte, hne, -⟩ | ⟨hword, hne, hsym, -⟩
    · rw [if_pos heof, hzero]
      rfl
    · have heof : (lex line (skipWhile isSpace line s)).1 ≠ .eof := by
        intro he
        rw [he] at hbyte
        exact nomatch hbyte
      rw [if_neg heof]
      simp [startsWith, hbyte, hne]
    · have heof : (lex line (skipWhile isSpace line s)).1 ≠ .eof := by
        rw [hword]
        nofun
      have hcs' : byteAt line (skipWhile isSpace line s) ∉ cs := fun hmem => hsym (mem_of_among hcs hmem)
      rw [if_neg heof]
      simp [startsWith, hword, Tok.byte, hcs']
  have hrun := hQ _ hts
  rw [hpeek] at hrun
  exact hrun

theorem wp_gettoken_cons (h : tokens line s = l :: ts)
    (hQ : ∀ s', tokens line s' = ts → Q (l.tok, l.span) s') : wp (gettoken line) Q E s := by
  rw [tokens_eq] at h
  split at h
  next => exact nomatch h
  next =>
    obtain ⟨rfl, hts⟩ := List.cons.inj h
    refine hQ _ ?_
    rw [tokens_skipWhile]
    exact hts

theorem tok_ne_eof (h : tokens line s = l :: ts) : l.tok ≠ .eof := by
  rw [tokens_eq] at h
  split at h
  next => exact nomatch h
  next heof =>
    obtain ⟨rfl, -⟩ := List.cons.inj h
    exact heof

theorem wp_gettoken_nil (h : tokens line s = [])
    (hQ : ∀ w s', tokens line s' = [] → Q (.eof, w) s') :
    wp (gettoken line) Q E s := by
  rw [tokens_eq] at h
  split at h
  next heof =>
    have hend : (lex line (skipWhile isSpace line s)).2 = skipWhile isSpace line s := by
      rcases lex_cases line (skipWhile isSpace line s) with ⟨-, -, hend⟩ | ⟨hbyte, -⟩ | ⟨hword, -⟩
      · exact hend
      · rw [heof] at hbyte
        exact nomatch hbyte
      · rw [heof] at hword
        exact nomatch hword
    have hrun := hQ ⟨skipWhile isSpace line s, (lex line (skipWhile isSpace line s)).2⟩
      (skipWhile isSpace line (lex line (skipWhile isSpace line s)).2) ?_
    · rw [← heof] at hrun
      exact hrun
    · rw [tokens_skipWhile, hend, tokens_skipWhile, tokens_eq, if_pos heof]
  next => exact nomatch h

/-! ## Words -/

end

end Xv6Paging.Sh
