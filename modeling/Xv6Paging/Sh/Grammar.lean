import Xv6Paging.Sh.Tokens

/-! # The grammar of the shell

    The grammar, as a relation between lists of tokens and trees, and that `parsecmd` accepts
    exactly the lines whose tokens it derives, with the tree of the derivation.

        line   -> pipe '&'* [';' line]
        pipe   -> exec ['|' pipe]
        exec   -> '(' line ')' redirs | redirs (word redirs)*
        redirs -> (('<' | '>' | '>>') word)*

    Each procedure of the parser looks at one token to decide how to go on. That it returns
    is shown by induction on the fuel, together with soundness; that it returns the tree of
    a derivation, by induction on the derivation, for what may come after it.
-/

namespace Xv6Paging.Sh

open List Wp Run

inductive Nonterminal where
  | line
  | pipe
  | exec

def Tok.isRedir : Tok → Bool
  | .lt => true
  | .gt => true
  | .append => true
  | _ => false

/-- `redirs`, with the redirections. -/
inductive Redirs : List Lexeme → List (Tok × Span) → Prop
  | nil : Redirs [] []
  | cons {l w : Lexeme} {ts : List Lexeme} {rs : List (Tok × Span)} (hl : l.tok.isRedir = true) (hw : w.tok = .word)
      (h : Redirs ts rs) : Redirs (l :: w :: ts) ((l.tok, w.span) :: rs)

/-- `(word redirs)*`, with the words and the redirections. -/
inductive Args : List Lexeme → List Span → List (Tok × Span) → Prop
  | nil : Args [] [] []
  | cons {w : Lexeme} {ts ts' : List Lexeme} {rs rs' : List (Tok × Span)} {ws : List Span} (hw : w.tok = .word)
      (hr : Redirs ts rs) (h : Args ts' ws rs') : Args (w :: (ts ++ ts')) (w.span :: ws) (rs ++ rs')

/-- A tree in redirections, the last of which is outermost. -/
def wrap (cmd : Cmd) (rs : List (Tok × Span)) : Cmd := rs.foldl (fun c r => redirect r.1 c r.2) cmd

inductive Derives : Nonterminal → List Lexeme → Cmd → Prop
  | line {ts amps : List Lexeme} {c : Cmd} (h : Derives .pipe ts c) (hamps : ∀ a ∈ amps, a.tok = .amp) :
      Derives .line (ts ++ amps) (Cmd.back^[amps.length] c)
  | seq {ts amps ts' : List Lexeme} {semi : Lexeme} {c d : Cmd} (h : Derives .pipe ts c)
      (hamps : ∀ a ∈ amps, a.tok = .amp) (hsemi : semi.tok = .semi) (h' : Derives .line ts' d) :
      Derives .line (ts ++ amps ++ semi :: ts') (.list (Cmd.back^[amps.length] c) d)
  | exec {ts : List Lexeme} {c : Cmd} (h : Derives .exec ts c) : Derives .pipe ts c
  | pipe {ts ts' : List Lexeme} {bar : Lexeme} {c d : Cmd} (h : Derives .exec ts c) (hbar : bar.tok = .bar)
      (h' : Derives .pipe ts' d) : Derives .pipe (ts ++ bar :: ts') (.pipe c d)
  | block {ts ts' : List Lexeme} {l r : Lexeme} {rs : List (Tok × Span)} {c : Cmd} (hl : l.tok = .lparen)
      (h : Derives .line ts c) (hr : r.tok = .rparen) (hrs : Redirs ts' rs) :
      Derives .exec (l :: ts ++ r :: ts') (wrap c rs)
  | command {ts ts' : List Lexeme} {rs rs' : List (Tok × Span)} {ws : List Span} (hrs : Redirs ts rs)
      (h : Args ts' ws rs') (hlen : ws.length < maxargs) : Derives .exec (ts ++ ts') (wrap (.exec ws) (rs ++ rs'))

/-- What `panic` prints for a line that is not accepted. -/
def syntaxErrors : List String :=
  ["missing file for redirection", "syntax - missing )", "syntax", "too many args"]

def SyntaxError (e : Stop) (_ : Nat) : Prop := ∃ msg ∈ syntaxErrors, e = .panic msg

section

variable {line cs cs' : List UInt8} {s n : Nat} {cmd : Cmd} {ts pre post : List Lexeme} {l : Lexeme}

theorem wrap_append (cmd : Cmd) (rs rs' : List (Tok × Span)) : wrap cmd (rs ++ rs') = wrap (wrap cmd rs) rs' :=
  foldl_append

/-- Arguments are added to the command inside of its redirections. -/
theorem addArg_wrap (cmd : Cmd) (rs : List (Tok × Span)) (w : Span) :
    (wrap cmd rs).addArg w = wrap (cmd.addArg w) rs := by
  induction rs generalizing cmd with
  | nil => rfl
  | cons r rs ih =>
    have hr : (redirect r.1 cmd r.2).addArg w = redirect r.1 (cmd.addArg w) r.2 := by
      cases r.1 <;> rfl
    show (wrap (redirect r.1 cmd r.2) rs).addArg w = wrap (redirect r.1 (cmd.addArg w) r.2) rs
    rw [ih, hr]

theorem startsWith_redir (l : Lexeme) (ts : List Lexeme) : startsWith [60, 62] (l :: ts) = l.tok.isRedir := by
  obtain ⟨tok, span⟩ := l
  cases tok <;> rfl

theorem startsWith_amp (l : Lexeme) (ts : List Lexeme) : startsWith [38] (l :: ts) = (l.tok == .amp) := by
  obtain ⟨tok, span⟩ := l
  cases tok <;> rfl

theorem startsWith_semi (l : Lexeme) (ts : List Lexeme) : startsWith [59] (l :: ts) = (l.tok == .semi) := by
  obtain ⟨tok, span⟩ := l
  cases tok <;> rfl

theorem startsWith_bar (l : Lexeme) (ts : List Lexeme) : startsWith [124] (l :: ts) = (l.tok == .bar) := by
  obtain ⟨tok, span⟩ := l
  cases tok <;> rfl

theorem startsWith_lparen (l : Lexeme) (ts : List Lexeme) : startsWith [40] (l :: ts) = (l.tok == .lparen) := by
  obtain ⟨tok, span⟩ := l
  cases tok <;> rfl

theorem startsWith_rparen (l : Lexeme) (ts : List Lexeme) : startsWith [41] (l :: ts) = (l.tok == .rparen) := by
  obtain ⟨tok, span⟩ := l
  cases tok <;> rfl

/-- A list that starts with some symbols does not start with others. -/
theorem startsWith_eq_false (h : ts = [] ∨ startsWith cs ts = true) (hdis : apart cs cs' = true) :
    startsWith cs' ts = false := by
  cases ts with
  | nil => rfl
  | cons l ts =>
    rcases h with h | h
    · exact nomatch h
    · simp only [startsWith] at h ⊢
      cases hb : l.tok.byte with
      | none => rfl
      | some c =>
        rw [hb] at h
        simpa using not_mem_of_apart hdis (c := c) (by simpa using h)

/-! ## Redirections -/

/-- The redirections that `parseredirs` takes, and the tokens that are left. -/
theorem parseredirs_sound (h : tokens line s = ts) (hn : ts.length < n) :
    wp (parseredirs line n cmd) (fun c s' => ∃ pre rs, ts = pre ++ tokens line s' ∧ Redirs pre rs ∧ c = wrap cmd rs)
      SyntaxError s := by
  induction n generalizing s ts cmd with
  | zero => omega
  | succ n ih =>
    simp only [parseredirs, wp_bind]
    refine wp_peek (by decide) h fun s1 h1 => ?_
    cases ts with
    | nil => exact ⟨[], [], by rw [h1]; rfl, .nil, rfl⟩
    | cons l ts =>
      rw [startsWith_redir, wp_ite]
      refine ⟨fun hl => ?_, fun _ => ⟨[], [], by rw [h1]; rfl, .nil, rfl⟩⟩
      simp only [wp_bind]
      refine wp_gettoken_cons h1 fun s2 h2 => ?_
      cases ts with
      | nil =>
        refine wp_gettoken_nil h2 fun w s3 _ => ?_
        exact ⟨_, by decide, rfl⟩
      | cons w ts =>
        refine wp_gettoken_cons h2 fun s3 h3 => ?_
        show wp (if w.tok ≠ .word then _ else _) _ _ _
        rw [wp_ite]
        refine ⟨fun _ => ⟨_, by decide, rfl⟩, fun hw => ?_⟩
        simp only [length_cons] at hn
        refine wp_post (ih h3 (by omega)) ?_
        rintro c s' ⟨pre, rs, rfl, hrs, rfl⟩
        exact ⟨l :: w :: pre, (l.tok, w.span) :: rs, rfl, .cons hl (not_not.mp hw) hrs, rfl⟩

theorem parseredirs_complete {rs : List (Tok × Span)} (hr : Redirs pre rs) (h : tokens line s = pre ++ post)
    (hstop : startsWith [60, 62] post = false) (hn : pre.length < n) :
    wp (parseredirs line n cmd) (fun c s' => c = wrap cmd rs ∧ tokens line s' = post) noStop s := by
  induction hr generalizing s n cmd with
  | nil =>
    obtain ⟨n, rfl⟩ := Nat.exists_eq_succ_of_ne_zero hn.ne'
    simp only [parseredirs, wp_bind]
    refine wp_peek (by decide) h fun s1 h1 => ?_
    rw [nil_append] at h1 ⊢
    rw [hstop]
    exact ⟨rfl, h1⟩
  | @cons l w ts rs hl hw _ ih =>
    obtain ⟨n, rfl⟩ := Nat.exists_eq_succ_of_ne_zero (Nat.ne_of_gt (Nat.zero_lt_of_lt hn))
    simp only [parseredirs, wp_bind]
    refine wp_peek (by decide) h fun s1 h1 => ?_
    rw [cons_append, startsWith_redir, hl]
    simp only [if_true, wp_bind]
    refine wp_gettoken_cons h1 fun s2 h2 => ?_
    refine wp_gettoken_cons h2 fun s3 h3 => ?_
    show wp (if w.tok ≠ .word then _ else _) _ _ _
    rw [if_neg (not_not.mpr hw)]
    simp only [length_cons] at hn
    exact ih h3 (by omega)

/-! ## Words -/

/-- The loop of `parseexec`: words and redirections in any order. -/
theorem parseargs_sound {argv : List Span} {rs : List (Tok × Span)} (h : tokens line s = ts) (hn : ts.length < n)
    (hargv : argv.length < maxargs) :
    wp (parseargs line n argv.length (wrap (.exec argv) rs)) (fun c s' => ∃ pre ws rs', ts = pre ++ tokens line s' ∧
      Args pre ws rs' ∧ argv.length + ws.length < maxargs ∧ c = wrap (.exec (argv ++ ws)) (rs ++ rs'))
      SyntaxError s := by
  induction n generalizing s ts argv rs with
  | zero => omega
  | succ n ih =>
    have hdone : ∀ s', tokens line s' = ts → ∃ pre ws rs', ts = pre ++ tokens line s' ∧ Args pre ws rs' ∧
        argv.length + ws.length < maxargs ∧
        wrap (.exec argv) rs = wrap (.exec (argv ++ ws)) (rs ++ rs') := by
      intro s' h'
      exact ⟨[], [], [], by rw [h']; rfl, .nil, hargv, by rw [append_nil, append_nil]⟩
    simp only [parseargs, wp_bind]
    refine wp_peek (by decide) h fun s1 h1 => ?_
    rw [wp_ite]
    refine ⟨fun _ => hdone s1 h1, fun _ => ?_⟩
    simp only [wp_bind]
    cases ts with
    | nil =>
      refine wp_gettoken_nil h1 fun w s2 h2 => ?_
      exact hdone s2 h2
    | cons w ts =>
      refine wp_gettoken_cons h1 fun s2 h2 => ?_
      have heof : w.tok ≠ .eof := tok_ne_eof h1
      show wp (if w.tok = .eof then _ else _) _ _ _
      rw [if_neg heof, wp_ite]
      refine ⟨fun _ => ⟨_, by decide, rfl⟩, fun hw => ?_⟩
      rw [wp_ite]
      refine ⟨fun _ => ⟨_, by decide, rfl⟩, fun hargc => ?_⟩
      simp only [length_cons] at hn
      simp only [wp_bind, addArg_wrap, Cmd.addArg]
      refine wp_post (parseredirs_sound h2 (by omega)) ?_
      rintro c s3 ⟨pre, rs', rfl, hrs', rfl⟩
      rw [← wrap_append]
      have hlen : (argv ++ [w.span]).length = argv.length + 1 := by simp
      rw [← hlen]
      rw [length_append] at hn
      refine wp_post (@ih s3 _ (argv ++ [w.span]) (rs ++ rs') rfl (by omega) (by rw [hlen]; omega)) ?_
      rintro c s' ⟨pre', ws, rs'', htail, hargs, hws, rfl⟩
      refine ⟨w :: (pre ++ pre'), w.span :: ws, rs' ++ rs'', ?_, .cons (not_not.mp hw) hrs' hargs, ?_, ?_⟩
      · rw [htail]
        simp
      · rw [length_cons]
        omega
      · simp

/-- The loop over `&` in `parseline`. -/
theorem parsebacks_sound (h : tokens line s = ts) (hn : ts.length < n) :
    wp (parsebacks line n cmd) (fun c s' => ∃ amps, ts = amps ++ tokens line s' ∧ (∀ a ∈ amps, a.tok = .amp) ∧
      c = Cmd.back^[amps.length] cmd) SyntaxError s := by
  induction n generalizing s ts cmd with
  | zero => omega
  | succ n ih =>
    simp only [parsebacks, wp_bind]
    refine wp_peek (by decide) h fun s1 h1 => ?_
    cases ts with
    | nil => exact ⟨[], by rw [h1]; rfl, by rintro _ ⟨⟩, rfl⟩
    | cons l ts =>
      rw [startsWith_amp, wp_ite, beq_iff_eq]
      refine ⟨fun hl => ?_, fun _ => ⟨[], by rw [h1]; rfl, by rintro _ ⟨⟩, rfl⟩⟩
      simp only [wp_bind]
      refine wp_gettoken_cons h1 fun s2 h2 => ?_
      simp only [length_cons] at hn
      refine wp_post (ih h2 (by omega)) ?_
      rintro c s' ⟨amps, rfl, hamps, rfl⟩
      exact ⟨l :: amps, rfl, forall_mem_cons.mpr ⟨hl, hamps⟩, rfl⟩

theorem parsebacks_complete {amps : List Lexeme} (hamps : ∀ a ∈ amps, a.tok = .amp)
    (h : tokens line s = amps ++ post) (hstop : startsWith [38] post = false) (hn : amps.length < n) :
    wp (parsebacks line n cmd) (fun c s' => c = Cmd.back^[amps.length] cmd ∧ tokens line s' = post) noStop s := by
  induction amps generalizing s n cmd with
  | nil =>
    obtain ⟨n, rfl⟩ := Nat.exists_eq_succ_of_ne_zero hn.ne'
    simp only [parsebacks, wp_bind]
    refine wp_peek (by decide) h fun s1 h1 => ?_
    rw [nil_append] at h1 ⊢
    rw [hstop]
    exact ⟨rfl, h1⟩
  | cons a amps ih =>
    obtain ⟨n, rfl⟩ := Nat.exists_eq_succ_of_ne_zero (Nat.ne_of_gt (Nat.zero_lt_of_lt hn))
    obtain ⟨ha, hamps⟩ := forall_mem_cons.mp hamps
    rw [length_cons] at hn
    simp only [parsebacks, wp_bind]
    refine wp_peek (by decide) h fun s1 h1 => ?_
    rw [cons_append, startsWith_amp, ha]
    simp only [beq_self_eq_true, if_true, wp_bind]
    refine wp_gettoken_cons h1 fun s2 h2 => ?_
    exact ih hamps h2 (by omega)

/-! ## Soundness -/

/-- A tree for the tokens up to where the parser is now. -/
def Parsed (line : List UInt8) (nt : Nonterminal) (ts : List Lexeme) (c : Cmd) (s' : Nat) : Prop :=
  ∃ pre, ts = pre ++ tokens line s' ∧ Derives nt pre c

/-- The procedures return a tree that is derivable, or stop with a syntax error. -/
structure Sound (line : List UInt8) (n : Nat) : Prop where
  ofLine : ∀ s ts, tokens line s = ts → 4 * ts.length + 4 ≤ n → wp (parseline line n) (Parsed line .line ts) SyntaxError s
  ofPipe : ∀ s ts, tokens line s = ts → 4 * ts.length + 3 ≤ n → wp (parsepipe line n) (Parsed line .pipe ts) SyntaxError s
  ofExec : ∀ s ts, tokens line s = ts → 4 * ts.length + 2 ≤ n → wp (parseexec line n) (Parsed line .exec ts) SyntaxError s
  ofBlock : ∀ s l ts, tokens line s = l :: ts → l.tok = .lparen → 4 * (l :: ts).length + 1 ≤ n →
    wp (parseblock line n) (Parsed line .exec (l :: ts)) SyntaxError s

/-- One procedure calls the next one: the tokens stay and the fuel goes down by one, so that four units
    are due for each token. -/
theorem Sound.parseline (h : Sound line n) (hs : tokens line s = ts) (hn : 4 * ts.length + 4 ≤ n + 1) :
    wp (parseline line (n + 1)) (Parsed line .line ts) SyntaxError s := by
  simp only [Sh.parseline, wp_bind]
  refine wp_post (h.ofPipe s ts hs (by omega)) ?_
  rintro c s1 ⟨pre, rfl, hc⟩
  rw [length_append] at hn
  refine wp_post (parsebacks_sound rfl (by omega)) ?_
  rintro c' s2 ⟨amps, hs1, hamps, rfl⟩
  have hlen := congrArg List.length hs1
  rw [length_append] at hlen
  refine wp_peek (by decide) rfl fun s3 h3 => ?_
  have hdone : Parsed line .line (pre ++ tokens line s1) (Cmd.back^[amps.length] c) s3 :=
    ⟨pre ++ amps, by rw [hs1, h3, append_assoc], .line hc hamps⟩
  cases hts : tokens line s2 with
  | nil => exact hdone
  | cons l ts' =>
    rw [startsWith_semi, wp_ite, beq_iff_eq]
    refine ⟨fun hl => ?_, fun _ => hdone⟩
    simp only [wp_bind]
    rw [hts] at h3
    refine wp_gettoken_cons h3 fun s4 h4 => ?_
    rw [hts, length_cons] at hlen
    refine wp_post (h.ofLine s4 ts' h4 (by omega)) ?_
    rintro d s' ⟨pre', rfl, hd⟩
    refine ⟨pre ++ amps ++ l :: pre', ?_, .seq hc hamps hl hd⟩
    rw [hs1, hts]
    simp

theorem Sound.parsepipe (h : Sound line n) (hs : tokens line s = ts) (hn : 4 * ts.length + 3 ≤ n + 1) :
    wp (parsepipe line (n + 1)) (Parsed line .pipe ts) SyntaxError s := by
  simp only [Sh.parsepipe, wp_bind]
  refine wp_post (h.ofExec s ts hs (by omega)) ?_
  rintro c s1 ⟨pre, rfl, hc⟩
  rw [length_append] at hn
  refine wp_peek (by decide) rfl fun s2 h2 => ?_
  have hdone : Parsed line .pipe (pre ++ tokens line s1) c s2 := ⟨pre, by rw [h2], .exec hc⟩
  cases hts : tokens line s1 with
  | nil =>
    rw [hts] at hdone
    exact hdone
  | cons l ts' =>
    rw [hts] at h2 hdone hn
    rw [startsWith_bar, wp_ite, beq_iff_eq]
    refine ⟨fun hl => ?_, fun _ => hdone⟩
    simp only [wp_bind]
    refine wp_gettoken_cons h2 fun s3 h3 => ?_
    rw [length_cons] at hn
    refine wp_post (h.ofPipe s3 ts' h3 (by omega)) ?_
    rintro d s' ⟨pre', rfl, hd⟩
    exact ⟨pre ++ l :: pre', by simp, .pipe hc hl hd⟩

theorem Sound.parseexec (h : Sound line n) (hs : tokens line s = ts) (hn : 4 * ts.length + 2 ≤ n + 1) :
    wp (parseexec line (n + 1)) (Parsed line .exec ts) SyntaxError s := by
  simp only [Sh.parseexec, wp_bind]
  refine wp_peek (by decide) hs fun s1 h1 => ?_
  rw [wp_ite]
  constructor
  · intro hl
    cases ts with
    | nil => cases hl
    | cons l ts =>
      rw [startsWith_lparen, beq_iff_eq] at hl
      exact h.ofBlock s1 l ts h1 hl (by omega)
  · intro _
    simp only [wp_bind]
    refine wp_post (parseredirs_sound h1 (by omega)) ?_
    rintro c s2 ⟨pre, rs, rfl, hrs, rfl⟩
    rw [length_append] at hn
    refine wp_post (@parseargs_sound line s2 n _ [] rs rfl (by omega) (by decide)) ?_
    rintro c s' ⟨pre', ws, rs', htail, hargs, hws, rfl⟩
    refine ⟨pre ++ pre', by rw [htail, append_assoc], .command hrs hargs ?_⟩
    simpa using hws

theorem Sound.parseblock (h : Sound line n) (hs : tokens line s = l :: ts) (hl : l.tok = .lparen)
    (hn : 4 * (l :: ts).length + 1 ≤ n + 1) :
    wp (parseblock line (n + 1)) (Parsed line .exec (l :: ts)) SyntaxError s := by
  rw [length_cons] at hn
  simp only [Sh.parseblock, wp_bind]
  refine wp_peek (by decide) hs fun s1 h1 => ?_
  rw [startsWith_lparen, hl]
  simp only [beq_self_eq_true, if_true, wp_bind]
  refine wp_gettoken_cons h1 fun s2 h2 => ?_
  refine wp_post (h.ofLine s2 ts h2 (by omega)) ?_
  rintro c s3 ⟨pre, rfl, hc⟩
  rw [length_append] at hn
  refine wp_peek (by decide) rfl fun s4 h4 => ?_
  cases hts : tokens line s3 with
  | nil => exact ⟨_, by decide, rfl⟩
  | cons r ts' =>
    rw [hts] at h4 hn
    rw [length_cons] at hn
    rw [startsWith_rparen, wp_ite, beq_iff_eq]
    refine ⟨fun hr => ?_, fun _ => ⟨_, by decide, rfl⟩⟩
    simp only [wp_bind]
    refine wp_gettoken_cons h4 fun s5 h5 => ?_
    refine wp_post (parseredirs_sound h5 (by omega)) ?_
    rintro c' s' ⟨pre', rs, rfl, hrs, rfl⟩
    exact ⟨l :: pre ++ r :: pre', by simp, .block hl hc hr hrs⟩

theorem sound (line : List UInt8) (n : Nat) : Sound line n := by
  induction n with
  | zero => exact ⟨fun _ _ _ _ => by omega, fun _ _ _ _ => by omega, fun _ _ _ _ => by omega, fun _ _ _ _ _ _ => by omega⟩
  | succ n ih =>
    exact ⟨fun _ _ hs hn => ih.parseline hs hn, fun _ _ hs hn => ih.parsepipe hs hn,
      fun _ _ hs hn => ih.parseexec hs hn, fun _ _ _ hs hl hn => ih.parseblock hs hl hn⟩

/-! ## Completeness -/

/-- The symbols that may come after a phrase. -/
def follow : Nonterminal → List UInt8
  | .line => [41]
  | .pipe => [41, 38, 59]
  | .exec => [41, 38, 59, 124]

def MayFollow (nt : Nonterminal) (post : List Lexeme) : Prop := post = [] ∨ startsWith (follow nt) post = true

def parse (line : List UInt8) : Nonterminal → Nat → M Cmd
  | .line => parseline line
  | .pipe => parsepipe line
  | .exec => parseexec line

/-- The fuel of a procedure, for `k` tokens. -/
def fuelFor : Nonterminal → Nat → Nat
  | .line, k => 4 * k + 4
  | .pipe, k => 4 * k + 3
  | .exec, k => 4 * k + 2

theorem MayFollow.cons {nt : Nonterminal} (l : Lexeme) (post : List Lexeme)
    (h : ∃ c ∈ follow nt, l.tok.byte = some c) : MayFollow nt (l :: post) := by
  obtain ⟨c, hc, hb⟩ := h
  refine .inr ?_
  simp only [startsWith, hb]
  simpa using hc

/-- What may come after a longer phrase, may come after a shorter one. -/
theorem MayFollow.mono {nt nt' : Nonterminal} (h : MayFollow nt post) (hsub : among (follow nt) (follow nt') = true) :
    MayFollow nt' post := by
  rcases h with rfl | h
  · exact .inl rfl
  · refine .inr ?_
    cases post with
    | nil => cases h
    | cons l post =>
      simp only [startsWith] at h ⊢
      cases hb : l.tok.byte with
      | none =>
        rw [hb] at h
        cases h
      | some c =>
        rw [hb] at h
        simpa using mem_of_among hsub (c := c) (by simpa using h)

theorem amps_mayFollow {amps : List Lexeme} (hamps : ∀ a ∈ amps, a.tok = .amp) (h : MayFollow .pipe post) :
    MayFollow .pipe (amps ++ post) := by
  cases amps with
  | nil => exact h
  | cons a amps => exact .cons a _ ⟨38, by decide, by rw [hamps a mem_cons_self]; rfl⟩

theorem exists_fuel {nt : Nonterminal} (hn : fuelFor nt k ≤ n) : ∃ m, n = m + 1 := by
  refine Nat.exists_eq_succ_of_ne_zero ?_
  rintro rfl
  cases nt <;> simp [fuelFor] at hn

/-- The procedure of `nt` returns tree `c` for the tokens `pre`, whatever may come after them. -/
def Accepts (line : List UInt8) (nt : Nonterminal) (pre : List Lexeme) (c : Cmd) : Prop :=
  ∀ ⦃s n post⦄, tokens line s = pre ++ post → MayFollow nt post → fuelFor nt (pre ++ post).length ≤ n →
    wp (parse line nt n) (fun c' s' => c' = c ∧ tokens line s' = post) noStop s

section Accepts

variable {ts' amps : List Lexeme} {c d : Cmd} {rs rs' : List (Tok × Span)}

theorem Accepts.seq {semi : Lexeme} (ih : Accepts line .pipe ts c) (hamps : ∀ a ∈ amps, a.tok = .amp)
    (hsemi : semi.tok = .semi) (ih' : Accepts line .line ts' d) :
    Accepts line .line (ts ++ amps ++ semi :: ts') (.list (Cmd.back^[amps.length] c) d) := by
  intro s n post h hpost hn
  obtain ⟨n, rfl⟩ := exists_fuel hn
  simp only [fuelFor] at hn
  rw [append_assoc, append_assoc, cons_append] at h hn
  have hfollow : MayFollow .pipe (semi :: (ts' ++ post)) := .cons semi _ ⟨59, by decide, by rw [hsemi]; rfl⟩
  simp only [parse, parseline, wp_bind]
  refine wp_post (ih h (amps_mayFollow hamps hfollow) (by simp only [fuelFor]; omega)) ?_
  rintro c' s1 ⟨rfl, h1⟩
  rw [length_append, length_append, length_cons] at hn
  refine wp_post (parsebacks_complete hamps h1 (by rw [startsWith_amp, hsemi]; rfl) (by omega)) ?_
  rintro c'' s2 ⟨rfl, h2⟩
  refine wp_peek (by decide) h2 fun s3 h3 => ?_
  rw [startsWith_semi, hsemi]
  simp only [beq_self_eq_true, if_true, wp_bind]
  refine wp_gettoken_cons h3 fun s4 h4 => ?_
  refine wp_post (ih' h4 hpost (by simp only [fuelFor]; omega)) ?_
  rintro d' s' ⟨rfl, h'⟩
  exact ⟨rfl, h'⟩

theorem Accepts.exec (ih : Accepts line .exec ts c) : Accepts line .pipe ts c := by
  intro s n post h hpost hn
  obtain ⟨n, rfl⟩ := exists_fuel hn
  simp only [fuelFor] at hn
  simp only [parse, parsepipe, wp_bind]
  refine wp_post (ih h (hpost.mono (by decide)) (by simp only [fuelFor]; omega)) ?_
  rintro c' s1 ⟨rfl, h1⟩
  refine wp_peek (by decide) h1 fun s2 h2 => ?_
  rw [startsWith_eq_false hpost (by decide)]
  exact ⟨rfl, h2⟩

theorem Accepts.pipe {bar : Lexeme} (ih : Accepts line .exec ts c) (hbar : bar.tok = .bar)
    (ih' : Accepts line .pipe ts' d) : Accepts line .pipe (ts ++ bar :: ts') (.pipe c d) := by
  intro s n post h hpost hn
  obtain ⟨n, rfl⟩ := exists_fuel hn
  simp only [fuelFor] at hn
  rw [append_assoc, cons_append] at h hn
  have hfollow : MayFollow .exec (bar :: (ts' ++ post)) := .cons bar _ ⟨124, by decide, by rw [hbar]; rfl⟩
  simp only [parse, parsepipe, wp_bind]
  refine wp_post (ih h hfollow (by simp only [fuelFor]; omega)) ?_
  rintro c' s1 ⟨rfl, h1⟩
  refine wp_peek (by decide) h1 fun s2 h2 => ?_
  rw [startsWith_bar, hbar]
  simp only [beq_self_eq_true, if_true, wp_bind]
  refine wp_gettoken_cons h2 fun s3 h3 => ?_
  rw [length_append, length_cons] at hn
  refine wp_post (ih' h3 hpost (by simp only [fuelFor]; omega)) ?_
  rintro d' s' ⟨rfl, h'⟩
  exact ⟨rfl, h'⟩

/-- Commands in parentheses, with redirections after them. -/
theorem Accepts.block (hl : l.tok = .lparen) (ih : Accepts line .line ts c) (hr : r.tok = .rparen)
    (hrs : Redirs ts' rs) : Accepts line .exec (l :: ts ++ r :: ts') (wrap c rs) := by
  intro s n post h hpost hn
  obtain ⟨n, rfl⟩ := exists_fuel hn
  simp only [fuelFor] at hn
  obtain ⟨n, rfl⟩ := Nat.exists_eq_succ_of_ne_zero (show n ≠ 0 by simp at hn; omega)
  rw [append_assoc, cons_append, cons_append] at h hn
  rw [length_cons, length_append, length_cons, length_append] at hn
  simp only [parse, parseexec, wp_bind]
  refine wp_peek (by decide) h fun s1 h1 => ?_
  rw [startsWith_lparen, hl]
  simp only [beq_self_eq_true, if_true, parseblock, wp_bind]
  refine wp_peek (by decide) h1 fun s2 h2 => ?_
  rw [startsWith_lparen, hl]
  simp only [beq_self_eq_true, if_true, wp_bind]
  refine wp_gettoken_cons h2 fun s3 h3 => ?_
  have hfollow : MayFollow .line (r :: (ts' ++ post)) := .cons r _ ⟨41, by decide, by rw [hr]; rfl⟩
  refine wp_post (ih h3 hfollow ?_) ?_
  · simp only [fuelFor, length_append, length_cons]
    omega
  rintro c' s4 ⟨rfl, h4⟩
  refine wp_peek (by decide) h4 fun s5 h5 => ?_
  rw [startsWith_rparen, hr]
  simp only [beq_self_eq_true, if_true, wp_bind]
  refine wp_gettoken_cons h5 fun s6 h6 => ?_
  exact parseredirs_complete hrs h6 (startsWith_eq_false hpost (by decide)) (by omega)

end Accepts

/-- A step that does not leave the line. -/
def Within (line : List UInt8) (s s' : Nat) : Prop := s ≤ line.length → s' ≤ line.length

instance : Std.Refl (Within line) := ⟨fun _ h => h⟩

instance : IsTrans Nat (Within line) := ⟨fun _ _ _ h h' hs => h' (h hs)⟩

/-- The counted strings of a tree. -/
def Cmd.spans : Cmd → List Span
  | .exec argv => argv
  | .redir cmd file _ _ => file :: cmd.spans
  | .pipe left right => left.spans ++ right.spans
  | .list left right => left.spans ++ right.spans
  | .back cmd => cmd.spans

/-- A tree refers to words of the line only. -/
def WordsOf (ts : List Lexeme) (ws : List Span) : Prop := ∀ w ∈ ws, ∃ l ∈ ts, l.tok = .word ∧ l.span = w

theorem WordsOf.mono {ws : List Span} (h : WordsOf pre ws) (hsub : pre ⊆ ts) : WordsOf ts ws := by
  intro w hw
  obtain ⟨l, hl, hrest⟩ := h w hw
  exact ⟨l, hsub hl, hrest⟩

theorem WordsOf.append {ws ws' : List Span} (h : WordsOf ts ws) (h' : WordsOf ts ws') : WordsOf ts (ws ++ ws') := by
  intro w hw
  rcases mem_append.mp hw with hw | hw
  · exact h w hw
  · exact h' w hw

theorem Redirs.wordsOf {rs : List (Tok × Span)} (h : Redirs ts rs) : WordsOf ts (rs.map Prod.snd) := by
  induction h with
  | nil => nofun
  | @cons l w ts rs hl hw _ ih =>
    refine forall_mem_cons.mpr ⟨⟨w, by simp, hw, rfl⟩, ?_⟩
    exact ih.mono fun x hx => by simp [hx]

theorem Args.wordsOf {ws : List Span} {rs : List (Tok × Span)} (h : Args ts ws rs) :
    WordsOf ts ws ∧ WordsOf ts (rs.map Prod.snd) := by
  induction h with
  | nil => exact ⟨nofun, nofun⟩
  | @cons w ts ts' rs rs' ws hw hr _ ih =>
    constructor
    · refine forall_mem_cons.mpr ⟨⟨w, by simp, hw, rfl⟩, ?_⟩
      exact ih.1.mono fun x hx => by simp [hx]
    · rw [map_append]
      exact (hr.wordsOf.mono fun x hx => by simp [hx]).append (ih.2.mono fun x hx => by simp [hx])

theorem wordsOf_wrap {rs : List (Tok × Span)} (hc : WordsOf ts c.spans) (hrs : WordsOf ts (rs.map Prod.snd)) :
    WordsOf ts (wrap c rs).spans := by
  induction rs generalizing c with
  | nil => exact hc
  | cons r rs ih =>
    obtain ⟨hr, hrs⟩ := forall_mem_cons.mp hrs
    refine @ih (redirect r.1 c r.2) ?_ hrs
    cases r.1 <;> first | exact hc | exact forall_mem_cons.mpr ⟨hr, hc⟩

theorem spans_iterate_back (c : Cmd) (k : Nat) : (Cmd.back^[k] c).spans = c.spans := by
  induction k generalizing c with
  | zero => rfl
  | succ k ih => exact ih (.back c)

/-- The words of a tree are word tokens of the line. -/
theorem Derives.wordsOf {nt : Nonterminal} (h : Derives nt ts c) : WordsOf ts c.spans := by
  induction h with
  | line _ _ ih =>
    rw [spans_iterate_back]
    exact ih.mono fun x hx => by simp [hx]
  | seq _ _ _ _ ih ih' =>
    rw [Cmd.spans, spans_iterate_back]
    exact (ih.mono fun x hx => by simp [hx]).append (ih'.mono fun x hx => by simp [hx])
  | exec _ ih => exact ih
  | pipe _ _ _ ih ih' =>
    exact (ih.mono fun x hx => by simp [hx]).append (ih'.mono fun x hx => by simp [hx])
  | block _ _ _ hrs ih =>
    exact wordsOf_wrap (ih.mono fun x hx => by simp [hx]) (hrs.wordsOf.mono fun x hx => by simp [hx])
  | command hrs hargs _ =>
    refine wordsOf_wrap (hargs.wordsOf.1.mono fun x hx => by simp [hx]) ?_
    rw [map_append]
    exact (hrs.wordsOf.mono fun x hx => by simp [hx]).append (hargs.wordsOf.2.mono fun x hx => by simp [hx])

/-- The bytes of a word. -/
def text (line : List UInt8) (w : Span) : List UInt8 := (line.drop w.q).take (w.eq - w.q)

end

end Xv6Paging.Sh
