import LazyXv6.Shell.Grammar

/-!
# The parser accepts its grammar

Each function of the parser reads what its nonterminal derives, given what may follow it.
-/

namespace LazyXv6.Shell

open Lib

variable {es turns : ℕ} {s s' : List UInt8} {ts us : List Token} {t : Token}

/-- The outcome of a function is right for `G`, before `F`. -/
abbrev Parses {β : Type} (es : ℕ) (G : List Token → β → Prop) (F : List Token → Prop)
    (s : List UInt8) (r : Except Stop (β × List UInt8)) : Prop :=
  Reads (lex es) List.length (· ≠ .loop) G F s r

/-- The end of the line, or a token with `p`. -/
def Follow (p : Token → Bool) (us : List Token) : Prop := us.head?.all p = true

def isOp : Token → Bool
  | .lt | .gt | .append => true
  | _ => false

def endsExec : Token → Bool
  | .bar | .rpar | .amp | .semi => true
  | _ => false

def endsPipe : Token → Bool
  | .rpar | .amp | .semi => true
  | _ => false

def endsLine : Token → Bool
  | .rpar => true
  | _ => false

theorem not_follow {p : Token → Bool} (h : us = t :: ts) (ht : p t = false) : ¬Follow p us := by
  simp [h, Follow, ht]

/-- What `peek` says, in terms of a set of tokens, and what `gettoken` finds then. -/
theorem peek_cases {p : Token → Bool} (es : ℕ) (s toks : List UInt8)
    (htoks : ∀ c ∈ toks, c ∈ symbols) (hp : ∀ t : Token, t.byte.any toks.contains = p t) :
    ∃ s', lex es s' = lex es s ∧ s'.length ≤ s.length ∧
      ((∃ t s₁, peek s toks = (true, s') ∧ gettoken es s' = (some t, s₁) ∧ p t = true ∧
          lex es s = t :: lex es s₁ ∧ s₁.length < s.length) ∨
        peek s toks = (false, s') ∧ ∀ t us, lex es s = t :: us → p t = false) := by
  have hlen := length_dropWhile_le isSpace s
  refine ⟨s.dropWhile isSpace, lex_dropWhile es s, hlen, ?_⟩
  have hpair : peek s toks = ((peek s toks).1, s.dropWhile isSpace) := rfl
  rw [hpair, peek_eq es s htoks, ← lex_dropWhile es s]
  rcases gettoken_eq es (s.dropWhile isSpace) with ⟨-, hl⟩ | ⟨t, s₁, hget, hl, hlt⟩
  · rw [hl]
    exact .inr ⟨rfl, nofun⟩
  · rw [hl, List.head?_cons, Option.bind_some, hp]
    cases hb : p t with
    | true => exact .inl ⟨t, s₁, rfl, hget, hb, rfl, Nat.lt_of_lt_of_le hlt hlen⟩
    | false => exact .inr ⟨rfl, fun t' us h => by cases h; exact hb⟩

/-! ## Redirections -/

theorem isOp_of_redirOf {w : Word} {r : Redir} (h : redirOf w (some t) = [r]) : isOp t = true := by
  cases t <;> simp_all [redirOf, isOp]

theorem redirOf_of_isOp (w : Word) (h : isOp t = true) : ∃ r, redirOf w (some t) = [r] := by
  cases t <;> simp_all [redirOf, isOp]

theorem parseredirs_reads (es : ℕ) (rs : List Redir) (hturns : s.length < turns) :
    Parses es (fun ts out => ∃ rs', Redirs ts rs' ∧ out = rs ++ rs') (Follow (!isOp ·)) s
      (parseredirs es turns rs s) := by
  induction turns generalizing s rs with
  | zero => omega
  | succ turns ih =>
    obtain ⟨s₀, hlex, hlen, ⟨t, s₁, hpeek, hget, ht, hs, hlt⟩ | ⟨hpeek, hnone⟩⟩ :=
      peek_cases (p := isOp) es s [60, 62] (by simp [symbols]) (by intro t; cases t <;> rfl)
    · -- a derivation starts with the operator, and has a word after it
      have hcons : ∀ ts rs' us, Redirs ts rs' → Follow (!isOp ·) us → lex es s = ts ++ us →
          ∃ w r ts' rs'', redirOf w (some t) = [r] ∧ Redirs ts' rs'' ∧ rs' = r :: rs'' ∧
            ts = t :: .word w :: ts' ∧ lex es s₁ = .word w :: (ts' ++ us) := by
        intro ts rs' us hd hus heq
        cases hd with
        | nil => exact absurd hus (not_follow (heq.symm.trans hs) (by rw [ht]; rfl))
        | cons hr h =>
          rw [hs] at heq
          obtain ⟨hop, heq'⟩ := List.cons.inj heq
          exact ⟨_, _, _, _, hop ▸ hr, h, rfl, by rw [hop], heq'⟩
      rw [parseredirs, hpeek]
      simp only [hget]
      rcases gettoken_eq es s₁ with ⟨hget₂, hl⟩ | ⟨t₂, s₂, hget₂, hl, hlt₂⟩
      · rw [hget₂]
        refine .error (by simp) ?_
        rintro ts c us ⟨rs', hd, rfl⟩ hus heq
        obtain ⟨w, -, ts', -, -, -, -, -, hl'⟩ := hcons ts rs' us hd hus heq
        cases hl ▸ hl'
      · rw [hget₂]
        split
        · next w s₂ h =>
          cases h
          obtain ⟨r, hr⟩ := redirOf_of_isOp w ht
          refine .tokens (p := [t, .word w]) (by rw [hs, hl]; rfl) (by omega)
            (ih (rs ++ redirOf w (some t)) (by omega)) ?_ ?_
          · rintro ts c ⟨rs', hd, rfl⟩
            exact ⟨r :: rs', .cons hr hd, by simp [hr]⟩
          · rintro ts c us ⟨rs', hd, rfl⟩ hus heq
            obtain ⟨w', r', ts', rs'', hr', hd', rfl, rfl, hl'⟩ :=
              hcons ts rs' us hd hus (by rw [heq, hs, hl]; rfl)
            rw [hl] at hl'
            cases (List.cons.inj hl').1
            exact ⟨ts', rfl, rs'', hd', by simp [hr']⟩
        · next h =>
          refine .error (by simp) ?_
          rintro ts c us ⟨rs', hd, rfl⟩ hus heq
          obtain ⟨w, -, ts', -, -, -, -, -, hl'⟩ := hcons ts rs' us hd hus heq
          rw [hl] at hl'
          cases (List.cons.inj hl').1
          exact h w s₂ rfl
    · rw [parseredirs, hpeek]
      refine .pure ⟨[], .nil, by simp⟩ hlex hlen ?_
      rintro ts c us ⟨rs', hd, rfl⟩ - heq
      cases hd with
      | nil => simp
      | cons hr =>
        have := hnone _ _ heq
        rw [isOp_of_redirOf hr] at this
        cases this

/-! ## Arguments -/

theorem Follow.mono {p q : Token → Bool} (h : Follow p us) (hpq : ∀ t, p t = true → q t = true) :
    Follow q us := by
  unfold Follow at *
  cases us with
  | nil => rfl
  | cons t us => exact hpq t h

theorem not_isOp_of_endsExec (ht : endsExec t = true) : (!isOp t) = true := by
  cases t <;> simp_all [endsExec, isOp]

/-- Before what may follow a simple command, arguments start with a word. -/
theorem Args.follow {argv : List Word} {rs : List Redir} (h : Args ts argv rs)
    (hus : Follow endsExec us) : Follow (!isOp ·) (ts ++ us) := by
  cases h with
  | nil => exact hus.mono fun _ => not_isOp_of_endsExec
  | cons => rfl

/-- The arguments `argv` and redirections `rs` are those before `ts`. -/
def MoreArgs (argv : List Word) (rs : List Redir) (ts : List Token) (out : List Word × List Redir) :
    Prop :=
  ∃ ws rs', Args ts ws rs' ∧ argv.length + ws.length < maxArgs ∧ out = (argv ++ ws, rs ++ rs')

theorem argsLoop_reads (argv : List Word) (rs : List Redir) (hargv : argv.length < maxArgs)
    (hturns : s.length < turns) :
    Parses es (MoreArgs argv rs) (Follow endsExec) s (argsLoop es turns (argv, rs) s) := by
  induction turns generalizing s argv rs with
  | zero => omega
  | succ turns ih =>
    obtain ⟨s₀, hlex, hlen, ⟨t, s₁, hpeek, hget, ht, hs, hlt⟩ | ⟨hpeek, hnone⟩⟩ :=
      peek_cases (p := endsExec) es s [124, 41, 38, 59] (by simp [symbols])
        (by intro t; cases t <;> rfl)
    · rw [argsLoop, hpeek]
      refine .pure ⟨[], [], .nil, hargv, by simp⟩ hlex hlen ?_
      rintro ts c us ⟨ws, rs', hd, -, rfl⟩ - heq
      cases hd with
      | nil => simp
      | cons =>
        rw [hs] at heq
        cases (List.cons.inj heq).1
        cases ht
    · -- a derivation is empty at the end of the line, and has a word at its head otherwise
      have hcons : ∀ t ts' ts ws rs' us, lex es s = t :: ts' → Args ts ws rs' → Follow endsExec us →
          lex es s = ts ++ us → ∃ w ts₁ ts₂ rs₁ rs₂ ws', t = .word w ∧ Redirs ts₁ rs₁ ∧
            Args ts₂ ws' rs₂ ∧ ts = .word w :: (ts₁ ++ ts₂) ∧ ws = w :: ws' ∧ rs' = rs₁ ++ rs₂ := by
        intro t ts' ts ws rs' us hs hd hus heq
        cases hd with
        | nil => exact absurd hus (not_follow (heq.symm.trans hs) (hnone _ _ hs))
        | cons h h' =>
          rw [hs] at heq
          exact ⟨_, _, _, _, _, _, (List.cons.inj heq).1, h, h', rfl, rfl, rfl⟩
      rw [argsLoop, hpeek]
      dsimp only
      rcases gettoken_eq es s₀ with ⟨hget, hs⟩ | ⟨t, s₁, hget, hs, hlt⟩
      · rw [hget]
        rw [hlex] at hs
        refine .pure ⟨[], [], .nil, hargv, by simp⟩ (by rw [hs, lex]) (Nat.zero_le _) ?_
        rintro ts c us ⟨ws, rs', hd, -, rfl⟩ - heq
        rw [hs] at heq
        cases hd with
        | nil => simp
        | cons => cases heq
      · rw [hget]
        rw [hlex] at hs
        split
        · next h => cases h
        · next w s₁ h =>
          cases h
          split_ifs with hmax
          · refine .error (by simp) ?_
            rintro ts c us ⟨ws, rs', hd, hws, rfl⟩ hus heq
            obtain ⟨w', ts₁, ts₂, rs₁, rs₂, ws', -, -, -, -, rfl, -⟩ :=
              hcons _ _ ts ws rs' us hs hd hus heq
            rw [List.length_cons] at hws
            omega
          · refine .tokens (p := [.word w]) hs (by omega) ((parseredirs_reads es rs (by omega)).bind
              (fun rs₁ s₂ hlen₂ => ih (argv ++ [w]) rs₁ (by simp; omega) (by omega)) ?_ fun _ _ =>
              Iff.rfl) ?_ ?_
            · rintro rs₁ ts c us ⟨ws, rs', hd, -, -⟩ hus
              exact hd.follow hus
            · rintro _ c ⟨ts₁, _, ts₂, rfl, ⟨rs₁, hd₁, rfl⟩, ws, rs₂, hd₂, hws, rfl⟩
              have hd : Args (.word w :: (ts₁ ++ ts₂)) (w :: ws) (rs₁ ++ rs₂) := .cons hd₁ hd₂
              exact ⟨w :: ws, rs₁ ++ rs₂, hd, by simp at hws ⊢; omega, by simp⟩
            · rintro ts c us ⟨ws, rs', hd, hws, rfl⟩ hus heq
              obtain ⟨w', ts₁, ts₂, rs₁, rs₂, ws', ht, hd₁, hd₂, rfl, rfl, rfl⟩ :=
                hcons _ _ ts ws rs' us hs hd hus (by rw [heq, hs]; rfl)
              cases ht
              exact ⟨ts₁ ++ ts₂, rfl, ts₁, _, ts₂, rfl, ⟨rs₁, hd₁, rfl⟩, ws', rs₂, hd₂,
                by simp at hws ⊢; omega, by simp⟩
        · next hne =>
          refine .error (by simp) ?_
          rintro ts c us ⟨ws, rs', hd, hws, rfl⟩ hus heq
          obtain ⟨w, -, -, -, -, -, rfl, -⟩ := hcons _ _ ts ws rs' us hs hd hus heq
          exact hne w _ rfl

/-! ## Commands -/

theorem backLoop_reads (cmd : Cmd) (hturns : s.length < turns) :
    Parses es (fun ts c => ∃ k, ts = List.replicate k .amp ∧ c = backs k cmd) (Follow (· != .amp)) s
      (backLoop es turns cmd s) := by
  induction turns generalizing s cmd with
  | zero => omega
  | succ turns ih =>
    obtain ⟨s₀, hlex, hlen, ⟨t, s₁, hpeek, hget, ht, hs, hlt⟩ | ⟨hpeek, hnone⟩⟩ :=
      peek_cases (p := (· == .amp)) es s [38] (by simp [symbols]) (by intro t; cases t <;> rfl)
    · obtain rfl := eq_of_beq ht
      rw [backLoop, hpeek]
      simp only [hget]
      refine .tokens (p := [.amp]) hs (by omega) (ih (.back cmd) (by omega)) ?_ ?_
      · rintro _ c ⟨k, rfl, rfl⟩
        exact ⟨k + 1, rfl, rfl⟩
      · rintro _ c us ⟨k, rfl, rfl⟩ hus heq
        cases k with
        | zero => exact absurd hus (not_follow heq rfl)
        | succ k => exact ⟨_, rfl, k, rfl, rfl⟩
    · rw [backLoop, hpeek]
      refine .pure ⟨0, rfl, rfl⟩ hlex hlen ?_
      rintro _ c us ⟨k, rfl, rfl⟩ - heq
      cases k with
      | zero => exact ⟨rfl, rfl⟩
      | succ k => cases hnone _ _ heq

/-- A command `cmd`, then `tok` and another command or nothing. -/
def Optional (tok : Token) (G : List Token → Cmd → Prop) (join : Cmd → Cmd → Cmd) (cmd : Cmd)
    (ts : List Token) (c : Cmd) : Prop :=
  ts = [] ∧ c = cmd ∨ ∃ us right, ts = tok :: us ∧ G us right ∧ c = join cmd right

theorem optional_reads {b : UInt8} {G : List Token → Cmd → Prop} {p : Token → Bool}
    {parse : List UInt8 → Except Stop (Cmd × List UInt8)} (tok : Token) (join : Cmd → Cmd → Cmd)
    (cmd : Cmd) (hb : b ∈ symbols) (hbyte : ∀ t : Token, t.byte.any [b].contains = (t == tok))
    (hp : p tok = false) (ih : ∀ s₁, s₁.length < s.length → Parses es G (Follow p) s₁ (parse s₁)) :
    Parses es (Optional tok G join cmd) (Follow p) s (match peek s [b] with
      | (true, s) => do
        let (right, s) ← parse (gettoken es s).2
        .ok (join cmd right, s)
      | (false, s) => .ok (cmd, s)) := by
  obtain ⟨s₀, hlex, hlen, ⟨t, s₁, hpeek, hget, ht, hs, hlt⟩ | ⟨hpeek, hnone⟩⟩ :=
    peek_cases (p := (· == tok)) es s [b] (by simpa using hb) hbyte
  · obtain rfl := eq_of_beq ht
    rw [hpeek]
    simp only [hget]
    refine .tokens (p := [t]) hs (by omega) (ih s₁ hlt).map ?_ ?_
    · rintro ts c ⟨right, hd, rfl⟩
      exact .inr ⟨ts, right, rfl, hd, rfl⟩
    · rintro _ c us (⟨rfl, -⟩ | ⟨ts, right, rfl, hd, rfl⟩) hus heq
      · exact absurd hus (not_follow heq hp)
      · exact ⟨ts, rfl, right, hd, rfl⟩
  · rw [hpeek]
    refine .pure (.inl ⟨rfl, rfl⟩) hlex hlen ?_
    rintro _ c us (⟨rfl, rfl⟩ | ⟨ts, right, rfl, -, -⟩) - heq
    · exact ⟨rfl, rfl⟩
    · simpa using hnone _ _ heq

theorem parsepipe_step (hexec : Parses es Exec (Follow endsExec) s (parseexec es turns s))
    (ih : ∀ s₁ : List UInt8, s₁.length < s.length →
      Parses es Pipe (Follow endsPipe) s₁ (parsepipe es turns s₁)) :
    Parses es Pipe (Follow endsPipe) s (parsepipe es (turns + 1) s) := by
  rw [parsepipe]
  refine hexec.bind (fun cmd s₁ hlen =>
    optional_reads .bar .pipe cmd (by decide) (by intro t; cases t <;> rfl) rfl
    fun s₂ hlt => ih s₂ (by omega)) ?_ fun ts c => ⟨?_, ?_⟩
  · rintro cmd _ c us (⟨rfl, -⟩ | ⟨ts, right, rfl, -⟩) hus
    · exact hus.mono (by intro t; cases t <;> simp [endsPipe, endsExec])
    · rfl
  · intro hd
    cases hd with
    | last h => exact ⟨ts, c, [], by simp, h, .inl ⟨rfl, rfl⟩⟩
    | pipe h h' => exact ⟨_, _, _, rfl, h, .inr ⟨_, _, rfl, h', rfl⟩⟩
  · rintro ⟨ts₁, cmd, ts₂, rfl, h, ⟨rfl, rfl⟩ | ⟨us, right, rfl, h', rfl⟩⟩
    · simpa using Pipe.last h
    · exact .pipe h h'

theorem parseline_step (hpipe : Parses es Pipe (Follow endsPipe) s (parsepipe es turns s))
    (hturns : s.length < turns) (ih : ∀ s₁ : List UInt8, s₁.length < s.length →
      Parses es Line (Follow endsLine) s₁ (parseline es turns s₁)) :
    Parses es Line (Follow endsLine) s (parseline es (turns + 1) s) := by
  rw [parseline]
  refine hpipe.bind (fun cmd s₁ hlen => (backLoop_reads cmd (by omega)).bind (fun cmd s₂ hlen₂ =>
    optional_reads .semi .list cmd (by decide) (by intro t; cases t <;> rfl) rfl fun s₃ hlt =>
      ih s₃ (by omega)) ?_ fun _ _ => Iff.rfl) ?_ fun ts c => ⟨?_, ?_⟩
  · rintro cmd _ c us (⟨rfl, -⟩ | ⟨ts, right, rfl, -⟩) hus
    · exact hus.mono (by intro t; cases t <;> simp [endsLine])
    · rfl
  · rintro cmd _ c us ⟨_, _, ts₂, rfl, ⟨k, rfl, rfl⟩, hopt⟩ hus
    rw [List.append_assoc]
    cases k with
    | succ k => rfl
    | zero =>
      rcases hopt with ⟨rfl, -⟩ | ⟨ts, right, rfl, -⟩
      · exact Follow.mono hus (by intro t; cases t <;> simp [endsLine, endsPipe])
      · rfl
  · intro hd
    cases hd with
    | last h k => exact ⟨_, _, _, rfl, h, _, _, [], by simp, ⟨k, rfl, rfl⟩, .inl ⟨rfl, rfl⟩⟩
    | seq h k h' => exact ⟨_, _, _, rfl, h, _, _, _, rfl, ⟨k, rfl, rfl⟩, .inr ⟨_, _, rfl, h', rfl⟩⟩
  · rintro ⟨ts₁, cmd, _, rfl, h, _, _, ts₂, rfl, ⟨k, rfl, rfl⟩, ⟨rfl, rfl⟩ | ⟨us, right, rfl, h', rfl⟩⟩
    · simpa using Line.last h k
    · exact .seq h k h'

def Block (ts : List Token) (c : Cmd) : Prop :=
  ∃ ts' us cmd rs, ts = .lpar :: (ts' ++ .rpar :: us) ∧ Line ts' cmd ∧ Redirs us rs ∧
    c = wrap rs cmd

theorem parseblock_close (cmd : Cmd) (hturns : s.length ≤ turns) :
    Parses es (fun ts c => ∃ us rs, ts = .rpar :: us ∧ Redirs us rs ∧ c = wrap rs cmd)
      (Follow endsExec) s (match peek s [41] with
      | (false, _) => .error (.panic "syntax - missing )")
      | (true, s) => do
        let (rs, s) ← parseredirs es turns [] (gettoken es s).2
        .ok (wrap rs cmd, s)) := by
  obtain ⟨s₁, -, -, ⟨t, s₂, hpeek, hget, ht, hs, hlt⟩ | ⟨hpeek, hnone⟩⟩ :=
    peek_cases (p := (· == .rpar)) es s [41] (by simp [symbols]) (by intro t; cases t <;> rfl)
  · obtain rfl := eq_of_beq ht
    rw [hpeek]
    simp only [hget]
    have hredirs := (parseredirs_reads es [] (show s₂.length < turns by omega)).weaken
      fun us (hus : Follow endsExec us) => hus.mono fun _ => not_isOp_of_endsExec
    refine .tokens (p := [.rpar]) hs (by omega) hredirs.map ?_ ?_
    · rintro us c ⟨rs, ⟨_, hd, rfl⟩, rfl⟩
      exact ⟨us, rs, rfl, hd, rfl⟩
    · rintro _ c us' ⟨us, rs, rfl, hd, rfl⟩ - -
      exact ⟨us, rfl, rs, ⟨rs, hd, rfl⟩, rfl⟩
  · rw [hpeek]
    refine .error (by simp) ?_
    rintro _ c us' ⟨us, rs, rfl, -, -⟩ - heq
    cases hnone _ _ heq

theorem parseblock_step (hturns : s.length ≤ turns)
    (hline : ∀ s₁ : List UInt8, s₁.length < s.length →
      Parses es Line (Follow endsLine) s₁ (parseline es turns s₁)) :
    Parses es Block (Follow endsExec) s (parseblock es (turns + 1) s) := by
  rw [parseblock]
  obtain ⟨s₀, -, -, ⟨t, s₁, hpeek, hget, ht, hs, hlt⟩ | ⟨hpeek, hnone⟩⟩ :=
    peek_cases (p := (· == .lpar)) es s [40] (by simp [symbols]) (by intro t; cases t <;> rfl)
  · obtain rfl := eq_of_beq ht
    rw [hpeek]
    simp only [hget]
    refine .tokens (p := [.lpar]) hs (by omega) ((hline s₁ hlt).bind
      (fun cmd s₂ hlen => parseblock_close cmd (by omega)) ?_ fun _ _ => Iff.rfl) ?_ ?_
    · rintro cmd _ c us' ⟨us, rs, rfl, -, -⟩ -
      rfl
    · rintro _ c ⟨ts', cmd, _, rfl, hd, us, rs, rfl, hd', rfl⟩
      exact ⟨ts', us, cmd, rs, rfl, hd, hd', rfl⟩
    · rintro _ c us' ⟨ts', us, cmd, rs, rfl, hd, hd', rfl⟩ - -
      exact ⟨_, rfl, ts', cmd, _, rfl, hd, us, rs, rfl, hd', rfl⟩
  · rw [hpeek]
    refine .error (by simp) ?_
    rintro _ c us' ⟨ts', us, cmd, rs, rfl, -⟩ - heq
    cases hnone _ _ heq

theorem parseexec_step (hturns : s.length < turns)
    (hblock : ∀ s₁ : List UInt8, s₁.length ≤ s.length →
      Parses es Block (Follow endsExec) s₁ (parseblock es turns s₁)) :
    Parses es Exec (Follow endsExec) s (parseexec es (turns + 1) s) := by
  rw [parseexec]
  obtain ⟨s₀, hlex, hlen, ⟨t, s₁, hpeek, -, ht, hs, -⟩ | ⟨hpeek, hnone⟩⟩ :=
    peek_cases (p := (· == .lpar)) es s [40] (by simp [symbols]) (by intro t; cases t <;> rfl)
  · obtain rfl := eq_of_beq ht
    rw [hpeek]
    refine .tokens (p := []) hlex.symm hlen (hblock s₀ hlen) ?_ ?_
    · rintro _ c ⟨ts, us, cmd, rs, rfl, h, h', rfl⟩
      exact .block h h'
    · intro ts c us hd hus heq
      rw [List.nil_append, hlex, hs] at heq
      cases hd with
      | block h h' => exact ⟨_, rfl, _, _, _, _, rfl, h, h', rfl⟩
      | args h h' =>
        cases h with
        | cons hr =>
          cases (List.cons.inj heq).1
          cases isOp_of_redirOf hr
        | nil =>
          cases h' with
          | nil => exact absurd hus (not_follow heq rfl)
          | cons => cases (List.cons.inj heq).1
  · rw [hpeek]
    refine .tokens (p := []) hlex.symm hlen
      ((parseredirs_reads es [] (by omega)).bind (fun rs s₁ hlen₁ =>
      (argsLoop_reads [] rs (by decide) (show s₁.length < turns by omega)).map
        (f := fun out => wrap out.2 (.exec out.1))) ?_ fun _ _ => Iff.rfl) ?_ ?_
    · rintro rs ts c us ⟨_, ⟨ws, rs', hd, -⟩, -⟩ hus
      exact hd.follow hus
    · rintro _ c ⟨ts, rs, us, rfl, ⟨_, hd, rfl⟩, _, ⟨ws, rs', hd', hws, rfl⟩, rfl⟩
      have h : Exec (ts ++ us) (wrap (rs ++ rs') (.exec ws)) := .args hd hd' (by simpa using hws)
      exact h
    · intro ts c us hd hus heq
      rw [List.nil_append, hlex] at heq
      cases hd with
      | block => cases hnone _ _ heq.symm
      | args h h' hargs =>
        exact ⟨_, rfl, _, _, _, rfl, ⟨_, h, rfl⟩, _, ⟨_, _, h', by simpa using hargs, rfl⟩, rfl⟩

/-- The four functions are right, with turns enough for what they call: but for `parseblock`'s
`parseline` and after a token, each call is one to a function further down. -/
theorem parse_reads (es turns : ℕ) (s : List UInt8) :
    (4 * s.length + 4 ≤ turns → Parses es Line (Follow endsLine) s (parseline es turns s)) ∧
    (4 * s.length + 3 ≤ turns → Parses es Pipe (Follow endsPipe) s (parsepipe es turns s)) ∧
    (4 * s.length + 1 ≤ turns → Parses es Block (Follow endsExec) s (parseblock es turns s)) ∧
    (4 * s.length + 2 ≤ turns → Parses es Exec (Follow endsExec) s (parseexec es turns s)) := by
  induction turns generalizing s with
  | zero => omega
  | succ turns ih =>
    refine ⟨fun hturns => ?_, fun hturns => ?_, fun hturns => ?_, fun hturns => ?_⟩
    · exact parseline_step ((ih s).2.1 (by omega)) (by omega) fun s₁ hlt => (ih s₁).1 (by omega)
    · exact parsepipe_step ((ih s).2.2.2 (by omega)) fun s₁ hlt => (ih s₁).2.1 (by omega)
    · exact parseblock_step (by omega) fun s₁ hlt => (ih s₁).1 (by omega)
    · exact parseexec_step (by omega) fun s₁ hlen => (ih s₁).2.2.1 (by omega)

end LazyXv6.Shell
