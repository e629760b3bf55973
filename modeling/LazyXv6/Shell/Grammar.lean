import LazyXv6.Shell.Model
import LazyXv6.Lib.Parsing

/-!
# The grammar of the shell

`lex` splits a line into tokens, where words are maximal runs of bytes that are neither white space
nor symbols. `Line`, `Pipe` and `Exec` are the grammar, with the tree of each derivation.
-/

namespace LazyXv6.Shell

open Lib

variable {es : ℕ} {s s' : List UInt8} {t : Token} {c : UInt8} {toks : List UInt8}

theorem length_dropWhile_le (p : UInt8 → Bool) (s : List UInt8) :
    (s.dropWhile p).length ≤ s.length :=
  (List.dropWhile_suffix p).length_le

/-- The tokens of a line, or of its rest. -/
def lex (es : ℕ) : List UInt8 → List Token
  | [] => []
  | 62 :: 62 :: s => .append :: lex es s
  | 62 :: s => .gt :: lex es s
  | 124 :: s => .bar :: lex es s
  | 40 :: s => .lpar :: lex es s
  | 41 :: s => .rpar :: lex es s
  | 59 :: s => .semi :: lex es s
  | 38 :: s => .amp :: lex es s
  | 60 :: s => .lt :: lex es s
  | c :: s =>
    if c ∈ whitespace then lex es s
    else
      let r := s.dropWhile inWord
      .word ⟨es - (c :: s).length, es - r.length⟩ :: lex es r
termination_by s => s.length
decreasing_by
  all_goals
    have := length_dropWhile_le inWord s
    simp only [List.length_cons]
    omega

/-- `redir*` -/
inductive Redirs : List Token → List Redir → Prop where
  | nil : Redirs [] []
  | cons {op : Token} {w : Word} {r : Redir} {ts : List Token} {rs : List Redir}
      (hr : redirOf w (some op) = [r]) (h : Redirs ts rs) : Redirs (op :: .word w :: ts) (r :: rs)

/-- `(word redir*)*` -/
inductive Args : List Token → List Word → List Redir → Prop where
  | nil : Args [] [] []
  | cons {w : Word} {ts us : List Token} {rs rs' : List Redir} {ws : List Word} (h : Redirs ts rs)
      (h' : Args us ws rs') : Args (.word w :: (ts ++ us)) (w :: ws) (rs ++ rs')

def backs : ℕ → Cmd → Cmd
  | 0, cmd => cmd
  | k + 1, cmd => backs k (.back cmd)

mutual

/-- `pipe "&"* [";" line]` -/
inductive Line : List Token → Cmd → Prop where
  | last {ts : List Token} {cmd : Cmd} (h : Pipe ts cmd) (k : ℕ) :
      Line (ts ++ List.replicate k .amp) (backs k cmd)
  | seq {ts us : List Token} {left right : Cmd} (h : Pipe ts left) (k : ℕ) (h' : Line us right) :
      Line (ts ++ (List.replicate k .amp ++ .semi :: us)) (.list (backs k left) right)

/-- `exec ["|" pipe]` -/
inductive Pipe : List Token → Cmd → Prop where
  | last {ts : List Token} {cmd : Cmd} (h : Exec ts cmd) : Pipe ts cmd
  | pipe {ts us : List Token} {left right : Cmd} (h : Exec ts left) (h' : Pipe us right) :
      Pipe (ts ++ .bar :: us) (.pipe left right)

/-- `"(" line ")" redir*` or `redir* (word redir*)*` -/
inductive Exec : List Token → Cmd → Prop where
  | block {ts us : List Token} {cmd : Cmd} {rs : List Redir} (h : Line ts cmd) (h' : Redirs us rs) :
      Exec (.lpar :: (ts ++ .rpar :: us)) (wrap rs cmd)
  | args {ts us : List Token} {argv : List Word} {rs rs' : List Redir} (h : Redirs ts rs)
      (h' : Args us argv rs') (hargs : argv.length < maxArgs) :
      Exec (ts ++ us) (wrap (rs ++ rs') (.exec argv))

end

/-! ## What the scanner sees -/

theorem any_head?_dropWhile (p : UInt8 → Bool) (s : List UInt8) :
    (s.dropWhile p).head?.any p = false := by
  have := List.head?_dropWhile_not p s
  cases h : (s.dropWhile p).head? <;> simp_all

theorem dropWhile_isSpace (s : List UInt8) :
    (s.dropWhile isSpace).dropWhile isSpace = s.dropWhile isSpace := by
  have := any_head?_dropWhile isSpace s
  cases h : s.dropWhile isSpace with
  | nil => rfl
  | cons c r => rw [List.dropWhile_cons_of_neg (by simpa [h] using this)]

/-- The `switch` of `gettoken` finds the first token of the lexer. -/
theorem lex_eq (es : ℕ) (s : List UInt8) : lex es s =
    (token es (s.dropWhile isSpace)).1.elim
    [] (· :: lex es (token es (s.dropWhile isSpace)).2) := by
  fun_induction lex es s with
  | case3 s h =>
    rw [List.dropWhile_cons_of_neg (by decide), token]
    · rfl
    · exact h
  | case10 c s _ _ _ _ _ _ _ _ hc ih =>
    rw [ih, List.dropWhile_cons_of_pos (by simpa [isSpace] using hc)]
  | case11 c s _ _ _ _ _ _ _ _ hc =>
    have hs : symbol c = none := by
      unfold symbol
      split <;> trivial
    rw [List.dropWhile_cons_of_neg (by simpa [isSpace] using hc), token, hs]
    · rfl
    all_goals assumption
  | _ => rfl

theorem lex_dropWhile (es : ℕ) (s : List UInt8) : lex es (s.dropWhile isSpace) = lex es s := by
  rw [lex_eq, dropWhile_isSpace, ← lex_eq]

theorem length_token_lt (h : (token es s).1 = some t) : (token es s).2.length < s.length := by
  fun_cases token es s
  · simp [token] at h
  · simp only [List.length_cons]
    omega
  · simp
  · simp
  · exact Nat.lt_succ_of_le (length_dropWhile_le inWord _)

theorem token_eq_nil (h : (token es s).1 = none) : s = [] := by
  fun_cases token es s <;> simp_all [token]

/-- `gettoken` gives the first token, if there is one. -/
theorem gettoken_eq (es : ℕ) (s : List UInt8) :
    gettoken es s = (none, []) ∧ lex es s = [] ∨ ∃ t s₁, gettoken es s = (some t, s₁) ∧
      lex es s = t :: lex es s₁ ∧ s₁.length < s.length := by
  have hlen := length_dropWhile_le isSpace s
  unfold gettoken
  rw [lex_eq]
  cases h : (token es (s.dropWhile isSpace)).1 with
  | none =>
    rw [token_eq_nil h]
    exact .inl ⟨rfl, rfl⟩
  | some t =>
    refine .inr ⟨t, _, Prod.ext h rfl, by rw [lex_dropWhile]; rfl, ?_⟩
    exact Nat.lt_of_le_of_lt (length_dropWhile_le ..) (Nat.lt_of_lt_of_le (length_token_lt h) hlen)

/-- The first byte of a token that is no word. -/
def Token.byte : Token → Option UInt8
  | .bar => some 124
  | .lpar => some 40
  | .rpar => some 41
  | .semi => some 59
  | .amp => some 38
  | .lt => some 60
  | .gt | .append => some 62
  | .word _ => none

theorem symbol_byte {tok : Token} (h : symbol c = some tok) : tok.byte = some c := by
  unfold symbol at h
  split at h <;> cases h <;> rfl

theorem not_mem_symbols (hgt : c ≠ 62) (hs : symbol c = none) : c ∉ symbols := by
  intro hmem
  simp only [symbols, List.mem_cons, List.not_mem_nil, or_false] at hmem
  rcases hmem with rfl | rfl | rfl | rfl | rfl | rfl | rfl <;> first | exact hgt rfl | cases hs

theorem head?_lex (es : ℕ) (s : List UInt8) :
    (lex es s).head? = (token es (s.dropWhile isSpace)).1 := by
  rw [lex_eq]
  cases (token es (s.dropWhile isSpace)).1 <;> rfl

/-- `peek` looks at the first token. -/
theorem peek_eq (es : ℕ) (s : List UInt8) (htoks : ∀ c ∈ toks, c ∈ symbols) :
    (peek s toks).1 = ((lex es s).head?.bind Token.byte).any toks.contains := by
  rw [head?_lex]
  unfold peek
  generalize s.dropWhile isSpace = r
  fun_cases token es r
  · rfl
  · rfl
  · rfl
  · next h => simp [symbol_byte h]
  · next c r _ h₂ h₃ _ =>
    have : c ∉ toks := fun hc => not_mem_symbols h₂ h₃ (htoks c hc)
    simpa [Token.byte] using this

end LazyXv6.Shell
