import LazyXv6.Shell.Correct

/-!
# `parsecmd`

The words of a command are words of the line, none of them is cut by the end of another, and so each
is a string of its own once `nulterminate` has written its NULs.
-/

namespace LazyXv6.Shell

open Lib

variable {es : ℕ} {line s pre : List UInt8} {ts us : List Token} {w : Word} {cmd : Cmd}
    {rs : List Redir}

/-- The words of a command, in the order in which `nulterminate` meets them. -/
def Cmd.words : Cmd → List Word
  | .exec argv => argv
  | .redir cmd r => cmd.words ++ [r.file]
  | .pipe left right | .list left right => left.words ++ right.words
  | .back cmd => cmd.words

/-- A maximal run of bytes that are neither white space nor symbols. -/
structure IsWord (s : List UInt8) (w : Word) : Prop where
  nonempty : w.q < w.eq
  bound : w.eq ≤ s.length
  inside : ∀ i, w.q ≤ i → i < w.eq → s[i]?.any inWord = true
  before : ∀ i, i + 1 = w.q → s[i]?.any inWord = false
  after : s[w.eq]?.any inWord = false

/-- The string that starts at `q`. -/
def cstring (buf : List UInt8) (q : ℕ) : List UInt8 := (buf.drop q).takeWhile (· ≠ 0)

/-! ## The words of a derivation are tokens -/

theorem words_wrap (rs : List Redir) (cmd : Cmd) :
    (wrap rs cmd).words = cmd.words ++ rs.map Redir.file := by
  induction rs generalizing cmd with
  | nil => simp [wrap]
  | cons r rs ih =>
    rw [show wrap (r :: rs) cmd = wrap rs (.redir cmd r) from rfl, ih]
    simp [Cmd.words]

theorem words_backs (k : ℕ) (cmd : Cmd) : (backs k cmd).words = cmd.words := by
  induction k generalizing cmd with
  | zero => rfl
  | succ k ih => exact ih (.back cmd)

theorem Redirs.mem (h : Redirs ts rs) (hw : w ∈ rs.map Redir.file) : Token.word w ∈ ts := by
  induction h with
  | nil => cases hw
  | @cons op w' r ts rs hr h ih =>
    rcases List.mem_cons.mp hw with rfl | hw
    · have : r.file = w' := by cases op <;> simp_all [redirOf] <;> simp [← hr]
      simp [this]
    · simp [ih hw]

theorem Args.mem {ws : List Word} (h : Args ts ws rs) (hw : w ∈ ws ++ rs.map Redir.file) :
    Token.word w ∈ ts := by
  induction h with
  | nil => cases hw
  | @cons w' ts us rs rs' ws h h' ih =>
    simp only [List.cons_append, List.map_append, List.mem_cons, List.mem_append] at hw ih ⊢
    rcases hw with rfl | hw | hw | hw
    · exact .inl rfl
    · exact .inr (.inr (ih (.inl hw)))
    · exact .inr (.inl (h.mem hw))
    · exact .inr (.inr (ih (.inr hw)))

mutual

theorem Line.mem {ts : List Token} {cmd : Cmd} (h : Line ts cmd) (hw : w ∈ cmd.words) :
    Token.word w ∈ ts := by
  match h with
  | .last h k =>
    rw [words_backs] at hw
    exact List.mem_append_left _ (h.mem hw)
  | .seq h k h' =>
    rw [Cmd.words, words_backs] at hw
    rcases List.mem_append.mp hw with hw | hw
    · exact List.mem_append_left _ (h.mem hw)
    · exact List.mem_append_right _ (List.mem_append_right _ (List.mem_cons_of_mem _ (h'.mem hw)))

theorem Pipe.mem {ts : List Token} {cmd : Cmd} (h : Pipe ts cmd) (hw : w ∈ cmd.words) :
    Token.word w ∈ ts := by
  match h with
  | .last h => exact h.mem hw
  | .pipe h h' =>
    rcases List.mem_append.mp hw with hw | hw
    · exact List.mem_append_left _ (h.mem hw)
    · exact List.mem_append_right _ (List.mem_cons_of_mem _ (h'.mem hw))

theorem Exec.mem {ts : List Token} {cmd : Cmd} (h : Exec ts cmd) (hw : w ∈ cmd.words) :
    Token.word w ∈ ts := by
  match h with
  | .block h h' =>
    rw [words_wrap] at hw
    rcases List.mem_append.mp hw with hw | hw
    · exact List.mem_cons_of_mem _ (List.mem_append_left _ (h.mem hw))
    · exact List.mem_cons_of_mem _ (List.mem_append_right _ (List.mem_cons_of_mem _ (h'.mem hw)))
  | .args h h' _ =>
    rw [words_wrap, Cmd.words, List.map_append] at hw
    rcases List.mem_append.mp hw with hw | hw
    · exact List.mem_append_right _ (h'.mem (List.mem_append_left _ hw))
    · rcases List.mem_append.mp hw with hw | hw
      · exact List.mem_append_left _ (h.mem hw)
      · exact List.mem_append_right _ (h'.mem (List.mem_append_right _ hw))

end

/-! ## The word tokens of a line -/

/-- No word goes on from `pre` into `s`. -/
def Boundary (pre s : List UInt8) : Prop :=
  pre.getLast?.any inWord = false ∨ s.head?.any inWord = false

theorem isWord_append {text rest : List UInt8} (hne : text ≠ []) (hin : ∀ c ∈ text, inWord c = true)
    (hpre : pre.getLast?.any inWord = false) (hrest : rest.head?.any inWord = false) :
    IsWord (pre ++ (text ++ rest)) ⟨pre.length, pre.length + text.length⟩ where
  nonempty := Nat.lt_add_of_pos_right (List.length_pos_iff.mpr hne)
  bound := by simp only [List.length_append]; omega
  inside i hq heq := by
    have hlt : i - pre.length < text.length := by dsimp only at hq heq; omega
    rw [List.getElem?_append_right hq, List.getElem?_append_left hlt, Option.any_eq_true]
    exact ⟨_, List.getElem?_eq_getElem hlt, hin _ (List.getElem_mem _)⟩
  before i hi := by
    rw [List.getElem?_append_left (by dsimp only at hi; omega)]
    rwa [List.getLast?_eq_getElem?, show pre.length - 1 = i by dsimp only at hi; omega] at hpre
  after := by
    rw [List.getElem?_append_right (Nat.le_add_right ..), Nat.add_sub_cancel_left,
      List.getElem?_append_right (Nat.le_refl _), Nat.sub_self, ← List.head?_eq_getElem?]
    exact hrest

theorem not_inWord_of_mem {c : UInt8} (h : c ∈ symbols) : inWord c = false := by
  simp [inWord, h]

theorem boundary_of_mem {c : UInt8} (h : c ∈ symbols) : Boundary (pre ++ [c]) s :=
  .inl (by simp [not_inWord_of_mem h])

theorem isWord_of_lex (pre : List UInt8) (hb : Boundary pre s) (hes : es = (pre ++ s).length)
    (h : .word w ∈ lex es s) : IsWord (pre ++ s) w := by
  fun_induction lex es s generalizing pre with
  | case1 => cases h
  | case2 s ih =>
    rw [List.append_cons, List.append_cons] at hes ⊢
    exact ih _ (boundary_of_mem (by decide)) hes (by simpa using h)
  | case10 c s _ _ _ _ _ _ _ _ hc ih =>
    rw [List.append_cons] at hes ⊢
    exact ih _ (.inl (by simp [inWord, hc])) hes h
  | case11 c s _ _ _ _ _ _ _ _ hc r ih =>
    have hc : inWord c = true := by simp_all [inWord, symbols]
    have hin : ∀ a ∈ c :: s.takeWhile inWord, inWord a = true := by
      intro a ha
      rcases List.mem_cons.mp ha with rfl | ha
      · exact hc
      · exact List.all_eq_true.mp List.all_takeWhile a ha
    have hsplit : c :: s = c :: s.takeWhile inWord ++ r := by simp [r]
    have hrest := any_head?_dropWhile inWord s
    have hword := isWord_append (by simp) hin (hb.resolve_right (by simp [hc])) hrest
    rw [hsplit] at hes h ⊢
    rcases List.mem_cons.mp h with h | h
    · cases h
      have hq : es - (c :: s.takeWhile inWord ++ r).length = pre.length := by simp [hes]
      have heq : es - r.length = pre.length + (c :: s.takeWhile inWord).length := by
        rw [hes, ← List.append_assoc, List.length_append, Nat.add_sub_cancel, List.length_append]
      rwa [hq, heq]
    · rw [← List.append_assoc] at hes ⊢
      exact ih _ (.inr hrest) hes h
  | _ =>
    rename_i ih
    rw [List.append_cons] at hes ⊢
    exact ih _ (boundary_of_mem (by decide)) hes (by simpa using h)

/-! ## The NULs -/

theorem nulterminate_eq (cmd : Cmd) (buf : List UInt8) :
    nulterminate cmd buf = cmd.words.foldl (fun buf w => buf.set w.eq 0) buf := by
  induction cmd generalizing buf with
  | exec argv => rfl
  | redir cmd r ih => simp [nulterminate, Cmd.words, ih]
  | pipe left right ihl ihr | list left right ihl ihr => simp [nulterminate, Cmd.words, ihl, ihr]
  | back cmd ih => exact ih buf

theorem getElem?_foldl_set (ws : List Word) (buf : List UInt8) (i : ℕ) :
    (ws.foldl (fun buf w => buf.set w.eq 0) buf)[i]? =
      if i ∈ ws.map Word.eq then buf[i]?.map fun _ => 0 else buf[i]? := by
  induction ws generalizing buf with
  | nil => simp
  | cons w ws ih =>
    rw [List.foldl_cons, ih, List.getElem?_set']
    by_cases hi : w.eq = i
    · subst hi
      cases buf[w.eq]? <;> simp
    · have hi' : i ≠ w.eq := fun h => hi h.symm
      simp [hi, hi']

/-- Each word becomes a string: no NUL is written inside a word, where the line has none. -/
theorem cstring_nulterminate (hline : 0 ∉ line) (hcmd : ∀ w ∈ cmd.words, IsWord line w)
    (hw : w ∈ cmd.words) : cstring (nulterminate cmd (line ++ [0])) w.q =
    (line.drop w.q).take (w.eq - w.q) := by
  have hword := hcmd w hw
  have hget : ∀ i, (nulterminate cmd (line ++ [0]))[i]? =
      if i ∈ cmd.words.map Word.eq then (line ++ [0])[i]?.map fun _ => 0 else (line ++ [0])[i]? := by
    rw [nulterminate_eq]
    exact getElem?_foldl_set _ _
  generalize nulterminate cmd (line ++ [0]) = buf at hget ⊢
  -- an end of a word is not inside one
  have hinside : (buf.drop w.q).take (w.eq - w.q) = (line.drop w.q).take (w.eq - w.q) := by
    refine List.ext_getElem? fun i => ?_
    simp only [List.getElem?_take, List.getElem?_drop]
    split_ifs with hi
    · have hin := hword.inside (w.q + i) (by omega) (by omega)
      have hnot : w.q + i ∉ cmd.words.map Word.eq := by
        intro hmem
        obtain ⟨w', hw', heq⟩ := List.mem_map.mp hmem
        rw [← heq, (hcmd w' hw').after] at hin
        cases hin
      rw [hget, if_neg hnot, List.getElem?_append_left (by have := hword.bound; omega)]
    · rfl
  have hend : buf[w.eq]? = some 0 := by
    have hlt : w.eq < (line ++ [0]).length := by simpa using Nat.lt_succ_of_le hword.bound
    rw [hget, if_pos (List.mem_map_of_mem hw), List.getElem?_eq_getElem hlt]
    rfl
  obtain ⟨hlt, hzero⟩ := List.getElem?_eq_some_iff.mp hend
  have hdrop : (buf.drop w.q).drop (w.eq - w.q) = 0 :: buf.drop (w.eq + 1) := by
    rw [List.drop_drop, Nat.add_sub_cancel' (Nat.le_of_lt hword.nonempty),
      List.drop_eq_getElem_cons hlt, hzero]
  have hne : ∀ c ∈ (line.drop w.q).take (w.eq - w.q), decide (c ≠ 0) = true := fun c hc =>
    decide_eq_true fun h0 => hline (h0 ▸ List.mem_of_mem_drop (List.mem_of_mem_take hc))
  rw [cstring, ← List.take_append_drop (w.eq - w.q) (buf.drop w.q), hinside, hdrop,
    List.takeWhile_append_of_pos hne]
  simp

/-! ## The command of a line -/

theorem lex_eq_nil : lex es s = [] ↔ s.dropWhile isSpace = [] := by
  constructor
  · intro h
    have hnone : (token es (s.dropWhile isSpace)).1 = none := by
      rw [← head?_lex, h]
      rfl
    exact token_eq_nil hnone
  · intro h
    rw [lex_eq, h]
    rfl

theorem parsecmd_outcome (line : List UInt8) :
    (∃ m, parsecmd line = .error (.panic m) ∧ ∀ cmd, ¬Line (lex line.length line) cmd) ∨
    ∃ cmd, parsecmd line = .ok (cmd, nulterminate cmd (line ++ [0])) ∧
      Line (lex line.length line) cmd ∧ ∀ c, Line (lex line.length line) c → c = cmd := by
  have hreads := (parse_reads line.length (4 * line.length + 4) line).1 (Nat.le_refl _)
  simp only [parsecmd]
  generalize parseline line.length (4 * line.length + 4) line = r at hreads ⊢
  rcases r with (m | _) | ⟨cmd, s⟩
  · exact .inl ⟨m, rfl, fun cmd hd => hreads.2 _ cmd [] hd rfl (List.append_nil _).symm⟩
  · exact absurd rfl hreads.1
  · have honly : ∀ c, Line (lex line.length line) c → c = cmd ∧ [] = lex line.length s := fun c hd =>
      hreads.only _ c [] hd rfl (List.append_nil _).symm
    cases hs : s.dropWhile isSpace with
    | nil =>
      obtain ⟨ts, hts, hd⟩ := hreads.derived
      rw [lex_eq_nil.mpr hs, List.append_nil] at hts
      exact .inr ⟨cmd, by simp [bind, Except.bind, peek, hs], hts ▸ hd, fun c hc => (honly c hc).1⟩
    | cons b r =>
      refine .inl ⟨"syntax", by simp [bind, Except.bind, peek, hs], fun c hd => ?_⟩
      cases hs ▸ lex_eq_nil.mp (honly c hd).2.symm

/-- The parser returns, and not with a panic exactly if the line is one of the grammar, with the
tree of its derivation; then every word of the tree is one of the line, and is left as a string in
the buffer. -/
theorem parsecmd_accepts_grammar (line : List UInt8) (hline : 0 ∉ line) :
    parsecmd line ≠ .error .loop ∧
    (∀ cmd buf, parsecmd line = .ok (cmd, buf) ↔
      Line (lex line.length line) cmd ∧ buf = nulterminate cmd (line ++ [0])) ∧
    ∀ cmd buf, parsecmd line = .ok (cmd, buf) → ∀ w ∈ cmd.words,
      IsWord line w ∧ cstring buf w.q = (line.drop w.q).take (w.eq - w.q) := by
  have hok : ∀ cmd buf, parsecmd line = .ok (cmd, buf) ↔
      Line (lex line.length line) cmd ∧ buf = nulterminate cmd (line ++ [0]) := by
    intro cmd buf
    rcases parsecmd_outcome line with ⟨m, hm, hnone⟩ | ⟨c, hc, hd, honly⟩
    · rw [hm]
      exact ⟨nofun, fun hd => absurd hd.1 (hnone cmd)⟩
    · rw [hc]
      constructor
      · rintro ⟨⟩
        exact ⟨hd, rfl⟩
      · rintro ⟨hd', rfl⟩
        rw [honly cmd hd']
  refine ⟨?_, hok, fun cmd buf h w hw => ?_⟩
  · rcases parsecmd_outcome line with ⟨m, hm, -⟩ | ⟨c, hc, -⟩
    · simp [hm]
    · simp [hc]
  · obtain ⟨hd, rfl⟩ := (hok cmd buf).mp h
    have hwords : ∀ w ∈ cmd.words, IsWord line w := fun w hw =>
      isWord_of_lex [] (.inl rfl) rfl (hd.mem hw)
    exact ⟨hwords w hw, cstring_nulterminate hline hwords hw⟩

/-- `a>b` -/
theorem parsecmd_accepts_grammar_redir :
    parsecmd [97, 62, 98] = .ok (.redir (.exec [⟨0, 1⟩]) ⟨⟨2, 3⟩, 0x601, 1⟩, [97, 0, 98, 0]) ∧
      IsWord [97, 62, 98] ⟨2, 3⟩ ∧ cstring [97, 0, 98, 0] 2 = [98] := by
  have h : parsecmd [97, 62, 98] =
    .ok (.redir (.exec [⟨0, 1⟩]) ⟨⟨2, 3⟩, 0x601, 1⟩, [97, 0, 98, 0]) := rfl
  exact ⟨h, (parsecmd_accepts_grammar _ (by decide)).2.2 _ _ h ⟨2, 3⟩ (by decide)⟩

end LazyXv6.Shell
