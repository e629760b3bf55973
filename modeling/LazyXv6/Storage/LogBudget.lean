import LazyXv6.Storage.ReadWrite

/-!
# How many blocks a section of `filewrite` logs (`file.c`)

`filewrite` writes at most `((MAXOPBLOCKS-1-1-2)/2)*BSIZE` bytes in one transaction, so that the
blocks which it logs, at most one block of data and one of the bitmap for each block of the file,
the indirect block with its bitmap block, and the inode block, are not more than `MAXOPBLOCKS`.
-/

namespace LazyXv6.Storage

open Lib Function

def maxOpBlocks : ℕ := 10

def filewriteMax : ℕ := (maxOpBlocks - 1 - 1 - 2) / 2 * 1024

def State.beginOp (s : State) : State := { s with disk := { s.disk with log := [] } }

/-- The result of `filewrite`, the offset of the file after it, and the blocks that each of its
sections logged. -/
structure Filewrite where
  ret : ℤ
  off : UInt32
  sections : List (List ℕ)

/-- The loop of `filewrite`. Before section `k`, others have changed the disk and the inode as
`others k` says. -/
def filewriteLoop (sb : Superblock) (others : ℕ → State → State) (copyin : State.Source) (n : ℤ) :
    ℕ → ℕ → UInt32 → State → List (List ℕ) → Except Panic Filewrite
  | 0, i, off, _, done => .ok ⟨if (i : ℤ) = n then n else -1, off, done⟩
  | fuel + 1, i, off, s, done =>
    if (i : ℤ) < n then
      let n1 := min (n - i).toNat filewriteMax
      let s := (others done.length s).beginOp
      match s.writei sb (fun j m => copyin (i + j) m) off (UInt32.ofNat n1) with
      | .error e => .error e
      | .ok (r, s) =>
        let off := if 0 < r then off + UInt32.ofNat r.toNat else off
        let done := done ++ [s.disk.log]
        if r ≠ n1 then .ok ⟨-1, off, done⟩
        else filewriteLoop sb others copyin n fuel (i + n1) off s done
    else .ok ⟨if (i : ℤ) = n then n else -1, off, done⟩

def filewrite (sb : Superblock) (others : ℕ → State → State) (s : State) (copyin : State.Source)
    (off : UInt32) (n : ℤ) : Except Panic Filewrite :=
  filewriteLoop sb others copyin n n.toNat 0 off s []

variable {sb : Superblock} {s s' s₁ : State} {a b c k tot off n t o lo cnt : ℕ}
    {copyin : State.Source}

/-! ## What the loop of `writei` logs -/

def State.empties (s : State) (lo cnt : ℕ) : ℕ := (List.range' lo cnt).countP fun k => s.slot k = 0

/-- A block that is logged for the indirect block. -/
def ForIndirect (sb : Superblock) (s : State) (c : ℕ) : Prop :=
  s.slot 268 ≠ 0 ∧ (c = s.slot 268 ∨ c = sb.bblock (s.slot 268))

theorem ForIndirect.after (h : ForIndirect sb s c) (ha : After sb s s') : ForIndirect sb s' c := by
  have hkept := ha.kept 268 le_rfl h.1
  unfold ForIndirect
  rwa [hkept]

theorem Bmap.log (h : Bmap sb s k a s') (hk : k < 268) (hc : c ∈ s'.disk.log) :
    c ∈ s.disk.log ∨ (s.slot k = 0 ∧ a ≠ 0 ∧ (c = a ∨ c = sb.bblock a)) ∨ ForIndirect sb s' c := by
  cases h with
  | found | full => exact .inl hc
  | filled hind h =>
    rcases (h.log c).mp hc with hc | hc | hc | ⟨h1, h2, hc⟩
    · exact .inl hc
    · exact .inr (.inl ⟨h.empty, h.ne_zero, .inr hc⟩)
    · exact .inr (.inl ⟨h.empty, h.ne_zero, .inl hc⟩)
    · have hne : s.slot 268 ≠ 0 := by omega
      have hkept := h.slot_kept le_rfl hne
      exact .inr (.inr ⟨hkept ▸ hne, .inl (hkept ▸ hc)⟩)
  | indirect hbn h =>
    have hself := h.slot_self
    rcases (h.log c).mp hc with hc | hc | hc | ⟨-, h2, -⟩
    · exact .inl hc
    · exact .inr (.inr ⟨hself ▸ h.ne_zero, .inr (hself ▸ hc)⟩)
    · exact .inr (.inr ⟨hself ▸ h.ne_zero, .inl (hself ▸ hc)⟩)
    · omega
  | @both b ind t _ hbn h h' =>
    have hself := h.slot_self
    have hkept : s'.slot 268 = ind := by rw [h'.slot_kept le_rfl (hself ▸ h.ne_zero), hself]
    have hfor : c = ind ∨ c = sb.bblock ind → ForIndirect sb s' c := by
      unfold ForIndirect
      rw [hkept]
      exact fun hc => ⟨h.ne_zero, hc⟩
    rcases (h'.log c).mp hc with hc | hc | hc | ⟨-, -, hc⟩
    · rcases (h.log c).mp hc with hc | hc | hc | ⟨-, h2, -⟩
      · exact .inl hc
      · exact .inr (.inr (hfor (.inr hc)))
      · exact .inr (.inr (hfor (.inl hc)))
      · omega
    · exact .inr (.inl ⟨slot_of_no_indirect h.empty hbn hk, h'.ne_zero, .inr hc⟩)
    · exact .inr (.inl ⟨slot_of_no_indirect h.empty hbn hk, h'.ne_zero, .inl hc⟩)
    · exact .inr (.inr (hfor (.inl (hc.trans hself))))

/-- Blocks of data `A` and blocks of the bitmap `B` are logged. -/
def Logs (sb : Superblock) (s s' : State) (A B : List ℕ) : Prop :=
  ∀ c, c ∈ s'.disk.log → c ∈ s.disk.log ∨ c ∈ A ∨ c ∈ B ∨ ForIndirect sb s' c

/-- The block of the bitmap, if one is logged for the block of data. -/
def bitmapOf (sb : Superblock) (s : State) (k a : ℕ) : List ℕ :=
  if s.slot k = 0 then [sb.bblock a] else []

theorem Bmap.logs (h : Bmap sb s k a s') (hk : k < 268) : Logs sb s s' [a] (bitmapOf sb s k a) := by
  intro c hc
  rcases h.log hk hc with hc | ⟨hempty, -, hc | hc⟩ | hc
  · exact .inl hc
  · exact .inr (.inl (List.mem_singleton.mpr hc))
  · refine .inr (.inr (.inl ?_))
    unfold bitmapOf
    rw [if_pos hempty]
    exact List.mem_singleton.mpr hc
  · exact .inr (.inr (.inr hc))

theorem length_bitmapOf (s : State) (k a : ℕ) :
    (bitmapOf sb s k a).length = if s.slot k = 0 then 1 else 0 := by
  unfold bitmapOf
  split <;> rfl

theorem State.empties_succ (s : State) (lo cnt : ℕ) :
    s.empties lo (cnt + 1) = (if s.slot lo = 0 then 1 else 0) + s.empties (lo + 1) cnt := by
  unfold State.empties
  rw [List.range'_succ, List.countP_cons, Nat.add_comm]
  simp only [decide_eq_true_eq]

theorem State.empties_congr (h : ∀ k, lo ≤ k → k < lo + cnt → s'.slot k = s.slot k) :
    s'.empties lo cnt = s.empties lo cnt := by
  refine List.countP_congr fun k hk => ?_
  rw [List.mem_range'_1] at hk
  rw [h k hk.1 hk.2]

theorem State.empties_le (s : State) (lo cnt : ℕ) : s.empties lo cnt ≤ cnt :=
  (List.countP_le_length).trans_eq List.length_range'

/-- **What the loop logs**: for each block of the file one block of data, and one block of the
bitmap if it was missing. -/
theorem Copied.logs (h : Copied sb copyin n tot off s t o s₁) (hl : Last sb copyin n t o s₁ s')
    (hwf : Wf sb s) (hoff : off + (n - tot) ≤ 268 * 1024) (htot : tot ≤ n) :
    ∃ A B : List ℕ, Logs sb s s' A B ∧ A.length ≤ span off (n - tot) ∧
      B.length ≤ s.empties (off / 1024) (span off (n - tot)) := by
  induction h with
  | @refl tot off s =>
    cases hl with
    | done => exact ⟨[], [], fun c hc => .inl hc, Nat.zero_le _, Nat.zero_le _⟩
    | full hlt hb =>
      refine ⟨[], [], fun c hc => ?_, Nat.zero_le _, Nat.zero_le _⟩
      rcases hb.log (by omega) hc with hc | ⟨-, ha, -⟩ | hc
      · exact .inl hc
      · exact absurd rfl ha
      · exact .inr (.inr (.inr hc))
    | @failed a s' hlt hb ha hc =>
      have hwf' := hb.wf hwf
      have hafter := (hb.copied (by omega) ha (copyin tot (State.chunk n tot off)).1).after hwf'
        (fun _ hc => hc) fun hn => hn
      obtain ⟨k, hk⟩ : ∃ k, span off (n - tot) = k + 1 := span_pos (by omega)
      refine ⟨[a], bitmapOf sb s (off / 1024) a, fun c hc => ?_, ?_, ?_⟩
      · refine (hb.logs (by omega) c hc).imp_right (Or.imp_right (Or.imp_right ?_))
        exact fun hfor => hfor.after hafter
      · rw [hk, List.length_singleton]
        omega
      · rw [hk, length_bitmapOf, State.empties_succ]
        omega
  | @turn tot off a t o s s' s₁ hlt hb ha hc rest ih =>
    have hpos : 0 < State.chunk n tot off := chunk_pos hlt
    have hle := chunk_le n tot off
    have hbn : off / 1024 < 268 := by omega
    have hwrites := hb.copied_logged hbn ha (copyin tot (State.chunk n tot off)).1
    have hwf' := hwrites.wf (hb.wf hwf)
    obtain ⟨A, B, hlogs, hA, hB⟩ := ih hl hwf' (by omega) (by omega)
    obtain ⟨h1, h2, h3⟩ := rest.progress (by omega)
    have hrest := (rest.after hwf' (by omega)).trans
      (hl.after (rest.after hwf' (by omega)).wf (by omega))
    have hturn : After sb s' { s' with disk :=
        (s'.copied a off (copyin tot (State.chunk n tot off)).1).logWrite a } :=
      hwrites.after (hb.wf hwf) (fun c hc => Disk.mem_log_logWrite.mpr (.inl hc))
        fun hn => Disk.nodup_logWrite (d := s'.copied a off _) hn a
    have hbytes : n - tot = State.chunk n tot off + (n - (tot + State.chunk n tot off)) := by omega
    obtain ⟨hspan, hnext⟩ := span_chunk off hlt
      (show tot + State.chunk n tot off + (n - (tot + State.chunk n tot off)) ≤ n by omega)
    refine ⟨a :: A, bitmapOf sb s (off / 1024) a ++ B, fun c hc => ?_, ?_, ?_⟩
    · rcases hlogs c hc with hc | hc | hc | hc
      · rcases Disk.mem_log_logWrite.mp hc with hc | hc
        · rcases hb.logs hbn c hc with hc | hc | hc | hc
          · exact .inl hc
          · exact .inr (.inl (List.mem_singleton.mp hc ▸ List.mem_cons_self))
          · exact .inr (.inr (.inl (List.mem_append_left _ hc)))
          · exact .inr (.inr (.inr ((hc.after hturn).after hrest)))
        · exact .inr (.inl (hc ▸ List.mem_cons_self))
      · exact .inr (.inl (List.mem_cons_of_mem _ hc))
      · exact .inr (.inr (.inl (List.mem_append_right _ hc)))
      · exact .inr (.inr (.inr hc))
    · rw [hbytes, hspan, List.length_cons]
      omega
    · rw [hbytes, hspan, State.empties_succ, List.length_append, length_bitmapOf]
      rcases Nat.eq_zero_or_pos (n - (tot + State.chunk n tot off)) with hzero | hpos'
      · rw [hzero, show span (off + State.chunk n tot off) 0 = 0 from if_pos rfl] at hB ⊢
        exact Nat.add_le_add_left hB _
      · rw [hnext (by omega)] at hB
        have hlim := span_le (show off + State.chunk n tot off + (n - (tot + State.chunk n tot off)) ≤
          268 * 1024 by omega) (by omega)
        rw [hnext (by omega)] at hlim
        refine Nat.add_le_add_left (hB.trans_eq (State.empties_congr fun k hk hk' => ?_)) _
        rw [hwrites.slot (hb.wf hwf) (by omega), hb.slot_of_ne (by omega) (by omega)]

/-! ## Sections -/

theorem blocks_le (hholes : NoHoles s) (hoff : off ≤ s.ip.size.toNat) (hn : n ≤ filewriteMax) :
    span off n + s.empties (off / 1024) (span off n) ≤ 7 := by
  have hn' : n ≤ 3072 := hn
  have hempties := s.empties_le (off / 1024) (span off n)
  by_cases haligned : off % 1024 = 0
  · have hspan : span off n ≤ 3 := by
      unfold span
      split <;> omega
    omega
  · have hspan : span off n ≤ 4 := by
      unfold span
      split <;> omega
    rcases Nat.eq_zero_or_pos (span off n) with hzero | hpos
    · omega
    · obtain ⟨k, hk⟩ := Nat.exists_eq_add_of_lt hpos
      have hne : s.slot (off / 1024) ≠ 0 := hholes _ (by omega)
      have hrest := s.empties_le (off / 1024 + 1) k
      rw [hk, Nat.zero_add, State.empties_succ, if_neg hne] at hempties ⊢
      omega

theorem length_le_of_subset {l S : List ℕ} (hl : l.Nodup) (hS : ∀ c, c ∈ l → c ∈ S) :
    l.length ≤ S.length := (List.subperm_of_subset hl fun c hc => hS c hc).length_le

structure Sound (sb : Superblock) (s : State) : Prop where
  wf : Wf sb s
  noHoles : NoHoles s

theorem Sound.beginOp (h : Sound sb s) : Sound sb s.beginOp :=
  ⟨⟨h.wf.inum_lt, h.wf.size_le, h.wf.marked, h.wf.data, h.wf.inj⟩, h.noHoles⟩

theorem writei_logs (h : Sound sb s) (hlog : s.disk.log = []) (copyin : State.Source)
    (off n : UInt32) (hn : n.toNat ≤ filewriteMax) :
    ∃ (r : ℤ) (s' : State), s.writei sb copyin off n = .ok (r, s') ∧
      s'.disk.log.length ≤ maxOpBlocks ∧ Sound sb s' := by
  by_cases hrefused : s.Refuses off n
  · refine ⟨-1, s, writei_refused hrefused copyin, ?_, h⟩
    rw [hlog]
    exact Nat.zero_le _
  obtain ⟨hoff, hmax⟩ := State.Refuses.bounds hrefused
  obtain ⟨t, o, s₁, s', heq, hcopied, hlast⟩ := writei_turns h.wf hrefused copyin
  obtain ⟨A, B, hlogs, hA, hB⟩ := hcopied.logs hlast h.wf (by omega) (Nat.zero_le _)
  have hblocks := blocks_le h.noHoles hoff hn
  refine ⟨t, _, heq, ?_, wf_finish h.wf hmax hcopied hlast,
    noHoles_finish h.wf hoff hmax hcopied hlast h.noHoles⟩
  have hafter := (after_copied h.wf hmax hcopied).trans (after_last h.wf hmax hcopied hlast)
  have hdisk := (rest_setSize s' o).2.1
  have hnodup : ((s'.setSize o).iupdate sb).disk.log.Nodup := by
    refine Disk.nodup_store ?_ _ _
    rw [hdisk]
    refine hafter.nodup ?_
    rw [hlog]
    exact List.nodup_nil
  have hall := length_le_of_subset hnodup (S := A ++ (B ++ [s'.slot 268, sb.bblock (s'.slot 268),
    sb.iblock (s'.setSize o).inum])) fun c hc => ?_
  · simp only [List.length_append, List.length_cons, List.length_nil] at hall
    unfold maxOpBlocks
    rw [Nat.sub_zero] at hA hB
    omega
  · simp only [List.mem_append, List.mem_cons, List.not_mem_nil, or_false]
    rcases Disk.mem_log_store.mp hc with hc | hc
    · rw [hdisk] at hc
      rcases hlogs c hc with hc | hc | hc | ⟨-, hc | hc⟩
      · rw [hlog] at hc
        exact nomatch hc
      · exact .inl hc
      · exact .inr (.inl hc)
      · exact .inr (.inr (.inl hc))
      · exact .inr (.inr (.inr (.inl hc)))
    · exact .inr (.inr (.inr (.inr hc)))

/-- **Every section of `filewrite` stays within the log budget**, whatever the layout of the disk,
the offset and the number of bytes, wherever the copies fail, and whatever others do between the
sections. -/
theorem filewrite_within_budget (others : ℕ → State → State)
    (hothers : ∀ k s, Sound sb s → Sound sb (others k s)) (h : Sound sb s) (copyin : State.Source)
    (off : UInt32) (n : ℤ) :
    ∃ r, filewrite sb others s copyin off n = .ok r ∧
    ∀ log ∈ r.sections, log.length ≤ maxOpBlocks := by
  have hloop : ∀ (fuel i : ℕ) (off : UInt32) (s : State) (done : List (List ℕ)), Sound sb s →
      (∀ log ∈ done, log.length ≤ maxOpBlocks) →
      ∃ r, filewriteLoop sb others copyin n fuel i off s done = .ok r ∧
        ∀ log ∈ r.sections, log.length ≤ maxOpBlocks := by
    intro fuel
    induction fuel with
    | zero => exact fun i off s done _ hdone => ⟨_, rfl, hdone⟩
    | succ fuel ih =>
      intro i off s done hs hdone
      unfold filewriteLoop
      by_cases hi : (i : ℤ) < n
      · rw [if_pos hi]
        have hmin : min (n - i).toNat filewriteMax ≤ filewriteMax := Nat.min_le_right ..
        have hn1 : (UInt32.ofNat (min (n - i).toNat filewriteMax)).toNat ≤ filewriteMax := by
          rw [UInt32.toNat_ofNat']
          exact (Nat.mod_le _ _).trans hmin
        obtain ⟨r, s', heq, hlen, hs'⟩ := writei_logs (hothers done.length s hs).beginOp rfl
          (fun j m => copyin (i + j) m) off _ hn1
        have hdone' : ∀ log ∈ done ++ [s'.disk.log], log.length ≤ maxOpBlocks := by
          intro log hmem
          rcases List.mem_append.mp hmem with hmem | hmem
          · exact hdone log hmem
          · rw [List.mem_singleton.mp hmem]
            exact hlen
        simp only [heq]
        split
        · exact ⟨_, rfl, hdone'⟩
        · exact ih _ _ _ _ hs' hdone'
      · rw [if_neg hi]
        exact ⟨_, rfl, hdone⟩
  exact hloop _ _ _ _ _ h fun log hmem => nomatch hmem

theorem filewrite_within_budget_hello :
    Sound smallSb hello ∧
      ∃ r, filewrite smallSb (fun _ s => s) hello (fromBytes fun _ => 33) 5 5 = .ok r ∧
      ∀ log ∈ r.sections, log.length ≤ maxOpBlocks :=
  ⟨⟨wf_hello, noHoles_hello⟩, filewrite_within_budget (fun _ s => s) (fun _ _ h => h)
    ⟨wf_hello, noHoles_hello⟩ (fromBytes fun _ => 33) 5 5⟩

end LazyXv6.Storage
