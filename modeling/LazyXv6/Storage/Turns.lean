import LazyXv6.Storage.Blocks

/-!
# What the loop of `writei` does

A turn of the loop finds the block for the current offset, with `Bmap`, and copies into its buffer
(`Copied`). The last turn is different: all is copied, or there is no block, or the copy fails
(`Last`).
-/

namespace LazyXv6.Storage

open Lib Function

variable {sb : Superblock} {s s' s₁ : State} {a b c k k' bn tot off n : ℕ} {f : Block}

/-! ## A buffer is changed -/

/-- The block in place `k` is `f` now. -/
structure Writes (s : State) (k : ℕ) (f : Block) (s' : State) : Prop where
  lt : k < 268
  ne : s.slot k ≠ 0
  cache : s'.disk.cache = update s.disk.cache (s.slot k) f
  inum : s'.inum = s.inum
  ip : s'.ip = s.ip
  home : s'.disk.home = s.disk.home

namespace Writes

variable (h : Writes s k f s') (hwf : Wf sb s)

include h in
theorem cache_self : s'.disk.cache (s.slot k) = f := by
  rw [h.cache, update_self]

include h in
theorem cache_of_ne (hc : c ≠ s.slot k) : s'.disk.cache c = s.disk.cache c := by
  rw [h.cache, update_of_ne hc]

include h hwf

theorem slot (hk' : k' ≤ 268) : s'.slot k' = s.slot k' := by
  show Storage.slot s'.disk s'.ip k' = _
  rw [h.ip]
  rcases Nat.lt_or_ge k' 12 with hlt | hge
  · rw [slot_direct hlt, State.slot, slot_direct hlt]
  · rcases Nat.lt_or_ge k' 268 with hlt | hge'
    · rw [slot_entry hge hlt, State.slot, slot_entry hge hlt]
      by_cases hind : s.ip.addr 12 = 0
      · rw [if_pos hind, if_pos hind]
      · have hne : s.ip.addr 12 ≠ s.slot k := fun heq => by
          have hk := hwf.inj 268 k le_rfl h.lt.le hind heq
          have hlt := h.lt
          omega
        rw [if_neg hind, if_neg hind, h.cache_of_ne hne]
    · obtain rfl : k' = 268 := by omega
      rfl

theorem bit (hc : c < sb.size) : s'.bit sb c = s.bit sb c := by
  refine Disk.bit_congr (h.cache_of_ne ?_)
  have h1 := sb.bblock_lt hc
  have h2 := (hwf.data k h.lt.le h.ne).1
  omega

theorem wf : Wf sb s' := by
  have hle := sb.nmeta_le
  refine ⟨h.inum ▸ hwf.inum_lt, h.ip ▸ hwf.size_le, fun c hc => ?_, fun k' hk' hne => ?_,
    fun k₁ k₂ hk₁ hk₂ hne heq => ?_⟩
  · rw [h.bit hwf (by omega)]
    exact hwf.marked c hc
  · rw [h.slot hwf hk'] at hne ⊢
    obtain ⟨h1, h2, h3⟩ := hwf.data k' hk' hne
    exact ⟨h1, h2, (h.bit hwf h2).trans h3⟩
  · rw [h.slot hwf hk₁] at hne heq
    rw [h.slot hwf hk₂] at heq
    exact hwf.inj k₁ k₂ hk₁ hk₂ hne heq

theorem content {p : ℕ} (hp : p / 1024 < 268) :
    s'.content p = if p / 1024 = k then f (p % 1024) else s.content p := by
  unfold State.content
  rw [h.slot hwf hp.le]
  by_cases hk : p / 1024 = k
  · rw [hk, if_neg h.ne, if_pos rfl, h.cache_self]
  · rw [if_neg hk]
    by_cases hslot : s.slot (p / 1024) = 0
    · rw [if_pos hslot, if_pos hslot]
    · have hne : s.slot (p / 1024) ≠ s.slot k := fun heq =>
        hk (hwf.inj _ k hp.le h.lt.le hslot heq)
      rw [if_neg hslot, if_neg hslot, h.cache_of_ne hne]

end Writes

/-! ## `bmap` -/

namespace Bmap

section

variable (h : Bmap sb s bn a s')

include h

theorem slot_kept (hk : k ≤ 268) (hne : s.slot k ≠ 0) : s'.slot k = s.slot k := by
  cases h with
  | found | full => rfl
  | filled _ h | indirect _ h => exact h.slot_kept hk hne
  | both _ h h' => exact (h'.slot_kept hk (h.slot_kept hk hne ▸ hne)).trans (h.slot_kept hk hne)

theorem slot_of_ne (hk : k < 268) (hne : k ≠ bn) : s'.slot k = s.slot k := by
  cases h with
  | found | full => rfl
  | filled _ h => exact h.slot_of_ne hk.le hne
  | indirect _ h => exact h.slot_of_ne hk.le (by omega)
  | both _ h h' => exact (h'.slot_of_ne hk.le hne).trans (h.slot_of_ne hk.le (by omega))

theorem slot_self (ha : a ≠ 0) : s'.slot bn = a := by
  cases h with
  | found => rfl
  | full | indirect => exact absurd rfl ha
  | filled _ h => exact h.slot_self
  | both _ _ h' => exact h'.slot_self

theorem ip : ∃ addrs, s'.ip = { s.ip with addrs := addrs } := by
  cases h with
  | found | full => exact ⟨_, rfl⟩
  | filled _ h | indirect _ h => exact h.ip
  | both _ h h' =>
    obtain ⟨x, hx⟩ := h.ip
    obtain ⟨y, hy⟩ := h'.ip
    exact ⟨y, hy.trans (by rw [hx])⟩

theorem inum : s'.inum = s.inum := by
  cases h with
  | found | full => rfl
  | filled _ h | indirect _ h => exact h.inum
  | both _ h h' => exact h'.inum.trans h.inum

theorem home : s'.disk.home = s.disk.home := by
  cases h with
  | found | full => rfl
  | filled _ h | indirect _ h => exact h.home
  | both _ h h' => exact h'.home.trans h.home

theorem log_mono (hc : c ∈ s.disk.log) : c ∈ s'.disk.log := by
  cases h with
  | found | full => exact hc
  | filled _ h | indirect _ h => exact (h.log c).mpr (.inl hc)
  | both _ h h' => exact (h'.log c).mpr (.inl ((h.log c).mpr (.inl hc)))

theorem logged (c : ℕ) : c ∈ s'.disk.log ∨ s'.disk.cache c = s.disk.cache c := by
  cases h with
  | found | full => exact .inr rfl
  | filled _ h | indirect _ h => exact h.logged c
  | both _ h h' =>
    exact Disk.logged_trans h.logged h'.logged (fun c hc => (h'.log c).mpr (.inl hc)) c

theorem nodup (hn : s.disk.log.Nodup) : s'.disk.log.Nodup := by
  cases h with
  | found | full => exact hn
  | filled _ h | indirect _ h => exact h.nodup hn
  | both _ h h' => exact h'.nodup (h.nodup hn)

theorem wf (hwf : Wf sb s) : Wf sb s' := by
  cases h with
  | found | full => exact hwf
  | filled _ h | indirect _ h => exact h.wf hwf
  | both _ h h' => exact h'.wf (h.wf hwf)

theorem content (hwf : Wf sb s) {p : ℕ} (hp : p / 1024 < 268) : s'.content p = s.content p := by
  cases h with
  | found | full => rfl
  | filled _ h | indirect _ h => exact h.content hwf hp
  | both _ h h' => exact (h'.content (h.wf hwf) hp).trans (h.content hwf hp)

end

end Bmap

/-! ## The loop -/

/-- What is in the block at place `off / 1024` after a copy at `off`. -/
def State.copied (s : State) (a off : ℕ) (bytes : List UInt8) : Disk :=
  s.disk.put a (overwrite (s.disk.cache a) (off % 1024) bytes)

/-- Turns of the loop with a copy that succeeds, from the first three arguments to the last
three. -/
inductive Copied (sb : Superblock) (copyin : State.Source) (n : ℕ) :
    ℕ → ℕ → State → ℕ → ℕ → State → Prop where
  | refl {tot off : ℕ} {s : State} : Copied sb copyin n tot off s tot off s
  | turn {tot off a t o : ℕ} {s s' s₁ : State} (h : tot < n) (hb : Bmap sb s (off / 1024) a s')
      (ha : a ≠ 0) (hc : (copyin tot (State.chunk n tot off)).2 = true)
      (rest : Copied sb copyin n (tot + State.chunk n tot off) (off + State.chunk n tot off)
        { s' with disk := (s'.copied a off (copyin tot (State.chunk n tot off)).1).logWrite a }
        t o s₁) :
      Copied sb copyin n tot off s t o s₁

inductive Last (sb : Superblock) (copyin : State.Source) (n t o : ℕ) (s : State) :
    State → Prop where
  | done (h : n ≤ t) : Last sb copyin n t o s s
  | full {s' : State} (h : t < n) (hb : Bmap sb s (o / 1024) 0 s') : Last sb copyin n t o s s'
  | failed {a : ℕ} {s' : State} (h : t < n) (hb : Bmap sb s (o / 1024) a s') (ha : a ≠ 0)
      (hc : (copyin t (State.chunk n t o)).2 = false) :
      Last sb copyin n t o s { s' with disk := s'.copied a o (copyin t (State.chunk n t o)).1 }

theorem chunk_pos (h : tot < n) : 0 < State.chunk n tot off := by
  have hmod : off % 1024 < 1024 := Nat.mod_lt _ (by decide)
  unfold State.chunk
  omega

theorem chunk_le (n tot off : ℕ) : State.chunk n tot off ≤ n - tot := Nat.min_le_left ..

theorem chunk_block (n tot off : ℕ) : off % 1024 + State.chunk n tot off ≤ 1024 := by
  have hmod : off % 1024 < 1024 := Nat.mod_lt _ (by decide)
  unfold State.chunk
  omega

theorem Bmap.copied (h : Bmap sb s (off / 1024) a s') (hbn : off / 1024 < 268) (ha : a ≠ 0)
    (bytes : List UInt8) : Writes s' (off / 1024) (overwrite (s'.disk.cache a) (off % 1024) bytes)
      { s' with disk := s'.copied a off bytes } :=
  ⟨hbn, h.slot_self ha ▸ ha, h.slot_self ha ▸ rfl, rfl, rfl, rfl⟩

theorem Bmap.copied_logged (h : Bmap sb s (off / 1024) a s') (hbn : off / 1024 < 268) (ha : a ≠ 0)
    (bytes : List UInt8) :
    Writes s' (off / 1024) (overwrite (s'.disk.cache a) (off % 1024) bytes)
      { s' with disk := (s'.copied a off bytes).logWrite a } :=
  ⟨hbn, h.slot_self ha ▸ ha, h.slot_self ha ▸ Disk.cache_logWrite .., rfl, rfl,
    Disk.home_logWrite ..⟩

theorem writeiLoop_turns {copyin : State.Source} (fuel : ℕ) :
    ∀ (tot off : ℕ) (s : State), Wf sb s → n - tot ≤ fuel → off + (n - tot) ≤ 268 * 1024 →
      ∃ t o s₁ s', State.writeiLoop sb copyin n fuel tot off s = .ok (t, o, s') ∧
        Copied sb copyin n tot off s t o s₁ ∧ Last sb copyin n t o s₁ s' := by
  induction fuel with
  | zero =>
    intro tot off s _ hfuel _
    exact ⟨_, _, _, _, rfl, .refl, .done (by omega)⟩
  | succ fuel ih =>
    intro tot off s hwf hfuel hoff
    unfold State.writeiLoop
    by_cases hlt : tot < n
    · rw [if_pos hlt]
      have hbn : off / 1024 < 268 := by omega
      obtain ⟨a, s', hbmap, hb⟩ := bmap_cases hwf hbn
      rw [hbmap]
      cases a with
      | zero => exact ⟨_, _, _, _, rfl, .refl, .full hlt hb⟩
      | succ a =>
        have ha : a + 1 ≠ 0 := Nat.succ_ne_zero a
        have hpos : 0 < State.chunk n tot off := chunk_pos hlt
        have hle := chunk_le n tot off
        simp only
        split
        case isTrue hc =>
          have hwf' := (hb.copied_logged hbn ha (copyin tot (State.chunk n tot off)).1).wf (hb.wf hwf)
          obtain ⟨t, o, s₁, s'', heq, hcopied, hlast⟩ := ih (tot + State.chunk n tot off)
            (off + State.chunk n tot off) _ hwf' (by omega) (by omega)
          exact ⟨t, o, s₁, s'', heq, .turn hlt hb ha hc hcopied, hlast⟩
        case isFalse hc =>
          exact ⟨_, _, _, _, rfl, .refl, .failed hlt hb ha (Bool.eq_false_iff.mpr hc)⟩
    · rw [if_neg hlt]
      exact ⟨_, _, _, _, rfl, .refl, .done (by omega)⟩

/-- What the loop leaves alone: the inode but for its addresses, blocks that were there, and the log
but for what is added to it. -/
structure After (sb : Superblock) (s s' : State) : Prop where
  wf : Wf sb s'
  inum : s'.inum = s.inum
  ip : ∃ addrs, s'.ip = { s.ip with addrs := addrs }
  home : s'.disk.home = s.disk.home
  kept : ∀ k, k ≤ 268 → s.slot k ≠ 0 → s'.slot k = s.slot k
  log_mono : ∀ c, c ∈ s.disk.log → c ∈ s'.disk.log
  nodup : s.disk.log.Nodup → s'.disk.log.Nodup

namespace After

theorem refl (hwf : Wf sb s) : After sb s s :=
  ⟨hwf, rfl, ⟨_, rfl⟩, rfl, fun _ _ _ => rfl, fun _ h => h, fun h => h⟩

theorem trans {s'' : State} (h : After sb s s') (h' : After sb s' s'') : After sb s s'' := by
  refine ⟨h'.wf, h'.inum.trans h.inum, ?_, h'.home.trans h.home, fun k hk hne => ?_,
    fun c hc => h'.log_mono c (h.log_mono c hc), fun hn => h'.nodup (h.nodup hn)⟩
  · obtain ⟨x, hx⟩ := h.ip
    obtain ⟨y, hy⟩ := h'.ip
    exact ⟨y, hy.trans (by rw [hx])⟩
  · have hkept := h.kept k hk hne
    exact (h'.kept k hk (hkept ▸ hne)).trans hkept

theorem size (h : After sb s s') : s'.ip.size = s.ip.size := by
  obtain ⟨x, hx⟩ := h.ip
  rw [hx]

end After

theorem Bmap.after (h : Bmap sb s bn a s') (hwf : Wf sb s) : After sb s s' :=
  ⟨h.wf hwf, h.inum, h.ip, h.home, fun _ hk hne => h.slot_kept hk hne,
    fun _ hc => h.log_mono hc, h.nodup⟩

theorem Writes.after (h : Writes s k f s') (hwf : Wf sb s)
    (hlog : ∀ c, c ∈ s.disk.log → c ∈ s'.disk.log) (hnodup : s.disk.log.Nodup → s'.disk.log.Nodup) :
    After sb s s' :=
  ⟨h.wf hwf, h.inum, ⟨_, h.ip⟩, h.home, fun _ hk _ => h.slot hwf hk, hlog, hnodup⟩

theorem Bmap.after_copied (h : Bmap sb s (off / 1024) a s') (hwf : Wf sb s) (hbn : off / 1024 < 268)
    (ha : a ≠ 0) (bytes : List UInt8) :
    After sb s { s' with disk := (s'.copied a off bytes).logWrite a } := by
  refine (h.after hwf).trans ((h.copied_logged hbn ha bytes).after (h.wf hwf) (fun c hc => ?_) ?_)
  · exact Disk.mem_log_logWrite.mpr (.inl hc)
  · exact fun hn => Disk.nodup_logWrite (d := s'.copied a off bytes) hn a

variable {copyin : State.Source} {t o : ℕ}

namespace Copied

theorem after (h : Copied sb copyin n tot off s t o s₁) (hwf : Wf sb s)
    (hoff : off + (n - tot) ≤ 268 * 1024) : After sb s s₁ := by
  induction h with
  | refl => exact .refl hwf
  | @turn tot off a _ _ s s' _ hlt hb ha _ _ ih =>
    have hpos : 0 < State.chunk n tot off := chunk_pos hlt
    have hle := chunk_le n tot off
    have hturn := hb.after_copied hwf (by omega) ha (copyin tot (State.chunk n tot off)).1
    exact hturn.trans (ih hturn.wf (by omega))

theorem progress (h : Copied sb copyin n tot off s t o s₁) (htot : tot ≤ n) :
    tot ≤ t ∧ t ≤ n ∧ o + tot = off + t := by
  induction h with
  | refl => exact ⟨le_rfl, htot, rfl⟩
  | @turn tot off a _ _ _ _ _ hlt _ _ _ _ ih =>
    have hle := chunk_le n tot off
    obtain ⟨h1, h2, h3⟩ := ih (by omega)
    exact ⟨by omega, h2, by omega⟩

theorem mapped (h : Copied sb copyin n tot off s t o s₁) (hwf : Wf sb s)
    (hoff : off + (n - tot) ≤ 268 * 1024) {p : ℕ} (hp : off ≤ p) (hp' : p < o) :
    s₁.slot (p / 1024) ≠ 0 := by
  induction h with
  | refl => omega
  | @turn tot off a t o s s' s₁ hlt hb ha _ rest ih =>
    have hpos : 0 < State.chunk n tot off := chunk_pos hlt
    have hle := chunk_le n tot off
    have hblock := chunk_block n tot off
    have hbn : off / 1024 < 268 := by omega
    have hwrites := hb.copied_logged hbn ha (copyin tot (State.chunk n tot off)).1
    have hwf' := hwrites.wf (hb.wf hwf)
    rcases Nat.lt_or_ge p (off + State.chunk n tot off) with hlt' | hge
    · have hpn : p / 1024 = off / 1024 := by omega
      have hslot := (hwrites.slot (hb.wf hwf) hbn.le).trans (hb.slot_self ha)
      have hne := ha
      rw [← hslot] at hne
      rw [hpn, (rest.after hwf' (by omega)).kept _ hbn.le hne]
      exact hne
    · exact ih hwf' (by omega) hge hp'

end Copied

theorem Last.after (h : Last sb copyin n t o s s') (hwf : Wf sb s)
    (hoff : o + (n - t) ≤ 268 * 1024) : After sb s s' := by
  cases h with
  | done => exact .refl hwf
  | full _ hb => exact hb.after hwf
  | failed hlt hb ha _ =>
    exact (hb.after hwf).trans
      ((hb.copied (by omega) ha _).after (hb.wf hwf) (fun _ hc => hc) fun hn => hn)

end LazyXv6.Storage
