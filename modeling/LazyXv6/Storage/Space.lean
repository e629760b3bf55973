import LazyXv6.Storage.Turns

/-!
# Whether there are enough blocks

The number of blocks that `writei` has to allocate for a range of bytes can be told beforehand
(`State.needed`), and the loop gets through the range if so many blocks are free, and only then.
-/

namespace LazyXv6.Storage

open Lib Function

variable {sb : Superblock} {s s' : State} {a b k bn tot off n lo cnt : ℕ} {f : Block}

def State.free (sb : Superblock) (s : State) : ℕ :=
  ((Finset.range sb.size).filter fun b => s.bit sb b = false).card

/-- How many blocks `bmap` has to allocate for block `bn`. -/
def State.cost (s : State) (bn : ℕ) : ℕ :=
  if s.slot bn ≠ 0 then 0 else if bn < 12 ∨ s.slot 268 ≠ 0 then 1 else 2

/-- How many are missing among the `cnt` blocks from `lo` on, with the indirect block. -/
def State.needed (s : State) (lo cnt : ℕ) : ℕ :=
  (List.range' lo cnt).countP (fun k => s.slot k = 0) +
    if 0 < cnt ∧ 12 < lo + cnt ∧ s.slot 268 = 0 then 1 else 0

/-- The number of blocks that the `n` bytes from `off` on lie in. -/
def span (off n : ℕ) : ℕ := if n = 0 then 0 else (off + n - 1) / 1024 + 1 - off / 1024

theorem State.free_eq_zero (h : s.NoFree sb) : s.free sb = 0 := by
  unfold State.free
  rw [Finset.card_eq_zero, Finset.filter_eq_empty_iff]
  intro b hb hbit
  rw [h b (Finset.mem_range.mp hb)] at hbit
  exact nomatch hbit

theorem Fills.free_eq (h : Fills sb s k b s') : s.free sb = s'.free sb + 1 := by
  unfold State.free
  have hmem : b ∈ (Finset.range sb.size).filter fun c => s.bit sb c = false :=
    Finset.mem_filter.mpr ⟨Finset.mem_range.mpr h.lt, h.free⟩
  have heq : ((Finset.range sb.size).filter fun c => s'.bit sb c = false) =
      ((Finset.range sb.size).filter fun c => s.bit sb c = false).erase b := by
    ext c
    rw [Finset.mem_erase, Finset.mem_filter, Finset.mem_filter, Finset.mem_range]
    constructor
    · rintro ⟨hc, hbit⟩
      rw [h.bits c hc, Bool.or_eq_false_iff, decide_eq_false_iff_not] at hbit
      exact ⟨hbit.1, hc, hbit.2⟩
    · rintro ⟨hne, hc, hbit⟩
      refine ⟨hc, ?_⟩
      rw [h.bits c hc, hbit, decide_eq_false hne, Bool.or_false]
  rw [heq, Finset.card_erase_add_one hmem]

theorem Writes.free_eq (h : Writes s k f s') (hwf : Wf sb s) : s'.free sb = s.free sb := by
  unfold State.free
  congr 1
  refine Finset.filter_congr fun c hc => ?_
  rw [h.bit hwf (Finset.mem_range.mp hc)]

theorem slot_of_no_indirect (h : s.slot 268 = 0) (hbn : 12 ≤ bn) (hbn' : bn < 268) :
    s.slot bn = 0 := by
  rw [State.slot, slot_entry hbn hbn']
  exact if_pos h

/-- `bmap` finds or allocates the block if there are so many, and only then. -/
theorem Bmap.cost (h : Bmap sb s bn a s') (hlt : bn < 268) :
    (a ≠ 0 → s.free sb = s'.free sb + s.cost bn) ∧ (a = 0 → s.free sb < s.cost bn) := by
  unfold State.cost
  cases h with
  | found h =>
    rw [if_pos h]
    exact ⟨fun _ => rfl, fun ha => absurd ha h⟩
  | full h hfull =>
    rw [if_neg (not_not.mpr h), State.free_eq_zero hfull]
    refine ⟨fun ha => absurd rfl ha, fun _ => ?_⟩
    split <;> omega
  | filled hind h =>
    rw [if_neg (not_not.mpr h.empty), if_pos hind]
    exact ⟨fun _ => h.free_eq, fun ha => absurd ha h.ne_zero⟩
  | indirect hbn h hfull =>
    have hind := h.empty
    rw [if_neg (not_not.mpr (slot_of_no_indirect hind hbn hlt)), if_neg (by omega), h.free_eq,
      State.free_eq_zero hfull]
    exact ⟨fun ha => absurd rfl ha, fun _ => by omega⟩
  | both hbn h h' =>
    have hind := h.empty
    rw [if_neg (not_not.mpr (slot_of_no_indirect hind hbn hlt)), if_neg (by omega), h.free_eq,
      h'.free_eq]
    exact ⟨fun _ => rfl, fun ha => absurd ha h'.ne_zero⟩

theorem Bmap.slot_indirect (h : Bmap sb s bn a s') (ha : a ≠ 0) (hlt : bn < 268) :
    s'.slot 268 = 0 ↔ s.slot 268 = 0 ∧ bn < 12 := by
  cases h with
  | found h =>
    refine ⟨fun hind => ⟨hind, ?_⟩, fun hind => hind.1⟩
    by_contra hge
    exact h (slot_of_no_indirect hind (by omega) hlt)
  | full | indirect => exact absurd rfl ha
  | filled hind h =>
    rw [h.slot_of_ne le_rfl (by omega)]
    omega
  | both hbn h h' =>
    have hne := h.ne_zero
    rw [h'.slot_of_ne le_rfl (by omega), h.slot_self]
    omega

theorem State.needed_congr (h : ∀ k, k ≤ 268 → s'.slot k = s.slot k) (hlo : lo + cnt ≤ 268) :
    s'.needed lo cnt = s.needed lo cnt := by
  unfold State.needed
  rw [h 268 le_rfl]
  congr 1
  refine List.countP_congr fun k hk => ?_
  rw [List.mem_range'_1] at hk
  rw [h k (by omega)]

theorem Bmap.needed (h : Bmap sb s lo a s') (ha : a ≠ 0) (hlo : lo + (cnt + 1) ≤ 268) :
    s.needed lo (cnt + 1) = s.cost lo + s'.needed (lo + 1) cnt := by
  have hind := h.slot_indirect ha (by omega)
  have hrest : (List.range' (lo + 1) cnt).countP (fun k => s'.slot k = 0) =
      (List.range' (lo + 1) cnt).countP fun k => s.slot k = 0 := by
    refine List.countP_congr fun k hk => ?_
    rw [List.mem_range'_1] at hk
    rw [h.slot_of_ne (by omega) (by omega)]
  unfold State.needed State.cost
  rw [List.range'_succ, List.countP_cons, hrest]
  by_cases hslot : s.slot lo = 0
  · rw [if_pos (by simpa using hslot), if_neg (not_not.mpr hslot)]
    by_cases hone : lo < 12 ∨ s.slot 268 ≠ 0
    · rw [if_pos hone]
      split <;> split <;> omega
    · rw [if_neg hone, if_pos (by omega), if_neg (by omega)]
      omega
  · have hback : 12 ≤ lo → s.slot 268 ≠ 0 := fun hge hind =>
      hslot (slot_of_no_indirect hind hge (by omega))
    rw [if_neg (by simpa using hslot), if_pos hslot]
    split <;> split <;> omega

theorem State.cost_le_needed (s : State) (hlo : lo < 268) : s.cost lo ≤ s.needed lo (cnt + 1) := by
  unfold State.needed State.cost
  rw [List.range'_succ, List.countP_cons]
  by_cases hslot : s.slot lo = 0
  · rw [if_neg (not_not.mpr hslot), if_pos (decide_eq_true hslot)]
    split <;> split <;> omega
  · rw [if_pos hslot]
    exact Nat.zero_le _

theorem State.needed_zero (s : State) (lo : ℕ) : s.needed lo 0 = 0 := by
  unfold State.needed
  rw [if_neg (by omega)]
  rfl

theorem span_chunk {e : ℕ} (off : ℕ) (h : tot < n) (he : tot + State.chunk n tot off + e ≤ n) :
    span off (State.chunk n tot off + e) = span (off + State.chunk n tot off) e + 1 ∧
    (e ≠ 0 → (off + State.chunk n tot off) / 1024 = off / 1024 + 1) := by
  have hmod : off % 1024 < 1024 := Nat.mod_lt _ (by decide)
  have hchunk : State.chunk n tot off = min (n - tot) (1024 - off % 1024) := rfl
  generalize State.chunk n tot off = m at hchunk he
  unfold span
  rw [if_neg (by omega)]
  split <;> omega

theorem span_le {e : ℕ} (hoff : off + e ≤ 268 * 1024) (he : e ≠ 0) :
    off / 1024 + span off e ≤ 268 := by
  unfold span
  rw [if_neg he]
  omega

theorem span_pos {e : ℕ} (he : e ≠ 0) : ∃ k, span off e = k + 1 := by
  unfold span
  rw [if_neg he]
  exact ⟨(off + e - 1) / 1024 - off / 1024, by omega⟩

/-- What the turns took, and what is needed for `e` bytes more. -/
theorem Copied.needed {copyin : State.Source} {t o e : ℕ} (h : Copied sb copyin n tot off s t o s')
    (hwf : Wf sb s) (hoff : off + (n - tot) ≤ 268 * 1024) (htot : tot ≤ n) (he : t + e ≤ n) :
    s.free sb + s'.needed (o / 1024) (span o e) =
    s'.free sb + s.needed (off / 1024) (span off (t + e - tot)) := by
  induction h with
  | @refl tot off s => rw [Nat.add_sub_cancel_left]
  | @turn tot off a t o s s' s₁ hlt hb ha _ rest ih =>
    have hpos : 0 < State.chunk n tot off := chunk_pos hlt
    have hle := chunk_le n tot off
    have hbn : off / 1024 < 268 := by omega
    obtain ⟨h1, h2, h3⟩ := rest.progress (by omega)
    have hwrites := hb.copied_logged hbn ha (copyin tot (State.chunk n tot off)).1
    have hrest := ih (hwrites.wf (hb.wf hwf)) (by omega) (by omega) he
    have hcost := (hb.cost hbn).1 ha
    rw [hwrites.free_eq (hb.wf hwf)] at hrest
    have hbytes : t + e - tot = State.chunk n tot off + (t + e - (tot + State.chunk n tot off)) := by
      omega
    obtain ⟨hspan, hnext⟩ := span_chunk off hlt
      (show tot + State.chunk n tot off + (t + e - (tot + State.chunk n tot off)) ≤ n by omega)
    rw [hbytes, hspan]
    generalize t + e - (tot + State.chunk n tot off) = e' at *
    rcases Nat.eq_zero_or_pos e' with rfl | hpos'
    · have hspan0 : span (off + State.chunk n tot off) 0 = 0 := if_pos rfl
      rw [hspan0, State.needed_zero] at hrest
      rw [hspan0, hb.needed ha (by omega), State.needed_zero]
      omega
    · have hlim := span_le (show off + State.chunk n tot off + e' ≤ 268 * 1024 by omega) (by omega)
      rw [hnext (by omega)] at hlim
      rw [hb.needed ha (by omega), ← State.needed_congr (fun k hk => hwrites.slot (hb.wf hwf) hk)
        (by omega), ← hnext (by omega)]
      omega

end LazyXv6.Storage
